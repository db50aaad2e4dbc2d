import Dicebox.Data

/-! # Checked values

Reading plain data either gives a value or finds out what is wrong with it. Parts that do not depend
on each other are all looked at, so the issues of a record are complete and come in the order of its
fields; a condition on a whole is looked at only once its parts are in order.

- `Cause`, `Issue`: what may be wrong, and where.
- `Checked`: a value, or the issues. Its applicative structure collects them.
- `Checked.andThen`: a further condition.
- `Checked.all`: every item of a list.
-/

namespace Dicebox

/-- What may be wrong with a value. Reasons of the kind `ρ` are about values that are right in
themselves. -/
inductive Cause (ρ : Type) where
  | missing
  | notRecord
  | notList
  | notText
  | notInt
  /-- A text that is no numeral. -/
  | badNumeral
  /-- A number that is too large for an integer. -/
  | longNumeral
  /-- A number between two integers. -/
  | fractional
  | notFinite
  | notReal
  | badReal
  | notBool
  | badBool
  | notTime
  | badTime
  /-- A count of seconds that is too far away. -/
  | farTime
  | notAmongNames
  /-- A record that has to say of which kind it is. -/
  | untagged
  | unknownTag
  /-- Something that cannot say of which kind it is. -/
  | notTaggable
  /-- A number below the least one that is allowed. -/
  | tooSmall (least : Int)
  /-- A number that is not above one. -/
  | notAbove (low : Int)
  /-- A number that is not below one. -/
  | notBelow (high : Int)
  | refused (reason : ρ)
  deriving DecidableEq, Repr

/-- What is wrong, and the way to it from the outermost value. -/
structure Issue (ρ : Type) where
  path : List String
  cause : Cause ρ
  deriving DecidableEq, Repr

/-- A value, or what is wrong with it. -/
inductive Checked (ρ α : Type) where
  | good (value : α)
  | bad (issues : List (Issue ρ))
  deriving DecidableEq, Repr

namespace Checked

variable {ρ α β : Type}

/-- A value with one thing wrong. -/
def fail (cause : Cause ρ) : Checked ρ α := bad [⟨[], cause⟩]

def map (f : α → β) : Checked ρ α → Checked ρ β
  | good a => good (f a)
  | bad is => bad is

/-- Two values that do not depend on each other: the issues of both are collected. -/
def seq : Checked ρ (α → β) → Checked ρ α → Checked ρ β
  | good f, good a => good (f a)
  | good _, bad is => bad is
  | bad is, good _ => bad is
  | bad is, bad js => bad (is ++ js)

instance : Applicative (Checked ρ) where
  pure := good
  map := map
  seq f a := f.seq (a ())

/-- A condition on a good value. -/
def andThen : Checked ρ α → (α → Checked ρ β) → Checked ρ β
  | good a, f => f a
  | bad is, _ => bad is

/-- The issues one step further away. -/
def under (name : String) : Checked ρ α → Checked ρ α
  | good a => good a
  | bad is => bad (is.map fun i => { i with path := name :: i.path })

/-- Every item of a list, under its place, which starts at `place`. -/
def allFrom (place : Nat) : List (Checked ρ α) → Checked ρ (List α)
  | [] => good []
  | c :: cs => (((c.under (toString place)).map List.cons).seq (allFrom (place + 1) cs))

def all (cs : List (Checked ρ α)) : Checked ρ (List α) := allFrom 0 cs

/-! ## Good parts -/

@[simp] theorem map_good (f : α → β) (a : α) : (good a : Checked ρ α).map f = good (f a) := rfl

@[simp] theorem seq_good (f : α → β) (a : α) : (good f : Checked ρ (α → β)).seq (good a) = good (f a) :=
  rfl

@[simp] theorem andThen_good (a : α) (f : α → Checked ρ β) : (good a).andThen f = f a := rfl

@[simp] theorem under_good (name : String) (a : α) : (good a : Checked ρ α).under name = good a := rfl

theorem allFrom_good (place : Nat) (as : List α) :
    allFrom place (as.map (good (ρ := ρ))) = good as := by
  induction as generalizing place with
  | nil => rfl
  | cons a as ih => simp [allFrom, ih]

end Checked

end Dicebox
