import Dicebox.Data.Shown
import Dicebox.Event
import Dicebox.Expr
import Dicebox.Source

/-! # Rolls in progress

A roll in progress is the tree of the dice that it still throws: it is done, or it has failed, or it
waits for a die and goes on with the face that the die will show. It knows nothing of sources, so
what can be said about its dice holds for all of them. Running it asks a source for each die, in
order, and holds the source to its contract: an integer between 1 and the number of sides.

- `Rolling`: the tree, with `Rolling.bind` for one roll after another.
- `Rolling.run`: a roll against a source.
-/

namespace Dicebox

/-- Why a roll has no result. -/
inductive RollError where
  /-- The divisor in this stretch of text, shown as `divisor`, came out as zero. -/
  | divisionByZero (span : Span) (divisor : String)
  /-- The source gave something else than a face of the die. -/
  | outOfContract (value : Data) (sides : Int)
  /-- The source gave nothing for a die. -/
  | source (fault : SourceFault) (sides : Int)

namespace RollError

/-- What is said can be shown: a value that the source gave may have too many digits for that. -/
def showable : RollError → Bool
  | outOfContract value sides => value.showable && Numeral.showable sides
  | divisionByZero _ _ | source _ _ => true

def message : RollError → String
  | divisionByZero _ divisor => "Division by zero: '" ++ divisor ++ "' evaluated to 0"
  | outOfContract value sides =>
    if value.showable && Numeral.showable sides then
      "Random source returned " ++ value.shown ++ s!" for a d{sides} (expected 1-{sides})"
    else Numeral.tooLongToShow
  | source fault _ => fault.message

def position? : RollError → Option Int
  | divisionByZero divisor _ => some divisor.start
  | outOfContract _ _ | source _ _ => none

end RollError

/-- A roll that still throws dice before it has its value. -/
inductive Rolling (α : Type) where
  /-- The roll is over. -/
  | done (value : α)
  /-- The roll has no result. -/
  | fail (error : RollError)
  /-- A die with so many sides is thrown, and its face decides how the roll goes on. -/
  | draw (sides : Int) (next : Int → Rolling α)
  /-- Something happens that is worth telling. -/
  | note (event : Event) (rest : Rolling α)

namespace Rolling

variable {α β γ : Type}

/-- A roll, and then one that depends on its value. -/
def bind : Rolling α → (α → Rolling β) → Rolling β
  | done a, f => f a
  | fail e, _ => fail e
  | draw sides next, f => draw sides fun face => (next face).bind f
  | note event rest, f => note event (rest.bind f)

instance : Monad Rolling where
  pure := done
  bind := bind

def face (sides : Int) : Rolling Int := draw sides done

/-- Goes through a list with a state that each step may throw dice for. -/
def foldl (step : β → α → Rolling β) : β → List α → Rolling β
  | b, [] => done b
  | b, a :: as => (step b a).bind fun b => foldl step b as

@[simp] theorem done_bind (a : α) (f : α → Rolling β) : (done a).bind f = f a := rfl

@[simp] theorem fail_bind (e : RollError) (f : α → Rolling β) : (fail e).bind f = fail e := rfl

@[simp] theorem draw_bind (sides : Int) (next : Int → Rolling α) (f : α → Rolling β) :
    (draw sides next).bind f = draw sides fun face => (next face).bind f := rfl

@[simp] theorem note_bind (event : Event) (rest : Rolling α) (f : α → Rolling β) :
    (note event rest).bind f = note event (rest.bind f) := rfl

theorem bind_assoc (r : Rolling α) (f : α → Rolling β) (g : β → Rolling γ) :
    (r.bind f).bind g = r.bind fun a => (f a).bind g := by
  induction r with
  | done => rfl
  | fail => rfl
  | draw sides next ih => simp [ih]
  | note event rest ih => simp [ih]

end Rolling

/-! ## Running -/

/-- How a roll came out, the source after it, and the events on the way. -/
structure Run (σ α : Type) where
  outcome : Except RollError α
  source : σ
  events : List Event

/-- The face that a value shows on a die, if it keeps the contract. -/
def faceOf? (sides : Int) : Data → Option Int
  | .int v => if 1 ≤ v ∧ v ≤ sides then some v else none
  | _ => none

namespace Rolling

variable {σ α : Type} [RandomSource σ]

def run : Rolling α → σ → Run σ α
  | done a, s => ⟨.ok a, s, []⟩
  | fail e, s => ⟨.error e, s, []⟩
  | draw sides next, s =>
    match RandomSource.next s 1 sides with
    | (.error f, s) => ⟨.error (.source f sides), s, []⟩
    | (.ok v, s) =>
      match faceOf? sides v with
      | some face => (next face).run s
      | none => ⟨.error (.outOfContract v sides), s, []⟩
  | note event rest, s =>
    let r := rest.run s
    { r with events := event :: r.events }

end Rolling

end Dicebox
