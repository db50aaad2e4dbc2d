import Dicebox.Proofs.Folds
import Dicebox.Proofs.Notation

/-! # Dice stay within their bounds

Whatever is done to the dice of a term, every die on the table has the number of sides that the term
asks for, belongs to that term, and shows one of its faces. No modifier of any kind takes that away,
because it is true of a throw and every later throw is of a die like the one before.

- `Die.Proper`, `Die.Sound`: a die of a term, and one whose earlier faces are faces as well.
- `Modifier.Does.sound`: a modifier.
- `Dice.roll_proper`: a whole term.
- `Expr.roll_ensures_proper`: all terms of an expression.
-/

namespace Dicebox

/-- A die has so many sides, belongs to the term at this place and shows one of its faces. -/
structure Die.Proper (sides term : Int) (d : Die) : Prop where
  sides_eq : d.sides = sides
  term_eq : d.term = term
  face : OnDie sides d.value

/-- All dice of a term are proper. -/
abbrev AllProper (sides term : Int) (dice : List Die) : Prop := ∀ d ∈ dice, d.Proper sides term

variable {sides term : Int} {ws : List Int} {es : List Event}

/-- A die has so many sides, belongs to the term at this place, and all that it has shown are its
faces. -/
structure Die.Sound (sides term : Int) (d : Die) : Prop where
  sides_eq : d.sides = sides
  term_eq : d.term = term
  faces : ∀ v ∈ d.faces, OnDie sides v

theorem Die.Sound.proper {d : Die} (h : d.Sound sides term) : d.Proper sides term :=
  ⟨h.sides_eq, h.term_eq, h.faces _ (List.mem_append_right _ List.mem_cons_self)⟩

/-! ## Modifiers -/

theorem Redraws.onDie {values : List Int} {n : Nat} {v : Int}
    (h : Redraws values sides n v ws) : ∀ w ∈ ws, OnDie sides w := by
  induction h with
  | settled | stopped =>
    intro w hw
    cases hw
  | again _ hface _ ih => exact List.forall_mem_cons.mpr ⟨hface, ih⟩

theorem Die.Rerolls.sound {values : List Int} {once : Bool} {cap : Int} {d d' : Die}
    (h : d.Rerolls values once cap ws es d') (hd : d.Sound sides term) : d'.Sound sides term := by
  cases h with
  | stays => exact hd
  | thrown _ _ hred =>
    rw [hd.sides_eq] at hred
    refine ⟨hd.sides_eq, hd.term_eq, ?_⟩
    rw [faces_thrownAgain]
    exact List.forall_mem_append.mpr ⟨hd.faces, hred.onDie⟩

namespace Explosion

variable {threshold cap : Int} {d : Die} {new : List Die}

theorem Chain.sound {left : Nat} (h : Chain threshold cap left d ws es new)
    (hd : d.Sound sides term) : ∀ d' ∈ new, d'.Sound sides term := by
  induction h with
  | rests => exact List.forall_mem_singleton.mpr hd
  | capped => exact List.forall_mem_singleton.mpr ⟨hd.sides_eq, hd.term_eq, hd.faces⟩
  | goesOn _ hface _ ih =>
    rw [hd.sides_eq] at hface
    refine List.forall_mem_cons.mpr ⟨⟨hd.sides_eq, hd.term_eq, hd.faces⟩, ih ?_⟩
    exact ⟨hd.sides_eq, hd.term_eq, List.forall_mem_singleton.mpr hface⟩

end Explosion

/-- **No modifier takes a die out of its bounds.** -/
theorem Modifier.Does.sound {m : Modifier} {dice dice' : List Die} (h : m.Does dice ws es dice')
    (hdice : ∀ d ∈ dice, d.Sound sides term) : ∀ d ∈ dice', d.Sound sides term := by
  refine h.forall_mem (fun _ hd => hd.sound) (fun hchain => hchain.sound) (fun d => ?_) hdice
  exact ⟨fun hd => ⟨hd.1, hd.2, hd.3⟩, fun hd => ⟨hd.1, hd.2, hd.3⟩⟩

/-! ## Terms -/

/-- A term with at least one die of at least one side, all of them proper. -/
structure DiceResult.Proper (term : Int) (r : DiceResult) : Prop where
  count : 1 ≤ r.count
  sides : 1 ≤ r.sides
  dice : AllProper r.sides term r.dice

theorem Dice.roll_sound {t : Dice} {vs : List Int} {r : DiceResult}
    (h : (t.roll term).Yields vs es r) : ∀ d ∈ r.dice, d.Sound t.sides term := by
  obtain ⟨faces, ws, dice, rfl, -, hfaces, hall, rfl⟩ := roll_yields h
  refine hall.invariant (fun _ hm => hm.sound) fun d hd => ?_
  obtain ⟨face, hface, rfl⟩ := List.mem_map.mp hd
  exact ⟨rfl, rfl, List.forall_mem_singleton.mpr (hfaces face hface)⟩

theorem Dice.roll_proper {t : Dice} (hcount : 1 ≤ t.count) (hsides : 1 ≤ t.sides)
    {vs : List Int} {r : DiceResult} (h : (t.roll term).Yields vs es r) : r.Proper term := by
  have hdice := roll_sound h
  obtain ⟨faces, ws, dice, rfl, -, -, -, rfl⟩ := roll_yields h
  exact ⟨hcount, hsides, fun d hd => (hdice d hd).proper⟩

/-- Every dice term among the results is proper, for a place that is not negative. -/
def TermResult.Proper : TermResult → Prop
  | constant _ => True
  | dice r => ∃ term, 0 ≤ term ∧ r.Proper term

/-- Every dice term asks for at least one die of at least one side. -/
def Expr.Throwable : Expr → Prop
  | constant _ _ => True
  | dice t _ => 1 ≤ t.count ∧ 1 ≤ t.sides
  | negate e _ => e.Throwable
  | binary _ l r _ => l.Throwable ∧ r.Throwable

theorem Expr.Fits.throwable {limits : Limits} {e : Expr} (h : e.Fits limits) : e.Throwable := by
  induction e with
  | constant => trivial
  | dice t s => exact ⟨h.count.1, h.sides.1⟩
  | negate e s ih => exact ih h
  | binary op l r s ihl ihr => exact ⟨ihl h.1, ihr h.2⟩

theorem Expr.throwable_bare {e : Expr} : e.bare.Throwable ↔ e.Throwable := by
  induction e with
  | constant | dice => rfl
  | negate e s ih => exact ih
  | binary op l r s ihl ihr => exact and_congr ihl ihr

theorem Expr.Folds.proper {e : Expr} {place : Nat} {vs : List Int} {terms : List TermResult}
    {v : Int} (h : e.Folds place vs es terms v) (he : e.Throwable) : ∀ t ∈ terms, t.Proper := by
  induction h with
  | constant => exact List.forall_mem_singleton.mpr trivial
  | dice hr =>
    have hproper := Dice.roll_proper he.1 he.2 hr
    exact List.forall_mem_singleton.mpr ⟨_, Int.natCast_nonneg _, hproper⟩
  | negate _ ih => exact ih he
  | binary _ _ _ ihl ihr => exact List.forall_mem_append.mpr ⟨ihl he.1, ihr he.2⟩

theorem Expr.roll_ensures_proper {e : Expr} (he : e.Throwable) (text : Option String) :
    (e.roll text).Ensures fun r => ∀ t ∈ r.terms, t.Proper :=
  .of_yields fun h => by
    obtain ⟨-, _, -, hfolds⟩ := roll_yields h
    exact hfolds.proper he

end Dicebox
