import Dicebox.Expr.Roll
import Dicebox.Proofs.Throws
import Dicebox.Proofs.Notation.WellFormed

/-! # What a roll may throw

A die that is thrown again, set off by another one or thrown at first has the number of sides that
its term is written with, and nothing in a term fails. So what an expression throws are dice of its
leaves, and all that it may fail for is a division. This is known of a roll before any source is
asked: it is said of the roll itself, die by die.

- `Rolling.Confined`: the dice that a roll may throw, its failures and its values.
- `Rolling.Confined.bind`, `Rolling.Confined.foldl`: one roll after another.
- `Dice.roll_confined`: a term.
- `Expr.roll_confined`: a whole expression.
-/

namespace Dicebox

namespace Rolling

variable {α β σ : Type} {D : Int → Prop} {E : RollError → Prop} {P : α → Prop} {Q : β → Prop}

/-- A roll throws only dice with such sides, fails only for such reasons, and comes only to such
values. It reads no text on the way. -/
def Confined (D : Int → Prop) (E : RollError → Prop) (P : α → Prop) : Rolling α → Prop
  | done a => P a
  | fail e => E e
  | draw sides next => D sides ∧ ∀ face, (next face).Confined D E P
  | note event rest => event.reading? = none ∧ rest.Confined D E P

namespace Confined

theorem mono {D' : Int → Prop} {E' : RollError → Prop} {P' : α → Prop} {r : Rolling α}
    (h : r.Confined D E P) (hD : ∀ sides, D sides → D' sides) (hE : ∀ err, E err → E' err)
    (hP : ∀ a, P a → P' a) : r.Confined D' E' P' := by
  induction r with
  | done a => exact hP a h
  | fail e => exact hE e h
  | draw sides next ih => exact ⟨hD sides h.1, fun face => ih face (h.2 face)⟩
  | note event rest ih => exact ⟨h.1, ih h.2⟩

theorem bind {r : Rolling α} {f : α → Rolling β} (h : r.Confined D E P)
    (hf : ∀ a, P a → (f a).Confined D E Q) : (r.bind f).Confined D E Q := by
  induction r with
  | done a => exact hf a h
  | fail e => exact h
  | draw sides next ih => exact ⟨h.1, fun face => ih face (h.2 face)⟩
  | note event rest ih => exact ⟨h.1, ih h.2⟩

theorem foldl {step : β → α → Rolling β} {as : List α} {b : β} (hb : Q b)
    (hstep : ∀ b a, Q b → a ∈ as → (step b a).Confined D E Q) :
    (Rolling.foldl step b as).Confined D E Q := by
  induction as generalizing b with
  | nil => exact hb
  | cons a as ih =>
    refine (hstep b a hb List.mem_cons_self).bind fun b' hb' => ih hb' fun b a hb ha => ?_
    exact hstep b a hb (List.mem_cons_of_mem _ ha)

/-- A run fails only where the roll may, unless the source is to blame. -/
theorem error_run [RandomSource σ] {r : Rolling α} {source : σ} {err : RollError}
    (h : r.Confined D E P) (herr : (r.run source).outcome = .error err) : E err ∨ err.OfSource := by
  induction r generalizing source with
  | done a => cases herr
  | fail e =>
    obtain rfl := Except.error.inj herr
    exact .inl h
  | draw sides next ih =>
    by_cases hsource : err.OfSource
    · exact .inr hsource
    · have hown : ((draw sides next).run source).OfItself := by
        intro e he
        rw [herr] at he
        obtain rfl := Except.error.inj he
        exact hsource
      obtain ⟨face, source', -, -, hrun⟩ := run_draw hown
      rw [hrun] at herr
      exact ih face (h.2 face) herr
  | note event rest ih => exact ih h.2 herr

theorem reading?_run [RandomSource σ] {r : Rolling α} (h : r.Confined D E P) (source : σ) :
    ∀ event ∈ (r.run source).events, event.reading? = none := by
  induction r generalizing source with
  | done a => exact List.forall_mem_nil _
  | fail e => exact List.forall_mem_nil _
  | draw sides next ih =>
    rw [run]
    split
    · exact List.forall_mem_nil _
    · split
      · exact ih _ (h.2 _) _
      · exact List.forall_mem_nil _
  | note event rest ih => exact List.forall_mem_cons.mpr ⟨h.1, ih h.2 source⟩

end Confined

end Rolling

open Rolling

/-! ## Terms -/

/-- All dice have so many sides. -/
abbrev AllOfSides (sides : Int) (dice : List Die) : Prop := ∀ d ∈ dice, d.sides = sides

/-- A roll throws only dice with so many sides, never fails, and comes to values with a property. -/
abbrev Rolling.OwnDice {α : Type} (sides : Int) (P : α → Prop) : Rolling α → Prop :=
  Confined (· = sides) (fun _ => False) P

variable {sides : Int}

theorem allOfSides_cons {d : Die} {dice : List Die} :
    AllOfSides sides (d :: dice) ↔ d.sides = sides ∧ AllOfSides sides dice := List.forall_mem_cons

theorem allOfSides_reverse {dice : List Die} :
    AllOfSides sides dice.reverse ↔ AllOfSides sides dice := by
  simp only [AllOfSides, List.mem_reverse]

theorem throwDice_ownDice {term : Int} {n : Nat} {done : List Die} (hdone : AllOfSides sides done) :
    (throwDice sides term n done).OwnDice sides (AllOfSides sides) := by
  induction n generalizing done with
  | zero => exact hdone
  | succ n ih => exact ⟨rfl, fun face => ih (allOfSides_cons.mpr ⟨rfl, hdone⟩)⟩

theorem redraw_ownDice (values : List Int) (n : Nat) (v : Int) (earlier : List Int) :
    (redraw values sides n v earlier).OwnDice sides fun _ => True := by
  induction n generalizing v earlier with
  | zero => trivial
  | succ n ih =>
    refine ⟨rfl, fun face => ?_⟩
    dsimp only
    split
    · exact ih face _
    · trivial

theorem Die.reroll_ownDice (values : List Int) (once : Bool) (cap : Int) (d : Die) :
    (d.reroll values once cap).OwnDice d.sides fun d' => d'.sides = d.sides := by
  rw [reroll]
  split
  · refine (redraw_ownDice values _ d.value []).bind fun r _ => ?_
    dsimp only
    split
    · exact ⟨rfl, rfl⟩
    · rfl
  · rfl

namespace Explosion

variable {threshold cap : Int} {d : Die} {done : List Die}

theorem chain_ownDice {left : Nat} (hd : d.sides = sides) (hdone : AllOfSides sides done) :
    (chain threshold cap left d done).OwnDice sides (AllOfSides sides) := by
  induction left generalizing d done with
  | zero =>
    rw [chain]
    split
    · exact allOfSides_cons.mpr ⟨hd, hdone⟩
    · exact ⟨rfl, allOfSides_cons.mpr ⟨hd, hdone⟩⟩
  | succ left ih =>
    rw [chain]
    split
    · exact allOfSides_cons.mpr ⟨hd, hdone⟩
    · exact ⟨hd, fun face => ih hd (allOfSides_cons.mpr ⟨hd, hdone⟩)⟩

theorem step_ownDice (hd : d.sides = sides) (hdone : AllOfSides sides done) :
    (step threshold cap done d).OwnDice sides (AllOfSides sides) := by
  rw [step]
  split
  · exact chain_ownDice hd hdone
  · exact allOfSides_cons.mpr ⟨hd, hdone⟩

end Explosion

theorem foldl_reverse_ownDice {step : List Die → Die → Rolling (List Die)} {dice : List Die}
    (hdice : AllOfSides sides dice)
    (hstep : ∀ done d, AllOfSides sides done → d.sides = sides →
      (step done d).OwnDice sides (AllOfSides sides)) :
    ((Rolling.foldl step [] dice).bind fun done => .done done.reverse).OwnDice sides
      (AllOfSides sides) := by
  have hnone : AllOfSides sides [] := List.forall_mem_nil _
  refine (Confined.foldl hnone fun done d hdone hd => hstep done d hdone (hdice d hd)).bind ?_
  exact fun done hdone => allOfSides_reverse.mpr hdone

theorem Modifier.apply_ownDice (m : Modifier) {dice : List Die} (hdice : AllOfSides sides dice) :
    (m.apply dice).OwnDice sides (AllOfSides sides) := by
  cases m with
  | reroll values once cap =>
    refine foldl_reverse_ownDice hdice fun done d hdone hd => ?_
    have hreroll := Die.reroll_ownDice values once cap d
    rw [hd] at hreroll
    exact hreroll.bind fun d' hd' => allOfSides_cons.mpr ⟨hd', hdone⟩
  | explode threshold cap =>
    exact foldl_reverse_ownDice hdice fun done d hdone hd => Explosion.step_ownDice hd hdone
  | select rule count => exact (forall_mem_selectAll fun _ => Iff.rfl).mpr hdice
  | success threshold => exact hdice
  | failure threshold => exact hdice

/-- **A term throws only its own dice, and never fails.** -/
theorem Dice.roll_ownDice (t : Dice) (term : Int) :
    (t.roll term).OwnDice t.sides fun _ => True := by
  have hnone : AllOfSides t.sides [] := List.forall_mem_nil _
  have hthrown : (t.thrown term).OwnDice t.sides (AllOfSides t.sides) :=
    (throwDice_ownDice hnone).bind fun _ hdice => allOfSides_reverse.mpr hdice
  refine hthrown.bind fun dice hdice => ?_
  refine (Confined.foldl hdice fun _ m hdice _ => m.apply_ownDice hdice).bind fun _ _ => ?_
  trivial

/-- A term fails only where the source is to blame. -/
theorem Dice.ofSource_of_error {σ : Type} [RandomSource σ] {t : Dice} {term : Int} {source : σ}
    {err : RollError} (h : ((t.roll term).run source).outcome = .error err) : err.OfSource :=
  ((t.roll_ownDice term).error_run h).resolve_left id

/-! ## Expressions -/

/-- An expression throws dice of its leaves, and fails only of itself. -/
theorem Expr.fold_confined {e : Expr} {D : Int → Prop} (hD : ∀ t, .inr t ∈ e.leaves → D t.sides)
    (text : Option String) (done : List TermResult) :
    (e.fold text done).Confined D (fun err => ¬ err.OfSource) fun _ => True := by
  induction e generalizing done with
  | constant v s => trivial
  | dice t s =>
    have hsides : D t.sides := hD t (List.mem_singleton_self _)
    refine ((t.roll_ownDice done.length).mono ?_ (fun _ => False.elim) (fun _ h => h)).bind ?_
    · rintro sides rfl
      exact hsides
    · exact fun _ _ => trivial
  | negate e s ih => exact (ih hD done).bind fun _ _ => trivial
  | binary op l r s ihl ihr =>
    have hleft := fun t ht => hD t (List.mem_append_left _ ht)
    have hright := fun t ht => hD t (List.mem_append_right _ ht)
    refine (ihl hleft done).bind fun p _ => (ihr hright p.2).bind fun q _ => ?_
    have hcombine : (combine text op r p.1 q.1).Confined D (fun err => ¬ err.OfSource)
        fun _ => True := by
      rw [combine]
      split
      · trivial
      · exact id
    exact hcombine.bind fun _ _ => trivial

/-- **An expression throws only dice of its leaves, and fails only of itself.** -/
theorem Expr.roll_confined {e : Expr} {D : Int → Prop} (hD : ∀ t, .inr t ∈ e.leaves → D t.sides)
    (text : Option String) :
    (e.roll text).Confined D (fun err => ¬ err.OfSource) fun _ => True :=
  (e.fold_confined hD text []).bind fun _ _ => ⟨rfl, trivial⟩

end Dicebox
