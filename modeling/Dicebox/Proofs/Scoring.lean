import Dicebox.Proofs.Placement
import Dicebox.Source.Kinds

/-! # What is counted does nothing to the dice

A modifier that says what counts as a success or a failure leaves the dice as they lie and throws
none. So it may stand anywhere among the modifiers of a term, and the dice would be the same without
it. The score looks for it wherever it stands, and finds the same one as long as there is only one
of its kind, which the reader sees to.

- `Modifier.acts`, `acting`: the modifiers that do something to the dice.
- `Dice.table`: the dice of a term behind all of its modifiers.
- `Dice.roll_eq_map`: a term is its dice, and then their score.
- `score_of_perm`: the score of modifiers in another order.
-/

namespace Dicebox

open Rolling

/-! ## The dice -/

/-- The modifier does something to the dice, and does not only say what is counted. -/
def Modifier.acts : Modifier → Bool
  | .select _ _ | .explode _ _ | .reroll _ _ _ => true
  | .success _ | .failure _ => false

/-- The modifiers that do something to the dice, in order. -/
def acting (ms : List Modifier) : List Modifier := ms.filter Modifier.acts

theorem Modifier.apply_of_not_acts {m : Modifier} (hm : m.acts = false) (dice : List Die) :
    m.apply dice = .done dice := by
  cases m with
  | success threshold => rfl
  | failure threshold => rfl
  | select | explode | reroll => simp [acts] at hm

/-- **Only the modifiers that act do something to the dice.** -/
theorem foldl_apply_acting (ms : List Modifier) (dice : List Die) :
    foldl (fun dice m => m.apply dice) dice ms =
      foldl (fun dice m => m.apply dice) dice (acting ms) := by
  induction ms generalizing dice with
  | nil => rfl
  | cons m ms ih =>
    by_cases hm : m.acts
    · rw [acting, List.filter_cons_of_pos hm, foldl, foldl]
      exact congrArg _ (funext ih)
    · rw [acting, List.filter_cons_of_neg hm, foldl,
        Modifier.apply_of_not_acts (Bool.eq_false_iff.mpr hm), done_bind]
      exact ih dice

/-- The dice of a term behind all of its modifiers. -/
def Dice.table (t : Dice) (term : Int) : Rolling (List Die) :=
  (t.thrown term).bind fun dice => foldl (fun dice m => m.apply dice) dice t.modifiers

def Dice.scored (t : Dice) (dice : List Die) : DiceResult :=
  ⟨t.canonical, t.count, t.sides, dice, (score dice t.modifiers).1, (score dice t.modifiers).2⟩

theorem Dice.roll_eq_map (t : Dice) (term : Int) : t.roll term = (t.table term).map t.scored := by
  rw [table, map_of_bind]
  rfl

def Dice.withModifiers (t : Dice) (ms : List Modifier) : Dice := { t with modifiers := ms }

theorem Dice.table_withModifiers (t : Dice) {ms : List Modifier}
    (hms : acting ms = acting t.modifiers) (term : Int) :
    (t.withModifiers ms).table term = t.table term := by
  refine congrArg _ (funext fun dice => ?_)
  have hmodifiers : (t.withModifiers ms).modifiers = ms := rfl
  rw [hmodifiers, foldl_apply_acting ms, foldl_apply_acting t.modifiers, hms]

/-! ## The score -/

/-- A search that only one element can answer finds it wherever it stands. -/
theorem findSome?_of_perm {α β : Type} {f : α → Option β} {as bs : List α} (h : as.Perm bs)
    (hone : as.countP (fun a => (f a).isSome) ≤ 1) : as.findSome? f = bs.findSome? f := by
  induction h with
  | nil => rfl
  | @cons a as bs _ ih =>
    have hrest := ih (le_trans (List.sublist_cons_self a as).countP_le hone)
    rw [List.findSome?_cons, List.findSome?_cons, hrest]
  | swap a b as =>
    rw [List.findSome?_cons, List.findSome?_cons, List.findSome?_cons, List.findSome?_cons]
    cases ha : f a with
    | none => cases f b <;> rfl
    | some x =>
      cases hb : f b with
      | none => rfl
      | some y =>
        -- two elements that answer are one too many
        simp [ha, hb] at hone
  | trans h _ ih ih' =>
    have hcount := h.countP_eq fun a => (f a).isSome
    exact (ih hone).trans (ih' (hcount ▸ hone))

/-- The score looks for one modifier of each kind, and finds the same in every order. -/
theorem score_of_perm {ms ms' : List Modifier} (h : ms.Perm ms') (hms : Compatible ms)
    (dice : List Die) : score dice ms = score dice ms' := by
  have hsuccess : successThreshold? ms = successThreshold? ms' := by
    refine findSome?_of_perm h (le_trans (List.countP_mono_left ?_) (hms .success))
    intro m _ hm
    cases m with
    | success threshold => rfl
    | select | explode | reroll | failure => simp at hm
  have hfailure : failureThreshold? ms = failureThreshold? ms' := by
    refine findSome?_of_perm h (le_trans (List.countP_mono_left ?_) (hms .failure))
    intro m _ hm
    cases m with
    | failure threshold => rfl
    | select | explode | reroll | success => simp at hm
  rw [score, score, hsuccess, hfailure]

/-- Modifiers that act alike and count alike make the same of the dice but for how it is written. -/
theorem Dice.scored_withModifiers {t : Dice} (ht : Compatible t.modifiers) {ms : List Modifier}
    (hms : ms.Perm t.modifiers) (dice : List Die) :
    (t.withModifiers ms).scored dice =
      { t.scored dice with canonical := (t.withModifiers ms).canonical } := by
  have hscore : score dice (t.withModifiers ms).modifiers = score dice t.modifiers :=
    (score_of_perm hms.symm ht dice).symm
  rw [scored, scored, hscore]
  rfl

/-! ## A term with its counts elsewhere -/

/-- **What is counted may be said anywhere.** Where the modifiers of a term go together, those that
say what is counted can be moved among the others: a run of the term comes to the same result but
for the notation, or to the same failure, and leaves the same source. They can also be added or left
out, and the dice on the table and those that are thrown are the same. -/
theorem counting_moves_freely {t : Dice} (ht : Compatible t.modifiers) (term : Int) {σ : Type}
    [RandomSource σ] (source : σ) :
    (∀ ms : List Modifier, ms.Perm t.modifiers → acting ms = acting t.modifiers →
      let run := (t.roll term).run source
      let moved := t.withModifiers ms
      (moved.roll term).run source =
        ⟨run.outcome.map fun r => { r with canonical := moved.canonical }, run.source,
          run.events⟩) ∧
    ∀ ms : List Modifier, acting ms = acting t.modifiers →
      let run := (t.roll term).run source
      let changed := (t.withModifiers ms).roll term
      (changed.run source).outcome.map DiceResult.dice = run.outcome.map DiceResult.dice ∧
        (changed.run source).source = run.source ∧ (changed.run source).events = run.events ∧
        changed.drawn source = (t.roll term).drawn source := by
  refine ⟨?_, ?_⟩
  · intro ms hms hacting
    have hscored := Dice.scored_withModifiers ht hms
    dsimp only
    rw [Dice.roll_eq_map, Dice.roll_eq_map, t.table_withModifiers hacting, run_map, run_map]
    cases ((t.table term).run source).outcome with
    | error err => rfl
    | ok dice => rw [Except.map, Except.map, Except.map, hscored]
  · intro ms hacting
    dsimp only
    rw [Dice.roll_eq_map, Dice.roll_eq_map, t.table_withModifiers hacting, run_map, run_map,
      drawn_map, drawn_map]
    refine ⟨?_, rfl, rfl, rfl⟩
    cases ((t.table term).run source).outcome with
    | error err => rfl
    | ok dice => rfl

/-- Two dice that explode, of which the high ones count and the ones count against them. -/
def countedPair : Dice := ⟨2, 6, [.success 5, .explode 6 100, .failure 1]⟩

/-- A 6 and a 1, and a 5 for the die that the 6 sets off. -/
def sixOneFive : Replay := .ofList [.int 6, .int 1, .int 5]

theorem run_countedPair : ∃ r, ((countedPair.roll 0).run sixOneFive).outcome = .ok r ∧
    r.dice.map Die.value = [6, 5, 1] ∧ r.subtotal = 1 := ⟨_, rfl, rfl, rfl⟩

/-- The 6 and the 5 behind it count, and the 1 is taken off; with the counts behind the explosion it
is the same, and without them the dice still are. -/
theorem counted_pair_moves_freely :
    Compatible countedPair.modifiers ∧ ∃ r, r.dice.map Die.value = [6, 5, 1] ∧ r.subtotal = 1 ∧
      ((countedPair.roll 0).run sixOneFive).outcome = .ok r ∧
      (((countedPair.withModifiers [.explode 6 100, .failure 1, .success 5]).roll 0).run
        sixOneFive).outcome = .ok { r with canonical := "2d6!cf1cs5" } ∧
      (((countedPair.withModifiers [.explode 6 100]).roll 0).run sixOneFive).outcome.map
        DiceResult.dice = .ok r.dice := by
  have hcompatible : Compatible countedPair.modifiers := by
    intro family
    cases family <;> decide
  obtain ⟨hmoved, hchanged⟩ := counting_moves_freely hcompatible 0 sixOneFive
  obtain ⟨r, hrun, hfaces, hsubtotal⟩ := run_countedPair
  have hthere := hmoved [.explode 6 100, .failure 1, .success 5] (by decide) (by decide)
  obtain ⟨hwithout, -⟩ := hchanged [.explode 6 100] (by decide)
  refine ⟨hcompatible, r, hfaces, hsubtotal, hrun, ?_, ?_⟩
  · rw [hthere, hrun]
    rfl
  · rw [hwithout, hrun]
    rfl

end Dicebox
