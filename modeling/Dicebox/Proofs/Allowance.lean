import Dicebox.Proofs.Records
import Dicebox.Proofs.Replays
import Dicebox.Proofs.Supply

/-! # How many dice a roll may throw

A die sets off no more extra dice than the cap of an explosion allows, and each die on the table is
thrown again no more often than the rerolls of its term allow. So a roll throws a bounded number of
dice, however they fall and whatever the source does, and a replay of as many faces does not run
dry. The bound does not depend on the order of the modifiers: a reroll behind an explosion acts on
more dice than one in front of it, and is counted for all of them in either case.

- `Rolling.AtMost`: a roll throws at most so many dice.
- `Rolling.AtMost.length_drawn`, `Rolling.AtMost.ofItself_replay`: its runs.
- `Modifier.extras`, `Modifier.rethrows`: what a modifier throws for one die.
- `Modifier.throwsOn`, `Modifier.add_throwsOn_le`: what modifiers throw for the dice of a term.
- `Dice.allowance`, `Expr.allowance`: the most dice under the caps of the limits.
- `roll_keeps_its_allowance`: an expression that was read.
-/

namespace Dicebox

open Rolling

/-! ## Rolls -/

namespace Rolling

variable {α β σ : Type}

/-- A roll throws at most so many dice, whatever they show. -/
def AtMost : Rolling α → Nat → Prop
  | done _, _ | fail _, _ => True
  | draw sides next, most =>
    0 < most ∧ ∀ face, OnDie sides face → (next face).AtMost (most - 1)
  | note _ rest, most => rest.AtMost most

namespace AtMost

variable {r : Rolling α} {most more : Nat}

theorem mono (h : r.AtMost most) (hle : most ≤ more) : r.AtMost more := by
  induction r generalizing most more with
  | done a => trivial
  | fail e => trivial
  | draw sides next ih =>
    obtain ⟨hpos, hnext⟩ := h
    refine ⟨by omega, ?_⟩
    intro face hface
    exact ih face (hnext face hface) (by omega)
  | note event rest ih => exact ih h hle

/-- What the second of two rolls throws may depend on what the first one came to. -/
theorem bind {f : α → Rolling β} (h : r.AtMost most)
    (hf : ∀ {vs es a}, r.Yields vs es a → (f a).AtMost more) :
    (r.bind f).AtMost (most + more) := by
  induction r generalizing most with
  | done a => exact (hf (.done a)).mono (Nat.le_add_left more most)
  | fail e => trivial
  | draw sides next ih =>
    obtain ⟨hpos, hnext⟩ := h
    refine ⟨by omega, ?_⟩
    intro face hface
    have hrest := ih face (hnext face hface) fun hy => hf (.draw hface hy)
    exact hrest.mono (by omega)
  | note event rest ih => exact ih h fun hy => hf (.note hy)

theorem bind_still {f : α → Rolling β} (h : r.AtMost most) (hf : ∀ a, (f a).AtMost 0) :
    (r.bind f).AtMost most := by
  have hboth := h.bind fun {_ _ a} _ => hf a
  rwa [Nat.add_zero] at hboth

theorem foldl {step : β → α → Rolling β} (hstep : ∀ b a, (step b a).AtMost most) (as : List α)
    (b : β) : (Rolling.foldl step b as).AtMost (as.length * most) := by
  induction as generalizing b with
  | nil => trivial
  | cons a as ih =>
    have hloop := (hstep b a).bind fun {_ _ b'} _ => ih b'
    refine hloop.mono ?_
    rw [List.length_cons, Nat.succ_mul, Nat.add_comm]

variable [RandomSource σ]

theorem length_handed (h : r.AtMost most) (source : σ) (handed : List Data) :
    (r.run (Recording.mk source handed)).source.handed.length ≤ handed.length + most := by
  induction r generalizing most source handed with
  | done a => exact Nat.le_add_right _ _
  | fail e => exact Nat.le_add_right _ _
  | draw sides next ih =>
    obtain ⟨hpos, hnext⟩ := h
    rcases hask : RandomSource.next source 1 sides with ⟨answer, source'⟩
    cases answer with
    | error f =>
      have hrecord : RandomSource.next (Recording.mk source handed) 1 sides =
          (.error f, Recording.mk source' handed) := by
        simp only [RandomSource.next] at hask ⊢
        rw [hask]
      rw [run, hrecord]
      exact Nat.le_add_right _ _
    | ok v =>
      have hrecord : RandomSource.next (Recording.mk source handed) 1 sides =
          (.ok v, Recording.mk source' (v :: handed)) := by
        simp only [RandomSource.next] at hask ⊢
        rw [hask]
      rw [run, hrecord]
      dsimp only
      cases hface : faceOf? sides v with
      | none =>
        rw [List.length_cons]
        omega
      | some face =>
        obtain ⟨rfl, hon⟩ := faceOf?_eq_some hface
        have hrest := ih face (hnext face hon) source' (.int face :: handed)
        rw [List.length_cons] at hrest
        dsimp only
        omega
  | note event rest ih => exact ih h source handed

/-- **No source hands out more than a roll may throw**, also where it fails the roll in the end. -/
theorem length_drawn (h : r.AtMost most) (source : σ) : (r.drawn source).length ≤ most := by
  have hhanded := h.length_handed source []
  rw [List.length_nil, Nat.zero_add] at hhanded
  rwa [drawn, List.length_reverse]

/-- **A replay that holds enough faces is to blame for nothing**, if they are faces of all dice that
the roll may throw. -/
theorem ofItself_replay {D : Int → Prop} {P : α → Prop} (h : r.AtMost most)
    (hr : r.Confined D (fun err => ¬ err.OfSource) P) {values : List Data}
    (hvalues : ∀ v ∈ values, ∀ sides, D sides → ∃ face, v = .int face ∧ OnDie sides face)
    (hlen : most ≤ values.length) (handed : Nat) :
    (r.run (Replay.mk values handed)).OfItself := by
  induction r generalizing most values handed with
  | done a => exact Run.ofItself_of_ok rfl
  | fail e =>
    intro err herr
    obtain rfl := Except.error.inj herr
    exact hr
  | draw sides next ih =>
    obtain ⟨hpos, hnext⟩ := h
    obtain ⟨hsides, hrest⟩ := hr
    cases values with
    | nil =>
      rw [List.length_nil] at hlen
      omega
    | cons v values =>
      obtain ⟨hv, hmore⟩ := List.forall_mem_cons.mp hvalues
      obtain ⟨face, rfl, hface⟩ := hv sides hsides
      rw [List.length_cons] at hlen
      rw [run_of_next (next_replay _ _ _ _ _) hface]
      exact ih face (hnext face hface) (hrest face) hmore (by omega) (handed + 1)
  | note event rest ih => exact ih h hr.2 hvalues hlen handed

end AtMost

end Rolling

/-! ## Dice -/

theorem throwDice_atMost (sides term : Int) (n : Nat) (done : List Die) :
    (throwDice sides term n done).AtMost n := by
  induction n generalizing done with
  | zero => trivial
  | succ n ih =>
    refine ⟨Nat.succ_pos n, ?_⟩
    intro face _
    exact ih _

theorem redraw_atMost (values : List Int) (sides : Int) (n : Nat) (v : Int) (earlier : List Int) :
    (redraw values sides n v earlier).AtMost n := by
  induction n generalizing v earlier with
  | zero => trivial
  | succ n ih =>
    refine ⟨Nat.succ_pos n, ?_⟩
    intro face _
    dsimp only
    split
    · exact ih face _
    · trivial

theorem Die.reroll_atMost (values : List Int) (once : Bool) (cap : Int) (d : Die) :
    (d.reroll values once cap).AtMost (rerollLimit once cap) := by
  rw [reroll]
  split
  · refine (redraw_atMost values d.sides _ d.value []).bind_still ?_
    intro r
    dsimp only
    split <;> trivial
  · trivial

theorem Explosion.chain_atMost (threshold cap : Int) (left : Nat) (d : Die) (done : List Die) :
    (chain threshold cap left d done).AtMost left := by
  induction left generalizing d done with
  | zero =>
    rw [chain]
    split <;> trivial
  | succ left ih =>
    rw [chain]
    split
    · trivial
    · refine ⟨Nat.succ_pos left, ?_⟩
      intro face _
      exact ih _ _

theorem Explosion.step_atMost (threshold cap : Int) (done : List Die) (d : Die) :
    (step threshold cap done d).AtMost cap.toNat := by
  rw [step]
  split
  · exact chain_atMost threshold cap cap.toNat d done
  · trivial

/-! ## Modifiers -/

theorem EachDie.length_le {R : Die → List Int → List Event → List Die → Prop} {most : Nat}
    (hR : ∀ {d ws es new}, R d ws es new → new.length ≤ most) {dice dice' : List Die}
    {ws : List Int} {es : List Event} (h : EachDie R dice ws es dice') :
    dice'.length ≤ dice.length * most := by
  induction h with
  | nil => exact Nat.zero_le _
  | cons hd _ ih =>
    rw [List.length_append, List.length_cons, Nat.succ_mul, Nat.add_comm]
    exact Nat.add_le_add ih (hR hd)

theorem Explosion.Chain.length_le {threshold cap : Int} {left : Nat} {d : Die} {ws : List Int}
    {es : List Event} {new : List Die} (h : Chain threshold cap left d ws es new) :
    new.length ≤ 1 + left := by
  induction h with
  | rests | capped => exact Nat.le_add_right 1 _
  | goesOn _ _ _ ih =>
    rw [List.length_cons]
    omega

theorem Explosion.Explodes.length_le {threshold cap : Int} {d : Die} {ws : List Int}
    {es : List Event} {new : List Die} (h : Explodes threshold cap d ws es new) :
    new.length ≤ 1 + cap.toNat := by
  cases h with
  | stays => exact Nat.le_add_right 1 _
  | chain _ _ hchain => exact hchain.length_le

namespace Modifier

variable {m : Modifier} {ms : List Modifier} {dice dice' : List Die} {ws : List Int}
  {es : List Event}

/-- The most extra dice that one die sets off. -/
def extras : Modifier → Nat
  | explode _ cap => cap.toNat
  | reroll _ _ _ | select _ _ | success _ | failure _ => 0

/-- How often one die is thrown again at most. -/
def rethrows : Modifier → Nat
  | reroll _ once cap => rerollLimit once cap
  | explode _ _ | select _ _ | success _ | failure _ => 0

theorem apply_atMost (m : Modifier) (dice : List Die) :
    (m.apply dice).AtMost (dice.length * (m.extras + m.rethrows)) := by
  cases m with
  | reroll values once cap =>
    rw [extras, rethrows, Nat.zero_add]
    have hstep : ∀ (done : List Die) (d : Die), ((d.reroll values once cap).bind fun d =>
        Rolling.done (d :: done)).AtMost (rerollLimit once cap) := by
      intro done d
      exact (d.reroll_atMost values once cap).bind_still fun _ => trivial
    exact (AtMost.foldl hstep dice []).bind_still fun _ => trivial
  | explode threshold cap =>
    rw [extras, rethrows, Nat.add_zero]
    have hloop := AtMost.foldl (Explosion.step_atMost threshold cap) dice []
    exact hloop.bind_still fun _ => trivial
  | select | success | failure => trivial

theorem Does.length_le (h : m.Does dice ws es dice') :
    dice'.length ≤ dice.length * (1 + m.extras) := by
  cases m with
  | reroll values once cap =>
    refine EachDie.length_le (fun hd => ?_) h
    obtain ⟨d', rfl, -⟩ := hd
    exact Nat.le_refl 1
  | explode threshold cap => exact EachDie.length_le (fun hd => hd.length_le) h
  | select rule count =>
    obtain ⟨-, -, rfl⟩ := h
    rw [extras, Nat.add_zero, Nat.mul_one, selectAll, List.length_map, List.length_zipIdx]
  | success | failure =>
    obtain ⟨-, -, rfl⟩ := h
    exact Nat.le_mul_of_pos_right _ Nat.one_pos

/-- How many dice come of one die at most. -/
def growth (ms : List Modifier) : Nat := (ms.map fun m => 1 + m.extras).prod

/-- How often each die on the table is thrown again at most. -/
def rethrowsOf (ms : List Modifier) : Nat := (ms.map rethrows).sum

theorem growth_cons (m : Modifier) (ms : List Modifier) :
    growth (m :: ms) = (1 + m.extras) * growth ms := by
  rw [growth, List.map_cons, List.prod_cons, growth]

theorem rethrowsOf_cons (m : Modifier) (ms : List Modifier) :
    rethrowsOf (m :: ms) = m.rethrows + rethrowsOf ms := by
  rw [rethrowsOf, List.map_cons, List.sum_cons, rethrowsOf]

theorem growth_pos (ms : List Modifier) : 0 < growth ms := by
  induction ms with
  | nil => exact Nat.one_pos
  | cons m ms ih =>
    rw [growth_cons]
    exact Nat.mul_pos (by omega) ih

theorem DoAll.length_le (h : DoAll ms dice ws es dice') :
    dice'.length ≤ dice.length * growth ms := by
  induction h with
  | nil => exact Nat.le_mul_of_pos_right _ Nat.one_pos
  | cons hm _ ih =>
    rw [growth_cons, ← Nat.mul_assoc]
    exact ih.trans (Nat.mul_le_mul_right _ hm.length_le)

/-- What modifiers throw at most for so many dice, one modifier after the other. -/
def throwsOn : List Modifier → Nat → Nat
  | [], _ => 0
  | m :: ms, size => size * (m.extras + m.rethrows) + throwsOn ms (size * (1 + m.extras))

theorem throwsOn_mono (ms : List Modifier) {a b : Nat} (h : a ≤ b) :
    throwsOn ms a ≤ throwsOn ms b := by
  induction ms generalizing a b with
  | nil => exact Nat.le_refl 0
  | cons m ms ih =>
    exact Nat.add_le_add (Nat.mul_le_mul_right _ h) (ih (Nat.mul_le_mul_right _ h))

/-- **The order of the modifiers does not matter for the bound**: with the dice that are there, it
is one throw for each die that may come to lie on the table, and one for each time that such a die
may be thrown again. -/
theorem add_throwsOn_le (ms : List Modifier) (size : Nat) :
    size + throwsOn ms size ≤ size * growth ms * (1 + rethrowsOf ms) := by
  induction ms generalizing size with
  | nil => exact Nat.le_of_eq (by simp [throwsOn, growth, rethrowsOf])
  | cons m ms ih =>
    have hrest := ih (size * (1 + m.extras))
    have hpos : 0 < (1 + m.extras) * growth ms := Nat.mul_pos (by omega) (growth_pos ms)
    -- the rerolls of this modifier are counted for all dice, also for those that come later
    have hagain : size * m.rethrows ≤ size * ((1 + m.extras) * growth ms) * m.rethrows :=
      Nat.mul_le_mul_right _ (Nat.le_mul_of_pos_right _ hpos)
    calc size + throwsOn (m :: ms) size
        = size * m.rethrows +
            (size * (1 + m.extras) + throwsOn ms (size * (1 + m.extras))) := by
          rw [throwsOn]
          ring
      _ ≤ size * ((1 + m.extras) * growth ms) * m.rethrows +
            size * (1 + m.extras) * growth ms * (1 + rethrowsOf ms) := Nat.add_le_add hagain hrest
      _ = size * growth (m :: ms) * (1 + rethrowsOf (m :: ms)) := by
          rw [growth_cons, rethrowsOf_cons]
          ring

theorem foldl_apply_atMost (ms : List Modifier) (dice : List Die) :
    (Rolling.foldl (fun dice m => m.apply dice) dice ms).AtMost (throwsOn ms dice.length) := by
  induction ms generalizing dice with
  | nil => trivial
  | cons m ms ih =>
    refine (m.apply_atMost dice).bind ?_
    intro ws es dice' hy
    exact (ih dice').mono (throwsOn_mono ms (Modifier.apply_yields hy).length_le)

end Modifier

/-! ## Terms -/

def Dice.throws (t : Dice) : Nat :=
  t.count.toNat * Modifier.growth t.modifiers * (1 + Modifier.rethrowsOf t.modifiers)

theorem Dice.roll_atMost (t : Dice) (term : Int) : (t.roll term).AtMost t.throws := by
  have hthrown : (t.thrown term).AtMost t.count.toNat :=
    (throwDice_atMost t.sides term t.count.toNat []).bind_still fun _ => trivial
  have hroll : (t.roll term).AtMost
      (t.count.toNat + Modifier.throwsOn t.modifiers t.count.toNat) := by
    refine hthrown.bind ?_
    intro ws es dice hy
    obtain ⟨-, hlen, -, rfl⟩ := Dice.thrown_yields hy
    have hall := Modifier.foldl_apply_atMost t.modifiers (ws.map (Die.fresh t.sides term))
    rw [List.length_map, hlen] at hall
    exact hall.bind_still fun _ => trivial
  exact hroll.mono (Modifier.add_throwsOn_le t.modifiers t.count.toNat)

theorem Dice.length_of_roll {t : Dice} {term : Int} {vs : List Int} {es : List Event}
    {r : DiceResult} (h : (t.roll term).Yields vs es r) :
    r.dice.length ≤ t.count.toNat * Modifier.growth t.modifiers := by
  obtain ⟨faces, ws, dice, rfl, hlen, -, hall, rfl⟩ := roll_yields h
  have hle := hall.length_le
  rwa [List.length_map, hlen] at hle

/-! ## Expressions -/

/-- The dice terms of an expression, from left to right. -/
def Expr.diceTerms (e : Expr) : List Dice := e.leaves.filterMap Sum.getRight?

theorem Expr.mem_diceTerms {e : Expr} {t : Dice} : t ∈ e.diceTerms ↔ .inr t ∈ e.leaves := by
  rw [diceTerms, List.mem_filterMap]
  constructor
  · rintro ⟨leaf, hleaf, ht⟩
    rwa [← Sum.getRight?_eq_some_iff.mp ht]
  · intro ht
    exact ⟨_, ht, rfl⟩

theorem Expr.diceTerms_binary (op : Operator) (l r : Expr) (s : Span) :
    (binary op l r s).diceTerms = l.diceTerms ++ r.diceTerms := List.filterMap_append

theorem Expr.fold_atMost (e : Expr) (text : Option String) (done : List TermResult) :
    (e.fold text done).AtMost (e.diceTerms.map Dice.throws).sum := by
  induction e generalizing done with
  | constant v s => trivial
  | dice t s => exact (t.roll_atMost done.length).bind_still fun _ => trivial
  | negate e s ih => exact (ih done).bind_still fun _ => trivial
  | binary op l r s ihl ihr =>
    rw [diceTerms_binary, List.map_append, List.sum_append]
    refine (ihl done).bind ?_
    intro _ _ p _
    refine (ihr p.2).bind_still ?_
    intro q
    dsimp only [combine]
    split <;> trivial

theorem Expr.roll_atMost (e : Expr) (text : Option String) :
    (e.roll text).AtMost (e.diceTerms.map Dice.throws).sum :=
  (e.fold_atMost text []).bind_still fun _ => trivial

def TermResult.dice? : TermResult → Option DiceResult
  | constant _ => none
  | dice r => some r

theorem Roll.diceTerms_eq (r : Roll) : r.diceTerms = r.terms.filterMap TermResult.dice? := by
  rw [diceTerms]
  refine List.filterMap_congr ?_
  intro t _
  cases t <;> rfl

/-- What is true of a dice term wherever it is rolled is true of the dice terms of a roll. -/
theorem Expr.Folds.forall₂_diceTerms {R : Dice → DiceResult → Prop} {e : Expr} {place : Nat}
    {vs : List Int} {es : List Event} {terms : List TermResult} {v : Int}
    (h : e.Folds place vs es terms v)
    (hR : ∀ t ∈ e.diceTerms, ∀ {place : Nat} {vs es r}, (t.roll place).Yields vs es r → R t r) :
    List.Forall₂ R e.diceTerms (terms.filterMap TermResult.dice?) := by
  induction h with
  | constant => exact .nil
  | dice hr => exact .cons (hR _ (List.mem_singleton_self _) hr) .nil
  | negate _ ih => exact ih hR
  | binary _ _ _ ihl ihr =>
    rw [diceTerms_binary] at hR ⊢
    rw [List.filterMap_append]
    obtain ⟨hleft, hright⟩ := List.forall_mem_append.mp hR
    exact List.rel_append (ihl hleft) (ihr hright)

/-! ## The caps of the limits -/

/-- How often a reroll throws one die again at most. -/
def Modifier.againAtMost (limits : Limits) : Modifier → Int
  | reroll _ once _ => if once then 1 else limits.rerollCap
  | explode _ _ | select _ _ | success _ | failure _ => 0

/-- The most dice that a term may throw: those that it asks for, each with all the extra dice that
an explosion may set off, and each of them once and again as often as all rerolls allow. -/
def Dice.allowance (limits : Limits) (t : Dice) : Int :=
  t.count * (if ∃ m ∈ t.modifiers, m.Explosive then 1 + limits.explosionCap else 1) *
    (1 + sumOf (t.modifiers.map (Modifier.againAtMost limits)))

/-- The most dice that an expression may throw. -/
def Expr.allowance (limits : Limits) (e : Expr) : Int :=
  sumOf (e.diceTerms.map (Dice.allowance limits))

theorem cast_sum_map {α : Type} {f : α → Nat} {g : α → Int} {as : List α}
    (h : ∀ a ∈ as, (f a : Int) = g a) : ((as.map f).sum : Int) = sumOf (as.map g) := by
  induction as with
  | nil => rfl
  | cons a as ih =>
    obtain ⟨ha, hrest⟩ := List.forall_mem_cons.mp h
    rw [List.map_cons, List.map_cons, List.sum_cons, sumOf_cons, Nat.cast_add, ha, ih hrest]

namespace Modifier

variable {limits : Limits} {m : Modifier} {ms : List Modifier}

theorem extras_of_explosive (hm : m.Capped limits) (hexplosive : m.Explosive) :
    m.extras = limits.explosionCap.toNat := by
  cases m with
  | explode threshold cap =>
    obtain rfl : cap = limits.explosionCap := hm
    rfl
  | select rule => cases rule <;> cases hexplosive
  | reroll | success | failure => cases hexplosive

theorem extras_of_not_explosive (hm : ¬ m.Explosive) : m.extras = 0 := by
  cases m with
  | explode => exact absurd rfl hm
  | reroll | select | success | failure => rfl

theorem rethrows_eq (hm : m.Capped limits) (hcap : 1 ≤ limits.rerollCap) :
    (m.rethrows : Int) = m.againAtMost limits := by
  cases m with
  | reroll values once cap =>
    obtain rfl : cap = limits.rerollCap := hm
    rw [rethrows, againAtMost, rerollLimit]
    split
    · rfl
    · omega
  | explode | select | success | failure => rfl

theorem growth_of_none (hms : ∀ m ∈ ms, ¬ m.Explosive) : growth ms = 1 := by
  induction ms with
  | nil => rfl
  | cons m ms ih =>
    obtain ⟨hm, hms⟩ := List.forall_mem_cons.mp hms
    rw [growth_cons, extras_of_not_explosive hm, ih hms]

/-- With one explosion at most, the dice grow by its cap alone. -/
theorem growth_eq (hone : ms.countP (·.Explosive) ≤ 1) (hms : ∀ m ∈ ms, m.Capped limits) :
    growth ms =
      if ∃ m ∈ ms, m.Explosive then 1 + limits.explosionCap.toNat else 1 := by
  by_cases hany : ∃ m ∈ ms, m.Explosive
  · rw [if_pos hany]
    induction ms with
    | nil => simp at hany
    | cons m ms ih =>
      obtain ⟨hm, hrest⟩ := List.forall_mem_cons.mp hms
      by_cases hexplosive : m.Explosive
      · -- no other one explodes
        rw [List.countP_cons_of_pos (by simpa using hexplosive)] at hone
        have hnone : ∀ m ∈ ms, ¬ m.Explosive := by
          simpa using List.countP_eq_zero.mp (Nat.le_zero.mp (Nat.le_of_succ_le_succ hone))
        rw [growth_cons, extras_of_explosive hm hexplosive, growth_of_none hnone, Nat.mul_one]
      · rw [List.countP_cons_of_neg (by simpa using hexplosive)] at hone
        have hmore : ∃ m ∈ ms, m.Explosive := by simpa [hexplosive] using hany
        rw [growth_cons, extras_of_not_explosive hexplosive, ih hone hrest hmore]
        omega
  · rw [if_neg hany]
    exact growth_of_none fun m hm hexplosive => hany ⟨m, hm, hexplosive⟩

theorem rethrowsOf_eq (hms : ∀ m ∈ ms, m.Capped limits) (hcap : 1 ≤ limits.rerollCap) :
    (rethrowsOf ms : Int) = sumOf (ms.map (againAtMost limits)) := by
  refine cast_sum_map ?_
  intro m hm
  exact rethrows_eq (hms m hm) hcap

end Modifier

namespace Dice

variable {limits : Limits} {t : Dice}

theorem Sensible.explosive_le (h : t.Sensible limits) : t.modifiers.countP (·.Explosive) ≤ 1 :=
  h.compatible .explode

theorem throws_eq (hcount : 1 ≤ t.count) (ht : t.Sensible limits)
    (hexplosion : 0 ≤ limits.explosionCap) (hreroll : 1 ≤ limits.rerollCap) :
    (t.throws : Int) = t.allowance limits := by
  rw [throws, allowance, Modifier.growth_eq ht.explosive_le ht.capped,
    ← Modifier.rethrowsOf_eq ht.capped hreroll]
  push_cast
  rw [Int.toNat_of_nonneg (by omega), Int.toNat_of_nonneg hexplosion]

theorem length_of_roll_le {term : Int} (hcount : 1 ≤ t.count) (ht : t.Sensible limits)
    (hexplosion : 0 ≤ limits.explosionCap) {vs : List Int} {es : List Event} {r : DiceResult}
    (h : (t.roll term).Yields vs es r) :
    (r.dice.length : Int) ≤ t.count * (1 + limits.explosionCap) := by
  have hle := length_of_roll h
  have hgrowth : Modifier.growth t.modifiers ≤ 1 + limits.explosionCap.toNat := by
    rw [Modifier.growth_eq ht.explosive_le ht.capped]
    split <;> omega
  have hmost := hle.trans (Nat.mul_le_mul_left t.count.toNat hgrowth)
  zify at hmost
  rwa [Int.toNat_of_nonneg (by omega), Int.toNat_of_nonneg hexplosion] at hmost

end Dice

/-! ## What was read -/

theorem sensible_of_parse {limits : Limits} {text : String} {e : Expr}
    (hread : Expr.parse limits text = .ok e) :
    ∀ t ∈ e.diceTerms, 1 ≤ t.count ∧ t.Sensible limits := by
  intro t ht
  obtain ⟨leaf, hleaf⟩ := exists_readAs_of_parse hread _ (Expr.mem_diceTerms.mp ht)
  cases hleaf with
  | shorthand _ hsensible => exact ⟨(by decide : (1 : Int) ≤ 2), hsensible⟩
  | @dice u _ hwritten habsent _ hsensible =>
    refine ⟨?_, hsensible⟩
    by_cases hnone : u.count = none
    · exact Int.le_of_eq (habsent hnone).symm
    · exact (hwritten hnone).1

/-- **A roll keeps its allowance.** No source hands out more values for an expression that was read
than the caps allow for its dice terms, and each of these terms ends up with no more dice than its
count and the cap on explosions allow. So where a replay holds as many values as that, each of them a
face of every die, it is not to blame if the roll fails. -/
theorem roll_keeps_its_allowance {limits : Limits} {text : String} {e : Expr}
    (hread : Expr.parse limits text = .ok e) (hexplosion : 0 ≤ limits.explosionCap)
    (hreroll : 1 ≤ limits.rerollCap) (shown : Option String) :
    (∀ {σ : Type} [RandomSource σ] (source : σ),
      (((e.roll shown).drawn source).length : Int) ≤ e.allowance limits ∧
        ∀ r : Roll, ((e.roll shown).run source).outcome = .ok r →
          List.Forall₂ (fun (t : Dice) (d : DiceResult) =>
            (d.dice.length : Int) ≤ t.count * (1 + limits.explosionCap)) e.diceTerms r.diceTerms) ∧
    ∀ values : List Data, e.allowance limits ≤ values.length →
      (∀ v ∈ values, ∀ t ∈ e.diceTerms, ∃ face, v = .int face ∧ OnDie t.sides face) →
        ∀ err, ((e.roll shown).run (Replay.ofList values)).outcome = .error err →
          ¬ err.OfSource := by
  have hsensible := sensible_of_parse hread
  have hmost := e.roll_atMost shown
  have hsum : ((e.diceTerms.map Dice.throws).sum : Int) = e.allowance limits := by
    refine cast_sum_map ?_
    intro t ht
    obtain ⟨hcount, ht⟩ := hsensible t ht
    exact Dice.throws_eq hcount ht hexplosion hreroll
  refine ⟨?_, ?_⟩
  · intro σ _ source
    refine ⟨?_, ?_⟩
    · rw [← hsum]
      exact_mod_cast hmost.length_drawn source
    · intro r hrun
      obtain ⟨vs, -, hy⟩ := yields_drawn hrun
      obtain ⟨-, _, -, hfolds⟩ := Expr.roll_yields hy
      rw [Roll.diceTerms_eq]
      refine hfolds.forall₂_diceTerms ?_
      intro t ht _ _ _ _ hroll
      obtain ⟨hcount, ht⟩ := hsensible t ht
      exact Dice.length_of_roll_le hcount ht hexplosion hroll
  · intro values hlen hvalues
    have hconfined := e.roll_confined (D := fun sides => ∃ t ∈ e.diceTerms, t.sides = sides)
      (fun t ht => ⟨t, Expr.mem_diceTerms.mpr ht, rfl⟩) shown
    refine hmost.ofItself_replay hconfined ?_ ?_ 0
    · rintro v hv _ ⟨t, ht, rfl⟩
      exact hvalues v hv t ht
    · rw [← hsum] at hlen
      exact_mod_cast hlen

/-- Two dice with one side that explode, and all of them once more. -/
def oneSidedPair : Expr := .dice ⟨2, 1, [.explode 1 2, .reroll [1] true 100]⟩ ⟨0, 7⟩

def twelveOnes : List Data := List.replicate 12 (.int 1)

theorem scan_oneSidedPair : Token.scan "2d1!ro1" = .ok
    [⟨.integer, ['2'], 0⟩, ⟨.die, ['d'], 1⟩, ⟨.integer, ['1'], 2⟩, ⟨.explode, ['!'], 3⟩,
      ⟨.rerollOnce, ['r', 'o'], 4⟩, ⟨.integer, ['1'], 6⟩, Token.ending 7] := by
  decide +kernel

theorem parse_oneSidedPair : Expr.parse { explosionCap := 2 } "2d1!ro1" = .ok oneSidedPair := by
  rw [Expr.parse, scan_oneSidedPair]
  rfl

theorem run_oneSidedPair : ∃ r, ((oneSidedPair.roll none).run (Replay.ofList twelveOnes)).outcome =
    .ok r ∧ r.dice.length = 6 := ⟨_, rfl, rfl⟩

/-- Two dice set off four more, each of the six is thrown again, and no more is allowed. -/
theorem one_sided_pair_keeps_its_allowance :
    oneSidedPair.allowance { explosionCap := 2 } = 12 ∧
      (∀ source : Source, (((oneSidedPair.roll none).drawn source).length : Int) ≤ 12) ∧
      ((oneSidedPair.roll none).drawn (Replay.ofList twelveOnes)).length = 12 ∧
      (∃ r, ((oneSidedPair.roll none).run (Replay.ofList twelveOnes)).outcome = .ok r ∧
        r.dice.length = 6 ∧ List.Forall₂ (fun (t : Dice) (d : DiceResult) =>
          (d.dice.length : Int) ≤ t.count * 3) oneSidedPair.diceTerms r.diceTerms) ∧
      ∀ err, ((oneSidedPair.roll none).run (Replay.ofList twelveOnes)).outcome = .error err →
        ¬ err.OfSource := by
  have hallowance : oneSidedPair.allowance { explosionCap := 2 } = 12 := by decide
  obtain ⟨hruns, hreplays⟩ :=
    roll_keeps_its_allowance parse_oneSidedPair (by decide) (by decide) none
  rw [hallowance] at hruns hreplays
  obtain ⟨r, hrun, hlen⟩ := run_oneSidedPair
  have hfaces : ∀ v ∈ twelveOnes, ∀ t ∈ oneSidedPair.diceTerms,
      ∃ face, v = .int face ∧ OnDie t.sides face := by
    intro v hv t ht
    obtain rfl := List.eq_of_mem_replicate hv
    obtain rfl := List.mem_singleton.mp ht
    exact ⟨1, rfl, by decide, by decide⟩
  exact ⟨hallowance, fun source => (hruns source).1, rfl, ⟨r, hrun, hlen, (hruns _).2 r hrun⟩,
    hreplays twelveOnes (by decide) hfaces⟩

end Dicebox
