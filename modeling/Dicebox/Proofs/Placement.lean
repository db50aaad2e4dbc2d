import Dicebox.Proofs.Divisors

/-! # A term is rolled alike at every place

The dice of a term remember which leaf of the expression they belong to, but nothing that is done to
them depends on it. So a term that is rolled at another place throws the same dice and scores them
alike, and an expression comes to the same value wherever its leaves stand, from the same source.

- `Rolling.map`: a roll with its value changed in the end.
- `Die.inTerm`, `DiceResult.inTerm`: dice that belong to another leaf.
- `Dice.roll_inTerm`: a term at another place.
- `Expr.ComesTo.elsewhere`: an expression at another place.
-/

namespace Dicebox

namespace Rolling

variable {α β γ δ : Type}

/-- A roll with its value changed in the end. -/
def map (f : α → β) (r : Rolling α) : Rolling β := r.bind fun a => .done (f a)

theorem bind_of_map (f : α → β) (r : Rolling α) (g : β → Rolling γ) :
    (r.map f).bind g = r.bind fun a => g (f a) := bind_assoc r _ g

theorem map_of_bind (r : Rolling α) (g : α → Rolling β) (f : β → γ) :
    (r.bind g).map f = r.bind fun a => (g a).map f := bind_assoc r g _

/-- A state that every step changes alike is changed alike by all of them. -/
theorem foldl_map (step : β → α → Rolling β) (f : β → β) (g : α → α)
    (h : ∀ b a, step (f b) (g a) = (step b a).map f) (as : List α) (b : β) :
    foldl step (f b) (as.map g) = (foldl step b as).map f := by
  induction as generalizing b with
  | nil => rfl
  | cons a as ih =>
    rw [List.map_cons, foldl, foldl, h, bind_of_map, map_of_bind]
    exact congrArg _ (funext ih)

theorem foldl_reverse_map {step : List α → α → Rolling (List α)} (g : α → α)
    (h : ∀ done a, step (done.map g) (g a) = (step done a).map (List.map g)) (as : List α) :
    ((foldl step [] (as.map g)).bind fun done => .done done.reverse) =
      ((foldl step [] as).bind fun done => .done done.reverse).map (List.map g) := by
  have hloop := foldl_map _ (List.map g) g h as []
  rw [List.map_nil] at hloop
  rw [hloop, bind_of_map, map_of_bind]
  exact congrArg _ (funext fun done => congrArg Rolling.done List.map_reverse.symm)

theorem run_map {σ : Type} [RandomSource σ] (f : α → β) (r : Rolling α) (source : σ) :
    (r.map f).run source =
      ⟨(r.run source).outcome.map f, (r.run source).source, (r.run source).events⟩ := by
  rw [map, run_bind]
  cases (r.run source).outcome with
  | error err => rfl
  | ok a => simp [run, Except.map]

theorem drawn_map {σ : Type} [RandomSource σ] (f : α → β) (r : Rolling α) (source : σ) :
    (r.map f).drawn source = r.drawn source := by
  rw [drawn, drawn, run_map]

end Rolling

open Rolling

def Die.inTerm (term : Int) (d : Die) : Die := { d with term }

def DiceResult.inTerm (term : Int) (r : DiceResult) : DiceResult :=
  { r with dice := r.dice.map (Die.inTerm term) }

variable (term : Int)

/-! ## Throws -/

theorem throwDice_inTerm (sides term' : Int) (n : Nat) (done : List Die) :
    throwDice sides term n (done.map (Die.inTerm term)) =
      (throwDice sides term' n done).map (List.map (Die.inTerm term)) := by
  induction n generalizing done with
  | zero => rfl
  | succ n ih =>
    rw [throwDice, throwDice]
    exact congrArg (draw sides)
      (funext fun face => ih ({ value := face, sides, term := term' } :: done))

theorem Dice.thrown_inTerm (t : Dice) (term' : Int) :
    t.thrown term = (t.thrown term').map (List.map (Die.inTerm term)) := by
  have hthrow := throwDice_inTerm term t.sides term' t.count.toNat []
  rw [List.map_nil] at hthrow
  rw [thrown, thrown, hthrow, bind_of_map, map_of_bind]
  exact congrArg _ (funext fun done => congrArg Rolling.done List.map_reverse.symm)

/-! ## Modifiers -/

theorem Die.reroll_inTerm (values : List Int) (once : Bool) (cap : Int) (d : Die) :
    (d.inTerm term).reroll values once cap = (d.reroll values once cap).map (Die.inTerm term) := by
  rw [reroll, reroll]
  by_cases hd : d.kept ∧ d.value ∈ values
  · rw [if_pos (show (d.inTerm term).kept ∧ (d.inTerm term).value ∈ values from hd), if_pos hd,
      map_of_bind]
    refine congrArg _ (funext fun r => ?_)
    dsimp only
    split <;> rfl
  · rw [if_neg (show ¬ ((d.inTerm term).kept ∧ (d.inTerm term).value ∈ values) from hd), if_neg hd]
    rfl

theorem Explosion.chain_inTerm (threshold cap : Int) (left : Nat) (d : Die) (done : List Die) :
    chain threshold cap left (d.inTerm term) (done.map (Die.inTerm term)) =
      (chain threshold cap left d done).map (List.map (Die.inTerm term)) := by
  induction left generalizing d done with
  | zero =>
    rw [chain, chain]
    show (if d.value < threshold then _ else _) = _
    split <;> rfl
  | succ left ih =>
    rw [chain, chain]
    show (if d.value < threshold then _ else _) = _
    split
    · rfl
    · exact congrArg (draw d.sides) (funext fun face =>
        ih (extra d face) ({ d with exploded := true } :: done))

theorem selectAll_inTerm (rule : Selection) (count : Int) (dice : List Die) :
    selectAll rule count (dice.map (Die.inTerm term)) =
      (selectAll rule count dice).map (Die.inTerm term) := by
  have hranked : ∀ highest, ranked highest (dice.map (Die.inTerm term)) = ranked highest dice := by
    intro highest
    have hcandidates : candidates (dice.map (Die.inTerm term)) =
        (candidates dice).map (Prod.map (Die.inTerm term) id) := by
      rw [candidates, candidates, List.zipIdx_map, List.filter_map]
      rfl
    have hsort : ((candidates dice).mergeSort (ranksBefore highest)).map
        (Prod.map (Die.inTerm term) id) =
          ((candidates dice).map (Prod.map (Die.inTerm term) id)).mergeSort (ranksBefore highest) :=
      List.map_mergeSort fun _ _ _ _ => rfl
    rw [ranked, ranked, hcandidates, ← hsort, List.map_map]
    rfl
  have hdropped : droppedBy rule count (dice.map (Die.inTerm term)) = droppedBy rule count dice := by
    rw [droppedBy, droppedBy, hranked]
  rw [selectAll, selectAll, hdropped, List.zipIdx_map, List.map_map, List.map_map]
  refine List.map_congr_left fun d _ => ?_
  show (if d.2 ∈ _ then _ else _) = Die.inTerm term (if d.2 ∈ _ then _ else _)
  split <;> rfl

theorem score_inTerm (dice : List Die) (ms : List Modifier) :
    score (dice.map (Die.inTerm term)) ms = score dice ms := by
  have hfaces : keptFaces (dice.map (Die.inTerm term)) = keptFaces dice := by
    rw [keptFaces, keptFaces, List.filter_map, List.map_map]
    rfl
  rw [score, score, hfaces]

/-- **A modifier does the same to the dice of another leaf.** -/
theorem Modifier.apply_inTerm (m : Modifier) (dice : List Die) :
    m.apply (dice.map (Die.inTerm term)) = (m.apply dice).map (List.map (Die.inTerm term)) := by
  cases m with
  | reroll values once cap =>
    refine foldl_reverse_map _ (fun done d => ?_) dice
    rw [Die.reroll_inTerm, bind_of_map, map_of_bind]
    rfl
  | explode threshold cap =>
    refine foldl_reverse_map _ (fun done d => ?_) dice
    rw [Explosion.step, Explosion.step, Explosion.chain_inTerm]
    show (if d.kept ∧ !d.fromExplosion then _ else _) = _
    split <;> rfl
  | select rule count => exact congrArg Rolling.done (selectAll_inTerm term rule count dice)
  | success | failure => rfl

/-- **A term that is rolled at another place** throws the same dice and scores them alike. -/
theorem Dice.roll_inTerm (t : Dice) (term' : Int) :
    t.roll term = (t.roll term').map (DiceResult.inTerm term) := by
  have hmodifiers : ∀ dice : List Die,
      foldl (fun dice m => m.apply dice) (dice.map (Die.inTerm term)) t.modifiers =
        (foldl (fun dice (m : Modifier) => m.apply dice) dice t.modifiers).map
          (List.map (Die.inTerm term)) := by
    intro dice
    have hloop := foldl_map (fun dice (m : Modifier) => m.apply dice) (List.map (Die.inTerm term)) id
      (fun dice m => m.apply_inTerm term dice) t.modifiers dice
    rwa [List.map_id] at hloop
  rw [roll, roll, t.thrown_inTerm term term', bind_of_map, map_of_bind]
  refine congrArg _ (funext fun dice => ?_)
  rw [hmodifiers, bind_of_map, map_of_bind]
  refine congrArg _ (funext fun dice => ?_)
  rw [score_inTerm]
  rfl

/-! ## Expressions -/

/-- **An expression comes to the same value at every place**, and so does one that differs from it in
nothing but spans. -/
theorem Expr.ComesTo.elsewhere {σ : Type} [RandomSource σ] {e : Expr} {place : Nat}
    {source source' : σ} {terms : List TermResult} {v : Int}
    (h : e.ComesTo place source terms v source') :
    ∀ {e' : Expr}, e'.unplaced = e.unplaced → ∀ place' : Nat,
      ∃ terms', e'.ComesTo place' source terms' v source' := by
  induction h with
  | @constant place v s source =>
    intro e' hsame place'
    cases e' with
    | constant w s' =>
      obtain rfl : w = v := by simpa [unplaced] using hsame
      exact ⟨_, .constant⟩
    | _ => simp [unplaced] at hsame
  | @dice place t s source r hr =>
    intro e' hsame place'
    cases e' with
    | dice u s' =>
      obtain rfl : u = t := by simpa [unplaced] using hsame
      have hrun := run_map (DiceResult.inTerm place') (u.roll place) source
      rw [← Dice.roll_inTerm, hr] at hrun
      have houtcome : ((u.roll place').run source).outcome = .ok (r.inTerm place') :=
        congrArg Run.outcome hrun
      have hthere := ComesTo.dice (s := s') houtcome
      rw [congrArg Run.source hrun] at hthere
      exact ⟨_, hthere⟩
    | _ => simp [unplaced] at hsame
  | @negate place e s source source' terms v _ ih =>
    intro e' hsame place'
    cases e' with
    | negate f s' =>
      obtain ⟨terms', hoperand⟩ := ih (show f.unplaced = e.unplaced by simpa [unplaced] using hsame)
        place'
      exact ⟨terms', .negate hoperand⟩
    | _ => simp [unplaced] at hsame
  | @binary place op l r s source source₁ source₂ left right a b v _ _ hv ihl ihr =>
    intro e' hsame place'
    cases e' with
    | binary op' l' r' s' =>
      obtain ⟨rfl, hl, hr⟩ : op' = op ∧ l'.unplaced = l.unplaced ∧ r'.unplaced = r.unplaced := by
        simpa [unplaced] using hsame
      obtain ⟨left', hleft⟩ := ihl hl place'
      obtain ⟨right', hright⟩ := ihr hr (place' + left'.length)
      exact ⟨left' ++ right', .binary hleft hright hv⟩
    | _ => simp [unplaced] at hsame

end Dicebox
