import Dicebox.Proofs.Folds
import Dicebox.Proofs.Words

/-! # Every draw is on the table

The dice of a term keep a record of all faces that were thrown for them: each die shows its last
face, and remembers the others. A throw adds one face to the record of one die, and nothing else that
is done to the dice touches these records, so they hold the faces that were drawn, each of them as
often as it was drawn. The dice that were thrown at first keep their order, and the first face in
each of their records.

- `Die.first`, `Die.opening`: the first face in the record of a die.
- `Accounts`: the faces of a stretch of draws are on the records behind it.
- `Modifier.Does.accounts`: no modifier loses, repeats or makes up a face.
- `every_draw_is_on_the_table`: the record of a whole term, and the draws of a whole roll.
-/

namespace Dicebox

open Rolling

variable {sides : Int} {ws : List Int} {es : List Event}

/-! ## Records -/

/-- The face that a die showed when it was first thrown. -/
def Die.first (d : Die) : Int := d.rerolledFrom.headD d.value

/-- The first face of a die, unless another die set it off. -/
def Die.opening (d : Die) : List Int := if d.fromExplosion then [] else [d.first]

theorem Die.length_faces (d : Die) : d.faces.length = 1 + d.rerolledFrom.length := by
  rw [faces, List.length_append, List.length_singleton, Nat.add_comm]

theorem Die.first_thrownAgain (d : Die) (ws : List Int) : (d.thrownAgain ws).first = d.first := by
  cases hpast : d.rerolledFrom with
  | cons v past => simp [first, thrownAgain, hpast]
  | nil => cases ws <;> simp [first, thrownAgain, hpast]

theorem Die.opening_thrownAgain (d : Die) (ws : List Int) :
    (d.thrownAgain ws).opening = d.opening := by
  rw [opening, opening, first_thrownAgain]
  rfl

theorem flatMap_opening (dice : List Die) :
    dice.flatMap Die.opening = (dice.filter fun d => !d.fromExplosion).map Die.first := by
  induction dice with
  | nil => rfl
  | cons d dice ih => cases hd : d.fromExplosion <;> simp [Die.opening, hd, ih]

/-- The records of dice are their faces and what they remember. -/
theorem coe_flatMap_faces (dice : List Die) : (dice.flatMap Die.faces : Multiset Int) =
    (dice.map Die.value : Multiset Int) + (dice.flatMap Die.rerolledFrom : Multiset Int) := by
  have hperm := List.flatMap_append_perm dice Die.rerolledFrom fun d => [d.value]
  rw [← List.map_eq_flatMap] at hperm
  rw [Multiset.coe_add, Multiset.coe_eq_coe]
  exact hperm.symm.trans List.perm_append_comm

/-! ## Accounts -/

/-- The faces of some draws are added to the records of dice, and no opening face is. -/
structure Accounts (dice : List Die) (ws : List Int) (dice' : List Die) : Prop where
  faces : (dice'.flatMap Die.faces).Perm (dice.flatMap Die.faces ++ ws)
  openings : dice'.flatMap Die.opening = dice.flatMap Die.opening

namespace Accounts

variable {dice dice' dice'' more more' : List Die} {ws' : List Int}

theorem refl (dice : List Die) : Accounts dice [] dice := ⟨by rw [List.append_nil], rfl⟩

theorem trans (h : Accounts dice ws dice') (h' : Accounts dice' ws' dice'') :
    Accounts dice (ws ++ ws') dice'' := by
  refine ⟨?_, h'.openings.trans h.openings⟩
  rw [← List.append_assoc]
  exact h'.faces.trans (h.faces.append_right ws')

theorem append (h : Accounts dice ws dice') (h' : Accounts more ws' more') :
    Accounts (dice ++ more) (ws ++ ws') (dice' ++ more') := by
  refine ⟨?_, ?_⟩
  · rw [List.flatMap_append, List.flatMap_append]
    refine (h.faces.append h'.faces).trans ?_
    rw [List.append_assoc, List.append_assoc]
    refine List.Perm.append_left _ ?_
    rw [← List.append_assoc, ← List.append_assoc]
    exact List.perm_append_comm.append_right ws'
  · rw [List.flatMap_append, List.flatMap_append, h.openings, h'.openings]

/-- What is done to every die in turn keeps the accounts if each step does. -/
theorem of_eachDie {R : Die → List Int → List Event → List Die → Prop}
    (hR : ∀ {d ws es new}, R d ws es new → Accounts [d] ws new) (h : EachDie R dice ws es dice') :
    Accounts dice ws dice' := by
  induction h with
  | nil => exact refl []
  | cons hd _ ih => exact (hR hd).append ih

end Accounts

/-! ## What is done to the dice -/

theorem Die.Rerolls.accounts {values : List Int} {once : Bool} {cap : Int} {d d' : Die}
    (h : d.Rerolls values once cap ws es d') : Accounts [d] ws [d'] := by
  cases h with
  | stays => exact .refl [d]
  | thrown =>
    refine ⟨?_, ?_⟩
    · simp [faces_thrownAgain]
    · simp [opening_thrownAgain]

namespace Explosion

variable {threshold cap : Int} {d : Die} {new : List Die}

theorem Chain.accounts {left : Nat} (h : Chain threshold cap left d ws es new) :
    Accounts [d] ws new := by
  induction h with
  | rests => exact .refl _
  | capped => exact ⟨by simp [Die.faces], rfl⟩
  | goesOn _ _ _ ih =>
    refine ⟨?_, ?_⟩
    · have hmore := ih.faces
      simp only [List.flatMap_cons, List.flatMap_nil, List.append_nil] at hmore ⊢
      exact hmore.append_left _
    · rw [List.flatMap_cons, ih.openings]
      rfl

theorem Explodes.accounts (h : Explodes threshold cap d ws es new) : Accounts [d] ws new := by
  cases h with
  | stays => exact .refl [d]
  | chain _ _ hchain => exact hchain.accounts

end Explosion

theorem accounts_selectAll (rule : Selection) (count : Int) (dice : List Die) :
    Accounts dice [] (selectAll rule count dice) := by
  have hfaces := map_selectAll Die.faces (fun _ => rfl) rule count dice
  have hopenings := map_selectAll Die.opening (fun _ => rfl) rule count dice
  refine ⟨?_, ?_⟩
  · rw [List.append_nil, List.flatMap, List.flatMap, hfaces]
  · rw [List.flatMap, List.flatMap, hopenings]

/-- **No modifier loses, repeats or makes up a face.** -/
theorem Modifier.Does.accounts {m : Modifier} {dice dice' : List Die}
    (h : m.Does dice ws es dice') : Accounts dice ws dice' := by
  cases m with
  | reroll values once cap =>
    refine .of_eachDie ?_ h
    rintro d ws es _ ⟨d', rfl, hd⟩
    exact hd.accounts
  | explode threshold cap => exact .of_eachDie Explosion.Explodes.accounts h
  | select rule count =>
    obtain ⟨rfl, -, rfl⟩ := h
    exact accounts_selectAll rule count dice
  | success | failure =>
    obtain ⟨rfl, -, rfl⟩ := h
    exact .refl _

theorem Modifier.DoAll.accounts {ms : List Modifier} {dice dice' : List Die}
    (h : DoAll ms dice ws es dice') : Accounts dice ws dice' := by
  induction h with
  | nil => exact .refl _
  | cons hm _ ih => exact hm.accounts.trans ih

/-! ## Terms -/

theorem flatMap_faces_fresh (term : Int) (vs : List Int) :
    (vs.map (Die.fresh sides term)).flatMap Die.faces = vs := by
  induction vs with
  | nil => rfl
  | cons v vs ih => exact congrArg (v :: ·) ih

theorem flatMap_opening_fresh (term : Int) (vs : List Int) :
    (vs.map (Die.fresh sides term)).flatMap Die.opening = vs := by
  induction vs with
  | nil => rfl
  | cons v vs ih => exact congrArg (v :: ·) ih

/-- The records of a term hold its draws, and those of the dice that were thrown at first begin with
the first of its draws. -/
theorem Dice.roll_accounts {t : Dice} {term : Int} {vs : List Int} {r : DiceResult}
    (h : (t.roll term).Yields vs es r) :
    (r.dice.flatMap Die.faces).Perm vs ∧
      vs.take t.count.toNat = r.dice.flatMap Die.opening := by
  obtain ⟨faces, ws, dice, rfl, hlen, -, hall, rfl⟩ := roll_yields h
  have hacc := hall.accounts
  refine ⟨?_, ?_⟩
  · simpa only [flatMap_faces_fresh] using hacc.faces
  · rw [← hlen, List.take_left, hacc.openings, flatMap_opening_fresh]

/-! ## Expressions -/

/-- The records of the dice of a leaf. -/
def TermResult.faces : TermResult → List Int
  | constant _ => []
  | dice r => r.dice.flatMap Die.faces

theorem Expr.Folds.accounts {e : Expr} {place : Nat} {vs : List Int} {terms : List TermResult}
    {v : Int} (h : e.Folds place vs es terms v) : (terms.flatMap TermResult.faces).Perm vs := by
  induction h with
  | constant => exact .refl _
  | dice hr => simpa [TermResult.faces] using (Dice.roll_accounts hr).1
  | negate _ ih => exact ih
  | binary _ _ _ ihl ihr =>
    rw [List.flatMap_append]
    exact ihl.append ihr

def TermResult.laid : TermResult → List Die
  | constant _ => []
  | dice r => r.dice

theorem Roll.dice_eq_flatMap (r : Roll) : r.dice = r.terms.flatMap TermResult.laid := by
  rw [Roll.dice, Roll.diceTerms]
  induction r.terms with
  | nil => rfl
  | cons t ts ih =>
    cases t with
    | constant v => exact ih
    | dice d => exact congrArg (d.dice ++ ·) ih

theorem Roll.flatMap_faces (r : Roll) :
    r.dice.flatMap Die.faces = r.terms.flatMap TermResult.faces := by
  rw [dice_eq_flatMap, List.flatMap_assoc]
  refine List.flatMap_congr ?_
  intro t _
  cases t <;> rfl

theorem Expr.roll_accounts {e : Expr} {text : Option String} {vs : List Int} {r : Roll}
    (h : (e.roll text).Yields vs es r) : (r.dice.flatMap Die.faces).Perm vs := by
  rw [Roll.flatMap_faces]
  obtain ⟨-, _, -, hfolds⟩ := roll_yields h
  exact hfolds.accounts

theorem Expr.length_draws {e : Expr} {text : Option String} {vs : List Int} {r : Roll}
    (h : (e.roll text).Yields vs es r) :
    vs.length = (r.dice.map fun d => 1 + d.rerolledFrom.length).sum := by
  rw [← (roll_accounts h).length_eq, List.length_flatMap]
  simp only [Die.length_faces]

/-! ## Seeded sources -/

theorem next_seeded {s : Seeded} {low high : Int} {v : Data} {source : Source}
    (h : RandomSource.next (Source.seeded s) low high = (.ok v, source)) :
    ∃ s', source = .seeded s' ∧ s'.draws = s.draws + 1 := by
  change sampled Source.seeded (s.next low high) = _ at h
  rw [Seeded.next] at h
  split at h
  · obtain ⟨-, rfl⟩ := Prod.mk.inj h
    exact ⟨_, rfl, rfl⟩
  · cases (Prod.mk.inj h).1

theorem run_seeded {α : Type} {r : Rolling α} {s : Seeded} {a : α}
    (h : (r.run (Source.seeded s)).outcome = .ok a) :
    ∃ vs s', r.Yields vs (r.run (Source.seeded s)).events a ∧
      (r.run (Source.seeded s)).source = .seeded s' ∧ s'.draws = s.draws + vs.length := by
  let counted (past : List Int) (source : Source) : Prop :=
    ∃ s', source = .seeded s' ∧ s'.draws = s.draws + past.length
  have hdraw : ∀ {past : List Int} {source source' : Source} {sides face : Int},
      counted past source → RandomSource.next source 1 sides = (.ok (.int face), source') →
        counted (past ++ [face]) source' := by
    rintro past source source' sides face ⟨s', rfl, hs'⟩ hnext
    obtain ⟨s'', rfl, hs''⟩ := next_seeded hnext
    refine ⟨s'', rfl, ?_⟩
    rw [hs'', hs', List.length_append, List.length_singleton, Nat.add_assoc]
  have hnone : counted [] (.seeded s) := ⟨s, rfl, rfl⟩
  obtain ⟨vs, hy, s', hsource, hs'⟩ := yields_of_run hdraw hnone h
  exact ⟨vs, s', hy, hsource, hs'⟩

/-! ## The law -/

/-- **No draw is lost, repeated or made up.** What a source hands out for a term are the faces of its
dice and the faces that they remember; the first of them are the first faces of the dice that no
other die set off, in order. A seeded source counts these draws. -/
theorem every_draw_is_on_the_table :
    (∀ {σ : Type} [RandomSource σ] (t : Dice) (term : Int) (source : σ) (r : DiceResult),
      ((t.roll term).run source).outcome = .ok r →
        ∃ vs : List Int, (t.roll term).drawn source = vs.map Data.int ∧
          (vs : Multiset Int) = (r.dice.map Die.value : Multiset Int) +
            (r.dice.flatMap Die.rerolledFrom : Multiset Int) ∧
          vs.take t.count.toNat = (r.dice.filter fun d => !d.fromExplosion).map Die.first) ∧
    ∀ (e : Expr) (text : Option String) (s : Seeded) (r : Roll),
      ((e.roll text).run (Source.seeded s)).outcome = .ok r →
        ∃ s', ((e.roll text).run (Source.seeded s)).source = .seeded s' ∧
          s'.draws = s.draws + (r.dice.map fun d => 1 + d.rerolledFrom.length).sum := by
  refine ⟨?_, ?_⟩
  · intro σ _ t term source r h
    obtain ⟨vs, hdrawn, hy⟩ := yields_drawn h
    obtain ⟨hperm, htake⟩ := Dice.roll_accounts hy
    refine ⟨vs, hdrawn, ?_, htake.trans (flatMap_opening _)⟩
    rw [← coe_flatMap_faces, Multiset.coe_eq_coe]
    exact hperm.symm
  · intro e text s r h
    obtain ⟨vs, s', hy, hsource, hdraws⟩ := run_seeded h
    exact ⟨s', hsource, by rw [hdraws, Expr.length_draws hy]⟩

/-- Two dice, of which a 6 sets off another one before a 1 is thrown again. -/
def explodingPair : Dice := ⟨2, 6, [.explode 6 100, .reroll [1] false 100]⟩

/-- A seeded source with a table of zeros, which shows a 1 on every die. -/
def zeros : Seeded := ⟨0, ⟨Vector.replicate Twister.size 0, 0⟩, 0⟩

theorem next_zeros :
    ∃ source, RandomSource.next (Source.seeded zeros) 1 6 = (.ok (.int 1), source) := by
  obtain ⟨g, hword⟩ : ∃ g, WordStream.next zeros.generator = (.ok 0, g) := ⟨_, rfl⟩
  have hzero : (0 : UInt32).toNat < wordLimit 6 := by decide
  have hsix : Samplable 6 := ⟨by decide, by decide⟩
  have haccepts : (Source.seeded zeros).Accepts (wordLimit (6 : Int).toNat) 0 _ :=
    .seeded (.here hword hzero)
  exact ⟨_, (haccepts.next_die hsix).1⟩

/-- A 6, a 1, a 4 that the 6 sets off and a 5 in place of the 1; and one draw for one die. -/
theorem exploding_pair_is_on_the_table :
    (∃ vs : List Int,
      (explodingPair.roll 0).drawn (Replay.ofList [.int 6, .int 1, .int 4, .int 5]) =
        vs.map Data.int ∧ (vs : Multiset Int) = ([6, 4, 5] : List Int) + ([1] : List Int) ∧
          vs.take 2 = [6, 1]) ∧
      ∃ s', (((Expr.dice ⟨1, 6, []⟩ ⟨0, 3⟩).roll none).run (Source.seeded zeros)).source =
        .seeded s' ∧ s'.draws = zeros.draws + 1 := by
  refine ⟨?_, ?_⟩
  · exact every_draw_is_on_the_table.1 explodingPair 0
      (Replay.ofList [.int 6, .int 1, .int 4, .int 5]) _ rfl
  · obtain ⟨r, hr, hdice⟩ : ∃ r, (((Expr.dice ⟨1, 6, []⟩ ⟨0, 3⟩).roll none).run
        (Source.seeded zeros)).outcome = .ok r ∧
          (r.dice.map fun d => 1 + d.rerolledFrom.length).sum = 1 := by
      obtain ⟨source, hnext⟩ := next_zeros
      rw [show (Expr.dice ⟨1, 6, []⟩ ⟨0, 3⟩).roll none = .draw 6 _ from rfl,
        run_of_next hnext ⟨by decide, by decide⟩]
      exact ⟨_, rfl, rfl⟩
    have hdraws := every_draw_is_on_the_table.2 (.dice ⟨1, 6, []⟩ ⟨0, 3⟩) none zeros r hr
    rwa [hdice] at hdraws

end Dicebox
