import Dicebox.Proofs.Draws
import Dicebox.Proofs.Replays

/-! # Listed dice replay the roll

The dice of a result lie in another order than they were thrown in: an extra die lies behind the one
that set it off, and a die that was thrown again shows its last face only. Where no die was thrown
again or set off, every draw made one die of the first throw of its term and shows on it. So the
faces are the draws in order, whatever else was done to the dice, and a replay of the faces is a
replay of the draws.

- `Die.Tells`: no die hides that it was thrown again.
- `Die.Untouched`: a die that was thrown once, at first.
- `Dice.draws_of_untouched`, `Expr.Folds.draws_of_untouched`: the draws of such dice.
- `untouched_dice_replay_the_roll`: a whole expression.
-/

namespace Dicebox

open Rolling

variable {vs ws : List Int} {es : List Event}

/-! ## What a die tells -/

/-- A die that says nothing of being thrown again remembers no earlier faces. -/
def Die.Tells (d : Die) : Prop := d.rerolled = false → d.rerolledFrom = []

theorem Die.Rerolls.tells {values : List Int} {once : Bool} {cap : Int} {d d' : Die}
    (h : d.Rerolls values once cap ws es d') (hd : d.Tells) : d'.Tells := by
  cases h with
  | stays => exact hd
  | thrown =>
    intro hsilent
    simp [thrownAgain] at hsilent

theorem Explosion.Chain.tells {threshold cap : Int} {left : Nat} {d : Die} {new : List Die}
    (h : Chain threshold cap left d ws es new) (hd : d.Tells) : ∀ d' ∈ new, d'.Tells := by
  induction h with
  | rests | capped => exact List.forall_mem_singleton.mpr hd
  | goesOn _ _ _ ih =>
    have hextra := ih fun _ => rfl
    exact List.forall_mem_cons.mpr ⟨hd, hextra⟩

/-- **No modifier hides that a die was thrown again**, whatever its cap. -/
theorem Modifier.Does.tells {m : Modifier} {dice dice' : List Die} (h : m.Does dice ws es dice')
    (hdice : ∀ d ∈ dice, d.Tells) : ∀ d ∈ dice', d.Tells :=
  h.forall_mem (fun _ hthrown => hthrown.tells) (fun hchain => hchain.tells) (fun _ => Iff.rfl)
    hdice

theorem Dice.roll_tells {t : Dice} {term : Int} {r : DiceResult}
    (h : (t.roll term).Yields vs es r) : ∀ d ∈ r.dice, d.Tells := by
  obtain ⟨faces, ws, dice, rfl, -, -, hall, rfl⟩ := roll_yields h
  refine hall.invariant (I := fun dice => ∀ d ∈ dice, d.Tells) (fun _ hm => hm.tells) ?_
  intro d hd
  obtain ⟨v, -, rfl⟩ := List.mem_map.mp hd
  intro _
  rfl

/-! ## Untouched dice -/

/-- A die that was thrown at first, and not again. -/
structure Die.Untouched (d : Die) : Prop where
  settled : d.rerolled = false
  thrown : d.fromExplosion = false

namespace Die.Untouched

variable {d : Die}

theorem faces_eq (h : d.Untouched) (hd : d.Tells) : d.faces = [d.value] := by
  rw [faces, hd h.settled, List.nil_append]

theorem opening_eq (h : d.Untouched) (hd : d.Tells) : d.opening = [d.value] := by
  rw [opening, h.thrown, first, hd h.settled]
  rfl

end Die.Untouched

/-- The faces of untouched dice are their records. -/
theorem flatMap_of_untouched {f : Die → List Int} {dice : List Die}
    (hf : ∀ d ∈ dice, f d = [d.value]) : dice.flatMap f = dice.map Die.value := by
  rw [List.map_eq_flatMap]
  exact List.flatMap_congr hf

/-- **The draws of untouched dice are their faces, in order.** -/
theorem Dice.draws_of_untouched {t : Dice} {term : Int} {r : DiceResult}
    (h : (t.roll term).Yields vs es r) (hdice : ∀ d ∈ r.dice, d.Untouched) :
    vs = r.dice.map Die.value := by
  have htells := roll_tells h
  obtain ⟨hfaces, hopenings⟩ := roll_accounts h
  rw [flatMap_of_untouched fun d hd => (hdice d hd).faces_eq (htells d hd)] at hfaces
  rw [flatMap_of_untouched fun d hd => (hdice d hd).opening_eq (htells d hd)] at hopenings
  -- there are as many draws as dice, so all of them belong to the first throw
  have hlen : (vs.take t.count.toNat).length = vs.length := by
    rw [hopenings]
    exact hfaces.length_eq
  rwa [List.take_of_length_le (by rw [List.length_take] at hlen; omega)] at hopenings

/-! ## Expressions -/

/-- The leaves are rolled in the order they are written, so the same holds for all of them. -/
theorem Expr.Folds.draws_of_untouched {e : Expr} {place : Nat} {terms : List TermResult} {v : Int}
    (h : e.Folds place vs es terms v)
    (hdice : ∀ d ∈ terms.flatMap TermResult.laid, d.Untouched) :
    vs = (terms.flatMap TermResult.laid).map Die.value := by
  induction h with
  | constant => rfl
  | dice hr =>
    rw [List.flatMap_singleton] at hdice ⊢
    exact Dice.draws_of_untouched hr hdice
  | negate _ ih => exact ih hdice
  | binary _ _ _ ihl ihr =>
    rw [List.flatMap_append] at hdice ⊢
    obtain ⟨hleft, hright⟩ := List.forall_mem_append.mp hdice
    rw [List.map_append, ← ihl hleft, ← ihr hright]

/-- **Listed dice replay the roll** if none of them was thrown again or set off: a replay of their
faces, in the order they are listed, comes to an equal result with the same events, and nothing of
it is left over. -/
theorem untouched_dice_replay_the_roll {σ : Type} [RandomSource σ] {e : Expr} {text : Option String}
    {source : σ} {r : Roll} (hrun : ((e.roll text).run source).outcome = .ok r)
    (hdice : ∀ d ∈ r.dice, d.Untouched) :
    let again := (e.roll text).run (Replay.ofList (r.dice.map fun d => .int d.value))
    again.outcome = .ok r ∧ again.events = ((e.roll text).run source).events ∧
      again.source.rest.length = 0 := by
  obtain ⟨vs, -, hy⟩ := yields_drawn hrun
  have hfaces : vs = r.dice.map Die.value := by
    rw [Roll.dice_eq_flatMap] at hdice ⊢
    obtain ⟨-, _, -, hfolds⟩ := Expr.roll_yields hy
    exact hfolds.draws_of_untouched hdice
  have hlisted : (r.dice.map fun d => Data.int d.value) = vs.map Data.int ++ [] := by
    rw [List.append_nil, hfaces, List.map_map]
    rfl
  have hagain := hy.ends.replay [] 0
  dsimp only
  rw [hlisted, Replay.ofList, hagain]
  exact ⟨rfl, rfl, rfl⟩

/-- Two dice that throw ones again and may set off no die, and a third one. -/
def coldPair : Expr :=
  .binary .add (.dice ⟨2, 6, [.reroll [1] false 100, .explode 6 0]⟩ ⟨0, 6⟩)
    (.dice ⟨1, 4, []⟩ ⟨9, 12⟩) ⟨0, 12⟩

theorem run_coldPair : ∃ r,
    ((coldPair.roll none).run (Source.listed ⟨[5, 1, 2], 0⟩)).outcome = .ok r ∧ r.total = 11 ∧
      r.dice.map Die.value = [6, 2, 3] ∧
        ∀ d ∈ r.dice, d.rerolled = false ∧ d.fromExplosion = false := by
  refine ⟨_, rfl, rfl, rfl, ?_⟩
  decide

/-- The words make a 6, which sets off no die, a 2 and a 3. -/
theorem cold_pair_is_replayed : ∃ r,
    ((coldPair.roll none).run (Source.listed ⟨[5, 1, 2], 0⟩)).outcome = .ok r ∧ r.total = 11 ∧
      (∀ d ∈ r.dice, d.Untouched) ∧
      ((coldPair.roll none).run (Replay.ofList [.int 6, .int 2, .int 3])).outcome = .ok r ∧
      ((coldPair.roll none).run
        (Replay.ofList [.int 6, .int 2, .int 3])).source.rest.length = 0 := by
  obtain ⟨r, hrun, htotal, hfaces, hdice⟩ := run_coldPair
  have huntouched : ∀ d ∈ r.dice, d.Untouched := by
    intro d hd
    obtain ⟨hsettled, hthrown⟩ := hdice d hd
    exact ⟨hsettled, hthrown⟩
  have hlisted : (r.dice.map fun d => Data.int d.value) = [.int 6, .int 2, .int 3] := by
    calc (r.dice.map fun d => Data.int d.value)
        = (r.dice.map Die.value).map Data.int := by rw [List.map_map]; rfl
      _ = [.int 6, .int 2, .int 3] := by rw [hfaces]; rfl
  obtain ⟨hout, -, hrest⟩ := untouched_dice_replay_the_roll hrun huntouched
  rw [hlisted] at hout hrest
  exact ⟨r, hrun, htotal, huntouched, hout, hrest⟩

end Dicebox
