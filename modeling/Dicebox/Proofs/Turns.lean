import Dicebox.Proofs.Throws
import Dicebox.Source.Kinds

/-! # Die by die

An explosion and a reroll go through the dice on the table one by one. A die has its turn: some faces
are thrown for it, something may be worth telling, and one or more dice are left in its place. The
turns are independent of each other, and the draws, the events and the dice behind the modifier are
those of the turns one after the other.

- `Turn`, `turns_of_run`: the turns of a run.
- `Explosion.Bursts`, `Explosion.Plays`: the turn of a die in an explosion.
- `explosion_goes_die_by_die`: an explosion.
- `Die.Rethrown`, `Die.PlaysAgain`: the turn of a die in a reroll.
- `reroll_goes_die_by_die`: a reroll.
-/

namespace Dicebox

open Rolling

/-! ## Turns -/

/-- What happened when it was the turn of a die: the faces that were thrown, the events, and the dice
that lie in its place. -/
structure Turn where
  faces : List Int
  events : List Event
  dice : List Die

/-- A turn in which nothing happens. -/
def Turn.idle (d : Die) : Turn := ⟨[], [], [d]⟩

variable {ws : List Int} {es : List Event} {dice dice' : List Die}

theorem EachDie.turns {R : Die → List Int → List Event → List Die → Prop}
    (h : EachDie R dice ws es dice') :
    ∃ turns : List Turn, List.Forall₂ (fun d t => R d t.faces t.events t.dice) dice turns ∧
      ws = turns.flatMap Turn.faces ∧ es = turns.flatMap Turn.events ∧
        dice' = turns.flatMap Turn.dice := by
  induction h with
  | nil => exact ⟨[], .nil, rfl, rfl, rfl⟩
  | @cons d dice new rest ws ws' es es' hd _ ih =>
    obtain ⟨turns, hturns, rfl, rfl, rfl⟩ := ih
    exact ⟨⟨ws, es, new⟩ :: turns, .cons hd hturns, rfl, rfl, rfl⟩

/-- **A run that goes through the dice consists of their turns.** -/
theorem turns_of_run {σ : Type} [RandomSource σ] {R : Die → List Int → List Event → List Die → Prop}
    {r : Rolling (List Die)} {source : σ} {out : List Die}
    (hr : ∀ {ws es}, r.Yields ws es out → EachDie R dice ws es out)
    (h : (r.run source).outcome = .ok out) :
    ∃ turns : List Turn, List.Forall₂ (fun d t => R d t.faces t.events t.dice) dice turns ∧
      out = turns.flatMap Turn.dice ∧ r.drawn source = (turns.flatMap Turn.faces).map Data.int ∧
        (r.run source).events = turns.flatMap Turn.events := by
  obtain ⟨vs, hdrawn, hy⟩ := yields_drawn h
  obtain ⟨turns, hturns, rfl, hevents, hout⟩ := (hr hy).turns
  exact ⟨turns, hturns, hout, hdrawn, hevents⟩

/-! ## Explosions -/

namespace Explosion

variable {threshold cap : Int} {left : Nat} {d : Die} {new : List Die}

/-- How the die at a place of a chain is left: it has exploded, unless it is the last one and stays
below the threshold. A last die that has exploded is one that the cap stopped. -/
def settled (threshold : Int) (last place : Nat) (e : Die) : Die :=
  if place < last then { e with exploded := true }
  else if threshold ≤ e.value then { e with exploded := true, explosionCapped := true }
  else e

/-- The turn of a die that may set off others: a chain of dice, each behind the one that set it
off. -/
structure Bursts (threshold cap : Int) (d : Die) (t : Turn) : Prop where
  /-- The chain ends at the first face below the threshold, or else at the cap. -/
  stops : IsLeast {j | j = cap.toNat ∨ ∃ v, (d.value :: t.faces)[j]? = some v ∧ v < threshold}
    t.faces.length
  dice : t.dice = (d :: t.faces.map (extra d)).mapIdx (settled threshold t.faces.length)
  capped : threshold ≤ t.faces.getLastD d.value → t.faces.length = cap.toNat
  extras : ∀ e ∈ t.dice.tail, e.kept = true ∧ e.fromExplosion = true ∧ e.sides = d.sides ∧
    e.term = d.term ∧ e.rerolled = false ∧ e.rerolledFrom = []
  /-- Without the dice that it set off and its marks, the die is as it was. -/
  restored : t.dice.head?.map
    (fun e => { e with exploded := d.exploded, explosionCapped := d.explosionCapped }) = some d
  events : t.events =
    if threshold ≤ t.faces.getLastD d.value then [.explosionCapReached cap d.sides] else []

/-- The turn of a die in an explosion: dropped dice and extra dice stay as they are. -/
inductive Plays (threshold cap : Int) (d : Die) : Turn → Prop
  | passes : d.kept = false ∨ d.fromExplosion = true → Plays threshold cap d (.idle d)
  | bursts {t : Turn} : d.kept = true → d.fromExplosion = false → Bursts threshold cap d t →
      Plays threshold cap d t

theorem Chain.stops (h : Chain threshold cap left d ws es new) :
    IsLeast {j | j = left ∨ ∃ v, (d.value :: ws)[j]? = some v ∧ v < threshold} ws.length := by
  induction h with
  | @rests left d hlt => exact ⟨.inr ⟨d.value, rfl, hlt⟩, fun j _ => Nat.zero_le j⟩
  | capped => exact ⟨.inl rfl, fun j _ => Nat.zero_le j⟩
  | @goesOn left d w ws es more hge _ _ ih =>
    obtain ⟨hmem, hleast⟩ := ih
    constructor
    · rcases hmem with hcap | ⟨v, hv, hlt⟩
      · exact .inl (congrArg (· + 1) hcap)
      · exact .inr ⟨v, hv, hlt⟩
    · rintro j (rfl | ⟨v, hv, hlt⟩)
      · exact Nat.succ_le_succ (hleast (.inl rfl))
      · cases j with
        | zero =>
          obtain rfl := Option.some.inj hv
          exact absurd hlt (Int.not_lt.mpr hge)
        | succ j => exact Nat.succ_le_succ (hleast (.inr ⟨v, hv, hlt⟩))

theorem Chain.dice_eq (h : Chain threshold cap left d ws es new) :
    new = (d :: ws.map (extra d)).mapIdx (settled threshold ws.length) := by
  induction h with
  | @rests left d hlt => simp [settled, Int.not_le.mpr hlt]
  | @capped d hge => simp [settled, hge]
  | @goesOn left d w ws es more hge _ _ ih =>
    -- all dice of the chain have the sides and the term of the first one
    have hextra : extra (extra d w) = extra d := rfl
    have hstep : (fun j => settled threshold (w :: ws).length (j + 1)) =
        settled threshold ws.length := by
      funext j e
      simp [settled]
    rw [List.mapIdx_cons, hstep, List.map_cons, ih, hextra]
    simp [settled]

theorem Chain.events_eq (h : Chain threshold cap left d ws es new) : es =
    if threshold ≤ ws.getLastD d.value then [.explosionCapReached cap d.sides] else [] := by
  induction h with
  | rests hlt => exact (if_neg (Int.not_le.mpr hlt)).symm
  | capped hge => exact (if_pos hge).symm
  | goesOn _ _ _ ih =>
    rw [List.getLastD_cons]
    exact ih

theorem Chain.capped_length (h : Chain threshold cap left d ws es new)
    (hlast : threshold ≤ ws.getLastD d.value) : ws.length = left := by
  induction h with
  | rests hlt => exact absurd hlt (Int.not_lt.mpr hlast)
  | capped => rfl
  | goesOn _ _ _ ih =>
    rw [List.getLastD_cons] at hlast
    exact congrArg (· + 1) (ih hlast)

/-- A mark is all that an explosion adds to a die. -/
theorem settled_eq (threshold : Int) (last place : Nat) (e : Die) :
    ∃ exploded capped, settled threshold last place e =
      { e with exploded := exploded, explosionCapped := capped } := by
  rw [settled]
  split
  · exact ⟨_, _, rfl⟩
  · split
    · exact ⟨_, _, rfl⟩
    · exact ⟨_, _, rfl⟩

theorem Chain.extras (h : Chain threshold cap left d ws es new) :
    ∀ e ∈ new.tail, e.kept = true ∧ e.fromExplosion = true ∧ e.sides = d.sides ∧
      e.term = d.term ∧ e.rerolled = false ∧ e.rerolledFrom = [] := by
  rw [h.dice_eq, List.mapIdx_cons, List.tail_cons]
  intro e he
  obtain ⟨i, hi, rfl⟩ := List.mem_mapIdx.mp he
  obtain ⟨exploded, capped, heq⟩ := settled_eq threshold ws.length (i + 1) (ws.map (extra d))[i]
  rw [heq, List.getElem_map]
  exact ⟨rfl, rfl, rfl, rfl, rfl, rfl⟩

theorem Chain.restored (h : Chain threshold cap left d ws es new) : new.head?.map
    (fun e => { e with exploded := d.exploded, explosionCapped := d.explosionCapped }) = some d := by
  obtain ⟨exploded, capped, heq⟩ := settled_eq threshold ws.length 0 d
  rw [h.dice_eq, List.mapIdx_cons, List.head?_cons, heq]
  rfl

theorem Chain.bursts (h : Chain threshold cap cap.toNat d ws es new) :
    Bursts threshold cap d ⟨ws, es, new⟩ :=
  ⟨h.stops, h.dice_eq, h.capped_length, h.extras, h.restored, h.events_eq⟩

theorem Explodes.plays (h : Explodes threshold cap d ws es new) :
    Plays threshold cap d ⟨ws, es, new⟩ := by
  cases h with
  | stays hd =>
    refine .passes ?_
    by_cases hkept : d.kept = true
    · exact .inr (by simpa [hkept] using hd)
    · exact .inl (by simpa using hkept)
  | chain hkept hown hchain => exact .bursts hkept hown hchain.bursts

end Explosion

/-- **An explosion goes die by die**: each kept die that no other one set off is followed by its chain,
for which faces are drawn until one stays below the threshold or the cap is reached, and all other
dice stay as they are. -/
theorem explosion_goes_die_by_die {σ : Type} [RandomSource σ] {threshold cap : Int}
    {dice out : List Die} {source : σ}
    (h : ((explodeAll threshold cap dice).run source).outcome = .ok out) :
    ∃ turns : List Turn, List.Forall₂ (Explosion.Plays threshold cap) dice turns ∧
      out = turns.flatMap Turn.dice ∧
      (explodeAll threshold cap dice).drawn source = (turns.flatMap Turn.faces).map Data.int ∧
      ((explodeAll threshold cap dice).run source).events = turns.flatMap Turn.events := by
  have hyields : ∀ {ws es}, (explodeAll threshold cap dice).Yields ws es out →
      EachDie (Explosion.Explodes threshold cap) dice ws es out :=
    fun hy => Modifier.apply_yields (m := .explode threshold cap) hy
  obtain ⟨turns, hturns, hrest⟩ := turns_of_run hyields h
  exact ⟨turns, hturns.imp fun d t ht => ht.plays, hrest⟩

/-- A 6 that explodes, a dropped 6, a 6 that another die set off, and a 2. -/
def burstingDice : List Die :=
  [{ value := 6, sides := 6, term := 0 }, { value := 6, sides := 6, term := 0, kept := false },
    { value := 6, sides := 6, term := 0, fromExplosion := true },
    { value := 2, sides := 6, term := 0 }]

/-- The first 6 sets off a 6 and a 5, where the cap stops it. -/
theorem first_six_bursts :
    ∃ out, ((explodeAll 5 2 burstingDice).run (Replay.ofList [.int 6, .int 5])).outcome = .ok out ∧
      out.map Die.value = [6, 6, 5, 6, 6, 2] ∧
      ∃ turns : List Turn, List.Forall₂ (Explosion.Plays 5 2) burstingDice turns ∧
        out = turns.flatMap Turn.dice ∧
        [.int 6, .int 5] = (turns.flatMap Turn.faces).map Data.int ∧
        [.explosionCapReached 2 6] = turns.flatMap Turn.events := by
  obtain ⟨out, hrun, hvalues⟩ : ∃ out, ((explodeAll 5 2 burstingDice).run
      (Replay.ofList [.int 6, .int 5])).outcome = .ok out ∧
        out.map Die.value = [6, 6, 5, 6, 6, 2] := ⟨_, rfl, rfl⟩
  exact ⟨out, hrun, hvalues, explosion_goes_die_by_die hrun⟩

/-! ## Rerolls -/

variable {values : List Int} {sides : Int} {once : Bool} {cap : Int} {d : Die}

/-- The turn of a die that is thrown again: it is thrown until it shows none of the values, at least
once and no more often than the limit allows. -/
structure Die.Rethrown (values : List Int) (once : Bool) (cap : Int) (d : Die) (t : Turn) : Prop where
  one_le : 1 ≤ t.faces.length
  le_limit : t.faces.length ≤ rerollLimit once cap
  inside : ∀ w ∈ t.faces.dropLast, w ∈ values
  ends : t.faces.getLastD d.value ∉ values ∨ t.faces.length = rerollLimit once cap
  dice : t.dice = [{ d with
    value := t.faces.getLastD d.value
    rerolled := true
    rerolledFrom := d.rerolledFrom ++ d.value :: t.faces.dropLast }]
  /-- Only a repeating reroll tells that its cap has stopped it. -/
  events : t.events =
    if once = false ∧ t.faces.getLastD d.value ∈ values then [.rerollCapReached cap d.sides] else []

/-- The turn of a die in a reroll: dropped dice, and those that show none of the values, stay as they
are. -/
inductive Die.PlaysAgain (values : List Int) (once : Bool) (cap : Int) (d : Die) : Turn → Prop
  | passes : d.kept = false ∨ d.value ∉ values → PlaysAgain values once cap d (.idle d)
  | thrown {t : Turn} : d.kept = true → d.value ∈ values → d.Rethrown values once cap t →
      PlaysAgain values once cap d t

namespace Redraws

variable {n : Nat} {v : Int}

theorem length_le (h : Redraws values sides n v ws) : ws.length ≤ n := by
  induction h with
  | settled | stopped => exact Nat.zero_le _
  | again _ _ _ ih => exact Nat.succ_le_succ ih

theorem inside (h : Redraws values sides n v ws) : ∀ w ∈ ws.dropLast, w ∈ values := by
  induction h with
  | settled | stopped => simp
  | @again n v w ws _ _ h ih =>
    cases ws with
    | nil => simp
    | cons u us =>
      -- behind a face that is not the last one the die was thrown again
      have hw : w ∈ values := by
        cases h with
        | again hw _ _ => exact hw
      rw [List.dropLast_cons_cons]
      exact List.forall_mem_cons.mpr ⟨hw, ih⟩

theorem ends (h : Redraws values sides n v ws) : ws.getLastD v ∉ values ∨ ws.length = n := by
  induction h with
  | settled hout => exact .inl hout
  | stopped => exact .inr rfl
  | again _ _ _ ih =>
    rw [List.getLastD_cons]
    rcases ih with hout | hlen
    · exact .inl hout
    · exact .inr (congrArg (· + 1) hlen)

end Redraws

theorem Die.Rerolls.playsAgain {d' : Die} (hcap : once = true ∨ 1 ≤ cap)
    (h : d.Rerolls values once cap ws es d') : d.PlaysAgain values once cap ⟨ws, es, [d']⟩ := by
  cases h with
  | stays hd =>
    refine .passes ?_
    by_cases hkept : d.kept = true
    · exact .inr fun hv => hd ⟨hkept, hv⟩
    · exact .inl (by simpa using hkept)
  | thrown hkept hv hred =>
    have hne := hred.ne_nil hv (rerollLimit_pos hcap)
    have hpos := List.length_pos_iff.mpr hne
    refine .thrown hkept hv ⟨hpos, hred.length_le, hred.inside, hred.ends, ?_, rfl⟩
    rw [thrownAgain, List.dropLast_cons_of_ne_nil hne]

theorem Die.PlaysAgain.length_dice {t : Turn} (h : d.PlaysAgain values once cap t) :
    t.dice.length = 1 := by
  cases h with
  | passes => rfl
  | thrown _ _ hthrown =>
    rw [hthrown.dice]
    rfl

theorem length_flatMap_dice {turns : List Turn}
    (h : List.Forall₂ (Die.PlaysAgain values once cap) dice turns) :
    (turns.flatMap Turn.dice).length = dice.length := by
  induction h with
  | nil => rfl
  | cons hd _ ih =>
    rw [List.flatMap_cons, List.length_append, hd.length_dice, ih, List.length_cons, Nat.add_comm]

/-- **A reroll goes die by die**: each kept die that shows one of the values is thrown until it shows
another one or its limit is reached, and remembers what it showed; all other dice stay as they are. -/
theorem reroll_goes_die_by_die {σ : Type} [RandomSource σ] {values : List Int} {once : Bool}
    {cap : Int} (hcap : once = true ∨ 1 ≤ cap) {dice out : List Die} {source : σ}
    (h : ((rerollAll values once cap dice).run source).outcome = .ok out) :
    ∃ turns : List Turn, List.Forall₂ (Die.PlaysAgain values once cap) dice turns ∧
      out = turns.flatMap Turn.dice ∧ out.length = dice.length ∧
      (rerollAll values once cap dice).drawn source = (turns.flatMap Turn.faces).map Data.int ∧
      ((rerollAll values once cap dice).run source).events = turns.flatMap Turn.events := by
  have hyields : ∀ {ws es}, (rerollAll values once cap dice).Yields ws es out →
      EachDie (fun d ws es new => ∃ d', new = [d'] ∧ d.Rerolls values once cap ws es d')
        dice ws es out :=
    fun hy => Modifier.apply_yields (m := .reroll values once cap) hy
  obtain ⟨turns, hturns, hout, hrest⟩ := turns_of_run hyields h
  have hplays : List.Forall₂ (Die.PlaysAgain values once cap) dice turns := by
    refine hturns.imp ?_
    rintro d ⟨ws, es, _⟩ ⟨d', rfl, hthrown⟩
    exact hthrown.playsAgain hcap
  refine ⟨turns, hplays, hout, ?_, hrest⟩
  rw [hout]
  exact length_flatMap_dice hplays

/-- A 2 that was a 6 before, a dropped 1, a 4, and a 1. -/
def restlessDice : List Die :=
  [{ value := 2, sides := 6, term := 0, rerolled := true, rerolledFrom := [6] },
    { value := 1, sides := 6, term := 0, kept := false }, { value := 4, sides := 6, term := 0 },
    { value := 1, sides := 6, term := 0 }]

/-- The 2 turns into a 1 and a 2, where the cap stops it, and the last 1 into a 5. -/
theorem two_is_thrown_again :
    (false = true ∨ (1 : Int) ≤ 2) ∧
    ∃ out, ((rerollAll [1, 2] false 2 restlessDice).run
        (Replay.ofList [.int 1, .int 2, .int 5])).outcome = .ok out ∧
      out.map Die.faces = [[6, 2, 1, 2], [1], [4], [1, 5]] ∧
      ∃ turns : List Turn, List.Forall₂ (Die.PlaysAgain [1, 2] false 2) restlessDice turns ∧
        out = turns.flatMap Turn.dice ∧ out.length = 4 ∧
        [.int 1, .int 2, .int 5] = (turns.flatMap Turn.faces).map Data.int ∧
        [.rerollCapReached 2 6] = turns.flatMap Turn.events := by
  have hcap : false = true ∨ (1 : Int) ≤ 2 := .inr (by decide)
  obtain ⟨out, hrun, hfaces⟩ : ∃ out, ((rerollAll [1, 2] false 2 restlessDice).run
      (Replay.ofList [.int 1, .int 2, .int 5])).outcome = .ok out ∧
        out.map Die.faces = [[6, 2, 1, 2], [1], [4], [1, 5]] := ⟨_, rfl, rfl⟩
  exact ⟨hcap, out, hrun, hfaces, reroll_goes_die_by_die hcap hrun⟩

end Dicebox
