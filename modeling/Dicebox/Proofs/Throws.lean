import Dicebox.Proofs.Yields
import Dicebox.Term.Roll

/-! # What is done to the dice of a term

Each thing that is done to the dice on the table comes out as a relation between the dice before it,
the faces that are thrown, the events, and the dice after it. The throw and the modifiers are opened
here once; what is true of the dice of a term follows from these relations alone.

- `Redraws`, `Die.Rerolls`: a die that is thrown again.
- `Die.faces`: the record that a die keeps of its faces.
- `Explosion.Chain`, `Explosion.Explodes`: a die and the extra dice that it sets off.
- `EachDie`: what is done to every die in turn.
- `Modifier.Does`, `Modifier.DoAll`: a modifier, and modifiers one after the other.
- `Modifier.Does.forall_mem`, `Modifier.DoAll.invariant`: what they leave true.
- `Dice.roll_yields`: a whole term.
-/

namespace Dicebox

open Rolling

/-! ## Throwing a die again -/

/-- The faces that a die shows behind a face `v` when it is thrown again, at most so many times, as
long as it shows one of `values`. -/
inductive Redraws (values : List Int) (sides : Int) : Nat → Int → List Int → Prop
  | settled {n : Nat} {v : Int} : v ∉ values → Redraws values sides n v []
  | stopped {v : Int} : v ∈ values → Redraws values sides 0 v []
  | again {n : Nat} {v w : Int} {ws : List Int} :
      v ∈ values → OnDie sides w → Redraws values sides n w ws →
        Redraws values sides (n + 1) v (w :: ws)

variable {values : List Int} {sides : Int} {ws : List Int} {es : List Event}

theorem redraw_yields {n : Nat} {v : Int} {earlier : List Int} {r : Rest} (hv : v ∈ values)
    (h : (redraw values sides n v earlier).Yields ws es r) :
    Redraws values sides n v ws ∧ es = [] ∧ (r.stopped = true ↔ r.value ∈ values) ∧
      r.earlier.reverse ++ [r.value] = earlier.reverse ++ v :: ws := by
  induction n generalizing v earlier ws with
  | zero =>
    cases h
    exact ⟨.stopped hv, rfl, by simp [hv], rfl⟩
  | succ n ih =>
    obtain ⟨face, ws, rfl, hface, h⟩ := Yields.of_draw h
    split at h
    · next hmem =>
      obtain ⟨hred, hes, hstop, hfaces⟩ := ih hmem h
      refine ⟨.again hv hface hred, hes, hstop, ?_⟩
      rw [hfaces, List.reverse_cons, List.append_assoc, List.singleton_append]
    · next hmem =>
      cases h
      refine ⟨.again hv hface (.settled hmem), rfl, by simp [hmem], ?_⟩
      rw [List.reverse_cons, List.append_assoc, List.singleton_append]

theorem Redraws.ne_nil {n : Nat} {v : Int} (h : Redraws values sides n v ws) (hv : v ∈ values)
    (hn : 0 < n) : ws ≠ [] := by
  cases h with
  | settled hout => exact absurd hv hout
  | stopped => exact absurd hn (Nat.lt_irrefl 0)
  | again => exact List.cons_ne_nil _ _

/-- How often a reroll may throw one die. -/
def rerollLimit (once : Bool) (cap : Int) : Nat := if once then 1 else cap.toNat

theorem rerollLimit_pos {once : Bool} {cap : Int} (h : once = true ∨ 1 ≤ cap) :
    0 < rerollLimit once cap := by
  rw [rerollLimit]
  split
  · exact Nat.one_pos
  · next honce =>
    have hone := h.resolve_left honce
    omega

/-- A die that was thrown again and showed these faces. -/
def Die.thrownAgain (d : Die) (ws : List Int) : Die :=
  { d with
    value := ws.getLastD d.value
    rerolled := true
    rerolledFrom := d.rerolledFrom ++ (d.value :: ws).dropLast }

/-- All faces that a die has shown, the oldest first. -/
def Die.faces (d : Die) : List Int := d.rerolledFrom ++ [d.value]

theorem Die.faces_thrownAgain (d : Die) (ws : List Int) :
    (d.thrownAgain ws).faces = d.faces ++ ws := by
  have hlast : (d.value :: ws).dropLast ++ [ws.getLastD d.value] = d.value :: ws := by
    simpa only [List.getLast_eq_getLastD] using
      List.dropLast_append_getLast (List.cons_ne_nil d.value ws)
  rw [faces, faces, thrownAgain, List.append_assoc, hlast, List.append_assoc, List.singleton_append]

/-- What a reroll does to one die: nothing, unless the die is kept and shows one of the values. -/
inductive Die.Rerolls (values : List Int) (once : Bool) (cap : Int) (d : Die) :
    List Int → List Event → Die → Prop
  | stays : ¬ (d.kept ∧ d.value ∈ values) → Rerolls values once cap d [] [] d
  | thrown {ws : List Int} : d.kept → d.value ∈ values →
      Redraws values d.sides (rerollLimit once cap) d.value ws →
        Rerolls values once cap d ws
          (if once = false ∧ ws.getLastD d.value ∈ values then [.rerollCapReached cap d.sides]
            else [])
          (d.thrownAgain ws)

theorem Die.reroll_yields {once : Bool} {cap : Int} {d d' : Die}
    (h : (d.reroll values once cap).Yields ws es d') : d.Rerolls values once cap ws es d' := by
  rw [reroll] at h
  split at h
  · next hd =>
    obtain ⟨r, ws, vs, es, es', rfl, rfl, hr, hend⟩ := h.of_bind
    obtain ⟨hred, rfl, hstop, hfaces⟩ := redraw_yields hd.2 hr
    rw [List.reverse_nil, List.nil_append] at hfaces
    -- the faces in a row are what the die remembers and what it shows
    have hlast : r.value = ws.getLastD d.value := by
      rw [← List.getLastD_cons (a := 0), ← hfaces, List.getLastD_concat]
    have hearlier : r.earlier.reverse = (d.value :: ws).dropLast := by
      rw [← hfaces, List.dropLast_concat]
    have hdie : d' = d.thrownAgain ws ∧ vs = [] ∧ es' =
        if once = false ∧ ws.getLastD d.value ∈ values then [.rerollCapReached cap d.sides]
          else [] := by
      rw [hlast] at hstop
      dsimp only at hend
      rw [hlast, hearlier] at hend
      split at hend
      · next hnote =>
        cases hend with
        | note hend =>
          cases hend
          refine ⟨rfl, rfl, ?_⟩
          rw [if_pos (by simpa [hstop, and_comm] using hnote)]
      · next hnote =>
        cases hend
        refine ⟨rfl, rfl, ?_⟩
        rw [if_neg (by simpa [hstop, and_comm] using hnote)]
    obtain ⟨rfl, rfl, rfl⟩ := hdie
    rw [List.append_nil, List.nil_append]
    exact .thrown hd.1 hd.2 hred
  · next hd =>
    cases h
    exact .stays hd

/-! ## Explosions -/

namespace Explosion

/-- The dice of one chain, and the faces of those behind its first: a die at or above the threshold
sets off another one, as long as so many may follow. -/
inductive Chain (threshold cap : Int) : Nat → Die → List Int → List Event → List Die → Prop
  | rests {left : Nat} {d : Die} : d.value < threshold → Chain threshold cap left d [] [] [d]
  | capped {d : Die} : threshold ≤ d.value →
      Chain threshold cap 0 d [] [.explosionCapReached cap d.sides]
        [{ d with exploded := true, explosionCapped := true }]
  | goesOn {left : Nat} {d : Die} {w : Int} {ws : List Int} {es : List Event} {more : List Die} :
      threshold ≤ d.value → OnDie d.sides w → Chain threshold cap left (extra d w) ws es more →
        Chain threshold cap (left + 1) d (w :: ws) es ({ d with exploded := true } :: more)

variable {threshold cap : Int}

theorem chain_yields {left : Nat} {d : Die} {done out : List Die}
    (h : (chain threshold cap left d done).Yields ws es out) :
    ∃ more, out = more.reverse ++ done ∧ Chain threshold cap left d ws es more := by
  induction left generalizing d done ws with
  | zero =>
    rw [chain] at h
    split at h
    · next hlt =>
      cases h
      exact ⟨[d], rfl, .rests hlt⟩
    · next hge =>
      cases h with
      | note h =>
        cases h
        exact ⟨[_], rfl, .capped (Int.not_lt.mp hge)⟩
  | succ left ih =>
    rw [chain] at h
    split at h
    · next hlt =>
      cases h
      exact ⟨[d], rfl, .rests hlt⟩
    · next hge =>
      obtain ⟨face, ws, rfl, hface, h⟩ := Yields.of_draw h
      obtain ⟨more, rfl, hchain⟩ := ih h
      refine ⟨_ :: more, ?_, .goesOn (Int.not_lt.mp hge) hface hchain⟩
      rw [List.reverse_cons, List.append_assoc, List.singleton_append]

/-- What an explosion makes of one die: a chain, unless it is dropped or an extra die itself. -/
inductive Explodes (threshold cap : Int) (d : Die) :
    List Int → List Event → List Die → Prop
  | stays : ¬ (d.kept ∧ !d.fromExplosion) → Explodes threshold cap d [] [] [d]
  | chain {ws : List Int} {es : List Event} {new : List Die} : d.kept → d.fromExplosion = false →
      Chain threshold cap cap.toNat d ws es new → Explodes threshold cap d ws es new

theorem step_yields {d : Die} {done out : List Die}
    (h : (step threshold cap done d).Yields ws es out) :
    ∃ new, out = new.reverse ++ done ∧ Explodes threshold cap d ws es new := by
  rw [step] at h
  split at h
  · next hd =>
    obtain ⟨new, hout, hchain⟩ := chain_yields h
    exact ⟨new, hout, .chain hd.1 (by simpa using hd.2) hchain⟩
  · next hd =>
    cases h
    exact ⟨[d], rfl, .stays hd⟩

end Explosion

/-! ## One die after the other -/

/-- What is done to every die of a list in turn, each of which leaves dice in its place. -/
inductive EachDie (R : Die → List Int → List Event → List Die → Prop) :
    List Die → List Int → List Event → List Die → Prop
  | nil : EachDie R [] [] [] []
  | cons {d : Die} {dice new rest : List Die} {ws ws' : List Int} {es es' : List Event} :
      R d ws es new → EachDie R dice ws' es' rest →
        EachDie R (d :: dice) (ws ++ ws') (es ++ es') (new ++ rest)

theorem EachDie.forall_mem {R : Die → List Int → List Event → List Die → Prop} {P : Die → Prop}
    (hR : ∀ {d ws es new}, R d ws es new → P d → ∀ d' ∈ new, P d') {dice dice' : List Die}
    (h : EachDie R dice ws es dice') (hdice : ∀ d ∈ dice, P d) : ∀ d ∈ dice', P d := by
  induction h with
  | nil => exact hdice
  | cons hd _ ih =>
    obtain ⟨hP, hrest⟩ := List.forall_mem_cons.mp hdice
    exact List.forall_mem_append.mpr ⟨hR hd hP, ih hrest⟩

/-- A loop that puts what it makes of each die in front of what it made of the dice before. -/
theorem foldl_yields {R : Die → List Int → List Event → List Die → Prop}
    {step : List Die → Die → Rolling (List Die)}
    (hstep : ∀ done d ws es out, (step done d).Yields ws es out →
      ∃ new, out = new.reverse ++ done ∧ R d ws es new) {dice done out : List Die}
    (h : (Rolling.foldl step done dice).Yields ws es out) :
    ∃ new, out = new.reverse ++ done ∧ EachDie R dice ws es new := by
  induction dice generalizing done ws es with
  | nil =>
    cases h
    exact ⟨[], rfl, .nil⟩
  | cons d dice ih =>
    obtain ⟨done', ws, ws', es, es', rfl, rfl, hd, h⟩ := Yields.of_bind h
    obtain ⟨new, rfl, hR⟩ := hstep _ _ _ _ _ hd
    obtain ⟨rest, rfl, hrest⟩ := ih h
    refine ⟨new ++ rest, ?_, .cons hR hrest⟩
    rw [List.reverse_append, List.append_assoc]

theorem foldl_reverse_yields {R : Die → List Int → List Event → List Die → Prop}
    {step : List Die → Die → Rolling (List Die)}
    (hstep : ∀ done d ws es out, (step done d).Yields ws es out →
      ∃ new, out = new.reverse ++ done ∧ R d ws es new) {dice out : List Die}
    (h : ((Rolling.foldl step [] dice).bind fun done => .done done.reverse).Yields ws es out) :
    EachDie R dice ws es out := by
  obtain ⟨done, ws, ws', es, es', rfl, rfl, hloop, h⟩ := h.of_bind
  cases h
  obtain ⟨new, rfl, heach⟩ := foldl_yields hstep hloop
  simpa using heach

/-! ## Modifiers -/

theorem map_selectAll {α : Type} (f : Die → α) (hf : ∀ d : Die, f { d with kept := false } = f d)
    (rule : Selection) (count : Int) (dice : List Die) :
    (selectAll rule count dice).map f = dice.map f := by
  have hstep : ∀ p : Die × Nat, f (if p.2 ∈ droppedBy rule count dice then
      { p.1 with kept := false } else p.1) = f p.1 := by
    intro p
    split
    · exact hf p.1
    · rfl
  rw [selectAll, List.map_map]
  conv_rhs => rw [← List.zipIdx_map_fst 0 dice]
  rw [List.map_map]
  exact List.map_congr_left fun p _ => hstep p

theorem forall_mem_selectAll {P : Die → Prop}
    (hP : ∀ d : Die, P { d with kept := false } ↔ P d) {rule : Selection} {count : Int}
    {dice : List Die} : (∀ d ∈ selectAll rule count dice, P d) ↔ ∀ d ∈ dice, P d := by
  have hmap := map_selectAll P (fun d => propext (hP d)) rule count dice
  calc (∀ d ∈ selectAll rule count dice, P d)
      ↔ ∀ p ∈ (selectAll rule count dice).map P, p := (List.forall_mem_map (P := fun p => p)).symm
    _ ↔ ∀ p ∈ dice.map P, p := by rw [hmap]
    _ ↔ ∀ d ∈ dice, P d := List.forall_mem_map

/-- What a modifier does to the dice on the table. -/
def Modifier.Does (m : Modifier) (dice : List Die) (ws : List Int) (es : List Event)
    (dice' : List Die) : Prop :=
  match m with
  | .reroll values once cap =>
    EachDie (fun d ws es new => ∃ d', new = [d'] ∧ d.Rerolls values once cap ws es d')
      dice ws es dice'
  | .explode threshold cap => EachDie (Explosion.Explodes threshold cap) dice ws es dice'
  | .select rule count => ws = [] ∧ es = [] ∧ dice' = selectAll rule count dice
  | .success _ | .failure _ => ws = [] ∧ es = [] ∧ dice' = dice

theorem Modifier.apply_yields {m : Modifier} {dice dice' : List Die}
    (h : (m.apply dice).Yields ws es dice') : m.Does dice ws es dice' := by
  cases m with
  | select | success | failure =>
    cases h
    exact ⟨rfl, rfl, rfl⟩
  | explode threshold cap =>
    have hstep : ∀ done d ws es out, (Explosion.step threshold cap done d).Yields ws es out →
        ∃ new, out = new.reverse ++ done ∧ Explosion.Explodes threshold cap d ws es new :=
      fun _ _ _ _ _ hd => Explosion.step_yields hd
    exact foldl_reverse_yields hstep h
  | reroll values once cap =>
    refine foldl_reverse_yields (fun done d ws es out hd => ?_) h
    obtain ⟨d', ws, ws', es, es', rfl, rfl, hthrown, hend⟩ := hd.of_bind
    cases hend
    refine ⟨[d'], rfl, d', rfl, ?_⟩
    rw [List.append_nil, List.append_nil]
    exact Die.reroll_yields hthrown

/-- What a modifier leaves true of every die, if it is true of a die that is thrown again, along a
chain, and of a die that no longer counts. -/
theorem Modifier.Does.forall_mem {P : Die → Prop} {m : Modifier} {dice dice' : List Die}
    (hreroll : ∀ {values once cap d ws es d'}, m = .reroll values once cap →
      Die.Rerolls values once cap d ws es d' → P d → P d')
    (hchain : ∀ {threshold cap left d ws es new},
      Explosion.Chain threshold cap left d ws es new → P d → ∀ d' ∈ new, P d')
    (hdrop : ∀ d : Die, P { d with kept := false } ↔ P d) (h : m.Does dice ws es dice')
    (hdice : ∀ d ∈ dice, P d) : ∀ d ∈ dice', P d := by
  cases m with
  | reroll values once cap =>
    refine EachDie.forall_mem ?_ h hdice
    rintro d ws es _ ⟨d', rfl, hthrown⟩ hd
    exact List.forall_mem_singleton.mpr (hreroll rfl hthrown hd)
  | explode threshold cap =>
    refine EachDie.forall_mem (fun hexplodes hd => ?_) h hdice
    cases hexplodes with
    | stays => exact List.forall_mem_singleton.mpr hd
    | chain _ _ hlinks => exact hchain hlinks hd
  | select rule count =>
    obtain ⟨-, -, rfl⟩ := h
    exact (forall_mem_selectAll hdrop).mpr hdice
  | success | failure =>
    obtain ⟨-, -, rfl⟩ := h
    exact hdice

/-- What modifiers do one after the other. -/
inductive Modifier.DoAll : List Modifier → List Die → List Int → List Event → List Die → Prop
  | nil {dice : List Die} : DoAll [] dice [] [] dice
  | cons {m : Modifier} {ms : List Modifier} {dice dice' dice'' : List Die} {ws ws' : List Int}
      {es es' : List Event} : m.Does dice ws es dice' → DoAll ms dice' ws' es' dice'' →
        DoAll (m :: ms) dice (ws ++ ws') (es ++ es') dice''

/-- What each of the modifiers leaves true of the dice, all of them do. -/
theorem Modifier.DoAll.invariant {I : List Die → Prop} {ms : List Modifier}
    {dice dice' : List Die} (h : DoAll ms dice ws es dice')
    (hms : ∀ {m dice ws es dice'}, m ∈ ms → Modifier.Does m dice ws es dice' → I dice → I dice')
    (hdice : I dice) : I dice' := by
  induction h with
  | nil => exact hdice
  | cons hm _ ih =>
    exact ih (fun hmem => hms (List.mem_cons_of_mem _ hmem)) (hms List.mem_cons_self hm hdice)

theorem Modifier.foldl_apply_yields {ms : List Modifier} {dice dice' : List Die}
    (h : (Rolling.foldl (fun dice m => m.apply dice) dice ms).Yields ws es dice') :
    DoAll ms dice ws es dice' := by
  induction ms generalizing dice ws es with
  | nil =>
    cases h
    exact .nil
  | cons m ms ih =>
    obtain ⟨dice₁, ws, ws', es, es', rfl, rfl, hm, h⟩ := Yields.of_bind h
    exact .cons (Modifier.apply_yields hm) (ih h)

/-! ## Terms -/

def Die.fresh (sides term face : Int) : Die := { value := face, sides, term }

theorem throwDice_yields {term : Int} {n : Nat} {done out : List Die}
    (h : (throwDice sides term n done).Yields ws es out) :
    es = [] ∧ ws.length = n ∧ (∀ w ∈ ws, OnDie sides w) ∧
      out.reverse = done.reverse ++ ws.map (Die.fresh sides term) := by
  induction n generalizing done ws with
  | zero =>
    cases h
    exact ⟨rfl, rfl, by simp, by simp⟩
  | succ n ih =>
    obtain ⟨face, ws, rfl, hface, h⟩ := Yields.of_draw h
    obtain ⟨rfl, rfl, hws, hout⟩ := ih h
    refine ⟨rfl, rfl, List.forall_mem_cons.mpr ⟨hface, hws⟩, ?_⟩
    rw [hout, List.reverse_cons, List.append_assoc, List.map_cons]
    rfl

theorem yields_throwDice (term : Int) {vs : List Int} (hvs : ∀ v ∈ vs, OnDie sides v)
    (done : List Die) : (throwDice sides term vs.length done).Yields vs []
      ((vs.map (Die.fresh sides term)).reverse ++ done) := by
  induction vs generalizing done with
  | nil => exact .done done
  | cons v vs ih =>
    obtain ⟨hv, hvs⟩ := List.forall_mem_cons.mp hvs
    rw [List.map_cons, List.reverse_cons, List.append_assoc]
    exact .draw hv (ih hvs _)

theorem Dice.yields_thrown (t : Dice) (term : Int) {vs : List Int}
    (hlen : vs.length = t.count.toNat) (hvs : ∀ v ∈ vs, OnDie t.sides v) :
    (t.thrown term).Yields vs [] (vs.map (Die.fresh t.sides term)) := by
  have hthrow := yields_throwDice term hvs []
  rw [List.append_nil, hlen] at hthrow
  have hturn := hthrow.bind (f := fun done => .done done.reverse) (.done _)
  rwa [List.append_nil, List.append_nil, List.reverse_reverse] at hturn

/-- The throw itself takes one face for each die. -/
theorem Dice.thrown_yields {t : Dice} {term : Int} {dice : List Die}
    (h : (t.thrown term).Yields ws es dice) :
    es = [] ∧ ws.length = t.count.toNat ∧ (∀ w ∈ ws, OnDie t.sides w) ∧
      dice = ws.map (Die.fresh t.sides term) := by
  obtain ⟨out, ws, vs, es, es', rfl, rfl, hthrow, h⟩ := h.of_bind
  cases h
  rw [List.append_nil, List.append_nil]
  exact throwDice_yields hthrow

/-- **How a dice term comes out**: its dice are thrown first, then its modifiers act on them in the
order they are written, and what is on the table in the end is scored. -/
theorem Dice.roll_yields {t : Dice} {term : Int} {vs : List Int} {r : DiceResult}
    (h : (t.roll term).Yields vs es r) :
    ∃ faces ws dice, vs = faces ++ ws ∧ faces.length = t.count.toNat ∧
      (∀ v ∈ faces, OnDie t.sides v) ∧
      Modifier.DoAll t.modifiers (faces.map (Die.fresh t.sides term)) ws es dice ∧
      r = ⟨t.canonical, t.count, t.sides, dice, (score dice t.modifiers).1,
        (score dice t.modifiers).2⟩ := by
  -- the throw, the modifiers and the score, which throws nothing
  obtain ⟨dice₀, faces, vs, es₀, es, rfl, rfl, hthrown, h⟩ := h.of_bind
  obtain ⟨dice, ws, vs', es₁, es', rfl, rfl, hall, h⟩ := h.of_bind
  cases h
  obtain ⟨rfl, hlen, hfaces, rfl⟩ := thrown_yields hthrown
  refine ⟨faces, ws, dice, by simp, hlen, hfaces, ?_, rfl⟩
  simpa using Modifier.foldl_apply_yields hall

theorem Dice.roll_score {t : Dice} {term : Int} {vs : List Int} {r : DiceResult}
    (h : (t.roll term).Yields vs es r) : score r.dice t.modifiers = (r.subtotal, r.scoring) := by
  obtain ⟨faces, ws, dice, rfl, -, -, -, rfl⟩ := roll_yields h
  rfl

end Dicebox
