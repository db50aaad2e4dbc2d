import Dicebox.Proofs.Table
import Dicebox.Source.Kinds

/-! # How the dice of a term lie on the table

An explosion leaves the dice in strands: a die that was thrown at first, and behind it the extra
dice of its chain, each set off by the one in front of it. Only an explosion changes the role that a
die has in one; whatever else is done to the dice, before or after, leaves the strands as they are.

- `Die.role`: the role of a die in an explosion.
- `Links`, `Laid`: the roles along one strand, and along all dice of a term.
- `Modifier.DoAll.laid`: modifiers with at most one explosion leave the dice in strands.
- `Recorded`, `rolled_term_is_recorded`: what is known of the dice of a term, and of its subtotal.
-/

namespace Dicebox

open Rolling

variable {sides term : Int} {ws : List Int} {es : List Event}

/-! ## Strands -/

/-- The role of a die in an explosion. -/
structure Role where
  extra : Bool
  exploded : Bool
  capped : Bool

/-- The role of a die that has no part in an explosion. -/
def Role.plain : Role := ⟨false, false, false⟩

def Die.role (d : Die) : Role := ⟨d.fromExplosion, d.exploded, d.explosionCapped⟩

/-- The roles along a strand behind which so many dice may still follow, where `extra` tells whether
its first die was set off by another one. -/
inductive Links : Nat → Bool → List Role → Prop
  | rests {left : Nat} {extra : Bool} : Links left extra [⟨extra, false, false⟩]
  | capped {extra : Bool} : Links 0 extra [⟨extra, true, true⟩]
  | goesOn {left : Nat} {extra : Bool} {roles : List Role} :
      Links left true roles → Links (left + 1) extra (⟨extra, true, false⟩ :: roles)

namespace Links

variable {left : Nat} {extra : Bool} {roles : List Role}

theorem exists_cons (h : Links left extra roles) :
    ∃ first run, roles = first :: run ∧ first.extra = extra ∧ ∀ r ∈ run, r.extra = true := by
  induction h with
  | rests | capped => exact ⟨_, [], rfl, rfl, by simp⟩
  | goesOn _ ih =>
    obtain ⟨first, run, rfl, hfirst, hrun⟩ := ih
    exact ⟨_, first :: run, rfl, rfl, List.forall_mem_cons.mpr ⟨hfirst, hrun⟩⟩

/-- A strand is no longer than its cap allows, and it is that long if the cap has cut it off. -/
theorem length_run {first : Role} {run : List Role} (h : Links left extra (first :: run)) :
    run.length ≤ left ∧ ((run.getLastD first).capped = true → run.length = left) := by
  generalize hroles : first :: run = roles at h
  induction h generalizing first run with
  | rests =>
    obtain ⟨rfl, rfl⟩ := List.cons.inj hroles
    exact ⟨Nat.zero_le _, by simp⟩
  | capped =>
    obtain ⟨rfl, rfl⟩ := List.cons.inj hroles
    exact ⟨Nat.zero_le _, fun _ => rfl⟩
  | goesOn h ih =>
    -- the last die of the strand is the last one of what follows its first die
    obtain ⟨rfl, rfl⟩ := List.cons.inj hroles
    obtain ⟨second, run, rfl, -, -⟩ := h.exists_cons
    obtain ⟨hle, hcapped⟩ := ih rfl
    refine ⟨Nat.succ_le_succ hle, fun hlast => ?_⟩
    rw [List.getLastD_cons] at hlast
    rw [List.length_cons, hcapped hlast]

theorem countP_extra (h : Links left extra roles) :
    roles.countP (fun r => !r.extra) = if extra then 0 else 1 := by
  obtain ⟨first, run, rfl, rfl, hrun⟩ := h.exists_cons
  have hnone : run.countP (fun r => !r.extra) = 0 := List.countP_eq_zero.mpr (by simpa using hrun)
  cases hfirst : first.extra <;> simp [hfirst, hnone]

theorem exploded_of_capped (h : Links left extra roles) :
    ∀ r ∈ roles, r.capped = true → r.exploded = true := by
  induction h with
  | rests | capped => simp
  | goesOn _ ih => exact List.forall_mem_cons.mpr ⟨fun _ => rfl, ih⟩

/-- The last die of a strand sets off no other one. -/
theorem last_rests (h : Links left extra roles) :
    ∀ r ∈ roles.getLast?, ¬ (r.exploded = true ∧ r.capped = false) := by
  induction h with
  | rests | capped => simp
  | goesOn h ih =>
    obtain ⟨first, run, rfl, -, -⟩ := h.exists_cons
    simpa using ih

/-- A die is set off by the one in front of it. -/
theorem isChain (h : Links left extra roles) :
    roles.IsChain fun a b => b.extra = true ↔ a.exploded = true ∧ a.capped = false := by
  induction h with
  | rests | capped => exact List.isChain_singleton _
  | goesOn h ih =>
    obtain ⟨first, run, rfl, hfirst, -⟩ := h.exists_cons
    exact List.isChain_cons_cons.mpr ⟨by simp [hfirst], ih⟩

end Links

/-- The roles of dice that lie in so many strands. -/
inductive Laid (most : Nat) : Nat → List Role → Prop
  | nil : Laid most 0 []
  | cons {n : Nat} {strand roles : List Role} :
      Links most false strand → Laid most n roles → Laid most (n + 1) (strand ++ roles)

namespace Laid

variable {most n : Nat} {roles : List Role}

theorem head (h : Laid most n roles) : ∀ r ∈ roles.head?, r.extra = false := by
  cases h with
  | nil => simp
  | cons hstrand _ =>
    obtain ⟨first, run, rfl, hfirst, -⟩ := hstrand.exists_cons
    simpa using hfirst

theorem countP_extra (h : Laid most n roles) : roles.countP (fun r => !r.extra) = n := by
  induction h with
  | nil => rfl
  | cons hstrand _ ih => rw [List.countP_append, hstrand.countP_extra, ih, Nat.add_comm]; rfl

theorem exploded_of_capped (h : Laid most n roles) :
    ∀ r ∈ roles, r.capped = true → r.exploded = true := by
  induction h with
  | nil => simp
  | cons hstrand _ ih => exact List.forall_mem_append.mpr ⟨hstrand.exploded_of_capped, ih⟩

theorem isChain (h : Laid most n roles) :
    roles.IsChain fun a b => b.extra = true ↔ a.exploded = true ∧ a.capped = false := by
  induction h with
  | nil => exact List.isChain_nil
  | cons hstrand hrest ih =>
    refine List.isChain_append.mpr ⟨hstrand.isChain, ih, fun a ha b hb => ?_⟩
    simp [hrest.head b hb, hstrand.last_rests a ha]

theorem splitBy_run {first : Role} {run : List Role} (hrun : ∀ r ∈ run, r.extra = true) :
    (first :: run).splitBy (fun _ r => r.extra) = [first :: run] := by
  have hpairs : run.Pairwise fun _ r => r.extra = true :=
    List.pairwise_of_forall_mem_list fun _ _ r hr => hrun r hr
  exact List.splitBy_of_isChain (List.cons_ne_nil _ _)
    (List.pairwise_cons.mpr ⟨hrun, hpairs⟩).isChain

/-- Cut in front of every die that no other one set off, the dice fall into their strands. -/
theorem links_of_mem_splitBy (h : Laid most n roles) :
    ∀ strand ∈ roles.splitBy fun _ r => r.extra, Links most false strand := by
  induction h with
  | nil => simp
  | cons hstrand hrest ih =>
    obtain ⟨first, run, rfl, -, hrun⟩ := hstrand.exists_cons
    rw [List.splitBy_append fun _ _ b hb => hrest.head b hb, splitBy_run hrun]
    exact List.forall_mem_append.mpr ⟨List.forall_mem_singleton.mpr hstrand, ih⟩

/-- What `links_of_mem_splitBy` says of a die and all the extra dice behind it. -/
theorem links_run (h : Laid most n roles) {before run after : List Role} {first : Role}
    (hroles : roles = before ++ (first :: run ++ after)) (hfirst : first.extra = false)
    (hrun : ∀ r ∈ run, r.extra = true) (hafter : ∀ r ∈ after.head?, r.extra = false) :
    Links most false (first :: run) := by
  refine h.links_of_mem_splitBy _ ?_
  have hbefore : ∀ r ∈ (first :: run ++ after).head?, r.extra = false := by simpa using hfirst
  rw [hroles, List.splitBy_append fun _ _ b hb => hbefore b hb,
    List.splitBy_append fun _ _ b hb => hafter b hb, splitBy_run hrun]
  exact List.mem_append_right _ (List.mem_append_left _ List.mem_cons_self)

end Laid

/-! ## What is done to the strands -/

namespace Explosion

variable {threshold cap : Int} {d : Die}

theorem Chain.links {left : Nat} {extra : Bool} {new : List Die}
    (h : Chain threshold cap left d ws es new) (hd : d.role = ⟨extra, false, false⟩) :
    Links left extra (new.map Die.role) := by
  induction h generalizing extra with
  | rests =>
    rw [List.map_singleton, hd]
    exact .rests
  | capped =>
    obtain ⟨rfl, -, -⟩ := Role.mk.inj hd
    exact .capped
  | goesOn _ _ _ ih =>
    obtain ⟨rfl, -, hcapped⟩ := Role.mk.inj hd
    rw [List.map_cons, Die.role, hcapped]
    exact .goesOn (ih rfl)

theorem Explodes.links {new : List Die} (h : Explodes threshold cap d ws es new)
    (hd : d.role = .plain) : Links cap.toNat false (new.map Die.role) := by
  cases h with
  | stays =>
    rw [List.map_singleton, hd]
    exact .rests
  | chain _ _ hchain => exact hchain.links hd

theorem laid {n : Nat} {dice dice' : List Die}
    (h : EachDie (Explodes threshold cap) dice ws es dice')
    (hdice : dice.map Die.role = List.replicate n .plain) :
    Laid cap.toNat n (dice'.map Die.role) := by
  induction h generalizing n with
  | nil =>
    obtain rfl : 0 = n := by simpa using congrArg List.length hdice
    exact .nil
  | cons hd _ ih =>
    cases n with
    | zero => cases hdice
    | succ n =>
      obtain ⟨hplain, hrest⟩ := List.cons.inj hdice
      rw [List.map_append]
      exact .cons (hd.links hplain) (ih hrest)

end Explosion

theorem Die.Rerolls.role_eq {values : List Int} {once : Bool} {cap : Int} {d d' : Die}
    (h : d.Rerolls values once cap ws es d') : d'.role = d.role := by
  cases h with
  | stays | thrown => rfl

theorem rerolls_map_role {values : List Int} {once : Bool} {cap : Int} {dice dice' : List Die}
    (h : EachDie (fun d ws es new => ∃ d', new = [d'] ∧ d.Rerolls values once cap ws es d')
      dice ws es dice') : dice'.map Die.role = dice.map Die.role := by
  induction h with
  | nil => rfl
  | cons hd _ ih =>
    obtain ⟨d', rfl, hthrown⟩ := hd
    rw [List.singleton_append, List.map_cons, List.map_cons, hthrown.role_eq, ih]

namespace Modifier

variable {m : Modifier} {ms : List Modifier} {dice dice' : List Die}

/-- A modifier lets dice explode. -/
abbrev Explosive (m : Modifier) : Prop := Family.of? m = some .explode

/-- The caps of a modifier leave room for what it does: a reroll may throw a die at least once, and
the explosion cap is `most`. -/
def Bounded (most : Nat) : Modifier → Prop
  | explode _ cap => cap = most
  | reroll _ once cap => once = true ∨ 1 ≤ cap
  | select _ _ | success _ | failure _ => True

/-- Only an explosion changes the roles of dice. -/
theorem Does.map_role (h : m.Does dice ws es dice') (hm : ¬ m.Explosive) :
    dice'.map Die.role = dice.map Die.role := by
  cases m with
  | explode => exact absurd rfl hm
  | reroll => exact rerolls_map_role h
  | select rule count =>
    obtain ⟨-, -, rfl⟩ := h
    exact map_selectAll Die.role (fun _ => rfl) rule count dice
  | success | failure => rw [h.2.2]

theorem DoAll.map_role (h : DoAll ms dice ws es dice') (hms : ∀ m ∈ ms, ¬ m.Explosive) :
    dice'.map Die.role = dice.map Die.role :=
  h.invariant (I := fun dice'' => dice''.map Die.role = dice.map Die.role)
    (fun hm hdoes => (hdoes.map_role (hms _ hm)).trans) rfl

theorem laid_replicate (most n : Nat) : Laid most n (List.replicate n .plain) := by
  induction n with
  | zero => exact .nil
  | succ n ih => exact .cons .rests ih

/-- **Modifiers with at most one explosion leave the dice in strands**, one for each die that was
thrown at first. -/
theorem DoAll.laid {most n : Nat} (h : DoAll ms dice ws es dice')
    (hdice : dice.map Die.role = List.replicate n .plain) (hone : ms.countP (·.Explosive) ≤ 1)
    (hbounded : ∀ m ∈ ms, m.Bounded most) : Laid most n (dice'.map Die.role) := by
  induction h with
  | nil =>
    rw [hdice]
    exact laid_replicate most n
  | @cons m ms dice dice₁ dice' _ _ _ _ hm hrest ih =>
    obtain ⟨hfirst, hbounded⟩ := List.forall_mem_cons.mp hbounded
    by_cases hexplosive : m.Explosive
    · -- the dice explode here, and the modifiers behind leave their roles as they are
      rw [List.countP_cons_of_pos (by simpa using hexplosive)] at hone
      have hnone : ∀ m ∈ ms, ¬ m.Explosive := by
        simpa using List.countP_eq_zero.mp (Nat.le_zero.mp (Nat.le_of_succ_le_succ hone))
      rw [hrest.map_role hnone]
      cases m with
      | explode threshold cap =>
        obtain rfl : cap = most := hfirst
        exact Explosion.laid hm hdice
      | select rule => cases rule <;> cases hexplosive
      | reroll | success | failure => cases hexplosive
    · rw [List.countP_cons_of_neg (by simpa using hexplosive)] at hone
      exact ih ((hm.map_role hexplosive).trans hdice) hone hbounded

end Modifier

/-! ## What a die remembers -/

/-- A die remembers earlier faces if it was thrown again, and only then. -/
def Die.Remembers (d : Die) : Prop := d.rerolled = true ↔ d.rerolledFrom ≠ []

theorem Die.Rerolls.remembers {values : List Int} {once : Bool} {cap : Int} {d d' : Die}
    (h : d.Rerolls values once cap ws es d') (hcap : once = true ∨ 1 ≤ cap) (hd : d.Remembers) :
    d'.Remembers := by
  cases h with
  | stays => exact hd
  | thrown _ hv hred =>
    obtain ⟨w, ws, rfl⟩ := List.exists_cons_of_ne_nil (hred.ne_nil hv (rerollLimit_pos hcap))
    simp [Remembers, thrownAgain]

theorem Explosion.Chain.remembers {threshold cap : Int} {left : Nat} {d : Die} {new : List Die}
    (h : Chain threshold cap left d ws es new) (hd : d.Remembers) : ∀ d' ∈ new, d'.Remembers := by
  induction h with
  | rests | capped => exact List.forall_mem_singleton.mpr hd
  | goesOn _ _ _ ih => exact List.forall_mem_cons.mpr ⟨hd, ih (by simp [Die.Remembers, extra])⟩

theorem Modifier.Does.remembers {most : Nat} {m : Modifier} {dice dice' : List Die}
    (h : m.Does dice ws es dice') (hm : m.Bounded most) (hdice : ∀ d ∈ dice, d.Remembers) :
    ∀ d ∈ dice', d.Remembers := by
  refine h.forall_mem ?_ (fun hchain => hchain.remembers) (fun _ => Iff.rfl) hdice
  rintro values once cap d ws es d' rfl hthrown
  exact hthrown.remembers hm

/-! ## Subtotals -/

theorem sumOf_bounds {faces : List Int} (h : ∀ v ∈ faces, OnDie sides v) :
    (faces.length : Int) ≤ sumOf faces ∧ sumOf faces ≤ faces.length * sides := by
  induction faces with
  | nil => simp
  | cons v faces ih =>
    obtain ⟨⟨hlow, hhigh⟩, hrest⟩ := List.forall_mem_cons.mp h
    obtain ⟨ihlow, ihhigh⟩ := ih hrest
    rw [sumOf_cons, List.length_cons, Nat.cast_succ, Int.add_mul, Int.one_mul]
    omega

theorem score_bounds {dice : List Die} (ms : List Modifier)
    (h : ∀ v ∈ keptFaces dice, OnDie sides v) :
    ((score dice ms).2 = .sum → ((keptFaces dice).length : Int) ≤ (score dice ms).1 ∧
      (score dice ms).1 ≤ (keptFaces dice).length * sides) ∧
    ((score dice ms).2 = .successCount → -((keptFaces dice).length : Int) ≤ (score dice ms).1 ∧
      (score dice ms).1 ≤ (keptFaces dice).length) := by
  have hle : ∀ p : Int → Bool, (keptFaces dice).countP p ≤ (keptFaces dice).length :=
    fun p => List.countP_le_length
  rw [score]
  cases successThreshold? ms with
  | none =>
    cases failureThreshold? ms with
    | none => exact ⟨fun _ => sumOf_bounds h, nofun⟩
    | some f =>
      have hf := hle (· ≤ f)
      refine ⟨nofun, fun _ => ?_⟩
      dsimp only [failures]
      omega
  | some s =>
    have hs := hle (s ≤ ·)
    cases failureThreshold? ms with
    | none =>
      refine ⟨nofun, fun _ => ?_⟩
      dsimp only [successes]
      omega
    | some f =>
      have hf := hle (· ≤ f)
      refine ⟨nofun, fun _ => ?_⟩
      dsimp only [successes, failures]
      omega

/-! ## Terms -/

/-- What is known of the dice of a term that was rolled, where no die may set off more than `most`
extra dice. -/
structure Recorded (most : Nat) (t : Dice) (term : Int) (r : DiceResult) : Prop where
  sides_eq : ∀ d ∈ r.dice, d.sides = t.sides
  term_eq : ∀ d ∈ r.dice, d.term = term
  face : ∀ d ∈ r.dice, OnDie t.sides d.value
  earlier : ∀ d ∈ r.dice, ∀ v ∈ d.rerolledFrom, OnDie t.sides v
  /-- As many dice as the term asks for were set off by no other one. -/
  thrown : r.dice.countP (fun d => !d.fromExplosion) = t.count.toNat
  rerolled : ∀ d ∈ r.dice, d.rerolled = true ↔ d.rerolledFrom ≠ []
  capped : ∀ d ∈ r.dice, d.explosionCapped = true → d.exploded = true
  first : ∀ d ∈ r.dice.head?, d.fromExplosion = false
  /-- A die was set off by another one exactly if the die in front of it set off one. -/
  behind : r.dice.IsChain fun a b =>
    b.fromExplosion = true ↔ a.exploded = true ∧ a.explosionCapped = false
  /-- All the extra dice behind a die are as many as may follow, if the last die is capped. -/
  runs : ∀ before start run after, r.dice = before ++ (start :: run ++ after) →
    start.fromExplosion = false → (∀ d ∈ run, d.fromExplosion = true) →
      (∀ d ∈ after.head?, d.fromExplosion = false) →
        run.length ≤ most ∧ ((run.getLastD start).explosionCapped = true → run.length = most)
  sum : r.scoring = .sum →
    (r.kept.length : Int) ≤ r.subtotal ∧ r.subtotal ≤ r.kept.length * t.sides
  counted : r.scoring = .successCount →
    -(r.kept.length : Int) ≤ r.subtotal ∧ r.subtotal ≤ r.kept.length

theorem Dice.roll_laid {t : Dice} {most : Nat} {vs : List Int} {r : DiceResult}
    (hone : t.modifiers.countP (·.Explosive) ≤ 1) (hbounded : ∀ m ∈ t.modifiers, m.Bounded most)
    (h : (t.roll term).Yields vs es r) :
    Laid most t.count.toNat (r.dice.map Die.role) ∧ ∀ d ∈ r.dice, d.Remembers := by
  obtain ⟨faces, ws, dice, rfl, hlen, -, hall, rfl⟩ := roll_yields h
  refine ⟨hall.laid ?_ hone hbounded,
    hall.invariant (fun hm hdoes => hdoes.remembers (hbounded _ hm)) ?_⟩
  · rw [List.map_map, ← hlen, ← List.map_const']
    rfl
  · intro d hd
    obtain ⟨face, -, rfl⟩ := List.mem_map.mp hd
    simp [Die.Remembers, Die.fresh]

/-- **The dice of a rolled term are recorded as they came about.** -/
theorem rolled_term_is_recorded {σ : Type} [RandomSource σ] {t : Dice} {most : Nat}
    (hone : t.modifiers.countP (fun m => Family.of? m = some .explode) ≤ 1)
    (hbounded : ∀ m ∈ t.modifiers, m.Bounded most) {source : σ} {r : DiceResult}
    (h : ((t.roll term).run source).outcome = .ok r) : Recorded most t term r := by
  obtain ⟨vs, -, hy⟩ := yields_drawn h
  have hsound := Dice.roll_sound hy
  obtain ⟨hlaid, hremembers⟩ := Dice.roll_laid hone hbounded hy
  have hkept : ∀ v ∈ keptFaces r.dice, OnDie t.sides v := by
    intro v hv
    obtain ⟨d, hd, rfl⟩ := List.mem_map.mp hv
    exact (hsound d (List.mem_of_mem_filter hd)).proper.face
  have hlen : r.kept.length = (keptFaces r.dice).length := (List.length_map _).symm
  have hscore := Dice.roll_score hy
  obtain ⟨hsum, hcounted⟩ := score_bounds t.modifiers hkept
  rw [hscore, ← hlen] at hsum hcounted
  exact {
    sides_eq := fun d hd => (hsound d hd).sides_eq
    term_eq := fun d hd => (hsound d hd).term_eq
    face := fun d hd => (hsound d hd).proper.face
    earlier := fun d hd v hv => (hsound d hd).faces v (List.mem_append_left _ hv)
    thrown := by
      have hcount := hlaid.countP_extra
      rwa [List.countP_map] at hcount
    rerolled := hremembers
    capped := List.forall_mem_map.mp hlaid.exploded_of_capped
    first := by simpa [Die.role] using hlaid.head
    behind := (List.isChain_map Die.role).mp hlaid.isChain
    runs := by
      intro before start run after hdice hstart hrun hafter
      rw [hdice, List.map_append, List.map_append, List.map_cons] at hlaid
      have hlinks := hlaid.links_run rfl hstart (by simpa [Die.role] using hrun)
        (by simpa [Die.role] using hafter)
      have hlast : ((run.map Die.role).getLastD start.role) = (run.getLastD start).role := by
        rw [List.getLastD_eq_getLast?, List.getLastD_eq_getLast?, List.getLast?_map,
          Option.getD_map]
      have hlength := hlinks.length_run
      rwa [hlast, List.length_map] at hlength
    sum := hsum
    counted := hcounted }

/-- Two dice, of which a 6 sets off two more at most before a 1 is thrown again. -/
def cappedPair : Dice := ⟨2, 6, [.explode 6 2, .reroll [1] false 100]⟩

theorem run_cappedPair : ∃ r, ((cappedPair.roll 0).run
    (Replay.ofList [.int 6, .int 1, .int 6, .int 6, .int 3])).outcome = .ok r ∧
      r.dice.map Die.value = [6, 6, 6, 3] := ⟨_, rfl, rfl⟩

/-- Behind the first 6 lie two more, which is as many as may follow. -/
theorem capped_pair_is_recorded :
    ∃ r, ((cappedPair.roll 0).run
        (Replay.ofList [.int 6, .int 1, .int 6, .int 6, .int 3])).outcome = .ok r ∧
      r.dice.map Die.value = [6, 6, 6, 3] ∧ Recorded 2 cappedPair 0 r := by
  obtain ⟨r, hrun, hvalues⟩ := run_cappedPair
  have hbounded : ∀ m ∈ cappedPair.modifiers, m.Bounded 2 := by
    intro m hm
    rcases List.mem_cons.mp hm with rfl | hm
    · exact rfl
    · obtain rfl := List.mem_singleton.mp hm
      exact .inr (by decide)
  exact ⟨r, hrun, hvalues, rolled_term_is_recorded (by decide) hbounded hrun⟩

end Dicebox
