import Dicebox.Proofs.ChiSquare
import Dicebox.Proofs.Sessions
import Dicebox.Source.Kinds

/-! # The tally counts every draw once

A source that is tested hands out one integer for each draw, and each of them raises the count of its
own face by one. So the counts add up to the number of draws, and their order does not matter. The
first integer that is no face of the die ends the test, and nothing is drawn behind it; a test that
cannot be made draws nothing at all.

- `HandsOut`: what a source hands out, draw after draw.
- `drawFaces_of_handsOut`: the faces that are drawn.
- `tally_eq`, `counts_faceCounts`: how often each of them was drawn.
- `tally_counts_every_draw`: the test of one die size.
-/

namespace Dicebox

/-- The integer that a value is; a truth value is the integer 0 or 1. -/
def Data.integer? : Data → Option Int
  | .int n => some n
  | .bool b => some (if b then 1 else 0)
  | _ => none

/-- Asked for one draw after another on a die, a source hands out integers. -/
inductive HandsOut {σ : Type} [RandomSource σ] (sides : Int) : σ → List Int → σ → Prop
  | nothing (s : σ) : HandsOut sides s [] s
  | next {s s' s'' : σ} {v : Data} {n : Int} {draws : List Int}
      (hnext : RandomSource.next s 1 sides = (.ok v, s')) (hv : v.integer? = some n)
      (hmore : HandsOut sides s' draws s'') : HandsOut sides s (n :: draws) s''

def FaceOf (sides n : Int) : Prop := 1 ≤ n ∧ n ≤ sides

instance (sides n : Int) : Decidable (FaceOf sides n) := inferInstanceAs (Decidable (_ ∧ _))

/-! ## The draws -/

section Draws

variable {σ : Type} [RandomSource σ] {sides : Int} {s s' : σ} {v : Data} {n : Int} {draws : List Int}

theorem tallied_of_face (hv : v.integer? = some n) (h : FaceOf sides n) : tallied sides v = .ok n := by
  cases v <;> cases hv <;> exact if_pos h

theorem tallied_of_not_face (hv : v.integer? = some n) (h : ¬ FaceOf sides n) :
    tallied sides v = .error (.outOfRange v sides) := by
  cases v <;> cases hv <;> exact if_neg h

theorem drawFaces_next (hnext : RandomSource.next s 1 sides = (.ok v, s')) (hv : v.integer? = some n)
    (h : FaceOf sides n) (more : Nat) (drawn : List Int) :
    drawFaces sides (more + 1) s drawn = drawFaces sides more s' (n :: drawn) := by
  rw [drawFaces, hnext]
  simp only [tallied_of_face hv h]

/-- What is no face ends the draws. -/
theorem drawFaces_stop (hnext : RandomSource.next s 1 sides = (.ok v, s')) (hv : v.integer? = some n)
    (h : ¬ FaceOf sides n) (more : Nat) (drawn : List Int) :
    drawFaces sides (more + 1) s drawn = (.error (.outOfRange v sides), s') := by
  rw [drawFaces, hnext]
  simp only [tallied_of_not_face hv h]

/-- **The faces that a source hands out are drawn**, the newest in front. -/
theorem drawFaces_of_handsOut (h : HandsOut sides s draws s') (hfaces : ∀ n ∈ draws, FaceOf sides n)
    (more : Nat) (drawn : List Int) :
    drawFaces sides (draws.length + more) s drawn =
      drawFaces sides more s' (draws.reverse ++ drawn) := by
  induction h generalizing drawn with
  | nothing s => rw [List.length_nil, Nat.zero_add, List.reverse_nil, List.nil_append]
  | @next s s' s'' v n draws hnext hv _ ih =>
    obtain ⟨hface, hfaces⟩ := List.forall_mem_cons.mp hfaces
    rw [List.length_cons, Nat.add_right_comm, drawFaces_next hnext hv hface, ih hfaces,
      List.reverse_cons, List.append_assoc, List.singleton_append]

end Draws

/-! ## The counts -/

/-- One more draw raises one count by one. -/
theorem foldl_modify (drawn : List Int) (h : ∀ n ∈ drawn, 1 ≤ n) (counts : Array Nat) (i : Nat) :
    (drawn.foldl (fun counts face => counts.modify (face - 1).toNat (· + 1)) counts)[i]? =
      counts[i]?.map (· + drawn.count (i + 1 : Int)) := by
  induction drawn generalizing counts with
  | nil => simp
  | cons n drawn ih =>
    obtain ⟨hn, h⟩ := List.forall_mem_cons.mp h
    rw [List.foldl_cons, ih h, Array.getElem?_modify, List.count_cons]
    have hplace : (n - 1).toNat = i ↔ n = i + 1 := by omega
    by_cases heq : n = i + 1
    · rw [if_pos (hplace.mpr heq), if_pos (beq_iff_eq.mpr heq), Option.map_map]
      congr 1
      funext c
      exact (Nat.add_assoc _ _ _).trans (congrArg _ (Nat.add_comm _ _))
    · rw [if_neg (mt hplace.mp heq), if_neg (mt beq_iff_eq.mp heq), Nat.add_zero]

/-- How often each face of a die is among the draws. -/
def faceCounts (sides : Nat) (drawn : List Int) : List Nat :=
  (List.range sides).map fun i : Nat => drawn.count (i + 1 : Int)

theorem length_faceCounts (sides : Nat) (drawn : List Int) : (faceCounts sides drawn).length = sides := by
  rw [faceCounts, List.length_map, List.length_range]

theorem faceCounts_of_perm (sides : Nat) {drawn drawn' : List Int} (h : drawn.Perm drawn') :
    faceCounts sides drawn = faceCounts sides drawn' :=
  List.map_congr_left fun i _ => h.count_eq (i + 1 : Int)

theorem sum_faceCounts {sides : Nat} {drawn : List Int} (h : ∀ n ∈ drawn, FaceOf sides n) :
    (faceCounts sides drawn).sum = drawn.length := by
  induction drawn with
  | nil => simp [faceCounts]
  | cons n drawn ih =>
    obtain ⟨⟨hlow, hhigh⟩, hmore⟩ := List.forall_mem_cons.mp h
    obtain ⟨k, rfl⟩ := Int.le.dest hlow
    have hplace : ∀ i : Nat, (1 + k : Int) = i + 1 ↔ k = i := fun i => by omega
    have hone : ∑ i ∈ Finset.range sides, (if k = i then 1 else 0) = 1 := by
      rw [Finset.sum_ite_eq, if_pos (Finset.mem_range.mpr (by omega))]
    rw [List.length_cons, ← ih hmore, ← hone]
    show ∑ i ∈ Finset.range sides, List.count (i + 1 : Int) ((1 + k : Int) :: drawn) =
      ∑ i ∈ Finset.range sides, List.count (i + 1 : Int) drawn + _
    simp only [List.count_cons, beq_iff_eq, hplace, Finset.sum_add_distrib]

/-- **Each face has been counted as often as it was drawn.** -/
theorem tally_eq (sides : Nat) {drawn : List Int} (h : ∀ n ∈ drawn, 1 ≤ n) :
    tally sides drawn = (faceCounts sides drawn).toArray := by
  refine Array.ext_getElem? fun i => ?_
  rw [tally, foldl_modify drawn h, Array.getElem?_replicate, List.getElem?_toArray, faceCounts,
    List.getElem?_map]
  by_cases hi : i < sides
  · rw [if_pos hi, List.getElem?_range hi, Option.map_some, Option.map_some, Nat.zero_add]
  · rw [if_neg hi, List.getElem?_eq_none (by rw [List.length_range]; omega)]
    rfl

/-- Counts of draws: one for each side of a die, which tells how many of the draws show it. -/
structure Counts (sides : Int) (draws : List Int) (observed : List Nat) : Prop where
  length : (observed.length : Int) = sides
  sum : observed.sum = draws.length
  count : ∀ i : Nat, i < sides → observed[i]? = some (draws.count (i + 1 : Int))

theorem counts_faceCounts {sides : Nat} {draws : List Int} (h : ∀ n ∈ draws, FaceOf sides n) :
    Counts sides draws (faceCounts sides draws) where
  length := congrArg Nat.cast (length_faceCounts sides draws)
  sum := sum_faceCounts h
  count i hi := by
    rw [faceCounts, List.getElem?_map, List.getElem?_range (by omega), Option.map_some]

theorem Counts.eq_faceCounts {sides : Nat} {draws : List Int} {observed : List Nat}
    (h : Counts sides draws observed) : observed = faceCounts sides draws := by
  have hlength : observed.length = sides := by exact_mod_cast h.length
  refine List.ext_getElem? fun i => ?_
  by_cases hi : i < sides
  · rw [h.count i (by exact_mod_cast hi), faceCounts, List.getElem?_map, List.getElem?_range hi,
      Option.map_some]
  · rw [List.getElem?_eq_none (by omega), List.getElem?_eq_none (by rw [length_faceCounts]; omega)]

/-! ## The test -/

section Test

variable {σ : Type} [RandomSource σ] {lib : Elementary} {room sides samples : Int} {level : Number}

/-- A test that can be made: the die has sides enough and not too many, something is drawn, and the
level lies between 0 and 1. -/
structure Testable (sides samples : Int) (level : Number) : Prop where
  enoughSides : 2 ≤ sides
  fewSides : sides ≤ 2 ^ 53
  someSamples : 1 ≤ samples
  fewSamples : samples ≤ 2 ^ 53
  isLevel : level.IsLevel

theorem Testable.exists_level (h : Testable sides samples level) :
    ∃ x, significanceLevel? level = some x := by
  obtain ⟨x, hx, hlevel⟩ := h.isLevel
  exact ⟨x, hx ▸ if_pos hlevel⟩

/-- A test that can be made draws its faces, if there is room for their tally, and reports on them. -/
theorem Testable.fairnessWithin_eq (h : Testable sides samples level) {x : Float}
    (hx : significanceLevel? level = some x) (s : σ) :
    fairnessWithin lib room s sides samples level =
      if room < sides then (.error .noRoom, s)
      else
        match drawFaces sides samples.toNat s [] with
        | (.ok drawn, s) =>
          ((report lib sides samples x (tally sides.toNat drawn)).mapError .arithmetic, s)
        | (.error e, s) => (.error e, s) := by
  obtain ⟨hsides, hsides', hsamples, -, -⟩ := h
  have htellable : ¬ tellableSides < sides := by
    have : tellableSides = 2 ^ 63 - 1 := rfl
    omega
  unfold fairnessWithin
  rw [if_neg (not_lt.mpr hsides), if_neg (not_lt.mpr hsamples), hx]
  exact if_neg htellable

/-- A test is refused before anything is drawn. -/
inductive Refuses (sides samples : Int) (level : Number) : FairnessError → Prop
  | sides (h : sides < 2) : Refuses sides samples level (.tooFewSides sides)
  | samples (h : samples < 1) : Refuses sides samples level (.noSamples samples)
  | level (h : ¬ level.IsLevel) : Refuses sides samples level (.badSignificance level)

theorem fairnessWithin_of_refuses (h : sides < 2 ∨ samples < 1 ∨ ¬ level.IsLevel) (s : σ) :
    ∃ err, fairnessWithin lib room s sides samples level = (.error err, s) ∧
      Refuses sides samples level err := by
  unfold fairnessWithin
  by_cases hsides : sides < 2
  · exact ⟨_, if_pos hsides, .sides hsides⟩
  · rw [if_neg hsides]
    by_cases hsamples : samples < 1
    · exact ⟨_, if_pos hsamples, .samples hsamples⟩
    · have hlevel := (h.resolve_left hsides).resolve_left hsamples
      rw [if_neg hsamples, significanceLevel?_eq_none hlevel]
      exact ⟨_, rfl, .level hlevel⟩

/-- Draws that are faces have a report, which every source of these faces comes to, in whatever order
it hands them out. -/
theorem fairnessWithin_of_faces (hlib : lib.Accurate) (h : Testable sides samples level)
    (hroom : sides ≤ room) {draws : List Int} (hlength : draws.length = samples)
    (hfaces : ∀ n ∈ draws, FaceOf sides n) :
    ∃ r : Report, Counts sides draws r.observed ∧
      ∀ {τ : Type} [RandomSource τ] {t t' : τ} {draws' : List Int}, HandsOut sides t draws' t' →
        draws.Perm draws' → fairnessWithin lib room t sides samples level = (.ok r, t') := by
  obtain ⟨x, hx⟩ := h.exists_level
  obtain ⟨n, rfl⟩ := Int.eq_ofNat_of_zero_le (by linarith [h.enoughSides] : 0 ≤ sides)
  subst hlength
  have hcount : ∀ c ∈ (faceCounts n draws).toArray, c ≤ draws.length := by
    intro c hc
    obtain ⟨i, -, rfl⟩ := List.mem_map.mp (List.mem_toArray.mp hc)
    exact List.count_le_length
  obtain ⟨r, hr, hobserved⟩ := report_eq_ok hlib (by exact_mod_cast h.enoughSides)
    (by exact_mod_cast h.fewSides) (by exact_mod_cast h.someSamples) (by exact_mod_cast h.fewSamples) x
    (by rw [List.size_toArray, length_faceCounts]) hcount
  refine ⟨r, hobserved ▸ counts_faceCounts hfaces, fun {τ _ t t' draws'} hhanded hperm => ?_⟩
  have hfaces' : ∀ n' ∈ draws', FaceOf n n' := fun n' hn' => hfaces n' (hperm.mem_iff.mpr hn')
  have hdrawn : drawFaces n draws.length t [] = (.ok draws'.reverse, t') := by
    have hrun := drawFaces_of_handsOut hhanded hfaces' 0 []
    rwa [Nat.add_zero, List.append_nil, ← hperm.length_eq] at hrun
  have htally : tally n draws'.reverse = (faceCounts n draws).toArray := by
    rw [tally_eq n fun n' hn' => (hfaces' n' (List.mem_reverse.mp hn')).1,
      faceCounts_of_perm n (draws'.reverse_perm.trans hperm.symm)]
  rw [h.fairnessWithin_eq hx, if_neg (not_lt.mpr hroom), Int.toNat_natCast, hdrawn]
  show ((report lib n draws.length x (tally n draws'.reverse)).mapError FairnessError.arithmetic, t') = _
  rw [htally, hr]
  rfl

/-- The first draw that is no face ends the test. -/
theorem fairnessWithin_of_not_face (h : Testable sides samples level) (hroom : sides ≤ room) {s s' s'' : σ}
    {draws : List Int} (hhanded : HandsOut sides s draws s') (hfaces : ∀ n ∈ draws, FaceOf sides n)
    (hfew : draws.length < samples) {v : Data} {n : Int}
    (hnext : RandomSource.next s' 1 sides = (.ok v, s'')) (hv : v.integer? = some n)
    (hout : ¬ FaceOf sides n) :
    fairnessWithin lib room s sides samples level = (.error (.outOfRange v sides), s'') := by
  obtain ⟨x, hx⟩ := h.exists_level
  obtain ⟨more, hmore⟩ := Nat.exists_eq_add_of_lt (by omega : draws.length < samples.toNat)
  rw [h.fairnessWithin_eq hx, if_neg (not_lt.mpr hroom), hmore, Nat.add_assoc,
    drawFaces_of_handsOut hhanded hfaces, drawFaces_stop hnext hv hout]

/-- **The tally counts every draw once.** A test that can be made, of a source that hands out integers,
draws faces as long as it is handed faces: when these are enough, it has consumed them and no more, and
reports how often each face is among them, whatever their order. The first integer that is no face is
the last one that is drawn, and what the test says is wrong. Where there is no room for a tally, and
where the test cannot be made, nothing is drawn. -/
theorem tally_counts_every_draw (hlib : lib.Accurate) :
    (Testable sides samples level → sides ≤ room →
      (∀ draws : List Int, draws.length = samples → (∀ n ∈ draws, FaceOf sides n) →
        ∃ r : Report, Counts sides draws r.observed ∧
          ∀ (τ : Type) [RandomSource τ] (s s' : τ) (draws' : List Int), HandsOut sides s draws' s' →
            draws.Perm draws' → fairnessWithin lib room s sides samples level = (.ok r, s')) ∧
      ∀ (s s' s'' : σ) (draws : List Int) (v : Data) (n : Int), HandsOut sides s draws s' →
        (∀ n ∈ draws, FaceOf sides n) → draws.length < samples →
          RandomSource.next s' 1 sides = (.ok v, s'') → v.integer? = some n → ¬ FaceOf sides n →
            fairnessWithin lib room s sides samples level = (.error (.outOfRange v sides), s'')) ∧
    (Testable sides samples level → room < sides →
      ∀ s : σ, fairnessWithin lib room s sides samples level = (.error .noRoom, s)) ∧
    (sides < 2 ∨ samples < 1 ∨ ¬ level.IsLevel → ∀ s : σ, ∃ err,
      fairnessWithin lib room s sides samples level = (.error err, s) ∧
        Refuses sides samples level err) := by
  refine ⟨fun h hroom => ⟨fun draws hlength hfaces => ?_, ?_⟩, fun h hroom s => ?_,
    fairnessWithin_of_refuses⟩
  · obtain ⟨r, hcounts, hreport⟩ := fairnessWithin_of_faces hlib h hroom hlength hfaces
    exact ⟨r, hcounts, fun τ _ s s' draws' => hreport⟩
  · intro s s' s'' draws v n hhanded hfaces hfew hnext hv hout
    exact fairnessWithin_of_not_face h hroom hhanded hfaces hfew hnext hv hout
  · obtain ⟨x, hx⟩ := h.exists_level
    rw [h.fairnessWithin_eq hx, if_pos hroom]

end Test

theorem isLevel_usualSignificance : (Number.real usualSignificance).IsLevel := ⟨_, rfl, by decide +kernel⟩

/-- Three draws with a coin, a fourth that is no face of it, and a die with one side. -/
theorem three_of_four_are_faces :
    (∃ r : Report, r.observed = [1, 2] ∧
      fairnessWithin .nearest tallyRoom (Replay.ofList [.int 2, .bool true, .int 2, .int 7]) 2 3
        (.real usualSignificance) = (.ok r, ⟨[.int 7], 3⟩)) ∧
      fairnessWithin .nearest tallyRoom (Replay.ofList [.int 2, .bool true, .int 2, .int 7]) 2 4
        (.real usualSignificance) = (.error (.outOfRange (.int 7) 2), ⟨[], 4⟩) ∧
      ∃ err, fairnessWithin .nearest tallyRoom (Replay.ofList [.int 1]) 1 1 (.real usualSignificance) =
        (.error err, Replay.ofList [.int 1]) := by
  have hthree : Testable 2 3 (.real usualSignificance) :=
    ⟨by decide, by decide, by decide, by decide, isLevel_usualSignificance⟩
  have hfour : Testable 2 4 (.real usualSignificance) :=
    ⟨by decide, by decide, by decide, by decide, isLevel_usualSignificance⟩
  have hroom : 2 ≤ tallyRoom := by decide
  have hfaces : ∀ n ∈ [2, 1, 2], FaceOf 2 n := by
    simp only [List.forall_mem_cons, FaceOf]
    decide
  have hhanded : HandsOut 2 (Replay.ofList [.int 2, .bool true, .int 2, .int 7]) [2, 1, 2]
      ⟨[.int 7], 3⟩ := .next rfl rfl (.next rfl rfl (.next rfl rfl (.nothing _)))
  have htest := fun sides samples level =>
    @tally_counts_every_draw Replay _ _ tallyRoom sides samples level Elementary.nearest_accurate
  refine ⟨?_, ?_, ?_⟩
  · obtain ⟨r, hcounts, hreport⟩ := ((htest 2 3 _).1 hthree hroom).1 _ rfl hfaces
    have hcounts' : Counts (2 : Nat) [2, 1, 2] r.observed := hcounts
    exact ⟨r, hcounts'.eq_faceCounts, hreport Replay _ _ _ hhanded (.refl _)⟩
  · exact ((htest 2 4 _).1 hfour hroom).2 _ _ _ _ _ _ hhanded hfaces (by decide) rfl rfl (by decide)
  · obtain ⟨err, herr, -⟩ := (htest 1 1 _).2.2 (.inl (by decide)) (Replay.ofList [.int 1])
    exact ⟨err, herr⟩

/-- With more sides than there is room for, the draw that is no face is never made. -/
theorem so_many_sides_draw_nothing :
    ¬ ∀ (sides samples : Int) (level : Number) (s s' : Replay) (v : Data) (n : Int),
      Testable sides samples level → RandomSource.next s 1 sides = (.ok v, s') →
        v.integer? = some n → ¬ FaceOf sides n →
          fairness s sides samples level = (.error (.outOfRange v sides), s') := by
  intro h
  have htest : Testable (2 ^ 53) 1 (.real usualSignificance) :=
    ⟨by decide, le_rfl, le_rfl, by decide, isLevel_usualSignificance⟩
  have hstop := h _ _ _ (Replay.ofList [.int 0]) _ _ _ htest rfl rfl (by decide)
  obtain ⟨x, hx⟩ := htest.exists_level
  rw [fairness, htest.fairnessWithin_eq hx, if_pos (by decide)] at hstop
  cases hstop

end Dicebox
