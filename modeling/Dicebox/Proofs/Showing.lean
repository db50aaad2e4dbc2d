import Dicebox.Console
import Dicebox.Proofs.Analysis
import Dicebox.Proofs.Logs
import Dicebox.Proofs.Notation.RoundTrip
import Dicebox.Proofs.Numeral
import Dicebox.Proofs.Statistics

/-! # What is rolled is shown and summarized

The totals of rolls are integers of any size, but what is said about them goes through binary64
numbers and numerals of limited length. So a batch that has been rolled can still fail to be shown, and
an analysis of the same rolls can fail to have a summary. Both depend on the totals alone.

- `Console.batchFault`, `Console.fault_showBatch`: what keeps a batch from being shown.
- `analyze_of_batch`: an analysis summarizes what a batch has rolled.
- `rolls_are_shown_unless_too_large`: the batch and its analysis.
- `great_rolls_are_not_summarized`: a number that is rolled, and its mean is too large on the way.
-/

namespace Dicebox

open Session

variable {σ : Type} [RandomSource σ] {g g' : Engine σ} {text : String} {n : Int}

/-! ## What is too large -/

theorem showable_of_lt_bound {t : Int} (h : t.natAbs < Binary64.bound) :
    Numeral.showable t = true := by
  have hdigits : 54 + 970 ≤ Numeral.digitLimit := by decide
  have hbound : Binary64.bound ≤ 10 ^ Numeral.digitLimit := by
    calc Binary64.bound ≤ 2 ^ 54 * twoTo 970 := Nat.mul_le_mul_right _ (Nat.sub_le _ _)
      _ = 2 ^ (54 + 970) := by rw [twoTo_eq, pow_add]
      _ ≤ 10 ^ (54 + 970) := pow_le_pow_left₀ (by norm_num) (by norm_num) _
      _ ≤ 10 ^ Numeral.digitLimit := pow_le_pow_right₀ (by norm_num) hdigits
  exact Numeral.showable_iff.mpr (h.trans_le hbound)

theorem lt_bound_of_summaryOf {label : String} {totals : List Int} {s : Summary}
    (h : summaryOf label totals = .ok s) : ∀ t ∈ totals, t.natAbs < Binary64.bound := by
  intro t ht
  by_contra hge
  rw [summaryOf_of_large ht (Nat.not_lt.mp hge)] at h
  cases h

/-! ## Shown batches -/

namespace Console

/-- What keeps a batch with these totals from being shown: a total with too many digits, or a mean that
is too large. -/
def batchFault (totals : List Int) : Option Unshowable :=
  if ∀ t ∈ totals, Numeral.showable t then
    if (sumOf totals).natAbs < totals.length * Binary64.bound then none
    else some (.arithmetic .overflow)
  else some .tooLong

/-- **A batch is shown unless its totals keep it from that.** -/
theorem fault_showBatch {rolls : List Roll} (hne : rolls ≠ []) :
    (showBatch rolls).fault = batchFault (rolls.map (·.total)) := by
  obtain ⟨r, rs, rfl⟩ := List.exists_cons_of_ne_nil hne
  have hlength : ((r :: rs).map (·.total)).length ≠ 0 := by simp
  rw [showBatch, batchFault]
  simp only [List.all_eq_true]
  generalize (r :: rs).map (·.total) = totals at hlength ⊢
  by_cases hall : ∀ t ∈ totals, Numeral.showable t = true
  · rw [if_pos hall, if_pos hall]
    by_cases hless : (sumOf totals).natAbs < totals.length * Binary64.bound
    · obtain ⟨x, hx⟩ := divided_of_lt hless
      rw [hx, if_pos hless]
    · rw [divided_of_le hlength (Nat.not_lt.mp hless), if_neg hless]
  · rw [if_neg hall, if_neg hall]

theorem batchFault_eq_none {totals : List Int} (hne : totals ≠ [])
    (h : ∀ t ∈ totals, t.natAbs < Binary64.bound) : batchFault totals = none := by
  have hsum : (sumOf totals).natAbs ≤ totals.length * (Binary64.bound - 1) :=
    natAbs_sumOf_le fun t ht => Nat.le_sub_one_of_lt (h t ht)
  have hless : totals.length * (Binary64.bound - 1) < totals.length * Binary64.bound :=
    Nat.mul_lt_mul_of_pos_left (Nat.sub_one_lt Binary64.bound_pos.ne') (List.length_pos_iff.mpr hne)
  rw [batchFault, if_pos fun t ht => showable_of_lt_bound (h t ht), if_pos (hsum.trans_lt hless)]

end Console

/-! ## An analysis of what is rolled -/

/-- An analysis summarizes the totals that a batch has rolled. -/
theorem analyze_of_batch (hsettings : g.settings = g'.settings) (hsource : g.source = g'.source)
    (hn : 1 ≤ n) (hmax : n ≤ g.settings.maxBatchSize) {entries : List Entry}
    (h : (rollBatch text n never g).result = .ok entries) :
    entries.length = n.toNat ∧ (analyze text n g').result =
      ((summaryOf text (entries.map fun entry => entry.roll.total)).mapError
        SummaryError.arithmetic).mapError .summary := by
  have hsize : 0 ≤ n ∧ n ≤ g.settings.maxBatchSize := ⟨by omega, hmax⟩
  cases hread : Expr.parse g.settings.limits text with
  | error err =>
    rw [rollBatch_eq_fail hsize hread] at h
    cases h
  | ok e =>
    rw [rollBatch_eq_inTurn hsize hread, Outcome.result_preceded] at h
    rw [hsettings] at hread
    rw [analyze_eq hread, summarize, if_neg (by omega), ← hsource]
    obtain ⟨-, -, houtcome⟩ := rollMany_inTurn e text n.toNat g [] []
    obtain ⟨err, hfails, -⟩ | ⟨rolled, hanswers, hlength, -, htotals⟩ := houtcome
    · rw [hfails] at h
      cases h
    · obtain rfl := Except.ok.inj (hanswers.symm.trans h)
      refine ⟨hlength, ?_⟩
      simp only [htotals, List.append_nil, List.reverse_reverse, Option.getD_some]

/-! ## What is rolled -/

/-- **What is rolled is shown and summarized unless it is too large.** A batch that has been rolled is
shown unless one of its totals has too many digits or their mean comes to the bound. An analysis from
the same source has a summary of the same totals, and then the batch is shown, or it fails because the
arithmetic does. That is so where one total comes to the bound, and not so where all of them come
together to less than a twelfth of it and are not too many. -/
theorem rolls_are_shown_unless_too_large (hsettings : g.settings = g'.settings)
    (hsource : g.source = g'.source) (text : String) {n : Int} (hn : 1 ≤ n)
    (hmax : n ≤ g.settings.maxBatchSize) {entries : List Entry}
    (h : (rollBatch text n never g).result = .ok entries) :
    let totals := entries.map fun entry => entry.roll.total
    let shown := Console.showBatch (entries.map Entry.roll)
    let analysis := analyze text n g'
    shown.fault = Console.batchFault totals ∧
      ((∃ s, analysis.result = .ok s ∧ s.Describes text totals ∧ shown.fault = none) ∨
        analysis.result = .error (.summary (.arithmetic .overflow))) ∧
      ((∃ t ∈ totals, Binary64.bound ≤ t.natAbs) →
        analysis.result = .error (.summary (.arithmetic .overflow))) ∧
      (12 * magnitude totals < Binary64.bound → n < Binary64.bound →
        ∃ s, analysis.result = .ok s) := by
  obtain ⟨hlength, hanalysis⟩ := analyze_of_batch hsettings hsource hn hmax h
  have hne : entries.map Entry.roll ≠ [] := by
    rw [← List.length_pos_iff, List.length_map]
    omega
  have hfault := Console.fault_showBatch hne
  rw [List.map_map] at hfault
  have hcount : (entries.map fun entry => entry.roll.total).length = n.toNat := by
    rw [List.length_map, hlength]
  dsimp only
  rw [hanalysis]
  change _ = Console.batchFault (entries.map fun entry => entry.roll.total) at hfault
  generalize (entries.map fun entry => entry.roll.total) = totals at hfault hcount ⊢
  have hnonempty : totals ≠ [] := by
    rw [← List.length_pos_iff]
    omega
  refine ⟨hfault, ?_, ?_, ?_⟩
  · cases hs : summaryOf text totals with
    | error fault =>
      obtain rfl := summaryOf_eq_error hs
      exact .inr rfl
    | ok s =>
      refine .inl ⟨s, rfl, summaryOf_describes hnonempty hs, ?_⟩
      rw [hfault, Console.batchFault_eq_none hnonempty (lt_bound_of_summaryOf hs)]
  · rintro ⟨t, ht, hlarge⟩
    rw [summaryOf_of_large ht hlarge]
    rfl
  · intro hsmall hfew
    obtain ⟨s, hs⟩ := summaryOf_of_magnitude_lt hsmall (by omega)
    exact ⟨s, by rw [hs]; rfl⟩

/-- Two pools are rolled and shown, and summarized for another engine. -/
theorem two_pools_are_shown_and_summarized :
    ∃ entries : List Entry, (rollBatch "2d6" 2 never (desk "a" 2024)).result = .ok entries ∧
      (Console.showBatch (entries.map Entry.roll)).fault = none ∧
      ∃ s, (analyze "2d6" 2 (desk "b" 2025)).result = .ok s ∧ s.Describes "2d6" [7, 9] := by
  obtain ⟨entries, hrolled, htotals⟩ : ∃ entries : List Entry,
      (rollBatch "2d6" 2 never (desk "a" 2024)).result = .ok entries ∧
        entries.map (fun entry => entry.roll.total) = [7, 9] := by
    rw [rollBatch_eq_inTurn (by decide) (read_pool "a" 2024)]
    exact ⟨_, rfl, rfl⟩
  have hsettings : (desk "a" 2024).settings = (desk "b" 2025).settings := rfl
  have hsource : (desk "a" 2024).source = (desk "b" 2025).source := rfl
  have hlaw := rolls_are_shown_unless_too_large hsettings hsource "2d6" (by decide) (by decide) hrolled
  dsimp only at hlaw
  rw [htotals] at hlaw
  obtain ⟨-, hsummary, -, hsmall⟩ := hlaw
  have hbound : 2 ^ 8 < Binary64.bound := Binary64.pow_lt_bound (by norm_num)
  have hmagnitude : magnitude [7, 9] = 16 := rfl
  obtain ⟨s, hs⟩ := hsmall (by omega) (by omega)
  obtain ⟨s', hs', hdescribes, hshown⟩ | hfails := hsummary
  · exact ⟨entries, hrolled, hshown, s', hs', hdescribes⟩
  · rw [hs] at hfails
    cases hfails

/-! ## A number that is too large -/

theorem parse_numeral {limits : Limits} {v : Int} (h : 0 ≤ v) (hshown : Numeral.showable v = true)
    (hmax : (Numeral.ofInt v).length + 1 ≤ limits.maxTokens) :
    ∃ s, Expr.parse limits (Numeral.text v) = .ok (.constant v s) := by
  have hfits : (Expr.constant v ⟨0, 0⟩).Fits limits := ⟨h, hshown⟩
  have hflat : (Expr.constant v ⟨0, 0⟩).nesting < nestingLimit := Nat.zero_lt_succ 99
  obtain ⟨tokens, -, hlen, hread⟩ := canonical_read hfits hflat
  have hwrite : (Expr.constant v ⟨0, 0⟩).write = Numeral.ofInt v := rfl
  obtain ⟨e, he, hsame⟩ := hread (by
    rw [hwrite] at hlen
    omega)
  cases e with
  | constant w s =>
    obtain rfl : w = v := (Expr.constant.inj hsame).1
    exact ⟨s, he⟩
  | dice t s => cases hsame
  | negate e s => cases hsame
  | binary op l r s => cases hsame

theorem rollBatch_constant {v : Int} {s : Span} (hmax : 2 ≤ g.settings.maxBatchSize)
    (hread : Expr.parse g.settings.limits text = .ok (.constant v s)) :
    ∃ entries : List Entry, (rollBatch text 2 never g).result = .ok entries ∧
      entries.map (fun entry => entry.roll.total) = [v, v] := by
  rw [rollBatch_eq_inTurn ⟨by decide, hmax⟩ hread]
  exact ⟨_, rfl, rfl⟩

/-- Each of two numbers can be rounded, but not their sum. -/
theorem mean_great : mean [10 ^ 308, 10 ^ 308] = .error .overflow := by
  have hfails : (mean [10 ^ 308, 10 ^ 308]).isOk = false := by decide +kernel
  cases h : mean [10 ^ 308, 10 ^ 308] with
  | ok x =>
    rw [h] at hfails
    cases hfails
  | error fault => rw [mean_eq_error h]

/-- A great number is rolled twice, but there is no summary of the rolls. -/
theorem great_rolls_are_not_summarized :
    ¬ ∀ (g g' : Engine Replay) (text : String) (n : Int), g.settings = g'.settings →
      g.source = g'.source → 1 ≤ n → n ≤ g.settings.maxBatchSize →
        ∀ entries : List Entry, (rollBatch text n never g).result = .ok entries →
          (Console.showBatch (entries.map Entry.roll)).fault = none ∧
            ∃ s, (analyze text n g').result = .ok s := by
  intro h
  have hlength : (Numeral.ofInt (10 ^ 308)).length + 1 ≤
      (desk "a" 2024).settings.limits.maxTokens := by decide +kernel
  have hshown : Numeral.showable (10 ^ 308) = true := by decide +kernel
  obtain ⟨s, hread⟩ := parse_numeral (by positivity) hshown hlength
  obtain ⟨entries, hrolled, htotals⟩ := rollBatch_constant (by decide) hread
  obtain ⟨-, summary, hsummary⟩ :=
    h (desk "a" 2024) (desk "a" 2024) _ 2 rfl rfl (by decide) (by decide) entries hrolled
  rw [(analyze_of_batch rfl rfl (by decide) (by decide) hrolled).2, htotals, summaryOf,
    mean_great] at hsummary
  cases hsummary

end Dicebox
