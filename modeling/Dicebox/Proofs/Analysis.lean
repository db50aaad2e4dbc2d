import Dicebox.Proofs.Rounding
import Dicebox.Proofs.Sessions

/-! # An analysis sees the dice of a batch

A batch and an analysis are two loops over the same rolls: the one records what it rolls, the other
keeps only the totals and says what they are like. From the same source they throw the same dice, fail
at the same roll for the same reason, and leave the source at the same place.

- `Number.IsMiddle`, `median_isMiddle`: the middle of a sorted list.
- `Summary.Describes`, `summaryOf_describes`: what a summary says of its totals.
- `rollMany_inTurn`: the totals of a summary are those of rolls in turn.
- `analysis_sees_the_dice_of_a_batch`: an analysis beside a batch.
-/

namespace Dicebox

open Session

/-! ## Statistics -/

/-- A number is the middle one of a list, or the mean of the two middle ones. -/
inductive Number.IsMiddle : Number → List Int → Prop
  | odd {before after : List Int} (n : Int) :
      before.length = after.length → IsMiddle (.whole n) (before ++ n :: after)
  | even {before after : List Int} (a b : Int) {x : Float} :
      before.length = after.length → IsQuotient x (a + b) 2 →
        IsMiddle (.real x) (before ++ a :: b :: after)

theorem Number.isMiddle_odd {ns : List Int} {half : Nat} (h : ns.length = 2 * half + 1) :
    (Number.whole (ns.getD half 0)).IsMiddle ns := by
  have hlt : half < ns.length := by omega
  have hsplit : ns = ns.take half ++ ns[half] :: ns.drop (half + 1) := by
    rw [← List.drop_eq_getElem_cons hlt, List.take_append_drop]
  rw [List.getD_eq_getElem _ _ hlt]
  conv => arg 2; rw [hsplit]
  refine .odd _ ?_
  rw [List.length_take, List.length_drop]
  omega

theorem Number.isMiddle_even {ns : List Int} {half : Nat} {x : Float}
    (h : ns.length = 2 * (half + 1))
    (hx : IsQuotient x (ns.getD half 0 + ns.getD (half + 1) 0) 2) :
    (Number.real x).IsMiddle ns := by
  have hlt : half + 1 < ns.length := by omega
  have hsplit : ns = ns.take half ++ ns[half] :: ns[half + 1] :: ns.drop (half + 2) := by
    rw [← List.drop_eq_getElem_cons hlt, ← List.drop_eq_getElem_cons, List.take_append_drop]
  rw [List.getD_eq_getElem _ _ hlt, List.getD_eq_getElem _ _ (Nat.lt_of_succ_lt hlt)] at hx
  rw [hsplit]
  refine .even _ _ ?_ hx
  rw [List.length_take, List.length_drop]
  omega

/-- **The median is the middle of the sorted integers.** -/
theorem median_isMiddle {ns : List Int} {x : Number} (hne : ns ≠ []) (h : median ns = .ok x) :
    x.IsMiddle ns.mergeSort := by
  have hpos : 0 < ns.mergeSort.length := by
    rw [List.length_mergeSort]
    exact List.length_pos_iff.mpr hne
  rw [median] at h
  generalize ns.mergeSort = sorted at h hpos ⊢
  split at h
  · next hodd =>
    obtain rfl := Except.ok.inj h
    exact Number.isMiddle_odd (by omega)
  · next heven =>
    obtain ⟨half, hhalf⟩ : ∃ half, sorted.length = 2 * (half + 1) :=
      ⟨sorted.length / 2 - 1, by omega⟩
    have hindex : sorted.length / 2 = half + 1 := by omega
    rw [hindex, Nat.add_sub_cancel] at h
    cases hx : divided (sorted.getD half 0 + sorted.getD (half + 1) 0) 2 with
    | error fault =>
      rw [hx] at h
      cases h
    | ok y =>
      rw [hx] at h
      obtain rfl := Except.ok.inj h
      exact Number.isMiddle_even hhalf (divided_isQuotient hx)

/-- What a summary says of the totals that it is made of. -/
structure Summary.Describes (s : Summary) (text : String) (totals : List Int) : Prop where
  expression : s.expression = text
  iterations : s.iterations = totals.length
  minimum : IsLeast {t | t ∈ totals} s.minimum
  maximum : IsGreatest {t | t ∈ totals} s.maximum
  median : ∃ sorted : List Int,
    sorted.Perm totals ∧ sorted.Pairwise (· ≤ ·) ∧ s.median.IsMiddle sorted

/-- **A summary describes the totals that it is made of.** -/
theorem summaryOf_describes {label : String} {totals : List Int} {s : Summary} (hne : totals ≠ [])
    (h : summaryOf label totals = .ok s) : s.Describes label totals := by
  obtain ⟨m, -, h⟩ := bind_eq_ok.mp h
  obtain ⟨mid, hmid, h⟩ := bind_eq_ok.mp h
  obtain ⟨d, -, h⟩ := bind_eq_ok.mp h
  obtain rfl := Except.ok.inj h
  obtain ⟨least, hleast⟩ := Option.isSome_iff_exists.mp (List.isSome_min?_iff.mpr hne)
  obtain ⟨greatest, hgreatest⟩ := Option.isSome_iff_exists.mp (List.isSome_max?_iff.mpr hne)
  have hsorted : totals.mergeSort.Pairwise (· ≤ ·) := List.pairwise_mergeSort' (· ≤ ·) totals
  refine ⟨rfl, rfl, ?_, ?_, totals.mergeSort, List.mergeSort_perm _ _, hsorted,
    median_isMiddle hne hmid⟩
  · show IsLeast _ (totals.min?.getD 0)
    rw [hleast]
    exact List.min?_eq_some_iff.mp hleast
  · show IsGreatest _ (totals.max?.getD 0)
    rw [hgreatest]
    exact List.max?_eq_some_iff.mp hgreatest

/-! ## Two loops -/

variable {σ : Type} [RandomSource σ]

/-- **The totals of a summary are those of rolls in turn**, behind the totals and events of earlier
rolls, and the newest come first. The rolls in turn are recorded as well. -/
theorem rollMany_inTurn (e : Expr) (text : String) (n : Nat) (g : Engine σ) (totals : List Int)
    (events : List Event) :
    let rolled := inTurn (List.replicate n (evaluate e text)) g
    let run := Dicebox.rollMany e (some text) n g.source totals events
    run.source = rolled.engine.source ∧ run.events = rolled.events.reverse ++ events ∧
      ((∃ err, rolled.result = .error (.roll err) ∧ run.outcome = .error err) ∨
        ∃ entries : List Entry, rolled.result = .ok entries ∧ entries.length = n ∧
          rolled.engine.history = entries.foldl History.record g.history ∧
          run.outcome = .ok ((entries.map fun entry => entry.roll.total).reverse ++ totals)) := by
  induction n generalizing g totals events with
  | zero => exact ⟨rfl, rfl, .inr ⟨[], rfl, rfl, rfl, rfl⟩⟩
  | succ n ih =>
    rw [List.replicate_succ, inTurn, Dicebox.rollMany]
    dsimp only
    cases hrun : ((e.roll (some text)).run g.source).outcome with
    | error err =>
      have hfails := evaluate_of_error hrun
      rw [bind_of_error (congrArg Outcome.result hfails), hfails]
      exact ⟨rfl, rfl, .inl ⟨err, rfl, rfl⟩⟩
    | ok r =>
      have hrolls := evaluate_of_ok hrun
      rw [bind_of_ok (congrArg Outcome.result hrolls), hrolls]
      dsimp only
      obtain ⟨hsource, hevents, houtcome⟩ := ih
        { g with
          source := ((e.roll (some text)).run g.source).source
          history := g.history.record ⟨g.stamps g.made, r⟩
          made := g.made + 1 }
        (r.total :: totals) (((e.roll (some text)).run g.source).events.reverse ++ events)
      dsimp only at hsource hevents houtcome
      obtain ⟨err, hfails, hstops⟩ | ⟨entries, hanswers, hlength, hhistory, htotals⟩ := houtcome
      · rw [bind_of_error hfails, hsource, hevents, List.reverse_append, List.append_assoc]
        exact ⟨rfl, rfl, .inl ⟨err, rfl, hstops⟩⟩
      · rw [bind_of_ok hanswers, hsource, hevents, htotals]
        refine ⟨rfl, ?_, .inr ⟨_, rfl, congrArg (· + 1) hlength, hhistory, ?_⟩⟩
        · simp [answer]
        · simp

/-! ## An analysis beside a batch -/

/-- The failure of an expression or of its roll, whoever asked for the roll. Arithmetic is no such
failure, and neither is a number of rolls that is out of range. -/
def EngineError.ofExpression? : EngineError → Option (NotationError ⊕ RollError)
  | unreadable e => some (.inl e)
  | roll e | summary (.roll e) => some (.inr e)
  | batchSize _ _ | fairness _ | summary (.noIterations _) | summary (.arithmetic _) => none

/-- How an expression or its roll failed, if one of them did. -/
def Outcome.failure? {α : Type} (o : Outcome σ α) : Option (NotationError ⊕ RollError) :=
  match o.result with
  | .error e => e.ofExpression?
  | .ok _ => none

/-- **An analysis sees the dice of a batch.** From equal settings and sources, both fail in the same
way or neither does, and they leave equal sources and tell the same events. The analysis leaves its
history alone. A batch that does not fail adds its `n` rolls to its history, and the analysis describes
their totals, unless the arithmetic of just these totals fails. -/
theorem analysis_sees_the_dice_of_a_batch {g g' : Engine σ} (hsettings : g.settings = g'.settings)
    (hsource : g.source = g'.source) (text : String) {n : Int} (hn : 1 ≤ n)
    (hmax : n ≤ g.settings.maxBatchSize) :
    let batch := rollBatch text n never g
    let analysis := analyze text n g'
    batch.failure? = analysis.failure? ∧ batch.engine.source = analysis.engine.source ∧
      batch.events = analysis.events ∧ analysis.engine.history = g'.history ∧
      (batch.failure?.isSome ∨ ∃ entries : List Entry, batch.result = .ok entries ∧
        entries.length = n ∧ batch.engine.history = entries.foldl History.record g.history ∧
        let totals := entries.map fun entry => entry.roll.total
        ((∃ s, summaryOf text totals = .ok s ∧ analysis.result = .ok s ∧ s.Describes text totals) ∨
          ∃ fault, summaryOf text totals = .error fault ∧
            analysis.result = .error (.summary (.arithmetic fault)))) := by
  dsimp only
  have hsize : 0 ≤ n ∧ n ≤ g.settings.maxBatchSize := ⟨by omega, hmax⟩
  cases hread : Expr.parse g.settings.limits text with
  | error err =>
    have hread' := hread
    rw [hsettings] at hread'
    rw [rollBatch_eq_fail hsize hread, analyze_eq_fail hread']
    exact ⟨rfl, hsource, rfl, rfl, .inl rfl⟩
  | ok e =>
    have hread' := hread
    rw [hsettings] at hread'
    rw [rollBatch_eq_inTurn hsize hread, analyze_eq hread', summarize, if_neg (by omega), ← hsource]
    obtain ⟨hmoved, hevents, houtcome⟩ := rollMany_inTurn e text n.toNat g [] []
    rw [List.append_nil] at hevents
    obtain ⟨err, hfails, hstops⟩ | ⟨entries, hanswers, hlength, hhistory, htotals⟩ := houtcome
    · simp only [hstops, Outcome.failure?, Outcome.preceded, hfails, hmoved, hevents,
        List.reverse_reverse]
      exact ⟨rfl, trivial, trivial, trivial, .inl rfl⟩
    · have hne : entries.map (fun entry => entry.roll.total) ≠ [] := by
        rw [← List.length_pos_iff, List.length_map, hlength]
        omega
      rw [List.append_nil] at htotals
      simp only [htotals, Outcome.failure?, Outcome.preceded, hanswers, hmoved, hevents,
        List.reverse_reverse]
      have hcount : (entries.length : Int) = n := by omega
      cases hsummary : summaryOf text (entries.map fun entry => entry.roll.total) with
      | error fault =>
        simp only [Option.getD_some, hsummary]
        exact ⟨rfl, trivial, trivial, trivial, .inr ⟨entries, rfl, hcount, hhistory,
          .inr ⟨fault, hsummary, rfl⟩⟩⟩
      | ok s =>
        simp only [Option.getD_some, hsummary]
        exact ⟨rfl, trivial, trivial, trivial, .inr ⟨entries, rfl, hcount, hhistory,
          .inl ⟨s, hsummary, rfl, summaryOf_describes hne hsummary⟩⟩⟩

/-- Two pools are rolled for one engine and summarized for another. -/
theorem two_pools_are_analyzed :
    let batch := rollBatch "2d6" 2 never (desk "a" 2024)
    let analysis := analyze "2d6" 2 (desk "b" 2025)
    (∃ entries : List Entry, batch.result = .ok entries ∧
        batch.engine.history.entries = entries.reverse ∧
        entries.map (fun entry => entry.roll.total) = [7, 9]) ∧
      batch.engine.source = analysis.engine.source ∧ analysis.engine.history.entries = [] ∧
      ((∃ s, summaryOf "2d6" [7, 9] = .ok s ∧ analysis.result = .ok s ∧ s.Describes "2d6" [7, 9]) ∨
        ∃ fault, summaryOf "2d6" [7, 9] = .error fault ∧
          analysis.result = .error (.summary (.arithmetic fault))) := by
  intro batch analysis
  obtain ⟨rolled, hrolled, hseven⟩ : ∃ entries : List Entry, batch.result = .ok entries ∧
      entries.map (fun entry => entry.roll.total) = [7, 9] := by
    show ∃ entries : List Entry, (rollBatch _ _ _ _).result = .ok entries ∧ _
    rw [rollBatch_eq_inTurn (by decide) (read_pool "a" 2024)]
    exact ⟨_, rfl, rfl⟩
  have hsettings : (desk "a" 2024).settings = (desk "b" 2025).settings := rfl
  have hmax : 2 ≤ (desk "a" 2024).settings.maxBatchSize := by decide
  have hsource : (desk "a" 2024).source = (desk "b" 2025).source := rfl
  obtain ⟨-, hafter, -, hhistory, houtcome⟩ :=
    analysis_sees_the_dice_of_a_batch hsettings hsource "2d6" (by decide) hmax
  obtain hfails | ⟨entries, hanswers, hlength, hrecorded, hsummary⟩ := houtcome
  · rw [Outcome.failure?, hrolled] at hfails
    cases hfails
  · obtain rfl := Except.ok.inj (hrolled.symm.trans hanswers)
    dsimp only at hsummary
    rw [hseven] at hsummary
    have hroom : rolled.reverse.length ≤ 1000 := by
      rw [List.length_reverse]
      omega
    refine ⟨⟨rolled, hrolled, ?_, hseven⟩, hafter, congrArg History.entries hhistory, hsummary⟩
    show (rollBatch _ _ _ _).engine.history.entries = _
    rw [hrecorded, entries_foldl_record]
    show (rolled.reverse ++ []).take 1000 = _
    rw [List.append_nil, List.take_of_length_le hroom]

end Dicebox
