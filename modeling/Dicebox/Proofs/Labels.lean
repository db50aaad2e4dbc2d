import Dicebox.Proofs.Notation.Rereading
import Dicebox.Proofs.ZeroDivisors
import Dicebox.Summary

/-! # The label of a summary

A summary has a label, which its rolls take for the text of their expression. Nothing that is rolled
depends on it, but a division by zero shows what stands in the label where the divisor stands in the
text. If the label is the text, that is the divisor; without a label it is the canonical notation of
the divisor; and any other label is cut at places that mean nothing in it.

- `Expr.ShownUnder`: what the labels show of a node of a text.
- `Expr.RollsOn`: rolls of an expression that come to a value, one after the other.
- `rollMany_stopsAt`, `rollMany_of_stopsAt`: the division at which many rolls stop.
- `zero_divisor_is_shown_as_its_label_has_it`: a summary that fails.
- `label_is_cut_in_place_of_the_text`: a label that is not the text.
-/

namespace Dicebox

variable {limits : Limits} {text : String} {e m : Expr}

/-! ## What a label shows -/

theorem Expr.shownIn_some {label : String} (hne : label ≠ "") (hroom : e.span.start < e.span.stop) :
    e.shownIn (some label) = slice label e.span := if_pos ⟨hne, hroom⟩

/-- Without a label, or with an empty one, the canonical notation is shown. -/
theorem Expr.shownIn_blank {label : Option String} (h : label = none ∨ label = some "") (e : Expr) :
    e.shownIn label = e.canonical := by
  rcases h with rfl | rfl
  · rfl
  · have hempty : ¬ ("" ≠ "" ∧ e.span.start < e.span.stop) := fun h => h.1 rfl
    rw [shownIn, if_neg hempty]

/-- **The canonical notation of a node is read as the node**, if its tokens are not too many and the
limits leave room for what the text has shorthands for. -/
theorem canonical_node_read (hone : 1 ≤ limits.maxDice)
    (hroom : ∀ tokens, Token.scan text = .ok tokens → limits.HaveRoom tokens)
    (h : Expr.parse limits text = .ok e) (hm : m ∈ e.nodes) :
    ∃ tokens, Token.scan m.canonical = .ok tokens ∧ (tokens.length ≤ limits.maxTokens →
      ∃ again, Expr.parse limits m.canonical = .ok again ∧ again.same m = true) := by
  obtain ⟨whole, stop, hscan, -, hwhole, rfl⟩ := parse_eq_ok.mp h
  obtain ⟨c, d, before, after, htokens, -, hd, rfl⟩ := Phrase.stands_of_mem_nodes hwhole hm
  obtain ⟨s, hs, haccepted, htree⟩ := Phrase.exists_sentence hd
  have hpart : ∀ t ∈ s.tokens, t ∈ whole.tokens := by
    intro t ht
    rw [hs] at ht
    rw [htokens]
    exact List.mem_append_right _ (List.mem_append_left _ ht)
  have hfits : (s.tree limits).Fits limits := by
    refine Phrase.fits_tree haccepted (fun t ht => (scanned_of_scan hscan t (hpart t ht)).1)
      (le_refl _) (le_refl _) hone fun t ht => ?_
    exact hroom _ hscan t (List.mem_append_left _ (hpart t ht))
  obtain ⟨tokens, hcanonical, -, hread⟩ :=
    canonical_read hfits (Nat.lt_of_le_of_lt s.nesting_tree haccepted.nesting)
  rw [htree] at hcanonical hread
  refine ⟨tokens, hcanonical, fun hfew => ?_⟩
  obtain ⟨again, hagain, hsame⟩ := hread hfew
  exact ⟨again, hagain, Expr.same_iff.mpr hsame⟩

/-- What the labels show of a node of a text: the text itself shows what is read as the node, no label
shows its canonical notation, and any other one its own characters. -/
structure Expr.ShownUnder (limits : Limits) (text : String) (m : Expr) : Prop where
  own : ∃ again, Expr.parse limits (m.shownIn (some text)) = .ok again ∧ again.same m = true
  blank : ∀ label, label = none ∨ label = some "" → m.shownIn label = m.canonical
  canonical : 1 ≤ limits.maxDice →
    (∀ tokens, Token.scan text = .ok tokens → limits.HaveRoom tokens) →
      ∃ tokens, Token.scan m.canonical = .ok tokens ∧ (tokens.length ≤ limits.maxTokens →
        ∃ again, Expr.parse limits m.canonical = .ok again ∧ again.same m = true)
  other : ∀ label, label ≠ "" → m.shownIn (some label) = slice label m.span

theorem shownUnder_of_mem_nodes (h : Expr.parse limits text = .ok e) (hm : m ∈ e.nodes) :
    m.ShownUnder limits text := by
  obtain ⟨start, stop, hspan, hroom, hend, again, hread, hsame⟩ := parse_slice_span h hm
  have hstretch : m.span.start < m.span.stop := by
    rw [hspan]
    exact Int.ofNat_lt.mpr hroom
  have hne : text ≠ "" := by
    rintro rfl
    exact absurd hend (by simp; omega)
  refine ⟨⟨again, ?_, Expr.same_iff.mpr hsame⟩, fun label hlabel => m.shownIn_blank hlabel,
    fun hone hroom => canonical_node_read hone hroom h hm,
    fun label hlabel => m.shownIn_some hlabel hstretch⟩
  rw [m.shownIn_some hne hstretch]
  exact hread

/-! ## Many rolls -/

variable {σ : Type} [RandomSource σ] {source reached source' : σ}

/-- So many rolls of an expression come to a value, one after the other, and lead from one state of
the source to another. -/
inductive Expr.RollsOn {σ : Type} [RandomSource σ] (e : Expr) : Nat → σ → σ → Prop
  | none {source : σ} : RollsOn e 0 source source
  | next {made : Nat} {source source' reached : σ} {terms : List TermResult} {v : Int} :
      e.ComesTo 0 source terms v source' → RollsOn e made source' reached →
        RollsOn e (made + 1) source reached

/-- **Many rolls that divide by zero stop at one of them**, whose divisor is told under the label. -/
theorem rollMany_stopsAt {label : Option String} {n : Nat} {totals : List Int} {events : List Event}
    {span : Span} {shown : String}
    (h : (rollMany e label n source totals events).outcome = .error (.divisionByZero span shown)) :
    ∃ made reached divisor source', made < n ∧ e.RollsOn made source reached ∧
      e.StopsAt 0 reached divisor source' ∧ span = divisor.span ∧ shown = divisor.shownIn label := by
  induction n generalizing source totals events with
  | zero => cases h
  | succ n ih =>
    rw [rollMany] at h
    cases hrun : ((e.roll label).run source).outcome with
    | error err =>
      rw [hrun] at h
      obtain rfl := Except.error.inj h
      obtain ⟨divisor, hspan, hshown, hstops⟩ := Expr.stopsAt_of_run hrun
      exact ⟨0, source, divisor, _, Nat.succ_pos n, .none, hstops, hspan, hshown⟩
    | ok r =>
      rw [hrun] at h
      obtain ⟨made, reached, divisor, source', hmade, hrolls, hstops⟩ := ih h
      exact ⟨made + 1, reached, divisor, source', Nat.succ_lt_succ hmade,
        .next (Expr.comesTo_of_run hrun) hrolls, hstops⟩

/-- **Under every label the rolls stop at the same division.** -/
theorem rollMany_of_stopsAt {made : Nat} {divisor : Expr} (hrolls : e.RollsOn made source reached)
    (hstops : e.StopsAt 0 reached divisor source') (label : Option String) {n : Nat}
    (hmade : made < n) (totals : List Int) (events : List Event) :
    (rollMany e label n source totals events).outcome =
      .error (.divisionByZero divisor.span (divisor.shownIn label)) := by
  induction hrolls generalizing n totals events with
  | none =>
    obtain ⟨n, rfl⟩ := Nat.exists_eq_succ_of_ne_zero hmade.ne'
    obtain ⟨es, hrun⟩ := hstops.run_roll label
    rw [rollMany, hrun]
  | next hcomes _ ih =>
    obtain ⟨n, rfl⟩ := Nat.exists_eq_succ_of_ne_zero (Nat.ne_zero_of_lt hmade)
    obtain ⟨es, hrun⟩ := hcomes.run_roll label
    rw [rollMany, hrun]
    exact ih hstops (Nat.lt_of_succ_lt_succ hmade) _ _

theorem summarize_eq_error {label : Option String} {n : Int} {err : RollError} :
    (summarize e source n label).1 = .error (.roll err) ↔
      1 ≤ n ∧ (rollMany e label n.toNat source [] []).outcome = .error err := by
  rw [summarize]
  by_cases hn : n < 1
  · rw [if_pos hn]
    constructor
    · intro h
      cases h
    · exact fun h => absurd hn (Int.not_lt.mpr h.1)
  · rw [if_neg hn]
    cases hrun : (rollMany e label n.toNat source [] []).outcome with
    | error err' =>
      simp only [hrun]
      exact ⟨fun h => ⟨Int.not_lt.mp hn, congrArg _ (SummaryError.roll.inj (Except.error.inj h))⟩,
        fun h => congrArg _ (congrArg _ (Except.error.inj h.2))⟩
    | ok totals =>
      simp only [hrun]
      constructor
      · intro h
        cases hsummary : summaryOf (label.getD e.canonical) totals.reverse with
        | error fault =>
          rw [hsummary] at h
          cases h
        | ok s =>
          rw [hsummary] at h
          cases h
      · rintro ⟨-, h⟩
        cases h

/-! ## Summaries that fail -/

/-- **A zero divisor is shown as its label has it.** A summary that divides by zero stops at the first
division of one of its rolls whose divisor comes to zero, and it would do so under every label. What is
shown is read as the divisor if the label is the text, and it is the canonical notation if there is no
label; any other label shows its own characters, whatever they say. -/
theorem zero_divisor_is_shown_as_its_label_has_it (hread : Expr.parse limits text = .ok e) {n : Int}
    {label : Option String} {span : Span} {shown : String}
    (hzero : (summarize e source n label).1 = .error (.roll (.divisionByZero span shown))) :
    ∃ (made : Nat) (reached : σ) (earlier : List Division) (D : Division) (later : List Division),
      (made : Int) < n ∧ e.RollsOn made source reached ∧ e.divisions = earlier ++ D :: later ∧
      (∀ E ∈ earlier, ∃ v, E.EvaluatesTo reached v ∧ v ≠ 0) ∧ D.EvaluatesTo reached 0 ∧
      span = D.divisor.span ∧ shown = D.divisor.shownIn label ∧ D.divisor.ShownUnder limits text ∧
      ∀ label', (summarize e source n label').1 =
        .error (.roll (.divisionByZero span (D.divisor.shownIn label'))) := by
  obtain ⟨hn, hrolled⟩ := summarize_eq_error.mp hzero
  obtain ⟨made, reached, divisor, source', hmade, hrolls, hstops, rfl, rfl⟩ :=
    rollMany_stopsAt hrolled
  obtain ⟨earlier, D, later, hsplit, rfl, hnonzero, hdivisor, -⟩ :=
    hstops.first_zero (rfl : ([] : List (Int ⊕ Dice)).length = 0) rfl
  have hdivision : D ∈ e.divisions := by
    rw [Expr.divisions, hsplit]
    exact List.mem_append_right _ List.mem_cons_self
  refine ⟨made, reached, earlier, D, later, by omega, hrolls, hsplit, hnonzero, hdivisor, rfl, rfl,
    shownUnder_of_mem_nodes hread (Expr.divisor_mem_nodes hdivision), fun label' => ?_⟩
  exact summarize_eq_error.mpr ⟨hn, rollMany_of_stopsAt hrolls hstops label' hmade [] []⟩

def oneShared : Expr :=
  .binary .div (.constant 1 ⟨0, 1⟩)
    (.binary .sub (.constant 1 ⟨3, 4⟩) (.constant 1 ⟨5, 6⟩) ⟨2, 7⟩) ⟨0, 7⟩

theorem parse_oneShared : Expr.parse {} "1/(1-1)" = .ok oneShared := by
  have hscan : Token.scan "1/(1-1)" = .ok
      [⟨.integer, ['1'], 0⟩, ⟨.operator .div, ['/'], 1⟩, ⟨.opening, ['('], 2⟩,
        ⟨.integer, ['1'], 3⟩, ⟨.operator .sub, ['-'], 4⟩, ⟨.integer, ['1'], 5⟩,
        ⟨.closing, [')'], 6⟩, Token.ending 7] := by
    decide +kernel
  rw [Expr.parse, hscan]
  rfl

theorem summarize_oneShared (label : Option String) :
    (summarize oneShared (Replay.ofList []) 1 label).1 = .error (.roll (.divisionByZero ⟨2, 7⟩
      ((Expr.binary .sub (.constant 1 ⟨3, 4⟩) (.constant 1 ⟨5, 6⟩) ⟨2, 7⟩).shownIn label))) := rfl

/-- Under its own text the failure shows the divisor. -/
theorem text_as_label_shows_the_divisor :
    Expr.parse {} "1/(1-1)" = .ok oneShared ∧
      (summarize oneShared (Replay.ofList []) 1 (some "1/(1-1)")).1 =
        .error (.roll (.divisionByZero ⟨2, 7⟩ "(1-1)")) ∧
      ∃ D : Division, D.EvaluatesTo (Replay.ofList []) 0 ∧ D.divisor.span = ⟨2, 7⟩ ∧
        ∃ again, Expr.parse {} (D.divisor.shownIn (some "1/(1-1)")) = .ok again ∧
          again.same D.divisor = true := by
  have hzero : (summarize oneShared (Replay.ofList []) 1 (some "1/(1-1)")).1 =
      .error (.roll (.divisionByZero ⟨2, 7⟩ "(1-1)")) := summarize_oneShared _
  obtain ⟨made, reached, earlier, D, later, hmade, hrolls, -, -, hdivisor, hspan, -, hshown, -⟩ :=
    zero_divisor_is_shown_as_its_label_has_it parse_oneShared hzero
  obtain rfl : made = 0 := by omega
  cases hrolls
  exact ⟨parse_oneShared, hzero, D, hdivisor, hspan.symm, hshown.own⟩

/-- Under the label `damage` the failure shows `mage`, which cannot be read. -/
theorem label_is_cut_in_place_of_the_text :
    ¬ ∀ (limits : Limits) (text : String) (e : Expr) (source : Replay) (n : Int)
        (label : Option String) (span : Span) (shown : String),
      Expr.parse limits text = .ok e → 1 ≤ n →
        (summarize e source n label).1 = .error (.roll (.divisionByZero span shown)) →
          ∃ again, Expr.parse limits shown = .ok again := by
  intro h
  obtain ⟨again, hagain⟩ := h {} "1/(1-1)" oneShared (Replay.ofList []) 1 (some "damage") _ _
    parse_oneShared (by decide) (summarize_oneShared _)
  have hshown : (Expr.binary .sub (.constant 1 ⟨3, 4⟩) (.constant 1 ⟨5, 6⟩) ⟨2, 7⟩).shownIn
      (some "damage") = "mage" := by decide
  have hscan : Token.scan "mage" = .error (.unexpectedCharacter 'm' 0) := by decide +kernel
  rw [hshown, Expr.parse, hscan] at hagain
  cases hagain

end Dicebox
