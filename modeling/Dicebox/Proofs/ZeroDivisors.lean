import Dicebox.Proofs.Leaves
import Dicebox.Proofs.Placement
import Dicebox.Proofs.Spans

/-! # A division by zero names its divisor

The divisions of an expression are carried out behind their operands, so in post-order, and the first
one whose divisor comes to zero ends the roll. The failure has the place of this divisor and shows its
text; and that text, rolled by itself from the source as it was in front of its first die, comes to
zero as well.

- `Division`, `Expr.divisions`: the divisions of an expression in post-order.
- `Division.EvaluatesTo`: what a divisor comes to in the course of a roll.
- `Expr.ComesTo.divisions_ne_zero`, `Expr.StopsAt.first_zero`: the divisions that are carried out.
- `division_by_zero_names_its_divisor`: the failure.
-/

namespace Dicebox

/-! ## Divisions -/

/-- A division of an expression: its divisor, and the leaves of the expression in front of that. -/
structure Division where
  before : List (Int ⊕ Dice)
  divisor : Expr

/-- The divisions of an expression behind these leaves, each behind those of its operands. -/
def Expr.divisionsFrom (before : List (Int ⊕ Dice)) : Expr → List Division
  | constant _ _ | dice _ _ => []
  | negate e _ => e.divisionsFrom before
  | binary op l r _ =>
    l.divisionsFrom before ++ r.divisionsFrom (before ++ l.leaves) ++
      if op = .div then [⟨before ++ l.leaves, r⟩] else []

def Expr.divisions (e : Expr) : List Division := e.divisionsFrom []

theorem Expr.divisor_mem_nodes {e : Expr} {before : List (Int ⊕ Dice)} {D : Division}
    (h : D ∈ e.divisionsFrom before) : D.divisor ∈ e.nodes := by
  induction e generalizing before with
  | constant | dice => cases h
  | negate e s ih => exact List.mem_cons_of_mem _ (ih h)
  | binary op l r s ihl ihr =>
    refine List.mem_cons_of_mem _ (List.mem_append.mpr ?_)
    rcases List.mem_append.mp h with hoperand | hown
    · exact (List.mem_append.mp hoperand).imp ihl ihr
    · split at hown
      · obtain rfl := List.mem_singleton.mp hown
        exact .inr r.mem_nodes
      · cases hown

variable {σ : Type} [RandomSource σ]

/-- A divisor evaluates to a value when it is rolled by itself from the source as it is in front of its
first leaf, once the leaves before it have been rolled. -/
def Division.EvaluatesTo (D : Division) (source : σ) (v : Int) : Prop :=
  ∃ terms reached es, (rollLeaves 0 D.before).run source = ⟨.ok terms, reached, es⟩ ∧
    ∃ r, ((D.divisor.roll none).run reached).outcome = .ok r ∧ r.total = v

/-! ## Divisions in the course of a roll -/

/-- What an expression comes to is what it comes to when it is rolled by itself, under any text and
with any spans. -/
theorem Expr.ComesTo.roll_alone {e e' : Expr} {place : Nat} {source source' : σ}
    {terms : List TermResult} {v : Int} (h : e.ComesTo place source terms v source')
    (hsame : e'.unplaced = e.unplaced) (text : Option String) :
    ∃ r, ((e'.roll text).run source).outcome = .ok r ∧ r.total = v := by
  obtain ⟨terms', halone⟩ := h.elsewhere hsame 0
  obtain ⟨es, hrun⟩ := halone.run_roll text
  rw [hrun]
  exact ⟨_, rfl, rfl⟩

variable {start source source' : σ} {place : Nat} {e : Expr}

/-- The leaves of an operand, behind those that have been rolled before. -/
theorem Expr.ComesTo.rolled_behind {before : List (Int ⊕ Dice)} {front terms : List TermResult}
    {v : Int} {es : List Event} (h : e.ComesTo place source terms v source')
    (hplace : before.length = place)
    (hfront : (rollLeaves 0 before).run start = ⟨.ok front, source, es⟩) :
    ∃ es, (rollLeaves 0 (before ++ e.leaves)).run start = ⟨.ok (front ++ terms), source', es⟩ := by
  obtain ⟨es', hrun⟩ := h.run_rollLeaves
  rw [← hplace, ← Nat.zero_add before.length] at hrun
  exact ⟨_, run_rollLeaves_append hfront hrun⟩

/-- **An expression that comes to a value has divided by nothing but what is not zero.** -/
theorem Expr.ComesTo.divisions_ne_zero {terms : List TermResult} {v : Int}
    (h : e.ComesTo place source terms v source') :
    ∀ {before : List (Int ⊕ Dice)} {front : List TermResult} {es : List Event},
      before.length = place → (rollLeaves 0 before).run start = ⟨.ok front, source, es⟩ →
        ∀ D ∈ e.divisionsFrom before, ∃ w, D.EvaluatesTo start w ∧ w ≠ 0 := by
  induction h with
  | constant | dice => exact fun _ _ _ hD => nomatch hD
  | negate _ ih => exact ih
  | @binary place op l r s source source₁ source₂ left right a b v hl hr hv ihl ihr =>
    intro before front es hplace hfront D hD
    obtain ⟨es', hbetween⟩ := hl.rolled_behind hplace hfront
    have hlength : (before ++ l.leaves).length = place + left.length := by
      rw [List.length_append, hplace, hl.length_eq]
    rcases List.mem_append.mp hD with hoperand | hown
    · rcases List.mem_append.mp hoperand with hleft | hright
      · exact ihl hplace hfront D hleft
      · exact ihr hlength hbetween D hright
    · split at hown
      · next hop =>
        obtain rfl := List.mem_singleton.mp hown
        obtain ⟨hdivisor, -⟩ := Operator.value?_eq_some.mp hv
        exact ⟨b, ⟨_, _, _, hbetween, hr.roll_alone rfl none⟩, fun hb => hdivisor ⟨hop, hb⟩⟩
      · cases hown

/-- **An expression that stops at a divisor stops at the first division by zero**, and has rolled the
leaves up to the last one of its divisor. -/
theorem Expr.StopsAt.first_zero {divisor : Expr} (h : e.StopsAt place source divisor source') :
    ∀ {before : List (Int ⊕ Dice)} {front : List TermResult} {es : List Event},
      before.length = place → (rollLeaves 0 before).run start = ⟨.ok front, source, es⟩ →
        ∃ (earlier : List Division) (D : Division) (later : List Division),
          e.divisionsFrom before = earlier ++ D :: later ∧ D.divisor = divisor ∧
          (∀ E ∈ earlier, ∃ w, E.EvaluatesTo start w ∧ w ≠ 0) ∧ D.EvaluatesTo start 0 ∧
            ∃ terms es, (rollLeaves 0 (D.before ++ divisor.leaves)).run start =
              ⟨.ok terms, source', es⟩ := by
  induction h with
  | negate _ ih => exact ih
  | @left place op l r s source source' divisor _ ih =>
    intro before front es hplace hfront
    obtain ⟨earlier, D, later, hsplit, hrest⟩ := ih hplace hfront
    refine ⟨earlier, D, later ++ (r.divisionsFrom (before ++ l.leaves) ++
      if op = .div then [⟨before ++ l.leaves, r⟩] else []), ?_, hrest⟩
    rw [divisionsFrom, hsplit, List.append_assoc, List.append_assoc, List.cons_append]
  | @right place op l r s source source₁ source₂ left a divisor hl _ ih =>
    intro before front es hplace hfront
    obtain ⟨es', hbetween⟩ := hl.rolled_behind hplace hfront
    have hlength : (before ++ l.leaves).length = place + left.length := by
      rw [List.length_append, hplace, hl.length_eq]
    obtain ⟨earlier, D, later, hsplit, hdivisor, hnonzero, hzero, hrolled⟩ := ih hlength hbetween
    refine ⟨l.divisionsFrom before ++ earlier, D, later ++
      if op = .div then [⟨before ++ l.leaves, r⟩] else [], ?_, hdivisor, ?_, hzero, hrolled⟩
    · rw [divisionsFrom, hsplit, List.append_assoc, List.append_assoc, List.append_assoc,
        List.cons_append]
    · exact List.forall_mem_append.mpr ⟨hl.divisions_ne_zero hplace hfront, hnonzero⟩
  | @here place l r s source source₁ source₂ left right a hl hr =>
    intro before front es hplace hfront
    obtain ⟨es', hbetween⟩ := hl.rolled_behind hplace hfront
    have hlength : (before ++ l.leaves).length = place + left.length := by
      rw [List.length_append, hplace, hl.length_eq]
    obtain ⟨es'', hbehind⟩ := hr.rolled_behind hlength hbetween
    refine ⟨l.divisionsFrom before ++ r.divisionsFrom (before ++ l.leaves), ⟨before ++ l.leaves, r⟩,
      [], by rw [divisionsFrom, if_pos rfl], rfl, ?_, ?_, _, _, hbehind⟩
    · exact List.forall_mem_append.mpr
        ⟨hl.divisions_ne_zero hplace hfront, hr.divisions_ne_zero hlength hbetween⟩
    · exact ⟨_, _, _, hbetween, hr.roll_alone rfl none⟩

/-! ## Failures -/

/-- **A division by zero names its divisor.** It is the first division, in post-order, whose divisor
evaluates to zero. The failure has the span of the divisor and shows the text there, which is read as
the divisor and comes to zero when it is rolled by itself from the source as it was in front of the
first leaf of the divisor. -/
theorem division_by_zero_names_its_divisor {limits : Limits} {text : String} {e : Expr}
    (hread : Expr.parse limits text = .ok e) {source : σ} {span : Span} {shown : String}
    (hzero : ((e.roll (some text)).run source).outcome = .error (.divisionByZero span shown)) :
    ∃ (earlier : List Division) (D : Division) (later : List Division),
      e.divisions = earlier ++ D :: later ∧
      (∀ E ∈ earlier, ∃ v, E.EvaluatesTo source v ∧ v ≠ 0) ∧ D.EvaluatesTo source 0 ∧
      (∃ terms es, (rollLeaves 0 (D.before ++ D.divisor.leaves)).run source =
        ⟨.ok terms, ((e.roll (some text)).run source).source, es⟩) ∧
      span = D.divisor.span ∧ shown = slice text span ∧
      ∃ again, Expr.parse limits shown = .ok again ∧ again.same D.divisor = true ∧
        ∃ terms reached es r, (rollLeaves 0 D.before).run source = ⟨.ok terms, reached, es⟩ ∧
          ((again.roll (some shown)).run reached).outcome = .ok r ∧ r.total = 0 := by
  obtain ⟨divisor, rfl, rfl, hstops⟩ := Expr.stopsAt_of_run hzero
  obtain ⟨earlier, D, later, hsplit, rfl, hnonzero, hdivisor, hrolled⟩ :=
    hstops.first_zero (rfl : ([] : List (Int ⊕ Dice)).length = 0) rfl
  have hdivision : D ∈ e.divisionsFrom [] := by
    rw [hsplit]
    exact List.mem_append_right _ List.mem_cons_self
  have hnode : D.divisor ∈ e.nodes := Expr.divisor_mem_nodes hdivision
  obtain ⟨first, last, hspan, hroom, hend, again, hagain, hsame⟩ := parse_slice_span hread hnode
  have hshown : D.divisor.shownIn (some text) = slice text D.divisor.span := by
    refine if_pos ⟨?_, ?_⟩
    · rintro rfl
      exact absurd hend (by simp; omega)
    · rw [hspan]
      dsimp only
      omega
  obtain ⟨terms, reached, es, hreached, r, hr, htotal⟩ := hdivisor
  obtain ⟨r', hr', htotal'⟩ := (Expr.comesTo_of_run hr).roll_alone hsame
    (some (D.divisor.shownIn (some text)))
  refine ⟨earlier, D, later, hsplit, hnonzero, ⟨_, _, _, hreached, r, hr, htotal⟩, hrolled, rfl,
    hshown, again, ?_, Expr.same_iff.mpr hsame, terms, reached, es, r', hreached, hr',
    htotal'.trans htotal⟩
  rw [hshown]
  exact hagain

/-- Six, divided by a die, and by what another one shows above 1. -/
def sixSharedTwice : Expr :=
  .binary .div
    (.binary .div (.constant 6 ⟨0, 1⟩) (.dice ⟨1, 6, []⟩ ⟨2, 4⟩) ⟨0, 4⟩)
    (.binary .sub (.dice ⟨1, 6, []⟩ ⟨6, 8⟩) (.constant 1 ⟨9, 10⟩) ⟨5, 11⟩) ⟨0, 11⟩

theorem scan_sixSharedTwice : Token.scan "6/d6/(d6-1)" = .ok
    [⟨.integer, ['6'], 0⟩, ⟨.operator .div, ['/'], 1⟩, ⟨.die, ['d'], 2⟩, ⟨.integer, ['6'], 3⟩,
      ⟨.operator .div, ['/'], 4⟩, ⟨.opening, ['('], 5⟩, ⟨.die, ['d'], 6⟩, ⟨.integer, ['6'], 7⟩,
      ⟨.operator .sub, ['-'], 8⟩, ⟨.integer, ['1'], 9⟩, ⟨.closing, [')'], 10⟩, Token.ending 11] := by
  decide +kernel

/-- A 2 divides, and a 1 leaves zero to divide by. -/
theorem second_divisor_comes_to_zero :
    Expr.parse {} "6/d6/(d6-1)" = .ok sixSharedTwice ∧
      ((sixSharedTwice.roll (some "6/d6/(d6-1)")).run (Replay.ofList [.int 2, .int 1])).outcome =
        .error (.divisionByZero ⟨5, 11⟩ "(d6-1)") ∧
      ∃ (earlier : List Division) (D : Division) (later : List Division),
        sixSharedTwice.divisions = earlier ++ D :: later ∧
        D.EvaluatesTo (Replay.ofList [.int 2, .int 1]) 0 ∧ D.divisor.span = ⟨5, 11⟩ ∧
          ∃ again, Expr.parse {} "(d6-1)" = .ok again ∧ again.same D.divisor = true := by
  have hread : Expr.parse {} "6/d6/(d6-1)" = .ok sixSharedTwice := by
    rw [Expr.parse, scan_sixSharedTwice]
    rfl
  have hzero : ((sixSharedTwice.roll (some "6/d6/(d6-1)")).run
      (Replay.ofList [.int 2, .int 1])).outcome =
        .error (.divisionByZero ⟨5, 11⟩ "(d6-1)") := rfl
  obtain ⟨earlier, D, later, hsplit, -, hdivisor, -, hspan, -, again, hagain, hsame, -⟩ :=
    division_by_zero_names_its_divisor hread hzero
  exact ⟨hread, hzero, earlier, D, later, hsplit, hdivisor, hspan.symm, again, hagain, hsame⟩

end Dicebox
