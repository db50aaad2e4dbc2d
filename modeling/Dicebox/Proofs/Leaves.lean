import Dicebox.Proofs.Divisors
import Dicebox.Source.Kinds

/-! # What the leaves of an expression make

The dice of an expression are thrown leaf by leaf, from left to right, and what comes of a leaf
depends on nothing but the leaf, its place and the source that the leaves before it have left. So the
terms of a roll are those of its leaves in a row, whatever operators stand between them, and the
total is what the operators make of the values of the terms. A division by zero cuts the row short
behind the divisor.

- `rollLeaves`: leaves in a row.
- `Expr.value`, `Expr.divisors`: what operators make of the values of the leaves.
- `Expr.Divides`: a divisor of an expression, with the leaves before and behind it.
- `Expr.ComesTo.run_rollLeaves`, `Expr.StopsAt.run_rollLeaves`: the leaves of a whole expression.
- `leaves_make_the_terms`: the run of an expression.
-/

namespace Dicebox

open Rolling

/-! ## Leaves in a row -/

theorem Rolling.bind_done {α : Type} (r : Rolling α) : r.bind .done = r := by
  induction r with
  | done | fail => rfl
  | draw sides next ih => exact congrArg (draw sides) (funext ih)
  | note event rest ih => exact congrArg (note event) ih

/-- Rolls leaves one after the other, the first of which stands at this place. -/
def rollLeaves : Nat → List (Int ⊕ Dice) → Rolling (List TermResult)
  | _, [] => .done []
  | place, .inl v :: ls =>
    (rollLeaves (place + 1) ls).bind fun terms => .done (.constant v :: terms)
  | place, .inr t :: ls =>
    (t.roll place).bind fun r =>
      (rollLeaves (place + 1) ls).bind fun terms => .done (.dice r :: terms)

theorem rollLeaves_append (place : Nat) (ls ms : List (Int ⊕ Dice)) :
    rollLeaves place (ls ++ ms) = (rollLeaves place ls).bind fun left =>
      (rollLeaves (place + ls.length) ms).bind fun right => .done (left ++ right) := by
  induction ls generalizing place with
  | nil => exact (bind_done _).symm
  | cons leaf ls ih =>
    have hplace : place + (leaf :: ls).length = place + 1 + ls.length := by
      rw [List.length_cons]
      omega
    rw [hplace]
    cases leaf with
    | inl v => simp only [List.cons_append, rollLeaves, ih, bind_assoc, done_bind]
    | inr t => simp only [List.cons_append, rollLeaves, ih, bind_assoc, done_bind]

theorem run_rollLeaves_append {σ : Type} [RandomSource σ] {place : Nat} {ls ms : List (Int ⊕ Dice)}
    {source source₁ source₂ : σ} {left right : List TermResult} {es es' : List Event}
    (hl : (rollLeaves place ls).run source = ⟨.ok left, source₁, es⟩)
    (hr : (rollLeaves (place + ls.length) ms).run source₁ = ⟨.ok right, source₂, es'⟩) :
    (rollLeaves place (ls ++ ms)).run source = ⟨.ok (left ++ right), source₂, es ++ es'⟩ := by
  rw [rollLeaves_append, run_bind, hl]
  dsimp only
  rw [run_bind, hr]
  simp only [run, List.append_nil]

/-! ## Operators -/

/-- What a term adds to its expression. -/
def TermResult.value : TermResult → Int
  | constant v => v
  | dice r => r.subtotal

/-- The value of an operator. A quotient is rounded toward zero. -/
def Operator.exact : Operator → Int → Int → Int
  | add, a, b => a + b
  | sub, a, b => a - b
  | mul, a, b => a * b
  | div, a, b => a.tdiv b

theorem Operator.value?_eq_some {op : Operator} {a b v : Int} :
    op.value? a b = some v ↔ ¬ (op = .div ∧ b = 0) ∧ v = op.exact a b := by
  cases op with
  | add | sub | mul => simp [value?, exact, eq_comm]
  | div =>
    rw [value?, quotient?]
    by_cases hb : b = 0
    · simp [hb]
    · simp [hb, exact, eq_comm]

namespace Expr

/-- The value of a tree whose leaves have these values, from left to right. -/
def value : Expr → List Int → Int
  | constant _ _, xs | dice _ _, xs => xs.headD 0
  | negate e _, xs => -e.value xs
  | binary op l r _, xs =>
    op.exact (l.value (xs.take l.leaves.length)) (r.value (xs.drop l.leaves.length))

/-- The values of all divisors of a tree whose leaves have these values. -/
def divisors : Expr → List Int → List Int
  | constant _ _, _ | dice _ _, _ => []
  | negate e _, xs => e.divisors xs
  | binary op l r _, xs =>
    let right := xs.drop l.leaves.length
    l.divisors (xs.take l.leaves.length) ++ r.divisors right ++
      if op = .div then [r.value right] else []

theorem value_binary {op : Operator} {l r : Expr} {s : Span} {xs ys : List Int}
    (h : xs.length = l.leaves.length) :
    (binary op l r s).value (xs ++ ys) = op.exact (l.value xs) (r.value ys) := by
  rw [value, ← h, List.take_left, List.drop_left]

theorem zero_mem_divisors_binary {op : Operator} {l r : Expr} {s : Span} {xs ys : List Int}
    (h : xs.length = l.leaves.length) :
    0 ∈ (binary op l r s).divisors (xs ++ ys) ↔
      0 ∈ l.divisors xs ∨ 0 ∈ r.divisors ys ∨ (op = .div ∧ r.value ys = 0) := by
  rw [divisors, ← h, List.take_left, List.drop_left]
  by_cases hop : op = .div
  · simp [hop, eq_comm]
  · simp [hop]

/-! ## The leaves of an expression -/

section Runs

variable {σ : Type} [RandomSource σ] {e : Expr} {place : Nat} {source source' : σ}
  {terms : List TermResult} {v : Int}

theorem ComesTo.length_eq (h : e.ComesTo place source terms v source') :
    terms.length = e.leaves.length := by
  induction h with
  | constant | dice => rfl
  | negate _ ih => exact ih
  | binary _ _ _ ihl ihr => rw [List.length_append, leaves, List.length_append, ihl, ihr]

/-- The value of an expression follows from its terms, and none of its divisors is zero. -/
theorem ComesTo.value_eq (h : e.ComesTo place source terms v source') :
    v = e.value (terms.map TermResult.value) ∧ 0 ∉ e.divisors (terms.map TermResult.value) := by
  induction h with
  | constant | dice => exact ⟨rfl, List.not_mem_nil⟩
  | negate _ ih =>
    obtain ⟨rfl, hzero⟩ := ih
    exact ⟨rfl, hzero⟩
  | @binary place op l r s source source₁ source₂ left right a b v hl _ hv ihl ihr =>
    obtain ⟨rfl, hleft⟩ := ihl
    obtain ⟨rfl, hright⟩ := ihr
    obtain ⟨hdivisor, rfl⟩ := Operator.value?_eq_some.mp hv
    have hlen : (left.map TermResult.value).length = l.leaves.length := by
      rw [List.length_map, hl.length_eq]
    rw [List.map_append, value_binary hlen, zero_mem_divisors_binary hlen]
    refine ⟨rfl, ?_⟩
    rintro (hmem | hmem | hmem)
    · exact hleft hmem
    · exact hright hmem
    · exact hdivisor hmem

/-- **The terms of an expression are those of its leaves in a row**, and so is the source behind
them. -/
theorem ComesTo.run_rollLeaves (h : e.ComesTo place source terms v source') :
    ∃ es, (rollLeaves place e.leaves).run source = ⟨.ok terms, source', es⟩ := by
  induction h with
  | constant => exact ⟨[], rfl⟩
  | dice hr =>
    rw [leaves, rollLeaves, run_bind, hr]
    exact ⟨_, rfl⟩
  | negate _ ih => exact ih
  | binary hl _ _ ihl ihr =>
    obtain ⟨es, hleft⟩ := ihl
    obtain ⟨es', hright⟩ := ihr
    rw [hl.length_eq] at hright
    exact ⟨_, run_rollLeaves_append hleft hright⟩

/-- An expression divides by another one, in front of which and behind which it has these leaves. -/
inductive Divides : Expr → List (Int ⊕ Dice) → Expr → List (Int ⊕ Dice) → Prop
  | here {l r : Expr} {s : Span} : Divides (.binary .div l r s) l.leaves r []
  | negate {e divisor : Expr} {s : Span} {before behind : List (Int ⊕ Dice)} :
      Divides e before divisor behind → Divides (.negate e s) before divisor behind
  | left {op : Operator} {l r divisor : Expr} {s : Span} {before behind : List (Int ⊕ Dice)} :
      Divides l before divisor behind →
        Divides (.binary op l r s) before divisor (behind ++ r.leaves)
  | right {op : Operator} {l r divisor : Expr} {s : Span} {before behind : List (Int ⊕ Dice)} :
      Divides r before divisor behind →
        Divides (.binary op l r s) (l.leaves ++ before) divisor behind

theorem Divides.leaves_eq {divisor : Expr} {before behind : List (Int ⊕ Dice)}
    (h : e.Divides before divisor behind) : e.leaves = before ++ divisor.leaves ++ behind := by
  induction h with
  | here => rw [leaves, List.append_nil]
  | negate _ ih => exact ih
  | left _ ih => rw [leaves, ih, List.append_assoc]
  | right _ ih => rw [leaves, ih, ← List.append_assoc, ← List.append_assoc]

/-- **An expression that stops at a divisor has rolled the leaves up to the last one of the
divisor**, and no others. -/
theorem StopsAt.run_rollLeaves {divisor : Expr} (h : e.StopsAt place source divisor source') :
    ∃ before behind terms es, e.Divides before divisor behind ∧
      (rollLeaves place (before ++ divisor.leaves)).run source = ⟨.ok terms, source', es⟩ ∧
        divisor.value ((terms.drop before.length).map TermResult.value) = 0 := by
  induction h with
  | negate _ ih =>
    obtain ⟨before, behind, terms, es, hdivides, hrun, hzero⟩ := ih
    exact ⟨before, behind, terms, es, .negate hdivides, hrun, hzero⟩
  | left _ ih =>
    obtain ⟨before, behind, terms, es, hdivides, hrun, hzero⟩ := ih
    exact ⟨before, _, terms, es, .left hdivides, hrun, hzero⟩
  | @right place op l r s source source₁ source₂ left a divisor hl _ ih =>
    obtain ⟨before, behind, terms, es, hdivides, hrun, hzero⟩ := ih
    obtain ⟨es', hleft⟩ := hl.run_rollLeaves
    rw [hl.length_eq] at hrun
    refine ⟨l.leaves ++ before, behind, left ++ terms, es' ++ es, .right hdivides, ?_, ?_⟩
    · rw [List.append_assoc]
      exact run_rollLeaves_append hleft hrun
    · rwa [List.length_append, ← hl.length_eq, List.drop_length_add_append]
  | @here place l r s source source₁ source₂ left right a hl hr =>
    obtain ⟨es, hleft⟩ := hl.run_rollLeaves
    obtain ⟨es', hright⟩ := hr.run_rollLeaves
    rw [hl.length_eq] at hright
    refine ⟨l.leaves, [], left ++ right, _, .here, run_rollLeaves_append hleft hright, ?_⟩
    rw [← hl.length_eq, List.drop_left]
    exact hr.value_eq.1.symm

end Runs

end Expr

/-! ## Runs of an expression -/

theorem Run.ofItself_of_divisionByZero {σ α : Type} {run : Run σ α} {span : Span}
    {shown : String} (h : run.outcome = .error (.divisionByZero span shown)) : run.OfItself := by
  intro err herr
  rw [h] at herr
  obtain rfl := Except.error.inj herr
  exact id

section Runs

variable {σ : Type} [RandomSource σ]

theorem Expr.comesTo_of_run {e : Expr} {text : Option String} {source : σ} {r : Roll}
    (h : ((e.roll text).run source).outcome = .ok r) :
    e.ComesTo 0 source r.terms r.total ((e.roll text).run source).source := by
  rcases comes_or_stops (Run.ofItself_of_ok h) with
    ⟨terms, v, source', hcomes⟩ | ⟨divisor, source', hstops⟩
  · obtain ⟨es, hrun⟩ := hcomes.run_roll text
    rw [hrun] at h ⊢
    obtain rfl := Except.ok.inj h
    exact hcomes
  · obtain ⟨es, hrun⟩ := hstops.run_roll text
    rw [hrun] at h
    cases h

theorem Expr.stopsAt_of_run {e : Expr} {text : Option String} {source : σ} {span : Span}
    {shown : String}
    (h : ((e.roll text).run source).outcome = .error (.divisionByZero span shown)) :
    ∃ divisor, span = divisor.span ∧ shown = divisor.shownIn text ∧
      e.StopsAt 0 source divisor ((e.roll text).run source).source := by
  rcases comes_or_stops (Run.ofItself_of_divisionByZero h) with
    ⟨terms, v, source', hcomes⟩ | ⟨divisor, source', hstops⟩
  · obtain ⟨es, hrun⟩ := hcomes.run_roll text
    rw [hrun] at h
    cases h
  · obtain ⟨es, hrun⟩ := hstops.run_roll text
    rw [hrun] at h ⊢
    obtain ⟨rfl, rfl⟩ := RollError.divisionByZero.inj (Except.error.inj h)
    exact ⟨divisor, rfl, rfl, hstops⟩

/-- **Leaves make the terms, and terms and operators make the total.** A roll with a result has one
term for each leaf, and they and the source behind them are those of the leaves rolled in a row; the
total is what the operators make of their values. So another expression with the same leaves has the
same terms and leaves the same source. A division by zero has rolled the leaves up to the last one of
its divisor. -/
theorem leaves_make_the_terms (e : Expr) (text : Option String) (source : σ) :
    let run := (e.roll text).run source
    (∀ r, run.outcome = .ok r →
      (∃ es, (rollLeaves 0 e.leaves).run source = ⟨.ok r.terms, run.source, es⟩) ∧
        r.terms.length = e.leaves.length ∧ r.total = e.value (r.terms.map TermResult.value) ∧
          0 ∉ e.divisors (r.terms.map TermResult.value)) ∧
    (∀ (e' : Expr) (text' : Option String) (r r' : Roll), e'.leaves = e.leaves →
      run.outcome = .ok r → ((e'.roll text').run source).outcome = .ok r' →
        r'.terms = r.terms ∧ ((e'.roll text').run source).source = run.source) ∧
    ∀ span shown, run.outcome = .error (.divisionByZero span shown) →
      ∃ before divisor behind terms es, e.Divides before divisor behind ∧
        e.leaves = before ++ divisor.leaves ++ behind ∧
        span = divisor.span ∧ shown = divisor.shownIn text ∧
        (rollLeaves 0 (before ++ divisor.leaves)).run source = ⟨.ok terms, run.source, es⟩ ∧
        divisor.value ((terms.drop before.length).map TermResult.value) = 0 := by
  intro run
  refine ⟨fun r hr => ?_, fun e' text' r r' hleaves hr hr' => ?_, fun span shown hzero => ?_⟩
  · have hcomes := Expr.comesTo_of_run hr
    exact ⟨hcomes.run_rollLeaves, hcomes.length_eq, hcomes.value_eq⟩
  · -- the leaves in a row have one run, and it is that of either expression
    obtain ⟨es, hrun⟩ := (Expr.comesTo_of_run hr).run_rollLeaves
    obtain ⟨es', hrun'⟩ := (Expr.comesTo_of_run hr').run_rollLeaves
    rw [hleaves, hrun] at hrun'
    obtain ⟨hterms, hsource, -⟩ := Run.mk.inj hrun'
    exact ⟨(Except.ok.inj hterms).symm, hsource.symm⟩
  · obtain ⟨divisor, hspan, hshown, hstops⟩ := Expr.stopsAt_of_run hzero
    obtain ⟨before, behind, terms, es, hdivides, hrun, hvalue⟩ := hstops.run_rollLeaves
    exact ⟨before, divisor, behind, terms, es, hdivides, hdivides.leaves_eq, hspan, hshown, hrun,
      hvalue⟩

end Runs

/-- A die less another one, and twice the difference. -/
def twiceTheDifference : Expr :=
  .binary .mul (.binary .sub (.dice ⟨1, 6, []⟩ ⟨1, 3⟩) (.dice ⟨1, 4, []⟩ ⟨6, 8⟩) ⟨0, 9⟩)
    (.constant 2 ⟨12, 13⟩) ⟨0, 13⟩

def differenceOfTwice : Expr :=
  .binary .sub (.dice ⟨1, 6, []⟩ ⟨0, 2⟩)
    (.binary .mul (.dice ⟨1, 4, []⟩ ⟨5, 7⟩) (.constant 2 ⟨10, 11⟩) ⟨5, 11⟩) ⟨0, 11⟩

/-- A die divided by the difference of two others, and one more die. -/
def sharedAndOneMore : Expr :=
  .binary .add
    (.binary .div (.dice ⟨1, 8, []⟩ ⟨0, 2⟩)
      (.binary .sub (.dice ⟨1, 6, []⟩ ⟨6, 8⟩) (.dice ⟨1, 4, []⟩ ⟨11, 13⟩) ⟨5, 14⟩) ⟨0, 14⟩)
    (.dice ⟨1, 10, []⟩ ⟨17, 20⟩) ⟨0, 20⟩

/-- A 5 and a 3 make 4 or -1; where two dice both show 3, their difference divides nothing, and the
last die is not thrown. -/
theorem grouping_leaves_the_terms :
    (∃ r r', ((twiceTheDifference.roll none).run (Replay.ofList [.int 5, .int 3])).outcome = .ok r ∧
      r.total = 4 ∧
      ((differenceOfTwice.roll none).run (Replay.ofList [.int 5, .int 3])).outcome = .ok r' ∧
      r'.total = -1 ∧ r'.terms = r.terms) ∧
    ∃ before divisor behind terms es, sharedAndOneMore.Divides before divisor behind ∧
      divisor.span = ⟨5, 14⟩ ∧
      (rollLeaves 0 (before ++ divisor.leaves)).run (Replay.ofList [.int 7, .int 3, .int 3, .int 9]) =
        ⟨.ok terms, ⟨[.int 9], 3⟩, es⟩ := by
  obtain ⟨r, hr, htotal⟩ : ∃ r, ((twiceTheDifference.roll none).run
      (Replay.ofList [.int 5, .int 3])).outcome = .ok r ∧ r.total = 4 := ⟨_, rfl, rfl⟩
  obtain ⟨r', hr', htotal'⟩ : ∃ r, ((differenceOfTwice.roll none).run
      (Replay.ofList [.int 5, .int 3])).outcome = .ok r ∧ r.total = -1 := ⟨_, rfl, rfl⟩
  have hzero : ((sharedAndOneMore.roll none).run
      (Replay.ofList [.int 7, .int 3, .int 3, .int 9])).outcome =
        .error (.divisionByZero ⟨5, 14⟩ "1d6 - 1d4") := rfl
  obtain ⟨-, hsame, -⟩ := leaves_make_the_terms twiceTheDifference none
    (Replay.ofList [.int 5, .int 3])
  obtain ⟨-, -, hstops⟩ := leaves_make_the_terms sharedAndOneMore none
    (Replay.ofList [.int 7, .int 3, .int 3, .int 9])
  obtain ⟨before, divisor, behind, terms, es, hdivides, -, hspan, -, hrun, -⟩ := hstops _ _ hzero
  exact ⟨⟨r, r', hr, htotal, hr', htotal', (hsame differenceOfTwice none r r' rfl hr hr').1⟩,
    before, divisor, behind, terms, es, hdivides, hspan.symm, hrun⟩

end Dicebox
