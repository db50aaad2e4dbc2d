import Dicebox.Proofs.Confined

/-! # What an expression comes to

An expression is worked out from left to right against the state of a source. It comes to a value, or
it stops at the first division whose divisor comes to zero, and both say in which state the source is
left. A run of the expression that the source is not to blame for does one of the two, and says so in
its outcome.

- `Expr.ComesTo`: the terms and the value of an expression, and the source behind it.
- `Expr.StopsAt`: the divisor that an expression stops at, and the source behind that.
- `Rolling.run_bind`: a run of one roll after another.
- `Expr.ComesTo.run_roll`, `Expr.StopsAt.run_roll`, `Expr.comes_or_stops`: the run of an expression.
-/

namespace Dicebox

namespace Rolling

variable {α β σ : Type} [RandomSource σ]

theorem run_bind (r : Rolling α) (f : α → Rolling β) (source : σ) :
    (r.bind f).run source =
      match (r.run source).outcome with
      | .ok a =>
        let rest := (f a).run (r.run source).source
        { rest with events := (r.run source).events ++ rest.events }
      | .error err => ⟨.error err, (r.run source).source, (r.run source).events⟩ := by
  induction r generalizing source with
  | done a => rfl
  | fail e => rfl
  | draw sides next ih =>
    rw [draw_bind, run, run]
    cases RandomSource.next source 1 sides with
    | mk answer source' =>
      cases answer with
      | error f => rfl
      | ok v =>
        cases hface : faceOf? sides v with
        | none => simp only [hface]
        | some face => simp only [hface, ih]
  | note event rest ih =>
    rw [note_bind, run, ih]
    cases hrest : (rest.run source).outcome <;> simp [run, hrest]

/-- A run of two rolls that the source is not to blame for consists of two such runs. -/
theorem ofItself_of_bind {r : Rolling α} {f : α → Rolling β} {source : σ}
    (h : ((r.bind f).run source).OfItself) :
    (r.run source).OfItself ∧ ∀ a, (r.run source).outcome = .ok a →
      ((f a).run (r.run source).source).OfItself := by
  rw [run_bind] at h
  refine ⟨fun err herr => ?_, fun a ha => ?_⟩
  · rw [herr] at h
    exact h err rfl
  · rw [ha] at h
    exact h

end Rolling

open Rolling

theorem Operator.value?_eq_none {op : Operator} {a b : Int} :
    op.value? a b = none ↔ op = .div ∧ b = 0 := by
  cases op <;> simp [value?, quotient?]

namespace Expr

variable {σ : Type} [RandomSource σ]

/-- An expression whose first leaf stands at this place comes to its terms, in order, and its value.
Its dice are thrown from the first state of the source on, which is left in the second one. -/
inductive ComesTo {σ : Type} [RandomSource σ] :
    Expr → Nat → σ → List TermResult → Int → σ → Prop
  | constant {place : Nat} {v : Int} {s : Span} {source : σ} :
      ComesTo (.constant v s) place source [.constant v] v source
  | dice {place : Nat} {t : Dice} {s : Span} {source : σ} {r : DiceResult} :
      ((t.roll place).run source).outcome = .ok r →
        ComesTo (.dice t s) place source [.dice r] r.subtotal ((t.roll place).run source).source
  | negate {place : Nat} {e : Expr} {s : Span} {source source' : σ} {terms : List TermResult}
      {v : Int} :
      ComesTo e place source terms v source' →
        ComesTo (.negate e s) place source terms (-v) source'
  | binary {place : Nat} {op : Operator} {l r : Expr} {s : Span} {source source₁ source₂ : σ}
      {left right : List TermResult} {a b v : Int} :
      ComesTo l place source left a source₁ →
        ComesTo r (place + left.length) source₁ right b source₂ → op.value? a b = some v →
          ComesTo (.binary op l r s) place source (left ++ right) v source₂

/-- An expression stops at a divisor that comes to zero: all that is worked out before comes to a
value. The source is left as it is behind the divisor. -/
inductive StopsAt {σ : Type} [RandomSource σ] : Expr → Nat → σ → Expr → σ → Prop
  | negate {place : Nat} {e : Expr} {s : Span} {source source' : σ} {divisor : Expr} :
      StopsAt e place source divisor source' → StopsAt (.negate e s) place source divisor source'
  | left {place : Nat} {op : Operator} {l r : Expr} {s : Span} {source source' : σ}
      {divisor : Expr} :
      StopsAt l place source divisor source' →
        StopsAt (.binary op l r s) place source divisor source'
  | right {place : Nat} {op : Operator} {l r : Expr} {s : Span} {source source₁ source₂ : σ}
      {left : List TermResult} {a : Int} {divisor : Expr} :
      ComesTo l place source left a source₁ →
        StopsAt r (place + left.length) source₁ divisor source₂ →
          StopsAt (.binary op l r s) place source divisor source₂
  | here {place : Nat} {l r : Expr} {s : Span} {source source₁ source₂ : σ}
      {left right : List TermResult} {a : Int} :
      ComesTo l place source left a source₁ →
        ComesTo r (place + left.length) source₁ right 0 source₂ →
          StopsAt (.binary .div l r s) place source r source₂

/-! ## Runs -/

theorem length_reverse_append (left : List TermResult) {done : List TermResult} {place : Nat}
    (hdone : done.length = place) : (left.reverse ++ done).length = place + left.length := by
  rw [List.length_append, List.length_reverse, hdone, Nat.add_comm]

theorem ComesTo.run_fold {e : Expr} {place : Nat} {source source' : σ} {terms : List TermResult}
    {v : Int} (h : e.ComesTo place source terms v source') (text : Option String)
    {done : List TermResult} (hdone : done.length = place) :
    ∃ es, (e.fold text done).run source = ⟨.ok (v, terms.reverse ++ done), source', es⟩ := by
  induction h generalizing done with
  | constant => exact ⟨[], rfl⟩
  | dice hr =>
    rw [fold, hdone, run_bind, hr]
    exact ⟨_, rfl⟩
  | negate _ ih =>
    obtain ⟨es, hrun⟩ := ih hdone
    rw [fold, run_bind, hrun]
    exact ⟨_, rfl⟩
  | @binary place op l r s source source₁ source₂ left right a b v _ _ hv ihl ihr =>
    obtain ⟨es, hl⟩ := ihl hdone
    obtain ⟨es', hr⟩ := ihr (length_reverse_append _ hdone)
    have hcombine : combine text op r a b = .done v := by rw [combine, hv]
    rw [fold, run_bind, hl]
    dsimp only
    rw [run_bind, hr]
    dsimp only
    rw [hcombine, List.reverse_append, List.append_assoc]
    exact ⟨_, rfl⟩

theorem StopsAt.run_fold {e divisor : Expr} {place : Nat} {source source' : σ}
    (h : e.StopsAt place source divisor source') (text : Option String) {done : List TermResult}
    (hdone : done.length = place) :
    ∃ es, (e.fold text done).run source =
      ⟨.error (.divisionByZero divisor.span (divisor.shownIn text)), source', es⟩ := by
  induction h generalizing done with
  | negate _ ih =>
    obtain ⟨es, hrun⟩ := ih hdone
    rw [fold, run_bind, hrun]
    exact ⟨_, rfl⟩
  | left _ ih =>
    obtain ⟨es, hrun⟩ := ih hdone
    rw [fold, run_bind, hrun]
    exact ⟨_, rfl⟩
  | right hl _ ih =>
    obtain ⟨es, hleft⟩ := hl.run_fold text hdone
    obtain ⟨es', hright⟩ := ih (length_reverse_append _ hdone)
    rw [fold, run_bind, hleft]
    dsimp only
    rw [run_bind, hright]
    exact ⟨_, rfl⟩
  | here hl hr =>
    obtain ⟨es, hleft⟩ := hl.run_fold text hdone
    obtain ⟨es', hright⟩ := hr.run_fold text (length_reverse_append _ hdone)
    rw [fold, run_bind, hleft]
    dsimp only
    rw [run_bind, hright]
    exact ⟨_, rfl⟩

/-- An expression comes to a value or stops at a divisor, unless the source is to blame. -/
theorem fold_comes_or_stops {e : Expr} {text : Option String} {done : List TermResult} {source : σ}
    (h : ((e.fold text done).run source).OfItself) :
    (∃ terms v source', e.ComesTo done.length source terms v source') ∨
      ∃ divisor source', e.StopsAt done.length source divisor source' := by
  induction e generalizing done source with
  | constant v s => exact .inl ⟨_, _, _, .constant⟩
  | dice t s =>
    obtain ⟨hterm, -⟩ := ofItself_of_bind h
    cases hr : ((t.roll done.length).run source).outcome with
    | ok r => exact .inl ⟨_, _, _, .dice hr⟩
    | error err => exact absurd (Dice.ofSource_of_error hr) (hterm err hr)
  | negate e s ih =>
    rcases ih (ofItself_of_bind h).1 with ⟨terms, v, source', hcomes⟩ | ⟨divisor, source', hstops⟩
    · exact .inl ⟨_, _, _, .negate hcomes⟩
    · exact .inr ⟨_, _, .negate hstops⟩
  | binary op l r s ihl ihr =>
    obtain ⟨hl, hrest⟩ := ofItself_of_bind h
    rcases ihl hl with ⟨left, a, source₁, hleft⟩ | ⟨divisor, source', hstops⟩
    · -- the right operand goes on with the source that the left one leaves
      obtain ⟨es, hrun⟩ := hleft.run_fold text rfl
      rw [hrun] at hrest
      obtain ⟨hr, -⟩ := ofItself_of_bind (hrest _ rfl)
      have hplace := length_reverse_append left (rfl : done.length = done.length)
      rcases ihr hr with ⟨right, b, source₂, hright⟩ | ⟨divisor, source', hstops⟩
      · rw [hplace] at hright
        cases hv : op.value? a b with
        | some v => exact .inl ⟨_, _, _, .binary hleft hright hv⟩
        | none =>
          obtain ⟨rfl, rfl⟩ := Operator.value?_eq_none.mp hv
          exact .inr ⟨_, _, .here hleft hright⟩
      · rw [hplace] at hstops
        exact .inr ⟨_, _, .right hleft hstops⟩
    · exact .inr ⟨_, _, .left hstops⟩

/-- **A run of an expression that comes to a value has that value.** -/
theorem ComesTo.run_roll {e : Expr} {source source' : σ} {terms : List TermResult} {v : Int}
    (h : e.ComesTo 0 source terms v source') (text : Option String) :
    ∃ es, (e.roll text).run source =
      ⟨.ok ⟨text.getD e.canonical, e.canonical, v, terms⟩, source', es⟩ := by
  obtain ⟨es, hrun⟩ := h.run_fold text (rfl : List.length [] = 0)
  refine ⟨es ++ [.evaluated e.canonical v], ?_⟩
  rw [roll, run_bind, hrun]
  simp only [run, List.append_nil, List.reverse_reverse]

/-- **A run of an expression that stops at a divisor names the divisor.** -/
theorem StopsAt.run_roll {e divisor : Expr} {source source' : σ}
    (h : e.StopsAt 0 source divisor source') (text : Option String) :
    ∃ es, (e.roll text).run source =
      ⟨.error (.divisionByZero divisor.span (divisor.shownIn text)), source', es⟩ := by
  obtain ⟨es, hrun⟩ := h.run_fold text (rfl : List.length [] = 0)
  rw [roll, run_bind, hrun]
  exact ⟨_, rfl⟩

/-- **A run of an expression comes to a value or stops at a divisor**, unless the source is to
blame. -/
theorem comes_or_stops {e : Expr} {text : Option String} {source : σ}
    (h : ((e.roll text).run source).OfItself) :
    (∃ terms v source', e.ComesTo 0 source terms v source') ∨
      ∃ divisor source', e.StopsAt 0 source divisor source' :=
  fold_comes_or_stops (ofItself_of_bind h).1

end Expr

end Dicebox
