import Dicebox.Expr.Roll
import Dicebox.Proofs.Throws

/-! # How an expression comes out

The leaves of an expression come out from left to right, each at its place, and its operators act on
their values. As for the dice of a term, the way from the expression to its terms and its value is a
relation, and what is known of a roll follows from it.

- `Expr.Folds`: an expression, the faces of its dice, its terms and its value.
- `Expr.roll_yields`: a whole expression.
-/

namespace Dicebox

open Rolling

namespace Expr

/-- An expression whose first leaf stands at this place comes to its terms, in order, and its
value. -/
inductive Folds : Expr → Nat → List Int → List Event → List TermResult → Int → Prop
  | constant {place : Nat} {v : Int} {s : Span} :
      Folds (.constant v s) place [] [] [.constant v] v
  | dice {place : Nat} {t : Dice} {s : Span} {vs : List Int} {es : List Event} {r : DiceResult} :
      (t.roll place).Yields vs es r → Folds (.dice t s) place vs es [.dice r] r.subtotal
  | negate {place : Nat} {e : Expr} {s : Span} {vs : List Int} {es : List Event}
      {terms : List TermResult} {v : Int} :
      Folds e place vs es terms v → Folds (.negate e s) place vs es terms (-v)
  | binary {place : Nat} {op : Operator} {l r : Expr} {s : Span} {vs ws : List Int}
      {es es' : List Event} {left right : List TermResult} {a b v : Int} :
      Folds l place vs es left a → Folds r (place + left.length) ws es' right b →
        op.value? a b = some v →
          Folds (.binary op l r s) place (vs ++ ws) (es ++ es') (left ++ right) v

theorem combine_yields {text : Option String} {op : Operator} {right : Expr} {a b v : Int}
    {vs : List Int} {es : List Event} (h : (combine text op right a b).Yields vs es v) :
    vs = [] ∧ es = [] ∧ op.value? a b = some v := by
  rw [combine] at h
  split at h
  · next hv =>
    cases h
    exact ⟨rfl, rfl, hv⟩
  · cases h

theorem fold_yields {e : Expr} {text : Option String} {done : List TermResult} {vs : List Int}
    {es : List Event} {p : Int × List TermResult} (h : (e.fold text done).Yields vs es p) :
    ∃ terms, p.2 = terms.reverse ++ done ∧ e.Folds done.length vs es terms p.1 := by
  induction e generalizing done vs es p with
  | constant v s =>
    cases h
    exact ⟨[.constant v], rfl, .constant⟩
  | dice t s =>
    obtain ⟨r, vs, vs', es, es', rfl, rfl, hr, h⟩ := Yields.of_bind h
    cases h
    rw [List.append_nil, List.append_nil]
    exact ⟨[.dice r], rfl, .dice hr⟩
  | negate e s ih =>
    obtain ⟨q, vs, vs', es, es', rfl, rfl, hq, h⟩ := Yields.of_bind h
    cases h
    obtain ⟨terms, hterms, hfolds⟩ := ih hq
    rw [List.append_nil, List.append_nil]
    exact ⟨terms, hterms, .negate hfolds⟩
  | binary op l r s ihl ihr =>
    obtain ⟨⟨a, done₁⟩, vs, vs', es, es', rfl, rfl, hl, h⟩ := Yields.of_bind h
    obtain ⟨⟨b, done₂⟩, ws, ws', es₁, es₂, rfl, rfl, hr, h⟩ := Yields.of_bind h
    obtain ⟨v, us, us', es₃, es₄, rfl, rfl, hv, h⟩ := Yields.of_bind h
    cases h
    obtain ⟨rfl, rfl, hvalue⟩ := combine_yields hv
    obtain ⟨left, hleft, hl⟩ := ihl hl
    obtain ⟨right, hright, hr⟩ := ihr hr
    obtain rfl : done₁ = left.reverse ++ done := hleft
    obtain rfl : done₂ = right.reverse ++ (left.reverse ++ done) := hright
    have hplace : (left.reverse ++ done).length = done.length + left.length := by
      rw [List.length_append, List.length_reverse, Nat.add_comm]
    rw [hplace] at hr
    refine ⟨left ++ right, ?_, ?_⟩
    · rw [List.reverse_append, List.append_assoc]
    · simpa only [List.append_nil] using Folds.binary hl hr hvalue

/-- **How an expression comes out**: its leaves in order, and its value, which is told at the end. -/
theorem roll_yields {e : Expr} {text : Option String} {vs : List Int} {es : List Event} {r : Roll}
    (h : (e.roll text).Yields vs es r) :
    r.canonical = e.canonical ∧ ∃ told, es = told ++ [.evaluated e.canonical r.total] ∧
      e.Folds 0 vs told r.terms r.total := by
  obtain ⟨⟨total, done⟩, vs, vs', es, es', rfl, rfl, hp, h⟩ := h.of_bind
  cases h with
  | note h =>
    cases h
    obtain ⟨terms, hterms, hfolds⟩ := fold_yields hp
    obtain rfl : done = terms.reverse := hterms.trans (List.append_nil _)
    refine ⟨rfl, es, rfl, ?_⟩
    simpa using hfolds

end Expr

end Dicebox
