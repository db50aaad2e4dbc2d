import Dicebox.Term.Roll

/-! # Rolling an expression

The leaves of an expression are rolled from left to right, and its operators act on their values as
exact integers. A quotient is rounded toward zero. A divisor that comes out as zero ends the roll.

- `quotient?`, `Operator.value?`: the operators.
- `slice_natCast`: what a stretch of a text shows.
- `Expr.fold`: the value of a tree together with what came of its leaves.
- `Expr.roll`: a whole expression.
-/

namespace Dicebox

/-- The quotient rounded toward zero, if the divisor is not zero. -/
def quotient? (a b : Int) : Option Int := if b = 0 then none else some (a.tdiv b)

/-- The value of an operator, unless it divides by zero. -/
def Operator.value? (op : Operator) (a b : Int) : Option Int :=
  match op with
  | add => some (a + b)
  | sub => some (a - b)
  | mul => some (a * b)
  | div => quotient? a b

/-- The place of an offset among so many characters. One below zero counts from their end, and what
lies outside is moved to the nearer end. -/
def placeOf (size : Nat) (offset : Int) : Nat :=
  min size (if offset < 0 then size + offset else offset).toNat

/-- The characters of a text from one offset up to another. -/
def slice (text : String) (s : Span) : String :=
  let place := placeOf text.length
  String.ofList ((text.toList.take (place s.stop)).drop (place s.start))

theorem placeOf_natCast {size n : Nat} (h : n ≤ size) : placeOf size n = n := by
  unfold placeOf
  rw [if_neg (by omega), Int.toNat_natCast, Nat.min_eq_right h]

/-- Between two offsets inside the text lie the characters that they count off. -/
theorem slice_natCast {text : String} {start stop : Nat} (hstart : start ≤ text.length)
    (hstop : stop ≤ text.length) :
    slice text ⟨start, stop⟩ = String.ofList ((text.toList.take stop).drop start) := by
  simp only [slice, placeOf_natCast hstart, placeOf_natCast hstop]

namespace Expr

/-- How a divisor is shown: as it stands in the text, or in canonical notation if there is no text
or no stretch of it. -/
def shownIn (text : Option String) (e : Expr) : String :=
  match text with
  | some text => if text ≠ "" ∧ e.span.start < e.span.stop then slice text e.span else e.canonical
  | none => e.canonical

/-- The value of an operator, where `right` is the operand that `b` is the value of. -/
def combine (text : Option String) (op : Operator) (right : Expr) (a b : Int) : Rolling Int :=
  match op.value? a b with
  | some v => .done v
  | none => .fail (.divisionByZero right.span (right.shownIn text))

/-- The value of a tree, and what came of its leaves behind those before it, the newest first. -/
def fold (text : Option String) : Expr → List TermResult → Rolling (Int × List TermResult)
  | constant v _, done => .done (v, .constant v :: done)
  | dice t _, done =>
    (t.roll done.length).bind fun r => .done (r.subtotal, .dice r :: done)
  | negate e _, done => (e.fold text done).bind fun (v, done) => .done (-v, done)
  | binary op l r _, done =>
    (l.fold text done).bind fun (a, done) =>
      (r.fold text done).bind fun (b, done) =>
        (combine text op r a b).bind fun v => .done (v, done)

/-- Rolls an expression and tells what it has come to. Its text, if there is one, is kept with the
result and shows what a failing divisor looked like. -/
def roll (e : Expr) (text : Option String) : Rolling Roll :=
  (e.fold text []).bind fun (total, done) =>
    .note (.evaluated e.canonical total)
      (.done ⟨text.getD e.canonical, e.canonical, total, done.reverse⟩)

end Expr

end Dicebox
