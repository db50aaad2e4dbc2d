import Dicebox.Expr.Read
import Mathlib

/-! # The grammar of dice expressions

A sum is products with `+` and `-` between them, a product is factors with `*` and `/` between them,
and a factor is a number, a shorthand, a dice term, a sum in brackets or a negated factor. A dice
term is an optional count, a `d`, the number of sides, and clauses, one for each modifier.

A `Phrase` is a derivation of this grammar: its leaves are tokens of the right kinds, so every
phrase is well formed, and two derivations of the same tokens are two phrases. What the grammar does
not say, the bounds on its numbers and which modifiers go together, is a condition on the dice terms
of a phrase.

- `Phrase`: the derivations, with `Throw` and `Clause` for dice terms and their modifiers.
- `Phrase.tokens`, `Phrase.tree`: what a phrase is written with, and the expression it stands for.
- `Phrase.nesting`: how many negations and brackets enclose a leaf at most.
- `Modifier.Fits`, `Throw.Within`, `Phrase.Within`: the conditions on dice terms.
- `Stops`: what may stand behind a phrase without being a part of it.
-/

namespace Dicebox

/-! ## Words -/

/-- A token of one kind. -/
abbrev Word (kind : Token.Kind) : Type := {t : Token // t.kind = kind}

namespace Token

def value (t : Token) : Int := (Nat.ofDigitChars 10 t.text 0 : Nat)

/-- The word of a shorthand in small letters. -/
def lower (t : Token) : List Char := t.text.map Char.toLower

/-- The offset just past tokens that stand behind the offset `start`. -/
def stopFrom (start : Int) (ts : List Token) : Int := ts.foldl (fun _ t => t.stop) start

/-- The stretch of text that tokens in a row cover. -/
def spanOf : List Token → Span
  | [] => ⟨0, 0⟩
  | t :: ts => ⟨t.position, stopFrom t.stop ts⟩

end Token

/-- An optional word as tokens. -/
def written {kind : Token.Kind} (w : Option (Word kind)) : List Token := (w.map Subtype.val).toList

/-- The number that is written, or else the one that stands for none. -/
def numberOr (absent : Int) (n : Option (Word .integer)) : Int :=
  (n.map fun n => n.1.value).getD absent

/-! ## Modifiers -/

/-- Numbers with commas between them. -/
structure Listing where
  first : Word .integer
  more : List (Word .comma × Word .integer)

namespace Listing

def tokens (l : Listing) : List Token := l.first.1 :: l.more.flatMap fun m => [m.1.1, m.2.1]

def values (l : Listing) : List Int := l.first.1.value :: l.more.map fun m => m.2.1.value

end Listing

/-- The kind of the keyword of a reroll. -/
def Token.Kind.rerolling (once : Bool) : Token.Kind := if once then .rerollOnce else .reroll

/-- A modifier as it is written: a keyword, and the numbers behind it. -/
inductive Clause where
  | select (rule : Selection) (keyword : Word (.select rule)) (count : Option (Word .integer))
  | explode (keyword : Word .explode) (threshold : Option (Word .integer))
  | reroll (once : Bool) (keyword : Word (.rerolling once)) (faces : Listing)
  | success (keyword : Word .success) (threshold : Word .integer)
  | failure (keyword : Word .failure) (threshold : Word .integer)

namespace Clause

def keyword : Clause → Token
  | select _ k _ | explode k _ | reroll _ k _ | success k _ | failure k _ => k.1

/-- What stands behind the keyword. -/
def arguments : Clause → List Token
  | select _ _ n | explode _ n => written n
  | reroll _ _ l => l.tokens
  | success _ n | failure _ n => [n.1]

def tokens (c : Clause) : List Token := c.keyword :: c.arguments

/-- The modifier that a clause stands for, behind a die with so many sides. A selection takes one
die and an explosion needs the highest face if nothing else is written; the faces of a reroll count
once each. -/
def modifier (limits : Limits) (sides : Int) : Clause → Modifier
  | select rule _ n => .select rule (numberOr 1 n)
  | explode _ n => .explode (numberOr sides n) limits.explosionCap
  | reroll once _ l => .reroll (l.values.toFinset.sort (· ≤ ·)) once limits.rerollCap
  | success _ n => .success n.1.value
  | failure _ n => .failure n.1.value

end Clause

def OnDie (sides n : Int) : Prop := 1 ≤ n ∧ n ≤ sides

/-- A modifier makes sense for dice with so many sides: it selects dice, its numbers are faces, and
a reroll that repeats leaves a face to settle on. -/
def Modifier.Fits (sides : Int) : Modifier → Prop
  | .select _ count => 1 ≤ count
  | .explode threshold _ => OnDie sides threshold
  | .reroll values once _ =>
    values ≠ [] ∧ values.Pairwise (· < ·) ∧ (∀ v ∈ values, OnDie sides v) ∧
      (once = false → ∃ face, OnDie sides face ∧ face ∉ values)
  | .success threshold | .failure threshold => OnDie sides threshold

/-- There is at most one modifier of each family. -/
def Compatible (ms : List Modifier) : Prop :=
  ∀ family, ms.countP (fun m => Family.of? m = some family) ≤ 1

/-! ## Dice terms -/

/-- A dice term as it is written. -/
structure Throw where
  count : Option (Word .integer)
  die : Word .die
  sides : Word .integer
  clauses : List Clause

namespace Throw

def tokens (t : Throw) : List Token :=
  written t.count ++ t.die.1 :: t.sides.1 :: t.clauses.flatMap Clause.tokens

/-- The number of dice, which is one if none is written. -/
def number (t : Throw) : Int := numberOr 1 t.count

def modifiers (limits : Limits) (t : Throw) : List Modifier :=
  t.clauses.map (Clause.modifier limits t.sides.1.value)

def dice (limits : Limits) (t : Throw) : Dice :=
  ⟨t.number, t.sides.1.value, t.modifiers limits⟩

/-- The numbers of a dice term are within the limits, as far as they are written, and its modifiers
make sense and go together. -/
structure Within (limits : Limits) (t : Throw) : Prop where
  count : ∀ n ∈ t.count, 1 ≤ n.1.value ∧ n.1.value ≤ limits.maxDice
  sides : 1 ≤ t.sides.1.value ∧ t.sides.1.value ≤ limits.maxSides
  fits : ∀ m ∈ t.modifiers limits, m.Fits t.sides.1.value
  compatible : Compatible (t.modifiers limits)

end Throw

/-! ## Phrases -/

/-- The two levels of operators. -/
inductive Level where
  | sum
  | product

/-- What may stand as a whole: a factor, or operands with the signs of one level between them. -/
inductive Category where
  | factor
  | chain (level : Level)

namespace Level

def precedence : Level → Nat
  | sum => 1
  | product => 2

/-- What the signs of a level stand between. -/
def operand : Level → Category
  | sum => .chain .product
  | product => .factor

end Level

/-- A part of an expression: a whole, or what stands in a chain behind its first operand. -/
inductive Part where
  | whole (category : Category)
  | tail (level : Level)

namespace Part

/-- How tightly the signs bind that a part may hold outside of brackets. -/
def precedence : Part → Nat
  | whole .factor => 3
  | whole (.chain l) | tail l => l.precedence

/-- What a part stands for: a whole for an expression, and a tail for what it makes of the
expression in front of it. -/
abbrev Meaning : Part → Type
  | whole _ => Expr
  | tail _ => Expr → Expr

end Part

/-- A sign between two operands of a level. -/
structure Sign (level : Level) where
  op : Operator
  word : Word (.operator op)
  binds : op.precedence = level.precedence

/-- The derivations of the grammar. -/
inductive Phrase : Part → Type where
  | constant (number : Word .integer) : Phrase (.whole .factor)
  | shorthand (word : Word .shorthand) (rule : Selection)
      (known : shorthand? word.1.lower = some rule) : Phrase (.whole .factor)
  | dice (term : Throw) : Phrase (.whole .factor)
  | brackets (opening : Word .opening) (inner : Phrase (.whole (.chain .sum)))
      (closing : Word .closing) : Phrase (.whole .factor)
  | negate (minus : Word (.operator .sub)) (operand : Phrase (.whole .factor)) :
      Phrase (.whole .factor)
  | chain {level : Level} (first : Phrase (.whole level.operand)) (more : Phrase (.tail level)) :
      Phrase (.whole (.chain level))
  | last {level : Level} : Phrase (.tail level)
  | link {level : Level} (sign : Sign level) (next : Phrase (.whole level.operand))
      (more : Phrase (.tail level)) : Phrase (.tail level)

namespace Phrase

def tokens : {p : Part} → Phrase p → List Token
  | _, constant n => [n.1]
  | _, shorthand w _ _ => [w.1]
  | _, dice t => t.tokens
  | _, brackets o inner c => o.1 :: inner.tokens ++ [c.1]
  | _, negate m e => m.1 :: e.tokens
  | _, chain first more => first.tokens ++ more.tokens
  | _, last => []
  | _, link sign next more => sign.word.1 :: next.tokens ++ more.tokens

def meaning (limits : Limits) : {p : Part} → Phrase p → p.Meaning
  | _, constant n => Expr.constant n.1.value ⟨n.1.position, n.1.stop⟩
  | _, shorthand w rule _ => Expr.dice ⟨2, 20, [.select rule 1]⟩ ⟨w.1.position, w.1.stop⟩
  | _, dice t => Expr.dice (t.dice limits) (Token.spanOf t.tokens)
  | _, brackets o inner c => (inner.meaning limits).withSpan ⟨o.1.position, c.1.stop⟩
  | _, negate m e =>
    Expr.negate (e.meaning limits) ⟨m.1.position, (e.meaning limits).span.stop⟩
  | _, chain first more => more.meaning limits (first.meaning limits)
  | _, last => fun left => left
  | _, link sign next more => fun left =>
    let right : Expr := next.meaning limits
    more.meaning limits (.binary sign.op left right ⟨left.span.start, right.span.stop⟩)

def tree (limits : Limits) {c : Category} (d : Phrase (.whole c)) : Expr := d.meaning limits

/-- The expression of a chain that so far stands for `left`. Chains are grouped to the left. -/
def onto (limits : Limits) {l : Level} (d : Phrase (.tail l)) (left : Expr) : Expr :=
  d.meaning limits left

/-- How many negations and brackets enclose a leaf at most. -/
def nesting : {p : Part} → Phrase p → Nat
  | _, constant _ | _, shorthand _ _ _ | _, dice _ | _, last => 0
  | _, brackets _ inner _ => inner.nesting + 1
  | _, negate _ e => e.nesting + 1
  | _, chain first more => max first.nesting more.nesting
  | _, link _ next more => max next.nesting more.nesting

/-- The dice terms of a phrase, apart from shorthands. -/
def throws : {p : Part} → Phrase p → List Throw
  | _, constant _ | _, shorthand _ _ _ | _, last => []
  | _, dice t => [t]
  | _, brackets _ inner _ => inner.throws
  | _, negate _ e => e.throws
  | _, chain first more => first.throws ++ more.throws
  | _, link _ next more => next.throws ++ more.throws

/-- All dice terms of a phrase are within the limits. -/
def Within (limits : Limits) {p : Part} (d : Phrase p) : Prop := ∀ t ∈ d.throws, t.Within limits

end Phrase

/-- A phrase that takes up a whole expression: sums are the outermost chains. -/
abbrev Sentence : Type := Phrase (.whole (.chain .sum))

/-! ## What follows a phrase -/

def leading (ts : List Token) : Option Token.Kind := ts.head?.map Token.kind

/-- What stands behind a phrase of this precedence and is no part of it: nothing, a closing bracket,
or a sign that binds less tightly. -/
def Stops (precedence : Nat) (ts : List Token) : Prop :=
  ∀ k, leading ts = some k → k = .closing ∨ ∃ op, k = .operator op ∧ op.precedence < precedence

end Dicebox
