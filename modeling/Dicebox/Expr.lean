/-! # Dice expressions

A dice expression is a tree of constants, dice terms, negations and binary operations. A dice term
such as `4d6dl1` carries its modifiers in written order. Every node remembers the stretch of text
it was read from; two expressions that differ only in these spans are the same expression.

- `Expr`: the tree, with `Dice` and `Modifier` for its dice terms.
- `Expr.span` and `Expr.withSpan`: the stretch of text of a node.
- `Expr.unplaced` and `Expr.same`: equality up to spans.
- `Limits`: what a reader accepts, and the caps that it gives to modifiers.
-/

namespace Dicebox

/-! ## Modifiers -/

/-- Which dice of a term a keep or drop modifier selects. -/
inductive Selection where
  | keepHighest
  | keepLowest
  | dropHighest
  | dropLowest
  deriving DecidableEq, Repr

namespace Selection

/-- The selection keeps what it selects, and drops the rest. -/
def keeps : Selection → Bool
  | keepHighest | keepLowest => true
  | dropHighest | dropLowest => false

/-- The selection takes the highest dice, not the lowest. -/
def highest : Selection → Bool
  | keepHighest | dropHighest => true
  | keepLowest | dropLowest => false

end Selection

/-- What is done to the dice of a term after the throw. -/
inductive Modifier where
  /-- Keep or drop the `count` highest or lowest dice. -/
  | select (rule : Selection) (count : Int)
  /-- Throw an extra die for every die at or above `threshold`, at most `cap` for each die. -/
  | explode (threshold cap : Int)
  /-- Throw dice that show one of `values` again: once, or up to `cap` times. -/
  | reroll (values : List Int) (once : Bool) (cap : Int)
  /-- Count the kept dice at or above `threshold`. -/
  | success (threshold : Int)
  /-- Count the kept dice at or below `threshold`. -/
  | failure (threshold : Int)
  deriving DecidableEq, Repr

/-- A dice term: `count` dice with `sides` faces, and its modifiers in written order. -/
structure Dice where
  count : Int
  sides : Int
  modifiers : List Modifier
  deriving DecidableEq, Repr

/-! ## The tree -/

/-- The four operators. -/
inductive Operator where
  | add
  | sub
  | mul
  | div
  deriving DecidableEq, Repr

namespace Operator

def sign : Operator → Char
  | add => '+'
  | sub => '-'
  | mul => '*'
  | div => '/'

/-- How tightly an operator binds its operands. -/
def precedence : Operator → Nat
  | add | sub => 1
  | mul | div => 2

end Operator

/-- A stretch of text, from the offset `start` up to but not including `stop`. An offset below zero
counts from the end of the text. -/
structure Span where
  start : Int
  stop : Int
  deriving DecidableEq, Repr

/-- A dice expression, each node with its stretch of text. -/
inductive Expr where
  | constant (value : Int) (span : Span)
  | dice (term : Dice) (span : Span)
  | negate (operand : Expr) (span : Span)
  | binary (op : Operator) (left right : Expr) (span : Span)
  deriving DecidableEq, Repr

namespace Expr

def span : Expr → Span
  | constant _ s | dice _ s | negate _ s | binary _ _ _ s => s

/-- The same expression with another stretch of text at its root. -/
def withSpan (s : Span) : Expr → Expr
  | constant v _ => constant v s
  | dice t _ => dice t s
  | negate e _ => negate e s
  | binary op l r _ => binary op l r s

def unplaced : Expr → Expr
  | constant v _ => constant v ⟨0, 0⟩
  | dice t _ => dice t ⟨0, 0⟩
  | negate e _ => negate e.unplaced ⟨0, 0⟩
  | binary op l r _ => binary op l.unplaced r.unplaced ⟨0, 0⟩

/-- Two expressions that differ at most in their spans. -/
def same (a b : Expr) : Bool := a.unplaced = b.unplaced

@[simp] theorem span_withSpan (s : Span) (e : Expr) : (e.withSpan s).span = s := by
  cases e <;> rfl

@[simp] theorem unplaced_withSpan (s : Span) (e : Expr) : (e.withSpan s).unplaced = e.unplaced := by
  cases e <;> rfl

theorem same_iff {a b : Expr} : a.same b = true ↔ a.unplaced = b.unplaced := by
  simp [same]

end Expr

/-! ## Limits -/

/-- The limits that expressions are read under, and the caps given to their modifiers. -/
structure Limits where
  /-- The most dice in one term. -/
  maxDice : Int := 1000
  /-- The most faces of a die. -/
  maxSides : Int := 1000
  /-- The most extra dice that one die may set off. -/
  explosionCap : Int := 100
  /-- The most times that a repeating reroll throws one die again. -/
  rerollCap : Int := 100
  /-- The most tokens of one expression, the end marker included. -/
  maxTokens : Int := 1024
  deriving DecidableEq, Repr

end Dicebox
