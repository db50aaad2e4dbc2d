import Dicebox.Proofs.Grammar

/-! # Expressions with a written form that is read back

The written form of an expression says nothing about its caps, and it is read only if its numbers
are within bounds. An expression fits limits if all that the reader asks of a dice term holds for
each of its terms, and its caps are those that the reader gives.

- `Dice.Fits`, `Expr.Fits`: what an expression needs to be read back.
- `Expr.writeAs`: an expression as an operand.
- `Expr.nesting`: how many negations and brackets enclose a leaf of the written form at most.
-/

namespace Dicebox

/-! ## Dice terms -/

/-- The caps of a modifier are those that the reader gives. -/
def Modifier.Capped (limits : Limits) : Modifier → Prop
  | .explode _ cap => cap = limits.explosionCap
  | .reroll _ _ cap => cap = limits.rerollCap
  | .select _ _ | .success _ | .failure _ => True

def Modifier.numbers : Modifier → List Int
  | .select _ n | .explode n _ | .success n | .failure n => [n]
  | .reroll values _ _ => values

def Dice.numbers (t : Dice) : List Int :=
  t.count :: t.sides :: t.modifiers.flatMap Modifier.numbers

/-- A dice term is within the limits, its modifiers make sense and go together, and its numbers are
not too long to be written. -/
structure Dice.Fits (limits : Limits) (t : Dice) : Prop where
  count : 1 ≤ t.count ∧ t.count ≤ limits.maxDice
  sides : 1 ≤ t.sides ∧ t.sides ≤ limits.maxSides
  fits : ∀ m ∈ t.modifiers, m.Fits t.sides
  capped : ∀ m ∈ t.modifiers, m.Capped limits
  compatible : Compatible t.modifiers
  shown : ∀ n ∈ t.numbers, Numeral.showable n = true

theorem Modifier.Fits.pos {sides : Int} {m : Modifier} (h : m.Fits sides) :
    ∀ n ∈ m.numbers, 1 ≤ n := by
  cases m with
  | select rule count =>
    intro n hn
    obtain rfl := List.mem_singleton.mp hn
    exact h
  | explode | success | failure =>
    intro n hn
    obtain rfl := List.mem_singleton.mp hn
    exact h.1
  | reroll values once cap =>
    intro n hn
    exact (h.2.2.1 n hn).1

namespace Expr

/-- Every constant can be written as digits, and every dice term fits the limits. -/
def Fits (limits : Limits) : Expr → Prop
  | constant v _ => 0 ≤ v ∧ Numeral.showable v = true
  | dice t _ => t.Fits limits
  | negate e _ => e.Fits limits
  | binary _ l r _ => l.Fits limits ∧ r.Fits limits

/-! ## Operands -/

/-- An operand where nothing may stand outside of brackets that binds less tightly than this. -/
def writeAs (precedence : Nat) (e : Expr) : List Char :=
  if e.precedence < precedence then bracketed e.write else e.write

theorem write_negate (e : Expr) (s : Span) : (negate e s).write = '-' :: e.writeAs 3 := by
  cases e with
  | constant | dice | negate => rfl
  | binary op l r s' => cases op <;> rfl

theorem write_binary (op : Operator) (l r : Expr) (s : Span) :
    (binary op l r s).write =
      l.writeAs op.precedence ++ ' ' :: op.sign :: ' ' :: r.writeAs (op.precedence + 1) := by
  rw [write, writeAs, writeAs]
  congr 4
  exact if_congr Nat.lt_succ_iff.symm rfl rfl

/-- How many negations and brackets enclose a leaf of the written form at most. -/
def nesting : Expr → Nat
  | constant _ _ | dice _ _ => 0
  | negate e _ => (if e.precedence < 3 then e.nesting + 1 else e.nesting) + 1
  | binary op l r _ =>
    max (if l.precedence < op.precedence then l.nesting + 1 else l.nesting)
      (if r.precedence < op.precedence + 1 then r.nesting + 1 else r.nesting)

/-- The same for an expression as an operand. -/
def nestingAs (precedence : Nat) (e : Expr) : Nat :=
  if e.precedence < precedence then e.nesting + 1 else e.nesting

theorem nesting_binary (op : Operator) (l r : Expr) (s : Span) :
    (binary op l r s).nesting = max (l.nestingAs op.precedence) (r.nestingAs (op.precedence + 1)) :=
  rfl

end Expr

/-! ## What is written -/

def Modifier.bare : Modifier → Modifier
  | .explode threshold _ => .explode threshold 0
  | .reroll values once _ => .reroll values once 0
  | m => m

/-- A dice term without the caps of its modifiers. -/
def Dice.bare (t : Dice) : Dice := { t with modifiers := t.modifiers.map Modifier.bare }

theorem Modifier.write_bare (sides : Int) (m : Modifier) : m.bare.write sides = m.write sides := by
  cases m <;> rfl

theorem Dice.write_bare (t : Dice) : t.bare.write = t.write := by
  rw [write, write, bare, List.flatMap_map]
  simp only [Modifier.write_bare]

namespace Expr

/-- An expression without caps and places: what its written form says. -/
def bare : Expr → Expr
  | constant v _ => constant v ⟨0, 0⟩
  | dice t _ => dice t.bare ⟨0, 0⟩
  | negate e _ => negate e.bare ⟨0, 0⟩
  | binary op l r _ => binary op l.bare r.bare ⟨0, 0⟩

@[simp] theorem bare_withSpan (s : Span) (e : Expr) : (e.withSpan s).bare = e.bare := by
  cases e <;> rfl

@[simp] theorem bare_unplaced (e : Expr) : e.unplaced.bare = e.bare := by
  induction e with
  | constant | dice => rfl
  | negate e s ih => rw [unplaced, bare, bare, ih]
  | binary op l r s ihl ihr => rw [unplaced, bare, bare, ihl, ihr]

theorem precedence_bare (e : Expr) : e.bare.precedence = e.precedence := by
  cases e <;> rfl

theorem write_bare (e : Expr) : e.bare.write = e.write := by
  induction e with
  | constant => rfl
  | dice t s => exact t.write_bare
  | negate e s ih => rw [bare, write_negate, write_negate, writeAs, writeAs, precedence_bare, ih]
  | binary op l r s ihl ihr =>
    rw [bare, write_binary, write_binary]
    simp only [writeAs, precedence_bare, ihl, ihr]

theorem canonical_eq_of_bare {a b : Expr} (h : a.bare = b.bare) : a.canonical = b.canonical := by
  rw [canonical, canonical, ← write_bare a, h, write_bare]

end Expr

end Dicebox
