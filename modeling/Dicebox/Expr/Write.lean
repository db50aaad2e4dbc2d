import Dicebox.Expr
import Dicebox.Text.Numeral

/-! # Canonical notation

Every expression has one written form: small letters, one blank on either side of a binary operator,
the count of every term and of every selection, and brackets only where precedence or grouping to
the left would otherwise change the tree.

- `Modifier.write`, `Dice.write`, `Expr.write`: the written form as characters.
- `Expr.canonical`: the written form as text.
-/

namespace Dicebox

def Selection.keyword : Selection → List Char
  | keepHighest => ['k', 'h']
  | keepLowest => ['k', 'l']
  | dropHighest => ['d', 'h']
  | dropLowest => ['d', 'l']

/-- A modifier as it is written behind a term with dice of so many sides. An explosion on the
highest face alone needs no number. -/
def Modifier.write (sides : Int) : Modifier → List Char
  | .select rule count => rule.keyword ++ Numeral.ofInt count
  | .explode threshold _ => '!' :: if threshold = sides then [] else Numeral.ofInt threshold
  | .reroll values once _ =>
    (if once then ['r', 'o'] else ['r']) ++ [','].intercalate (values.map Numeral.ofInt)
  | .success threshold => ['c', 's'] ++ Numeral.ofInt threshold
  | .failure threshold => ['c', 'f'] ++ Numeral.ofInt threshold

def Dice.write (t : Dice) : List Char :=
  Numeral.ofInt t.count ++ 'd' :: Numeral.ofInt t.sides ++ t.modifiers.flatMap (Modifier.write t.sides)

def bracketed (cs : List Char) : List Char := '(' :: cs ++ [')']

namespace Expr

/-- How tightly the root binds: an operator by its precedence, all else more tightly still. -/
def precedence : Expr → Nat
  | binary op _ _ _ => op.precedence
  | _ => 3

def isBinary : Expr → Bool
  | binary _ _ _ _ => true
  | _ => false

/-- The written form of an expression. A negated operator stands in brackets, so does a left
operand that binds less tightly than its operator, and a right operand that binds no tighter. -/
def write : Expr → List Char
  | constant v _ => Numeral.ofInt v
  | dice t _ => t.write
  | negate e _ => '-' :: if e.isBinary then bracketed e.write else e.write
  | binary op l r _ =>
    (if l.precedence < op.precedence then bracketed l.write else l.write) ++
      ' ' :: op.sign :: ' ' ::
        if r.precedence ≤ op.precedence then bracketed r.write else r.write

def canonical (e : Expr) : String := String.ofList e.write

theorem precedence_unplaced (e : Expr) : e.unplaced.precedence = e.precedence := by
  cases e <;> rfl

theorem isBinary_unplaced (e : Expr) : e.unplaced.isBinary = e.isBinary := by
  cases e <;> rfl

@[simp] theorem write_unplaced (e : Expr) : e.unplaced.write = e.write := by
  induction e with
  | constant | dice => rfl
  | negate e s ih => simp [unplaced, write, ih, isBinary_unplaced]
  | binary op l r s ihl ihr => simp [unplaced, write, ihl, ihr, precedence_unplaced]

end Expr

def Dice.canonical (t : Dice) : String := String.ofList t.write

end Dicebox
