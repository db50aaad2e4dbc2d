import Dicebox.Expr

/-! # Dice on the table

A die on the table remembers how it came to show its face: whether it counts, whether it was thrown
again and what it showed before, and its part in an explosion. The dice of a term, in the order they
lie, make its subtotal; the terms of an expression, in the order they are written, make its total.

- `Die`: one die.
- `TermResult`: a term with its dice, or a constant.
- `Roll`: the result of an expression.
-/

namespace Dicebox

/-- A die as it ended up after all modifiers. -/
structure Die where
  /-- The face it shows. -/
  value : Int
  sides : Int
  /-- Which term of the expression it belongs to. -/
  term : Int
  /-- It counts toward the subtotal. -/
  kept : Bool := true
  /-- It set off an extra die, or would have but for the cap. -/
  exploded : Bool := false
  /-- It was thrown again at least once. -/
  rerolled : Bool := false
  /-- It was set off by another die. -/
  fromExplosion : Bool := false
  /-- The cap kept it from setting off an extra die. -/
  explosionCapped : Bool := false
  /-- The faces it showed before it was thrown again, the oldest first. -/
  rerolledFrom : List Int := []
  deriving DecidableEq, Repr

namespace Die

def isHighest (d : Die) : Bool := d.value = d.sides

/-- The die shows a 1. -/
def isLowest (d : Die) : Bool := d.value = 1

end Die

/-- How the kept dice of a term make its subtotal. -/
inductive Scoring where
  /-- Their faces are added up. -/
  | sum
  /-- They are counted. -/
  | successCount
  deriving DecidableEq, Repr

/-- The dice of a term and their subtotal. -/
structure DiceResult where
  /-- The term in canonical notation. -/
  canonical : String
  /-- The dice thrown before any explosion. -/
  count : Int
  sides : Int
  dice : List Die
  subtotal : Int
  scoring : Scoring
  deriving DecidableEq, Repr

namespace DiceResult

def kept (r : DiceResult) : List Die := r.dice.filter (·.kept)

def dropped (r : DiceResult) : List Die := r.dice.filter fun d => !d.kept

/-- The places of the dice that show their highest face. -/
def highest (r : DiceResult) : List Nat :=
  (r.dice.zipIdx.filter fun d => d.1.isHighest).map Prod.snd

end DiceResult

/-- What came of one leaf of an expression. -/
inductive TermResult where
  | constant (value : Int)
  | dice (result : DiceResult)
  deriving DecidableEq, Repr

/-- The result of an expression. -/
structure Roll where
  /-- The expression as it was written by whoever asked. -/
  expression : String
  /-- The expression in canonical notation. -/
  canonical : String
  total : Int
  /-- What came of the constants and dice terms, in the order they are written. -/
  terms : List TermResult
  deriving DecidableEq, Repr

namespace Roll

def diceTerms (r : Roll) : List DiceResult :=
  r.terms.filterMap fun
    | .dice d => some d
    | .constant _ => none

def dice (r : Roll) : List Die := r.diceTerms.flatMap (·.dice)

end Roll

end Dicebox
