import Dicebox.Decimal.Shortest
import Dicebox.Text.Numeral

/-! # Numbers as they are given

A number that is given from outside is an exact integer or a binary64 number, and is shown as what it
is. Binary64 arithmetic on integers goes through the nearest number and fails where there is none.

- `Number`: an integer or a binary64 number.
- `ArithmeticFault`: why arithmetic has no result.
-/

namespace Dicebox

/-- A number as it was given. -/
inductive Number where
  | whole (value : Int)
  | real (value : Float)
  deriving Repr

/-- Why arithmetic has no result. -/
inductive ArithmeticFault where
  /-- The result is too large for a binary64 number. -/
  | overflow
  /-- A divisor is zero. -/
  | zeroDivisor
  /-- A logarithm of zero. -/
  | domain
  deriving DecidableEq, Repr

namespace Number

/-- The number in a message. -/
def shown : Number → String
  | whole n => Numeral.text n
  | real x => Shortest.text x

def toFloat : Number → Except ArithmeticFault Float
  | whole n => match toFloat? n with
    | some x => .ok x
    | none => .error .overflow
  | real x => .ok x

def isNonpositive : Number → Bool
  | whole n => n ≤ 0
  | real x => x ≤ 0

end Number

/-- The quotient of integers as a binary64 number. -/
def divided (num : Int) (den : Nat) : Except ArithmeticFault Float :=
  if den = 0 then .error .zeroDivisor
  else match ratio? num den with
    | some x => .ok x
    | none => .error .overflow

end Dicebox
