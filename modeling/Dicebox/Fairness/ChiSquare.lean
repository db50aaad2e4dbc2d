import Dicebox.Fairness.Gamma

/-! # Pearson's chi-square test

The statistic adds up the squared deviations of the counts from one expected count, each divided by
it, from left to right. Its p-value is the probability that the chi-square distribution exceeds it.

- `chiSquare`: the statistic.
- `chiSquarePValue`: its p-value.
-/

namespace Dicebox

def deviation (expected : Number) (count : Int) : Except ArithmeticFault Float :=
  match expected with
  | .whole e =>
    let square := (count - e) * (count - e)
    divided (if e < 0 then -square else square) e.natAbs
  | .real e => do
    let d := (← (Number.whole count).toFloat) - e
    let square := d * d
    if square.isInf && !d.isInf then throw .overflow
    if e == 0.0 then throw .zeroDivisor
    return square / e

/-- The statistic of counts against one expected count. Without counts it is the integer zero. -/
def chiSquare (observed : List Int) (expected : Number) : Except ArithmeticFault Number :=
  match observed with
  | [] => .ok (.whole 0)
  | counts => do
    let total ← counts.foldlM (fun total count => return total + (← deviation expected count)) 0.0
    return .real total

/-- Why a statistic has no p-value. -/
inductive PValueError where
  | tooFewDegrees (got : Int)
  | arithmetic (fault : ArithmeticFault)
  deriving DecidableEq, Repr

/-- What is said about a missing p-value; arithmetic speaks for itself. -/
def PValueError.message? : PValueError → Option String
  | tooFewDegrees got => some s!"Degrees of freedom must be at least 1, got {got}"
  | arithmetic _ => none

/-- A number brought into the range from 0 to 1. What is no number counts as 0. -/
def clamped (p : Float) : Float :=
  let p := if 0.0 < p then p else 0.0
  if p < 1.0 then p else 1.0

/-- The upper tail of the chi-square distribution with at least one degree of freedom. -/
def chiSquareTail (lib : Elementary) (statistic : Number) (degrees : Int) :
    Except ArithmeticFault Float := do
  if statistic.isNonpositive then return 1.0
  let a := (← (Number.whole degrees).toFloat) / 2.0
  let x := (← statistic.toFloat) / 2.0
  if x < a + 1.0 then return clamped (1.0 - (← Gamma.lowerGamma lib a x))
  else return clamped (← Gamma.upperGamma lib a x)

/-- The probability that a chi-square distributed number is at least the statistic. -/
def chiSquarePValue (statistic : Number) (degrees : Int) : Except PValueError Float :=
  if degrees < 1 then .error (.tooFewDegrees degrees)
  else (chiSquareTail .machine statistic degrees).mapError .arithmetic

end Dicebox
