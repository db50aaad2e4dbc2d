import Dicebox.Arith

/-! # Binary64 numbers and fractions

A finite binary64 number is an integer times a power of two, so it can be taken apart exactly, and
any fraction has one binary64 number nearest to it: of two that are equally near, the one with the
even mantissa. A fraction too large for all of them has none.

- `Binary64.ofFloat`: the exact value of a number.
- `floor?`: the integer part of a number.
- `roundDiv`: a quotient rounded to the nearest integer, ties to the even one.
- `nearest?`: the number nearest to a fraction.
- `sqrtNearest?`: the number nearest to the root of a fraction.
-/

namespace Dicebox

/-- A binary64 number by its exact value: `mantissa * 2 ^ exponent` with a sign, if it is finite. -/
inductive Binary64 where
  | nan
  | infinite (negative : Bool)
  | finite (negative : Bool) (mantissa : Nat) (exponent : Int)
  deriving DecidableEq, Repr

namespace Binary64

/-- Takes a number apart by its sign, exponent and fraction bits. -/
def ofFloat (x : Float) : Binary64 :=
  let bits := x.toBits.toNat
  let negative := twoTo 63 ≤ bits
  let e : Nat := bits / twoTo 52 % twoTo 11
  let m : Nat := bits % twoTo 52
  if e = 2047 then
    if m = 0 then infinite negative else nan
  else if e = 0 then finite negative m (-1074)
  else finite negative (m + twoTo 52) (e - 1075)

/-- The number `mantissa * 2 ^ exponent` with a sign, for a mantissa of at most 53 bits that has
less only at the lowest exponent; nothing if it is too large. -/
def assemble? (negative : Bool) (mantissa : Nat) (exponent : Int) : Option Float :=
  let (m, e) := if mantissa = twoTo 53 then (twoTo 52, exponent + 1) else (mantissa, exponent)
  let sign := if negative then twoTo 63 else 0
  if m < twoTo 52 then some (Float.ofBits (sign + m).toUInt64)
  else if 971 < e then none
  else some (Float.ofBits (sign + (e + 1075).toNat * twoTo 52 + (m - twoTo 52)).toUInt64)

end Binary64

/-! ## Rounding -/

/-- The greatest integer that is at most a number; an infinity and what is no number have none. -/
def floor? (x : Float) : Option Int :=
  match Binary64.ofFloat x with
  | .finite negative m e =>
    let scaled : Int := m * twoTo e.toNat
    some ((if negative then -scaled else scaled) / twoTo (-e).toNat)
  | _ => none

/-- `num / den` rounded to the nearest integer, a half to the even one. -/
def roundDiv (num den : Nat) : Nat :=
  let q := num / den
  let r := num % den
  if 2 * r < den then q
  else if den < 2 * r then q + 1
  else q + q % 2

/-- The exponent of the greatest power of two that is at most `num / den`. -/
def log2Div (num den : Nat) : Int :=
  let k : Int := (num.log2 : Int) - den.log2
  if num * twoTo (-k).toNat < den * twoTo k.toNat then k - 1 else k

/-- The number nearest to `num / den` with a sign; nothing if the fraction is too large. -/
def nearest? (negative : Bool) (num den : Nat) : Option Float :=
  if num = 0 then some (if negative then Float.ofBits (twoTo 63).toUInt64 else 0)
  else
    let e := max (log2Div num den - 52) (-1074)
    Binary64.assemble? negative (roundDiv (num * twoTo (-e).toNat) (den * twoTo e.toNat)) e

/-- The number nearest to `num / den`, for an integer numerator. -/
def ratio? (num : Int) (den : Nat) : Option Float := nearest? (num < 0) num.natAbs den

def toFloat? (n : Int) : Option Float := ratio? n 1

/-! ## Roots -/

/-- The integer root by halving the interval, `fuel` times. -/
def sqrtBetween (n : Nat) : Nat → Nat → Nat → Nat
  | 0, low, _ => low
  | fuel + 1, low, high =>
    let mid := (low + high) / 2
    if mid = low then low
    else if mid * mid ≤ n then sqrtBetween n fuel mid high
    else sqrtBetween n fuel low mid

def isqrt (n : Nat) : Nat :=
  if n = 0 then 0
  else
    let bits := n.log2 / 2 + 1
    sqrtBetween n bits (twoTo (bits - 1)) (twoTo bits)

/-- The number nearest to the root of `num / den`. The root is taken to 64 bits and marked by an odd
last digit where it goes on, so that rounding it once rounds the root itself. -/
def sqrtNearest? (num den : Nat) : Option Float :=
  if num = 0 then some 0
  else
    let shift := max 0 (64 - log2Div num den / 2)
    let scaled := num * twoTo (2 * shift.toNat)
    let root := isqrt (scaled / den)
    let exact := root * root * den = scaled
    nearest? false (2 * root + if exact then 0 else 1) (twoTo (shift.toNat + 1))

end Dicebox
