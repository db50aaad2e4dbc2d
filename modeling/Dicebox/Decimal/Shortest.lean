import Dicebox.Decimal.Places

/-! # The shortest decimal that reads back

A number is shown with the fewest significant digits that still read as the same number, and of
those texts with the one nearest to its exact value.

- `Shortest.digits`: the digits and the exponent of the first one.
- `Shortest.Layout`: where positional notation ends, and how an exponent looks.
- `Shortest.text`: a number in a layout.
-/

namespace Dicebox.Shortest

/-- The exponent of the greatest power of ten that is at most `num / den`, found upwards from an
exponent that is too low. -/
def log10From (num den : Nat) : Nat → Int → Int
  | 0, e => e
  | fuel + 1, e =>
    let up := e + 1
    if den * tenTo up.toNat ≤ num * tenTo (-up).toNat then log10From num den fuel up else e

/-- The exponent of the greatest power of ten that is at most a positive `num / den`. -/
def log10Div (num den : Nat) : Int :=
  let low := log2Div num den * 30103 / 100000 - 2
  log10From num den 8 low

/-- `d * 10 ^ e` reads as the positive number `x`. -/
def readsAs (x : Float) (d : Nat) (e : Int) : Bool :=
  match nearest? false (d * tenTo e.toNat) (tenTo (-e).toNat) with
  | some y => y == x
  | none => false

/-- The decimal with `k` digits that reads as the positive number `x = num / den`, whose first digit
has the exponent `top`: the nearer of its two neighbours on that grid, if it reads back, or else the
other one. -/
def onGrid? (x : Float) (num den : Nat) (top : Int) (k : Nat) : Option (Nat × Int) :=
  let e := top - (k : Int) + 1
  let n := num * tenTo (-e).toNat
  let d := den * tenTo e.toNat
  let low := n / d
  let near := roundDiv n d
  let far := if near = low then low + 1 else low
  if readsAs x near e then some (near, e)
  else if readsAs x far e then some (far, e)
  else none

/-- The digits of a positive finite number, without zeros at the end, and the exponent of the first
one. Seventeen digits always read back. -/
def digits (x : Float) (num den : Nat) : List Char × Int :=
  let top := log10Div num den
  let found := (List.range 17).findSome? fun k => onGrid? x num den top (k + 1)
  let (d, e) := found.getD (0, 0)
  let ds := Nat.toDigits 10 d
  let trimmed := (ds.reverse.dropWhile (· == '0')).reverse
  (trimmed, e + ds.length - 1)

/-- The decisions of a format that are not about the value. -/
structure Layout where
  /-- The lowest exponent written in positional notation. -/
  lowest : Int
  /-- The highest exponent written in positional notation. -/
  highest : Int
  /-- The least number of digits of an exponent. -/
  exponentWidth : Nat

/-- Positional between a ten-thousandth and ten to the sixteenth, exponents of two digits. -/
def plain : Layout := ⟨-4, 15, 2⟩

/-- Digits laid out around a point, or with an exponent; a whole number keeps one place. -/
def Layout.write (l : Layout) (ds : List Char) (exponent : Int) : List Char :=
  if exponent < l.lowest ∨ l.highest < exponent then
    let mantissa := match ds with
      | [] => []
      | [d] => [d]
      | d :: r => d :: '.' :: r
    mantissa ++ 'e' :: (if exponent < 0 then '-' else '+') ::
      zeroFilled l.exponentWidth (Nat.toDigits 10 exponent.natAbs)
  else if exponent < 0 then
    '0' :: '.' :: List.replicate (exponent.natAbs - 1) '0' ++ ds
  else
    let whole := exponent.toNat + 1
    let shown := ds ++ List.replicate (whole - ds.length) '0'
    let fraction := shown.drop whole
    shown.take whole ++ '.' :: if fraction.isEmpty then ['0'] else fraction

def text (x : Float) : String :=
  match Binary64.ofFloat x with
  | .finite negative m e =>
    let sign := if negative then ['-'] else []
    if m = 0 then String.ofList (sign ++ ['0', '.', '0'])
    else
      let (ds, exponent) := digits x.abs (m * twoTo e.toNat) (twoTo (-e).toNat)
      String.ofList (sign ++ plain.write ds exponent)
  | other => other.special?.getD ""

end Dicebox.Shortest
