import Dicebox.Decimal.Binary64
import Dicebox.Text.Blank
import Dicebox.Text.Groups

/-! # Reading decimal numbers

A decimal number has an optional sign, digits with at most one point among or around them, and an
optional exponent; or it is one of the words for infinity and for what is no number. It reads as the
nearest binary64 number, and as an infinity if it is too large.

- `readReal?`: the plain form.
- `readSignedDigits?`: an integer.
- `readStored?`: with white space around it, or with underscores between groups.
-/

namespace Dicebox

/-! ## The plain form -/

/-- A number with a sign, or an infinity in place of one that is too large. -/
def signedNearest (negative : Bool) (num den : Nat) : Float :=
  (nearest? negative num den).getD (if negative then -1.0 / 0.0 else 1.0 / 0.0)

/-- The number nearest to `d * 10 ^ e`. An exponent that settles the outcome is not carried out. -/
def signedScaled (negative : Bool) (d : Nat) (e : Int) : Float :=
  let size : Int := (Nat.toDigits 10 d).length + e
  if d = 0 ∨ size < -400 then signedNearest negative 0 1
  else if 400 < size then signedNearest negative (tenTo 400) 1
  else signedNearest negative (d * tenTo e.toNat) (tenTo (-e).toNat)

/-- A run of digits that may have a sign in front. -/
def readSignedDigits? (cs : List Char) : Option Int :=
  let (negative, ds) := match cs with
    | '-' :: r => (true, r)
    | '+' :: r => (false, r)
    | r => (false, r)
  if ds.isEmpty ∨ !ds.all Char.isDigit then none
  else
    let n : Int := Nat.ofDigitChars 10 ds 0
    some (if negative then -n else n)

/-- What may follow the digits of a number: nothing, or an exponent. -/
def readExponent? : List Char → Option Int
  | [] => some 0
  | 'e' :: r | 'E' :: r => readSignedDigits? r
  | _ => none

/-- Digits, a point among or around them, and an exponent. -/
def readMagnitude? (negative : Bool) (cs : List Char) : Option Float :=
  let (whole, rest) := cs.span Char.isDigit
  let (places, rest) := match rest with
    | '.' :: r => r.span Char.isDigit
    | r => ([], r)
  if whole.isEmpty ∧ places.isEmpty then none
  else
    (readExponent? rest).map fun e =>
      signedScaled negative (Nat.ofDigitChars 10 (whole ++ places) 0) (e - places.length)

def infinityWords : List String := ["inf", "infinity"]

def readUnsigned? (negative : Bool) (cs : List Char) : Option Float :=
  let word := String.ofList (cs.map Char.toLower)
  if word ∈ infinityWords then some (if negative then -1.0 / 0.0 else 1.0 / 0.0)
  else if word = "nan" then some (0.0 / 0.0)
  else readMagnitude? negative cs

def readReal? : List Char → Option Float
  | '-' :: r => readUnsigned? true r
  | '+' :: r => readUnsigned? false r
  | r => readUnsigned? false r

/-! ## The stored form -/

/-- A number with white space around it, or with underscores between groups of characters. -/
def readStored? (cs : List Char) : Option Float :=
  (readReal? (Text.trim Text.isSpace cs)).or ((Text.ungroup? cs).bind readReal?)

end Dicebox
