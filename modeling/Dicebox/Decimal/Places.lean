import Dicebox.Decimal.Binary64

/-! # Decimals with a set number of places

The exact value of a number is rounded once, a half going to the even neighbour.

- `places`: a number with so many decimal places.
- `grouped`: an integer with a comma between each three digits.
-/

namespace Dicebox

def zeroFilled (width : Nat) (cs : List Char) : List Char :=
  List.replicate (width - cs.length) '0' ++ cs

/-- `n / 10 ^ p` in digits, with all `p` places. -/
def pointed (p n : Nat) : List Char :=
  let ds := zeroFilled (p + 1) (Nat.toDigits 10 n)
  let whole := ds.take (ds.length - p)
  if p = 0 then whole else whole ++ '.' :: ds.drop (ds.length - p)

/-- What stands for a number that is not finite. -/
def Binary64.special? : Binary64 → Option String
  | nan => some "nan"
  | infinite negative => some (if negative then "-inf" else "inf")
  | finite _ _ _ => none

def places (p : Nat) (x : Float) : String :=
  match Binary64.ofFloat x with
  | .finite negative m e =>
    let n := roundDiv (m * tenTo p * twoTo e.toNat) (twoTo (-e).toNat)
    String.ofList ((if negative then ['-'] else []) ++ pointed p n)
  | other => other.special?.getD ""

/-- Digits with a comma between each three, counted from the last. The list runs backwards. -/
def groupReversed : List Char → List Char
  | a :: b :: c :: d :: r => a :: b :: c :: ',' :: groupReversed (d :: r)
  | r => r

/-- An integer with commas between the thousands. -/
def grouped (n : Int) : String :=
  let ds := (groupReversed (Nat.toDigits 10 n.natAbs).reverse).reverse
  String.ofList (if n < 0 then '-' :: ds else ds)

end Dicebox
