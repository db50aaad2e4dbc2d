/-! # Powers and sums

- `twoTo` and `tenTo`: powers of two and of ten.
- `sumOf`: the sum of a list of integers.
-/

namespace Dicebox

def twoTo (k : Nat) : Nat := Nat.pow 2 k

def tenTo (k : Nat) : Nat := Nat.pow 10 k

def sumOf (ns : List Int) : Int := ns.foldr (· + ·) 0

@[simp]
theorem sumOf_nil : sumOf [] = 0 := rfl

@[simp]
theorem sumOf_cons (n : Int) (ns : List Int) : sumOf (n :: ns) = n + sumOf ns := rfl

end Dicebox
