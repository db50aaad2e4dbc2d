import Dicebox.Arith
import Dicebox.Decimal.Binary64

/-! # Sums in parts

A sum of integers fits into binary64 numbers without loss if it is kept in parts. A number is added
to one part after the other: what an addition is off by when it is rounded stays behind as a part,
and the rounded sum goes on to the next part. No rounded sum on the way may be too large, even if
later numbers would make it small again.

- `rounded?`: the integer that stands for another one among the binary64 numbers.
- `Parts.add?`, `Parts.addAll?`: numbers added to a sum in parts.
- `Parts.sum_add?`, `Parts.sum_addAll?`: nothing is lost.
-/

namespace Dicebox

/-- The integer that a binary64 number stands for, rounded toward zero. -/
def toInt? (x : Float) : Option Int :=
  match Binary64.ofFloat x with
  | .finite negative m e =>
    let n := m * twoTo e.toNat / twoTo (-e).toNat
    some (if negative then -n else n)
  | _ => none

/-- The integer that the nearest binary64 number stands for, if there is one. -/
def rounded? (n : Int) : Option Int := toFloat? n >>= toInt?

/-- The parts of a sum, which add up to it. -/
abbrev Parts := List Int

namespace Parts

/-- Adds a number to a sum in parts; nothing if a sum on the way is too large. -/
def add? : Parts → Int → Option Parts
  | [], n => some (if n = 0 then [] else [n])
  | part :: parts, n =>
    (rounded? (n + part)).bind fun next =>
      let off := n + part - next
      (add? parts next).map fun more => if off = 0 then more else off :: more

/-- Adds numbers to a sum in parts, one after the other. -/
def addAll? (parts : Parts) (ns : List Int) : Option Parts := ns.foldlM add? parts

theorem sum_add? {parts more : Parts} {n : Int} (h : parts.add? n = some more) :
    sumOf more = sumOf parts + n := by
  induction parts generalizing n more with
  | nil =>
    obtain rfl := Option.some.inj h
    split <;> simp [*]
  | cons part parts ih =>
    obtain ⟨next, -, h⟩ := Option.bind_eq_some_iff.mp h
    obtain ⟨rest, hrest, rfl⟩ := Option.map_eq_some_iff.mp h
    have sum := ih hrest
    split <;> simp only [sumOf_cons] <;> omega

/-- The parts of a sum add up to all that was added. -/
theorem sum_addAll? {parts more : Parts} {ns : List Int} (h : parts.addAll? ns = some more) :
    sumOf more = sumOf parts + sumOf ns := by
  induction ns generalizing parts with
  | nil =>
    obtain rfl := Option.some.inj h
    simp
  | cons n ns ih =>
    rw [addAll?, List.foldlM_cons] at h
    obtain ⟨next, hnext, h⟩ := Option.bind_eq_some_iff.mp h
    rw [ih h, sum_add? hnext, sumOf_cons]
    omega

end Parts

end Dicebox
