import Dicebox.Proofs.Rounding
import Dicebox.Summary.Parts
import Mathlib

/-! # Numbers and their bits

A binary64 number is a word of 64 bits: a sign, an exponent of 11 bits and a fraction of 52 bits. A
word whose exponent is not all ones is read back from the number that it stands for, so a number that
is put together from a mantissa and an exponent comes apart into them again.

- `toBits_ofBits`: a word is read back.
- `Binary64.ofFloat_ofBits`: the fields of a word.
- `toInt?_of_assemble?`: the integer part of a number that is put together.
-/

open Float.Model (Format)
open Float.Model.UnpackedFloat

namespace Dicebox

/-! ## Words -/

theorem toNat_unpackExponent (v : BitVec 64) :
    (@unpackExponent .binary64 v).toNat = v.toNat / 2 ^ 52 % 2 ^ 11 := by
  simp [unpackExponent, BitVec.extractLsb_toNat, Nat.shiftRight_eq_div_pow]

/-- **A word is read back** from the number that it stands for, if its exponent is not all ones. -/
theorem toBits_ofBits {b : UInt64} (h : b.toNat / 2 ^ 52 % 2 ^ 11 ≠ 2047) :
    (Float.ofBits b).toBits = b := by
  have hfinite : @unpackExponent .binary64 b.toBitVec ≠ -1#_ := by
    intro hones
    have hexponent := toNat_unpackExponent b.toBitVec
    rw [hones] at hexponent
    exact h hexponent.symm
  show UInt64.ofBitVec (pack .binary64 (unpack .binary64 b.toBitVec)) = b
  rw [pack_unpack_of_valid ⟨fun hones => absurd hones hfinite⟩]

/-! ## Numbers put together -/

namespace Binary64

/-- A number with a sign, an exponent and a fraction is taken apart into them. -/
theorem ofFloat_ofBits (negative : Bool) {e m : Nat} (he : e < 2047) (hm : m < twoTo 52) :
    ofFloat (Float.ofBits ((if negative then twoTo 63 else 0) + e * twoTo 52 + m).toUInt64) =
      if e = 0 then finite negative m (-1074) else finite negative (m + twoTo 52) (e - 1075) := by
  have hfraction : twoTo 52 = 2 ^ 52 := rfl
  have hsign : twoTo 63 = 2 ^ 63 := rfl
  have hwidth : twoTo 11 = 2 ^ 11 := rfl
  rw [ofFloat, hsign, hfraction, hwidth]
  rw [hfraction] at hm
  generalize hs : (if negative then 2 ^ 63 else 0) = s
  have hfields : (s + e * 2 ^ 52 + m) / 2 ^ 52 % 2 ^ 11 = e ∧ (s + e * 2 ^ 52 + m) % 2 ^ 52 = m ∧
      decide (2 ^ 63 ≤ s + e * 2 ^ 52 + m) = negative ∧ s + e * 2 ^ 52 + m < 2 ^ 64 := by
    subst hs
    cases negative <;> simp only [Bool.false_eq_true, if_true, if_false, decide_eq_true_eq,
      decide_eq_false_iff_not] <;> omega
  obtain ⟨hexponent, hmantissa, hnegative, hword⟩ := hfields
  generalize s + e * 2 ^ 52 + m = w at *
  have hw : w.toUInt64.toNat = w := by
    rw [Nat.toUInt64, UInt64.toNat_ofNat', Nat.mod_eq_of_lt hword]
  have hread : (Float.ofBits w.toUInt64).toBits.toNat = w := by
    rw [toBits_ofBits, hw]
    rw [hw, hexponent]
    omega
  simp only [hread, hexponent, hmantissa, hnegative]
  rw [if_neg (by omega)]

variable {negative : Bool} {m : Nat} {e : Int} {x : Float}

/-- A mantissa that has come to 54 bits is halved. -/
theorem assemble?_full : assemble? negative (twoTo 53) e = assemble? negative (twoTo 52) (e + 1) := by
  have hne : twoTo 52 ≠ twoTo 53 := by decide
  rw [assemble?, assemble?, if_pos rfl, if_neg hne]

/-- A number that is put together is taken apart into its mantissa and exponent. -/
theorem ofFloat_of_assemble? (hlowest : -1074 ≤ e) (hlt : m < twoTo 53)
    (hnormal : twoTo 52 ≤ m ∨ e = -1074) (h : assemble? negative m e = some x) :
    ofFloat x = finite negative m e := by
  have hdouble : twoTo 53 = 2 * twoTo 52 := rfl
  rw [assemble?, if_neg hlt.ne] at h
  dsimp only at h
  split at h
  · next hless =>
    obtain rfl := Option.some.inj h
    have hword := ofFloat_ofBits negative (by decide : 0 < 2047) hless
    rw [Nat.zero_mul, Nat.add_zero, if_pos rfl] at hword
    rw [hword, hnormal.resolve_left (Nat.not_le_of_lt hless)]
  · next hmany =>
    split at h
    · cases h
    · next hsmall =>
      obtain rfl := Option.some.inj h
      rw [ofFloat_ofBits negative (by omega) (by omega), if_neg (by omega),
        Nat.sub_add_cancel (Nat.not_lt.mp hmany)]
      congr 1
      omega

end Binary64

/-! ## Integers -/

/-- Halving the mantissa and raising the exponent leaves the integer part. -/
theorem halved_eq (e : Int) :
    twoTo 52 * twoTo (e + 1).toNat / twoTo (-(e + 1)).toNat =
      twoTo 53 * twoTo e.toNat / twoTo (-e).toNat := by
  have hdouble : ∀ k, twoTo (k + 1) = 2 * twoTo k := fun k => Nat.pow_succ'
  have hmantissa : twoTo 53 = 2 * twoTo 52 := hdouble 52
  by_cases he : 0 ≤ e
  · obtain ⟨n, rfl⟩ := Int.eq_ofNat_of_zero_le he
    have hup : ((n : Int) + 1).toNat = n + 1 := by omega
    have hdown : (-((n : Int) + 1)).toNat = 0 ∧ (-(n : Int)).toNat = 0 := by omega
    rw [hup, hdown.1, hdown.2, Int.toNat_natCast, hdouble n, hmantissa,
      Nat.mul_left_comm, Nat.mul_assoc]
  · obtain ⟨n, hn⟩ := Int.eq_ofNat_of_zero_le (by omega : 0 ≤ -(e + 1))
    have hup : (e + 1).toNat = 0 ∧ e.toNat = 0 := by omega
    have hdown : (-e).toNat = n + 1 := by omega
    rw [hn, hup.1, hup.2, hdown, Int.toNat_natCast, hdouble n, hmantissa, Nat.mul_assoc,
      Nat.mul_div_mul_left _ _ two_pos]

open Binary64 in
/-- **The integer part of a number that is put together.** -/
theorem toInt?_of_assemble? {negative : Bool} {m : Nat} {e : Int} {x : Float}
    (hlowest : -1074 ≤ e) (hle : m ≤ twoTo 53) (hnormal : twoTo 52 ≤ m ∨ e = -1074)
    (h : assemble? negative m e = some x) :
    toInt? x = some (if negative then -((m * twoTo e.toNat / twoTo (-e).toNat : Nat) : Int)
      else (m * twoTo e.toNat / twoTo (-e).toNat : Nat)) := by
  rcases hle.lt_or_eq with hlt | rfl
  · rw [toInt?, ofFloat_of_assemble? hlowest hlt hnormal h]
  · rw [assemble?_full] at h
    have hlt : twoTo 52 < twoTo 53 := by decide
    rw [toInt?, ofFloat_of_assemble? (by omega) hlt (.inl le_rfl) h]
    dsimp only
    rw [halved_eq]

end Dicebox
