import Dicebox.Proofs.Floats

/-! # Operations round faithfully

An operation works out more bits than fit and keeps what tells whether any were left over. Rounding to
an integer mantissa never crosses an integer, so the number that comes of it never crosses anything
that can be held.

- `Rounded`: rounding to an integer.
- `Cut`: a mantissa cut off a real number, with the bits that tell what is left over.
- `valued_roundWithAccuracy`: rounding is faithful.
- `Holds.add`, `Holds.sub`, `Holds.mul`, `Holds.div`: so are the operations.
-/

open Float.Model (Format UnpackedFloat totalExponent)
open Float.Model.UnpackedFloat

namespace Dicebox

/-! ## Cutting -/

/-- A real number is rounded to an integer without crossing another one. -/
structure Rounded (y : ℝ) (n : Nat) : Prop where
  le : ∀ k : ℤ, k ≤ y → k ≤ (n : ℤ)
  ge : ∀ k : ℤ, y ≤ k → (n : ℤ) ≤ k

theorem rounded_of_near {y : ℝ} {n : Nat} (h : |n - y| ≤ 1 / 2) : Rounded y n := by
  obtain ⟨hbelow, habove⟩ := abs_le.mp h
  constructor
  · intro k hk
    have hlt : (k : ℝ) < ((n + 1 : ℤ) : ℝ) := by
      push_cast
      linarith
    exact Int.lt_add_one_iff.mp (Int.cast_lt.mp hlt)
  · intro k hk
    have hlt : ((n : ℤ) : ℝ) < ((k + 1 : ℤ) : ℝ) := by
      push_cast
      linarith
    exact Int.lt_add_one_iff.mp (Int.cast_lt.mp hlt)

/-- A mantissa cut off a real number, with the bits that tell whether anything is left over. -/
structure Cut (em : ExtendedMantissa) (y : ℝ) : Prop where
  le : em.mantissa ≤ y
  lt : y < em.mantissa + 1
  exact_iff : y = em.mantissa ↔ (em.roundBit || em.stickyBit) = false

namespace Cut

variable {em : ExtendedMantissa} {y : ℝ}

theorem exact (m : Nat) : Cut (.ofMantissaAndAccuracy m .exact) m :=
  ⟨le_rfl, lt_add_one _, iff_of_true rfl rfl⟩

/-- The bit that is shifted out tells of itself, and the bits behind it stay told of. -/
theorem shiftRightOne (h : Cut em y) : Cut em.shiftRightOne (y / 2) := by
  obtain ⟨m, round, sticky⟩ := em
  obtain ⟨hle, hlt, hexact⟩ := h
  have hsplit : (m : ℝ) = 2 * (m / 2 : ℕ) + (m % 2 : ℕ) := by
    exact_mod_cast (Nat.div_add_mod m 2).symm
  dsimp only [ExtendedMantissa.shiftRightOne] at *
  rcases Nat.mod_two_eq_zero_or_one m with hbit | hbit
  · rw [hbit, Nat.cast_zero, add_zero] at hsplit
    refine ⟨by linarith, by linarith, ?_⟩
    rw [hbit, bne_self_eq_false, Bool.false_or, ← hexact]
    constructor <;> intro <;> linarith
  · rw [hbit, Nat.cast_one] at hsplit
    refine ⟨by linarith, by linarith, ?_⟩
    rw [hbit]
    exact iff_of_false (fun h => by linarith) (by simp)

theorem shiftRight (h : Cut em y) (k : Nat) : Cut (em >>> k) (y / 2 ^ k) := by
  induction k with
  | zero => rwa [pow_zero, div_one]
  | succ k ih =>
    rw [pow_succ, ← div_div]
    exact ih.shiftRightOne

theorem rounded_bounds (em : ExtendedMantissa) :
    em.mantissa ≤ em.roundedMantissa ∧ em.roundedMantissa ≤ em.mantissa + 1 := by
  obtain ⟨m, round, sticky⟩ := em
  cases round <;> cases sticky <;>
    simp only [ExtendedMantissa.roundedMantissa, ExtendedMantissa.accuracy,
      Accuracy.roundToNearestEven] <;> omega

theorem rounded_of_exact {em : ExtendedMantissa} (h : (em.roundBit || em.stickyBit) = false) :
    em.roundedMantissa = em.mantissa := by
  obtain ⟨m, round, sticky⟩ := em
  obtain ⟨rfl, rfl⟩ := Bool.or_eq_false_iff.mp h
  rfl

theorem rounded (h : Cut em y) : Rounded y em.roundedMantissa := by
  obtain ⟨hlow, hhigh⟩ := rounded_bounds em
  constructor
  · intro k hk
    have hlt : k < em.mantissa + 1 := by
      have := hk.trans_lt h.lt
      exact_mod_cast this
    omega
  · intro k hk
    have hle : (em.mantissa : ℤ) ≤ k := by
      have := h.le.trans hk
      exact_mod_cast this
    rcases hle.eq_or_lt with heq | hlt
    · have hexact : y = em.mantissa :=
        le_antisymm (hk.trans_eq (by rw [← heq, Int.cast_natCast])) h.le
      rw [rounded_of_exact (h.exact_iff.mp hexact)]
      exact hle
    · omega

end Cut

/-! ## Rounding -/

/-- The exponent that a number is rounded to. -/
def Binary64.exponentFor (m : Nat) (e : Int) : Int := max (m.log2 + e - 52) (-1074)

theorem targetExponent_eq (m : Nat) (e : Int) :
    Format.binary64.targetExponent (totalExponent m e) = Binary64.exponentFor m e := by
  show max ((m.log2 + 1 + e : Int) - 53) (-1074) = max (m.log2 + e - 52) (-1074)
  congr 1
  omega

theorem shiftToTargetExponent_eq {m : Nat} {e : Int} {accuracy : Accuracy}
    (h : e ≤ Binary64.exponentFor m e) :
    shiftToTargetExponent .binary64 m e accuracy =
      (ExtendedMantissa.ofMantissaAndAccuracy m accuracy >>> (Binary64.exponentFor m e - e).toNat,
        Binary64.exponentFor m e) := by
  have hsum : e + ((Binary64.exponentFor m e - e).toNat : Int) = Binary64.exponentFor m e := by omega
  rw [shiftToTargetExponent, shiftToExponent, targetExponent_eq, hsum]

theorem shiftToTargetExponent_of_lt {m : Nat} {e : Int} (hm : m < 2 ^ 53) (he : -1074 ≤ e) :
    shiftToTargetExponent .binary64 m e .exact = (⟨m, false, false⟩, e) := by
  have hlog : m.log2 < 53 := by
    rcases Nat.eq_zero_or_pos m with rfl | hpos
    · decide
    · exact (Nat.log2_lt hpos.ne').mpr hm
  have hshift : (Binary64.exponentFor m e - e).toNat = 0 := by
    rw [Binary64.exponentFor]
    omega
  rw [shiftToTargetExponent, shiftToExponent, targetExponent_eq, hshift]
  congr 1
  omega

/-- The number of 53 bits or fewer that a number is cut to. -/
structure Scaled (y : ℝ) (e : Int) : Prop where
  lowest : -1074 ≤ e
  lt : y < 2 ^ 53
  normal : 2 ^ 52 ≤ y ∨ e = -1074

theorem scaled_of_cut {m : Nat} {e : Int} {accuracy : Accuracy} {c : ℝ}
    (h : Cut (.ofMantissaAndAccuracy m accuracy) c) (he : e ≤ Binary64.exponentFor m e) :
    Scaled (c / 2 ^ (Binary64.exponentFor m e - e).toNat) (Binary64.exponentFor m e) := by
  have hmantissa : (ExtendedMantissa.ofMantissaAndAccuracy m accuracy).mantissa = m := by
    rcases accuracy with _ | (_ | _ | _) <;> rfl
  have hlow := h.le
  have hhigh := h.lt
  rw [hmantissa] at hlow hhigh
  obtain ⟨t, ht⟩ : ∃ t, t = Binary64.exponentFor m e := ⟨_, rfl⟩
  obtain ⟨d, hd⟩ : ∃ d, d = (t - e).toNat := ⟨_, rfl⟩
  rw [← ht] at he ⊢
  rw [← hd]
  rw [Binary64.exponentFor] at ht
  have hpow : (0 : ℝ) < 2 ^ d := pow_pos two_pos d
  refine ⟨by omega, ?_, ?_⟩
  · rw [div_lt_iff₀ hpow, ← pow_add]
    calc c < m + 1 := hhigh
      _ ≤ 2 ^ (m.log2 + 1) := by exact_mod_cast Nat.lt_log2_self (n := m)
      _ ≤ 2 ^ (53 + d) := pow_le_pow_right₀ one_le_two (by omega)
  · refine or_iff_not_imp_right.mpr fun hnormal => ?_
    have hm : m ≠ 0 := by
      rintro rfl
      have : Nat.log2 0 = 0 := rfl
      omega
    rw [le_div_iff₀ hpow, ← pow_add]
    calc (2 : ℝ) ^ (52 + d) ≤ 2 ^ m.log2 := pow_le_pow_right₀ one_le_two (by omega)
      _ ≤ m := by exact_mod_cast Nat.log2_self_le hm
      _ ≤ c := hlow

/-- **What comes of rounding to integers never crosses anything that can be held.** -/
theorem Scaled.faithful {y : ℝ} {e : Int} {n : Nat} (h : Scaled y e) (hround : Rounded y n) :
    Faithful (y * 2 ^ e) (n * 2 ^ e) := by
  have hpow : (0 : ℝ) < 2 ^ e := zpow_pos two_pos e
  have hcast : ∀ k : ℤ, (k ≤ y → (k : ℝ) ≤ n) ∧ (y ≤ k → (n : ℝ) ≤ k) := fun k =>
    ⟨fun hk => by exact_mod_cast hround.le k hk, fun hk => by exact_mod_cast hround.ge k hk⟩
  rintro g ⟨m', e', hm', he', rfl⟩
  rcases le_or_gt e e' with hle | hlt
  · -- On the same scale it is an integer.
    obtain ⟨d, rfl⟩ := Int.le.dest hle
    have hscale : (m' * 2 ^ (e + d) : ℝ) = (m' * 2 ^ d : ℤ) * 2 ^ e := by
      push_cast
      rw [zpow_add₀ two_ne_zero, zpow_natCast]
      ring
    rw [hscale]
    exact ⟨fun hk => mul_le_mul_of_nonneg_right
        ((hcast _).1 (le_of_mul_le_mul_right hk hpow)) hpow.le,
      fun hk => mul_le_mul_of_nonneg_right ((hcast _).2 (le_of_mul_le_mul_right hk hpow)) hpow.le⟩
  · -- On a smaller scale it is at most the least mantissa of 53 bits.
    have hfull : 2 ^ 52 ≤ y := h.normal.resolve_right (by omega)
    have hsmall : (m' * 2 ^ e' : ℝ) ≤ 2 ^ 52 * 2 ^ e := by
      have hbits : (m' : ℝ) ≤ 2 ^ 53 := by exact_mod_cast (le_abs_self m').trans hm'
      calc (m' * 2 ^ e' : ℝ) ≤ 2 ^ 53 * 2 ^ e' :=
            mul_le_mul_of_nonneg_right hbits (zpow_pos two_pos _).le
        _ = 2 ^ 52 * 2 ^ (e' + 1) := by rw [zpow_add_one₀ two_ne_zero]; ring
        _ ≤ 2 ^ 52 * 2 ^ e := mul_le_mul_of_nonneg_left
            (zpow_le_zpow_right₀ one_le_two (by omega)) (by norm_num)
    have hleast := hcast (2 ^ 52 : ℤ)
    rw [Int.cast_pow, Int.cast_ofNat] at hleast
    constructor
    · intro _
      exact hsmall.trans (mul_le_mul_of_nonneg_right (hleast.1 hfull) hpow.le)
    · intro hk
      have hleft : y ≤ 2 ^ 52 := le_of_mul_le_mul_right (hk.trans hsmall) hpow
      have hdown := mul_le_mul_of_nonneg_right (hleast.2 hleft) hpow.le
      have hup := mul_le_mul_of_nonneg_right hfull hpow.le
      linarith

theorem signed_zero (s : Sign) : signed s 0 = 0 := by
  cases s
  · exact neg_zero
  · rfl

theorem Scaled.valued {y : ℝ} {e : Int} {n : Nat} (h : Scaled y e) (hbound : y * 2 ^ e ≤ 2 ^ 1023)
    (hround : Rounded y n) (s : Sign) :
    Valued (let final := shiftToTargetExponent .binary64 n e .exact
      if h : final.1.mantissa = 0 then .zero s
      else .finite s final.1.mantissa final.2 (Nat.pos_of_ne_zero h)) (signed s (n * 2 ^ e)) := by
  have hpow : (0 : ℝ) < 2 ^ e := zpow_pos two_pos e
  have hnormal : 2 ^ 52 ≤ n ∨ e = -1074 := h.normal.imp_left fun hy => by
    have := hround.le (2 ^ 52) (by rwa [Int.cast_pow, Int.cast_ofNat])
    omega
  have hhighest : e ≤ 971 ∧ (e = 971 → n ≤ 2 ^ 52) := by
    rcases h.normal with hy | rfl
    · have hle : (2 : ℝ) ^ (52 + e) ≤ 2 ^ (1023 : ℤ) := by
        rw [zpow_add₀ two_ne_zero, zpow_ofNat, zpow_ofNat]
        exact (mul_le_mul_of_nonneg_right hy hpow.le).trans hbound
      have he : 52 + e ≤ 1023 := (zpow_le_zpow_iff_right₀ one_lt_two).mp hle
      refine ⟨by omega, ?_⟩
      rintro rfl
      have hy' : y ≤ 2 ^ 52 := by
        have hsplit : (2 : ℝ) ^ 1023 = 2 ^ 52 * 2 ^ (971 : ℤ) := by
          rw [← zpow_natCast, ← zpow_natCast, ← zpow_add₀ two_ne_zero]
          rfl
        exact le_of_mul_le_mul_right (hbound.trans_eq hsplit) hpow
      have := hround.ge (2 ^ 52) (by rwa [Int.cast_pow, Int.cast_ofNat])
      omega
    · exact ⟨by norm_num, by norm_num⟩
  have hfull : n ≤ 2 ^ 53 := by
    have := hround.ge (2 ^ 53) (by rw [Int.cast_pow, Int.cast_ofNat]; exact h.lt.le)
    omega
  rcases hfull.lt_or_eq with hlt | rfl
  · rw [shiftToTargetExponent_of_lt hlt h.lowest]
    dsimp only
    split
    · next hzero =>
      rw [hzero, Nat.cast_zero, zero_mul, signed_zero]
      exact .zero s
    · exact .finite s _ ⟨h.lowest, hhighest.1, hlt, hnormal⟩
  · -- The mantissa has become a bit too long.
    have hexponent : Binary64.exponentFor (2 ^ 53) e = e + 1 := by
      have hlog : Nat.log2 (2 ^ 53) = 53 := Nat.log2_two_pow
      have := h.lowest
      rw [Binary64.exponentFor, hlog]
      omega
    have hnext : shiftToTargetExponent .binary64 (2 ^ 53) e .exact = (⟨2 ^ 52, false, false⟩, e + 1) := by
      rw [shiftToTargetExponent_eq (by omega), hexponent, add_sub_cancel_left]
      rfl
    have hvalue : ((2 ^ 53 : ℕ) * 2 ^ e : ℝ) = (2 ^ 52 : ℕ) * 2 ^ (e + 1) := by
      rw [zpow_add_one₀ two_ne_zero]
      push_cast
      ring
    rw [hnext, hvalue]
    have := h.lowest
    exact .finite s _ ⟨by omega, by omega, by norm_num, .inl le_rfl⟩

/-- **Rounding is faithful.** -/
theorem valued_roundWithAccuracy (s : Sign) {m : Nat} {e : Int} {accuracy : Accuracy} {c : ℝ}
    (h : Cut (.ofMantissaAndAccuracy m accuracy) c) (he : e ≤ Binary64.exponentFor m e)
    (hbound : c * 2 ^ e ≤ 2 ^ 1023) :
    ∃ r, Valued (roundWithAccuracy .binary64 s m e accuracy) (signed s r) ∧
      Faithful (c * 2 ^ e) r := by
  have hscaled := scaled_of_cut h he
  have hround := (h.shiftRight (Binary64.exponentFor m e - e).toNat).rounded
  have hsum : e + ((Binary64.exponentFor m e - e).toNat : Int) = Binary64.exponentFor m e := by omega
  have hvalue : c * 2 ^ e =
      c / 2 ^ (Binary64.exponentFor m e - e).toNat * 2 ^ Binary64.exponentFor m e := by
    rw [← hsum, zpow_add₀ two_ne_zero, zpow_natCast, hsum]
    field_simp
  rw [roundWithAccuracy, shiftToTargetExponent_eq he, hvalue]
  rw [hvalue] at hbound
  exact ⟨_, hscaled.valued hbound hround s, hscaled.faithful hround⟩

theorem log2_shiftLeft {m : Nat} (hm : 0 < m) (k : Nat) : (m <<< k).log2 = m.log2 + k := by
  rw [Nat.shiftLeft_eq]
  induction k with
  | zero => rw [pow_zero, mul_one, add_zero]
  | succ k ih =>
    rw [pow_succ', mul_left_comm, Nat.log2_two_mul (by positivity), ih, add_assoc]

theorem decreaseExponent_value {m : Nat} {e t : Int} (h : t ≤ e) :
    ((decreaseExponent m e t).1 * 2 ^ t : ℝ) = m * 2 ^ e := by
  have hsum : e = t + (e - t).toNat := by omega
  show ((m <<< (e - t).toNat : ℕ) * 2 ^ t : ℝ) = m * 2 ^ e
  rw [Nat.shiftLeft_eq, hsum, zpow_add₀ two_ne_zero, zpow_natCast, add_sub_cancel_left,
    Int.toNat_natCast]
  push_cast
  ring

theorem valued_round (s : Sign) {m : Nat} {e : Int} (hm : 0 < m)
    (hbound : (m * 2 ^ e : ℝ) ≤ 2 ^ 1023) :
    ∃ r, Valued (UnpackedFloat.round .binary64 s m e) (signed s r) ∧ Faithful (m * 2 ^ e) r := by
  rw [UnpackedFloat.round, targetExponent_eq, decreaseExponent]
  obtain ⟨k, hk⟩ : ∃ k, k = (e - Binary64.exponentFor m e).toNat := ⟨_, rfl⟩
  rw [← hk]
  dsimp only
  have hvalue : (m * 2 ^ e : ℝ) = (m <<< k : ℕ) * 2 ^ (e - k) := by
    rw [Nat.shiftLeft_eq, zpow_sub₀ two_ne_zero, zpow_natCast]
    push_cast
    field_simp
  have hexponent : e - k ≤ Binary64.exponentFor (m <<< k) (e - k) := by
    rw [Binary64.exponentFor] at hk ⊢
    rw [log2_shiftLeft hm]
    omega
  rw [hvalue] at hbound ⊢
  exact valued_roundWithAccuracy s (Cut.exact _) hexponent hbound

theorem valued_normalize {n : Int} {e : Int} (zero : Sign) (hbound : |(n * 2 ^ e : ℝ)| ≤ 2 ^ 1023) :
    ∃ r, Valued (UnpackedFloat.normalize .binary64 n e zero) r ∧ Faithful (n * 2 ^ e) r := by
  have hpow : (0 : ℝ) < 2 ^ e := zpow_pos two_pos e
  rcases lt_trichotomy n 0 with hn | rfl | hn
  · have hvalue : (n * 2 ^ e : ℝ) = -((-n).toNat * 2 ^ e) := by
      have hnat : (((-n).toNat : ℤ) : ℝ) = -n := by
        rw [Int.toNat_of_nonneg (by omega), Int.cast_neg]
      rw [Int.cast_natCast] at hnat
      rw [hnat]
      ring
    rw [hvalue, abs_neg, abs_of_nonneg (by positivity)] at hbound
    obtain ⟨r, hr, hfaithful⟩ := valued_round .negative (by omega) hbound
    rw [UnpackedFloat.normalize, compare_lt_iff_lt.mpr hn, hvalue]
    exact ⟨_, hr, hfaithful.neg⟩
  · refine ⟨0, .zero zero, ?_⟩
    rw [Int.cast_zero, zero_mul]
    exact .refl 0
  · have hvalue : (n * 2 ^ e : ℝ) = n.toNat * 2 ^ e := by
      have hnat : ((n.toNat : ℤ) : ℝ) = n := by rw [Int.toNat_of_nonneg hn.le]
      rw [Int.cast_natCast] at hnat
      rw [hnat]
    rw [hvalue, abs_of_nonneg (by positivity)] at hbound
    obtain ⟨r, hr, hfaithful⟩ := valued_round .positive (by omega) hbound
    rw [UnpackedFloat.normalize, compare_gt_iff_gt.mpr hn, hvalue]
    exact ⟨_, hr, hfaithful⟩

/-! ## The operations -/

section Signs

variable (s s' : Sign) (c c' : ℝ)

theorem signed_mul_signed : signed s c * signed s' c' = signed (s * s') (c * c') := by
  cases s <;> cases s'
  · exact neg_mul_neg c c'
  · exact neg_mul c c'
  · exact mul_neg c c'
  · rfl

theorem signed_div_signed : signed s c / signed s' c' = signed (s / s') (c / c') := by
  cases s <;> cases s'
  · exact neg_div_neg_eq c c'
  · exact neg_div c' c
  · exact div_neg c
  · rfl

theorem abs_signed : |signed s c| = |c| := by
  cases s
  · exact abs_neg c
  · rfl

end Signs

theorem valued_mul {u v : UnpackedFloat} {a b : ℝ} (h : Valued u a) (h' : Valued v b)
    (hbound : |a * b| ≤ 2 ^ 1023) :
    ∃ r, Valued (UnpackedFloat.mul .binary64 u v) r ∧ Faithful (a * b) r := by
  cases h with
  | zero s =>
    rw [zero_mul]
    cases h' <;> exact ⟨0, .zero _, .refl 0⟩
  | @finite s m e hm h =>
    cases h' with
    | zero s' =>
      rw [mul_zero]
      exact ⟨0, .zero _, .refl 0⟩
    | @finite s' m' e' hm' h' =>
      have hvalue : (m * 2 ^ e * (m' * 2 ^ e') : ℝ) = (m * m' : ℕ) * 2 ^ (e + e') := by
        rw [zpow_add₀ two_ne_zero]
        push_cast
        ring
      rw [signed_mul_signed, abs_signed, hvalue, abs_of_nonneg (by positivity)] at hbound
      rw [signed_mul_signed, hvalue]
      have hexponent : e + e' ≤ Binary64.exponentFor (m * m') (e + e') := by
        have hlong : 2 ^ 52 ≤ m * m' ∨ e + e' ≤ -1074 := by
          rcases h.normal with hm'' | he
          · exact .inl (hm''.trans (Nat.le_mul_of_pos_right m hm'))
          · rcases h'.normal with hm'' | he'
            · exact .inl (hm''.trans (Nat.le_mul_of_pos_left m' hm))
            · omega
        rw [Binary64.exponentFor]
        rcases hlong with hlong | hlow
        · have := (Nat.le_log2 (Nat.mul_pos hm hm').ne').mpr hlong
          omega
        · omega
      obtain ⟨r, hr, hfaithful⟩ :=
        valued_roundWithAccuracy (s * s') (Cut.exact _) hexponent hbound
      exact ⟨_, hr, hfaithful.signed _⟩

theorem Valued.neg {u : UnpackedFloat} {a : ℝ} (h : Valued u a) : Valued u.neg (-a) := by
  cases h with
  | zero s =>
    rw [neg_zero]
    exact .zero _
  | finite s hm h =>
    rw [← signed_neg]
    exact .finite _ hm h

theorem Valued.isInf_eq {u : UnpackedFloat} {a : ℝ} (h : Valued u a) : u.isInf = false := by
  cases h <;> rfl

theorem Valued.isNaN_eq {u : UnpackedFloat} {a : ℝ} (h : Valued u a) : u.isNaN = false := by
  cases h <;> rfl

theorem cast_apply_decreaseExponent (s : Sign) {m : Nat} {e t : Int} (h : t ≤ e) :
    ((s.apply (decreaseExponent m e t).1 : ℤ) * 2 ^ t : ℝ) = signed s (m * 2 ^ e) := by
  rw [← decreaseExponent_value h]
  cases s
  · show ((-((decreaseExponent m e t).1 : ℤ) : ℤ) * 2 ^ t : ℝ) = -((decreaseExponent m e t).1 * 2 ^ t)
    push_cast
    exact neg_mul _ _
  · show ((((decreaseExponent m e t).1 : ℤ) : ℤ) * 2 ^ t : ℝ) = (decreaseExponent m e t).1 * 2 ^ t
    push_cast
    rfl

theorem valued_add {u v : UnpackedFloat} {a b : ℝ} (h : Valued u a) (h' : Valued v b)
    (hbound : |a + b| ≤ 2 ^ 1023) :
    ∃ r, Valued (UnpackedFloat.add .binary64 u v) r ∧ Faithful (a + b) r := by
  cases h with
  | zero s =>
    rw [zero_add]
    cases h' with
    | zero s' =>
      refine ⟨0, ?_, .refl 0⟩
      rw [UnpackedFloat.add]
      split <;> exact .zero _
    | finite s' hm' h' => exact ⟨_, .finite s' hm' h', .refl _⟩
  | @finite s m e hm h =>
    cases h' with
    | zero s' =>
      rw [add_zero]
      exact ⟨_, .finite s hm h, .refl _⟩
    | @finite s' m' e' hm' h' =>
      have hvalue : signed s (m * 2 ^ e) + signed s' (m' * 2 ^ e') =
          ((s.apply (decreaseExponent m e (min e e')).1 +
            s'.apply (decreaseExponent m' e' (min e e')).1 : ℤ) : ℝ) * 2 ^ min e e' := by
        rw [Int.cast_add, add_mul, cast_apply_decreaseExponent s (min_le_left e e'),
          cast_apply_decreaseExponent s' (min_le_right e e')]
      rw [hvalue] at hbound ⊢
      exact valued_normalize .positive hbound

theorem valued_sub {u v : UnpackedFloat} {a b : ℝ} (h : Valued u a) (h' : Valued v b)
    (hbound : |a - b| ≤ 2 ^ 1023) :
    ∃ r, Valued (UnpackedFloat.sub .binary64 u v) r ∧ Faithful (a - b) r := by
  cases h with
  | zero s =>
    cases h' with
    | zero s' =>
      refine ⟨0, ?_, by rw [sub_zero]; exact .refl 0⟩
      rw [UnpackedFloat.sub]
      split <;> exact .zero _
    | finite s' hm' h' =>
      rw [zero_sub]
      exact ⟨_, (Valued.finite s' hm' h').neg, .refl _⟩
  | @finite s m e hm h =>
    cases h' with
    | zero s' =>
      rw [sub_zero]
      exact ⟨_, .finite s hm h, .refl _⟩
    | @finite s' m' e' hm' h' =>
      have hvalue : signed s (m * 2 ^ e) - signed s' (m' * 2 ^ e') =
          ((s.apply (decreaseExponent m e (min e e')).1 -
            s'.apply (decreaseExponent m' e' (min e e')).1 : ℤ) : ℝ) * 2 ^ min e e' := by
        rw [Int.cast_sub, sub_mul, cast_apply_decreaseExponent s (min_le_left e e'),
          cast_apply_decreaseExponent s' (min_le_right e e')]
      rw [hvalue] at hbound ⊢
      exact valued_normalize .positive hbound

theorem Cut.inexact {m : Nat} {y : ℝ} (hle : m < y) (hlt : y < m + 1) (side : Ordering) :
    Cut (.ofMantissaAndAccuracy m (.inexact side)) y := by
  cases side <;> exact ⟨hle.le, hlt, iff_of_false hle.ne' Bool.noConfusion⟩

/-- What is left over in a division tells how the quotient is cut. -/
theorem cut_div (n : Nat) {d : Nat} (hd : 0 < d) :
    Cut (.ofMantissaAndAccuracy (n / d) (accuracyOfFraction (n % d) d)) (n / d : ℝ) := by
  have hpos : (0 : ℝ) < d := Nat.cast_pos.mpr hd
  have hsplit : (n / d : ℝ) = (n / d : ℕ) + (n % d : ℕ) / d := by
    rw [div_eq_iff hpos.ne', add_mul, div_mul_cancel₀ _ hpos.ne']
    exact_mod_cast (Nat.div_add_mod' n d).symm
  rw [accuracyOfFraction, hsplit]
  split
  · next hrest =>
    rw [hrest, Nat.cast_zero, zero_div, add_zero]
    exact Cut.exact _
  · next hrest =>
    have hlow : (0 : ℝ) < (n % d : ℕ) / d := div_pos (Nat.cast_pos.mpr (Nat.pos_of_ne_zero hrest)) hpos
    have hhigh : ((n % d : ℕ) / d : ℝ) < 1 :=
      (div_lt_one hpos).mpr (Nat.cast_lt.mpr (Nat.mod_lt n hd))
    exact .inexact (by linarith) (by linarith) _

theorem valued_div {u v : UnpackedFloat} {a b : ℝ} (h : Valued u a) (h' : Valued v b) (hb : b ≠ 0)
    (hbound : |a / b| ≤ 2 ^ 1023) :
    ∃ r, Valued (UnpackedFloat.div .binary64 u v) r ∧ Faithful (a / b) r := by
  cases h' with
  | zero s' => exact absurd rfl hb
  | @finite s' m' e' hm' h' =>
    cases h with
    | zero s =>
      rw [zero_div]
      exact ⟨0, .zero _, .refl 0⟩
    | @finite s m e hm h =>
      obtain ⟨t, ht⟩ : ∃ t, t = min (e - e') (max (m.log2 + 1 + e - (m'.log2 + 1 + e') - 53) (-1074)) :=
        ⟨_, rfl⟩
      obtain ⟨k, hk⟩ : ∃ k, k = (e - e' - t).toNat := ⟨_, rfl⟩
      have hdiv : UnpackedFloat.div .binary64 (.finite s m e hm) (.finite s' m' e' hm') =
          roundWithAccuracy .binary64 (s / s') (m <<< k / m') t
            (accuracyOfFraction (m <<< k % m') m') := by
        rw [hk, ht]
        rfl
      have hvalue : (m * 2 ^ e / (m' * 2 ^ e') : ℝ) = (m <<< k : ℕ) / m' * 2 ^ t := by
        have hsum : e = t + k + e' := by omega
        rw [hsum, zpow_add₀ two_ne_zero, zpow_add₀ two_ne_zero, zpow_natCast, Nat.shiftLeft_eq]
        push_cast
        field_simp
      rw [signed_div_signed, abs_signed, hvalue, abs_of_nonneg (by positivity)] at hbound
      rw [signed_div_signed, hvalue, hdiv]
      have hexponent : t ≤ Binary64.exponentFor (m <<< k / m') t := by
        rw [Binary64.exponentFor]
        rcases le_or_gt t (-1074) with hlow | hlow
        · omega
        · -- The dividend has been made at least 53 bits longer than the divisor.
          have hlong : m'.log2 + 1 + 52 ≤ m.log2 + k := by omega
          have hquotient : 2 ^ 52 ≤ m <<< k / m' := by
            rw [Nat.le_div_iff_mul_le hm', Nat.shiftLeft_eq]
            calc 2 ^ 52 * m' ≤ 2 ^ 52 * 2 ^ (m'.log2 + 1) :=
                  Nat.mul_le_mul_left _ Nat.lt_log2_self.le
              _ = 2 ^ (m'.log2 + 1 + 52) := by rw [← pow_add, add_comm]
              _ ≤ 2 ^ (m.log2 + k) := Nat.pow_le_pow_right two_pos hlong
              _ = 2 ^ m.log2 * 2 ^ k := pow_add 2 _ _
              _ ≤ m * 2 ^ k := Nat.mul_le_mul_right _ (Nat.log2_self_le hm.ne')
          have := (Nat.le_log2 (by omega)).mpr hquotient
          omega
      obtain ⟨r, hr, hfaithful⟩ :=
        valued_roundWithAccuracy (s / s') (cut_div _ hm') hexponent hbound
      exact ⟨_, hr, hfaithful.signed _⟩

namespace Holds

variable {x y : Float} {a b : ℝ}

/-- **A sum is rounded faithfully.** -/
theorem add (h : Holds x a) (h' : Holds y b) (hbound : |a + b| ≤ 2 ^ 1023) :
    ∃ r, Holds (x + y) r ∧ Faithful (a + b) r := by
  obtain ⟨r, hr, hfaithful⟩ := valued_add (holds_iff_valued.mp h) (holds_iff_valued.mp h') hbound
  exact ⟨r, holds_pack hr, hfaithful⟩

/-- **A difference is rounded faithfully.** -/
theorem sub (h : Holds x a) (h' : Holds y b) (hbound : |a - b| ≤ 2 ^ 1023) :
    ∃ r, Holds (x - y) r ∧ Faithful (a - b) r := by
  obtain ⟨r, hr, hfaithful⟩ := valued_sub (holds_iff_valued.mp h) (holds_iff_valued.mp h') hbound
  exact ⟨r, holds_pack hr, hfaithful⟩

/-- **A product is rounded faithfully.** -/
theorem mul (h : Holds x a) (h' : Holds y b) (hbound : |a * b| ≤ 2 ^ 1023) :
    ∃ r, Holds (x * y) r ∧ Faithful (a * b) r := by
  obtain ⟨r, hr, hfaithful⟩ := valued_mul (holds_iff_valued.mp h) (holds_iff_valued.mp h') hbound
  exact ⟨r, holds_pack hr, hfaithful⟩

/-- **A quotient is rounded faithfully.** -/
theorem div (h : Holds x a) (h' : Holds y b) (hb : b ≠ 0) (hbound : |a / b| ≤ 2 ^ 1023) :
    ∃ r, Holds (x / y) r ∧ Faithful (a / b) r := by
  obtain ⟨r, hr, hfaithful⟩ := valued_div (holds_iff_valued.mp h) (holds_iff_valued.mp h') hb hbound
  exact ⟨r, holds_pack hr, hfaithful⟩

theorem neg (h : Holds x a) : Holds (-x) (-a) := holds_pack (holds_iff_valued.mp h).neg

theorem isInf_eq (h : Holds x a) : x.isInf = false := (holds_iff_valued.mp h).isInf_eq

theorem isNaN_eq (h : Holds x a) : x.isNaN = false := (holds_iff_valued.mp h).isNaN_eq

end Holds

end Dicebox
