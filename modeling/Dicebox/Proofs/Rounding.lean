import Dicebox.Number
import Mathlib.Algebra.Order.Field.Basic
import Mathlib.Algebra.Order.Field.Power
import Mathlib.Algebra.Order.Ring.Abs
import Mathlib.Data.Rat.Cast.Order
import Mathlib.Tactic.FieldSimp
import Mathlib.Tactic.Linarith
import Mathlib.Tactic.Ring

/-! # Quotients are rounded to the nearest number

A quotient is scaled until its integer part has 53 bits, or fewer at the lowest exponent, and is then
rounded to the nearest integer. The binary logarithm that finds the scale is one off at most, which a
comparison puts right. So the number that comes of it is off by at most half a unit of its last
place, and has an even mantissa where it is off by as much.

- `log2Div_bounds`: the power of two below a fraction.
- `roundDiv_near`: the integer nearest to a fraction.
- `Binary64.Rounds`: a mantissa and an exponent that a fraction is rounded to.
- `nearest?_rounds`: what is nearest to a fraction is what it is rounded to.
- `IsQuotient`, `divided_isQuotient`: a quotient of integers.
- `Binary64.bound`, `nearest?_eq_none`: the fractions that are too large for a binary64 number.
-/

namespace Dicebox

variable {num den : Nat}

/-! ## Powers of two -/

theorem twoTo_eq (k : Nat) : twoTo k = 2 ^ k := rfl

theorem cast_twoTo (k : Nat) : ((twoTo k : Nat) : ℚ) = 2 ^ k := Nat.cast_pow 2 k

theorem twoTo_div (e : Int) : ((twoTo e.toNat : Nat) : ℚ) / twoTo (-e).toNat = 2 ^ e := by
  obtain ⟨n, rfl | rfl⟩ := Int.eq_nat_or_neg e
  · simp [cast_twoTo]
  · simp [cast_twoTo]

theorem twoTo_pos (k : Nat) : 0 < twoTo k := Nat.two_pow_pos k

theorem scaled_eq (num den : Nat) (e : Int) :
    ((num * twoTo (-e).toNat : Nat) : ℚ) / (den * twoTo e.toNat : Nat) = num / den / 2 ^ e := by
  have hpos : ((twoTo (-e).toNat : Nat) : ℚ) ≠ 0 := Nat.cast_ne_zero.mpr (twoTo_pos _).ne'
  rw [← twoTo_div, Nat.cast_mul, Nat.cast_mul]
  field_simp

/-! ## The scale -/

theorem lt_scaled_iff (hden : den ≠ 0) (e : Int) :
    num * twoTo (-e).toNat < den * twoTo e.toNat ↔ (num : ℚ) / den < 2 ^ e := by
  have hpos : (0 : ℚ) < (den * twoTo e.toNat : Nat) :=
    Nat.cast_pos.mpr (Nat.mul_pos (Nat.pos_of_ne_zero hden) (twoTo_pos _))
  have hpow : (0 : ℚ) < 2 ^ e := zpow_pos (by norm_num) e
  rw [← Nat.cast_lt (α := ℚ), ← div_lt_one hpos, scaled_eq, div_lt_one hpow]

theorem pow_log2_bounds {n : Nat} (hn : n ≠ 0) :
    (2 : ℚ) ^ (n.log2 : Int) ≤ n ∧ (n : ℚ) < 2 ^ ((n.log2 : Int) + 1) := by
  have hlow : 2 ^ n.log2 ≤ n := Nat.log2_self_le hn
  have hhigh : n < 2 ^ (n.log2 + 1) := Nat.lt_log2_self
  refine ⟨?_, ?_⟩
  · rw [zpow_natCast]
    exact_mod_cast hlow
  · exact_mod_cast hhigh

/-- **The greatest power of two that is at most a fraction.** -/
theorem log2Div_bounds (hnum : num ≠ 0) (hden : den ≠ 0) :
    (2 : ℚ) ^ log2Div num den ≤ num / den ∧ (num : ℚ) / den < 2 ^ (log2Div num den + 1) := by
  obtain ⟨hnumLow, hnumHigh⟩ := pow_log2_bounds hnum
  obtain ⟨hdenLow, hdenHigh⟩ := pow_log2_bounds hden
  have htwo : (2 : ℚ) ≠ 0 := by norm_num
  have hpos : (0 : ℚ) < den := Nat.cast_pos.mpr (Nat.pos_of_ne_zero hden)
  have hpow : ∀ e : Int, (0 : ℚ) < 2 ^ e := fun e => zpow_pos (by norm_num) e
  rw [log2Div]
  generalize hk : (num.log2 : Int) - den.log2 = k
  -- the difference of the logarithms is right, or one too large
  have hlow : (2 : ℚ) ^ (k - 1) < num / den := by
    rw [lt_div_iff₀ hpos]
    calc (2 : ℚ) ^ (k - 1) * den < 2 ^ (k - 1) * 2 ^ ((den.log2 : Int) + 1) :=
          mul_lt_mul_of_pos_left hdenHigh (hpow _)
      _ = 2 ^ (num.log2 : Int) := by
          rw [← zpow_add₀ htwo]
          congr 1
          omega
      _ ≤ num := hnumLow
  have hhigh : (num : ℚ) / den < 2 ^ (k + 1) := by
    rw [div_lt_iff₀ hpos]
    calc (num : ℚ) < 2 ^ ((num.log2 : Int) + 1) := hnumHigh
      _ = 2 ^ (k + 1) * 2 ^ (den.log2 : Int) := by
          rw [← zpow_add₀ htwo]
          congr 1
          omega
      _ ≤ 2 ^ (k + 1) * den := mul_le_mul_of_nonneg_left hdenLow (hpow _).le
  split
  · next hlt =>
    rw [Int.sub_add_cancel]
    exact ⟨hlow.le, (lt_scaled_iff hden k).mp hlt⟩
  · next hge =>
    exact ⟨not_lt.mp fun hlt => hge ((lt_scaled_iff hden k).mpr hlt), hhigh⟩

/-- The exponent at which a fraction is rounded. -/
def scaleOf (num den : Nat) : Int := max (log2Div num den - 52) (-1074)

/-- At its scale a fraction has 53 bits, or fewer at the lowest exponent. -/
theorem scaleOf_bounds (hnum : num ≠ 0) (hden : den ≠ 0) :
    (2 ^ (scaleOf num den + 52) ≤ (num : ℚ) / den ∨ scaleOf num den = -1074) ∧
      (num : ℚ) / den < 2 ^ (scaleOf num den + 53) := by
  obtain ⟨hlow, hhigh⟩ := log2Div_bounds hnum hden
  rw [scaleOf]
  refine ⟨?_, hhigh.trans_le (zpow_le_zpow_right₀ one_le_two (by omega))⟩
  by_cases hlowest : log2Div num den - 52 ≤ -1074
  · exact .inr (max_eq_right hlowest)
  · rw [max_eq_left (by omega), Int.sub_add_cancel]
    exact .inl hlow

/-! ## The nearest integer -/

/-- **A fraction is rounded to the nearest integer**, a half to the even one. -/
theorem roundDiv_near (num : Nat) (hden : den ≠ 0) :
    |(roundDiv num den : ℚ) - num / den| ≤ 1 / 2 ∧
      (|(roundDiv num den : ℚ) - num / den| = 1 / 2 → Even (roundDiv num den)) := by
  have hpos : (0 : ℚ) < den := Nat.cast_pos.mpr (Nat.pos_of_ne_zero hden)
  have hsplit : (num : ℚ) / den = (num / den : Nat) + ((num % den : Nat) : ℚ) / den := by
    have hdivide : (num : ℚ) = den * (num / den : Nat) + (num % den : Nat) := by
      exact_mod_cast (Nat.div_add_mod num den).symm
    field_simp
    linarith
  have hnonneg : 0 ≤ ((num % den : Nat) : ℚ) / den :=
    div_nonneg (Nat.cast_nonneg _) (Nat.cast_nonneg _)
  rw [hsplit, roundDiv]
  generalize hr : ((num % den : Nat) : ℚ) / den = r at hnonneg ⊢
  split
  · next hlt =>
    have hless : r < 1 / 2 := by
      rw [← hr, div_lt_div_iff₀ hpos two_pos]
      exact_mod_cast (by omega : num % den * 2 < 1 * den)
    have hoff : |((num / den : Nat) : ℚ) - ((num / den : Nat) + r)| = r := by
      rw [sub_add_cancel_left, abs_neg, abs_of_nonneg hnonneg]
    rw [hoff]
    exact ⟨hless.le, fun heq => absurd heq hless.ne⟩
  · split
    · next hlt =>
      have hmore : 1 / 2 < r := by
        rw [← hr, div_lt_div_iff₀ two_pos hpos]
        exact_mod_cast (by omega : 1 * den < num % den * 2)
      have hone : r < 1 := by
        rw [← hr, div_lt_one hpos]
        exact_mod_cast Nat.mod_lt num (Nat.pos_of_ne_zero hden)
      have hoff : |((num / den + 1 : Nat) : ℚ) - ((num / den : Nat) + r)| = 1 - r := by
        rw [Nat.cast_succ, add_sub_add_left_eq_sub, abs_of_nonneg (by linarith)]
      rw [hoff]
      exact ⟨by linarith, fun heq => absurd heq (by linarith)⟩
    · have hhalf : r = 1 / 2 := by
        rw [← hr, div_eq_div_iff hpos.ne' two_ne_zero]
        exact_mod_cast (by omega : num % den * 2 = 1 * den)
      have heven : Even (num / den + num / den % 2) := Nat.even_iff.mpr (by omega)
      refine ⟨?_, fun _ => heven⟩
      rw [hhalf, Nat.cast_add, add_sub_add_left_eq_sub]
      rcases Nat.mod_two_eq_zero_or_one (num / den) with h | h <;> rw [h] <;> norm_num [abs_le]

/-! ## The nearest number -/

/-- A fraction is rounded to `m * 2 ^ e`: the mantissa has 53 bits, or fewer at the lowest exponent,
and is off by at most half a unit, a half to the even side. -/
structure Binary64.Rounds (q : ℚ) (m : Nat) (e : Int) : Prop where
  lowest : -1074 ≤ e
  le : m ≤ 2 ^ 53
  normal : 2 ^ 52 ≤ m ∨ e = -1074
  near : |m * 2 ^ e - q| ≤ 2 ^ e / 2
  even : |m * 2 ^ e - q| = 2 ^ e / 2 → Even m

/-- **What is nearest to a fraction is what the fraction is rounded to**, at its scale. -/
theorem nearest?_rounds (hnum : num ≠ 0) (hden : den ≠ 0) (negative : Bool) :
    ∃ m, nearest? negative num den = Binary64.assemble? negative m (scaleOf num den) ∧
      Binary64.Rounds ((num : ℚ) / den) m (scaleOf num den) := by
  obtain ⟨hlow, hhigh⟩ := scaleOf_bounds hnum hden
  have hlowest : -1074 ≤ scaleOf num den := le_max_right _ _
  rw [nearest?, if_neg hnum, ← scaleOf]
  dsimp only
  generalize scaleOf num den = e at hlow hhigh hlowest ⊢
  refine ⟨_, rfl, ?_⟩
  have hscaled : den * twoTo e.toNat ≠ 0 := Nat.mul_ne_zero hden (twoTo_pos _).ne'
  obtain ⟨hnear, heven⟩ := roundDiv_near (num * twoTo (-e).toNat) hscaled
  rw [scaled_eq] at hnear heven
  generalize roundDiv (num * twoTo (-e).toNat) (den * twoTo e.toNat) = m at hnear heven ⊢
  generalize (num : ℚ) / den = q at *
  have hpow : (0 : ℚ) < 2 ^ e := zpow_pos (by norm_num) e
  have hoff : |m * 2 ^ e - q| = |m - q / 2 ^ e| * 2 ^ e := by
    rw [← abs_of_pos hpow, ← abs_mul, abs_of_pos hpow, sub_mul, div_mul_cancel₀ _ hpow.ne']
  have hunit : (2 : ℚ) ^ e / 2 = 1 / 2 * 2 ^ e := by ring
  obtain ⟨hbelow, habove⟩ := abs_le.mp hnear
  refine ⟨hlowest, ?_, ?_, ?_, ?_⟩
  · have hbits : q / 2 ^ e < 2 ^ (53 : Int) := by
      rw [div_lt_iff₀ hpow, ← zpow_add₀ two_ne_zero, add_comm]
      exact hhigh
    have hlt : (m : ℚ) < (2 ^ 53 + 1 : Nat) := by
      push_cast
      norm_num at hbits
      linarith
    exact Nat.lt_succ_iff.mp (Nat.cast_lt.mp hlt)
  · refine hlow.imp_left fun hlow => ?_
    have hbits : 2 ^ (52 : Int) ≤ q / 2 ^ e := by
      rw [le_div_iff₀ hpow, ← zpow_add₀ two_ne_zero, add_comm]
      exact hlow
    have hlt : ((2 ^ 52 : Nat) : ℚ) < (m + 1 : Nat) := by
      push_cast
      norm_num at hbits
      linarith
    exact Nat.lt_succ_iff.mp (Nat.cast_lt.mp hlt)
  · rw [hoff, hunit]
    exact mul_le_mul_of_nonneg_right hnear hpow.le
  · intro heq
    rw [hoff, hunit] at heq
    exact heven (mul_right_cancel₀ hpow.ne' heq)

/-! ## Quotients of integers -/

/-- A number is the quotient of integers, rounded to the nearest number. -/
def IsQuotient (x : Float) (num : Int) (den : Nat) : Prop :=
  num = 0 ∧ x = 0 ∨
    ∃ m e, Binary64.assemble? (num < 0) m e = some x ∧ Binary64.Rounds ((num.natAbs : ℚ) / den) m e

theorem divided_isQuotient {num : Int} {x : Float} (h : divided num den = .ok x) :
    IsQuotient x num den := by
  rw [divided] at h
  split at h
  · cases h
  · next hden =>
    cases hx : ratio? num den with
    | none =>
      rw [hx] at h
      cases h
    | some y =>
      rw [hx] at h
      obtain rfl := Except.ok.inj h
      rw [ratio?] at hx
      by_cases hnum : num = 0
      · subst hnum
        exact .inl ⟨rfl, (Option.some.inj hx).symm⟩
      · obtain ⟨m, hassemble, hrounds⟩ :=
          nearest?_rounds (Int.natAbs_ne_zero.mpr hnum) hden (num < 0)
        exact .inr ⟨m, _, hassemble.symm.trans hx, hrounds⟩

/-! ## Numbers that are too large -/

/-- The least integer that is too large to be rounded to a binary64 number: the greatest of them and
half a unit more. -/
def Binary64.bound : Nat := (2 ^ 54 - 1) * twoTo 970

theorem assemble?_eq_none {negative : Bool} {m : Nat} {e : Int} :
    Binary64.assemble? negative m e = none ↔
      m = 2 ^ 53 ∧ 971 ≤ e ∨ m ≠ 2 ^ 53 ∧ 2 ^ 52 ≤ m ∧ 971 < e := by
  have hfull : twoTo 53 = 2 ^ 53 := rfl
  have hhalf : twoTo 52 = 2 ^ 52 := rfl
  rw [Binary64.assemble?, hfull, hhalf]
  by_cases hm : m = 2 ^ 53
  · simp only [hm, if_true, lt_irrefl, if_false, ite_eq_left_iff, reduceCtorEq, imp_false, not_not,
      true_and, ne_eq, not_true_eq_false, false_and, or_false]
    omega
  · simp only [hm, if_false, false_and, false_or, ne_eq, not_false_eq_true, true_and]
    split
    · simp only [reduceCtorEq, false_iff]
      omega
    · simp only [ite_eq_left_iff, reduceCtorEq, imp_false, not_not]
      omega

namespace Binary64.Rounds

variable {q : ℚ} {m : Nat} {e : Int}

/-- Just below the bound the mantissa would be odd, half a unit off. -/
theorem full_of_bound_le (h : Rounds q m 971) (hq : (2 ^ 54 - 1) * 2 ^ (970 : Int) ≤ q) :
    m = 2 ^ 53 := by
  have hunit : (0 : ℚ) < 2 ^ (970 : Int) := zpow_pos (by norm_num) _
  have hstep : (2 : ℚ) ^ (971 : Int) = 2 * 2 ^ (970 : Int) := by
    rw [← zpow_one_add₀ two_ne_zero]
    rfl
  have hnear := (abs_le.mp h.near).1
  have heven := h.even
  rw [hstep] at hnear heven
  generalize (2 : ℚ) ^ (970 : Int) = P at *
  by_contra hm
  have hodd : m = 2 ^ 53 - 1 := by
    have hmany : ((2 ^ 53 - 1 : Nat) : ℚ) ≤ m := by
      refine le_of_mul_le_mul_right ?_ (mul_pos two_pos hunit)
      norm_num at hq ⊢
      linarith only [hnear, hq]
    have hle := h.le
    have hge := Nat.cast_le.mp hmany
    omega
  have hhalf : |(m : ℚ) * (2 * P) - q| = 2 * P / 2 := by
    rw [hodd] at hnear ⊢
    norm_num at hq hnear ⊢
    rw [abs_of_nonpos (by linarith only [hq, hunit])]
    linarith only [hq, hnear]
  rw [hodd] at heven hhalf
  exact absurd (heven hhalf) (by decide)

/-- **What is rounded at its scale is too large if it has come to the bound.** -/
theorem too_large_iff (h : Rounds q m e) (hlow : 2 ^ (e + 52) ≤ q ∨ e = -1074)
    (hhigh : q < 2 ^ (e + 53)) :
    (m = 2 ^ 53 ∧ 971 ≤ e ∨ m ≠ 2 ^ 53 ∧ 2 ^ 52 ≤ m ∧ 971 < e) ↔
      (2 ^ 54 - 1) * 2 ^ (970 : Int) ≤ q := by
  have hunit : (0 : ℚ) < 2 ^ (970 : Int) := zpow_pos (by norm_num) _
  have power : ∀ k l : Int, k ≤ l → (2 : ℚ) ^ (k - 970) * 2 ^ (970 : Int) ≤ 2 ^ l := by
    intro k l hkl
    rw [← zpow_add₀ two_ne_zero, Int.sub_add_cancel]
    exact zpow_le_zpow_right₀ one_le_two hkl
  constructor
  · rintro (⟨rfl, he⟩ | ⟨-, -, he⟩)
    · -- the mantissa has come to the next power of two
      have hstep := power 971 e he
      have hnear := (abs_le.mp h.near).2
      generalize (2 : ℚ) ^ (970 : Int) = P at *
      norm_num at hstep hnear ⊢
      linarith only [hstep, hnear]
    · have hstep := (power 1024 (e + 52) (by omega)).trans (hlow.resolve_right (by omega))
      generalize (2 : ℚ) ^ (970 : Int) = P at *
      norm_num at hstep ⊢
      linarith only [hstep, hunit]
  · intro hq
    have he : 971 ≤ e := by
      by_contra hlt
      have hstep : (2 : ℚ) ^ (e + 53) ≤ 2 ^ (53 : Int) * 2 ^ (970 : Int) := by
        rw [← zpow_add₀ two_ne_zero]
        exact zpow_le_zpow_right₀ one_le_two (by omega)
      have hless := hhigh.trans_le hstep
      generalize (2 : ℚ) ^ (970 : Int) = P at *
      norm_num at hless hq
      linarith only [hless, hq, hunit]
    by_cases hm : m = 2 ^ 53
    · exact .inl ⟨hm, he⟩
    · have hnormal := h.normal.resolve_right (by omega)
      refine .inr ⟨hm, hnormal, lt_of_le_of_ne he ?_⟩
      rintro rfl
      exact hm (h.full_of_bound_le hq)

end Binary64.Rounds

theorem Binary64.bound_pos : 0 < Binary64.bound := Nat.mul_pos (by norm_num) (twoTo_pos _)

/-- **A fraction has a nearest number unless it has come to the bound.** -/
theorem nearest?_eq_none (hden : den ≠ 0) (negative : Bool) :
    nearest? negative num den = none ↔ den * Binary64.bound ≤ num := by
  by_cases hnum : num = 0
  · rw [nearest?, if_pos hnum, hnum, Nat.le_zero, Nat.mul_eq_zero]
    simp [hden, Binary64.bound_pos.ne']
  · obtain ⟨m, hassemble, hrounds⟩ := nearest?_rounds hnum hden negative
    obtain ⟨hlow, hhigh⟩ := scaleOf_bounds hnum hden
    have hpos : (0 : ℚ) < den := Nat.cast_pos.mpr (Nat.pos_of_ne_zero hden)
    rw [hassemble, assemble?_eq_none, hrounds.too_large_iff hlow hhigh, le_div_iff₀ hpos,
      ← Nat.cast_le (α := ℚ), Binary64.bound, mul_comm, Nat.cast_mul, Nat.cast_mul, cast_twoTo,
      zpow_ofNat]
    norm_num

/-- **A fraction below the bound has a nearest number.** -/
theorem exists_nearest? (negative : Bool) (h : num < den * Binary64.bound) :
    ∃ x, nearest? negative num den = some x := by
  have hden : den ≠ 0 := (Nat.pos_of_lt_mul_right h).ne'
  exact Option.ne_none_iff_exists'.mp (mt (nearest?_eq_none hden negative).mp (Nat.not_le_of_lt h))

theorem divided_of_lt {num : Int} (h : num.natAbs < den * Binary64.bound) :
    ∃ x, divided num den = .ok x := by
  obtain ⟨x, hx⟩ := exists_nearest? (num < 0) h
  refine ⟨x, ?_⟩
  rw [divided, if_neg (Nat.pos_of_lt_mul_right h).ne', ratio?, hx]

theorem divided_of_le {num : Int} (hden : den ≠ 0) (h : den * Binary64.bound ≤ num.natAbs) :
    divided num den = .error .overflow := by
  rw [divided, if_neg hden, ratio?, (nearest?_eq_none hden _).mpr h]

theorem Binary64.pow_lt_bound {k : Nat} (hk : k ≤ 53 + 970) : 2 ^ k < Binary64.bound := by
  calc 2 ^ k ≤ 2 ^ (53 + 970) := pow_le_pow_right₀ one_le_two hk
    _ = 2 ^ 53 * twoTo 970 := by rw [twoTo_eq, pow_add]
    _ < Binary64.bound := Nat.mul_lt_mul_of_pos_right (by norm_num) (twoTo_pos 970)

theorem divided_eq_ok {num : Int} {den : Nat} (hden : den ≠ 0) (h : num.natAbs ≤ den * 2 ^ 1000) :
    ∃ x, divided num den = .ok x := by
  refine divided_of_lt (h.trans_lt ?_)
  exact Nat.mul_lt_mul_of_pos_left (Binary64.pow_lt_bound (by norm_num)) (Nat.pos_of_ne_zero hden)

end Dicebox
