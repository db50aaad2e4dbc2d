import Dicebox.Fairness
import Dicebox.Proofs.Gamma

/-! # Every tally has a report

The expected count is a number of 53 bits that is neither very small nor very large, and a count is an
integer of 53 bits. So their difference is zero or not very small, and the statistic, which adds up
the squares of as many differences as the die has sides, is zero or lies in a range where its p-value
can be worked out.

- `deviation_eq_ok`, `chiSquare_eq_ok`: the parts of the statistic and the statistic.
- `chiSquareTail_eq_ok`: its p-value.
- `report_eq_ok`: the report on a tally.
-/

namespace Dicebox

/-- A number is zero, or positive and not very small, and not above a bound. -/
inductive Separated (hi : ℝ) (x : Float) : Prop
  | intro (r : ℝ) (hr : Holds x r) (hapart : r = 0 ∨ 2 ^ (-263 : ℤ) ≤ r) (hle : r ≤ hi)

theorem bound_zpow {e : ℤ} (hlow : -1074 ≤ e) (hhigh : e ≤ 970) : Bound (2 ^ e) := by
  have := bound_mul_zpow (n := 1) (by norm_num) hlow hhigh
  rwa [Nat.cast_one, one_mul] at this

/-- An integer and a number that is not very small are the same, or not very close. -/
theorem sub_separated {x : Float} {r : ℝ} (hx : Holds x r) (hlow : 2 ^ (-53 : ℤ) ≤ r) (k : ℕ) :
    k - r = 0 ∨ 2 ^ (-105 : ℤ) ≤ |k - r| := by
  obtain ⟨negative, m, e, h, rfl⟩ := hx
  obtain ⟨-, -, hlt, -⟩ := Binary64.canonical_of_ofFloat h
  have hpow : (0 : ℝ) < 2 ^ e := zpow_pos two_pos e
  have hlow' : (0 : ℝ) < 2 ^ (-53 : ℤ) := zpow_pos two_pos _
  cases negative
  · change (2 : ℝ) ^ (-53 : ℤ) ≤ m * 2 ^ e at hlow
    show (k - m * 2 ^ e : ℝ) = 0 ∨ 2 ^ (-105 : ℤ) ≤ |(k - m * 2 ^ e : ℝ)|
    have he : -105 ≤ e := by
      have hbits : (m : ℝ) < 2 ^ (53 : ℤ) := by exact_mod_cast hlt
      have hpowers : (2 : ℝ) ^ (-53 : ℤ) < 2 ^ (53 + e) := by
        rw [zpow_add₀ two_ne_zero]
        exact hlow.trans_lt (mul_lt_mul_of_pos_right hbits hpow)
      have := (zpow_lt_zpow_iff_right₀ one_lt_two).mp hpowers
      omega
    obtain ⟨d, rfl⟩ := Int.le.dest he
    have hunits : (k - m * 2 ^ (-105 + d : ℤ) : ℝ) =
        ((k * 2 ^ 105 - m * 2 ^ d : ℤ) : ℝ) * 2 ^ (-105 : ℤ) := by
      rw [zpow_add₀ two_ne_zero, zpow_natCast, zpow_neg, zpow_ofNat]
      push_cast
      field_simp
      norm_num
    rw [hunits]
    generalize (k * 2 ^ 105 - m * 2 ^ d : ℤ) = j
    rcases eq_or_ne j 0 with rfl | hj
    · exact .inl (by rw [Int.cast_zero, zero_mul])
    · right
      have hone : (1 : ℝ) ≤ |(j : ℝ)| := by exact_mod_cast Int.one_le_abs hj
      rw [abs_mul, abs_of_pos (zpow_pos two_pos (-105) : (0 : ℝ) < _)]
      exact le_mul_of_one_le_left (zpow_pos two_pos _).le hone
  · have hnonneg : (0 : ℝ) ≤ m * 2 ^ e := by positivity
    exact absurd (hlow'.trans_le hlow) (neg_nonpos.mpr hnonneg).not_gt

/-- What is zero or not very small before it is rounded is so afterwards. -/
theorem Faithful.separated {c r g : ℝ} (h : Faithful c r) (hg : Grid g) (hc : c = 0 ∨ g ≤ c) :
    r = 0 ∨ g ≤ r := by
  rcases hc with rfl | hc
  · exact .inl (h.eq grid_zero)
  · exact .inr (h.le hg hc)

variable {expected : Float} {e : ℝ}

section Deviation

variable (he : Holds expected e) (hlow : 2 ^ (-53 : ℤ) ≤ e) (hhigh : e ≤ 2 ^ 53)

include he hlow hhigh

theorem holds_square {y : Float} {k : ℕ} (hy : Holds y k) (hk : k ≤ 2 ^ 53) : ∃ s,
    Holds ((y - expected) * (y - expected)) s ∧ (s = 0 ∨ 2 ^ (-210 : ℤ) ≤ s) ∧ s ≤ 2 ^ 106 := by
  have hepos : 0 < e := (zpow_pos two_pos _).trans_le hlow
  have hcount : (k : ℝ) ≤ 2 ^ 53 := by exact_mod_cast hk
  have hcount₀ : (0 : ℝ) ≤ k := k.cast_nonneg
  have hsize : |(k - e : ℝ)| ≤ 2 ^ 53 := abs_le.mpr ⟨by linarith, by linarith⟩
  obtain ⟨d, hd, hfaithful⟩ := hy.sub he (le_of_le_pow 53 (by norm_num) hsize)
  have hd₁ : |d| ≤ 2 ^ 53 := hfaithful.abs_le_of_abs_le (bound_pow (by norm_num)).grid hsize
  have hd₀ : d = 0 ∨ 2 ^ (-105 : ℤ) ≤ |d| := by
    have hgrid : Grid (2 ^ (-105 : ℤ)) := grid_zpow (by norm_num)
    refine (sub_separated he hlow k).imp (fun hzero => ?_) fun hapart => ?_
    · rw [hzero] at hfaithful
      exact hfaithful.eq grid_zero
    · rcases le_abs.mp hapart with hpos | hneg
      · exact (hfaithful.le hgrid hpos).trans (le_abs_self d)
      · have := hfaithful.ge hgrid.neg (by linarith)
        exact (by linarith : (2 : ℝ) ^ (-105 : ℤ) ≤ -d).trans (neg_le_abs d)
  have hsquare : d * d ≤ 2 ^ 106 := by
    rw [← abs_mul_abs_self]
    exact (mul_le_mul hd₁ hd₁ (abs_nonneg d) (by norm_num)).trans (by norm_num)
  have hsquare₀ : d * d = 0 ∨ 2 ^ (-210 : ℤ) ≤ d * d := by
    refine hd₀.imp (fun hzero => by rw [hzero, zero_mul]) fun hapart => ?_
    rw [← abs_mul_abs_self]
    calc (2 : ℝ) ^ (-210 : ℤ) = 2 ^ (-105 : ℤ) * 2 ^ (-105 : ℤ) := by rw [← zpow_add₀ two_ne_zero]; rfl
      _ ≤ |d| * |d| := mul_le_mul hapart hapart (zpow_pos two_pos _).le (abs_nonneg d)
  obtain ⟨s, hs, hfaithful'⟩ := hd.mul hd
    (le_of_le_pow 106 (by norm_num) (by rwa [abs_of_nonneg (mul_self_nonneg d)]))
  exact ⟨s, hs, hfaithful'.separated (grid_zpow (by norm_num)) hsquare₀,
    hfaithful'.ge (bound_pow (by norm_num)).grid hsquare⟩

theorem deviation_eq_ok {k : ℕ} (hk : k ≤ 2 ^ 53) :
    ∃ x, deviation (.real expected) k = .ok x ∧ Separated (2 ^ 159) x := by
  have hepos : 0 < e := (zpow_pos two_pos _).trans_le hlow
  obtain ⟨y, hy, hheld⟩ := holds_toFloat? hk
  obtain ⟨s, hs, hs₀, hs₁⟩ := holds_square he hlow hhigh hheld hk
  have hzero : (expected == 0.0) = false := by
    rw [Bool.eq_false_iff]
    exact fun h => hepos.ne' ((he.beq_iff holds_zero).mp h)
  refine ⟨(y - expected) * (y - expected) / expected, ?_, ?_⟩
  · rw [deviation, Number.toFloat, hy]
    simp only [bind, Except.bind, hs.isInf_eq, hzero]
    rfl
  · have hs₂ : 0 ≤ s := hs₀.elim (fun h => h.ge) (zpow_pos two_pos _).le.trans
    have hquotient₀ : s / e = 0 ∨ 2 ^ (-263 : ℤ) ≤ s / e := by
      refine hs₀.imp (fun hzero => by rw [hzero, zero_div]) fun hapart => ?_
      rw [le_div_iff₀ hepos]
      calc (2 : ℝ) ^ (-263 : ℤ) * e ≤ 2 ^ (-263 : ℤ) * 2 ^ 53 :=
            mul_le_mul_of_nonneg_left hhigh (zpow_pos two_pos _).le
        _ = 2 ^ (-210 : ℤ) := by rw [← zpow_natCast, ← zpow_add₀ two_ne_zero]; rfl
        _ ≤ s := hapart
    have hquotient₁ : s / e ≤ 2 ^ 159 := by
      rw [div_le_iff₀ hepos]
      calc s ≤ 2 ^ 159 * 2 ^ (-53 : ℤ) := hs₁.trans (by norm_num)
        _ ≤ 2 ^ 159 * e := mul_le_mul_of_nonneg_left hlow (by norm_num)
    obtain ⟨q, hq, hfaithful⟩ := hs.div he hepos.ne'
      (le_of_le_pow 159 (by norm_num) (by rwa [abs_of_nonneg (div_nonneg hs₂ hepos.le)]))
    exact ⟨q, hq, hfaithful.separated (grid_zpow (by norm_num)) hquotient₀,
      hfaithful.ge (bound_pow (by norm_num)).grid hquotient₁⟩

end Deviation

/-! ## The statistic -/

theorem Separated.add {x y : Float} {k : ℕ} (h : Separated (k * 2 ^ (159 : ℤ)) x)
    (h' : Separated (2 ^ 159) y) (hk : k < 2 ^ 53) :
    Separated ((k + 1 : ℕ) * 2 ^ (159 : ℤ)) (x + y) := by
  obtain ⟨r, hr, hr₀, hr₁⟩ := h
  obtain ⟨r', hr', hr₀', hr₁'⟩ := h'
  have hbound : Bound ((k + 1 : ℕ) * 2 ^ (159 : ℤ)) := bound_mul_zpow hk (by norm_num) (by norm_num)
  have hpos : (0 : ℝ) < 2 ^ (-263 : ℤ) := zpow_pos two_pos _
  have hsum : r + r' = 0 ∨ 2 ^ (-263 : ℤ) ≤ r + r' := by
    rcases hr₀ with rfl | hr₀ <;> rcases hr₀' with rfl | hr₀'
    · exact .inl (add_zero 0)
    · exact .inr (by linarith)
    · exact .inr (by linarith)
    · exact .inr (by linarith)
  have hnonneg : 0 ≤ r + r' := hsum.elim (fun h => h.ge) hpos.le.trans
  have hle : r + r' ≤ (k + 1 : ℕ) * 2 ^ (159 : ℤ) := by
    rw [Nat.cast_succ, add_mul, one_mul, zpow_ofNat]
    rw [zpow_ofNat] at hr₁
    linarith
  obtain ⟨t, ht, hfaithful⟩ := hr.add hr' (by
    rw [abs_of_nonneg hnonneg]
    exact hle.trans (le_of_abs_le hbound.le))
  exact ⟨t, ht, hfaithful.separated (grid_zpow (by norm_num)) hsum, hfaithful.ge hbound.grid hle⟩

theorem foldlM_deviation (he : Holds expected e) (hlow : 2 ^ (-53 : ℤ) ≤ e) (hhigh : e ≤ 2 ^ 53)
    {counts : List ℕ} (hcounts : ∀ c ∈ counts, c ≤ 2 ^ 53) {total : Float} {k : ℕ}
    (htotal : Separated (k * 2 ^ (159 : ℤ)) total) (hk : k + counts.length ≤ 2 ^ 53) :
    ∃ t, (counts.map Int.ofNat).foldlM
        (fun total count => return total + (← deviation (.real expected) count)) total =
          (.ok t : Except ArithmeticFault Float) ∧
      Separated ((k + counts.length : ℕ) * 2 ^ (159 : ℤ)) t := by
  induction counts generalizing total k with
  | nil => exact ⟨total, rfl, htotal⟩
  | cons c cs ih =>
    rw [List.length_cons] at hk
    obtain ⟨x, hx, hseparated⟩ := deviation_eq_ok he hlow hhigh (hcounts c List.mem_cons_self)
    obtain ⟨t, ht, hseparated'⟩ := ih (fun c hc => hcounts c (List.mem_cons_of_mem _ hc))
      (htotal.add hseparated (by omega)) (by omega)
    refine ⟨t, ?_, ?_⟩
    · rw [List.map_cons, List.foldlM_cons]
      show (deviation (.real expected) c >>= fun y => pure (total + y)) >>= _ = _
      rw [hx]
      exact ht
    · rwa [List.length_cons, Nat.add_comm cs.length, ← Nat.add_assoc]

/-- **The statistic is a number**, and zero or not very small. -/
theorem chiSquare_eq_ok (he : Holds expected e) (hlow : 2 ^ (-53 : ℤ) ≤ e) (hhigh : e ≤ 2 ^ 53)
    {counts : List ℕ} (hcounts : ∀ c ∈ counts, c ≤ 2 ^ 53) (hsome : counts ≠ [])
    (hmany : counts.length ≤ 2 ^ 53) : ∃ t,
      chiSquare (counts.map Int.ofNat) (.real expected) = .ok (.real t) ∧ Separated (2 ^ 212) t := by
  have hzero : Separated ((0 : ℕ) * 2 ^ (159 : ℤ)) 0.0 := ⟨0, holds_zero, .inl rfl, by simp⟩
  obtain ⟨t, ht, r, hr, hr₀, hr₁⟩ := foldlM_deviation he hlow hhigh hcounts hzero
    (by rwa [Nat.zero_add])
  have hlength : ((0 + counts.length : ℕ) : ℝ) ≤ 2 ^ 53 := by
    rw [Nat.zero_add]
    exact_mod_cast hmany
  refine ⟨t, ?_, r, hr, hr₀, hr₁.trans ?_⟩
  · cases counts with
    | nil => exact absurd rfl hsome
    | cons c cs =>
      have hsum : chiSquare ((c :: cs).map Int.ofNat) (.real expected) =
          ((c :: cs).map Int.ofNat).foldlM
            (fun total count => return total + (← deviation (.real expected) count)) 0.0 >>=
              fun total => pure (Number.real total) := rfl
      rw [hsum, ht]
      rfl
  · calc ((0 + counts.length : ℕ) * 2 ^ (159 : ℤ) : ℝ) ≤ 2 ^ 53 * 2 ^ (159 : ℤ) :=
          mul_le_mul_of_nonneg_right hlength (zpow_pos two_pos _).le
      _ = 2 ^ 212 := by norm_num

/-! ## The p-value -/

/-- **A statistic has a p-value.** -/
theorem chiSquareTail_eq_ok {lib : Elementary} (hlib : lib.Accurate) {t : Float}
    (ht : Separated (2 ^ 212) t) {n : ℕ} (hn : 1 ≤ n) (hn' : n < 2 ^ 53) :
    ∃ p, chiSquareTail lib (.real t) n = .ok p := by
  obtain ⟨r, hr, hr₀, hr₁⟩ := ht
  rw [chiSquareTail]
  by_cases hnonpositive : (Number.real t).isNonpositive = true
  · exact ⟨1.0, if_pos hnonpositive⟩
  · have hzero : ¬ r ≤ 0 := fun h => hnonpositive (decide_eq_true ((hr.le_iff holds_zero).mpr h))
    have hlow : 2 ^ (-263 : ℤ) ≤ r := hr₀.resolve_left fun h => hzero h.le
    obtain ⟨y, hy, hheld⟩ := holds_toFloat? hn'.le
    have ha : Holds (y / 2.0) (n / 2) := by
      have hbound := bound_half hn'.le
      exact holds_of_faithful (hheld.div holds_two two_ne_zero hbound.le) hbound.grid
    obtain ⟨c, hx, hclow, hchigh⟩ : Between (2 ^ (-300 : ℤ)) (2 ^ 220) (t / 2.0) := by
      refine hr.between.div holds_two.between (by linarith) two_pos (bound_zpow (by norm_num) (by norm_num))
        (bound_pow (by norm_num)) ?_ (by linarith)
      calc (2 : ℝ) ^ (-300 : ℤ) ≤ 2 ^ (-264 : ℤ) := zpow_le_zpow_right₀ one_le_two (by norm_num)
        _ = 2 ^ (-263 : ℤ) / 2 := zpow_sub_one₀ two_ne_zero (-263)
        _ ≤ r / 2 := div_le_div_of_nonneg_right hlow two_pos.le
    obtain ⟨p, hp⟩ := Gamma.lowerGamma_eq_ok hlib ha hn hn' hx hclow hchigh
    rw [if_neg hnonpositive, Number.toFloat, hy]
    by_cases hlt : t / 2.0 < y / 2.0 + 1.0
    · exact ⟨clamped (1.0 - p), by simp only [bind, Except.bind, Number.toFloat, hlt, hp]; rfl⟩
    · obtain ⟨q, hq⟩ := Gamma.upperGamma_eq_ok hlib ha hn hn' hx hclow hchigh hlt
      exact ⟨clamped q, by simp only [bind, Except.bind, Number.toFloat, hlt, hq]; rfl⟩

/-! ## The report -/

/-- **Every tally has a report**, which holds the tally. -/
theorem report_eq_ok {lib : Elementary} (hlib : lib.Accurate) {sides samples : ℕ} (hsides : 2 ≤ sides)
    (hsides' : sides ≤ 2 ^ 53) (hsamples : 1 ≤ samples) (hsamples' : samples ≤ 2 ^ 53) (level : Float)
    {counts : Array ℕ} (hsize : counts.size = sides) (hcounts : ∀ c ∈ counts, c ≤ samples) :
    ∃ r, report lib sides samples level counts = .ok r ∧ r.observed = counts.toList := by
  have hsides₀ : (2 : ℝ) ≤ sides := by exact_mod_cast hsides
  have hsides₁ : (sides : ℝ) ≤ 2 ^ 53 := by exact_mod_cast hsides'
  have hsamples₀ : (1 : ℝ) ≤ samples := by exact_mod_cast hsamples
  have hsamples₁ : (samples : ℝ) ≤ 2 ^ 53 := by exact_mod_cast hsamples'
  obtain ⟨expected, hexpected, e, he, hlow, hhigh⟩ := between_divided (by omega : sides ≠ 0) hsamples'
    (bound_zpow (e := -53) (by norm_num) (by norm_num)) (bound_pow (k := 53) (by norm_num))
    (by
      rw [le_div_iff₀ (by linarith), zpow_neg, zpow_ofNat, inv_mul_le_iff₀ (by norm_num)]
      linarith)
    (by
      rw [div_le_iff₀ (by linarith)]
      linarith)
  have hlength : counts.toList.length = sides := by rw [Array.length_toList, hsize]
  obtain ⟨t, ht, hseparated⟩ := chiSquare_eq_ok he hlow hhigh
    (fun c hc => (hcounts c (Array.mem_toList_iff.mp hc)).trans hsamples')
    (List.ne_nil_of_length_pos (by omega)) (hlength.trans_le hsides')
  obtain ⟨p, hp⟩ := chiSquareTail_eq_ok hlib hseparated (n := sides - 1) (by omega) (by omega)
  have hdegrees : ((sides - 1 : ℕ) : ℤ) = (sides : ℤ) - 1 := by omega
  rw [hdegrees] at hp
  refine ⟨⟨sides, samples, t, sides - 1, p, level, level < p, counts.toList⟩, ?_, rfl⟩
  rw [report, Int.toNat_natCast, hexpected]
  simp only [bind, Except.bind, ht, Number.toFloat, hp]
  rfl

end Dicebox
