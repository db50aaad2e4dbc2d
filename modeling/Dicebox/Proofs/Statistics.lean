import Dicebox.Proofs.Except
import Dicebox.Proofs.Sums

/-! # Statistics that are not too large

The middle of integers is no larger than all of them together, and their deviation is the root of what
is no larger than the square of that. So integers whose magnitudes come together to little enough for a
mean have a summary. Whatever keeps integers from a summary is that they are too large.

- `isqrt_le`, `exists_sqrtNearest?`: roots that are not too large.
- `median_of_magnitude_lt`, `deviationOf_of_magnitude_lt`: the middle and the deviation.
- `summaryOf_of_magnitude_lt`, `summaryOf_of_large`: integers with a summary, and without one.
- `summaryOf_eq_error`: why integers have no summary.
-/

namespace Dicebox

/-! ## Roots -/

theorem sqrtBetween_le {n fuel low high : Nat} (h : low ≤ high) :
    sqrtBetween n fuel low high ≤ high := by
  induction fuel generalizing low high with
  | zero => exact h
  | succ fuel ih =>
    rw [sqrtBetween]
    split
    · exact h
    · split
      · exact ih (by omega)
      · exact (ih (by omega)).trans (by omega)

/-- The integer root is at most twice any number whose square is as large. -/
theorem isqrt_le {n k : Nat} (h : n ≤ k * k) : isqrt n ≤ 2 * k := by
  rw [isqrt]
  split
  · exact Nat.zero_le _
  · next hn =>
    have hroot : 2 ^ (n.log2 / 2) ≤ k := by
      refine Nat.mul_self_le_mul_self_iff.mp (le_trans ?_ h)
      calc 2 ^ (n.log2 / 2) * 2 ^ (n.log2 / 2) = 2 ^ (n.log2 / 2 + n.log2 / 2) := (pow_add ..).symm
        _ ≤ 2 ^ n.log2 := Nat.pow_le_pow_right two_pos (by omega)
        _ ≤ n := Nat.log2_self_le hn
    have hhigh : twoTo (n.log2 / 2 + 1) = 2 * 2 ^ (n.log2 / 2) := Nat.pow_succ'
    have hlow : twoTo (n.log2 / 2) ≤ twoTo (n.log2 / 2 + 1) := by
      rw [hhigh, twoTo_eq]
      omega
    dsimp only
    rw [Nat.add_sub_cancel]
    exact (sqrtBetween_le hlow).trans (by omega)

/-- **A fraction has a root** if it is at most a square whose root is below a quarter of the bound. -/
theorem exists_sqrtNearest? {num den k : Nat} (h : num ≤ k * k * den)
    (hk : 4 * k < Binary64.bound) : ∃ x, sqrtNearest? num den = some x := by
  rw [sqrtNearest?]
  split
  · exact ⟨0, rfl⟩
  · dsimp only
    generalize (max 0 (64 - log2Div num den / 2)).toNat = s
    have hsquare : twoTo (2 * s) = twoTo s * twoTo s := by
      rw [twoTo_eq, twoTo_eq, two_mul, pow_add]
    have hdouble : twoTo (s + 1) = 2 * twoTo s := Nat.pow_succ'
    have hpos := twoTo_pos s
    rw [hsquare, hdouble]
    generalize twoTo s = t at hpos ⊢
    have hscaled : num * (t * t) / den ≤ k * t * (k * t) := by
      refine Nat.div_le_of_le_mul ?_
      calc num * (t * t) ≤ k * k * den * (t * t) := Nat.mul_le_mul_right _ h
        _ = den * (k * t * (k * t)) := by ring
    have hroot := isqrt_le hscaled
    generalize isqrt (num * (t * t) / den) = root at hroot ⊢
    have hroom : 4 * (k * t) + t ≤ t * Binary64.bound := by
      calc 4 * (k * t) + t = t * (4 * k + 1) := by ring
        _ ≤ t * Binary64.bound := Nat.mul_le_mul_left t hk
    refine exists_nearest? _ ?_
    rw [Nat.mul_assoc 2 t]
    split <;> omega

/-! ## The middle -/

variable {ns : List Int}

theorem natAbs_getD_mergeSort_le (ns : List Int) (i : Nat) :
    (ns.mergeSort.getD i 0).natAbs ≤ magnitude ns := by
  by_cases hi : i < ns.mergeSort.length
  · rw [List.getD_eq_getElem _ _ hi]
    exact natAbs_le_magnitude ((List.mergeSort_perm ns _).mem_iff.mp (List.getElem_mem hi))
  · rw [List.getD_eq_default _ _ (by omega)]
    exact Nat.zero_le _

theorem median_of_magnitude_lt (h : magnitude ns < Binary64.bound) : ∃ x, median ns = .ok x := by
  rw [median]
  split
  · exact ⟨_, rfl⟩
  · have hleft := natAbs_getD_mergeSort_le ns (ns.mergeSort.length / 2 - 1)
    have hright := natAbs_getD_mergeSort_le ns (ns.mergeSort.length / 2)
    generalize ns.mergeSort.getD _ 0 = a at hleft ⊢
    generalize ns.mergeSort.getD _ 0 = b at hright ⊢
    obtain ⟨x, hx⟩ := divided_of_lt (by omega : (a + b).natAbs < 2 * Binary64.bound)
    rw [hx]
    exact ⟨_, rfl⟩

/-! ## The deviation -/

theorem sumOf_squares_le (ns : List Int) :
    sumOf (ns.map fun n => n * n) ≤ (magnitude ns * magnitude ns : Nat) := by
  induction ns with
  | nil => exact le_rfl
  | cons n ns ih =>
    rw [List.map_cons, sumOf_cons, magnitude_cons, ← Int.natAbs_mul_self]
    generalize magnitude ns = m at ih ⊢
    generalize n.natAbs = a
    have hmixed : 0 ≤ (a : Int) * m := by positivity
    push_cast at ih ⊢
    linarith

theorem variance_le (ns : List Int) :
    (ns.length * sumOf (ns.map fun n => n * n) - sumOf ns * sumOf ns).toNat ≤
      magnitude ns * magnitude ns * (ns.length * ns.length) := by
  have hsquares := sumOf_squares_le ns
  have hmean := mul_self_nonneg (sumOf ns)
  generalize ns.length = l
  refine Int.toNat_le.mpr ?_
  calc l * sumOf (ns.map fun n => n * n) - sumOf ns * sumOf ns
      ≤ l * sumOf (ns.map fun n => n * n) := Int.sub_le_self _ hmean
    _ ≤ l * (magnitude ns * magnitude ns : Nat) := by gcongr
    _ = (magnitude ns * magnitude ns * l : Nat) := by push_cast; ring
    _ ≤ (magnitude ns * magnitude ns * (l * l) : Nat) := by
      gcongr
      exact Nat.le_mul_self l

theorem deviationOf_of_magnitude_lt (h : 4 * magnitude ns < Binary64.bound) :
    ∃ x, deviationOf ns = .ok x := by
  obtain ⟨x, hx⟩ := exists_sqrtNearest? (variance_le ns) h
  refine ⟨x, ?_⟩
  simp only [deviationOf, hx]

/-! ## Summaries -/

variable {label : String}

/-- **Integers have a summary** if they come together to less than a twelfth of the bound, and are not
too many. -/
theorem summaryOf_of_magnitude_lt (h : 12 * magnitude ns < Binary64.bound)
    (hlength : ns.length < Binary64.bound) : ∃ s, summaryOf label ns = .ok s := by
  obtain ⟨m, hm⟩ := mean_of_magnitude_lt h hlength
  obtain ⟨mid, hmid⟩ := median_of_magnitude_lt (by omega : magnitude ns < Binary64.bound)
  obtain ⟨d, hd⟩ := deviationOf_of_magnitude_lt (by omega : 4 * magnitude ns < Binary64.bound)
  rw [summaryOf, hm, hmid, hd]
  exact ⟨_, rfl⟩

/-- **One integer that is too large** keeps the others from a summary. -/
theorem summaryOf_of_large {n : Int} (hn : n ∈ ns) (h : Binary64.bound ≤ n.natAbs) :
    summaryOf label ns = .error .overflow := by
  rw [summaryOf, mean_of_large hn h]
  rfl

theorem mean_eq_error {fault : ArithmeticFault} (h : mean ns = .error fault) :
    fault = .overflow := by
  rw [mean] at h
  split at h
  · cases h
  · exact (Except.error.inj h).symm

theorem median_eq_error {fault : ArithmeticFault} (h : median ns = .error fault) :
    fault = .overflow := by
  rw [median] at h
  split at h
  · cases h
  · rw [divided, if_neg two_ne_zero] at h
    split at h
    · cases h
    · exact (Except.error.inj h).symm

theorem deviationOf_eq_error {fault : ArithmeticFault} (h : deviationOf ns = .error fault) :
    fault = .overflow := by
  rw [deviationOf] at h
  split at h
  · cases h
  · exact (Except.error.inj h).symm

/-- **Integers have no summary only because they are too large.** -/
theorem summaryOf_eq_error {fault : ArithmeticFault} (h : summaryOf label ns = .error fault) :
    fault = .overflow := by
  obtain h | ⟨_, -, h⟩ := bind_eq_error.mp h
  · exact mean_eq_error h
  obtain h | ⟨_, -, h⟩ := bind_eq_error.mp h
  · exact median_eq_error h
  obtain h | ⟨_, -, h⟩ := bind_eq_error.mp h
  · exact deviationOf_eq_error h
  · cases h

end Dicebox
