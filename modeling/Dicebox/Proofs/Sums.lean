import Dicebox.Proofs.Bits
import Dicebox.Summary

/-! # Sums in parts stay small

A rounded sum is the nearest of the integers of 53 bits, so it is off by no more than the part that was
added, and by half a unit only if it is even itself. So the bits of a part stay below those of all later
parts, with a place between them. Such parts come together to at most three times their sum, so that no
rounded sum on the way is much larger than what was added, and integers whose magnitudes come together
to less than a twelfth of the bound have a mean.

- `RoundsTo`, `roundsTo_of_rounded?`: an integer and the integer that it is rounded to.
- `Parts.Apart`, `Parts.Apart.add?`: parts whose bits are apart, which an addition preserves.
- `Parts.Apart.magnitude_le`: such parts beside their sum.
- `Parts.exists_addAll?`: sums in parts that are not too large.
- `mean_of_magnitude_lt`, `mean_of_large`: integers with a mean, and without one.
-/

namespace Dicebox

/-! ## Rounded integers -/

/-- An integer is rounded to a multiple of `2 ^ u`, from which it is off by at most half of that, a
half to the even side. It has 53 bits above these, unless it is not rounded at all. -/
structure RoundsTo (n r : Int) (u : Nat) : Prop where
  dvd : 2 ^ u ∣ r
  near : 2 * (r - n).natAbs ≤ 2 ^ u
  even : 2 * (r - n).natAbs = 2 ^ u → 2 ^ (u + 1) ∣ r
  low : u = 0 ∨ 2 ^ (u + 52) ≤ n.natAbs
  bits : r.natAbs ≤ 2 ^ (u + 53)

variable {n r : Int} {u : Nat}

theorem RoundsTo.neg (h : RoundsTo n r u) : RoundsTo (-n) (-r) u := by
  have hoff : (-r - -n).natAbs = (r - n).natAbs := by omega
  refine ⟨dvd_neg.mpr h.dvd, ?_, ?_, ?_, ?_⟩
  · rw [hoff]
    exact h.near
  · rw [hoff]
    exact fun heq => dvd_neg.mpr (h.even heq)
  · rw [Int.natAbs_neg]
    exact h.low
  · rw [Int.natAbs_neg]
    exact h.bits

theorem roundsTo_self (h : n.natAbs ≤ 2 ^ 53) : RoundsTo n n 0 := by
  have hoff : (n - n).natAbs = 0 := by simp
  refine ⟨one_dvd n, ?_, ?_, .inl rfl, h⟩
  · rw [hoff]
    exact Nat.zero_le _
  · rw [hoff]
    exact fun heq => absurd heq (by decide)

/-- What is rounded below the point is not rounded at all. -/
theorem Binary64.Rounds.eq_mul_pow {a m u : Nat} (h : Rounds a m (-u)) : m = a * 2 ^ u := by
  have hpow : (0 : ℚ) < 2 ^ u := pow_pos two_pos u
  have hnear := h.near
  rw [zpow_neg, zpow_natCast, ← div_eq_mul_inv] at hnear
  have hoff : |((m : Int) - (a * 2 ^ u : Nat) : ℚ)| < 1 := by
    have hscale : (m : ℚ) - (a * 2 ^ u : Nat) = (m / 2 ^ u - a) * 2 ^ u := by
      push_cast
      field_simp
    rw [Int.cast_natCast, hscale, abs_mul, abs_of_pos hpow]
    calc |(m : ℚ) / 2 ^ u - a| * 2 ^ u ≤ (2 ^ u)⁻¹ / 2 * 2 ^ u :=
          mul_le_mul_of_nonneg_right hnear hpow.le
      _ = 1 / 2 := by field_simp
      _ < 1 := by norm_num
  have hzero : (m : Int) - (a * 2 ^ u : Nat) = 0 := Int.abs_lt_one_iff.mp (by exact_mod_cast hoff)
  omega

/-- **A natural number is rounded at its scale.** -/
theorem Binary64.Rounds.roundsTo {a m : Nat} {e : Int} (h : Rounds a m e)
    (hlow : 2 ^ (e + 52) ≤ (a : ℚ) ∨ e = -1074) (hhigh : (a : ℚ) < 2 ^ (e + 53)) :
    RoundsTo a (m * twoTo e.toNat / twoTo (-e).toNat : Nat) e.toNat := by
  obtain ⟨u, rfl | rfl⟩ := Int.eq_nat_or_neg e
  · have hplain : m * twoTo (u : Int).toNat / twoTo (-(u : Int)).toNat = m * 2 ^ u := by
      rw [Int.toNat_natCast, Int.toNat_of_nonpos (by omega), twoTo_eq, twoTo_eq, pow_zero,
        Nat.div_one]
    have hoff : ((((m * 2 ^ u : Nat) : Int) - a).natAbs : ℚ) = |(m : ℚ) * 2 ^ (u : Int) - a| := by
      rw [Nat.cast_natAbs, zpow_natCast]
      push_cast
      rfl
    have hunit : (2 : ℚ) ^ (u : Int) = (2 ^ u : Nat) := by
      rw [zpow_natCast, Nat.cast_pow, Nat.cast_two]
    have hnear := h.near
    have heven := h.even
    rw [← hoff, hunit] at hnear heven
    rw [hplain, Int.toNat_natCast]
    refine ⟨?_, ?_, ?_, ?_, ?_⟩
    · exact ⟨m, by push_cast; ring⟩
    · have htwice : ((2 * (((m * 2 ^ u : Nat) : Int) - a).natAbs : Nat) : ℚ) ≤ (2 ^ u : Nat) := by
        rw [Nat.cast_mul, Nat.cast_two]
        linarith
      exact Nat.cast_le.mp htwice
    · intro heq
      have hhalf : ((2 * (((m * 2 ^ u : Nat) : Int) - a).natAbs : Nat) : ℚ) = (2 ^ u : Nat) := by
        rw [heq]
      rw [Nat.cast_mul, Nat.cast_two] at hhalf
      obtain ⟨k, rfl⟩ := heven (by linarith)
      exact ⟨k, by push_cast; ring⟩
    · have hpow : ((2 ^ (u + 52) : Nat) : ℚ) ≤ a := by
        rw [Nat.cast_pow, Nat.cast_two, ← zpow_natCast, Nat.cast_add]
        exact hlow.resolve_right (by omega)
      exact .inr (Nat.cast_le.mp hpow)
    · rw [Int.natAbs_natCast, pow_add, Nat.mul_comm]
      exact Nat.mul_le_mul_left _ h.le
  · obtain rfl := h.eq_mul_pow
    have hplain : a * 2 ^ u * twoTo (-(u : Int)).toNat / twoTo (- -(u : Int)).toNat = a := by
      rw [Int.neg_neg, Int.toNat_natCast, Int.toNat_of_nonpos (by omega), twoTo_eq, twoTo_eq,
        pow_zero, Nat.mul_one, Nat.mul_div_cancel _ (Nat.two_pow_pos u)]
    rw [hplain, Int.toNat_of_nonpos (by omega)]
    have hpow : (a : ℚ) ≤ (2 ^ 53 : Nat) := by
      rw [Nat.cast_pow, Nat.cast_two, ← zpow_natCast]
      exact hhigh.le.trans (zpow_le_zpow_right₀ one_le_two (by omega))
    exact roundsTo_self (Nat.cast_le.mp hpow)

theorem toFloat?_eq_none (h : Binary64.bound ≤ n.natAbs) : toFloat? n = none :=
  (nearest?_eq_none one_ne_zero _).mpr (by rwa [Nat.one_mul])

theorem exists_toFloat? (h : n.natAbs < Binary64.bound) : ∃ x, toFloat? n = some x :=
  exists_nearest? _ (by rwa [Nat.one_mul])

theorem rounded?_eq_none (h : Binary64.bound ≤ n.natAbs) : rounded? n = none := by
  rw [rounded?, toFloat?_eq_none h]
  rfl

/-- **Any other integer is rounded.** -/
theorem exists_rounded? (h : n.natAbs < Binary64.bound) :
    ∃ r u, rounded? n = some r ∧ RoundsTo n r u := by
  by_cases hn : n.natAbs = 0
  · obtain rfl := Int.natAbs_eq_zero.mp hn
    exact ⟨0, 0, by decide +kernel, roundsTo_self (Nat.zero_le _)⟩
  · obtain ⟨m, hassemble, hrounds⟩ := nearest?_rounds hn one_ne_zero (n < 0)
    obtain ⟨hlow, hhigh⟩ := scaleOf_bounds hn one_ne_zero
    obtain ⟨x, hx⟩ := exists_toFloat? h
    rw [Nat.cast_one, div_one] at hrounds hlow hhigh
    have hplain := toInt?_of_assemble? hrounds.lowest hrounds.le hrounds.normal
      (hassemble.symm.trans hx)
    refine ⟨_, (scaleOf n.natAbs 1).toNat, (congrArg (· >>= toInt?) hx).trans hplain, ?_⟩
    have hto := hrounds.roundsTo hlow hhigh
    simp only [decide_eq_true_eq]
    split
    · next hneg =>
      have hto := hto.neg
      rwa [Int.ofNat_natAbs_of_nonpos hneg.le, neg_neg] at hto
    · next hnonneg => rwa [Int.natAbs_of_nonneg (not_lt.mp hnonneg)] at hto

theorem roundsTo_of_rounded? (h : rounded? n = some r) : ∃ u, RoundsTo n r u := by
  have hlt : n.natAbs < Binary64.bound := by
    by_contra hge
    rw [rounded?_eq_none (Nat.not_lt.mp hge)] at h
    cases h
  obtain ⟨r', u, hr, hto⟩ := exists_rounded? hlt
  obtain rfl := Option.some.inj (hr.symm.trans h)
  exact ⟨u, hto⟩

/-! ## The nearest integer of 53 bits -/

/-- An integer has 53 bits, and zeros below them. -/
def Fits (c : Int) : Prop := ∃ v, 2 ^ v ∣ c ∧ c.natAbs ≤ 2 ^ (v + 53)

theorem fits_zero : Fits 0 := ⟨0, dvd_zero _, Nat.zero_le _⟩

namespace RoundsTo

variable {c : Int} {t : Nat}

theorem fits (h : RoundsTo n r u) : Fits r := ⟨u, h.dvd, h.bits⟩

/-- Of the multiples of its unit, the rounded integer is the nearest one. -/
theorem le_of_dvd (h : RoundsTo n r u) (hc : 2 ^ u ∣ c) : (r - n).natAbs ≤ (c - n).natAbs := by
  by_contra hlt
  have hnear := h.near
  have hclose : (c - r).natAbs < ((2 : Int) ^ u).natAbs := by
    rw [Int.natAbs_pow]
    show _ < 2 ^ u
    omega
  have hsame := Int.eq_zero_of_dvd_of_natAbs_lt_natAbs (dvd_sub hc h.dvd) hclose
  obtain rfl : c = r := by omega
  exact hlt le_rfl

/-- **Of the integers that fit, the rounded integer is the nearest one.** -/
theorem le_of_fits (h : RoundsTo n r u) (hc : Fits c) : (r - n).natAbs ≤ (c - n).natAbs := by
  obtain ⟨v, hdvd, hbits⟩ := hc
  by_cases huv : u ≤ v
  · exact h.le_of_dvd ((pow_dvd_pow 2 huv).trans hdvd)
  · -- below its unit nothing fits that is further from zero than the least integer of 53 bits above it
    have hlow := h.low.resolve_left (by omega)
    have hbelow : c.natAbs ≤ 2 ^ (u + 52) := hbits.trans (Nat.pow_le_pow_right two_pos (by omega))
    have hleast : (2 : Int) ^ u ∣ 2 ^ (u + 52) := pow_dvd_pow 2 (Nat.le_add_right u 52)
    have hcast : (2 : Int) ^ (u + 52) = (2 ^ (u + 52) : Nat) := by push_cast; rfl
    by_cases hn : 0 ≤ n
    · have hle := h.le_of_dvd hleast
      rw [hcast] at hle
      omega
    · have hle := h.le_of_dvd (dvd_neg.mpr hleast)
      rw [hcast] at hle
      omega

theorem pow_dvd (h : RoundsTo n r u) (ht : 2 ^ t ∣ n) : 2 ^ t ∣ r := by
  by_cases htu : t ≤ u
  · exact (pow_dvd_pow 2 htu).trans h.dvd
  · have hle := h.le_of_dvd ((pow_dvd_pow 2 (by omega)).trans ht)
    obtain rfl : r = n := by omega
    exact ht

end RoundsTo

/-! ## Parts that are apart -/

def magnitude (ns : List Int) : Nat := (ns.map Int.natAbs).sum

@[simp]
theorem magnitude_nil : magnitude [] = 0 := rfl

@[simp]
theorem magnitude_cons (n : Int) (ns : List Int) :
    magnitude (n :: ns) = n.natAbs + magnitude ns := rfl

theorem natAbs_le_magnitude {ns : List Int} (h : n ∈ ns) : n.natAbs ≤ magnitude ns := by
  induction ns with
  | nil => cases h
  | cons m ns ih =>
    rw [magnitude_cons]
    rcases List.mem_cons.mp h with rfl | h
    · exact Nat.le_add_right _ _
    · exact (ih h).trans (Nat.le_add_left _ _)

theorem natAbs_sumOf_le_magnitude (ns : List Int) : (sumOf ns).natAbs ≤ magnitude ns := by
  induction ns with
  | nil => exact Nat.zero_le _
  | cons n ns ih =>
    rw [sumOf_cons, magnitude_cons]
    omega

/-- The bits of `a` are below those of `b`, with a place between them. -/
def Below (a b : Int) : Prop := 2 ^ (2 * a.natAbs).size ∣ b

theorem Below.of_le {a a' b : Int} (h : Below a b) (hle : a'.natAbs ≤ a.natAbs) : Below a' b :=
  (pow_dvd_pow 2 (Nat.size_le_size (Nat.mul_le_mul_left 2 hle))).trans h

/-- **What a rounded integer is off by is below it.** -/
theorem RoundsTo.below (h : RoundsTo n r u) : Below (n - r) r := by
  have hoff : (n - r).natAbs = (r - n).natAbs := by omega
  rw [Below, hoff]
  rcases h.near.lt_or_eq with hlt | heq
  · exact (pow_dvd_pow 2 (Nat.size_le.mpr hlt)).trans h.dvd
  · have hsize : (2 * (r - n).natAbs).size ≤ u + 1 := by
      rw [Nat.size_le, heq]
      exact Nat.pow_lt_pow_right one_lt_two (Nat.lt_succ_self u)
    exact (pow_dvd_pow 2 hsize).trans (h.even heq)

namespace Parts

variable {parts more : Parts} {ns : List Int} {w : Nat}

/-- The bits of each part are below those of all later ones, and no part is zero. -/
structure Apart (parts : Parts) : Prop where
  below : parts.Pairwise Below
  ne_zero : ∀ p ∈ parts, p ≠ 0

theorem apart_nil : Apart [] := ⟨.nil, nofun⟩

/-- What an addition to a part leaves behind, and what it passes on. -/
theorem add?_cons {part : Int} (h : add? (part :: parts) n = some more) :
    ∃ next rest u, RoundsTo (n + part) next u ∧ add? parts next = some rest ∧
      more = if n + part - next = 0 then rest else (n + part - next) :: rest := by
  obtain ⟨next, hnext, h⟩ := Option.bind_eq_some_iff.mp h
  obtain ⟨rest, hrest, rfl⟩ := Option.map_eq_some_iff.mp h
  obtain ⟨u, hto⟩ := roundsTo_of_rounded? hnext
  exact ⟨next, rest, u, hto, hrest, rfl⟩

theorem dvd_add? (hn : 2 ^ w ∣ n) (hparts : ∀ p ∈ parts, 2 ^ w ∣ p) (h : parts.add? n = some more) :
    ∀ p ∈ more, 2 ^ w ∣ p := by
  induction parts generalizing n more with
  | nil =>
    obtain rfl := Option.some.inj h
    split
    · nofun
    · exact List.forall_mem_singleton.mpr hn
  | cons part parts ih =>
    obtain ⟨hpart, hparts⟩ := List.forall_mem_cons.mp hparts
    obtain ⟨next, rest, u, hto, hrest, rfl⟩ := add?_cons h
    have hsum := dvd_add hn hpart
    have hnext := hto.pow_dvd hsum
    have hall := ih hnext hparts hrest
    split
    · exact hall
    · exact List.forall_mem_cons.mpr ⟨dvd_sub hsum hnext, hall⟩

/-- **An addition leaves parts that are apart.** What it leaves behind is below the sum that it passes
on, and no larger than the part that was there, so it is below the later parts as well. -/
theorem Apart.add? (hparts : parts.Apart) (hn : Fits n) (h : parts.add? n = some more) :
    more.Apart := by
  induction parts generalizing n more with
  | nil =>
    obtain rfl := Option.some.inj h
    split
    · exact apart_nil
    · next hne => exact ⟨List.pairwise_singleton _ _, List.forall_mem_singleton.mpr hne⟩
  | cons part parts ih =>
    obtain ⟨hbelow, hlater⟩ := List.pairwise_cons.mp hparts.below
    obtain ⟨-, hnonzero⟩ := List.forall_mem_cons.mp hparts.ne_zero
    obtain ⟨next, rest, u, hto, hrest, rfl⟩ := add?_cons h
    have hall := ih ⟨hlater, hnonzero⟩ hto.fits hrest
    split
    · exact hall
    · next hoff =>
      have hnear := hto.le_of_fits hn
      have hless : (n + part - next).natAbs ≤ part.natAbs := by omega
      refine ⟨List.pairwise_cons.mpr ⟨?_, hall.below⟩, List.forall_mem_cons.mpr ⟨hoff, hall.ne_zero⟩⟩
      exact dvd_add? hto.below (fun p hp => (hbelow p hp).of_le hless) hrest

theorem Apart.magnitude_add_le (hparts : parts.Apart) (hne : parts ≠ [])
    (hdvd : ∀ p ∈ parts, 2 ^ w ∣ p) :
    magnitude parts + 2 * 2 ^ w ≤ 3 * (sumOf parts).natAbs := by
  induction parts generalizing w with
  | nil => exact absurd rfl hne
  | cons part parts ih =>
    obtain ⟨hbelow, hlater⟩ := List.pairwise_cons.mp hparts.below
    obtain ⟨hpart, hnonzero⟩ := List.forall_mem_cons.mp hparts.ne_zero
    obtain ⟨hfirst, -⟩ := List.forall_mem_cons.mp hdvd
    have hzeros : 2 ^ w ∣ part.natAbs := by
      have hnat := Int.natAbs_dvd_natAbs.mpr hfirst
      rwa [Int.natAbs_pow] at hnat
    have hle := Nat.le_of_dvd (Int.natAbs_pos.mpr hpart) hzeros
    rw [magnitude_cons, sumOf_cons]
    by_cases hnil : parts = []
    · subst hnil
      rw [magnitude_nil, sumOf_nil]
      omega
    · have hrest := ih ⟨hlater, hnonzero⟩ hnil hbelow
      -- the zeros of the later parts reach beyond twice this part
      have hlt : 2 * part.natAbs < 2 ^ (2 * part.natAbs).size := Nat.lt_size_self _
      have hw : w ≤ (2 * part.natAbs).size :=
        (Nat.pow_le_pow_iff_right one_lt_two).mp (by omega)
      have hroom := Nat.le_of_dvd (Nat.sub_pos_of_lt hlt)
        (Nat.dvd_sub (pow_dvd_pow 2 hw) (hzeros.mul_left 2))
      omega

/-- **Parts that are apart come together to at most three times their sum.** -/
theorem Apart.magnitude_le (hparts : parts.Apart) :
    magnitude parts ≤ 3 * (sumOf parts).natAbs := by
  by_cases hnil : parts = []
  · subst hnil
    exact Nat.zero_le _
  · have hall : ∀ p ∈ parts, 2 ^ 0 ∣ p := fun p _ => one_dvd p
    have hle := hparts.magnitude_add_le hnil hall
    omega

/-- An addition has a result if no sum on the way can be too large. -/
theorem exists_add? (hn : Fits n) (h : n.natAbs + 2 * magnitude parts < Binary64.bound) :
    ∃ more, parts.add? n = some more := by
  induction parts generalizing n with
  | nil => exact ⟨_, rfl⟩
  | cons part parts ih =>
    rw [magnitude_cons] at h
    obtain ⟨next, u, hnext, hto⟩ := exists_rounded? (n := n + part) (by omega)
    have hnear := hto.le_of_fits hn
    obtain ⟨rest, hrest⟩ := ih hto.fits (by omega)
    rw [Parts.add?, hnext, Option.bind_some, hrest]
    exact ⟨_, rfl⟩

/-- **Integers that fit have a sum in parts** if they come together to less than a sixth of the bound.
-/
theorem exists_addAll? (hparts : parts.Apart) (hns : ∀ n ∈ ns, Fits n)
    (h : 6 * ((sumOf parts).natAbs + magnitude ns) < Binary64.bound) :
    ∃ more, parts.addAll? ns = some more := by
  induction ns generalizing parts with
  | nil => exact ⟨_, rfl⟩
  | cons n ns ih =>
    obtain ⟨hn, hns⟩ := List.forall_mem_cons.mp hns
    have hsize := hparts.magnitude_le
    rw [magnitude_cons] at h
    have hroom : n.natAbs + 2 * magnitude parts < Binary64.bound := by omega
    obtain ⟨next, hnext⟩ := exists_add? hn hroom
    obtain ⟨more, hmore⟩ := ih (hparts.add? hn hnext) hns (by
      rw [sum_add? hnext]
      omega)
    rw [addAll?, List.foldlM_cons, hnext]
    exact ⟨more, hmore⟩

end Parts

/-! ## Means -/

variable {ns : List Int}

theorem RoundsTo.natAbs_le (h : RoundsTo n r u) : r.natAbs ≤ 2 * n.natAbs := by
  have hzero := h.le_of_fits fits_zero
  omega

theorem exists_mapM_rounded? (h : magnitude ns < Binary64.bound) :
    ∃ rs, ns.mapM rounded? = some rs ∧ (∀ r ∈ rs, Fits r) ∧ magnitude rs ≤ 2 * magnitude ns := by
  induction ns with
  | nil => exact ⟨[], rfl, nofun, le_rfl⟩
  | cons n ns ih =>
    rw [magnitude_cons] at h
    obtain ⟨r, u, hr, hto⟩ := exists_rounded? (by omega : n.natAbs < Binary64.bound)
    obtain ⟨rs, hrs, hfits, hle⟩ := ih (by omega)
    refine ⟨r :: rs, ?_, List.forall_mem_cons.mpr ⟨hto.fits, hfits⟩, ?_⟩
    · rw [List.mapM_cons, hr, hrs]
      rfl
    · have hfirst := hto.natAbs_le
      rw [magnitude_cons, magnitude_cons]
      omega

/-- **Integers have a mean** if they come together to less than a twelfth of the bound, and are not
too many. -/
theorem mean_of_magnitude_lt (h : 12 * magnitude ns < Binary64.bound)
    (hlength : ns.length < Binary64.bound) : ∃ x, mean ns = .ok x := by
  obtain ⟨rs, hrs, hfits, hle⟩ := exists_mapM_rounded? (by omega : magnitude ns < Binary64.bound)
  obtain ⟨parts, hparts⟩ := Parts.exists_addAll? Parts.apart_nil hfits
    (by
      rw [sumOf_nil]
      omega)
  have htotal : (sumOf parts).natAbs < Binary64.bound := by
    have hsum := natAbs_sumOf_le_magnitude rs
    rw [Parts.sum_addAll? hparts, sumOf_nil]
    omega
  obtain ⟨sum, hsum⟩ := exists_toFloat? htotal
  obtain ⟨count, hcount⟩ := exists_toFloat? (by omega : (ns.length : Int).natAbs < Binary64.bound)
  refine ⟨sum / count, ?_⟩
  simp only [mean, hrs, Option.bind_eq_bind, Option.bind_some, hparts, hsum, hcount]

/-- An integer that is too large keeps others from having a mean. -/
theorem mean_of_large (hn : n ∈ ns) (h : Binary64.bound ≤ n.natAbs) :
    mean ns = .error .overflow := by
  have hnone : ns.mapM rounded? = none := by
    induction ns with
    | nil => cases hn
    | cons m ns ih =>
      rw [List.mapM_cons]
      rcases List.mem_cons.mp hn with rfl | hn
      · rw [rounded?_eq_none h]
        rfl
      · rw [ih hn]
        cases rounded? m <;> rfl
  rw [mean, hnone]
  rfl

end Dicebox
