import Dicebox.Proofs.Floats.Operations

/-! # Bounds that arithmetic keeps

Faithful rounding keeps every bound that a number can hold. Whatever lies between two such bounds before
it is rounded lies between them afterwards, so a computation is followed through by the bounds of its
steps alone. Where that is too coarse, the error of one step is at most `unit * (|c| + 1)`.

- `Bound`, `Between`: bounds that can be held, and numbers between two bounds.
- `Between.add`, `Between.mul`, `Between.div`: bounds of the operations.
- `holds_toFloat?`, `between_divided`: integers and their quotients.
- `Near`: what a library gives for a real number.
-/

open Float.Model (UnpackedFloat)

namespace Dicebox

/-! ## Bounds -/

/-- A bound that a number can hold. -/
structure Bound (g : ℝ) : Prop where
  grid : Grid g
  le : |g| ≤ 2 ^ 1023

theorem Bound.neg {g : ℝ} (h : Bound g) : Bound (-g) := ⟨h.grid.neg, by rw [abs_neg]; exact h.le⟩

theorem Bound.max {g g' : ℝ} (h : Bound g) (h' : Bound g') : Bound (max g g') := by
  rcases max_choice g g' with heq | heq <;> rw [heq] <;> assumption

theorem le_of_le_pow {c : ℝ} (k : ℕ) (hk : k ≤ 1023) (h : c ≤ 2 ^ k) : c ≤ 2 ^ 1023 :=
  h.trans (pow_le_pow_right₀ one_le_two hk)

theorem bound_mul_zpow {n : ℕ} {e : ℤ} (hn : n ≤ 2 ^ 53) (hlow : -1074 ≤ e) (hhigh : e ≤ 970) :
    Bound (n * 2 ^ e) := by
  have hbits : (n : ℝ) ≤ 2 ^ 53 := by exact_mod_cast hn
  refine ⟨⟨n, e, by rw [Nat.abs_cast]; exact_mod_cast hn, hlow, by rw [Int.cast_natCast]⟩, ?_⟩
  rw [abs_of_nonneg (by positivity)]
  calc (n * 2 ^ e : ℝ) ≤ 2 ^ 53 * 2 ^ (970 : ℤ) :=
        mul_le_mul hbits (zpow_le_zpow_right₀ one_le_two hhigh) (zpow_pos two_pos e).le (by norm_num)
    _ = 2 ^ 1023 := by rw [zpow_ofNat, ← pow_add]

theorem bound_natCast {n : ℕ} (h : n ≤ 2 ^ 53) : Bound n := by
  have := bound_mul_zpow h (by norm_num : (-1074 : ℤ) ≤ 0) (by norm_num)
  rwa [zpow_zero, mul_one] at this

theorem bound_ofNat (n : ℕ) [n.AtLeastTwo] (h : n ≤ 2 ^ 53) : Bound (OfNat.ofNat n : ℝ) :=
  bound_natCast h

theorem bound_zero : Bound 0 := by simpa using bound_natCast (Nat.zero_le _)

theorem bound_one : Bound 1 := by simpa using bound_natCast (n := 1) (by norm_num)

theorem bound_pow {k : ℕ} (h : k ≤ 970) : Bound (2 ^ k) := by
  have := bound_mul_zpow (n := 1) (e := k) (by norm_num) (by omega) (by omega)
  rwa [Nat.cast_one, one_mul, zpow_natCast] at this

theorem bound_half {n : ℕ} (h : n ≤ 2 ^ 53) : Bound (n / 2) := by
  have := bound_mul_zpow h (by norm_num : (-1074 : ℤ) ≤ -1) (by norm_num)
  rwa [zpow_neg_one, ← div_eq_mul_inv] at this

/-- A number holds a real number between two others. -/
def Between (lo hi : ℝ) (x : Float) : Prop := ∃ r, Holds x r ∧ lo ≤ r ∧ r ≤ hi

theorem Holds.between {x : Float} {r : ℝ} (h : Holds x r) : Between r r x := ⟨r, h, le_rfl, le_rfl⟩

/-- Rounding stays between bounds. -/
theorem between_of_faithful {x : Float} {c lo hi : ℝ} (h : ∃ r, Holds x r ∧ Faithful c r)
    (hlo : Bound lo) (hhi : Bound hi) (hle : lo ≤ c) (hge : c ≤ hi) : Between lo hi x := by
  obtain ⟨r, hr, hfaithful⟩ := h
  exact ⟨r, hr, hfaithful.le hlo.grid hle, hfaithful.ge hhi.grid hge⟩

theorem holds_of_faithful {x : Float} {c : ℝ} (h : ∃ r, Holds x r ∧ Faithful c r) (hc : Grid c) :
    Holds x c := by
  obtain ⟨r, hr, hfaithful⟩ := h
  rwa [← hfaithful.eq hc]

theorem abs_le_of_bounds {c lo hi : ℝ} (hlo : Bound lo) (hhi : Bound hi) (hle : lo ≤ c)
    (hge : c ≤ hi) : |c| ≤ 2 ^ 1023 :=
  abs_le.mpr ⟨(neg_le_of_abs_le hlo.le).trans hle, hge.trans (le_of_abs_le hhi.le)⟩

namespace Between

variable {x y : Float} {l u l' u' lo hi : ℝ}

theorem mono (h : Between l u x) (hlo : lo ≤ l) (hhi : u ≤ hi) : Between lo hi x := by
  obtain ⟨r, hr, hl, hu⟩ := h
  exact ⟨r, hr, hlo.trans hl, hu.trans hhi⟩

theorem of_le {b : ℝ} (h : Between l u x) (hy : Holds y b) (hle : y ≤ x) : Between b u x := by
  obtain ⟨r, hr, -, hu⟩ := h
  exact ⟨r, hr, (hy.le_iff hr).mp hle, hu⟩

theorem add (h : Between l u x) (h' : Between l' u' y) (hlo : Bound lo) (hhi : Bound hi)
    (hle : lo ≤ l + l') (hge : u + u' ≤ hi) : Between lo hi (x + y) := by
  obtain ⟨a, ha, hl, hu⟩ := h
  obtain ⟨b, hb, hl', hu'⟩ := h'
  have hlow : lo ≤ a + b := by linarith
  have hhigh : a + b ≤ hi := by linarith
  exact between_of_faithful (ha.add hb (abs_le_of_bounds hlo hhi hlow hhigh)) hlo hhi hlow hhigh

theorem sub (h : Between l u x) (h' : Between l' u' y) (hlo : Bound lo) (hhi : Bound hi)
    (hle : lo ≤ l - u') (hge : u - l' ≤ hi) : Between lo hi (x - y) := by
  obtain ⟨a, ha, hl, hu⟩ := h
  obtain ⟨b, hb, hl', hu'⟩ := h'
  have hlow : lo ≤ a - b := by linarith
  have hhigh : a - b ≤ hi := by linarith
  exact between_of_faithful (ha.sub hb (abs_le_of_bounds hlo hhi hlow hhigh)) hlo hhi hlow hhigh

theorem mul (h : Between l u x) (h' : Between l' u' y) (hl : 0 ≤ l) (hl' : 0 ≤ l') (hlo : Bound lo)
    (hhi : Bound hi) (hle : lo ≤ l * l') (hge : u * u' ≤ hi) : Between lo hi (x * y) := by
  obtain ⟨a, ha, hla, hua⟩ := h
  obtain ⟨b, hb, hlb, hub⟩ := h'
  have hlow : lo ≤ a * b := hle.trans (mul_le_mul hla hlb hl' (hl.trans hla))
  have hhigh : a * b ≤ hi :=
    (mul_le_mul hua hub (hl'.trans hlb) ((hl.trans hla).trans hua)).trans hge
  exact between_of_faithful (ha.mul hb (abs_le_of_bounds hlo hhi hlow hhigh)) hlo hhi hlow hhigh

theorem div (h : Between l u x) (h' : Between l' u' y) (hl : 0 ≤ l) (hl' : 0 < l') (hlo : Bound lo)
    (hhi : Bound hi) (hle : lo ≤ l / u') (hge : u / l' ≤ hi) : Between lo hi (x / y) := by
  obtain ⟨a, ha, hla, hua⟩ := h
  obtain ⟨b, hb, hlb, hub⟩ := h'
  have hb0 : 0 < b := hl'.trans_le hlb
  have hlow : lo ≤ a / b := hle.trans (div_le_div₀ (hl.trans hla) hla hb0 hub)
  have hhigh : a / b ≤ hi :=
    (div_le_div₀ ((hl.trans hla).trans hua) hua hl' hlb).trans hge
  exact between_of_faithful (ha.div hb hb0.ne' (abs_le_of_bounds hlo hhi hlow hhigh)) hlo hhi
    hlow hhigh

end Between

/-! ## Constants -/

theorem holds_of_ofFloat {x : Float} {m : Nat} {e : Int} {r : ℝ}
    (h : Binary64.ofFloat x = .finite false m e) (hr : r = m * 2 ^ e) : Holds x r := ⟨_, _, _, h, hr⟩

theorem holds_zero : Holds 0.0 0 := by
  refine holds_of_ofFloat (by decide +kernel : Binary64.ofFloat 0.0 = .finite false 0 (-1074)) ?_
  norm_num

theorem holds_one : Holds 1.0 1 := by
  refine holds_of_ofFloat (by decide +kernel : Binary64.ofFloat 1.0 = .finite false (2 ^ 52) (-52)) ?_
  norm_num

theorem holds_two : Holds 2.0 2 := by
  refine holds_of_ofFloat (by decide +kernel : Binary64.ofFloat 2.0 = .finite false (2 ^ 52) (-51)) ?_
  norm_num

theorem holds_half : Holds 0.5 (1 / 2) := by
  refine holds_of_ofFloat (by decide +kernel : Binary64.ofFloat 0.5 = .finite false (2 ^ 52) (-53)) ?_
  norm_num

theorem holds_or_not (x : Float) : (∃ r, Holds x r) ∨ x.toModel.unpack = .notANumber ∨
    ∃ s, x.toModel.unpack = .infinity s := by
  rw [unpack_eq]
  cases hx : Binary64.ofFloat x with
  | nan => exact .inr (.inl rfl)
  | infinite negative => exact .inr (.inr ⟨_, rfl⟩)
  | finite negative m e => exact .inl ⟨_, negative, m, e, hx, rfl⟩

theorem le_iff_compare (x y : Float) :
    x ≤ y ↔ (x.toModel.unpack.compare y.toModel.unpack).any (·.isLE) = true :=
  decide_eq_true_iff

theorem between_of_le {x y z : Float} {a b : ℝ} (hy : Holds y a) (hz : Holds z b) (hle : y ≤ x)
    (hge : x ≤ z) : Between a b x := by
  rcases holds_or_not x with ⟨r, hr⟩ | hnan | ⟨s, hs⟩
  · exact ⟨r, hr, (hy.le_iff hr).mp hle, (hr.le_iff hz).mp hge⟩
  · rw [le_iff_compare, hnan] at hge
    cases hge
  · rw [le_iff_compare, hs] at hle hge
    have hvalued := holds_iff_valued.mp hy
    have hvalued' := holds_iff_valued.mp hz
    generalize y.toModel.unpack = u at hle hvalued
    generalize z.toModel.unpack = v at hge hvalued'
    cases s
    · cases hvalued with
      | zero => cases hle
      | finite s => cases s <;> cases hle
    · cases hvalued' with
      | zero => cases hge
      | finite s => cases s <;> cases hge

/-! ## Integers and their quotients -/

/-- **The number nearest to a fraction is rounded faithfully.** -/
theorem nearest?_faithful {num den : Nat} {x : Float} (hnum : num ≠ 0) (hden : den ≠ 0)
    (h : nearest? false num den = some x) : ∃ r, Holds x r ∧ Faithful (num / den) r := by
  obtain ⟨m, hassemble, hrounds⟩ := nearest?_rounds hnum hden false
  obtain ⟨hlow, hhigh⟩ := scaleOf_bounds hnum hden
  rw [hassemble] at h
  obtain ⟨hlowest, hle, hnormal, hnear, -⟩ := hrounds
  generalize scaleOf num den = e at *
  have hpow : (0 : ℝ) < 2 ^ e := zpow_pos two_pos e
  obtain ⟨y, hy⟩ : ∃ y : ℝ, y = num / den / 2 ^ e := ⟨_, rfl⟩
  have hvalue : (num / den : ℝ) = y * 2 ^ e := by rw [hy, div_mul_cancel₀ _ hpow.ne']
  have hscaled : Scaled y e := by
    refine ⟨hlowest, ?_, hlow.imp_left fun hlow => ?_⟩
    · have hreal := (Rat.cast_lt (K := ℝ)).mpr hhigh
      push_cast at hreal
      rwa [hy, div_lt_iff₀ hpow, ← zpow_ofNat, ← zpow_add₀ two_ne_zero, add_comm]
    · have hreal := (Rat.cast_le (K := ℝ)).mpr hlow
      push_cast at hreal
      rwa [hy, le_div_iff₀ hpow, ← zpow_ofNat, ← zpow_add₀ two_ne_zero, add_comm]
  have hoff : |m - y| ≤ 1 / 2 := by
    have hreal := (Rat.cast_le (K := ℝ)).mpr hnear
    push_cast at hreal
    rw [hvalue, ← sub_mul, abs_mul, abs_of_pos hpow] at hreal
    exact le_of_mul_le_mul_right (hreal.trans_eq (by ring)) hpow
  have hheld : Holds x (m * 2 ^ e) := by
    rcases hle.lt_or_eq with hlt | rfl
    · exact ⟨false, m, e, Binary64.ofFloat_of_assemble? hlowest hlt hnormal h, rfl⟩
    · rw [← twoTo_eq, Binary64.assemble?_full] at h
      refine holds_of_ofFloat (Binary64.ofFloat_of_assemble? (by omega) (by decide) (.inl le_rfl) h) ?_
      rw [zpow_add_one₀ two_ne_zero, twoTo_eq]
      push_cast
      ring
  exact ⟨_, hheld, hvalue ▸ hscaled.faithful (rounded_of_near hoff)⟩

/-- A quotient of natural numbers is rounded faithfully. -/
theorem ratio?_faithful {num den : Nat} (hden : den ≠ 0) (h : num < den * Binary64.bound) :
    ∃ x, ratio? num den = some x ∧ ∃ r, Holds x r ∧ Faithful (num / den) r := by
  have hpositive : ratio? num den = nearest? false num den := by
    rw [ratio?, Int.natAbs_natCast, decide_eq_false (by omega)]
  rw [hpositive]
  by_cases hnum : num = 0
  · have hheld : Holds 0 0 :=
      holds_of_ofFloat (by decide +kernel : Binary64.ofFloat 0 = .finite false 0 (-1074)) (by norm_num)
    refine ⟨0, if_pos hnum, 0, hheld, ?_⟩
    rw [hnum, Nat.cast_zero, zero_div]
    exact .refl 0
  · obtain ⟨x, hx⟩ := exists_nearest? false h
    exact ⟨x, hx, nearest?_faithful hnum hden hx⟩

theorem holds_toFloat? {n : Nat} (h : n ≤ 2 ^ 53) : ∃ x, toFloat? n = some x ∧ Holds x n := by
  have hsmall : n < 1 * Binary64.bound := by
    rw [Nat.one_mul]
    exact h.trans_lt (Binary64.pow_lt_bound (by norm_num))
  obtain ⟨x, hx, r, hr, hfaithful⟩ := ratio?_faithful Nat.one_ne_zero hsmall
  rw [Nat.cast_one, div_one] at hfaithful
  rw [hfaithful.eq (grid_natCast h)] at hr
  exact ⟨x, hx, hr⟩

theorem between_divided {num den : Nat} {lo hi : ℝ} (hden : den ≠ 0) (hnum : num ≤ 2 ^ 53)
    (hlo : Bound lo) (hhi : Bound hi) (hle : lo ≤ num / den) (hge : num / den ≤ hi) :
    ∃ x, divided num den = .ok x ∧ Between lo hi x := by
  have hsmall : num < den * Binary64.bound := calc
    num ≤ 2 ^ 53 := hnum
    _ < Binary64.bound := Binary64.pow_lt_bound (by norm_num)
    _ ≤ den * Binary64.bound := Nat.le_mul_of_pos_left _ (Nat.pos_of_ne_zero hden)
  obtain ⟨x, hx, hheld⟩ := ratio?_faithful hden hsmall
  refine ⟨x, ?_, between_of_faithful hheld hlo hhi hle hge⟩
  rw [divided, if_neg hden, hx]

/-! ## What a library gives -/

theorem unit_pos : 0 < unit := zpow_pos two_pos _

theorem pow_mul_unit : 2 ^ 52 * unit = 1 := by
  rw [unit, zpow_neg, zpow_ofNat, mul_inv_cancel₀ (by norm_num)]

/-- A number is off by less than a unit of the last place from a real number. -/
def Near (c : ℝ) (x : Float) : Prop := ∃ r, Holds x r ∧ |r - c| ≤ unit * |c| + leastPositive

theorem error_le {c r : ℝ} (h : |r - c| ≤ unit * |c| + leastPositive) :
    |r - c| ≤ unit * (|c| + 1) := by
  have hlowest : leastPositive ≤ unit := zpow_le_zpow_right₀ one_le_two (by norm_num)
  linarith

/-- The error of what is near, without a word about the lowest exponent. -/
theorem Near.exists_error {c : ℝ} {x : Float} (h : Near c x) :
    ∃ r, Holds x r ∧ |r - c| ≤ unit * (|c| + 1) := by
  obtain ⟨r, hr, hnear⟩ := h
  exact ⟨r, hr, error_le hnear⟩

theorem Faithful.error {c r : ℝ} (h : Faithful c r) : |r - c| ≤ unit * (|c| + 1) := error_le h.near

theorem unit_mul_le {c k : ℝ} (h : c ≤ 2 ^ 52 * k) : unit * c ≤ k := by
  have := mul_le_mul_of_nonneg_left h unit_pos.le
  rwa [← mul_assoc, mul_comm unit (2 ^ 52), pow_mul_unit, one_mul] at this

theorem Bound.exists_holds {g : ℝ} (h : Bound g) : ∃ x, Holds x g := by
  obtain ⟨⟨m, e, hm, he, rfl⟩, hle⟩ := h
  obtain ⟨r, hr, hfaithful⟩ := valued_normalize .positive hle
  rw [hfaithful.eq ⟨m, e, hm, he, rfl⟩] at hr
  exact ⟨_, holds_pack hr⟩

theorem Near.neg {c : ℝ} {x : Float} (h : Near c x) : Near (-c) (-x) := by
  obtain ⟨r, hr, hnear⟩ := h
  refine ⟨-r, hr.neg, ?_⟩
  rwa [neg_sub_neg, abs_sub_comm, abs_neg]

theorem exists_near {c : ℝ} (h : |c| ≤ 2 ^ 1023) : ∃ x, Near c x := by
  have hpositive : ∀ {c : ℝ}, 0 < c → c ≤ 2 ^ 1023 → ∃ x, Near c x := by
    intro c hc hle
    obtain ⟨u, hu, g, hg, hgc, -, hcg⟩ := Faithful.exists_neighbours hc
    have hlowest : leastPositive ≤ 1 := zpow_le_one_of_nonpos₀ one_le_two (by norm_num)
    have hunit : unit ≤ 1 := zpow_le_one_of_nonpos₀ one_le_two (by norm_num)
    have hone : -(2 ^ 1023 : ℝ) ≤ -1 := neg_le_neg (one_le_pow₀ one_le_two)
    have hscaled : unit * c ≤ c := mul_le_of_le_one_left hc.le hunit
    have hbound : Bound g := ⟨hg, abs_le.mpr ⟨hone.trans (by linarith), hgc.trans hle⟩⟩
    obtain ⟨x, hx⟩ := hbound.exists_holds
    refine ⟨x, g, hx, ?_⟩
    rw [abs_of_pos hc]
    exact (abs_le.mpr ⟨by linarith, by linarith⟩ : |g - c| ≤ u).trans hu
  rcases lt_trichotomy c 0 with hc | rfl | hc
  · obtain ⟨x, hx⟩ := hpositive (neg_pos.mpr hc) (by rwa [← abs_of_neg hc])
    exact ⟨-x, neg_neg c ▸ hx.neg⟩
  · refine ⟨0.0, 0, holds_zero, ?_⟩
    rw [sub_zero, abs_zero, mul_zero, zero_add]
    exact (zpow_pos two_pos _).le
  · exact hpositive hc (by rwa [abs_of_pos hc] at h)

end Dicebox
