import Dicebox.Fairness.Gamma
import Dicebox.Proofs.Floats.Bounds

/-! # The incomplete gamma function is never too large

Both expansions are scaled by `exp (-x + a * log x - lgamma a)`, whose exponent is at most
`log (a / (2 * π)) / 2`, near `x = a`. For a large argument its parts are much larger than what is left
of them, so that each rounding may be off by tens. With a library that is off by less than a unit of
the last place, the errors come to a few hundred, and the exponential function of that is still a
number.

- `Elementary.Accurate`: a library that is off by less than a unit of the last place.
- `between_lanczosSum`, `logGamma_eq_ok`: Lanczos's approximation, as it is computed.
- `scale_eq_ok`: the scale is a number.
- `lowerGamma_eq_ok`, `upperGamma_eq_ok`: so are the two functions.
-/

namespace Dicebox

/-! ## Libraries -/

/-- A library is off by less than a unit of the last place. -/
structure Elementary.Accurate (lib : Elementary) : Prop where
  log : ∀ {x : Float} {a : ℝ}, Holds x a → 0 < a → Near (Real.log a) (lib.log x)
  exp : ∀ {x : Float} {a : ℝ}, Holds x a → Real.exp a ≤ 2 ^ 1023 → Near (Real.exp a) (lib.exp x)

theorem abs_log_le {c : ℝ} {k : ℕ} (hlow : 2 ^ (-k : ℤ) ≤ c) (hhigh : c ≤ 2 ^ k) :
    |Real.log c| ≤ k * (7 / 10) := by
  have hc : 0 < c := (zpow_pos two_pos _).trans_le hlow
  have htwo := Real.log_two_lt_d9
  have hk : (0 : ℝ) ≤ k := Nat.cast_nonneg k
  have hsum : k * Real.log 2 ≤ k * (7 / 10) := mul_le_mul_of_nonneg_left (by linarith) hk
  have hbelow := Real.log_le_log (zpow_pos two_pos _) hlow
  have habove := Real.log_le_log hc hhigh
  rw [Real.log_zpow, Int.cast_neg, Int.cast_natCast, neg_mul] at hbelow
  rw [Real.log_pow] at habove
  exact abs_le.mpr ⟨by linarith, by linarith⟩

theorem Holds.abs_log_le {x : Float} {a : ℝ} (h : Holds x a) (ha : 0 < a) :
    |Real.log a| ≤ 2 ^ 1023 := by
  obtain ⟨negative, m, e, hx, rfl⟩ := h
  obtain ⟨hlowest, hhighest, hlt, -⟩ := Binary64.canonical_of_ofFloat hx
  have hpow : (0 : ℝ) < 2 ^ e := zpow_pos two_pos e
  cases negative
  · have hm : (1 : ℝ) ≤ m := by
      have hpos : (0 : ℝ) < m := (mul_pos_iff_of_pos_right hpow).mp ha
      exact_mod_cast hpos
    have hbits : (m : ℝ) ≤ 2 ^ 53 := by exact_mod_cast hlt.le
    refine le_of_le_pow 10 (by norm_num) ((Dicebox.abs_log_le (k := 1074) ?_ ?_).trans (by norm_num))
    · calc (2 : ℝ) ^ (-(1074 : ℕ) : ℤ) ≤ 2 ^ e := zpow_le_zpow_right₀ one_le_two (by simpa using hlowest)
        _ ≤ m * 2 ^ e := le_mul_of_one_le_left hpow.le hm
    · calc (m * 2 ^ e : ℝ) ≤ 2 ^ 53 * 2 ^ e := mul_le_mul_of_nonneg_right hbits hpow.le
        _ = 2 ^ (53 + e) := by rw [zpow_add₀ two_ne_zero, zpow_ofNat]
        _ ≤ 2 ^ (1074 : ℤ) := zpow_le_zpow_right₀ one_le_two (by omega)
        _ = 2 ^ 1074 := zpow_natCast 2 1074
  · exact absurd ha (neg_nonpos.mpr (mul_nonneg m.cast_nonneg hpow.le)).not_gt

/-- A number is near the value of a function of real numbers, wherever that is not too large. -/
structure ValueOf (f : ℝ → ℝ) (x y : Float) : Prop where
  near : ∀ a, Holds x a → |f a| ≤ 2 ^ 1023 → Near (f a) y

theorem exists_valueOf (f : ℝ → ℝ) (x : Float) : ∃ y, ValueOf f x y := by
  by_cases h : ∃ a, Holds x a ∧ |f a| ≤ 2 ^ 1023
  · obtain ⟨a, ha, hle⟩ := h
    obtain ⟨y, hy⟩ := exists_near hle
    refine ⟨y, ⟨fun b hb _ => ?_⟩⟩
    rwa [hb.unique ha]
  · exact ⟨x, ⟨fun a ha hle => absurd ⟨a, ha, hle⟩ h⟩⟩

/-- A library that is as accurate as can be asked for. -/
noncomputable def Elementary.nearest : Elementary :=
  ⟨fun x => (exists_valueOf Real.log x).choose, fun x => (exists_valueOf Real.exp x).choose⟩

theorem Elementary.nearest_accurate : Elementary.nearest.Accurate where
  log {x a} h ha := (exists_valueOf Real.log x).choose_spec.near a h (h.abs_log_le ha)
  exp {x a} h hle := (exists_valueOf Real.exp x).choose_spec.near a h (by rwa [Real.abs_exp])

namespace Gamma

/-! ## Lanczos's approximation -/

/-- A step of the evaluation makes a number at most eight times as large. -/
structure Scales (f : Float → Float) : Prop where
  between : ∀ k : ℕ, k ≤ 200 → ∀ v, Between 0 (2 ^ k) v → Between 0 (2 ^ (k + 3)) (f v)

theorem scales_mul {x : Float} (h : Between 0 8 x) : Scales (· * x) := by
  refine ⟨fun k hk v hv => ?_⟩
  refine hv.mul h le_rfl le_rfl bound_zero (bound_pow (by omega)) (by norm_num) ?_
  rw [pow_add]
  norm_num

theorem scales_div {x : Float} {hi : ℝ} (h : Between 1 hi x) : Scales (· / x) := by
  refine ⟨fun k hk v hv => ?_⟩
  refine hv.div h le_rfl one_pos bound_zero (bound_pow (by omega)) (by rw [zero_div]) ?_
  rw [div_one]
  exact pow_le_pow_right₀ one_le_two (by omega)

/-- Evaluates a numerator and a denominator, the coefficients of the last step first. -/
def horner (f : Float → Float) : List (Float × Float) → Float × Float
  | [] => (0.0, 0.0)
  | c :: cs => (f (horner f cs).1 + c.1, f (horner f cs).2 + c.2)

theorem horner_eq_foldr (f : Float → Float) (cs : List (Float × Float)) :
    cs.foldr (fun c p => (f p.1 + c.1, f p.2 + c.2)) (0.0, 0.0) = horner f cs := by
  induction cs with
  | nil => rfl
  | cons c cs ih => rw [List.foldr_cons, ih, horner]

/-- The coefficients of a step are neither negative nor large. -/
structure Small (c : Float × Float) : Prop where
  numerator : Between 0 (2 ^ 37) c.1
  denominator : Between 0 (2 ^ 37) c.2

theorem small_of_mem {c : Float × Float} (h : c ∈ lanczosCoefficients) : Small c := by
  have hall : ∀ c ∈ lanczosCoefficients, ((0.0 ≤ c.1 ∧ c.1 ≤ 137438953472.0) ∧
      0.0 ≤ c.2 ∧ c.2 ≤ 137438953472.0) := by decide +kernel
  have hlarge : Holds 137438953472.0 (2 ^ 37) := by
    refine holds_of_ofFloat
      (by decide +kernel : Binary64.ofFloat 137438953472.0 = .finite false (2 ^ 52) (-15)) ?_
    norm_num
  obtain ⟨⟨hlow, hhigh⟩, hlow', hhigh'⟩ := hall c h
  exact ⟨between_of_le holds_zero hlarge hlow hhigh, between_of_le holds_zero hlarge hlow' hhigh'⟩

variable {f : Float → Float} {cs : List (Float × Float)}

theorem between_step {k : ℕ} (hf : Scales f) (hk : k ≤ 200) (hk' : 37 ≤ k) {v c : Float} {lo : ℝ}
    (hv : Between 0 (2 ^ k) v) (hc : Between lo (2 ^ 37) c) (hlo : Bound lo) :
    Between lo (2 ^ (k + 4)) (f v + c) := by
  refine (hf.between k hk v hv).add hc hlo (bound_pow (by omega)) (by rw [zero_add]) ?_
  have hle : (2 : ℝ) ^ 37 ≤ 2 ^ (k + 3) := pow_le_pow_right₀ one_le_two (by omega)
  have hdouble : (2 : ℝ) ^ (k + 4) = 2 ^ (k + 3) + 2 ^ (k + 3) := by ring
  linarith

theorem between_horner (hf : Scales f) (hcs : ∀ c ∈ cs, Small c) (hlength : cs.length ≤ 20) :
    Between 0 (2 ^ (37 + 4 * cs.length)) (horner f cs).1 ∧
      Between 0 (2 ^ (37 + 4 * cs.length)) (horner f cs).2 := by
  induction cs with
  | nil =>
    have hzero : Between 0 (2 ^ 37) 0.0 := holds_zero.between.mono le_rfl (by norm_num)
    exact ⟨hzero, hzero⟩
  | cons c cs ih =>
    rw [List.length_cons] at hlength
    obtain ⟨hnum, hden⟩ := ih (fun c hc => hcs c (List.mem_cons_of_mem _ hc)) (by omega)
    obtain ⟨hc, hc'⟩ := hcs c List.mem_cons_self
    have hk : 37 + 4 * cs.length ≤ 200 := by omega
    have hk' : 37 ≤ 37 + 4 * cs.length := by omega
    exact ⟨between_step hf hk hk' hnum hc bound_zero, between_step hf hk hk' hden hc' bound_zero⟩

/-- A quotient of what is at least 1 and not too large is not too small. -/
theorem between_quotient {num den : Float} (hnum : Between 1 (2 ^ 93) num)
    (hden : Between 1 (2 ^ 93) den) : Between (2 ^ (-93 : ℤ)) (2 ^ 93) (num / den) := by
  have hlow : Bound (2 ^ (-93 : ℤ)) := by
    simpa using bound_mul_zpow (n := 1) (e := -93) (by norm_num) (by norm_num) (by norm_num)
  refine hnum.div hden zero_le_one one_pos hlow (bound_pow (by norm_num)) ?_ (by rw [div_one])
  norm_num

theorem lanczosSum_of_lt {x : Float} (h : x < 5.0) : lanczosSum x =
    (horner (· * x) lanczosCoefficients).1 / (horner (· * x) lanczosCoefficients).2 := by
  rw [← horner_eq_foldr, lanczosSum, if_pos h]

theorem lanczosSum_of_not_lt {x : Float} (h : ¬ x < 5.0) : lanczosSum x =
    (horner (· / x) lanczosCoefficients.reverse).1 /
      (horner (· / x) lanczosCoefficients.reverse).2 := by
  rw [← horner_eq_foldr, List.foldr_reverse, lanczosSum, if_neg h]

theorem between_last (hf : Scales f) {v c : Float} (hv : Between 0 (2 ^ 85) v)
    (hc : Between 0 (2 ^ 37) c) (hle : 1.0 ≤ c) : Between 1 (2 ^ 93) (f v + c) :=
  (between_step hf (by norm_num) (by norm_num) hv (hc.of_le holds_one hle) bound_one).mono le_rfl
    (pow_le_pow_right₀ one_le_two (by norm_num))

/-- For small arguments the constant coefficient of the denominator is 0, and the one before it is
scaled once. -/
theorem between_lanczosSum_of_lt {x : Float} (hx : Between (1 / 2) 5 x) (hlt : x < 5.0) :
    Between (2 ^ (-93 : ℤ)) (2 ^ 93) (lanczosSum x) := by
  have hscales : Scales (· * x) := scales_mul (hx.mono (by norm_num) (by norm_num))
  obtain ⟨c, c', cs, hcs, hlength, hc, hc'⟩ : ∃ c c' cs, lanczosCoefficients = c :: c' :: cs ∧
      cs.length = 11 ∧ 1.0 ≤ c.1 ∧ 2.0 ≤ c'.2 :=
    ⟨_, _, _, rfl, rfl, by decide +kernel, by decide +kernel⟩
  have hsmall : ∀ c ∈ lanczosCoefficients, Small c := fun _ => small_of_mem
  rw [hcs] at hsmall
  obtain ⟨⟨hcnum, hcden⟩, hmore⟩ := List.forall_mem_cons.mp hsmall
  obtain ⟨⟨-, hcden'⟩, hall⟩ := List.forall_mem_cons.mp hmore
  rw [lanczosSum_of_lt hlt, hcs]
  refine between_quotient ?_ ?_
  · obtain ⟨hnum, -⟩ := between_horner hscales hmore (by rw [List.length_cons]; omega)
    rw [List.length_cons, hlength] at hnum
    exact between_last hscales hnum hcnum hc
  · obtain ⟨-, hden⟩ := between_horner hscales hall (by omega)
    rw [hlength] at hden
    have hstep := between_step hscales (by norm_num) (by norm_num) hden
      (hcden'.of_le holds_two hc') (bound_ofNat 2 (by norm_num))
    have hscaled : Between 1 (2 ^ 88) (((horner (· * x) cs).2 * x + c'.2) * x) :=
      hstep.mul hx (by norm_num) (by norm_num) bound_one (bound_pow (by norm_num)) (by norm_num)
        (by norm_num)
    exact hscaled.add hcden bound_one (bound_pow (by norm_num)) (by norm_num) (by norm_num)

/-- For large ones both leading coefficients are at least 1. -/
theorem between_lanczosSum_of_not_lt {x : Float} {hi : ℝ} (hx : Between 1 hi x) (hge : ¬ x < 5.0) :
    Between (2 ^ (-93 : ℤ)) (2 ^ 93) (lanczosSum x) := by
  have hscales : Scales (· / x) := scales_div hx
  obtain ⟨c, cs, hcs, hlength, hc, hc'⟩ : ∃ c cs, lanczosCoefficients.reverse = c :: cs ∧
      cs.length = 12 ∧ 1.0 ≤ c.1 ∧ 1.0 ≤ c.2 :=
    ⟨_, _, rfl, rfl, by decide +kernel, by decide +kernel⟩
  have hsmall : ∀ c ∈ lanczosCoefficients.reverse, Small c :=
    fun _ h => small_of_mem (List.mem_reverse.mp h)
  rw [hcs] at hsmall
  obtain ⟨⟨hcnum, hcden⟩, hmore⟩ := List.forall_mem_cons.mp hsmall
  obtain ⟨hnum, hden⟩ := between_horner hscales hmore (by omega)
  rw [hlength] at hnum hden
  rw [lanczosSum_of_not_lt hge, hcs]
  exact between_quotient (between_last hscales hnum hcnum hc) (between_last hscales hden hcden hc')

/-- **Lanczos's approximation is positive and not too large.** -/
theorem between_lanczosSum {x : Float} {a : ℝ} (hx : Holds x a) (hlow : 1 / 2 ≤ a) :
    Between (2 ^ (-93 : ℤ)) (2 ^ 93) (lanczosSum x) := by
  have hfive : Holds 5.0 5 := by
    refine holds_of_ofFloat
      (by decide +kernel : Binary64.ofFloat 5.0 = .finite false (5 * 2 ^ 50) (-50)) ?_
    norm_num
  by_cases hlt : x < 5.0
  · exact between_lanczosSum_of_lt ⟨a, hx, hlow, ((hx.lt_iff hfive).mp hlt).le⟩ hlt
  · have hge : 5 ≤ a := not_lt.mp fun h => hlt ((hx.lt_iff hfive).mpr h)
    exact between_lanczosSum_of_not_lt ⟨a, hx, by linarith, le_rfl⟩ hlt

/-! ## The logarithm of the gamma function -/

theorem unit_le : unit ≤ 1 / 1000 := by
  have := pow_mul_unit
  linarith

theorem between_lanczosOffset : Between 6 7 lanczosOffset := by
  refine ⟨_, holds_of_ofFloat (by decide +kernel :
    Binary64.ofFloat lanczosOffset = .finite false 6783186696667136 (-50)) rfl, ?_, ?_⟩ <;> norm_num

/-- A logarithm that is off by less than a unit of the last place. -/
theorem holds_log {lib : Elementary} (hlib : lib.Accurate) {x : Float} {a b : ℝ} (hx : Holds x a)
    (ha : 0 < a) (hb : |Real.log a| ≤ b) :
    ∃ l, Holds (lib.log x) l ∧ |l - Real.log a| ≤ (b + 1) * unit := by
  obtain ⟨l, hl, hnear⟩ := (hlib.log hx ha).exists_error
  refine ⟨l, hl, hnear.trans ?_⟩
  rw [mul_comm]
  exact mul_le_mul_of_nonneg_right (by linarith) unit_pos.le

section Lanczos

variable {lib : Elementary} (hlib : lib.Accurate) {x : Float} {n : ℕ} (hx : Holds x (n / 2)) (hn : 1 ≤ n)
  (hn' : n < 2 ^ 53)

include hx hn hlib in
theorem between_lanczosHead : Between (-74) 74 (lib.log (lanczosSum x) - lanczosOffset) := by
  have hlow : (1 : ℝ) ≤ n := by exact_mod_cast hn
  obtain ⟨s, hs, hslow, hshigh⟩ := between_lanczosSum hx (by linarith)
  have hspos : 0 < s := (zpow_pos two_pos _).trans_le hslow
  have hlog : |Real.log s| ≤ 66 := (abs_log_le (k := 93) hslow hshigh).trans (by norm_num)
  obtain ⟨l, hl, hnear⟩ := holds_log hlib hs hspos hlog
  obtain ⟨hlog₁, hlog₂⟩ := abs_le.mp hlog
  obtain ⟨hnear₁, hnear₂⟩ := abs_le.mp hnear
  have hunit := unit_le
  have hbound : Between (-67) 67 (lib.log (lanczosSum x)) := ⟨l, hl, by linarith, by linarith⟩
  exact hbound.sub between_lanczosOffset (bound_ofNat 74 (by norm_num)).neg
    (bound_ofNat 74 (by norm_num)) (by norm_num) (by norm_num)

include hx hn hn'

theorem between_lanczosArgument : Between (max (n / 2) 5) (2 ^ 53) (x + lanczosOffset - 0.5) := by
  have hlow : (1 : ℝ) ≤ n := by exact_mod_cast hn
  have hhigh : (n + 1 : ℝ) ≤ 2 ^ 53 := by exact_mod_cast hn'
  have hhalf : Bound ((n + 1) / 2) := by exact_mod_cast bound_half hn'
  have hsum := hx.between.add between_lanczosOffset (hhalf.max (bound_ofNat 6 (by norm_num)))
    (bound_pow (k := 53) (by norm_num)) (max_le (by linarith) (by linarith)) (by linarith)
  refine hsum.sub holds_half.between ((bound_half (by omega)).max (bound_ofNat 5 (by norm_num)))
    (bound_pow (by norm_num)) (max_le ?_ ?_) (by linarith)
  · linarith [le_max_left ((n + 1) / 2 : ℝ) 6]
  · linarith [le_max_right ((n + 1) / 2 : ℝ) 6]

include hlib

theorem holds_lanczosFactor : ∃ u, Holds (lib.log (x + lanczosOffset - 0.5) - 1.0) u ∧ 0 ≤ u ∧
    u ≤ 38 ∧ Real.log (n / 2) - 1 ≤ u + 78 * unit := by
  have hlow : (1 : ℝ) ≤ n := by exact_mod_cast hn
  obtain ⟨z, hz, hzlow, hzhigh⟩ := between_lanczosArgument hx hn hn'
  have hzn : (n / 2 : ℝ) ≤ z := (le_max_left _ _).trans hzlow
  have hzfive : 5 ≤ z := (le_max_right _ _).trans hzlow
  have hunit := unit_le
  have hunit₀ := unit_pos
  have hv : 13 / 10 ≤ Real.log z := by
    have hfour := Real.log_le_log (by norm_num : (0 : ℝ) < 2 ^ 2) (by linarith : (2 : ℝ) ^ 2 ≤ z)
    rw [Real.log_pow] at hfour
    have := Real.log_two_gt_d9
    push_cast at hfour
    linarith
  have hv' : Real.log z ≤ 371 / 10 := by
    have habs := abs_log_le (k := 53) ((zpow_le_one_of_nonpos₀ one_le_two (by norm_num)).trans
      (by linarith)) hzhigh
    push_cast at habs
    linarith [le_abs_self (Real.log z)]
  have hmono : Real.log (n / 2) ≤ Real.log z := Real.log_le_log (by linarith) hzn
  obtain ⟨l, hl, hlnear⟩ := holds_log hlib hz (by linarith)
    (abs_le.mpr ⟨by linarith, by linarith⟩ : |Real.log z| ≤ 38)
  obtain ⟨hl₁, hl₂⟩ := abs_le.mp hlnear
  have hless : |l - 1| ≤ 37 := abs_le.mpr ⟨by linarith, by linarith⟩
  have hspace : |l - 1| ≤ 2 ^ 1023 := le_of_le_pow 6 (by norm_num) (by linarith)
  obtain ⟨u, hu, hfaithful⟩ := hl.sub holds_one hspace
  have herror := mul_le_mul_of_nonneg_left (add_le_add_left hless 1) hunit₀.le
  obtain ⟨hu₁, hu₂⟩ := abs_le.mp (hfaithful.error.trans herror)
  exact ⟨u, hu, by linarith, by linarith, by linarith⟩

theorem holds_lanczosTail : ∃ t,
    Holds ((x - 0.5) * (lib.log (x + lanczosOffset - 0.5) - 1.0)) t ∧ 0 ≤ t ∧ t ≤ 2 ^ 58 ∧
      n / 2 * (Real.log (n / 2) - 1) ≤ t + 140 := by
  have hlow : (1 : ℝ) ≤ n := by exact_mod_cast hn
  have hhigh : (n + 1 : ℝ) ≤ 2 ^ 53 := by exact_mod_cast hn'
  have hunit := unit_pos
  obtain ⟨u, hu, hu₀, hu₁, hlog⟩ := holds_lanczosFactor hlib hx hn hn'
  obtain ⟨w, hw⟩ : ∃ w : ℝ, w = n / 2 - 1 / 2 := ⟨_, rfl⟩
  have hx' : Holds (x - 0.5) w := by
    have hbound : Bound w := by
      have := bound_half (n := n - 1) (by omega)
      rwa [Nat.cast_sub hn, Nat.cast_one, sub_div, ← hw] at this
    have hbound' := hbound
    rw [hw] at hbound' ⊢
    exact holds_of_faithful (hx.sub holds_half hbound'.le) hbound'.grid
  have hw₀ : 0 ≤ w := by linarith
  have hw₁ : w ≤ 2 ^ 52 := by linarith
  have hproduct : w * u ≤ 2 ^ 52 * 38 := mul_le_mul hw₁ hu₁ hu₀ (by norm_num)
  have hproduct₀ : 0 ≤ w * u := mul_nonneg hw₀ hu₀
  have hproduct₁ : w * u ≤ 2 ^ 58 := by linarith
  obtain ⟨t, ht, hfaithful⟩ := hx'.mul hu
    (le_of_le_pow 58 (by norm_num) (by rwa [abs_of_nonneg hproduct₀]))
  have ht₀ := hfaithful.le grid_zero hproduct₀
  refine ⟨t, ht, ht₀, hfaithful.ge (bound_pow (by norm_num)).grid hproduct₁, ?_⟩
  rcases le_total (Real.log (n / 2)) 1 with hsmall | hlarge
  · have := mul_nonneg (by linarith : (0 : ℝ) ≤ n / 2) (sub_nonneg.mpr hsmall)
    linarith
  · have herror := hfaithful.error
    rw [abs_of_nonneg hproduct₀, mul_add, mul_one] at herror
    have hscaled := unit_mul_le hproduct
    have hscaled' := unit_mul_le (hw₁.trans_eq (mul_one _).symm)
    have hmain := mul_le_mul_of_nonneg_left hlog hw₀
    have hsplit : n / 2 * (Real.log (n / 2) - 1) =
        w * (Real.log (n / 2) - 1) + (Real.log (n / 2) - 1) / 2 := by
      rw [hw]
      ring
    have hunit' := unit_le
    linarith [(abs_le.mp herror).1]

theorem holds_lanczos : ∃ c,
    Holds (lib.log (lanczosSum x) - lanczosOffset +
      (x - 0.5) * (lib.log (x + lanczosOffset - 0.5) - 1.0)) c ∧ -74 ≤ c ∧ c ≤ 2 ^ 59 ∧
      n / 2 * (Real.log (n / 2) - 1) ≤ c + 280 := by
  obtain ⟨r, hr, hr₀, hr₁⟩ := between_lanczosHead hlib hx hn
  obtain ⟨t, ht, ht₀, ht₁, hmain⟩ := holds_lanczosTail hlib hx hn hn'
  have hsum : |r + t| ≤ 2 ^ 52 * 65 := abs_le.mpr ⟨by linarith, by linarith⟩
  obtain ⟨c, hc, hfaithful⟩ := hr.add ht (le_of_le_pow 59 (by norm_num) (by linarith))
  have hlow := hfaithful.le (bound_ofNat 74 (by norm_num)).neg.grid (by linarith)
  have hhigh := hfaithful.ge (bound_pow (k := 59) (by norm_num)).grid (by linarith)
  refine ⟨c, hc, hlow, hhigh, ?_⟩
  have herror := hfaithful.error
  rw [mul_add, mul_one] at herror
  have hscaled := unit_mul_le hsum
  have hunit := unit_le
  linarith [(abs_le.mp herror).1]

/-- **The logarithm of the gamma function is a number**, and not far below what it would be without
its lesser parts. -/
theorem logGamma_eq_ok : ∃ y c, logGamma lib x = .ok y ∧ Holds y c ∧ -74 ≤ c ∧ c ≤ 2 ^ 59 ∧
    n / 2 * (Real.log (n / 2) - 1) ≤ c + 280 := by
  have hlow : (1 : ℝ) ≤ n := by exact_mod_cast hn
  have htiny : Holds 1e-20 (6646139978924579 * 2 ^ (-119 : ℤ)) := holds_of_ofFloat (by decide +kernel :
    Binary64.ofFloat 1e-20 = .finite false 6646139978924579 (-119)) (by norm_num)
  have hnot : ¬ x < 1e-20 := fun hlt => by
    have := (hx.lt_iff htiny).mp hlt
    norm_num at this
    linarith
  rw [logGamma, hx.isNaN_eq, hx.isInf_eq, if_neg (by decide)]
  by_cases hequal : (x == 1.0 || x == 2.0) = true
  · -- At 1 and 2 it is zero.
    refine ⟨_, 0, if_pos hequal, holds_zero, by norm_num, by norm_num, ?_⟩
    have htwo : (n / 2 : ℝ) ≤ 2 := by
      rcases Bool.or_eq_true _ _ ▸ hequal with heq | heq
      · linarith [(hx.beq_iff holds_one).mp heq]
      · exact ((hx.beq_iff holds_two).mp heq).le
    have hlog : Real.log (n / 2) ≤ 1 := by
      have := Real.log_le_log (by linarith : (0 : ℝ) < n / 2) htwo
      linarith [Real.log_two_lt_d9]
    have := mul_nonneg (by linarith : (0 : ℝ) ≤ n / 2) (sub_nonneg.mpr hlog)
    linarith
  · obtain ⟨c, hc, hbounds⟩ := holds_lanczos hlib hx hn hn'
    rw [if_neg hequal, if_neg hnot]
    exact ⟨_, c, if_neg (by rw [hc.isInf_eq]; decide), hc, hbounds⟩

end Lanczos

/-! ## The scale -/

/-- The exponent of the scale is greatest where the argument is the parameter. -/
theorem mul_log_sub_le {a c : ℝ} (ha : 0 < a) (hc : 0 < c) :
    a * Real.log c - c ≤ a * (Real.log a - 1) := by
  have hlog := Real.log_le_sub_one_of_pos (div_pos hc ha)
  rw [Real.log_div hc.ne' ha.ne'] at hlog
  have hscaled := mul_le_mul_of_nonneg_left hlog ha.le
  rw [mul_sub, mul_sub, mul_div_cancel₀ _ ha.ne'] at hscaled
  linarith

/-- A power as it is computed: the logarithm is off by less than a unit of the last place, and its
multiple is rounded. -/
structure Power (n : ℕ) (c p : ℝ) : Prop where
  rounds : ∃ l, |l - Real.log c| ≤ unit * (|Real.log c| + 1) ∧ Faithful (n / 2 * l) p

namespace Power

variable {n : ℕ} {c p : ℝ} (h : Power n c p) (hn' : n < 2 ^ 53)

include hn' in
theorem half_le : (n / 2 : ℝ) ≤ 2 ^ 52 := by
  have hn₁ : (n : ℝ) ≤ 2 ^ 53 := by exact_mod_cast hn'.le
  linarith

include hn' in
/-- A factor that is at most so large makes a product that is at most so large. -/
theorem abs_mul_le {l k : ℝ} (hl : |l| ≤ k) : |n / 2 * l| ≤ 2 ^ 52 * k := by
  have hhalf : (0 : ℝ) ≤ n / 2 := div_nonneg n.cast_nonneg two_pos.le
  rw [abs_mul, abs_of_nonneg hhalf]
  exact mul_le_mul (half_le hn') hl (abs_nonneg l) (by norm_num)

include h hn'

/-- For an argument up to 1 the logarithm is at most one unit above zero. -/
theorem le_one (hpos : 0 < c) (hc : c ≤ 1) : p ≤ 1 := by
  obtain ⟨l, hnear, hfaithful⟩ := h.rounds
  have hunit := unit_pos
  have hunit' := unit_le
  have hneg := Real.log_nonpos hpos.le hc
  rw [abs_of_nonpos hneg] at hnear
  have hfactor : 0 ≤ (1 - unit) * -Real.log c := mul_nonneg (by linarith) (neg_nonneg.mpr hneg)
  have hl : l ≤ unit := by linarith [(abs_le.mp hnear).2]
  have hone : n / 2 * unit ≤ 1 := by
    rw [mul_comm]
    exact unit_mul_le (by linarith [half_le hn'])
  exact hfaithful.ge grid_one
    ((mul_le_mul_of_nonneg_left hl (div_nonneg n.cast_nonneg two_pos.le)).trans hone)

/-- For an argument that matters the errors are a few dozens. -/
theorem le_of_le (hone : 1 ≤ c) (hmid : c ≤ 2 ^ 61) :
    p ≤ n / 2 * Real.log c + 89 ∧ p ≤ 2 ^ 52 * 44 := by
  obtain ⟨l, hnear, hfaithful⟩ := h.rounds
  have hunit := unit_pos
  have hunit' := unit_le
  have hlog₀ := Real.log_nonneg hone
  have hlog₁ : Real.log c ≤ 427 / 10 := by
    have habs := abs_log_le (k := 61) ((zpow_le_one_of_nonpos₀ one_le_two (by norm_num)).trans hone)
      hmid
    push_cast at habs
    linarith [le_abs_self (Real.log c)]
  rw [abs_of_nonneg hlog₀] at hnear
  have hfactor := mul_le_mul_of_nonneg_left hlog₁ hunit.le
  obtain ⟨hnear₁, hnear₂⟩ := abs_le.mp hnear
  have hsize := abs_mul_le hn' (abs_le.mpr ⟨by linarith, by linarith⟩ : |l| ≤ 43)
  have hscaled := unit_mul_le hsize
  have herror := hfaithful.error
  rw [mul_add, mul_one] at herror
  have hmain : n / 2 * l ≤ n / 2 * (Real.log c + 44 * unit) :=
    mul_le_mul_of_nonneg_left (by linarith) (div_nonneg n.cast_nonneg two_pos.le)
  have hunits := unit_mul_le ((half_le hn').trans_eq (mul_one _).symm)
  obtain ⟨herror₁, herror₂⟩ := abs_le.mp herror
  exact ⟨by linarith, by linarith [le_abs_self (n / 2 * l)]⟩

end Power

section Scale

variable {lib : Elementary} (hlib : lib.Accurate) {a x : Float} {n : ℕ} (ha : Holds a (n / 2)) (hn : 1 ≤ n)
  (hn' : n < 2 ^ 53) {c : ℝ} (hx : Holds x c) (hlow : 2 ^ (-300 : ℤ) ≤ c) (hhigh : c ≤ 2 ^ 220)

include hlib ha hn' hx hlow hhigh

theorem holds_power : ∃ p, Holds (a * lib.log x) p ∧ |p| ≤ 2 ^ 60 ∧ Power n c p := by
  have hpos : 0 < c := (zpow_pos two_pos _).trans_le hlow
  have hunit' := unit_le
  obtain ⟨l, hl, hnear⟩ := (hlib.log hx hpos).exists_error
  have hlog : |Real.log c| ≤ 210 := by
    have hwide : c ≤ 2 ^ 300 := hhigh.trans (pow_le_pow_right₀ one_le_two (by norm_num))
    exact (abs_log_le (k := 300) hlow hwide).trans (by norm_num)
  have hfactor := mul_le_mul_of_nonneg_left hlog unit_pos.le
  obtain ⟨hlog₁, hlog₂⟩ := abs_le.mp hlog
  obtain ⟨hnear₁, hnear₂⟩ := abs_le.mp hnear
  have hlarge : |n / 2 * l| ≤ 2 ^ 60 :=
    (Power.abs_mul_le hn' (abs_le.mpr ⟨by linarith, by linarith⟩ : |l| ≤ 211)).trans (by norm_num)
  obtain ⟨p, hp, hfaithful⟩ := ha.mul hl (le_of_le_pow 60 (by norm_num) hlarge)
  exact ⟨p, hp, hfaithful.abs_le_of_abs_le (bound_pow (by norm_num)).grid hlarge, ⟨l, hnear, hfaithful⟩⟩

include hn

theorem holds_exponent : ∃ q, Holds (-x + a * lib.log x) q ∧ -2 ^ 221 ≤ q ∧ q ≤ 2 ^ 60 ∧
    (q ≤ 1 ∨ q ≤ n / 2 * (Real.log (n / 2) - 1) + 140) := by
  have hpos : 0 < c := (zpow_pos two_pos _).trans_le hlow
  have hn₀ : (1 : ℝ) ≤ n := by exact_mod_cast hn
  obtain ⟨p, hp, hpbound, hpower⟩ := holds_power hlib ha hn' hx hlow hhigh
  obtain ⟨hp₁, hp₂⟩ := abs_le.mp hpbound
  have hsum : |-c + p| ≤ 2 ^ 221 := abs_le.mpr ⟨by linarith, by linarith⟩
  obtain ⟨q, hq, hfaithful⟩ := hx.neg.add hp (le_of_le_pow 221 (by norm_num) hsum)
  have hqlow := hfaithful.le (bound_pow (k := 221) (by norm_num)).neg.grid (by linarith)
  have hqhigh := hfaithful.ge (bound_pow (k := 60) (by norm_num)).grid (by linarith)
  refine ⟨q, hq, hqlow, hqhigh, ?_⟩
  rcases le_or_gt (-c + p) 1 with hneg | hbig
  · exact .inl (hfaithful.ge grid_one hneg)
  · have hc₁ : 1 ≤ c := by
      by_contra hlt
      linarith [hpower.le_one hn' hpos (by linarith)]
    obtain ⟨hmain, hp₃⟩ := hpower.le_of_le hn' hc₁ (by linarith)
    have herror := hfaithful.error
    rw [abs_of_pos (by linarith : 0 < -c + p), mul_add, mul_one] at herror
    have hscaled := unit_mul_le (by linarith : -c + p ≤ 2 ^ 52 * 44)
    have hpeak := mul_log_sub_le (by linarith : (0 : ℝ) < n / 2) hpos
    have hunit := unit_le
    right
    linarith [(abs_le.mp herror).2]

/-- **The scale of both expansions is a number.** -/
theorem scale_eq_ok : ∃ y, scale lib a x = .ok y := by
  have hpos : 0 < c := (zpow_pos two_pos _).trans_le hlow
  obtain ⟨g, d, hg, hd, hdlow, hdhigh, hmain⟩ := logGamma_eq_ok hlib ha hn hn'
  obtain ⟨q, hq, hqlow, hqhigh, hqmain⟩ := holds_exponent hlib ha hn hn' hx hlow hhigh
  have hle : q - d ≤ 709 := by rcases hqmain with hqmain | hqmain <;> linarith
  have habs : |q - d| ≤ 2 ^ 222 := abs_le.mpr ⟨by linarith, by linarith⟩
  obtain ⟨y, hy, hfaithful⟩ := hq.sub hd (le_of_le_pow 222 (by norm_num) habs)
  have hy' := hfaithful.ge (bound_ofNat 709 (by norm_num)).grid hle
  have hexp : Real.exp y ≤ 2 ^ 1023 := by
    have htwo := Real.log_two_gt_d9
    rw [← Real.le_log_iff_exp_le (by positivity), Real.log_pow]
    push_cast
    linarith
  obtain ⟨e, he, -⟩ := hlib.exp hy hexp
  have hnot : ¬ x ≤ 0.0 := fun h => absurd ((hx.le_iff holds_zero).mp h) hpos.not_ge
  rw [scale, if_neg hnot, hg]
  exact ⟨_, if_neg (by rw [he.isInf_eq, Bool.false_and]; decide)⟩

/-- **The lower function is a number.** -/
theorem lowerGamma_eq_ok : ∃ y, lowerGamma lib a x = .ok y := by
  obtain ⟨y, hy⟩ := scale_eq_ok hlib ha hn hn' hx hlow hhigh
  rw [lowerGamma, hy]
  exact ⟨_, rfl⟩

/-- **The upper function is a number**: its first denominator is at least a half. -/
theorem upperGamma_eq_ok (hge : ¬ x < a + 1.0) : ∃ y, upperGamma lib a x = .ok y := by
  obtain ⟨y, hy⟩ := scale_eq_ok hlib ha hn hn' hx hlow hhigh
  have hn₀ : (1 : ℝ) ≤ n := by exact_mod_cast hn
  have hn₁ : (n + 1 : ℝ) ≤ 2 ^ 53 := by exact_mod_cast hn'
  have hhalf : Bound ((n + 1) / 2) := by exact_mod_cast bound_half hn'
  have hwide : Bound (2 ^ 221) := bound_pow (by norm_num)
  obtain ⟨r, hr, hrlow, -⟩ := ha.between.add holds_one.between hhalf hwide (by linarith) (by linarith)
  have hcr : r ≤ c := not_lt.mp fun h => hge ((hx.lt_iff hr).mpr h)
  obtain ⟨d, hd, hdlow, -⟩ : Between (1 / 2) (2 ^ 221) (x + 1.0 - a) := by
    have hsize : |c| ≤ 2 ^ 220 := abs_le.mpr ⟨by linarith, hhigh⟩
    have hxbound : Bound c := ⟨hx.grid, le_of_le_pow 220 (by norm_num) hsize⟩
    have hnext := hx.between.add holds_one.between hxbound hwide (by linarith) (by linarith)
    have hlower : Bound (1 / 2) := by simpa using bound_half (n := 1) (by norm_num)
    exact hnext.sub ha.between hlower hwide (by linarith) (by linarith)
  have hnot : (x + 1.0 - a == 0.0) = false := by
    rw [Bool.eq_false_iff]
    intro h
    have := (hd.beq_iff holds_zero).mp h
    linarith
  rw [upperGamma, hy, hnot]
  exact ⟨_, rfl⟩

end Scale

end Gamma

end Dicebox
