import Dicebox.Proofs.Bits

/-! # The reals that numbers hold

A finite binary64 number holds a real number. What arithmetic makes of such numbers is rounded
faithfully: it lies on the same side as the exact result of everything that a number of 53 bits can
hold. So it is exact where the exact result can be held, and off by less than a unit of its last place
where not.

- `Holds`: the real number that a number holds.
- `Grid`, `Faithful`: what can be held, and faithful rounding.
- `Faithful.eq`, `Faithful.near`: exact results, and the size of the error.
- `Holds.lt_iff`, `Holds.le_iff`, `Holds.beq_iff`: numbers are compared by what they hold.
-/

open Float.Model (Format UnpackedFloat)
open Float.Model.UnpackedFloat

namespace Dicebox

/-! ## What is held -/

def Binary64.signOf (negative : Bool) : Sign := if negative then .negative else .positive

def signed (s : Sign) (c : ℝ) : ℝ := match s with
  | .negative => -c
  | .positive => c

def Holds (x : Float) (r : ℝ) : Prop := ∃ negative m e,
  Binary64.ofFloat x = .finite negative m e ∧ r = signed (Binary64.signOf negative) (m * 2 ^ e)

/-- A mantissa and an exponent as numbers have them. -/
structure Canonical (m : Nat) (e : Int) : Prop where
  lowest : -1074 ≤ e
  highest : e ≤ 971
  lt : m < 2 ^ 53
  normal : 2 ^ 52 ≤ m ∨ e = -1074

namespace Binary64

theorem canonical_of_ofFloat {x : Float} {negative : Bool} {m : Nat} {e : Int}
    (h : ofFloat x = finite negative m e) : Canonical m e := by
  have hwidth : twoTo 11 = 2 ^ 11 := rfl
  have hfraction : twoTo 52 = 2 ^ 52 := rfl
  rw [ofFloat, hwidth, hfraction] at h
  split at h
  · split at h <;> cases h
  · split at h
    · cases h
      exact ⟨by omega, by omega, by omega, .inr rfl⟩
    · cases h
      exact ⟨by omega, by omega, by omega, .inl (by omega)⟩

/-- A number in the form that arithmetic works on. -/
def unpacked : Binary64 → UnpackedFloat
  | nan => .notANumber
  | infinite negative => .infinity (signOf negative)
  | finite negative m e =>
    if h : m = 0 then .zero (signOf negative)
    else .finite (signOf negative) m e (Nat.pos_of_ne_zero h)

end Binary64

theorem toNat_unpackMantissa (v : BitVec 64) : (@unpackMantissa .binary64 v).toNat = v.toNat % 2 ^ 52 := by
  simp [unpackMantissa, BitVec.extractLsb_toNat]

theorem toNat_unpackSign (v : BitVec 64) : (@unpackSign .binary64 v).toNat = v.toNat / 2 ^ 63 := by
  have hlt := v.isLt
  simp [unpackSign, BitVec.extractLsb_toNat, Nat.shiftRight_eq_div_pow]
  omega

theorem ofBitVec_unpackSign (v : BitVec 64) :
    Sign.ofBitVec (@unpackSign .binary64 v) = Binary64.signOf (2 ^ 63 ≤ v.toNat) := by
  have hlt := v.isLt
  have hsign : @unpackSign .binary64 v = 0#1 ↔ ¬ 2 ^ 63 ≤ v.toNat := by
    rw [← BitVec.toNat_inj, toNat_unpackSign, BitVec.toNat_ofNat]
    omega
  simp only [Sign.ofBitVec, Binary64.signOf, hsign, decide_eq_true_eq]
  split <;> simp_all

theorem unpack_of_fields {v : BitVec 64} {e m : Nat}
    (hexponent : (@unpackExponent .binary64 v).toNat = e)
    (hmantissa : (@unpackMantissa .binary64 v).toNat = m) :
    unpack .binary64 v =
      if e = 2047 then
        if m = 0 then .infinity (Sign.ofBitVec (@unpackSign .binary64 v)) else .notANumber
      else if e = 0 then
        if h : m = 0 then .zero (Sign.ofBitVec (@unpackSign .binary64 v))
        else .finite (Sign.ofBitVec (@unpackSign .binary64 v)) m (-1074) (Nat.pos_of_ne_zero h)
      else .finite (Sign.ofBitVec (@unpackSign .binary64 v)) (m + 2 ^ 52) (e - 1075)
        (Nat.add_pos_right m (Nat.two_pow_pos 52)) := by
  have hones : @unpackExponent .binary64 v = -1#_ ↔ e = 2047 := by
    rw [← BitVec.toNat_inj, hexponent]
    rfl
  have hzero : @unpackExponent .binary64 v = 0#_ ↔ e = 0 := by
    rw [← BitVec.toNat_inj, hexponent]
    rfl
  have hnone : @unpackMantissa .binary64 v = 0#_ ↔ m = 0 := by
    rw [← BitVec.toNat_inj, hmantissa]
    rfl
  have hone : (1#1 ++ @unpackMantissa .binary64 v).toNat = m + 2 ^ 52 := by
    rw [BitVec.toNat_append, ← Nat.shiftLeft_add_eq_or_of_lt (BitVec.isLt _), hmantissa]
    exact Nat.add_comm _ _
  rw [unpack]
  simp only [hones, hzero, hnone, hone, hexponent, hmantissa]
  split
  · rfl
  · split
    · next h =>
      subst h
      rfl
    · rfl

/-- **A number is unpacked into its fields.** -/
theorem unpack_eq (x : Float) : x.toModel.unpack = (Binary64.ofFloat x).unpacked := by
  have hword : x.toBits.toNat = x.toModel.toBits.toBitVec.toNat := rfl
  rw [Binary64.ofFloat, Float.Model.unpack]
  simp only [twoTo_eq, hword]
  generalize x.toModel.toBits.toBitVec = v
  rw [unpack_of_fields (toNat_unpackExponent v) (toNat_unpackMantissa v), ofBitVec_unpackSign]
  split
  · split <;> rfl
  · split
    · rfl
    · rw [Binary64.unpacked, dif_neg (Nat.add_pos_right _ (Nat.two_pow_pos 52)).ne']

theorem Holds.unique {x : Float} {r r' : ℝ} (h : Holds x r) (h' : Holds x r') : r = r' := by
  obtain ⟨negative, m, e, hx, rfl⟩ := h
  obtain ⟨negative', m', e', hx', rfl⟩ := h'
  obtain ⟨rfl, rfl, rfl⟩ := Binary64.finite.inj (hx.symm.trans hx')
  rfl

/-! ## Packing -/

/-- An unpacked number holds a real number, in the form that can be packed. -/
inductive Valued : UnpackedFloat → ℝ → Prop
  | zero (s : Sign) : Valued (.zero s) 0
  | finite (s : Sign) {m : Nat} {e : Int} (hm : 0 < m) (h : Canonical m e) :
      Valued (.finite s m e hm) (signed s (m * 2 ^ e))

theorem holds_iff_valued {x : Float} {r : ℝ} : Holds x r ↔ Valued x.toModel.unpack r := by
  rw [Holds, unpack_eq]
  constructor
  · rintro ⟨negative, m, e, h, rfl⟩
    rw [h, Binary64.unpacked]
    split
    · next hm =>
      have hzero : signed (Binary64.signOf negative) (m * 2 ^ e) = 0 := by
        cases negative <;> simp [signed, Binary64.signOf, hm]
      rw [hzero]
      exact .zero _
    · exact .finite _ _ (Binary64.canonical_of_ofFloat h)
  · cases hx : Binary64.ofFloat x with
    | nan => intro h; cases h
    | infinite negative => intro h; cases h
    | finite negative m e =>
      rw [Binary64.unpacked]
      split
      · next hm =>
        intro h
        cases h
        refine ⟨negative, m, e, rfl, ?_⟩
        cases negative <;> simp [signed, Binary64.signOf, hm]
      · intro h
        cases h
        exact ⟨negative, m, e, rfl, rfl⟩

theorem unpack_packComponents (s : Sign) {e m : Nat} (he : e < 2047) (hm : m < 2 ^ 52) :
    unpack .binary64 (packComponents .binary64 s (BitVec.ofNat 11 e) (BitVec.ofNat 52 m)) =
      if e = 0 then if h : m = 0 then .zero s else .finite s m (-1074) (Nat.pos_of_ne_zero h)
      else .finite s (m + 2 ^ 52) (e - 1075) (Nat.add_pos_right m (Nat.two_pow_pos 52)) := by
  have hexponent : (@unpackExponent .binary64 (packComponents .binary64 s (BitVec.ofNat 11 e)
      (BitVec.ofNat 52 m))).toNat = e := by
    rw [unpackExponent_packComponents]
    exact Nat.mod_eq_of_lt (by omega : e < 2 ^ 11)
  have hmantissa : (@unpackMantissa .binary64 (packComponents .binary64 s (BitVec.ofNat 11 e)
      (BitVec.ofNat 52 m))).toNat = m := by
    rw [unpackMantissa_packComponents, BitVec.toNat_ofNat, Nat.mod_eq_of_lt hm]
  rw [unpack_of_fields hexponent hmantissa, if_neg he.ne, unpackSign_packComponents,
    Sign.ofBitVec_toBitVec]

theorem unpack_pack {u : UnpackedFloat} {r : ℝ} (h : Valued u r) :
    (Float.Model.pack u).unpack = u := by
  show unpack .binary64 (pack .binary64 u) = u
  cases h with
  | zero s => exact unpack_packComponents s (by decide : 0 < 2047) (by decide : 0 < 2 ^ 52)
  | @finite s m e hm h =>
    obtain ⟨hlowest, hhighest, hlt, hnormal⟩ := h
    have hfits : ¬ 2 ^ 11 ≤ (e + 1023 + 52).toNat + 1 := by omega
    show unpack .binary64 (if 2 ^ 11 ≤ (e + 1023 + 52).toNat + 1 then packedInfinity .binary64 s
      else if m.log2 + 1 = 53 then packComponents .binary64 s (BitVec.ofNat 11 (e + 1023 + 52).toNat)
        (BitVec.ofNat 52 m)
      else packComponents .binary64 s 0#11 (BitVec.ofNat 52 m)) = _
    rw [if_neg hfits]
    by_cases hfull : 2 ^ 52 ≤ m
    · have hlog : m.log2 + 1 = 53 :=
        congrArg (· + 1) ((Nat.log2_eq_iff hm.ne').mpr ⟨hfull, hlt⟩)
      have hfraction : BitVec.ofNat 52 m = BitVec.ofNat 52 (m - 2 ^ 52) := by
        rw [← BitVec.toNat_inj, BitVec.toNat_ofNat, BitVec.toNat_ofNat]
        omega
      rw [if_pos hlog, hfraction, unpack_packComponents s (by omega) (by omega), if_neg (by omega)]
      congr 1
      · omega
      · omega
    · have hlog : m.log2 + 1 ≠ 53 := by
        have := (Nat.log2_lt hm.ne').mpr (Nat.not_le.mp hfull)
        omega
      obtain rfl := hnormal.resolve_left hfull
      rw [if_neg hlog, unpack_packComponents s (by decide : 0 < 2047) (Nat.not_le.mp hfull),
        if_pos rfl, dif_neg hm.ne']

theorem holds_pack {u : UnpackedFloat} {r : ℝ} (h : Valued u r) :
    Holds (.ofModel (.pack u)) r := by
  rw [holds_iff_valued, unpack_pack h]
  exact h

/-! ## Faithful rounding -/

/-- The unit of the last place of numbers from 1 to 2. -/
noncomputable def unit : ℝ := 2 ^ (-52 : ℤ)

noncomputable def leastPositive : ℝ := 2 ^ (-1074 : ℤ)

/-- What a number of 53 bits can hold if it is not too large. -/
def Grid (c : ℝ) : Prop := ∃ m e : ℤ, |m| ≤ 2 ^ 53 ∧ -1074 ≤ e ∧ c = m * 2 ^ e

theorem Grid.neg {c : ℝ} (h : Grid c) : Grid (-c) := by
  obtain ⟨m, e, hm, he, rfl⟩ := h
  exact ⟨-m, e, by rwa [abs_neg], he, by push_cast; ring⟩

theorem grid_natCast {n : ℕ} (h : n ≤ 2 ^ 53) : Grid n :=
  ⟨n, 0, by rw [Nat.abs_cast]; exact_mod_cast h, by norm_num, by simp⟩

theorem grid_zpow {e : ℤ} (h : -1074 ≤ e) : Grid (2 ^ e) := ⟨1, e, by norm_num, h, by simp⟩

theorem grid_zero : Grid 0 := ⟨0, 0, by norm_num, by norm_num, by simp⟩

theorem grid_one : Grid 1 := ⟨1, 0, by norm_num, by norm_num, by simp⟩

theorem signed_neg (s : Sign) (c : ℝ) : signed (-s) c = -signed s c := by
  cases s
  · exact (neg_neg c).symm
  · rfl

theorem Valued.grid {u : UnpackedFloat} {r : ℝ} (h : Valued u r) : Grid r := by
  cases h with
  | zero => exact grid_zero
  | @finite s m e hm h =>
    have hgrid : Grid (m * 2 ^ e) :=
      ⟨m, e, by rw [Nat.abs_cast]; exact_mod_cast h.lt.le, h.lowest, by simp⟩
    cases s
    · exact hgrid.neg
    · exact hgrid

/-- What a number holds is on the grid. -/
theorem Holds.grid {x : Float} {r : ℝ} (h : Holds x r) : Grid r := (holds_iff_valued.mp h).grid

/-- A result is rounded faithfully: it lies on the same side of everything on the grid. -/
def Faithful (c r : ℝ) : Prop := ∀ g, Grid g → (g ≤ c → g ≤ r) ∧ (c ≤ g → r ≤ g)

namespace Faithful

variable {c r g : ℝ}

theorem refl (c : ℝ) : Faithful c c := fun _ _ => ⟨fun h => h, fun h => h⟩

theorem neg (h : Faithful c r) : Faithful (-c) (-r) := by
  intro g hg
  have hneg := h (-g) hg.neg
  constructor
  · intro hc
    have := hneg.2 (by linarith)
    linarith
  · intro hc
    have := hneg.1 (by linarith)
    linarith

theorem signed (h : Faithful c r) (s : Sign) : Faithful (signed s c) (signed s r) := by
  cases s
  · exact h.neg
  · exact h

theorem le (h : Faithful c r) (hg : Grid g) (hc : g ≤ c) : g ≤ r := (h g hg).1 hc

theorem ge (h : Faithful c r) (hg : Grid g) (hc : c ≤ g) : r ≤ g := (h g hg).2 hc

theorem abs_le_of_abs_le (h : Faithful c r) (hg : Grid g) (hc : |c| ≤ g) : |r| ≤ g :=
  abs_le.mpr ⟨h.le hg.neg (neg_le_of_abs_le hc), h.ge hg (le_of_abs_le hc)⟩

/-- **What can be held is not rounded.** -/
theorem eq (h : Faithful c r) (hc : Grid c) : r = c :=
  le_antisymm (h.ge hc le_rfl) (h.le hc le_rfl)

/-- A positive number lies between neighbours on the grid. -/
theorem exists_neighbours (hc : 0 < c) :
    ∃ u, u ≤ unit * c + leastPositive ∧
      ∃ g, Grid g ∧ g ≤ c ∧ Grid (g + u) ∧ c ≤ g + u := by
  have hlow : (2 : ℝ) ^ Int.log 2 c ≤ c := Int.zpow_log_le_self one_lt_two hc
  have hhigh : c < (2 : ℝ) ^ (Int.log 2 c + 1) := Int.lt_zpow_succ_log_self one_lt_two c
  obtain ⟨e, he⟩ : ∃ e, e = max (Int.log 2 c - 52) (-1074) := ⟨_, rfl⟩
  have hlowest : -1074 ≤ e := by omega
  have hpow : (0 : ℝ) < 2 ^ e := zpow_pos two_pos e
  have hbits : c / 2 ^ e < 2 ^ 53 := by
    rw [div_lt_iff₀ hpow]
    calc c < 2 ^ (Int.log 2 c + 1) := hhigh
      _ ≤ 2 ^ (53 + e) := zpow_le_zpow_right₀ one_le_two (by omega)
      _ = 2 ^ 53 * 2 ^ e := zpow_add₀ two_ne_zero 53 e
  have hfloor : ⌊c / 2 ^ e⌋ < 2 ^ 53 := by
    rw [Int.floor_lt]
    exact_mod_cast hbits
  have hnonneg : 0 ≤ ⌊c / 2 ^ e⌋ := Int.floor_nonneg.mpr (div_pos hc hpow).le
  refine ⟨2 ^ e, ?_, ⌊c / 2 ^ e⌋ * 2 ^ e, ?_, ?_, ?_, ?_⟩
  · rw [unit, leastPositive]
    have hlowestPos : (0 : ℝ) < 2 ^ (-1074 : ℤ) := zpow_pos two_pos _
    rcases le_total (-1074) (Int.log 2 c - 52) with h | h
    · have hunit : (2 : ℝ) ^ e = 2 ^ (-52 : ℤ) * 2 ^ Int.log 2 c := by
        rw [← zpow_add₀ two_ne_zero, he, max_eq_left h]
        congr 1
        ring
      have hscaled : (2 : ℝ) ^ (-52 : ℤ) * 2 ^ Int.log 2 c ≤ 2 ^ (-52 : ℤ) * c :=
        mul_le_mul_of_nonneg_left hlow (zpow_pos two_pos _).le
      linarith
    · rw [he, max_eq_right h]
      have : 0 ≤ (2 : ℝ) ^ (-52 : ℤ) * c := mul_nonneg (zpow_pos two_pos _).le hc.le
      linarith
  · exact ⟨_, e, by rw [abs_of_nonneg hnonneg]; exact hfloor.le, hlowest, rfl⟩
  · rw [← le_div_iff₀ hpow]
    exact Int.floor_le _
  · refine ⟨⌊c / 2 ^ e⌋ + 1, e, ?_, hlowest, by push_cast; ring⟩
    rw [abs_of_nonneg (by omega)]
    omega
  · have hlt := (div_lt_iff₀ hpow).mp (Int.lt_floor_add_one (c / 2 ^ e))
    linarith

/-- **The error is less than a unit of the last place.** -/
theorem near (h : Faithful c r) : |r - c| ≤ unit * |c| + leastPositive := by
  have hpositive : ∀ {c r : ℝ}, Faithful c r → 0 < c →
      |r - c| ≤ unit * |c| + leastPositive := by
    intro c r h hc
    obtain ⟨u, hu, g, hg, hgc, hg', hcg⟩ := exists_neighbours hc
    have hlow := h.le hg hgc
    have hhigh := h.ge hg' hcg
    rw [abs_of_pos hc]
    refine le_trans (abs_le.mpr ⟨?_, ?_⟩) hu <;> linarith
  rcases lt_trichotomy c 0 with hc | rfl | hc
  · have hneg := hpositive h.neg (neg_pos.mpr hc)
    rwa [abs_neg, neg_sub_neg, abs_sub_comm] at hneg
  · rw [h.eq grid_zero, sub_zero, abs_zero, mul_zero, zero_add]
    exact (zpow_pos two_pos _).le
  · exact hpositive h hc

end Faithful

/-! ## Comparisons -/

/-- The greater exponent has the greater number, whatever the mantissas. -/
theorem Canonical.lt_of_exponent {m m' : Nat} {e e' : Int} (h : Canonical m e)
    (h' : Canonical m' e') (he : e < e') : (m * 2 ^ e : ℝ) < m' * 2 ^ e' := by
  have hlowest := h.lowest
  have hpow : ∀ k : ℤ, (0 : ℝ) < 2 ^ k := zpow_pos two_pos
  have hfull : (2 ^ 52 : ℝ) ≤ m' := by exact_mod_cast h'.normal.resolve_right (by omega)
  have hlt : (m : ℝ) < 2 ^ 53 := by exact_mod_cast h.lt
  calc (m * 2 ^ e : ℝ) < 2 ^ 53 * 2 ^ e := mul_lt_mul_of_pos_right hlt (hpow e)
    _ = 2 ^ 52 * 2 ^ (e + 1) := by rw [zpow_add_one₀ two_ne_zero]; ring
    _ ≤ 2 ^ 52 * 2 ^ e' := mul_le_mul_of_nonneg_left
        (zpow_le_zpow_right₀ one_le_two (by omega)) (by norm_num)
    _ ≤ m' * 2 ^ e' := mul_le_mul_of_nonneg_right hfull (hpow e').le

theorem Canonical.compare_eq {m m' : Nat} {e e' : Int} (h : Canonical m e) (h' : Canonical m' e') :
    (compare e e').then (compare m m') = cmp (m * 2 ^ e : ℝ) (m' * 2 ^ e') := by
  rcases lt_trichotomy e e' with he | rfl | he
  · rw [compare_lt_iff_lt.mpr he, (cmp_eq_lt_iff _ _).mpr (h.lt_of_exponent h' he)]
    rfl
  · rw [compare_eq_iff_eq.mpr rfl, cmp_mul_pos_right (zpow_pos two_pos e),
      Nat.strictMono_cast.cmp_map_eq, cmp_eq_compare]
    rfl
  · rw [compare_gt_iff_gt.mpr he, (cmp_eq_gt_iff _ _).mpr (h'.lt_of_exponent h he)]
    rfl

theorem Valued.compare_eq {u v : UnpackedFloat} {a b : ℝ} (h : Valued u a) (h' : Valued v b) :
    u.compare v = some (cmp a b) := by
  have hpos : ∀ {m : Nat} {e : ℤ}, 0 < m → (0 : ℝ) < m * 2 ^ e := fun hm =>
    mul_pos (Nat.cast_pos.mpr hm) (zpow_pos two_pos _)
  cases h with
  | zero s =>
    cases h' with
    | zero s' => exact congrArg some (cmp_self_eq_eq (0 : ℝ)).symm
    | finite s' hm' h' =>
      cases s'
      · exact congrArg some ((cmp_eq_gt_iff _ _).mpr (neg_neg_of_pos (hpos hm'))).symm
      · exact congrArg some ((cmp_eq_lt_iff _ _).mpr (hpos hm')).symm
  | finite s hm h =>
    cases h' with
    | zero s' =>
      cases s
      · exact congrArg some ((cmp_eq_lt_iff _ _).mpr (neg_neg_of_pos (hpos hm))).symm
      · exact congrArg some ((cmp_eq_gt_iff _ _).mpr (hpos hm)).symm
    | finite s' hm' h' =>
      cases s <;> cases s'
      · show some (Ordering.swap _) = some (cmp (-_) (-_))
        rw [h.compare_eq h', cmp_swap]
        simp only [cmp, cmpUsing, neg_lt_neg_iff]
      · exact congrArg some ((cmp_eq_lt_iff _ _).mpr
          ((neg_neg_of_pos (hpos hm)).trans (hpos hm'))).symm
      · exact congrArg some ((cmp_eq_gt_iff _ _).mpr
          ((neg_neg_of_pos (hpos hm')).trans (hpos hm))).symm
      · exact congrArg some (h.compare_eq h')

namespace Holds

variable {x y : Float} {a b : ℝ}

/-- **Numbers are compared by what they hold.** -/
theorem compare_eq (h : Holds x a) (h' : Holds y b) :
    x.toModel.unpack.compare y.toModel.unpack = some (cmp a b) :=
  (holds_iff_valued.mp h).compare_eq (holds_iff_valued.mp h')

theorem lt_iff (h : Holds x a) (h' : Holds y b) : x < y ↔ a < b := by
  show decide ((x.toModel.unpack.compare y.toModel.unpack == some .lt) = true) = true ↔ a < b
  rw [h.compare_eq h', decide_eq_true_iff, beq_iff_eq, Option.some_inj, cmp_eq_lt_iff]

theorem le_iff (h : Holds x a) (h' : Holds y b) : x ≤ y ↔ a ≤ b := by
  show decide ((x.toModel.unpack.compare y.toModel.unpack).any (·.isLE) = true) = true ↔ a ≤ b
  rw [h.compare_eq h', decide_eq_true_iff, ← not_lt, ← cmp_eq_gt_iff]
  cases cmp a b <;> simp [Option.any]

theorem beq_iff (h : Holds x a) (h' : Holds y b) : (x == y) = true ↔ a = b := by
  show (x.toModel.unpack.compare y.toModel.unpack == some .eq) = true ↔ a = b
  rw [h.compare_eq h', ← cmp_eq_eq_iff a b]
  exact beq_iff_eq.trans Option.some_inj

end Holds

end Dicebox
