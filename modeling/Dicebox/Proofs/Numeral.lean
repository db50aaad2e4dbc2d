import Dicebox.Expr.Read
import Mathlib

/-! # Numerals of whole numbers

A number that is not negative is written as its digits and nothing else, so a run of digits is read
back as the number it was written for, and no run of digits stands for a number that is longer than
the run.

- `Numeral.read_of_digits_of_lt`: a run that is too long is no number.
- `Numeral.showable_iff`: which integers can be shown.
- `Numeral.showable_ofDigitChars`: what a short run stands for can be shown.
- `Numeral.showable_of_readWhole`: a stored number is never too long to be shown.
-/

namespace Dicebox.Numeral

/-! ## Writing -/

theorem ofInt_of_nonneg {n : Int} (h : 0 ≤ n) : ofInt n = Nat.toDigits 10 n.toNat := by
  obtain ⟨m, rfl⟩ := Int.eq_ofNat_of_zero_le h
  rfl

theorem ofInt_ne_nil {n : Int} (h : 0 ≤ n) : ofInt n ≠ [] := by
  rw [ofInt_of_nonneg h]
  exact Nat.toDigits_ne_nil

theorem isDigit_of_mem_ofInt {n : Int} (h : 0 ≤ n) : ∀ c ∈ ofInt n, c.isDigit = true := by
  intro c hc
  rw [ofInt_of_nonneg h] at hc
  exact Nat.isDigit_of_mem_toDigits (by decide) (by decide) hc

theorem exists_ofInt_eq_cons {n : Int} (h : 0 ≤ n) :
    ∃ c cs, ofInt n = c :: cs ∧ ∀ d ∈ c :: cs, d.isDigit = true := by
  obtain ⟨c, cs, hcs⟩ := List.exists_cons_of_ne_nil (ofInt_ne_nil h)
  exact ⟨c, cs, hcs, hcs ▸ isDigit_of_mem_ofInt h⟩

theorem length_ofInt_le {n : Int} (h : 0 ≤ n) (hn : showable n = true) :
    (ofInt n).length ≤ digitLimit := by
  obtain ⟨m, rfl⟩ := Int.eq_ofNat_of_zero_le h
  exact of_decide_eq_true hn

theorem ofDigitChars_ofInt {n : Int} (h : 0 ≤ n) : (Nat.ofDigitChars 10 (ofInt n) 0 : Int) = n := by
  rw [ofInt_of_nonneg h, Nat.ofDigitChars_ten_toDigits]
  omega

/-! ## Reading -/

/-- White space, digits of other scripts and signs play no part in a run of digits. -/
theorem read_eq_readDigits {cs : List Char} (h : ∀ c ∈ cs, c.isDigit = true) :
    read cs = readDigits cs := by
  have hmap : cs.map Text.plainDigit = cs := by
    rw [List.map_congr_left fun c hc => Text.plainDigit_of_isDigit (h c hc), List.map_id']
  rw [read, hmap, trim_of_digits h, readSigned.eq_def]
  split
  · exact absurd (h '+' (by simp)) (by decide)
  · exact absurd (h '-' (by simp)) (by decide)
  · rfl

theorem read_of_digits_of_lt {cs : List Char} (h : ∀ c ∈ cs, c.isDigit = true)
    (hlen : digitLimit < cs.length) : read cs = .tooLong cs.length := by
  have mark : '_' ∉ cs := fun e => absurd (h '_' e) (by decide)
  have run : ∀ c ∈ cs, (c.isDigit || c == '_') = true := fun c hc => by simp [h c hc]
  have all : cs.takeWhile (fun c => c.isDigit || c == '_') = cs := by
    simpa using @List.takeWhile_append_of_pos _ _ cs [] run
  cases cs with
  | nil => exact absurd hlen (by simp)
  | cons c r =>
    rw [read_eq_readDigits h]
    simp only [readDigits, all, Text.ungroup?_of_notMem mark, if_pos hlen]

/-! ## Sizes -/

theorem ofDigitChars_lt {cs : List Char} (h : ∀ c ∈ cs, c.isDigit = true) :
    Nat.ofDigitChars 10 cs 0 < 10 ^ cs.length := by
  induction cs with
  | nil => simp
  | cons c cs ih =>
    have hc : c.toNat - '0'.toNat < 10 := by
      have hd := h c (by simp)
      simp only [Char.isDigit, Bool.and_eq_true, decide_eq_true_eq, UInt32.le_iff_toNat_le] at hd
      have hu : c.toNat ≤ 57 := hd.2
      have hz : '0'.toNat = 48 := rfl
      omega
    have ih := ih fun d hd => h d (by simp [hd])
    rw [Nat.ofDigitChars_cons, Nat.ofDigitChars_eq_ofDigitChars_zero, List.length_cons,
      Nat.pow_succ]
    have hle : 10 ^ cs.length * (10 * 0 + (c.toNat - '0'.toNat)) ≤ 10 ^ cs.length * 9 :=
      Nat.mul_le_mul_left _ (by omega)
    omega

theorem showable_iff {n : Int} : showable n = true ↔ n.natAbs < 10 ^ digitLimit := by
  rw [showable, decide_eq_true_iff, Nat.length_toDigits_le_iff (by decide) (by decide)]

@[simp] theorem showable_neg (n : Int) : showable (-n) = showable n := by
  rw [showable, Int.natAbs_neg, showable]

theorem showable_pow_digitLimit : showable (10 ^ digitLimit : Nat) = false := by
  rw [Bool.eq_false_iff, Ne, showable_iff, Int.natAbs_natCast]
  exact lt_irrefl _

theorem showable_ofDigitChars {cs : List Char} (h : ∀ c ∈ cs, c.isDigit = true)
    (hlen : cs.length ≤ digitLimit) : showable (Nat.ofDigitChars 10 cs 0 : Int) = true := by
  rw [showable_iff, Int.natAbs_natCast]
  exact Nat.lt_of_lt_of_le (ofDigitChars_lt h) (Nat.pow_le_pow_right (by decide) hlen)

/-! ## Reading back -/

theorem showable_of_readBareDigits {cs : List Char} {n : Int} (h : readBareDigits cs = .value n) :
    showable n = true := by
  simp only [readBareDigits] at h
  split at h
  · cases h
  split at h
  · cases h
  split at h
  · obtain rfl := Reading.value.inj h
    exact showable_ofDigitChars (fun c hc => List.mem_takeWhile_imp hc) (Nat.not_lt.mp ‹_›)
  · cases h

theorem showable_of_readBare {cs : List Char} {n : Int} (h : readBare cs = .value n) :
    showable n = true := by
  rw [readBare.eq_def] at h
  split at h
  · rename_i r
    cases hr : readBareDigits r with
    | value m =>
      rw [hr] at h
      obtain rfl := Reading.value.inj h
      rw [showable_neg]
      exact showable_of_readBareDigits hr
    | tooLong | malformed =>
      rw [hr] at h
      cases h
  · exact showable_of_readBareDigits h

/-- **A stored number that is read can be shown.** -/
theorem showable_of_readWhole {cs : List Char} {n : Int} (h : readWhole cs = .value n) :
    showable n = true := by
  rw [readWhole] at h
  split at h
  · split at h
    · obtain ⟨ds, -, hds⟩ := Option.map_eq_some_iff.mp ‹_›
      obtain rfl := Reading.value.inj h
      exact showable_of_readBare hds
    · cases h
  · exact showable_of_readBare h

end Dicebox.Numeral
