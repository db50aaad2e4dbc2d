import Dicebox.Proofs.Words
import Mathlib.Data.Set.Card

/-! # A sampler has no bias

For a range of up to `2 ^ 32` numbers the words below the limit fall into whole runs, each as long
as the range and each with one word for every number of it. So every number is given for equally
many words, as many as there are runs. What is left over is shorter than one run, so most words are
accepted.

- `GivenFor`: the number that a sampler stops at a word with, and `givenFor_iff` for which words.
- `wordLimit_eq_mul`: the words below the limit make whole runs.
- `ncard_givenFor`, `ncard_accepted`: how many words there are for a number, and for all of them.
- `sampler_has_no_bias`: all of this together.
-/

namespace Dicebox

open WordStream

/-- A sampler that comes to a word gives a number for it, and leaves the stream behind that word. -/
def GivenFor (low high : Int) (x : UInt32) (v : Int) : Prop :=
  ∀ {ω : Type} [WordStream ω] [LawfulWordStream ω] {w w' : ω},
    next w = (.ok x, w') → sample w low high = (.ok v, w')

/-! ## Runs of words -/

section Span

variable {span : Nat}

/-- The words below the limit make whole runs. -/
theorem wordLimit_eq_mul (span : Nat) : wordLimit span = wordRange / span * span := by
  have hdivision := Nat.div_add_mod' wordRange span
  rw [wordLimit]
  omega

theorem wordLimit_le (span : Nat) : wordLimit span ≤ wordRange := Nat.sub_le _ _

/-- Less than one run is left over, and there is one at least. -/
theorem wordRange_lt_two_mul_wordLimit (hpos : 0 < span) (hspan : span ≤ wordRange) :
    wordRange < 2 * wordLimit span := by
  have hrest : wordRange % span < span := Nat.mod_lt _ hpos
  have hrun : 1 * span ≤ wordRange / span * span :=
    Nat.mul_le_mul_right span ((Nat.one_le_div_iff hpos).mpr hspan)
  have hlimit := wordLimit_eq_mul span
  rw [wordLimit] at hlimit ⊢
  omega

theorem toNat_ofNat_of_lt {n : Nat} (h : n < wordRange) : (UInt32.ofNat n).toNat = n :=
  UInt32.toNat_ofNat_of_lt' h

theorem ncard_below {limit : Nat} (h : limit ≤ wordRange) :
    {x : UInt32 | x.toNat < limit}.ncard = limit := by
  refine Set.ncard_eq_of_bijective (fun i _ => UInt32.ofNat i) ?_ ?_ ?_
  · intro x hx
    exact ⟨x.toNat, hx, UInt32.ofNat_toNat⟩
  · intro i hi
    rw [Set.mem_ofPred_eq, toNat_ofNat_of_lt (hi.trans_le h)]
    exact hi
  · intro i j hi hj hij
    rw [← toNat_ofNat_of_lt (hi.trans_le h), hij, toNat_ofNat_of_lt (hj.trans_le h)]

/-- **Each run has one word for a remainder.** The word of the run at index `i` is `i * span + r`.
-/
theorem ncard_mod_eq {r : Nat} (hr : r < span) :
    {x : UInt32 | x.toNat < wordLimit span ∧ x.toNat % span = r}.ncard = wordRange / span := by
  have hpos : 0 < span := (Nat.zero_le r).trans_lt hr
  have hbelow : ∀ i, i < wordRange / span → i * span + r < wordLimit span := by
    intro i hi
    have hrun : (i + 1) * span ≤ wordRange / span * span := Nat.mul_le_mul_right span hi
    rw [wordLimit_eq_mul]
    rw [Nat.succ_mul] at hrun
    omega
  have hword : ∀ i, i < wordRange / span → (UInt32.ofNat (i * span + r)).toNat = i * span + r :=
    fun i hi => toNat_ofNat_of_lt ((hbelow i hi).trans_le (wordLimit_le span))
  refine Set.ncard_eq_of_bijective (fun i _ => UInt32.ofNat (i * span + r)) ?_ ?_ ?_
  · rintro x ⟨hx, rfl⟩
    refine ⟨x.toNat / span, ?_, ?_⟩
    · rw [wordLimit_eq_mul] at hx
      exact (Nat.div_lt_iff_lt_mul hpos).mpr hx
    · rw [Nat.div_add_mod', UInt32.ofNat_toNat]
  · intro i hi
    rw [Set.mem_ofPred_eq, hword i hi]
    refine ⟨hbelow i hi, ?_⟩
    rw [Nat.mul_add_mod_self_right, Nat.mod_eq_of_lt hr]
  · intro i j hi hj hij
    have hnat : i * span + r = j * span + r := by rw [← hword i hi, hij, hword j hj]
    exact Nat.eq_of_mul_eq_mul_right hpos (Nat.add_right_cancel hnat)

end Span

/-! ## Numbers -/

section Range

variable {low high v : Int} {x : UInt32}

/-- **A sampler stops at the words below the limit**, and gives what they stand for. -/
theorem givenFor_iff (hrange : low ≤ high) (hspan : (high - low + 1).toNat ≤ wordRange) :
    GivenFor low high x v ↔ x.toNat < wordLimit (high - low + 1).toNat ∧
      wordValue low (high - low + 1).toNat x = v := by
  constructor
  · intro h
    -- a stream that holds no other word
    have honly : next (⟨[x], 0⟩ : ListedWords) = (.ok x, ⟨[], 1⟩) := rfl
    have hsample := h honly
    by_cases hx : x.toNat < wordLimit (high - low + 1).toNat
    · rw [sample_of_accepts hrange hspan (.here honly hx)] at hsample
      exact ⟨hx, Except.ok.inj (Prod.mk.inj hsample).1⟩
    · have hnone : firstAccepted (wordLimit (high - low + 1).toNat) 2 (⟨[x], 0⟩ : ListedWords) =
          (.error .wordsRanOut, ⟨[], 1⟩) := if_neg hx
      rw [sample, if_neg (not_lt.mpr hrange)] at hsample
      dsimp only at hsample
      rw [if_neg (not_lt.mpr hspan), show horizon (⟨[x], 0⟩ : ListedWords) = 2 from rfl, hnone]
        at hsample
      cases hsample
  · rintro ⟨hx, rfl⟩ ω _ _ w w' hword
    exact sample_of_accepts hrange hspan (.here hword hx)

theorem ncard_givenFor (hlow : low ≤ v) (hhigh : v ≤ high)
    (hspan : (high - low + 1).toNat ≤ wordRange) :
    {x | GivenFor low high x v}.ncard = wordRange / (high - low + 1).toNat := by
  have hr : (v - low).toNat < (high - low + 1).toNat := by omega
  rw [← ncard_mod_eq hr]
  congr 1
  ext x
  rw [Set.mem_ofPred_eq, Set.mem_ofPred_eq, givenFor_iff (hlow.trans hhigh) hspan, wordValue]
  refine and_congr_right fun _ => ?_
  omega

theorem ncard_accepted (hrange : low ≤ high) (hspan : (high - low + 1).toNat ≤ wordRange) :
    {x | ∃ v, GivenFor low high x v}.ncard = wordLimit (high - low + 1).toNat := by
  have hbelow : {x | ∃ v, GivenFor low high x v} =
      {x : UInt32 | x.toNat < wordLimit (high - low + 1).toNat} := by
    ext x
    simp only [Set.mem_ofPred_eq, givenFor_iff hrange hspan, exists_and_left, exists_eq', and_true]
  rw [hbelow, ncard_below (wordLimit_le _)]

end Range

/-- **A sampler has no bias.** Each number of a range is given for equally many of the `2 ^ 32`
words, no word is accepted for any other number, and more than half of the words are accepted. -/
theorem sampler_has_no_bias {low high : Int} (hrange : low ≤ high)
    (hspan : high - low + 1 ≤ 2 ^ 32) :
    Nat.card UInt32 = 2 ^ 32 ∧
    (∀ v, low ≤ v → v ≤ high →
      {x | GivenFor low high x v}.ncard = 2 ^ 32 / (high - low + 1).toNat) ∧
    (∀ x v, GivenFor low high x v → low ≤ v ∧ v ≤ high) ∧
    2 ^ 32 < 2 * {x | ∃ v, GivenFor low high x v}.ncard := by
  have hwords : (high - low + 1).toNat ≤ wordRange := Int.toNat_le.mpr hspan
  have hall := ncard_below (le_refl wordRange)
  refine ⟨?_, fun v hlow hhigh => ncard_givenFor hlow hhigh hwords, ?_, ?_⟩
  · rw [← Set.ncard_univ, ← show wordRange = 2 ^ 32 from rfl, ← hall]
    congr 1
    ext x
    simp only [Set.mem_univ, Set.mem_ofPred_eq, true_iff]
    exact x.toNat_lt
  · intro x v h
    obtain ⟨-, rfl⟩ := (givenFor_iff hrange hwords).mp h
    exact wordValue_mem hrange x
  · rw [ncard_accepted hrange hwords]
    exact wordRange_lt_two_mul_wordLimit (by omega) hwords

/-- Each face of a die is given for the same number of words. -/
theorem die_has_no_bias :
    (∀ v : Int, 1 ≤ v → v ≤ 6 → {x | GivenFor 1 6 x v}.ncard = 715827882) ∧
      2 ^ 32 < 2 * {x | ∃ v, GivenFor 1 6 x v}.ncard := by
  obtain ⟨-, heach, -, hmost⟩ := @sampler_has_no_bias 1 6 (by decide) (by decide)
  exact ⟨heach, hmost⟩

end Dicebox
