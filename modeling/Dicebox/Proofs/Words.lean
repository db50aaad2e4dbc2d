import Dicebox.Source.Kinds
import Mathlib.Data.Fintype.BigOperators

/-! # The first accepted word

A sampler looks through a stream for a word below its limit, and stops at its horizon. No accepted
word lies behind it: a list of words ends there, and a generator has no further state to come to. So
where a stream has an accepted word at all, the sampler finds the first one and takes the words up to
it, whatever the range.

- `WordStream.Accepts`: the first accepted word of a stream, and how many words come before it.
- `LawfulWordStream`: the streams whose horizon is far enough.
- `WordStream.Accepts.lt_card`: so many words of a generator differ.
- `sample_of_empty`, `sample_of_wide`: the ranges that a sampler refuses.
- `sample_of_accepts`, `wordValue_mem`: the number that a sampler gives.
- `Source.Accepts`: the same for the sources that sample.
-/

namespace Dicebox

variable {ω : Type} [WordStream ω] {limit n m : Nat} {w w' w'' : ω} {x y : UInt32}

namespace WordStream

/-- Behind `n` words that are not below the limit the stream gives one that is, and goes on. -/
inductive Accepts {ω : Type} [WordStream ω] (limit : Nat) : Nat → ω → UInt32 → ω → Prop
  | here {w w' : ω} {x : UInt32} : next w = (.ok x, w') → x.toNat < limit → Accepts limit 0 w x w'
  | behind {n : Nat} {w w₁ w' : ω} {x y : UInt32} :
      next w = (.ok y, w₁) → ¬ y.toNat < limit → Accepts limit n w₁ x w' →
        Accepts limit (n + 1) w x w'

namespace Accepts

theorem unique (h : Accepts limit n w x w') (h' : Accepts limit m w y w'') :
    n = m ∧ x = y ∧ w' = w'' := by
  induction h generalizing m with
  | here hword hx =>
    cases h' with
    | here hword' hy =>
      rw [hword] at hword'
      obtain ⟨hx', rfl⟩ := Prod.mk.inj hword'
      exact ⟨rfl, Except.ok.inj hx', rfl⟩
    | behind hword' hy _ =>
      rw [hword] at hword'
      obtain rfl := Except.ok.inj (Prod.mk.inj hword').1
      exact absurd hx hy
  | behind hword hx _ ih =>
    cases h' with
    | here hword' hy =>
      rw [hword] at hword'
      obtain rfl := Except.ok.inj (Prod.mk.inj hword').1
      exact absurd hy hx
    | behind hword' hy h' =>
      rw [hword] at hword'
      obtain ⟨-, rfl⟩ := Prod.mk.inj hword'
      obtain ⟨rfl, hrest⟩ := ih h'
      exact ⟨rfl, hrest⟩

/-- A search that goes far enough finds the first accepted word. -/
theorem firstAccepted_eq (h : Accepts limit n w x w') {fuel : Nat} (hfuel : n < fuel) :
    firstAccepted limit fuel w = (.ok x, w') := by
  induction h generalizing fuel with
  | here hword hx =>
    obtain ⟨fuel, rfl⟩ := Nat.exists_eq_succ_of_ne_zero (Nat.ne_zero_of_lt hfuel)
    rw [firstAccepted, hword]
    exact if_pos hx
  | behind hword hy _ ih =>
    obtain ⟨fuel, rfl⟩ := Nat.exists_eq_succ_of_ne_zero (Nat.ne_zero_of_lt hfuel)
    rw [firstAccepted, hword]
    exact (if_neg hy).trans (ih (Nat.lt_of_succ_lt_succ hfuel))

/-- On the way to the accepted word the stream comes by states with fewer words to go. -/
theorem exists_of_le (h : Accepts limit n w x w') (hm : m ≤ n) : ∃ w₁ : ω, Accepts limit m w₁ x w' := by
  induction h with
  | @here w w' x hword hx =>
    obtain rfl := Nat.le_zero.mp hm
    exact ⟨w, .here hword hx⟩
  | @behind n w w₁ w' x y hword hy h ih =>
    rcases Nat.le_succ_iff.mp hm with hle | rfl
    · exact ih hle
    · exact ⟨w, .behind hword hy h⟩

/-- **A stream with so many states accepts a word before it has been in all of them.** The states on
the way differ, since each has another number of words to go. -/
theorem lt_card {τ : Type} [Fintype τ] {state : ω → τ} (hstate : Function.Injective state)
    (h : Accepts limit n w x w') : n < Fintype.card τ := by
  choose stream hstream using fun i : Fin (n + 1) => h.exists_of_le (Nat.le_of_lt_succ i.isLt)
  have hinjective : Function.Injective stream := by
    intro i j hij
    -- one state has one accepted word, so many words away
    have hj := hstream j
    rw [← hij] at hj
    exact Fin.ext ((hstream i).unique hj).1
  have hcard := Fintype.card_le_of_injective (state ∘ stream) (hstate.comp hinjective)
  rwa [Fintype.card_fin] at hcard

theorem lt_length {rest : ω → List UInt32}
    (hrest : ∀ {w w' : ω} {x : UInt32}, next w = (.ok x, w') → rest w = x :: rest w')
    (h : Accepts limit n w x w') : n < (rest w).length := by
  induction h with
  | here hword _ =>
    rw [hrest hword]
    exact Nat.succ_pos _
  | behind hword _ _ ih =>
    rw [hrest hword]
    exact Nat.succ_lt_succ ih

end Accepts

end WordStream

open WordStream

/-! ## Horizons -/

/-- No accepted word lies behind the horizon of a stream. -/
class LawfulWordStream (ω : Type) [WordStream ω] : Prop where
  lt_horizon {limit n : Nat} {w w' : ω} {x : UInt32} : Accepts limit n w x w' → n < horizon w

theorem ListedWords.rest_of_next {w w' : ListedWords} (h : next w = (.ok x, w')) :
    w.rest = x :: w'.rest := by
  obtain ⟨_ | ⟨y, rest⟩, used⟩ := w <;> cases h
  rfl

theorem Entropy.rest_of_next {w w' : Entropy} (h : next w = (.ok x, w')) :
    w.rest = x :: w'.rest := by
  obtain ⟨_ | ⟨y, rest⟩⟩ := w <;> cases h
  rfl

instance : LawfulWordStream ListedWords where
  lt_horizon h := Nat.lt_succ_of_lt (h.lt_length ListedWords.rest_of_next)

instance : LawfulWordStream Entropy where
  lt_horizon h := Nat.lt_succ_of_lt (h.lt_length Entropy.rest_of_next)

namespace Twister

/-- A generator by the words of its table and the number of those used up. -/
def state (g : Twister) : (Fin size → Fin UInt32.size) × Fin (size + 1) :=
  (fun i => (g.table.get i).toFin, g.used)

theorem state_injective : Function.Injective state := by
  rintro ⟨table, used⟩ ⟨table', used'⟩ h
  obtain ⟨htable, rfl⟩ := Prod.mk.inj h
  congr 1
  refine Vector.ext fun i hi => ?_
  exact UInt32.toFin_inj.mp (congrFun htable ⟨i, hi⟩)

theorem card_state : Fintype.card ((Fin size → Fin UInt32.size) × Fin (size + 1)) = states := by
  have hpow : ∀ k, UInt32.size ^ k = wordRange.pow k := fun _ => rfl
  rw [Fintype.card_prod, Fintype.card_fun, Fintype.card_fin, Fintype.card_fin, Fintype.card_fin,
    hpow, states]

end Twister

instance : LawfulWordStream Twister where
  lt_horizon h := (h.lt_card Twister.state_injective).trans_eq Twister.card_state

/-! ## Samples -/

theorem wordValue_mem {low high : Int} (hrange : low ≤ high) (x : UInt32) :
    low ≤ wordValue low (high - low + 1).toNat x ∧ wordValue low (high - low + 1).toNat x ≤ high := by
  have hmod : x.toNat % (high - low + 1).toNat < (high - low + 1).toNat :=
    Nat.mod_lt _ (by omega)
  rw [wordValue]
  omega

theorem sample_of_empty (w : ω) {low high : Int} (h : high < low) :
    sample w low high = (.error (.emptyRange low high), w) := if_pos h

theorem sample_of_wide (w : ω) {low high : Int} (hrange : low ≤ high)
    (h : wordRange < high - low + 1) :
    sample w low high = (.error (.rangeTooWide low high), w) := by
  rw [sample, if_neg (not_lt.mpr hrange)]
  exact if_pos (Int.lt_toNat.mpr h)

/-- **A sampler gives the number of the first accepted word**, and takes the words up to it. -/
theorem sample_of_accepts [LawfulWordStream ω] {low high : Int} (hrange : low ≤ high)
    (hspan : (high - low + 1).toNat ≤ wordRange)
    (h : Accepts (wordLimit (high - low + 1).toNat) n w x w') :
    sample w low high = (.ok (wordValue low (high - low + 1).toNat x), w') := by
  rw [sample, if_neg (not_lt.mpr hrange)]
  dsimp only
  rw [if_neg (not_lt.mpr hspan), h.firstAccepted_eq (LawfulWordStream.lt_horizon h)]

namespace Source

/-- A source that samples comes to a word below the limit, and is left in a state behind it. -/
inductive Accepts (limit : Nat) : Source → UInt32 → Source → Prop
  | seeded {s : Seeded} {n : Nat} {x : UInt32} {g : Twister} :
      WordStream.Accepts limit n s.generator x g →
        Accepts limit (.seeded s) x (.seeded { s with generator := g, draws := s.draws + 1 })
  | secure {w w' : Entropy} {n : Nat} {x : UInt32} :
      WordStream.Accepts limit n w x w' → Accepts limit (.secure w) x (.secure w')
  | listed {w w' : ListedWords} {n : Nat} {x : UInt32} :
      WordStream.Accepts limit n w x w' → Accepts limit (.listed w) x (.listed w')

theorem Accepts.next_eq {low high : Int} {source source' : Source} {x : UInt32}
    (hrange : low ≤ high) (hspan : (high - low + 1).toNat ≤ wordRange)
    (h : source.Accepts (wordLimit (high - low + 1).toNat) x source') :
    RandomSource.next source low high =
      (.ok (.int (wordValue low (high - low + 1).toNat x)), source') := by
  cases h with
  | @seeded s n x g hwords =>
    show sampled Source.seeded (s.next low high) = _
    rw [Seeded.next, sample_of_accepts hrange hspan hwords]
    rfl
  | @secure w w' n x hwords =>
    show sampled Source.secure (sample w low high) = _
    rw [sample_of_accepts hrange hspan hwords]
    rfl
  | @listed w w' n x hwords =>
    show sampled Source.listed (sample w low high) = _
    rw [sample_of_accepts hrange hspan hwords]
    rfl

end Source

/-- A die has at least one side, and no more of them than there are words. -/
def Samplable (sides : Int) : Prop := 1 ≤ sides ∧ sides ≤ wordRange

theorem toNat_sides (sides : Int) : (sides - 1 + 1).toNat = sides.toNat := by
  rw [Int.sub_add_cancel]

/-- The word that is accepted for a die shows one of its faces. -/
theorem Source.Accepts.next_die {sides : Int} {source source' : Source} {x : UInt32}
    (hsides : Samplable sides) (h : source.Accepts (wordLimit sides.toNat) x source') :
    RandomSource.next source 1 sides = (.ok (.int (wordValue 1 sides.toNat x)), source') ∧
      1 ≤ wordValue 1 sides.toNat x ∧ wordValue 1 sides.toNat x ≤ sides := by
  have hface := wordValue_mem hsides.1 x
  have hspan : (sides - 1 + 1).toNat ≤ wordRange := by
    rw [toNat_sides]
    exact Int.toNat_le.mpr hsides.2
  rw [← toNat_sides] at h
  have hnext := h.next_eq hsides.1 hspan
  rw [toNat_sides] at hface hnext
  exact ⟨hnext, hface⟩

end Dicebox
