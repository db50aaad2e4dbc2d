import Dicebox.Proofs.Words
import Mathlib.Data.List.DropRight

/-! # What a sampler takes from its words

A sampler refuses a range that is empty or too wide, and stays as it was. For any other range it
takes words up to the first one below the limit, and gives the number that this word stands for. So
after any run of calls a source stands behind the words that these calls took. A seeded source also
counts the numbers it has given since it was last rewound, and once rewound it is the source of its
seed again.

- `WordStream.Gives`: words in a row, and `Gives.exists_accepts` for the first accepted one of them.
- `Accounted`: one call; `sample_accounted`, `Seeded.next_accounted`: the calls that there are.
- `gives_sample`: the stream behind a call.
- `Seeded.run`, `Seeded.draws_run`: a run of calls and resets, and what is counted.
- `sources_account_for_their_words`: all of this together.
-/

namespace Dicebox

open WordStream

variable {ω : Type} [WordStream ω] {w w' w'' : ω} {limit : Nat}

/-! ## Words in a row -/

namespace WordStream

/-- A stream gives these words in a row, and goes on behind them. -/
inductive Gives {ω : Type} [WordStream ω] : ω → List UInt32 → ω → Prop
  | nil {w : ω} : Gives w [] w
  | cons {w w₁ w' : ω} {x : UInt32} {xs : List UInt32} :
      next w = (.ok x, w₁) → Gives w₁ xs w' → Gives w (x :: xs) w'

namespace Gives

theorem append {xs ys : List UInt32} (h : Gives w xs w') (h' : Gives w' ys w'') :
    Gives w (xs ++ ys) w'' := by
  induction h with
  | nil => exact h'
  | cons hword _ ih => exact .cons hword (ih h')

/-- A stream that gives a word below the limit has a first one, and accepts it. -/
theorem exists_accepts {words : List UInt32} (h : Gives w words w')
    (hsome : ∃ x ∈ words, x.toNat < limit) :
    ∃ passed x rest after, words = passed ++ x :: rest ∧ (∀ y ∈ passed, limit ≤ y.toNat) ∧
      x.toNat < limit ∧ Gives w (passed ++ [x]) after ∧ Accepts limit passed.length w x after := by
  induction h with
  | nil =>
    obtain ⟨x, hx, -⟩ := hsome
    cases hx
  | @cons w w₁ w' x xs hword _ ih =>
    by_cases hx : x.toNat < limit
    · exact ⟨[], x, xs, w₁, rfl, List.forall_mem_nil _, hx, .cons hword .nil, .here hword hx⟩
    · obtain ⟨y, hy, hlt⟩ := hsome
      rcases List.mem_cons.mp hy with rfl | hy
      · exact absurd hlt hx
      · obtain ⟨passed, z, rest, after, rfl, hpassed, hz, hgives, haccepts⟩ := ih ⟨y, hy, hlt⟩
        have hpassed' : ∀ y ∈ x :: passed, limit ≤ y.toNat :=
          List.forall_mem_cons.mpr ⟨Nat.le_of_not_lt hx, hpassed⟩
        exact ⟨x :: passed, z, rest, after, rfl, hpassed', hz, .cons hword hgives,
          .behind hword hx haccepts⟩

end Gives

/-- A stream that has come to its end stays there. -/
def Halts (ω : Type) [WordStream ω] : Prop :=
  ∀ {w w' : ω} {f : SourceFault}, next w = (.error f, w') → w' = w

end WordStream

theorem ListedWords.halts : Halts ListedWords := by
  rintro ⟨_ | ⟨x, rest⟩, used⟩ w' f h <;> cases h
  rfl

theorem Twister.halts : Halts Twister := by
  intro g g' f h
  cases h

theorem ListedWords.rest_of_gives {w w' : ListedWords} {xs : List UInt32} (h : Gives w xs w') :
    w.rest = xs ++ w'.rest ∧ w'.used = w.used + xs.length := by
  induction h with
  | nil => exact ⟨rfl, rfl⟩
  | @cons w w₁ w' x xs hword _ ih =>
    obtain ⟨hrest, hused⟩ := ih
    obtain ⟨_ | ⟨y, rest⟩, used⟩ := w <;> cases hword
    refine ⟨congrArg (x :: ·) hrest, ?_⟩
    rw [hused, List.length_cons, Nat.add_assoc, Nat.add_comm 1]

/-! ## One call -/

/-- A call for a number from `low` to `high` that leaves a source behind, which reads a stream. An
empty range and one that is too wide are refused, and the source is the same. For any other range,
if the stream still gives a word below the limit, the answer is what the first such word stands for,
and the stream stands right behind that word. -/
structure Accounted {σ : Type} (stream : σ → ω) (low high : Int) (source : σ)
    (answer : Except SourceFault Int) (after : σ) : Prop where
  empty : high < low → answer = .error (.emptyRange low high) ∧ after = source
  wide : low ≤ high → 2 ^ 32 < high - low + 1 →
    answer = .error (.rangeTooWide low high) ∧ after = source
  drawn : low ≤ high → high - low + 1 ≤ 2 ^ 32 → ∀ (words : List UInt32) (w : ω),
    Gives (stream source) words w → (∃ x ∈ words, x.toNat < wordLimit (high - low + 1).toNat) →
      ∃ passed x rest, words = passed ++ x :: rest ∧
        (∀ y ∈ passed, wordLimit (high - low + 1).toNat ≤ y.toNat) ∧
        x.toNat < wordLimit (high - low + 1).toNat ∧
        Gives (stream source) (passed ++ [x]) (stream after) ∧
        answer = .ok (low + (x.toNat % (high - low + 1).toNat : Nat)) ∧
        low ≤ low + (x.toNat % (high - low + 1).toNat : Nat) ∧
        low + (x.toNat % (high - low + 1).toNat : Nat) ≤ high

section Sample

variable {low high : Int}

theorem sample_accounted [LawfulWordStream ω] (w : ω) (low high : Int) :
    Accounted id low high w (sample w low high).1 (sample w low high).2 where
  empty h := by
    rw [sample_of_empty w h]
    exact ⟨rfl, rfl⟩
  wide hrange h := by
    rw [sample_of_wide w hrange h]
    exact ⟨rfl, rfl⟩
  drawn hrange hspan words w' hgives hsome := by
    obtain ⟨passed, x, rest, after, hwords, hpassed, hx, htaken, haccepts⟩ :=
      Gives.exists_accepts hgives hsome
    have hsample := sample_of_accepts hrange (Int.toNat_le.mpr hspan) haccepts
    rw [id] at hsample
    rw [hsample]
    exact ⟨passed, x, rest, hwords, hpassed, hx, htaken, rfl, wordValue_mem hrange x⟩

-- the first word is above the limit of a die
example : sample (⟨[4294967295, 7, 0], 0⟩ : ListedWords) 1 6 = (.ok 2, ⟨[0], 2⟩) := by decide

theorem gives_firstAccepted (hhalts : Halts ω) (limit fuel : Nat) (w : ω) :
    ∃ xs, Gives w xs (firstAccepted limit fuel w).2 := by
  induction fuel generalizing w with
  | zero => exact ⟨[], .nil⟩
  | succ fuel ih =>
    rw [firstAccepted]
    split
    · next hword =>
      rw [hhalts hword]
      exact ⟨[], .nil⟩
    · next x w₁ hword =>
      split
      · exact ⟨[x], .cons hword .nil⟩
      · obtain ⟨xs, hxs⟩ := ih w₁
        exact ⟨x :: xs, .cons hword hxs⟩

/-- A call takes words in a row. -/
theorem gives_sample (hhalts : Halts ω) (w : ω) (low high : Int) :
    ∃ xs, Gives w xs (sample w low high).2 := by
  rw [sample]
  split
  · exact ⟨[], .nil⟩
  · dsimp only
    split
    · exact ⟨[], .nil⟩
    · have h := gives_firstAccepted hhalts (wordLimit (high - low + 1).toNat) (horizon w) w
      split <;> next hsearch => rwa [hsearch] at h

end Sample

/-! ## Runs of calls -/

/-- The stream that a sampler leaves behind after some calls. -/
def sampleRun (w : ω) (calls : List (Int × Int)) : ω :=
  calls.foldl (fun w call => (sample w call.1 call.2).2) w

theorem gives_sampleRun (hhalts : Halts ω) (w : ω) (calls : List (Int × Int)) :
    ∃ xs, Gives w xs (sampleRun w calls) := by
  induction calls generalizing w with
  | nil => exact ⟨[], .nil⟩
  | cons call calls ih =>
    obtain ⟨xs, hxs⟩ := gives_sample hhalts w call.1 call.2
    obtain ⟨ys, hys⟩ := ih (sample w call.1 call.2).2
    exact ⟨xs ++ ys, hxs.append hys⟩

namespace Seeded

/-- What is asked of a seeded source. -/
inductive Call where
  | next (low high : Int)
  | reset

/-- What a seeded source answers. -/
inductive Answer where
  | value (v : Int)
  | fault (f : SourceFault)
  | rewound
  deriving DecidableEq

/-- The answer to a call, and the source afterwards. -/
def answer (s : Seeded) : Call → Answer × Seeded
  | .next low high =>
    match s.next low high with
    | (.ok v, s) => (.value v, s)
    | (.error f, s) => (.fault f, s)
  | .reset => (.rewound, s.reset)

theorem next_of_ok {s : Seeded} {low high v : Int} {g : Twister}
    (h : sample s.generator low high = (.ok v, g)) :
    s.next low high = (.ok v, { s with generator := g, draws := s.draws + 1 }) := by
  rw [next, h]

theorem next_of_error {s : Seeded} {low high : Int} {f : SourceFault} {g : Twister}
    (h : sample s.generator low high = (.error f, g)) :
    s.next low high = (.error f, { s with generator := g }) := by
  rw [next, h]

/-- **A seeded source takes what a sampler takes.** -/
theorem next_accounted (s : Seeded) (low high : Int) :
    Accounted generator low high s (s.next low high).1 (s.next low high).2 where
  empty h := by
    rw [next_of_error (sample_of_empty _ h)]
    exact ⟨rfl, rfl⟩
  wide hrange h := by
    rw [next_of_error (sample_of_wide _ hrange h)]
    exact ⟨rfl, rfl⟩
  drawn hrange hspan words g hgives hsome := by
    obtain ⟨passed, x, rest, after, hwords, hpassed, hx, htaken, haccepts⟩ :=
      hgives.exists_accepts hsome
    rw [next_of_ok (sample_of_accepts hrange (Int.toNat_le.mpr hspan) haccepts)]
    exact ⟨passed, x, rest, hwords, hpassed, hx, htaken, rfl, wordValue_mem hrange x⟩

/-- The answers to calls in a row, and the source afterwards. -/
def run (s : Seeded) : List Call → List Answer × Seeded
  | [] => ([], s)
  | call :: calls =>
    let later := (s.answer call).2.run calls
    ((s.answer call).1 :: later.1, later.2)

/-- How many numbers have been given since the source was last rewound. -/
def returned (answers : List Answer) : Nat :=
  (answers.rtakeWhile (· ≠ .rewound)).countP fun a => a matches .value _

theorem run_concat (s : Seeded) (calls : List Call) (call : Call) :
    s.run (calls ++ [call]) =
      ((s.run calls).1 ++ [((s.run calls).2.answer call).1], ((s.run calls).2.answer call).2) := by
  induction calls generalizing s with
  | nil => rfl
  | cons c calls ih =>
    rw [List.cons_append, run, run, ih]
    rfl

theorem returned_concat (answers : List Answer) (a : Answer) :
    returned (answers ++ [a]) =
      match a with
      | .value _ => returned answers + 1
      | .fault _ => returned answers
      | .rewound => 0 := by
  rw [returned, List.rtakeWhile_concat]
  cases a with
  | rewound => rfl
  | value v =>
    rw [if_pos (by simp), List.countP_append]
    rfl
  | fault f =>
    rw [if_pos (by simp), List.countP_append]
    rfl

/-- A source of a seed that stands behind some words of it, and has given so many numbers. -/
structure Stands (s : Seeded) (seed : Int) (given : Nat) : Prop where
  seed_eq : s.seed = seed
  draws_eq : s.draws = given
  generator : ∃ words, Gives (Twister.ofSeed seed) words s.generator

theorem stands_ofSeed (seed : Int) : (ofSeed seed).Stands seed 0 := ⟨rfl, rfl, [], .nil⟩

/-- **One call keeps the account.** -/
theorem Stands.answer {seed : Int} {answers : List Answer} {s : Seeded}
    (h : s.Stands seed (returned answers)) (call : Call) :
    (s.answer call).2.Stands seed (returned (answers ++ [(s.answer call).1])) := by
  rw [returned_concat]
  cases call with
  | reset =>
    rw [Seeded.answer, Seeded.reset, h.seed_eq]
    exact stands_ofSeed seed
  | next low high =>
    obtain ⟨words, hwords⟩ := h.generator
    obtain ⟨more, hmore⟩ := gives_sample Twister.halts s.generator low high
    rw [Seeded.answer]
    rcases hsample : sample s.generator low high with ⟨f | v, g⟩
    · rw [next_of_error hsample]
      rw [hsample] at hmore
      exact ⟨h.seed_eq, h.draws_eq, words ++ more, hwords.append hmore⟩
    · rw [next_of_ok hsample]
      rw [hsample] at hmore
      exact ⟨h.seed_eq, congrArg (· + 1) h.draws_eq, words ++ more, hwords.append hmore⟩

/-- **A run keeps the account.** -/
theorem stands_run (seed : Int) (calls : List Call) :
    ((ofSeed seed).run calls).2.Stands seed (returned ((ofSeed seed).run calls).1) := by
  induction calls using List.reverseRecOn with
  | nil => exact stands_ofSeed seed
  | append_singleton calls call ih =>
    rw [run_concat]
    exact ih.answer call

end Seeded

/-- **Sources account for their words.** After any calls listed words are those that the calls have
not taken, and a seeded source stands behind words of its seed, has counted the numbers that it gave
since it was last rewound, and once rewound answers any calls as the source of its seed. The next
call is then accounted for. -/
theorem sources_account_for_their_words :
    (∀ (words : List UInt32) (calls : List (Int × Int)) (low high : Int),
      let w := sampleRun (⟨words, 0⟩ : ListedWords) calls
      w.used ≤ words.length ∧ w.rest = words.drop w.used ∧
        Accounted id low high w (sample w low high).1 (sample w low high).2) ∧
    ∀ (seed : Int) (calls : List Seeded.Call),
      let s := ((Seeded.ofSeed seed).run calls).2
      s.Stands seed (Seeded.returned ((Seeded.ofSeed seed).run calls).1) ∧
        (∀ low high,
          Accounted Seeded.generator low high s (s.next low high).1 (s.next low high).2) ∧
        ∀ more, s.reset.run more = (Seeded.ofSeed seed).run more := by
  refine ⟨fun words calls low high => ?_, fun seed calls => ?_⟩
  · obtain ⟨xs, hxs⟩ := gives_sampleRun ListedWords.halts ⟨words, 0⟩ calls
    obtain ⟨hrest, hused⟩ := ListedWords.rest_of_gives hxs
    dsimp only at hrest hused ⊢
    rw [Nat.zero_add] at hused
    refine ⟨?_, ?_, sample_accounted _ low high⟩
    · rw [hused, hrest, List.length_append]
      exact Nat.le_add_right _ _
    · rw [hused]
      exact ((congrArg (List.drop xs.length) hrest).trans List.drop_left).symm
  · have hstands := Seeded.stands_run seed calls
    refine ⟨hstands, Seeded.next_accounted _, fun more => ?_⟩
    rw [Seeded.reset, hstands.seed_eq]

end Dicebox
