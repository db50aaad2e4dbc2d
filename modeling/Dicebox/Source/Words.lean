import Dicebox.Source

/-! # Uniform numbers from words

A stream of 32-bit words gives uniform numbers in a range of any size up to `2 ^ 32`: a word at or
above the largest multiple of the size is rejected, any other one is reduced modulo the size. So
every number of the range comes from equally many words.

- `WordStream`: a stream, with the number of words after which it is settled that none is accepted.
- `wordLimit` and `wordValue`: which words are accepted, and what for.
- `firstAccepted`: the first accepted word of a stream.
- `sample`: the number in a range.
-/

namespace Dicebox

/-- A stream of 32-bit words. -/
class WordStream (ω : Type) where
  /-- The next word, and the stream behind it. -/
  next : ω → Except SourceFault UInt32 × ω
  /-- If none of so many words is accepted, no later one is, or there is no later one. -/
  horizon : ω → Nat

def wordRange : Nat := 4294967296

/-- The words below this bound are accepted for a range of `span` numbers. -/
def wordLimit (span : Nat) : Nat := wordRange - wordRange % span

/-- The number that an accepted word stands for, in the range of `span` numbers from `low` on. -/
def wordValue (low : Int) (span : Nat) (word : UInt32) : Int := low + (word.toNat % span : Nat)

/-- The first of at most `fuel` words that is below a limit. The words up to it are used up. -/
def firstAccepted {ω : Type} [WordStream ω] (limit : Nat) :
    Nat → ω → Except SourceFault UInt32 × ω
  | 0, w => (.error .noneAccepted, w)
  | fuel + 1, w =>
    match WordStream.next w with
    | (.error f, w) => (.error f, w)
    | (.ok x, w) => if x.toNat < limit then (.ok x, w) else firstAccepted limit fuel w

def sample {ω : Type} [WordStream ω] (w : ω) (low high : Int) : Except SourceFault Int × ω :=
  if high < low then (.error (.emptyRange low high), w)
  else
    let span := (high - low + 1).toNat
    if wordRange < span then (.error (.rangeTooWide low high), w)
    else
      match firstAccepted (wordLimit span) (WordStream.horizon w) w with
      | (.ok x, w) => (.ok (wordValue low span x), w)
      | (.error f, w) => (.error f, w)

/-! ## Listed words -/

/-- Words that are written out, with the number of those used up. -/
structure ListedWords where
  rest : List UInt32
  used : Nat
  deriving DecidableEq, Repr

instance : WordStream ListedWords where
  next w :=
    match w.rest with
    | [] => (.error .wordsRanOut, w)
    | x :: rest => (.ok x, ⟨rest, w.used + 1⟩)
  horizon w := w.rest.length + 1

/-- Words that the system has given in advance. -/
structure Entropy where
  rest : List UInt32
  deriving DecidableEq, Repr

instance : WordStream Entropy where
  next w :=
    match w.rest with
    | [] => (.error .entropyRanOut, w)
    | x :: rest => (.ok x, ⟨rest⟩)
  horizon w := w.rest.length + 1

/-- A sampler that has been given no words. -/
instance : WordStream Unit where
  next _ := (.error .noWords, ())
  horizon _ := 1

end Dicebox
