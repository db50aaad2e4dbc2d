import Dicebox.Data

/-! # Sources of numbers

Dice are thrown by asking a source for a number in a range. A source is a state: asking it gives an
answer and the source that answers next. Nothing is taken on trust; whoever asks checks the answer.

- `RandomSource`: what it means to be a source.
- `SourceFault`: why a source may give no number.
- `Recording`: a source that also remembers what it has handed out.
-/

namespace Dicebox

/-- Why a source gives no number. -/
inductive SourceFault where
  /-- The range holds nothing. -/
  | emptyRange (low high : Int)
  /-- The range holds more numbers than there are words. -/
  | rangeTooWide (low high : Int)
  /-- The sampler has no words of its own. -/
  | noWords
  /-- The list of words has come to its end. -/
  | wordsRanOut
  /-- The entropy read ahead has come to its end. -/
  | entropyRanOut
  /-- No word of the stream is ever accepted. -/
  | noneAccepted
  /-- The recorded values have come to their end, after so many of them. -/
  | valuesRanOut (handed : Nat)
  deriving DecidableEq, Repr

def SourceFault.message : SourceFault → String
  | emptyRange low high => s!"Empty range [{low}, {high}]"
  | rangeTooWide low high => s!"Range [{low}, {high}] exceeds 32 bits"
  | noWords => "The sampler has no words"
  | wordsRanOut => "The words ran out"
  | entropyRanOut => "The entropy read ahead ran out"
  | noneAccepted => "No word is ever accepted"
  | valuesRanOut handed => s!"Replay source ran out of values after {handed} draws"

/-- A source of numbers. -/
class RandomSource (σ : Type) where
  /-- What the source gives for the range from `low` to `high`, and the source afterwards. -/
  next : σ → Int → Int → Except SourceFault Data × σ

/-- A source that remembers what it has handed out, the newest value first. -/
structure Recording (σ : Type) where
  source : σ
  handed : List Data

instance {σ : Type} [RandomSource σ] : RandomSource (Recording σ) where
  next r low high :=
    match RandomSource.next r.source low high with
    | (.ok v, s) => (.ok v, ⟨s, v :: r.handed⟩)
    | (.error f, s) => (.error f, ⟨s, r.handed⟩)

end Dicebox
