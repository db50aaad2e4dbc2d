import Dicebox.Data.Shown
import Dicebox.Event
import Dicebox.Fairness.ChiSquare
import Dicebox.Source

/-! # Is a source fair?

A source is sampled on a die of one size, the faces are tallied, and the tally is tested for
uniformity. The source is held to its contract here too, though less strictly than by a roll: a
truth value counts as the integer 0 or 1.

- `drawFaces`, `tally`: the faces of so many draws, and how often each of them came up.
- `fairness`: the test of one die size, with its `Report`; `fairnessWithin` leaves open how large a
  tally may be, and which library of elementary functions there is.
- `health`: the test of several die sizes, which tells of those that fail.
-/

namespace Dicebox

/-- Why a test has no report. -/
inductive FairnessError where
  | tooFewSides (got : Int)
  | noSamples (got : Int)
  | badSignificance (got : Number)
  /-- The die has more sides than can be told apart. -/
  | tooManySides
  /-- There is no room for a tally of so many sides. -/
  | noRoom
  /-- The source gave a number that is no face of the die. -/
  | outOfRange (value : Data) (sides : Int)
  /-- The source gave something that cannot be counted. -/
  | uncountable
  /-- The source gave nothing. -/
  | source (fault : SourceFault) (sides : Int)
  | arithmetic (fault : ArithmeticFault)

namespace FairnessError

/-- What is said; arithmetic and what cannot be counted, kept or told apart speak for themselves. -/
def message? : FairnessError → Option String
  | tooFewSides got => some s!"Fairness needs at least 2 sides, got {got}"
  | noSamples got => some s!"Sample size must be positive, got {got}"
  | badSignificance got => some ("Significance must be between 0 and 1, got " ++ got.shown)
  | outOfRange value sides => some ("Source returned " ++ value.shown ++ s!" for a d{sides}")
  | source fault _ => some fault.message
  | tooManySides | noRoom | uncountable | arithmetic _ => none

end FairnessError

/-- The outcome of a test. -/
structure Report where
  sides : Int
  sampleSize : Int
  statistic : Float
  degrees : Int
  pValue : Float
  significance : Float
  passed : Bool
  /-- How often each face came up, from 1 upwards. -/
  observed : List Nat

/-- The level a test is made at unless another one is given. -/
def usualSignificance : Float := 0.01

def standardDice : List Int := [4, 6, 8, 10, 12, 20, 100]

/-! ## The tally -/

/-- The most sides that can be told apart. -/
def tellableSides : Int := 9223372036854775807

/-- The sides that there is room for: as many as a source of words can draw from. -/
def tallyRoom : Int := 4294967296

/-- The face that a value counts for on a die. -/
def tallied (sides : Int) (v : Data) : Except FairnessError Int :=
  let face? (n : Int) : Except FairnessError Int :=
    if 1 ≤ n ∧ n ≤ sides then .ok n else .error (.outOfRange v sides)
  match v with
  | .int n => face? n
  | .bool b => face? (if b then 1 else 0)
  | .real x =>
    if 1.0 ≤ x && x ≤ (toFloat? sides).getD x then .error .uncountable
    else .error (.outOfRange v sides)
  | _ => .error .uncountable

/-- Draws so many faces, behind those already drawn; the newest comes first. -/
def drawFaces {σ : Type} [RandomSource σ] (sides : Int) :
    Nat → σ → List Int → Except FairnessError (List Int) × σ
  | 0, s, drawn => (.ok drawn, s)
  | more + 1, s, drawn =>
    match RandomSource.next s 1 sides with
    | (.error f, s) => (.error (.source f sides), s)
    | (.ok v, s) =>
      match tallied sides v with
      | .ok face => drawFaces sides more s (face :: drawn)
      | .error e => (.error e, s)

/-- How often each face of a die is among those drawn. -/
def tally (sides : Nat) (drawn : List Int) : Array Nat :=
  drawn.foldl (fun counts face => counts.modify (face - 1).toNat (· + 1)) (Array.replicate sides 0)

/-! ## The test -/

def significanceLevel? : Number → Option Float
  | .whole _ => none
  | .real x => if 0.0 < x && x < 1.0 then some x else none

def report (lib : Elementary) (sides sampleSize : Int) (significance : Float) (counts : Array Nat) :
    Except ArithmeticFault Report := do
  let observed := counts.toList
  let expected ← divided sampleSize sides.toNat
  let statistic ← (← chiSquare (observed.map Int.ofNat) (.real expected)).toFloat
  let p ← chiSquareTail lib (.real statistic) (sides - 1)
  return ⟨sides, sampleSize, statistic, sides - 1, p, significance, significance < p, observed⟩

/-- Tests a source on a die of one size, with a library of elementary functions and with room for a
tally of so many sides. -/
def fairnessWithin {σ : Type} [RandomSource σ] (lib : Elementary) (room : Int) (s : σ)
    (sides sampleSize : Int) (significance : Number) : Except FairnessError Report × σ :=
  if sides < 2 then (.error (.tooFewSides sides), s)
  else if sampleSize < 1 then (.error (.noSamples sampleSize), s)
  else
    match significanceLevel? significance with
    | none => (.error (.badSignificance significance), s)
    | some level =>
      if tellableSides < sides then (.error .tooManySides, s)
      else if room < sides then (.error .noRoom, s)
      else
        match drawFaces sides sampleSize.toNat s [] with
        | (.ok drawn, s) =>
          ((report lib sides sampleSize level (tally sides.toNat drawn)).mapError .arithmetic, s)
        | (.error e, s) => (.error e, s)

/-- Tests a source on a die of one size. -/
def fairness {σ : Type} [RandomSource σ] (s : σ) (sides sampleSize : Int) (significance : Number) :
    Except FairnessError Report × σ :=
  fairnessWithin .machine tallyRoom s sides sampleSize significance

/-- How often each face should come up. -/
def Report.expected (r : Report) : Except ArithmeticFault Float := divided r.sampleSize r.sides.toNat

def Report.event (r : Report) : Event := .tested r.sides r.sampleSize r.statistic r.pValue r.passed

/-! ## Several die sizes -/

/-- Tests a source on one die size after another, and tells of each test. -/
def fairnessOn {σ : Type} [RandomSource σ] (sampleSize : Int) (significance : Number) :
    List Int → σ → Except FairnessError (List Report) × σ × List Event
  | [], s => (.ok [], s, [])
  | sides :: more, s =>
    match fairness s sides sampleSize significance with
    | (.error e, s) => (.error e, s, [])
    | (.ok r, s) =>
      let (rs, s, events) := fairnessOn sampleSize significance more s
      (rs.map (r :: ·), s, r.event :: events)

/-- The reports that failed, as events. -/
def unfairEvents (reports : List Report) : List Event :=
  (reports.filter fun r => !r.passed).map fun r => .unfair r.sides r.statistic r.pValue

/-- Tests a source on several die sizes, and tells of the tests, and then of those it failed. -/
def health {σ : Type} [RandomSource σ] (s : σ) (sampleSize : Int) (significance : Number)
    (dice : List Int) : Except FairnessError (List Report) × σ × List Event :=
  match fairnessOn sampleSize significance dice s with
  | (.ok reports, s, events) => (.ok reports, s, events ++ unfairEvents reports)
  | (.error e, s, events) => (.error e, s, events)

end Dicebox
