import Dicebox.Expr.Roll
import Dicebox.Number
import Dicebox.Summary.Parts

/-! # The totals of many rolls

An expression is rolled many times, and its totals are summarized. Extremes and an odd median are
exact; the mean divides the rounded sum, and the standard deviation is the root of the exact
variance, rounded once. Totals too large for a binary64 number, or too large together, have no mean.

- `rollMany`: the totals of so many rolls.
- `mean`, `median`, `deviationOf`: the statistics of a list of integers.
- `summarize`: the whole summary.
-/

namespace Dicebox

/-! ## Statistics of integers -/

/-- The sum of the rounded integers, which is kept in parts and rounded once, divided by their
number. -/
def mean (ns : List Int) : Except ArithmeticFault Float :=
  let parts? := ns.mapM rounded? >>= Parts.addAll? []
  match parts? >>= fun parts => toFloat? (sumOf parts), toFloat? ns.length with
  | some sum, some count => .ok (sum / count)
  | _, _ => .error .overflow

/-- The middle one of an odd number of integers, or the mean of the two middle ones. -/
def median (ns : List Int) : Except ArithmeticFault Number :=
  let sorted := ns.mergeSort
  let half := sorted.length / 2
  if sorted.length % 2 = 1 then .ok (.whole (sorted.getD half 0))
  else (divided (sorted.getD (half - 1) 0 + sorted.getD half 0) 2).map .real

/-- The standard deviation of all the integers there are. -/
def deviationOf (ns : List Int) : Except ArithmeticFault Float :=
  let n := ns.length
  let sum := sumOf ns
  let squares := sumOf (ns.map fun x => x * x)
  match sqrtNearest? (n * squares - sum * sum).toNat (n * n) with
  | some x => .ok x
  | none => .error .overflow

/-! ## Summaries -/

/-- The statistics of an expression's totals. -/
structure Summary where
  expression : String
  iterations : Int
  mean : Float
  median : Number
  minimum : Int
  maximum : Int
  deviation : Float

/-- Why there is no summary. -/
inductive SummaryError where
  | noIterations (got : Int)
  | roll (error : RollError)
  | arithmetic (fault : ArithmeticFault)

/-- What is said about a missing summary; arithmetic speaks for itself. -/
def SummaryError.message? : SummaryError → Option String
  | noIterations got => some s!"Iterations must be positive, got {got}"
  | roll e => some e.message
  | arithmetic _ => none

/-- Rolls an expression so many times, behind the totals and events of earlier rolls; the newest
come first. -/
def rollMany {σ : Type} [RandomSource σ] (e : Expr) (text : Option String) :
    Nat → σ → List Int → List Event → Run σ (List Int)
  | 0, s, totals, events => ⟨.ok totals, s, events⟩
  | more + 1, s, totals, events =>
    let run := (e.roll text).run s
    let events := run.events.reverse ++ events
    match run.outcome with
    | .ok r => rollMany e text more run.source (r.total :: totals) events
    | .error err => ⟨.error err, run.source, events⟩

/-- The statistics of totals, of which there is at least one. -/
def summaryOf (label : String) (totals : List Int) : Except ArithmeticFault Summary := do
  let m ← mean totals
  let med ← median totals
  let d ← deviationOf totals
  return ⟨label, totals.length, m, med, totals.min?.getD 0, totals.max?.getD 0, d⟩

/-- Rolls an expression many times and summarizes its totals under its text, or under its canonical
notation if it has none. -/
def summarize {σ : Type} [RandomSource σ] (e : Expr) (s : σ) (iterations : Int)
    (text : Option String) : Except SummaryError Summary × σ × List Event :=
  if iterations < 1 then (.error (.noIterations iterations), s, [])
  else
    let run := rollMany e text iterations.toNat s [] []
    let events := run.events.reverse
    match run.outcome with
    | .error err => (.error (.roll err), run.source, events)
    | .ok totals =>
      let summary := summaryOf (text.getD e.canonical) totals.reverse
      (summary.mapError .arithmetic, run.source, events)

end Dicebox
