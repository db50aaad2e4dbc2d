import Dicebox.Arith
import Dicebox.Die

/-! # Scoring

The kept dice of a term are added up, unless a modifier counts successes or failures. Where both are
counted, failures are taken off the successes. Of two counts of one kind the first one written holds.

- `successThreshold?`, `failureThreshold?`: what a term counts.
- `score`: the subtotal and how it was made.
-/

namespace Dicebox

/-- The threshold for a success, if successes are counted. -/
def successThreshold? (ms : List Modifier) : Option Int :=
  ms.findSome? fun
    | .success t => some t
    | _ => none

/-- The threshold for a failure, if failures are counted. -/
def failureThreshold? (ms : List Modifier) : Option Int :=
  ms.findSome? fun
    | .failure t => some t
    | _ => none

/-- How many of the faces are at or above a threshold. -/
def successes (threshold : Int) (faces : List Int) : Int := faces.countP (threshold ≤ ·)

/-- How many of the faces are at or below a threshold. -/
def failures (threshold : Int) (faces : List Int) : Int := faces.countP (· ≤ threshold)

def keptFaces (dice : List Die) : List Int := (dice.filter (·.kept)).map (·.value)

/-- The subtotal of a term's dice, and how it was made. -/
def score (dice : List Die) (ms : List Modifier) : Int × Scoring :=
  let faces := keptFaces dice
  match successThreshold? ms, failureThreshold? ms with
  | none, none => (sumOf faces, .sum)
  | some s, none => (successes s faces, .successCount)
  | none, some f => (failures f faces, .successCount)
  | some s, some f => (successes s faces - failures f faces, .successCount)

end Dicebox
