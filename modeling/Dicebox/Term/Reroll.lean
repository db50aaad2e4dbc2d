import Dicebox.Die
import Dicebox.Rolling

/-! # Throwing dice again

A kept die that shows one of the listed values is thrown again, once or until it shows another
value, but no more often than a cap allows. The values it showed before stay with it.

- `redraw`: the faces that one die goes through.
- `Die.reroll` and `rerollAll`: a die, and all dice in order.
-/

namespace Dicebox

/-- How a die came to rest: its face, the faces before it with the newest first, and whether it
stopped only because it had been thrown often enough. -/
structure Rest where
  value : Int
  earlier : List Int
  stopped : Bool

/-- Throws a die that shows one of `values` again, at most so many times. -/
def redraw (values : List Int) (sides : Int) : Nat → Int → List Int → Rolling Rest
  | 0, value, earlier => .done ⟨value, earlier, true⟩
  | more + 1, value, earlier =>
    .draw sides fun face =>
      if face ∈ values then redraw values sides more face (value :: earlier)
      else .done ⟨face, value :: earlier, false⟩

/-- A die after a reroll. A repeating one tells when its cap has stopped it. -/
def Die.reroll (values : List Int) (once : Bool) (cap : Int) (d : Die) : Rolling Die :=
  if d.kept ∧ d.value ∈ values then
    (redraw values d.sides (if once then 1 else cap.toNat) d.value []).bind fun r =>
      let rerolled := { d with
        value := r.value
        rerolled := true
        rerolledFrom := d.rerolledFrom ++ r.earlier.reverse }
      if r.stopped ∧ !once then .note (.rerollCapReached cap d.sides) (.done rerolled)
      else .done rerolled
  else .done d

def rerollAll (values : List Int) (once : Bool) (cap : Int) (dice : List Die) :
    Rolling (List Die) :=
  (Rolling.foldl (fun done d => (d.reroll values once cap).bind fun d => .done (d :: done))
    [] dice).bind fun done => .done done.reverse

end Dicebox
