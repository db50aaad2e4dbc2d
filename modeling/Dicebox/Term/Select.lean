import Dicebox.Die

/-! # Keeping and dropping dice

A selection ranks the dice that are still kept, the highest or the lowest first and equal ones in
the order they lie, and keeps or drops the first so many of them. It moves no die.

- `ranked`: the places of the kept dice in rank order.
- `droppedBy`: the places of the dice that a selection drops.
- `selectAll`: all dice after a selection.
-/

namespace Dicebox

/-- The kept dice with their places. -/
def candidates (dice : List Die) : List (Die × Nat) := dice.zipIdx.filter fun d => d.1.kept

def ranksBefore (highest : Bool) (a b : Die × Nat) : Bool :=
  if highest then b.1.value ≤ a.1.value else a.1.value ≤ b.1.value

/-- The places of the kept dice, the first in rank first. -/
def ranked (highest : Bool) (dice : List Die) : List Nat :=
  ((candidates dice).mergeSort (ranksBefore highest)).map Prod.snd

/-- How many of `size` ranked dice a selection of `count` takes. A count below zero leaves so many
untaken. -/
def taken (count : Int) (size : Nat) : Nat :=
  if count < 0 then (size + count).toNat else min count.toNat size

/-- The places of the dice that a selection drops. -/
def droppedBy (rule : Selection) (count : Int) (dice : List Die) : List Nat :=
  let places := ranked rule.highest dice
  let n := taken count places.length
  if rule.keeps then places.drop n else places.take n

/-- All dice after a selection, in the same order. -/
def selectAll (rule : Selection) (count : Int) (dice : List Die) : List Die :=
  let dropped := droppedBy rule count dice
  dice.zipIdx.map fun (d, i) => if i ∈ dropped then { d with kept := false } else d

end Dicebox
