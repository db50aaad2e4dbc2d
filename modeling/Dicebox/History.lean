import Dicebox.Entry
import Dicebox.Number

/-! # The history of an engine

A history keeps the most recent rolls, up to its capacity, and tallies the dice of all rolls that
were recorded since it was last cleared, by their number of sides. A roll that has been dropped for a
newer one still counts.

- `History`: the rolls, newest first, and the tallies, by ascending number of sides.
- `History.record`, `History.clear`: the two ways it changes.
- `History.recent`, `History.find?`: the rolls that it still keeps.
- `History.statistics`: the tallies as statistics.
-/

namespace Dicebox

/-! ## Tallies -/

/-- What has been seen of the dice of one size. -/
structure DieTally where
  sides : Int
  count : Nat
  /-- The sum of their faces. -/
  sum : Int
  /-- How many showed their highest face. -/
  highest : Nat
  /-- How many showed a 1. -/
  lowest : Nat
  deriving DecidableEq, Repr

namespace DieTally

/-- Nothing seen of the dice of a size. -/
def empty (sides : Int) : DieTally := ⟨sides, 0, 0, 0, 0⟩

def add (t : DieTally) (d : Die) : DieTally :=
  { t with
    count := t.count + 1
    sum := t.sum + d.value
    highest := t.highest + if d.isHighest then 1 else 0
    lowest := t.lowest + if d.isLowest then 1 else 0 }

end DieTally

/-- Counts a die among tallies by ascending number of sides. -/
def tallyDie (d : Die) : List DieTally → List DieTally
  | [] => [(DieTally.empty d.sides).add d]
  | t :: ts =>
    if d.sides < t.sides then (DieTally.empty d.sides).add d :: t :: ts
    else if d.sides = t.sides then t.add d :: ts
    else t :: tallyDie d ts

def tallyDice (ds : List Die) (ts : List DieTally) : List DieTally :=
  ds.foldl (fun ts d => tallyDie d ts) ts

/-! ## The history -/

/-- The rolls that are kept and the tallies of those that were recorded. -/
structure History where
  /-- How many rolls are kept. -/
  capacity : Nat
  /-- The newest entries, the newest of all first. -/
  entries : List Entry
  /-- How many rolls were recorded. -/
  total : Nat
  tallies : List DieTally
  capacity_pos : 0 < capacity
  length_le : entries.length ≤ capacity

/-- Why there is no history of a size. -/
inductive HistoryError where
  | notPositive (size : Int)
  /-- More than any list can hold. -/
  | tooLarge (size : Int)
  deriving DecidableEq, Repr

def HistoryError.message : HistoryError → String
  | notPositive size => s!"History size must be positive, got {size}"
  | tooLarge size => s!"History size is too large: {size}"

namespace History

def greatestCapacity : Nat := 9223372036854775807

/-- A history without rolls. -/
def empty (capacity : Nat) (h : 0 < capacity) : History :=
  ⟨capacity, [], 0, [], h, Nat.zero_le _⟩

/-- A history of a size, without rolls. -/
def ofSize (size : Int) : Except HistoryError History :=
  if h : size < 1 then .error (.notPositive size)
  else if greatestCapacity < size.toNat then .error (.tooLarge size)
  else .ok (empty size.toNat (by omega))

def record (h : History) (e : Entry) : History :=
  { h with
    entries := (e :: h.entries).take h.capacity
    total := h.total + 1
    tallies := tallyDice e.roll.dice h.tallies
    length_le := List.length_take_le _ _ }

def clear (h : History) : History := empty h.capacity h.capacity_pos

def size (h : History) : Nat := h.entries.length

/-- The newest rolls, so many of them; a negative limit leaves out so many of the oldest. -/
def recent (h : History) (limit : Int) : List Entry :=
  if 0 ≤ limit then h.entries.take limit.toNat
  else h.entries.take (h.entries.length - limit.natAbs)

/-- The newest of the kept rolls with this name. -/
def find? (h : History) (id : String) : Option Entry := h.entries.find? fun e => e.stamp.id = id

/-! ## Statistics -/

/-- What is known of the dice of one size. -/
structure DieStatistics where
  sides : Int
  count : Nat
  mean : Float
  highest : Nat
  lowest : Nat

def statisticsOf (t : DieTally) : Except ArithmeticFault DieStatistics :=
  (divided t.sum t.count).map fun mean => ⟨t.sides, t.count, mean, t.highest, t.lowest⟩

/-- The mean that a fair die tends to. -/
def DieStatistics.theoreticalMean (s : DieStatistics) : Except ArithmeticFault Float :=
  divided (s.sides + 1) 2

/-- What is known of the dice, by ascending number of sides. -/
def statistics (h : History) : Except ArithmeticFault (List DieStatistics) :=
  h.tallies.mapM statisticsOf

end History

end Dicebox
