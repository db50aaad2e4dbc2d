import Dicebox.Die
import Dicebox.Timestamp

/-! # Rolls on record

A roll that is kept has a name of its own and the time it was made. Two entries may hold the same
roll; what the dice show says nothing about the name and the time.

- `Stamp`: a name and a time.
- `Entry`: a roll with its stamp.
-/

namespace Dicebox

/-- The name of an entry and the time it was made. -/
structure Stamp where
  id : String
  time : Timestamp
  deriving DecidableEq, Repr

/-- A roll with its stamp. -/
structure Entry where
  stamp : Stamp
  roll : Roll
  deriving DecidableEq, Repr

end Dicebox
