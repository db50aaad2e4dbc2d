/-! # Plain data

Values as they come from outside: out of a stored roll, a settings file or a list of recorded
values. Integers are exact; other numbers are binary64; a record keeps its fields in order.

- `Data`: the values.
- `Data.field?`: the fields of a record.
-/

namespace Dicebox

/-- A plain value. -/
inductive Data where
  | null
  | bool (value : Bool)
  | int (value : Int)
  | real (value : Float)
  | text (value : String)
  | list (items : List Data)
  | record (fields : List (String × Data))
  deriving Repr, Inhabited

namespace Data

/-- The value of the first field of this name. -/
def field? (name : String) : Data → Option Data
  | record fields => fields.lookup name
  | _ => none

end Data

end Dicebox
