import Dicebox.Data.Checked
import Dicebox.Decimal.Read
import Dicebox.Text.Numeral
import Dicebox.Timestamp

/-! # Reading plain data

Plain data is read with some leniency, because it may have gone through a format with fewer types: a
number may stand as text, an integer as a number without places, a truth value as a word. A text has
to be a text.

- `Data.readInt`, `Data.readBool`, `Data.readReal`, `Data.readText`, `Data.readTime`: single values.
- `ValueReader`: a library that reads single values, and `ValueReader.lenient` this one.
- `Data.readList`: a list.
- `Data.readField`: a field of a record, `Data.readFieldOr` one that may be left out.
- `atLeast`: a lower bound.
-/

namespace Dicebox

/-- An integer that is at least `low`. -/
def atLeast {ρ : Type} (low n : Int) : Checked ρ Int :=
  if low ≤ n then .good n else .fail (.tooSmall low)

/-- The integers that fit into 64 bits with a sign. -/
def fitsWord (n : Int) : Bool := -twoTo 63 ≤ n && n < twoTo 63

/-- The integer that a number without places stands for. Both ends of the range are out of it. -/
def integral {ρ : Type} (x : Float) : Checked ρ Int :=
  match Binary64.ofFloat x with
  | .finite negative m e =>
    let scaled := m * twoTo e.toNat
    let den := twoTo (-e).toNat
    if scaled % den ≠ 0 then .fail .fractional
    else
      let n : Int := scaled / den
      let n := if negative then -n else n
      if -twoTo 63 < n ∧ n < twoTo 63 then .good n else .fail .longNumeral
  | _ => .fail .notFinite

namespace Data

variable {ρ : Type}

/-! ## Single values -/

/-- An integer: as it is, as a number without places, as a numeral, or as a truth value. -/
def readInt : Data → Checked ρ Int
  | int n => .good n
  | bool b => .good (if b then 1 else 0)
  | real x => integral x
  | text s =>
    match Numeral.readWhole s.toList with
    | .value n => .good n
    | .tooLong _ => .fail .longNumeral
    | .malformed => .fail .badNumeral
  | _ => .fail .notInt

/-- A number: as it is, as a numeral, or as a truth value. -/
def readReal : Data → Checked ρ Float
  | real x => .good x
  | int n =>
    match toFloat? n with
    | some x => .good x
    | none => .fail .notReal
  | bool b => .good (if b then 1 else 0)
  | text s =>
    match readStored? s.toList with
    | some x => .good x
    | none => .fail .badReal
  | _ => .fail .notReal

def falseWords : List String := ["0", "off", "f", "false", "n", "no"]

def trueWords : List String := ["1", "on", "t", "true", "y", "yes"]

/-- A word for a truth value, in any case. -/
def boolOfWord (s : String) : Checked ρ Bool :=
  let word := String.ofList (s.toList.map Char.toLower)
  if word ∈ falseWords then .good false
  else if word ∈ trueWords then .good true
  else .fail .badBool

def boolOfInt (n : Int) : Checked ρ Bool :=
  if n = 0 then .good false
  else if n = 1 then .good true
  else .fail .badBool

/-- A truth value: as it is, as a 0 or 1, or as a word. -/
def readBool : Data → Checked ρ Bool
  | bool b => .good b
  | text s => boolOfWord s
  | int n => if fitsWord n then boolOfInt n else .fail .notBool
  | real x =>
    match integral (ρ := ρ) x with
    | .good n => boolOfInt n
    | .bad _ => .fail .notBool
  | _ => .fail .notBool

def readText : Data → Checked ρ String
  | text s => .good s
  | _ => .fail .notText

/-- A time that may be too far away, as the years before the year 1 are. -/
def nearTime : Option Timestamp → Checked ρ Timestamp
  | some t => if 1 ≤ t.year then .good t else .fail .farTime
  | none => .fail .farTime

/-- A time: in its written form, or as a number of seconds since 1970. -/
def readTime : Data → Checked ρ Timestamp
  | text s =>
    match Timestamp.readAny? s.toList with
    | some t => nearTime (some t)
    | none => .fail .badTime
  | int n =>
    if fitsWord n then nearTime (Timestamp.ofCount? n)
    else if (toFloat? n).isSome then .fail .farTime
    else .fail .notTime
  | real x => nearTime (Timestamp.ofReal? x)
  | _ => .fail .notTime

end Data

/-- A library that reads single values from plain data. -/
structure ValueReader where
  int : {ρ : Type} → Data → Checked ρ Int
  real : {ρ : Type} → Data → Checked ρ Float
  bool : {ρ : Type} → Data → Checked ρ Bool
  text : {ρ : Type} → Data → Checked ρ String
  time : {ρ : Type} → Data → Checked ρ Timestamp

/-- The library that is lenient in these ways. -/
def ValueReader.lenient : ValueReader where
  int := Data.readInt
  real := Data.readReal
  bool := Data.readBool
  text := Data.readText
  time := Data.readTime

namespace Data

variable {ρ α : Type}

/-! ## Lists and records -/

def readList (item : Data → Checked ρ α) : Data → Checked ρ (List α)
  | list items => .all (items.map item)
  | _ => .fail .notList

def readField (name : String) (value : Data → Checked ρ α) (d : Data) : Checked ρ α :=
  match d.field? name with
  | some v => (value v).under name
  | none => (Checked.fail .missing).under name

/-- A field of a record that may be left out. -/
def readFieldOr (name : String) (absent : α) (value : Data → Checked ρ α) (d : Data) :
    Checked ρ α :=
  match d.field? name with
  | some v => (value v).under name
  | none => .good absent

end Data

end Dicebox
