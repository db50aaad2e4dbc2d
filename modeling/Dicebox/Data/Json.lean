import Dicebox.Data
import Dicebox.Decimal.Shortest
import Dicebox.Text.Numeral
import Dicebox.Text.Quoted

/-! # Plain data as JSON

Plain data is written as JSON over several lines, two spaces further in for each level. Characters
stand for themselves, except the double quote, the backslash and control characters.

- `Data.json`: a value as JSON.
-/

namespace Dicebox.Data

/-- A character inside a JSON text. -/
def jsonChar (c : Char) : List Char :=
  if c = Text.doubleQuote ∨ c = '\\' then ['\\', c]
  else if c = '\n' then ['\\', 'n']
  else if c = '\r' then ['\\', 'r']
  else if c = '\t' then ['\\', 't']
  else if c.toNat < 0x20 then '\\' :: 'u' :: Text.hex 4 c.toNat
  else [c]

def jsonText (s : String) : String :=
  String.ofList (Text.doubleQuote :: s.toList.flatMap jsonChar ++ [Text.doubleQuote])

/-- A new line, so many levels in. -/
def jsonBreak (level : Nat) : String := "\n" ++ String.ofList (List.replicate (2 * level) ' ')

/-- Written items between brackets, so many levels in. -/
def jsonBlock (level : Nat) (opening closing : String) (items : List String) : String :=
  if items.isEmpty then opening ++ closing
  else
    let inner := jsonBreak (level + 1)
    opening ++ inner ++ ("," ++ inner).intercalate items ++ jsonBreak level ++ closing

mutual

/-- A value, so many levels in. -/
def jsonAt (level : Nat) : Data → String
  | null => "null"
  | bool b => if b then "true" else "false"
  | int n => Numeral.text n
  | real x => Shortest.text x
  | text s => jsonText s
  | list items => jsonBlock level "[" "]" (jsonItems (level + 1) items)
  | record fields => jsonBlock level "\x7b" "\x7d" (jsonFields (level + 1) fields)

def jsonItems (level : Nat) : List Data → List String
  | [] => []
  | v :: vs => v.jsonAt level :: jsonItems level vs

def jsonFields (level : Nat) : List (String × Data) → List String
  | [] => []
  | (name, v) :: fs => (jsonText name ++ ": " ++ v.jsonAt level) :: jsonFields level fs

end

def json (d : Data) : String := d.jsonAt 0

end Dicebox.Data
