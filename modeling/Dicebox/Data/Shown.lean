import Dicebox.Data
import Dicebox.Decimal.Shortest
import Dicebox.Text.Numeral
import Dicebox.Text.Quoted

/-! # Plain values inside messages

A message shows a value in full: numbers in their shortest form, texts in quotes, lists between
square brackets and records between curly ones.

- `Data.shown`: a value as it stands in a message.
- `Data.showable`: whether it can stand there.
-/

namespace Dicebox.Data

mutual

/-- A value as it stands in a message. -/
def shown : Data → String
  | null => "None"
  | bool b => if b then "True" else "False"
  | int n => Numeral.text n
  | real x => Shortest.text x
  | text s => Text.quote s
  | list items => "[" ++ shownItems items ++ "]"
  | record fields => "\x7b" ++ shownFields fields ++ "\x7d"

def shownItems : List Data → String
  | [] => ""
  | [v] => v.shown
  | v :: vs => v.shown ++ ", " ++ shownItems vs

def shownFields : List (String × Data) → String
  | [] => ""
  | [(name, v)] => Text.quote name ++ ": " ++ v.shown
  | (name, v) :: fs => Text.quote name ++ ": " ++ v.shown ++ ", " ++ shownFields fs

end

mutual

/-- No integer in a value has too many digits to be shown. -/
def showable : Data → Bool
  | int n => Numeral.showable n
  | list items => showableItems items
  | record fields => showableFields fields
  | null | bool _ | real _ | text _ => true

def showableItems : List Data → Bool
  | [] => true
  | v :: vs => v.showable && showableItems vs

def showableFields : List (String × Data) → Bool
  | [] => true
  | (_, v) :: fs => v.showable && showableFields fs

end

end Dicebox.Data
