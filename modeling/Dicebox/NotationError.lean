import Dicebox.Text.Numeral
import Dicebox.Text.Quoted
import Dicebox.Token

/-! # Why a text is no dice expression

A text is refused at one place: at a character that starts no word, or at a word where the grammar
allows another one, a number is out of range, or the whole becomes too long or too deep. A few
refusals have no place, because they are about a word that the scanner never writes, or about a
number with too many digits to be read or shown.

- `NotationError`: the causes.
- `Fault.showable`, `Fault.tellable`: whether what is said about a fault can be shown.
- `NotationError.message` and `NotationError.position?`: what is said, and about which offset.
- `pointer`: the text with a caret below one of its characters.
-/

namespace Dicebox

/-! ## Causes -/

/-- What the grammar allows where something else stands. -/
inductive Expected where
  | operatorOrEnd
  /-- The bracket that closes the one at an offset. -/
  | closing (opening : Int)
  | primary
  | rerollValue
  | threshold
  deriving DecidableEq, Repr

/-- The use of a number that has to be a face of its die. -/
inductive FaceUse where
  | explosion
  | reroll
  | score
  deriving DecidableEq, Repr

/-- Modifiers of which a term has at most one. -/
inductive Family where
  | keep
  | drop
  | explode
  | success
  | failure
  deriving DecidableEq, Repr

/-- A fault of the words of an expression. -/
inductive Fault where
  | empty
  | tooManyTokens (limit : Int)
  | nestedTooDeeply
  | unexpectedEnd (expected : Expected)
  | unexpectedToken (text : List Char) (expected : Expected)
  | diceCount (limit got : Int)
  | missingSides
  | dieSize (limit got : Int)
  | emptySelection (keyword : List Char)
  | noFace (use : FaceUse) (sides got : Int)
  | rerollsEveryFace (sides : Int)
  | conflict (family : Family) (second first : List Char)
  deriving DecidableEq, Repr

/-- Why a text or a list of tokens is no dice expression. -/
inductive NotationError where
  /-- A character that starts no word. -/
  | unexpectedCharacter (found : Char) (position : Int)
  /-- A fault at the word at an offset. -/
  | fault (fault : Fault) (position : Int)
  /-- A number word with too many digits. -/
  | numberTooLong (digits : Nat)
  /-- A number word that is no numeral. -/
  | noNumeral (text : List Char)
  /-- A shorthand word that stands for nothing. -/
  | unknownShorthand
  /-- A limit on the number of words so far below zero that no word lies beyond it. -/
  | noTokenBeyondLimit (limit : Int)
  deriving DecidableEq, Repr

/-! ## Wording -/

namespace Expected

def description : Expected → String
  | operatorOrEnd => "an operator or end of expression"
  | closing opening => s!"')' to close '(' at position {opening}"
  | primary => "a number, dice term or '('"
  | rerollValue => "a value to reroll"
  | threshold => "a threshold"

end Expected

namespace FaceUse

def description : FaceUse → String
  | explosion => "Explode threshold"
  | reroll => "Reroll value"
  | score => "Threshold"

end FaceUse

namespace Family

def description : Family → String
  | keep => "keep"
  | drop => "drop"
  | explode => "explode"
  | success => "success count"
  | failure => "failure count"

/-- The family that a modifier belongs to; rerolls have none. -/
def of? : Modifier → Option Family
  | .select rule _ => some (if rule.keeps then .keep else .drop)
  | .explode _ _ => some .explode
  | .reroll _ _ _ => none
  | .success _ => some .success
  | .failure _ => some .failure

end Family

namespace Fault

/-- What is said about a fault, without its place. -/
def message : Fault → String
  | empty => "Dice expression cannot be empty"
  | tooManyTokens limit => s!"Expression is too long (more than {limit} tokens)"
  | nestedTooDeeply => "Expression is nested too deeply"
  | unexpectedEnd expected => "Unexpected end of expression, expected " ++ expected.description
  | unexpectedToken text expected =>
    "Unexpected '" ++ String.ofList text ++ "', expected " ++ expected.description
  | diceCount limit got => s!"Number of dice must be between 1 and {limit}, got {got}"
  | missingSides => "Missing number of sides after 'd'"
  | dieSize limit got => s!"Die size must be between 1 and {limit}, got {got}"
  | emptySelection keyword => "'" ++ String.ofList keyword ++ "' must select at least one die"
  | noFace use sides got =>
    use.description ++ s!" must be between 1 and {sides}, got {got}"
  | rerollsEveryFace sides => s!"Reroll covers every face of a d{sides} and would never settle"
  | conflict family second first =>
    "A dice term accepts at most one " ++ family.description ++ " modifier, found '" ++
      String.ofList second ++ "' after '" ++ String.ofList first ++ "'"

/-- The numbers that are shown with a fault. A limit on the number of words is left out: the fault is
at a word of the list, so the limit is no farther from zero than the list is long. The offset of a
bracket is `offset?`. -/
def numbers : Fault → List Int
  | diceCount limit got | dieSize limit got => [limit, got]
  | noFace _ sides got => [sides, got]
  | rerollsEveryFace sides => [sides]
  | _ => []

/-- All numbers of a fault can be shown. -/
def showable (f : Fault) : Bool := f.numbers.all Numeral.showable

/-- The offset that is shown with a fault: that of the bracket that is open. -/
def offset? : Fault → Option Int
  | unexpectedEnd (.closing p) | unexpectedToken _ (.closing p) => some p
  | _ => none

/-- All that is said about a fault can be shown. Only tokens that come from no text have offsets
with too many digits for that. -/
def tellable (f : Fault) : Bool := f.showable && f.offset?.all Numeral.showable

end Fault

namespace NotationError

def message : NotationError → String
  | unexpectedCharacter found _ => "Unexpected character " ++ Text.quote (String.singleton found)
  | fault f _ => if f.showable then f.message else Numeral.tooLongToShow
  | numberTooLong digits => Numeral.tooLongToRead digits
  | noNumeral text =>
    let quoted := (Text.quote (String.ofList text)).toList
    "invalid literal for int() with base 10: " ++ String.ofList (quoted.take 200)
  | unknownShorthand => "A shorthand stands for nothing"
  | noTokenBeyondLimit limit =>
    if Numeral.showable limit then "No token lies beyond the limit" else Numeral.tooLongToShow

/-- The offset that the refusal is about. A fault that cannot be shown has no place either. -/
def position? : NotationError → Option Int
  | unexpectedCharacter _ p => some p
  | fault f p => if f.showable then some p else none
  | numberTooLong _ | noNumeral _ | unknownShorthand | noTokenBeyondLimit _ => none

end NotationError

/-! ## Places -/

/-- A message with its place behind it, if it has one. -/
def placed (message : String) : Option Int → String
  | none => message
  | some p => message ++ s!" (at position {p})"

/-- The text with a caret below the character at an offset, just past the end for an offset
beyond it and at the start for one below zero; the bare text without an offset. -/
def pointer (text : String) : Option Int → String
  | none => text
  | some p => text ++ "\n" ++ String.ofList (List.replicate (min p text.length).toNat ' ') ++ "^"

end Dicebox
