import Dicebox.Expr

/-! # Tokens

The words of a dice expression. A token keeps the text it was read from, in its own letter case,
and the offset of its first character; a list of tokens ends with an end marker.

- `Token` and `Token.Kind`: a word and its part of speech.
- `Token.stop`: the offset just past a token.
- `keyword?` and `shorthand?`: the words made of letters.
-/

namespace Dicebox

/-- What a word stands for. -/
inductive Token.Kind where
  | integer
  | die
  | operator (op : Operator)
  | opening
  | closing
  | comma
  | select (rule : Selection)
  | explode
  | reroll
  | rerollOnce
  | success
  | failure
  | shorthand
  | endMark
  deriving DecidableEq, Repr

/-- A word of a dice expression, as it was written, and where. -/
structure Token where
  kind : Token.Kind
  text : List Char
  position : Int
  deriving DecidableEq, Repr

namespace Token

def stop (t : Token) : Int := t.position + t.text.length

def ending (position : Int) : Token := ⟨.endMark, [], position⟩

end Token

/-- The keyword made of two small letters. -/
def keyword? : List Char → Option Token.Kind
  | ['k', 'h'] => some (.select .keepHighest)
  | ['k', 'l'] => some (.select .keepLowest)
  | ['d', 'h'] => some (.select .dropHighest)
  | ['d', 'l'] => some (.select .dropLowest)
  | ['r', 'o'] => some .rerollOnce
  | ['c', 's'] => some .success
  | ['c', 'f'] => some .failure
  | _ => none

/-- The die that a whole word in small letters keeps of two: the higher one for an advantage, the
lower one for a disadvantage. -/
def shorthand? (word : List Char) : Option Selection :=
  if word = "adv".toList ∨ word = "advantage".toList then some .keepHighest
  else if word = "dis".toList ∨ word = "disadvantage".toList then some .keepLowest
  else none

def sign? : Char → Option Token.Kind
  | '+' => some (.operator .add)
  | '-' => some (.operator .sub)
  | '*' => some (.operator .mul)
  | '/' => some (.operator .div)
  | '(' => some .opening
  | ')' => some .closing
  | ',' => some .comma
  | '!' => some .explode
  | _ => none

end Dicebox
