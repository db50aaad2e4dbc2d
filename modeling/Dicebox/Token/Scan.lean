import Dicebox.NotationError
import Dicebox.Text.Blank

/-! # Splitting a text into tokens

Numbers are the longest runs of digits. A run of letters is a shorthand if all of it is one, and
otherwise begins with a two-letter keyword or with the single letter of a die or a reroll, in any
case. Blanks separate and are skipped; nothing else is.

- `lexeme?`: what a text begins with, and how far it reaches.
- `Token.scan`: the tokens of a text, with an end marker behind them.
- `Token.scanFrom_of_blank`, `Token.scanFrom_of_lexeme`: one step of the scan.
-/

namespace Dicebox

/-- What a text begins with: the kind of its first word, and how many characters follow the first
one in it. -/
def lexeme? (c : Char) (rest : List Char) : Option (Token.Kind × Nat) :=
  if c.isDigit then some (.integer, (rest.takeWhile Char.isDigit).length)
  else
    match sign? c with
    | some kind => some (kind, 0)
    | none =>
      if c.isAlpha then
        let more := rest.takeWhile Char.isAlpha
        let word := (c :: more).map Char.toLower
        match shorthand? word, keyword? (word.take 2), c.toLower with
        | some _, _, _ => some (.shorthand, more.length)
        | none, some kind, _ => some (kind, 1)
        | none, none, 'd' => some (.die, 0)
        | none, none, 'r' => some (.reroll, 0)
        | none, none, _ => none
      else none

namespace Token

/-- The tokens of a text that begins at an offset. -/
def scanFrom (position : Int) : List Char → Except NotationError (List Token)
  | [] => .ok [ending position]
  | c :: rest =>
    if Text.isBlank c then scanFrom (position + 1) rest
    else
      match lexeme? c rest with
      | none => .error (.unexpectedCharacter c position)
      | some (kind, more) =>
        (scanFrom (position + 1 + more) (rest.drop more)).map
          (⟨kind, c :: rest.take more, position⟩ :: ·)
termination_by cs => cs.length
decreasing_by all_goals simp only [List.length_cons, List.length_drop]; omega

/-- The tokens of a text, with an end marker behind them. -/
def scan (text : String) : Except NotationError (List Token) := scanFrom 0 text.toList

/-! ## One step -/

@[simp] theorem scanFrom_nil (p : Int) : scanFrom p [] = .ok [ending p] := by
  rw [scanFrom]

theorem scanFrom_of_blank {c : Char} (h : Text.isBlank c = true) (p : Int) (cs : List Char) :
    scanFrom p (c :: cs) = scanFrom (p + 1) cs := by
  rw [scanFrom, if_pos h]

theorem scanFrom_of_lexeme {c : Char} {cs : List Char} {kind : Kind} {more : Nat}
    (hb : Text.isBlank c = false) (h : lexeme? c cs = some (kind, more)) (p : Int) :
    scanFrom p (c :: cs) =
      (scanFrom (p + 1 + more) (cs.drop more)).map (⟨kind, c :: cs.take more, p⟩ :: ·) := by
  rw [scanFrom, if_neg (by simp [hb]), h]

theorem scanFrom_of_no_lexeme {c : Char} {cs : List Char}
    (hb : Text.isBlank c = false) (h : lexeme? c cs = none) (p : Int) :
    scanFrom p (c :: cs) = .error (.unexpectedCharacter c p) := by
  rw [scanFrom, if_neg (by simp [hb]), h]

end Token

end Dicebox
