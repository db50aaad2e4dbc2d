import Dicebox.Text.Unprintable

/-! # Quoted text

A text shown inside a message stands in quotes: single ones, or double ones if it holds a single
quote and no double one. A backslash and the quote in use are escaped with a backslash, line feed,
carriage return and tab by their letters, and every other unprintable character by its code point
in two, four or eight hexadecimal digits.

- `quote`: the quoted form.
-/

namespace Dicebox.Text

def singleQuote : Char := Char.ofNat 39

def doubleQuote : Char := Char.ofNat 34

/-- `n` in lower-case hexadecimal, filled up with zeros to `width` digits. -/
def hex (width n : Nat) : List Char :=
  let ds := Nat.toDigits 16 n
  List.replicate (width - ds.length) '0' ++ ds

/-- The code point escape of a character, as short as its code point allows. -/
def codePointEscape (c : Char) : List Char :=
  let n := c.toNat
  if n ≤ 0xFF then '\\' :: 'x' :: hex 2 n
  else if n ≤ 0xFFFF then '\\' :: 'u' :: hex 4 n
  else '\\' :: 'U' :: hex 8 n

def quoteChar (q c : Char) : List Char :=
  if c = '\\' ∨ c = q then ['\\', c]
  else if c = '\n' then ['\\', 'n']
  else if c = '\r' then ['\\', 'r']
  else if c = '\t' then ['\\', 't']
  else if isPrintable c then [c]
  else codePointEscape c

/-- The quote that a text is written in. -/
def quoteMark (cs : List Char) : Char :=
  if singleQuote ∈ cs ∧ doubleQuote ∉ cs then doubleQuote else singleQuote

def quote (s : String) : String :=
  let cs := s.toList
  let q := quoteMark cs
  String.ofList (q :: cs.flatMap (quoteChar q) ++ [q])

end Dicebox.Text
