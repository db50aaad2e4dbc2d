import Dicebox.Text.Blank
import Dicebox.Text.Digit
import Dicebox.Text.Groups

/-! # Decimal numerals

Integers are written in decimal without leading zeros, and read more freely. In an expression, white
space around the numeral, a sign, digits of any script and underscores between groups of digits are
allowed, and leading zeros count as digits. A stored number has plain digits and may end in a point
and zeros; its leading zeros do not count, and white space and underscores are allowed as well. A
numeral with more than `Numeral.digitLimit` digits is refused, both read and written.

- `Numeral.ofInt`: the written form.
- `Numeral.read`: the reader of an expression, which tells a numeral that is too long from one that
  is none.
- `Numeral.readWhole`: the reader of stored numbers.
- `Numeral.read_of_digits`: a short enough run of digits reads as its value.
-/

namespace Dicebox.Numeral

/-- The most digits a numeral may have, leading zeros included. -/
def digitLimit : Nat := 4300

/-- The numeral of an integer: a minus sign if it is negative, then its digits. -/
def ofInt : Int → List Char
  | .ofNat n => Nat.toDigits 10 n
  | .negSucc n => '-' :: Nat.toDigits 10 (n + 1)

def text (n : Int) : String := String.ofList (ofInt n)

/-- An integer whose numeral keeps to the limit can be shown. -/
def showable (n : Int) : Bool := (Nat.toDigits 10 n.natAbs).length ≤ digitLimit

/-- What a text says when it is read as a numeral. -/
inductive Reading where
  /-- An integer. -/
  | value (n : Int)
  /-- A numeral with more digits than are allowed. -/
  | tooLong (digits : Nat)
  /-- No numeral at all. -/
  | malformed
  deriving DecidableEq, Repr

def Reading.neg : Reading → Reading
  | value n => value (-n)
  | other => other

/-! ## Numerals in an expression -/

/-- Reads an unsigned numeral. Digits beyond the limit are found out before what follows them. -/
def readDigits (cs : List Char) : Reading :=
  let partOfRun (c : Char) := c.isDigit || c == '_'
  match Text.ungroup? (cs.takeWhile partOfRun) with
  | none | some [] => .malformed
  | some ds =>
    if digitLimit < ds.length then .tooLong ds.length
    else if (cs.dropWhile partOfRun).isEmpty then .value (Nat.ofDigitChars 10 ds 0)
    else .malformed

def readSigned : List Char → Reading
  | '+' :: r => readDigits r
  | '-' :: r => (readDigits r).neg
  | r => readDigits r

/-- Reads a numeral with its sign and white space around it. -/
def read (cs : List Char) : Reading := readSigned (Text.trim Text.isSpace (cs.map Text.plainDigit))

/-! ## Stored numerals -/

/-- Reads an unsigned numeral without leading zeros. -/
def readBareDigits (cs : List Char) : Reading :=
  let ds := cs.takeWhile Char.isDigit
  if ds.isEmpty ∨ (ds.head? = some '0' ∧ 1 < ds.length) then .malformed
  else if digitLimit < ds.length then .tooLong ds.length
  else if (cs.dropWhile Char.isDigit).isEmpty then .value (Nat.ofDigitChars 10 ds 0)
  else .malformed

def readBare : List Char → Reading
  | '-' :: r => (readBareDigits r).neg
  | r => readBareDigits r

/-- A text behind a zero, from what counts on: a sign, a digit that is no zero, or the last zero
before a point or before the end. -/
def afterZero? (last : Char) : List Char → Option (List Char)
  | [] => some [last]
  | c :: r =>
    if c = '0' ∨ c = '_' then afterZero? c r
    else if c.isDigit ∨ c = '-' then some (c :: r)
    else if c = '.' then some (last :: c :: r)
    else none

/-- A text without the zeros that it begins with; nothing if it does not begin with a digit. -/
def dropZeros? : List Char → Option (List Char)
  | [] => none
  | c :: r =>
    if c = '0' then afterZero? c r
    else if c.isDigit then some (c :: r)
    else none

/-- A text without the zeros that it begins with behind a minus sign perhaps. -/
def dropSignedZeros? : List Char → Option (List Char)
  | '-' :: r => (dropZeros? r).map ('-' :: ·)
  | r => dropZeros? r

/-- A text without a plus sign in front; nothing if another sign follows it. -/
def dropPlus? : List Char → Option (List Char)
  | '+' :: '-' :: _ => none
  | '+' :: r => some r
  | r => some r

/-- A text without a point and zeros behind it. -/
def dropZeroPlaces (cs : List Char) : List Char :=
  let places := (cs.dropWhile (· != '.')).drop 1
  if !places.isEmpty && places.all (· == '0') then cs.takeWhile (· != '.') else cs

/-- A text without what a stored numeral may have and a written one has not: white space around it,
a plus sign, leading zeros, a point and zeros behind it, and underscores. -/
def tidied? (cs : List Char) : Option (List Char) := do
  let cs ← dropPlus? (Text.trim Text.isSpace cs)
  let cs := dropZeroPlaces (← dropSignedZeros? cs)
  return (Text.ungroup? cs).getD cs

/-- Reads a stored number: a numeral as it is written, or else one that is tidied first. Only the
former can be too long; a tidied text is either a numeral or none. -/
def readWhole (cs : List Char) : Reading :=
  match readBare cs with
  | .malformed =>
    match (tidied? cs).map readBare with
    | some (.value n) => .value n
    | _ => .malformed
  | other => other

/-! ## Wording -/

/-- What is said about a numeral with too many digits. -/
def tooLongToRead (digits : Nat) : String :=
  s!"Exceeds the limit ({digitLimit} digits) for integer string conversion: value has {digits} " ++
    "digits; use sys.set_int_max_str_digits() to increase the limit"

/-- What is said about an integer with too many digits to be shown. -/
def tooLongToShow : String :=
  s!"Exceeds the limit ({digitLimit} digits) for integer string conversion; " ++
    "use sys.set_int_max_str_digits() to increase the limit"

/-! ## Digits -/

theorem trim_of_digits {cs : List Char} (h : ∀ c ∈ cs, c.isDigit = true) :
    Text.trim Text.isSpace cs = cs := by
  have key : ∀ l : List Char, (∀ c ∈ l, c.isDigit = true) → l.dropWhile Text.isSpace = l := by
    intro l hl
    cases l with
    | nil => rfl
    | cons c r =>
      have := Text.isSpace_eq_false_of_isDigit (hl c (by simp))
      simp [List.dropWhile, this]
  rw [Text.trim, key cs h, key _ (by simpa using h), List.reverse_reverse]

theorem readDigits_of_digits {cs : List Char} (hne : cs ≠ []) (h : ∀ c ∈ cs, c.isDigit = true)
    (hlen : cs.length ≤ digitLimit) : readDigits cs = .value (Nat.ofDigitChars 10 cs 0) := by
  have mark : '_' ∉ cs := fun e => absurd (h '_' e) (by decide)
  have run : ∀ c ∈ cs, (c.isDigit || c == '_') = true := fun c hc => by simp [h c hc]
  have all : cs.takeWhile (fun c => c.isDigit || c == '_') = cs :=
    by simpa using @List.takeWhile_append_of_pos _ _ cs [] run
  have rest : cs.dropWhile (fun c => c.isDigit || c == '_') = [] :=
    by simpa using @List.dropWhile_append_of_pos _ _ cs [] run
  cases cs with
  | nil => exact absurd rfl hne
  | cons c r =>
    simp only [readDigits, all, rest, Text.ungroup?_of_notMem mark, Nat.not_lt.mpr hlen]
    simp

theorem read_of_digits {cs : List Char} (hne : cs ≠ []) (h : ∀ c ∈ cs, c.isDigit = true)
    (hlen : cs.length ≤ digitLimit) : read cs = .value (Nat.ofDigitChars 10 cs 0) := by
  have hmap : cs.map Text.plainDigit = cs := by
    rw [List.map_congr_left fun c hc => Text.plainDigit_of_isDigit (h c hc), List.map_id']
  rw [read, hmap, trim_of_digits h, readSigned.eq_def]
  split
  · exact absurd (h '+' (by simp)) (by decide)
  · exact absurd (h '-' (by simp)) (by decide)
  · exact readDigits_of_digits hne h hlen

end Dicebox.Numeral
