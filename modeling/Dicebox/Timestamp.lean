import Dicebox.Decimal.Places
import Dicebox.Decimal.Read

/-! # Points in time

A timestamp is a date and a time of day to the microsecond, with an offset from universal time if one
is known. It is written in the form `2024-01-02T03:04:05.120000+05:30`: a whole second has no
fraction, universal time itself is marked by a `Z`, and an unknown offset by nothing. The written form
of an offset leaves out what exceeds its whole minutes.

- `Timestamp.write`: the written form.
- `Timestamp.read?`: the reader, which also accepts other separators and shorter times.
- `Timestamp.ofSeconds?`: the time so many seconds after the start of 1970.
- `Timestamp.ofCount?`, `Timestamp.ofReal?`: the time that a count of seconds or milliseconds gives.
-/

namespace Dicebox

/-- A date and a time of day, perhaps with an offset in microseconds. -/
structure Timestamp where
  year : Nat
  month : Nat
  day : Nat
  hour : Nat
  minute : Nat
  second : Nat
  microsecond : Nat
  /-- How far local time is ahead of universal time. -/
  offset : Option Int
  deriving DecidableEq, Repr

namespace Timestamp

/-! ## The calendar -/

def isLeap (year : Nat) : Bool := year % 4 = 0 && (year % 100 != 0 || year % 400 = 0)

/-- The number of days of a month; 0 if there is no such month. -/
def daysIn (year month : Nat) : Nat :=
  if month = 2 then if isLeap year then 29 else 28
  else if month ∈ [4, 6, 9, 11] then 30
  else if 1 ≤ month ∧ month ≤ 12 then 31
  else 0

/-- So many hours, minutes and seconds in microseconds. -/
def span (hours minutes seconds : Nat) : Nat := (hours * 3600 + minutes * 60 + seconds) * 1000000

/-- The date, the time and the offset exist, and the year has at most four digits. -/
def valid (t : Timestamp) : Bool :=
  t.year ≤ 9999 && 1 ≤ t.day && t.day ≤ daysIn t.year t.month && t.hour ≤ 23 &&
    t.minute ≤ 59 && t.second ≤ 59 && t.microsecond < 1000000 &&
    t.offset.all fun o => o.natAbs < span 24 0 0

/-- The date so many days after the start of 1970. -/
def dateOfDays (days : Int) : Int × Int × Int :=
  let z := days + 719468
  let era := z.fdiv 146097
  let dayOfEra := z - era * 146097
  let yearOfEra := (dayOfEra - dayOfEra / 1460 + dayOfEra / 36524 - dayOfEra / 146096) / 365
  let dayOfYear := dayOfEra - (365 * yearOfEra + yearOfEra / 4 - yearOfEra / 100)
  let march := (5 * dayOfYear + 2) / 153
  let day := dayOfYear - (153 * march + 2) / 5 + 1
  let month := if march < 10 then march + 3 else march - 9
  let year := yearOfEra + era * 400
  (if month ≤ 2 then year + 1 else year, month, day)

/-! ## Seconds since 1970 -/

/-- The greatest count that is taken for seconds; a greater one counts milliseconds. -/
def lastSecond : Nat := 20000000000

def firstMoment : Int := -62167219200

def lastMoment : Int := 253402300799

/-- The universal time so many seconds after the start of 1970, and microseconds after that, if it is
between the years 0 and 9999. -/
def ofSeconds? (seconds : Int) (microsecond : Nat) : Option Timestamp :=
  if seconds < firstMoment ∨ lastMoment < seconds then none
  else
    let (year, month, day) := dateOfDays (seconds.fdiv 86400)
    let rest := (seconds.fmod 86400).toNat
    some ⟨year.toNat, month.toNat, day.toNat, rest / 3600, rest / 60 % 60, rest % 60, microsecond,
      some 0⟩

/-- The universal time that a count of seconds, or a great one of milliseconds, gives. -/
def ofCount? (count : Int) : Option Timestamp :=
  if count.natAbs ≤ lastSecond then ofSeconds? count 0
  else ofSeconds? (count.fdiv 1000) ((count.fmod 1000).toNat * 1000)

/-- The universal time that a number of seconds, or a great one of milliseconds, gives: its whole
seconds, and what is left of it to the nearest microsecond, a half away from zero. -/
def ofReal? (x : Float) : Option Timestamp := do
  let perSecond := if x.abs ≤ lastSecond.toFloat then 1.0 else 1000.0
  let whole := (x / perSecond).floor
  let seconds ← floor? whole
  let microseconds ← floor? ((x - whole * perSecond) * (1000000.0 / perSecond)).round
  ofSeconds? (seconds + microseconds / 1000000) (microseconds % 1000000).toNat

/-! ## Writing -/

/-- A number in at least so many digits. -/
def digits (width n : Nat) : List Char := zeroFilled width (Nat.toDigits 10 n)

/-- An offset to the nearest second, a half away from zero: a `Z` for none at all, or else its sign,
hours and whole minutes. -/
def writeOffset : Option Int → List Char
  | none => []
  | some o =>
    let seconds := (o.natAbs + span 0 0 1 / 2) / span 0 0 1
    if seconds = 0 then ['Z']
    else (if o < 0 then '-' else '+') :: digits 2 (seconds / 3600) ++
      ':' :: digits 2 (seconds / 60 % 60)

def writeTime (t : Timestamp) : List Char :=
  let fraction := if t.microsecond = 0 then [] else '.' :: digits 6 t.microsecond
  digits 2 t.hour ++ ':' :: digits 2 t.minute ++ ':' :: digits 2 t.second ++ fraction

def write (t : Timestamp) : String :=
  String.ofList (digits 4 t.year ++ '-' :: digits 2 t.month ++ '-' :: digits 2 t.day ++
    'T' :: t.writeTime ++ writeOffset t.offset)

/-! ## Reading -/

/-- A number of exactly so many digits, and what follows it. -/
def number? (width : Nat) (cs : List Char) : Option (Nat × List Char) :=
  let ds := cs.take width
  if ds.length = width ∧ ds.all Char.isDigit then some (Nat.ofDigitChars 10 ds 0, cs.drop width)
  else none

/-- A number of two digits behind a mark, and what follows it. -/
def marked? (mark : Char) : List Char → Option (Nat × List Char)
  | c :: r => if c = mark then number? 2 r else none
  | [] => none

/-- The year, month and day in front of a text, and what follows them. -/
def readDate? (cs : List Char) : Option (Nat × Nat × Nat × List Char) := do
  let (year, cs) ← number? 4 cs
  let (month, cs) ← marked? '-' cs
  let (day, cs) ← marked? '-' cs
  return (year, month, day, cs)

/-- A fraction of a second in microseconds, cut off behind the sixth place, and what follows it. -/
def readFraction? : List Char → Option (Nat × List Char)
  | '.' :: r | ',' :: r =>
    let (ds, rest) := r.span Char.isDigit
    if ds.isEmpty then none
    else
      let places := ds.take 6
      some (Nat.ofDigitChars 10 places 0 * tenTo (6 - places.length), rest)
  | r => some (0, r)

/-- The seconds, if there are any, and what follows them. -/
def readSeconds? (cs : List Char) : Option (Nat × Nat × List Char) :=
  match cs with
  | ':' :: r => do
    let (second, r) ← number? 2 r
    let (microsecond, r) ← readFraction? r
    return (second, microsecond, r)
  | r => some (0, 0, r)

/-- The hours and minutes of an offset, with or without a colon between them. -/
def readHours? (sign : Int) (cs : List Char) : Option (Option Int) := do
  let (hours, cs) ← number? 2 cs
  let (minutes, cs) ← number? 2 (if cs.head? = some ':' then cs.drop 1 else cs)
  if cs.isEmpty ∧ minutes < 60 then return some (sign * span hours minutes 0) else none

def readOffset? : List Char → Option (Option Int)
  | [] => some none
  | ['Z'] | ['z'] => some (some 0)
  | '+' :: r => readHours? 1 r
  | '-' :: r | '−' :: r => readHours? (-1) r
  | _ => none

/-- The marks that may stand between date and time. -/
def separators : List Char := ['T', 't', ' ', '_']

def read? (cs : List Char) : Option Timestamp := do
  let (year, month, day, cs) ← readDate? cs
  let separator ← cs.head?
  let (hour, cs) ← number? 2 (cs.drop 1)
  let (minute, cs) ← marked? ':' cs
  let (second, microsecond, cs) ← readSeconds? cs
  let offset ← readOffset? cs
  let t : Timestamp := ⟨year, month, day, hour, minute, second, microsecond, offset⟩
  if separator ∈ separators ∧ t.valid then some t else none

/-- A date alone, which stands for its midnight. -/
def readMidnight? (cs : List Char) : Option Timestamp := do
  let (year, month, day, cs) ← readDate? cs
  let t : Timestamp := ⟨year, month, day, 0, 0, 0, 0, none⟩
  if cs.isEmpty ∧ t.valid then some t else none

/-- The digits in front of a text, perhaps behind a sign, end at a point. -/
def hasPoint (cs : List Char) : Bool :=
  let unsigned := if cs.head? = some '-' ∨ cs.head? = some '+' then cs.drop 1 else cs
  (unsigned.dropWhile Char.isDigit).head? = some '.'

/-- A count of seconds or milliseconds: an integer, or a number with a point, which alone may have an
exponent. -/
def readCount? (cs : List Char) : Option Timestamp :=
  match readSignedDigits? cs with
  | some count => ofCount? count
  | none => if hasPoint cs then (readReal? cs).bind ofReal? else none

def readAny? (cs : List Char) : Option Timestamp :=
  (read? cs).or ((readCount? cs).or (readMidnight? cs))

end Timestamp

end Dicebox
