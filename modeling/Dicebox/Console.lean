import Dicebox.Engine
import Dicebox.Stored

/-! # The console

What a command has to say is a list of items: lines and tables in which marks between square brackets
set the style, pointers into an expression, in which nothing is a mark, and plain data. An item says
what is shown; how wide a table is drawn is left to whoever draws it.

- `Table`, `Item`: what is shown.
- `dieMarkup`: one die, with marks for its state.
- `showRoll`, `showBatch`, `showCheck`, `showReport`, `showSummary`: results as items.
-/

namespace Dicebox.Console

/-- A table; one without `showHeaders` has its headers for the reader of the data alone. -/
structure Table where
  title : Option String := none
  headers : List String
  showHeaders : Bool := true
  rows : List (List String)
  deriving DecidableEq, Repr

/-- Something that is shown. -/
inductive Item where
  /-- A line with marks. -/
  | line (text : String)
  /-- A pointer into an expression, without marks. -/
  | pointer (text : String)
  | table (table : Table)
  /-- A table in a frame with a title. -/
  | panel (title : String) (content : Table)
  | data (value : Data)

/-- Why an item cannot be shown. -/
inductive Unshowable where
  /-- An integer with too many digits. -/
  | tooLong
  | arithmetic (fault : ArithmeticFault)
  deriving DecidableEq, Repr

/-- The items that are shown, and what kept further ones from it. -/
structure Shown where
  items : List Item
  fault : Option Unshowable := none

/-! ## Marks -/

def styled (style text : String) : String := "[" ++ style ++ "]" ++ text ++ "[/" ++ style ++ "]"

def errorLine (message : String) : Item := .line (styled "bold red" "Error:" ++ " " ++ message)

/-- Something of minor interest. -/
def infoLine (message : String) : Item := .line (styled "dim" message)

/-! ## Rolls -/

/-- A die: an exclamation mark if it exploded, an `r` if it was rerolled, struck through if it does
not count, or else bright if it shows its highest face, and red for a 1. -/
def dieMarkup (d : Die) : String :=
  let text := Numeral.text d.value ++ (if d.exploded then "!" else "") ++
    (if d.rerolled then "r" else "")
  if !d.kept then styled "dim strike" text
  else if d.isHighest then styled "bold green" text
  else if d.isLowest then styled "red" text
  else text

def diceMarkup (ds : List Die) : String := ", ".intercalate (ds.map dieMarkup)

def termMarkup (r : DiceResult) : String :=
  let label := match r.scoring with
    | .sum => "subtotal"
    | .successCount => "successes"
  "[" ++ diceMarkup r.dice ++ "] → " ++ label ++ " " ++ styled "bold" (Numeral.text r.subtotal)

def termRow : TermResult → List String
  | .dice r => [r.canonical, termMarkup r]
  | .constant v => [Numeral.text v, styled "dim" "constant"]

/-- A roll: its terms as a table, and its total. -/
def showRoll (r : Roll) : Shown :=
  let table : Item := .table ⟨none, ["Term", "Dice"], true, r.terms.map termRow⟩
  if Numeral.showable r.total then
    let total := styled "bold cyan" (Numeral.text r.total)
    ⟨[table, .line ("  " ++ r.canonical ++ " = " ++ total)], none⟩
  else ⟨[table], some .tooLong⟩

/-- A roll of a batch as a row, behind its number. -/
def rollRow (number : Nat) (r : Roll) : List String :=
  let dice := " | ".intercalate (r.diceTerms.map fun t => diceMarkup t.dice)
  [toString number, if dice.isEmpty then styled "dim" "-" else dice, Numeral.text r.total]

/-- The least, the greatest and the mean of the totals of a batch. -/
def batchLine (totals : List Int) (mean : Float) : Item :=
  infoLine ("min " ++ Numeral.text (totals.min?.getD 0) ++ "  max " ++
    Numeral.text (totals.max?.getD 0) ++ "  mean " ++ places 2 mean)

/-- A batch: its rolls as a table, and what their totals are like. -/
def showBatch : List Roll → Shown
  | [] => ⟨[infoLine "No rolls made."], none⟩
  | r :: rs =>
    let rolls := r :: rs
    let totals := rolls.map (·.total)
    if totals.all Numeral.showable then
      let rows := rolls.zipIdx.map fun (r, i) => rollRow (i + 1) r
      let title := toString rolls.length ++ " × " ++ r.canonical
      let table : Item := .table ⟨some title, ["#", "Dice", "Total"], true, rows⟩
      match divided (sumOf totals) totals.length with
      | .ok mean => ⟨[table, batchLine totals mean], none⟩
      | .error f => ⟨[table], some (.arithmetic f)⟩
    else ⟨[], some .tooLong⟩

/-! ## Checks and statistics -/

/-- What is wrong with an expression, and where. -/
def showRefusal (text message : String) (position : Option Int) : List Item :=
  [errorLine message, .pointer (pointer text position)]

def showCheck (c : Check) : List Item :=
  match c.verdict with
  | .ok canonical => [.line (styled "bold green" ("Valid: " ++ canonical))]
  | .error e => showRefusal c.expression e.message e.position?

def showReport (r : Report) : List Item :=
  let verdict := if r.passed then styled "bold green" "PASSED" else styled "bold red" "FAILED"
  let expected := match r.expected with
    | .ok x => places 1 x
    | .error _ => ""
  let rows := [
    ["Die", "d" ++ Numeral.text r.sides],
    ["Samples", grouped r.sampleSize],
    ["Expected per face", expected],
    ["Chi-square", places 3 r.statistic],
    ["Degrees of freedom", Numeral.text r.degrees],
    ["p-value", places 5 r.pValue],
    ["Significance", Shortest.text r.significance]]
  [.panel ("Fairness " ++ verdict) ⟨none, ["Key", "Value"], false, rows⟩]

def showSummary (s : Summary) : List Item :=
  let headers := ["Iterations", "Mean", "Median", "Min", "Max", "Std dev"]
  let row := [grouped s.iterations, places 2 s.mean, s.median.shown, Numeral.text s.minimum,
    Numeral.text s.maximum, places 2 s.deviation]
  [.table ⟨some s.expression, headers, true, [row]⟩]

end Dicebox.Console
