import Dicebox.Console.Command
import Dicebox.Data.Json
import Std.Time.DateTime.Timestamp

/-! # The command line

The outermost layer of the program: it collects the surroundings of a command, runs it, prints what
it shows and ends with its status. A command that needs more entropy than was read ahead starts
again with more of it; nothing has been shown by then.
-/

namespace Dicebox.CommandLine

open Console

/-! ## Drawing -/

/-- The styles that marks name. -/
def styles : List String :=
  ["bold red", "bold green", "bold cyan", "dim strike", "bold", "red", "dim"]

def unmarked (s : String) : String :=
  styles.foldl (fun s style => (s.replace ("[" ++ style ++ "]") "").replace ("[/" ++ style ++ "]") "")
    s

/-- A row with its cells filled up to the widths of their columns. -/
def drawRow (widths : List Nat) (row : List String) : String :=
  let cell (pair : String × Nat) :=
    pair.1 ++ String.ofList (List.replicate (pair.2 - pair.1.length) ' ')
  "  " ++ "  ".intercalate ((row.zip widths).map cell)

def drawTable (t : Table) : List String :=
  let rows := ((if t.showHeaders then [t.headers] else []) ++ t.rows).map (·.map unmarked)
  let widths := (List.range t.headers.length).map fun i =>
    (rows.map fun row => (row.getD i "").length).foldl max 0
  t.title.toList ++ rows.map (drawRow widths)

def draw : Item → List String
  | .line text => [unmarked text]
  | .pointer text => [text]
  | .table t => drawTable t
  | .panel title content => unmarked title :: drawTable content
  | .data value => [value.json]

/-- What is printed about a failure that no command speaks about. -/
def failureLine (s : Surroundings) : Failure → String
  | .settings issues => s.settingsMessage issues
  | .engine _ => "The roll cannot be made"
  | .stored _ => "The roll cannot be stored"
  | .unshowable _ => "The result is too large to be shown"

/-- The command failed because the entropy that was read ahead ran out. -/
def needsEntropy : Failure → Bool
  | .engine (.roll (.source .entropyRanOut _)) => true
  | .engine (.fairness (.source .entropyRanOut _)) => true
  | .engine (.summary (.roll (.source .entropyRanOut _))) => true
  | _ => false

/-! ## Surroundings -/

/-- The bytes as words, four bytes to each. -/
def wordsOfBytes : List UInt8 → List UInt32
  | a :: b :: c :: d :: rest =>
    (a.toUInt32 <<< 24 ||| b.toUInt32 <<< 16 ||| c.toUInt32 <<< 8 ||| d.toUInt32) ::
      wordsOfBytes rest
  | _ => []

/-- So many words of the system's entropy. -/
def readEntropy (words : Nat) : IO Entropy := do
  let bytes ← IO.getRandomBytes (4 * words).toUSize
  return ⟨wordsOfBytes bytes.toList⟩

def settingNames : List String :=
  ["max_dice", "max_sides", "explosion_cap", "reroll_cap", "seed", "significance",
    "batch_budget_ms", "max_batch_size", "history_size"]

/-- The variables that are set, in lower and in upper case. -/
def readVariables : IO (List (String × String)) := do
  let mut found := []
  for setting in settingNames do
    let name := Settings.variableStart ++ setting
    for name in [name, name.toUpper] do
      if let some value ← IO.getEnv name then found := (name, value) :: found
  return found.reverse

/-- Stamps of this moment, each with another name. -/
def readStamps : IO (Nat → Stamp) := do
  let now ← Std.Time.Timestamp.now
  let bytes ← IO.getRandomBytes 16
  let base := bytes.toList.foldl (fun n b => n * 256 + b.toNat) 0
  let microseconds := now.toNanosecondsSinceUnixEpoch.val / 1000
  let time := (Timestamp.ofSeconds? (microseconds / 1000000) (microseconds % 1000000).toNat).getD
    ⟨1970, 1, 1, 0, 0, 0, 0, some 0⟩
  return fun n => ⟨String.ofList (Text.hex 32 ((base + n) % twoTo 128)), time⟩

/-! ## The program -/

/-- The settings that are out of order. -/
def nameSettings (_ : Data) (issues : List (Issue Empty)) : String :=
  "Settings out of order: " ++ ", ".intercalate (issues.map fun i => ".".intercalate i.path)

/-- Runs a command with so many words of entropy, or with more if they do not suffice. -/
partial def runWith (words : Nat) (s : Surroundings) (args : List String) : IO Ending := do
  let entropy ← readEntropy words
  let ending := runLine { s with entropy } args
  if ending.escaped.any needsEntropy then runWith (4 * words) s args else return ending

def usage : String := "Usage: dice roll|batch|check|fairness|analyze [OPTIONS] [EXPRESSION]"

/-- Runs the command that the arguments give, and prints what it shows. -/
def program (args : List String) : IO UInt32 := do
  let s : Surroundings :=
    { environment := ← readVariables, entropy := ⟨[]⟩, stamps := ← readStamps
      wording := nameSettings }
  let ending ← runWith 4096 s args
  for item in ending.items do
    for line in draw item do IO.println line
  if ending.status = 2 ∧ ending.items.isEmpty then IO.eprintln usage
  if let some failure := ending.escaped then IO.eprintln (failureLine s failure)
  return ending.status.toUInt32

end Dicebox.CommandLine

def main (args : List String) : IO UInt32 := Dicebox.CommandLine.program args
