import Dicebox.Console
import Dicebox.Console.Arguments
import Dicebox.Source.Kinds

/-! # Commands

A command rolls an expression once or several times, checks it, tests a source, or summarizes the
totals of an expression. A command that cannot be understood is refused without a word. A command
that fails because of its expression says so and points to the place; one that fails because of
another argument says so; any other failure escapes. There is no help text, and no option that shows
the log.

- `Command`, `Command.read?`: the commands and how they are given.
- `Surroundings`: what a command finds outside.
- `run`: what a command shows and how it ends.
-/

namespace Dicebox.Console

/-! ## Commands and their arguments -/

/-- A command. -/
inductive Command where
  | roll (expression : String) (seed : Option Int) (asData : Bool)
  | batch (expression : String) (count : Int) (seed : Option Int) (asData : Bool)
  | check (expression : String)
  | fairness (sides samples : Int) (seed : Option Int) (significance : Option Float)
  | analyze (expression : String) (iterations : Int) (seed : Option Int)

namespace Command

def seedFlag : Flag := { name := "seed", letter := some 's' }

/-- The result as plain data. -/
def dataFlag : Flag := { name := "json", takesValue := false }

def readRoll? (reader : ArgumentReader) (args : List String) : Option Command := do
  let a ← reader.read? [seedFlag, dataFlag] args
  return roll (← a.onlyWord?) (← a.int? reader "seed") (a.isSet "json")

/-- The arguments of a batch, which has ten rolls unless it says otherwise. -/
def readBatch? (reader : ArgumentReader) (args : List String) : Option Command := do
  let a ← reader.read? [{ name := "count", letter := some 'n' }, seedFlag, dataFlag] args
  let count := (← a.int? reader "count").getD 10
  return batch (← a.onlyWord?) count (← a.int? reader "seed") (a.isSet "json")

def readCheck? (reader : ArgumentReader) (args : List String) : Option Command := do
  let a ← reader.read? [] args
  return check (← a.onlyWord?)

/-- The arguments of a fairness test, by default of 100000 throws of a twenty-sided die. -/
def readFairness? (reader : ArgumentReader) (args : List String) : Option Command := do
  let flags := [{ name := "sides" }, { name := "samples" }, seedFlag, { name := "significance" }]
  let a ← reader.read? flags args
  let sides := (← a.int? reader "sides").getD 20
  let samples := (← a.int? reader "samples").getD 100000
  let seed ← a.int? reader "seed"
  let significance ← a.real? reader "significance"
  if a.words.isEmpty then some (fairness sides samples seed significance) else none

/-- The arguments of a summary, by default of 1000 rolls. -/
def readAnalyze? (reader : ArgumentReader) (args : List String) : Option Command := do
  let a ← reader.read? [{ name := "iterations", letter := some 'i' }, seedFlag] args
  let iterations := (← a.int? reader "iterations").getD 1000
  return analyze (← a.onlyWord?) iterations (← a.int? reader "seed")

/-- The command of this name with these arguments. -/
def named? (reader : ArgumentReader) (name : String) (args : List String) : Option Command :=
  if name = "roll" then readRoll? reader args
  else if name = "batch" then readBatch? reader args
  else if name = "check" then readCheck? reader args
  else if name = "fairness" then readFairness? reader args
  else if name = "analyze" then readAnalyze? reader args
  else none

/-- The command that a command line gives. -/
def read? (reader : ArgumentReader) (args : List String) : Option Command := do
  let (name, args) ← reader.command? args
  named? reader name args

end Command

/-! ## How a command ends -/

/-- What a command finds outside. -/
structure Surroundings where
  /-- The variables of the environment. -/
  environment : List (String × String)
  /-- Words of entropy. -/
  entropy : Entropy
  /-- The stamps of the rolls that are made. -/
  stamps : Nat → Stamp
  argumentReader : ArgumentReader := .usual
  settingsReader : SettingsReader := .lenient
  /-- What is said about settings that are out of order, as they were set. -/
  wording : Data → List (Issue Empty) → String

/-- A failure that a command does not speak about. -/
inductive Failure where
  | settings (issues : List (Issue Empty))
  | engine (error : EngineError)
  | stored (issues : List (Issue Inconsistency))
  | unshowable (fault : Unshowable)

/-- What a command has shown, its exit status, and a failure that escaped it. -/
structure Ending where
  items : List Item
  status : Nat
  escaped : Option Failure := none

namespace Ending

/-- All is shown. -/
def good (items : List Item) : Ending := ⟨items, 0, none⟩

/-- The command cannot be understood. -/
def misused : Ending := ⟨[], 2, none⟩

/-- An error has been shown. -/
def failed (items : List Item) : Ending := ⟨items, 1, none⟩

def escape (items : List Item) (failure : Failure) : Ending := ⟨items, 1, some failure⟩

/-- What is shown, as far as it can be. -/
def ofShown (shown : Shown) : Ending :=
  match shown.fault with
  | none => good shown.items
  | some fault => escape shown.items (.unshowable fault)

end Ending

/-! ## Failures -/

/-- What can be said about a failure: something about the expression, or something else. -/
inductive Complaint where
  | expression (message : String) (position : Option Int)
  | other (message : String)

def rollComplaint? (e : RollError) : Option Complaint :=
  match e with
  | .divisionByZero .. | .source (.valuesRanOut _) _ => some (.expression e.message e.position?)
  | .outOfContract .. =>
    some (if e.showable then .expression e.message e.position? else .other e.message)
  | .source (.emptyRange ..) _ | .source (.rangeTooWide ..) _ => some (.other e.message)
  | .source .. => none

/-- What can be said about a failed fairness test. -/
def fairnessComplaint? (e : FairnessError) : Option Complaint :=
  match e with
  | .source fault sides => rollComplaint? (.source fault sides)
  | e => e.message?.map .other

def complaint? : EngineError → Option Complaint
  | .unreadable e =>
    some (if e.position?.isSome then .expression e.message e.position? else .other e.message)
  | .roll e | .summary (.roll e) => rollComplaint? e
  | .fairness e => fairnessComplaint? e
  | e => e.message?.map .other

/-- How a command ends that fails only because of its expression with a word. -/
def endRoll (text : String) (e : EngineError) : Ending :=
  match complaint? e with
  | some (.expression message position) => .failed (showRefusal text message position)
  | _ => .escape [] (.engine e)

/-- How a command ends that also speaks about its other arguments. -/
def endSeries (text : String) (e : EngineError) : Ending :=
  match complaint? e with
  | some (.expression message position) => .failed (showRefusal text message position)
  | some (.other message) => .failed [errorLine message]
  | none => .escape [] (.engine e)

/-- How a command without an expression ends. -/
def endTest (e : EngineError) : Ending :=
  match complaint? e with
  | some (.expression message position) => .failed [errorLine (placed message position)]
  | some (.other message) => .failed [errorLine message]
  | none => .escape [] (.engine e)

/-! ## Running -/

def Surroundings.settings (s : Surroundings) : Settings.Read Settings :=
  Settings.read s.settingsReader s.environment []

/-- What is said about settings that are out of order. -/
def Surroundings.settingsMessage (s : Surroundings) (issues : List (Issue Empty)) : String :=
  s.wording (Settings.allSet s.settingsReader s.environment []) issues

/-- The engine of a command: the settings of the environment, a source of another seed if one is
given, and a history that nobody asks for. -/
def engineFor (s : Surroundings) (settings : Settings) (seed : Option Int) : Engine Source :=
  { settings, source := .forSeed (seed.or settings.seed) s.entropy
    history := .empty 1 Nat.one_pos, stamps := s.stamps }

/-- A session as a command, if the settings are in order. -/
def serve {α : Type} (s : Surroundings) (seed : Option Int) (session : Session Source α)
    (unset : List (Issue Empty) → Ending) (failed : EngineError → Ending) (done : α → Ending) :
    Ending :=
  match s.settings with
  | .bad issues => unset issues
  | .good settings =>
    match (session (engineFor s settings seed)).result with
    | .ok a => done a
    | .error e => failed e

/-- Settings out of order escape. -/
def unsetEscapes (issues : List (Issue Empty)) : Ending := .escape [] (.settings issues)

/-- Settings out of order are an error like any other one. -/
def unsetFails (s : Surroundings) (issues : List (Issue Empty)) : Ending :=
  .failed [errorLine (s.settingsMessage issues)]

/-- Rolls as plain data, or why one of them cannot be stored. -/
def dumpAll : List Entry → Stored (List Data)
  | [] => .good []
  | e :: es => e.dump.andThen fun d => (dumpAll es).map (d :: ·)

def endingOfRoll (asData : Bool) (e : Entry) : Ending :=
  if asData then
    match e.dump with
    | .good d => .good [.data d]
    | .bad issues => .escape [] (.stored issues)
  else .ofShown (showRoll e.roll)

def endingOfBatch (asData : Bool) (es : List Entry) : Ending :=
  if asData then
    match dumpAll es with
    | .good ds => .good [.data (.list ds)]
    | .bad issues => .escape [] (.stored issues)
  else .ofShown (showBatch (es.map (·.roll)))

def endingOfCheck (c : Check) : Ending :=
  ⟨showCheck c, if c.verdict.isOk then 0 else 1, none⟩

def endingOfReport (r : Report) : Ending := ⟨showReport r, if r.passed then 0 else 2, none⟩

/-- What a command shows and how it ends. -/
def run (s : Surroundings) : Command → Ending
  | .roll text seed asData =>
    serve s seed (Session.roll text) unsetEscapes (endRoll text) (endingOfRoll asData)
  | .batch text count seed asData =>
    serve s seed (Session.rollBatch text count Session.never) (unsetFails s) (endSeries text)
      (endingOfBatch asData)
  | .check text =>
    serve s none (Session.check text) unsetEscapes (fun e => .escape [] (.engine e)) endingOfCheck
  | .fairness sides samples seed significance =>
    serve s seed (Session.fairness sides samples (significance.map .real)) unsetEscapes endTest
      endingOfReport
  | .analyze text iterations seed =>
    serve s seed (Session.analyze text iterations) (unsetFails s) (endSeries text)
      fun summary => .good (showSummary summary)

/-- What a command line shows and how it ends. -/
def runLine (s : Surroundings) (args : List String) : Ending :=
  match Command.read? s.argumentReader args with
  | some command => run s command
  | none => .misused

end Dicebox.Console
