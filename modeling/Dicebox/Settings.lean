import Dicebox.Data.Read
import Dicebox.Expr

/-! # Settings

Each setting has a usual value, which a variable of the environment replaces, and a value that is
given directly replaces both. A variable is named for its setting behind `DICE_`. Values that replace
a usual one are held to the bounds of their setting. How names are compared and values are read is up
to a library. Variables that stand in a file are not looked at.

- `Settings`: the settings.
- `SettingsReader`: a library that gathers and reads them, and `SettingsReader.lenient` one.
- `Settings.read`: the settings from an environment and given values.
- `Settings.limits`: the limits that they put on expressions.
-/

namespace Dicebox

/-- The settings of an engine. -/
structure Settings where
  /-- The most dice in one term. -/
  maxDice : Int := 1000
  /-- The most faces of a die. -/
  maxSides : Int := 1000
  /-- The most extra dice that one die may set off. -/
  explosionCap : Int := 100
  /-- The most times that a repeating reroll throws one die again. -/
  rerollCap : Int := 100
  /-- The seed of the source; without one, the source is the system's entropy. -/
  seed : Option Int := none
  /-- The level that fairness is tested at. -/
  significance : Float := 0.01
  /-- How many milliseconds a batch may take. -/
  batchBudget : Float := 10.0
  /-- The most rolls of one batch. -/
  maxBatchSize : Int := 10000
  /-- The most rolls that a history keeps. -/
  historySize : Int := 1000
  deriving Repr

namespace Settings

def limits (s : Settings) : Limits :=
  { maxDice := s.maxDice, maxSides := s.maxSides, explosionCap := s.explosionCap
    rerollCap := s.rerollCap }

/-! ## Single settings -/

/-- No reason but the values themselves speaks against settings. -/
abbrev Read (α : Type) := Checked Empty α

def bounded (reader : ValueReader) (low : Int) (d : Data) : Read Int :=
  (reader.int d).andThen (atLeast low)

def optionalInt (reader : ValueReader) : Data → Read (Option Int)
  | .null => .good none
  | d => (reader.int d).map some

/-- A number above `low`. What is no number is above nothing. -/
def above (low : Int) (x : Float) : Read Float :=
  if Float.ofInt low < x then .good x else .fail (.notAbove low)

/-- A number below `high`. What is no number is below nothing. -/
def below (high : Int) (x : Float) : Read Float :=
  if x < Float.ofInt high then .good x else .fail (.notBelow high)

/-- A level of significance, strictly between 0 and 1. -/
def level (reader : ValueReader) (d : Data) : Read Float :=
  ((reader.real d).andThen (below 1)).andThen (above 0)

def positive (reader : ValueReader) (d : Data) : Read Float := (reader.real d).andThen (above 0)

/-- The settings in a record of those that are given. -/
def ofData (reader : ValueReader) (d : Data) : Read Settings :=
  let usual : Settings := {}
  Settings.mk
    <$> d.readFieldOr "max_dice" usual.maxDice (bounded reader 1)
    <*> d.readFieldOr "max_sides" usual.maxSides (bounded reader 1)
    <*> d.readFieldOr "explosion_cap" usual.explosionCap (bounded reader 0)
    <*> d.readFieldOr "reroll_cap" usual.rerollCap (bounded reader 1)
    <*> d.readFieldOr "seed" usual.seed (optionalInt reader)
    <*> d.readFieldOr "significance" usual.significance (level reader)
    <*> d.readFieldOr "batch_budget_ms" usual.batchBudget (positive reader)
    <*> d.readFieldOr "max_batch_size" usual.maxBatchSize (bounded reader 1)
    <*> d.readFieldOr "history_size" usual.historySize (bounded reader 1)

/-! ## The environment -/

def lowered (name : String) : String := String.ofList (name.toList.map Char.toLower)

/-- What stands in front of the name of a variable. -/
def variableStart : String := "dice_"

/-- A variable as a setting: its name without what stands in front, in lower case. A variable of
another name is none. -/
def setting? (start name value : String) : Option (String × Data) :=
  let name := (lowered name).toList
  if name.take start.length = start.toList then
    some (String.ofList (name.drop start.length), .text value)
  else none

/-- The record of all that is set: what is given in front of the variables of the environment, and
the last of a name in front of the others. -/
def gathered (start : String) (environment : List (String × String))
    (given : List (String × Data)) : Data :=
  let named := given.map fun (name, value) => (lowered name, value)
  let found := environment.filterMap fun (name, value) => setting? start name value
  .record (named.reverse ++ found.reverse)

end Settings

/-- A library that reads settings: single values, and all that is set by variables of the environment
whose names start in one way, and by what is given. -/
structure SettingsReader where
  values : ValueReader
  gathered : String → List (String × String) → List (String × Data) → Data

/-- The library for which names are in any case, and what is given counts more than a variable. -/
def SettingsReader.lenient : SettingsReader := ⟨.lenient, Settings.gathered⟩

namespace Settings

/-- The record of all that is set. -/
def allSet (reader : SettingsReader) (environment : List (String × String))
    (given : List (String × Data)) : Data := reader.gathered variableStart environment given

/-- The settings from the variables of an environment and from given values. -/
def read (reader : SettingsReader) (environment : List (String × String))
    (given : List (String × Data)) : Read Settings :=
  ofData reader.values (allSet reader environment given)

end Settings

end Dicebox
