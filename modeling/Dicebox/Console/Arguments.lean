import Dicebox.Decimal.Read
import Dicebox.Text.Numeral

/-! # Command line arguments

The arguments of a command are words for itself and options, in any order. An option has a long name
behind two dashes, and may have a letter behind one. An option with a value takes the rest of its
word, behind an equals sign for a long name, or else the next word, whatever that looks like. Two
dashes alone end the options.

- `Flag`: the options a command knows.
- `Arguments.read?`: the words and options of a command.
- `ArgumentReader`: a library that reads arguments, and `ArgumentReader.usual` this one.
- `Arguments.int?`, `Arguments.real?`, `Arguments.isSet`: the options by name.
-/

namespace Dicebox.Console

/-- An option that a command knows. -/
structure Flag where
  name : String
  letter : Option Char := none
  takesValue : Bool := true
  deriving DecidableEq, Repr

/-- The words of a command, and its options with their values, the last one first. -/
structure Arguments where
  words : List String
  options : List (String × String)
  deriving DecidableEq, Repr

namespace Arguments

def withOption (name value : String) (a : Arguments) : Arguments :=
  { a with options := (name, value) :: a.options }

def withWord (word : String) (a : Arguments) : Arguments := { a with words := word :: a.words }

/-- What one word that begins with a dash means: options that are complete, and perhaps one that
takes its value from the next word. -/
structure Dashed where
  complete : List (String × String)
  open? : Option String := none

/-- The option that a long name, with what may stand behind an equals sign, sets. -/
def longOption? (flags : List Flag) (cs : List Char) : Option Dashed := do
  let (name, rest) := cs.span (· != '=')
  let flag ← flags.find? fun f => f.name = String.ofList name
  match flag.takesValue, rest with
  | true, [] => some ⟨[], some flag.name⟩
  | true, _ :: value => some ⟨[(flag.name, String.ofList value)], none⟩
  | false, [] => some ⟨[(flag.name, "")], none⟩
  | false, _ => none

/-- The options that letters set, the last of which may take the rest of them as its value. -/
def letterOptions? (flags : List Flag) : List Char → Option Dashed
  | [] => some ⟨[], none⟩
  | c :: rest => do
    let flag ← flags.find? fun f => f.letter = some c
    if flag.takesValue then
      if rest.isEmpty then some ⟨[], some flag.name⟩
      else some ⟨[(flag.name, String.ofList rest)], none⟩
    else
      let more ← letterOptions? flags rest
      some { more with complete := (flag.name, "") :: more.complete }

/-- What a word means if it begins with a dash and is no dash alone; nothing is known of another. -/
def dashed? (flags : List Flag) : List Char → Option (Option Dashed)
  | '-' :: '-' :: name => some (longOption? flags name)
  | '-' :: c :: rest => some (letterOptions? flags (c :: rest))
  | _ => none

def withAll (options : List (String × String)) (a : Arguments) : Arguments :=
  { a with options := options.reverse ++ a.options }

/-- Reads arguments behind those that have been read; the words run backwards. -/
def readFrom? (flags : List Flag) : List String → Arguments → Option Arguments
  | [], a => some a
  | word :: rest, a =>
    if word = "--" then some { a with words := rest.reverse ++ a.words }
    else
      match dashed? flags word.toList with
      | none => readFrom? flags rest (a.withWord word)
      | some none => none
      | some (some d) =>
        match d.open?, rest with
        | none, rest => readFrom? flags rest (a.withAll d.complete)
        | some _, [] => none
        | some name, value :: rest =>
          readFrom? flags rest ((a.withAll d.complete).withOption name value)

/-- The words and options among arguments; nothing if they hold an unknown option, an option without
its value or a value without its option. -/
def read? (flags : List Flag) (args : List String) : Option Arguments :=
  (readFrom? flags args ⟨[], []⟩).map fun a => { a with words := a.words.reverse }

end Arguments

/-- A library that reads a command line: the name of a command in front of its arguments, these for a
command that knows some options, and the values of options as numbers. -/
structure ArgumentReader where
  command? : List String → Option (String × List String)
  read? : List Flag → List String → Option Arguments
  int? : String → Option Int
  real? : String → Option Float

def wholeOf? (s : String) : Option Int :=
  match Numeral.readWhole s.toList with
  | .value n => some n
  | .tooLong _ | .malformed => none

/-- A command's name and arguments, behind two dashes perhaps. -/
def splitCommand? : List String → Option (String × List String)
  | "--" :: name :: args | name :: args => some (name, args)
  | [] => none

/-- The library that reads command lines in this way. -/
def ArgumentReader.usual : ArgumentReader where
  command? := splitCommand?
  read? := Arguments.read?
  int? := wholeOf?
  real? s := readStored? s.toList

/-! ## Options by name -/

namespace Arguments

/-- An integer behind an option, if it is there; nothing if it is no integer. -/
def int? (reader : ArgumentReader) (a : Arguments) (name : String) : Option (Option Int) :=
  match a.options.lookup name with
  | none => some none
  | some s => (reader.int? s).map some

/-- A number behind an option, if it is there; nothing if it is no number. -/
def real? (reader : ArgumentReader) (a : Arguments) (name : String) : Option (Option Float) :=
  match a.options.lookup name with
  | none => some none
  | some s => (reader.real? s).map some

def isSet (a : Arguments) (name : String) : Bool := (a.options.lookup name).isSome

def onlyWord? (a : Arguments) : Option String :=
  match a.words with
  | [word] => some word
  | _ => none

end Arguments

end Dicebox.Console
