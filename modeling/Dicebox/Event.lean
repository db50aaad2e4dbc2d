import Dicebox.Decimal.Places
import Dicebox.Expr.Shown

/-! # Events

What happens on the way to a result and is worth telling, without changing the result. Each event has
a level, and a log that is kept at one level leaves out what lies below it. Three things are not
told: an audit's own reading of a notation, the seed of a source that is chosen, and that a batch has
taken longer than it should, since there is no clock.

- `Event`: the events, with `Event.level`.
- `Event.reading?`: the text and the tree of an event that tells of a reading.
- `Event.line`: an event as a line of the log.
-/

namespace Dicebox

/-- Something worth telling. -/
inductive Event where
  /-- A text has been read as a tree. -/
  | read (text : String) (tree : Expr)
  /-- The expression with this canonical notation has come to a total. -/
  | evaluated (canonical : String) (total : Int)
  /-- A source has been tested with so many throws of one die. -/
  | tested (sides samples : Int) (statistic pValue : Float) (passed : Bool)
  /-- A die still showed a value to reroll after `cap` throws. -/
  | rerollCapReached (cap sides : Int)
  /-- A die set off `cap` extra dice and would have set off another one. -/
  | explosionCapReached (cap sides : Int)
  /-- A batch was stopped after `made` of `asked` rolls. -/
  | batchCancelled (expression : String) (made asked : Nat)
  /-- A source did not look uniform. -/
  | unfair (sides : Int) (statistic pValue : Float)

namespace Event

/-- How much an event matters. -/
inductive Level where
  | debug
  | info
  | warning
  deriving DecidableEq, Repr

def Level.name : Level → String
  | debug => "DEBUG"
  | info => "INFO"
  | warning => "WARNING"

def level : Event → Level
  | read .. | evaluated .. | tested .. => .debug
  | rerollCapReached .. | explosionCapReached .. | batchCancelled .. => .info
  | unfair .. => .warning

/-- The text that an event tells to have been read, and the tree. -/
def reading? : Event → Option (String × Expr)
  | read text tree => some (text, tree)
  | _ => none

def text : Event → String
  | read text tree => "Parsed " ++ Text.quote text ++ " into " ++ tree.shown
  | evaluated canonical total => "Evaluated " ++ canonical ++ " = " ++ Numeral.text total
  | tested sides samples statistic pValue passed =>
    s!"d{sides} fairness over {samples} draws: chi2=" ++ places 3 statistic ++
      " p=" ++ places 4 pValue ++ " passed=" ++ if passed then "True" else "False"
  | rerollCapReached cap sides => s!"Reroll cap of {cap} reached on a d{sides}"
  | explosionCapReached cap sides => s!"Explosion cap of {cap} reached on a d{sides}"
  | batchCancelled expression made asked =>
    "Batch of " ++ Text.quote expression ++ s!" cancelled after {made} of {asked} rolls"
  | unfair sides statistic pValue =>
    s!"Random source failed d{sides} fairness check (chi2=" ++ places 2 statistic ++
      ", p=" ++ places 5 pValue ++ ")"

/-- An event in the log, with its level in front. -/
def line (e : Event) : String := e.level.name ++ " " ++ e.text

end Event

end Dicebox
