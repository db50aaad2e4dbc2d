import Dicebox.Audit
import Dicebox.Data.Read
import Dicebox.Entry

/-! # Stored rolls

A roll is stored as plain data that says everything about it, and is read back with some leniency in
the form of single values but none in what they say: every die has to fit its number of sides, and
the total has to follow from the terms. The same conditions are looked at before a roll is stored.

- `Inconsistency`: what may speak against values that are right in themselves.
- `Entry.dump`: the stored form of a roll.
- `Entry.load`: the roll in a stored form.
-/

namespace Dicebox

/-- Why values that are right in themselves do not go together. -/
inductive Inconsistency where
  /-- A die shows more than its number of sides. -/
  | faceBeyondDie (value sides : Int)
  /-- The terms do not make a total. -/
  | audit (error : AuditError)
  /-- The terms make another total. -/
  | wrongTotal (total recomputed : Int)
  deriving DecidableEq, Repr

namespace Inconsistency

/-- What is said if all these numbers can be shown. -/
def wording (numbers : List Int) (message : String) : String :=
  if numbers.all Numeral.showable then message else Numeral.tooLongToShow

def message : Inconsistency → String
  | faceBeyondDie value sides =>
    wording [value, sides]
      ("Die value " ++ Numeral.text value ++ " exceeds d" ++ Numeral.text sides)
  | audit (.wrongConstant v) => wording [v] (AuditError.wrongConstant v).message
  | audit e => placed e.message e.position?
  | wrongTotal total recomputed =>
    wording [total, recomputed]
      ("Total " ++ Numeral.text total ++ " does not match its terms (recomputed " ++
        Numeral.text recomputed ++ ")")

end Inconsistency

/-- What reading a stored roll, or a part of it, gives. -/
abbrev Stored (α : Type) := Checked Inconsistency α

/-! ## Conditions -/

/-- A die that fits its number of sides. -/
def Die.fitting (d : Die) : Stored Die :=
  if d.value ≤ d.sides then .good d else .fail (.refused (.faceBeyondDie d.value d.sides))

/-- An entry whose total follows from its terms. -/
def Entry.consistent (e : Entry) : Stored Entry :=
  match e.roll.recompute with
  | .error err => .fail (.refused (.audit err))
  | .ok total =>
    if total = e.roll.total then .good e
    else .fail (.refused (.wrongTotal e.roll.total total))

/-! ## Dice -/

namespace Die

def sound (d : Die) : Stored Die :=
  let bounded : Stored Die :=
    (fun value sides term => { d with value, sides, term })
      <$> (atLeast 1 d.value).under "value"
      <*> (atLeast 1 d.sides).under "sides"
      <*> (atLeast 0 d.term).under "term_index"
  bounded.andThen fitting

def toData (d : Die) : Data :=
  .record [("value", .int d.value), ("sides", .int d.sides), ("term_index", .int d.term),
    ("kept", .bool d.kept), ("exploded", .bool d.exploded), ("rerolled", .bool d.rerolled),
    ("from_explosion", .bool d.fromExplosion), ("explosion_capped", .bool d.explosionCapped),
    ("rerolled_from", .list (d.rerolledFrom.map .int))]

def ofFields (reader : ValueReader) (d : Data) : Stored Die :=
  Die.mk
    <$> d.readField "value" (fun v => (reader.int v).andThen (atLeast 1))
    <*> d.readField "sides" (fun v => (reader.int v).andThen (atLeast 1))
    <*> d.readFieldOr "term_index" 0 (fun v => (reader.int v).andThen (atLeast 0))
    <*> d.readFieldOr "kept" true reader.bool
    <*> d.readFieldOr "exploded" false reader.bool
    <*> d.readFieldOr "rerolled" false reader.bool
    <*> d.readFieldOr "from_explosion" false reader.bool
    <*> d.readFieldOr "explosion_capped" false reader.bool
    <*> d.readFieldOr "rerolled_from" [] (Data.readList reader.int)

def ofData (reader : ValueReader) : Data → Stored Die
  | .record fields => (ofFields reader (.record fields)).andThen fitting
  | _ => .fail .notRecord

end Die

/-! ## Terms -/

namespace Scoring

def name : Scoring → String
  | sum => "sum"
  | successCount => "success_count"

def ofData : Data → Stored Scoring
  | .text s =>
    if s = sum.name then .good sum
    else if s = successCount.name then .good successCount
    else .fail .notAmongNames
  | _ => .fail .notAmongNames

end Scoring

namespace DiceResult

/-- Dice within their bounds. A die out of bounds is an issue of its own, not one of the term. -/
def sound (r : DiceResult) : Stored DiceResult :=
  (soundDice r.dice).andThen fun dice =>
    (fun count sides => { r with count, sides, dice })
      <$> (atLeast 1 r.count).under "count"
      <*> (atLeast 1 r.sides).under "sides"
where
  /-- The dice up to the first one out of bounds. -/
  soundDice : List Die → Stored (List Die)
    | [] => .good []
    | d :: ds => d.sound.andThen fun d => (soundDice ds).map (d :: ·)

def toData (r : DiceResult) : Data :=
  .record [("kind", .text "dice"), ("notation", .text r.canonical), ("count", .int r.count),
    ("sides", .int r.sides), ("subtotal", .int r.subtotal), ("scoring", .text r.scoring.name),
    ("dice", .list (r.dice.map Die.toData))]

/-- The dice of a term from the fields of a record. -/
def ofFields (reader : ValueReader) (d : Data) : Stored DiceResult :=
  (fun canonical count sides subtotal scoring dice =>
      ⟨canonical, count, sides, dice, subtotal, scoring⟩)
    <$> d.readField "notation" reader.text
    <*> d.readField "count" (fun v => (reader.int v).andThen (atLeast 1))
    <*> d.readField "sides" (fun v => (reader.int v).andThen (atLeast 1))
    <*> d.readField "subtotal" reader.int
    <*> d.readFieldOr "scoring" .sum Scoring.ofData
    <*> d.readField "dice" (Data.readList (Die.ofData reader))

end DiceResult

namespace TermResult

def sound : TermResult → Stored TermResult
  | constant v => .good (constant v)
  | dice r => r.sound.map dice

def toData : TermResult → Data
  | constant v => .record [("kind", .text "constant"), ("value", .int v)]
  | dice r => r.toData

/-- A term from plain data, which says of which kind it is. -/
def ofData (reader : ValueReader) : Data → Stored TermResult
  | .record fields =>
    let d := Data.record fields
    match d.field? "kind" with
    | none => .fail .untagged
    | some (.text "dice") => ((DiceResult.ofFields reader d).map dice).under "dice"
    | some (.text "constant") => ((d.readField "value" reader.int).map constant).under "constant"
    | some _ => .fail .unknownTag
  | _ => .fail .notTaggable

end TermResult

/-! ## Entries -/

namespace Entry

def soundTerms : List TermResult → Stored (List TermResult)
  | [] => .good []
  | t :: ts => t.sound.andThen fun t => (soundTerms ts).map (t :: ·)

def toData (e : Entry) : Data :=
  .record [("roll_id", .text e.stamp.id), ("expression", .text e.roll.expression),
    ("notation", .text e.roll.canonical), ("total", .int e.roll.total),
    ("timestamp", .text e.stamp.time.write), ("terms", .list (e.roll.terms.map TermResult.toData))]

/-- The stored form of an entry, if it may be stored. -/
def dump (e : Entry) : Stored Data :=
  (soundTerms e.roll.terms).andThen fun _ => e.consistent.map toData

def ofFields (reader : ValueReader) (d : Data) : Stored Entry :=
  (fun id expression canonical total time terms =>
      ⟨⟨id, time⟩, ⟨expression, canonical, total, terms⟩⟩)
    <$> d.readField "roll_id" reader.text
    <*> d.readField "expression" reader.text
    <*> d.readField "notation" reader.text
    <*> d.readField "total" reader.int
    <*> d.readField "timestamp" reader.time
    <*> d.readField "terms" (Data.readList (TermResult.ofData reader))

def load (reader : ValueReader) : Data → Stored Entry
  | .record fields => (ofFields reader (.record fields)).andThen consistent
  | _ => .fail .notRecord

end Entry

end Dicebox
