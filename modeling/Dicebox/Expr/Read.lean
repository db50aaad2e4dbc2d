import Dicebox.Expr.Write
import Dicebox.Token.Scan

/-! # Reading dice expressions

An expression is read from its tokens in one pass, looking one token ahead:

* a sum is products joined by `+` and `-`, a product is factors joined by `*` and `/`, both grouped
  to the left;
* a factor is a number, a dice term, a shorthand, a sum in brackets, or a negated factor;
* a dice term is an optional count, a `d`, the number of sides and any number of modifiers.

Negations and brackets may nest `nestingLimit - 1` deep. That depth is a budget handed down from
factor to factor, so it is also what the reader recurses on; the loops along a sum, a product or a
list of modifiers spend one unit of the number of tokens left for each round.

- `Expr.ofTokens`: the expression that a list of tokens spells.
- `Expr.parse`: the expression that a text spells.
-/

namespace Dicebox

/-- A part of an expression: what was read, the offset just past it, and the tokens left. -/
structure Piece (α : Type) where
  value : α
  stop : Int
  rest : List Token

namespace Read

/-- The offset of the next token, or of the end of the text at `fin`. -/
def here (fin : Int) : List Token → Int
  | [] => fin
  | t :: _ => t.position

/-- The refusal of the next token. -/
def unexpected (fin : Int) (expected : Expected) : List Token → NotationError
  | [] => .fault (.unexpectedEnd expected) fin
  | t :: _ => .fault (.unexpectedToken t.text expected) t.position

/-! ## Numbers -/

def number (t : Token) : Except NotationError Int :=
  match Numeral.read t.text with
  | .value n => .ok n
  | .tooLong digits => .error (.numberTooLong digits)
  | .malformed => .error (.noNumeral t.text)

/-- The number that a token spells, which has to be a face of its die. -/
def face (use : FaceUse) (sides : Int) (t : Token) : Except NotationError Int := do
  let n ← number t
  if 1 ≤ n ∧ n ≤ sides then return n
  else throw (.fault (.noFace use sides n) t.position)

def faces (fin : Int) (sides : Int) : List Token → Except NotationError (Piece (List Int))
  | [] => throw (unexpected fin .rerollValue [])
  | t :: ts =>
    if t.kind = .integer then do
      let v ← face .reroll sides t
      match ts with
      | [] => return ⟨[v], t.stop, []⟩
      | c :: ts =>
        if c.kind = .comma then do
          let more ← faces fin sides ts
          return { more with value := v :: more.value }
        else return ⟨[v], t.stop, c :: ts⟩
    else throw (unexpected fin .rerollValue (t :: ts))

/-- Adds a face to a list of faces in ascending order, unless it is there. -/
def insertFace (v : Int) : List Int → List Int
  | [] => [v]
  | w :: ws => if v < w then v :: w :: ws else if v = w then w :: ws else w :: insertFace v ws

/-- The faces in ascending order, each once. -/
def ascending (vs : List Int) : List Int := vs.foldr insertFace []

/-! ## Modifiers -/

/-- A number that may stand behind a modifier's keyword, and is `absent` if it does not. -/
def optional (read : Token → Except NotationError Int) (absent : Int) (keyword : Token)
    (ts : List Token) : Except NotationError (Piece Int) :=
  match ts with
  | t :: rest =>
    if t.kind = .integer then do
      let n ← read t
      return ⟨n, t.stop, rest⟩
    else return ⟨absent, keyword.stop, ts⟩
  | [] => return ⟨absent, keyword.stop, ts⟩

/-- How many dice a selection takes: at least one. -/
def selected (keyword : Token) (t : Token) : Except NotationError Int := do
  let n ← number t
  if n < 1 then throw (.fault (.emptySelection keyword.text) t.position)
  else return n

/-- The threshold of a count of successes or failures. -/
def threshold (fin : Int) (sides : Int) (ts : List Token) : Except NotationError (Piece Int) :=
  match ts with
  | t :: rest =>
    if t.kind = .integer then do
      let n ← face .score sides t
      return ⟨n, t.stop, rest⟩
    else throw (unexpected fin .threshold ts)
  | [] => throw (unexpected fin .threshold ts)

/-- The rest of a reroll modifier. One that repeats has to leave a face to settle on. -/
def reroll (limits : Limits) (fin : Int) (sides : Int) (keyword : Token) (once : Bool)
    (ts : List Token) : Except NotationError (Piece Modifier) := do
  let piece ← faces fin sides ts
  let values := ascending piece.value
  if !once ∧ sides ≤ values.length then
    throw (.fault (.rerollsEveryFace sides) keyword.position)
  else return ⟨.reroll values once limits.rerollCap, piece.stop, piece.rest⟩

/-- The modifier that a keyword begins, or nothing if it begins none. -/
def modifier? (limits : Limits) (fin : Int) (sides : Int) (keyword : Token) (ts : List Token) :
    Option (Except NotationError (Piece Modifier)) :=
  match keyword.kind with
  | .select rule => some do
    let piece ← optional (selected keyword) 1 keyword ts
    return ⟨.select rule piece.value, piece.stop, piece.rest⟩
  | .explode => some do
    let piece ← optional (face .explosion sides) sides keyword ts
    return ⟨.explode piece.value limits.explosionCap, piece.stop, piece.rest⟩
  | .reroll => some (reroll limits fin sides keyword false ts)
  | .rerollOnce => some (reroll limits fin sides keyword true ts)
  | .success => some do
    let piece ← threshold fin sides ts
    return ⟨.success piece.value, piece.stop, piece.rest⟩
  | .failure => some do
    let piece ← threshold fin sides ts
    return ⟨.failure piece.value, piece.stop, piece.rest⟩
  | _ => none

/-- The modifiers of a term that so far reaches up to `stop`, each with its keyword. -/
def modifiers (limits : Limits) (fin : Int) (sides : Int) :
    Nat → Int → List Token → Except NotationError (Piece (List (Token × Modifier)))
  | 0, stop, ts => return ⟨[], stop, ts⟩
  | _ + 1, stop, [] => return ⟨[], stop, []⟩
  | fuel + 1, stop, keyword :: ts =>
    match modifier? limits fin sides keyword ts with
    | none => return ⟨[], stop, keyword :: ts⟩
    | some read => do
      let piece ← read
      let more ← modifiers limits fin sides fuel piece.stop piece.rest
      return { more with value := (keyword, piece.value) :: more.value }

/-- The modifiers of one family, each with its keyword. -/
def ofFamily (family : Family) (ms : List (Token × Modifier)) : List (Token × Modifier) :=
  ms.filter fun m => Family.of? m.2 = some family

/-- Refuses a second modifier of a family. Together they would have no clear meaning; one that
keeps and one that drops do, in the order they are written. -/
def checkConflicts (ms : List (Token × Modifier)) : Except NotationError Unit :=
  [Family.keep, .drop, .explode, .success, .failure].forM fun family =>
    match ofFamily family ms with
    | first :: second :: _ =>
      throw (.fault (.conflict family second.1.text first.1.text) second.1.position)
    | _ => return ()

/-! ## Terms -/

/-- The rest of a dice term behind its `d`, which begins at `start`. -/
def dice (limits : Limits) (fin start : Int) (count : Int) (ts : List Token) :
    Except NotationError (Expr × List Token) :=
  match ts with
  | t :: rest =>
    if t.kind = .integer then do
      let sides ← number t
      if 1 ≤ sides ∧ sides ≤ limits.maxSides then
        let piece ← modifiers limits fin sides rest.length t.stop rest
        checkConflicts piece.value
        return (.dice ⟨count, sides, piece.value.map Prod.snd⟩ ⟨start, piece.stop⟩, piece.rest)
      else throw (.fault (.dieSize limits.maxSides sides) t.position)
    else throw (.fault .missingSides t.position)
  | [] => throw (.fault .missingSides fin)

def diceCount (limits : Limits) (t : Token) : Except NotationError Int := do
  let count ← number t
  if 1 ≤ count ∧ count ≤ limits.maxDice then return count
  else throw (.fault (.diceCount limits.maxDice count) t.position)

/-- What begins with a number: a dice term if a `d` follows it, else a constant. -/
def numbered (limits : Limits) (fin : Int) (t : Token) (ts : List Token) :
    Except NotationError (Expr × List Token) :=
  match ts with
  | d :: rest =>
    if d.kind = .die then do
      let count ← diceCount limits t
      dice limits fin t.position count rest
    else do
      let v ← number t
      return (.constant v ⟨t.position, t.stop⟩, ts)
  | [] => do
    let v ← number t
    return (.constant v ⟨t.position, t.stop⟩, ts)

/-- A shorthand: one of two twenty-sided dice, whatever the limits. -/
def shorthand (t : Token) : Except NotationError Expr :=
  match shorthand? (t.text.map Char.toLower) with
  | some rule => return .dice ⟨2, 20, [.select rule 1]⟩ ⟨t.position, t.stop⟩
  | none => throw .unknownShorthand

/-! ## Operators -/

/-- Reads on while an operator of this precedence follows, and groups to the left. -/
def chain (precedence : Nat) (operand : List Token → Except NotationError (Expr × List Token)) :
    Nat → Expr → List Token → Except NotationError (Expr × List Token)
  | 0, left, ts => return (left, ts)
  | _ + 1, left, [] => return (left, [])
  | fuel + 1, left, t :: ts =>
    match t.kind with
    | .operator op =>
      if op.precedence = precedence then do
        let (right, rest) ← operand ts
        chain precedence operand fuel
          (.binary op left right ⟨left.span.start, right.span.stop⟩) rest
      else return (left, t :: ts)
    | _ => return (left, t :: ts)

/-- Operands joined by operators of one precedence. -/
def joined (precedence : Nat) (operand : List Token → Except NotationError (Expr × List Token))
    (ts : List Token) : Except NotationError (Expr × List Token) := do
  let (left, rest) ← operand ts
  chain precedence operand rest.length left rest

def sum (factor : List Token → Except NotationError (Expr × List Token)) :
    List Token → Except NotationError (Expr × List Token) :=
  joined 1 (joined 2 factor)

/-- A factor, with a budget for the factors nested in it. -/
def factor (limits : Limits) (fin : Int) :
    Nat → List Token → Except NotationError (Expr × List Token)
  | 0 => fun ts => throw (.fault .nestedTooDeeply (here fin ts))
  | depth + 1 => fun ts =>
    match ts with
    | [] => throw (unexpected fin .primary [])
    | t :: rest =>
      match t.kind with
      | .operator .sub => do
        let (e, rest) ← factor limits fin depth rest
        return (.negate e ⟨t.position, e.span.stop⟩, rest)
      | .opening => do
        let (e, rest) ← sum (factor limits fin depth) rest
        match rest with
        | c :: rest =>
          if c.kind = .closing then return (e.withSpan ⟨t.position, c.stop⟩, rest)
          else throw (unexpected fin (.closing t.position) (c :: rest))
        | [] => throw (unexpected fin (.closing t.position) [])
      | .integer => numbered limits fin t rest
      | .die => dice limits fin t.position 1 rest
      | .shorthand => do
        let e ← shorthand t
        return (e, rest)
      | _ => throw (unexpected fin .primary (t :: rest))

end Read

/-! ## Whole expressions -/

/-- The most factors nested in each other. -/
def nestingLimit : Nat := 100

/-- The tokens with an end marker behind them, if they have none. -/
def closed (tokens : List Token) : List Token :=
  match tokens.getLast? with
  | none => [.ending 0]
  | some t => if t.kind = .endMark then tokens else tokens ++ [.ending t.stop]

/-- The token that a limit on their number leaves out first. A limit below zero counts from the
end. -/
def tokenBeyond? (limit : Int) (tokens : List Token) : Option Token :=
  let i := if limit < 0 then tokens.length + limit else limit
  if i < 0 then none else tokens[i.toNat]?

namespace Expr

/-- The expression that a list of tokens spells. The first end marker ends it, whatever follows;
without one, the text ends just past the last token. -/
def ofTokens (limits : Limits) (tokens : List Token) : Except NotationError Expr :=
  let all := closed tokens
  let body := all.takeWhile (·.kind ≠ .endMark)
  let fin := Read.here 0 (all.dropWhile (·.kind ≠ .endMark))
  if body.isEmpty then throw (.fault .empty fin)
  else if limits.maxTokens < all.length then
    match tokenBeyond? limits.maxTokens all with
    | some t => throw (.fault (.tooManyTokens limits.maxTokens) t.position)
    | none => throw (.noTokenBeyondLimit limits.maxTokens)
  else do
    let (e, rest) ← Read.sum (Read.factor limits fin nestingLimit) body
    if rest.isEmpty then return e
    else throw (Read.unexpected fin .operatorOrEnd rest)

def parse (limits : Limits) (text : String) : Except NotationError Expr := do
  ofTokens limits (← Token.scan text)

end Expr

end Dicebox
