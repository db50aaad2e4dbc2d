import Dicebox.Expr.Read
import Dicebox.Fairness
import Dicebox.History
import Dicebox.Settings
import Dicebox.Summary

/-! # The engine

An engine holds settings, a source and a history. It reads expressions under the limits of its
settings, rolls them against its source, and records every roll that has a result. What it does is a
session: a change of the engine with an answer or a failure, and the events on the way. A failure
ends a session, but what was done before it stays done. Sessions follow one another: nothing is said
about several at the same time.

- `Engine`, `Session`: an engine, and what can be done with one.
- `Session.roll`, `Session.rollBatch`, `Session.rollMany`, `Session.rollAbilityScores`: rolls.
- `Session.check`: whether an expression can be read.
- `Session.fairness`, `Session.analyze`: statistics, which are not recorded.
-/

namespace Dicebox

/-! ## Engines and sessions -/

/-- An engine with a source of the kind `σ`. -/
structure Engine (σ : Type) where
  settings : Settings
  source : σ
  history : History
  /-- The stamps of the rolls that are made, in order. -/
  stamps : Nat → Stamp
  /-- How many rolls have been made. -/
  made : Nat := 0

/-- Why an engine does not do what it is asked to. -/
inductive EngineError where
  | unreadable (error : NotationError)
  | roll (error : RollError)
  | batchSize (limit got : Int)
  | fairness (error : FairnessError)
  | summary (error : SummaryError)

/-- What is said about a failure; arithmetic and what cannot be counted or told apart
speak for themselves. -/
def EngineError.message? : EngineError → Option String
  | unreadable e => some e.message
  | roll e => some e.message
  | batchSize limit got => some s!"Batch size must be between 0 and {limit}, got {got}"
  | fairness e => e.message?
  | summary e => e.message?

/-- How a session came out: its answer or failure, the engine after it, and the events. -/
structure Outcome (σ α : Type) where
  result : Except EngineError α
  engine : Engine σ
  events : List Event

/-- Something that can be done with an engine. -/
def Session (σ α : Type) : Type := Engine σ → Outcome σ α

namespace Session

variable {σ α β : Type}

/-- Nothing is done. -/
def answer (a : α) : Session σ α := fun g => ⟨.ok a, g, []⟩

def fail (e : EngineError) : Session σ α := fun g => ⟨.error e, g, []⟩

/-- One session, and then one that depends on its answer. -/
def bind (s : Session σ α) (f : α → Session σ β) : Session σ β := fun g =>
  let first := s g
  match first.result with
  | .error e => ⟨.error e, first.engine, first.events⟩
  | .ok a =>
    let second := f a first.engine
    ⟨second.result, second.engine, first.events ++ second.events⟩

instance : Monad (Session σ) where
  pure := answer
  bind := bind

@[simp] theorem answer_bind (a : α) (f : α → Session σ β) : (answer a).bind f = f a := rfl

@[simp] theorem fail_bind (e : EngineError) (f : α → Session σ β) : (fail e).bind f = fail e := rfl

theorem bind_assoc {γ : Type} (s : Session σ α) (f : α → Session σ β) (k : β → Session σ γ) :
    (s.bind f).bind k = s.bind fun a => (f a).bind k := by
  funext g
  cases h : (s g).result with
  | error e => simp [bind, h]
  | ok a => cases hf : (f a (s g).engine).result <;> simp [bind, h, hf, List.append_assoc]

/-- An answer, and something worth telling. -/
def tell (event : Event) (a : α) : Session σ α := fun g => ⟨.ok a, g, [event]⟩

def withSettings (f : Settings → Session σ α) : Session σ α := fun g => f g.settings g

/-! ## Rolls -/

/-- Reads an expression under the limits of the settings. -/
def parse (text : String) : Session σ Expr := withSettings fun settings =>
  match Expr.parse settings.limits text with
  | .ok e => tell (.read text e) e
  | .error e => fail (.unreadable e)

variable [RandomSource σ]

/-- Rolls an expression that has been read, and records the roll. -/
def evaluate (e : Expr) (text : String) : Session σ Entry := fun g =>
  let run := (e.roll (some text)).run g.source
  match run.outcome with
  | .error err => ⟨.error (.roll err), { g with source := run.source }, run.events⟩
  | .ok roll =>
    let entry : Entry := ⟨g.stamps g.made, roll⟩
    let after : Engine σ :=
      { g with source := run.source, history := g.history.record entry, made := g.made + 1 }
    ⟨.ok entry, after, run.events⟩

def roll (text : String) : Session σ Entry := (parse text).bind fun e => evaluate e text

/-- Rolls a list of expressions, of which some have been read before. -/
def rollKnown : List (String × Expr) → List String → Session σ (List Entry)
  | _, [] => answer []
  | known, text :: texts =>
    match known.lookup text with
    | some e =>
      (evaluate e text).bind fun entry =>
        (rollKnown known texts).bind fun entries => answer (entry :: entries)
    | none =>
      (parse text).bind fun e =>
        (evaluate e text).bind fun entry =>
          (rollKnown ((text, e) :: known) texts).bind fun entries => answer (entry :: entries)

/-- Rolls a list of expressions, each distinct one of which is read once. -/
def rollMany (texts : List String) : Session σ (List Entry) := rollKnown [] texts

/-- The answers to the question whether a batch shall be cancelled, in the order in which it is
asked. -/
abbrev Answers : Type := Nat → Bool

/-- Nobody cancels a batch. -/
def never : Answers := fun _ => false

/-- Rolls an expression up to `left` times more behind `made` rolls. Before each roll it is asked
whether the batch shall be cancelled. -/
def rollUntil (cancelled : Answers) (e : Expr) (text : String) (asked made : Nat) :
    Nat → Session σ (List Entry)
  | 0 => answer []
  | left + 1 =>
    if cancelled made then tell (.batchCancelled text made asked) []
    else
      (evaluate e text).bind fun entry =>
        (rollUntil cancelled e text asked (made + 1) left).bind fun entries =>
          answer (entry :: entries)

/-- Rolls an expression, which is read once, `n` times, unless the batch is cancelled. -/
def rollBatch (text : String) (n : Int) (cancelled : Answers) : Session σ (List Entry) :=
  withSettings fun settings =>
    if 0 ≤ n ∧ n ≤ settings.maxBatchSize then
      (parse text).bind fun e => rollUntil cancelled e text n.toNat 0 n.toNat
    else fail (.batchSize settings.maxBatchSize n)

def abilityScore : String := "4d6dl1"

def rollAbilityScores (count : Int) : Session σ (List Entry) := rollBatch abilityScore count never

end Session

/-! ## Checks -/

/-- What is found out about an expression without rolling it: its canonical notation, or what is
wrong with it. -/
structure Check where
  expression : String
  verdict : Except NotationError String

namespace Session

variable {σ : Type}

/-- Looks whether an expression can be read. A refusal that is about no place of the text is a
failure and no verdict. -/
def check (text : String) : Session σ Check := withSettings fun settings =>
  match Expr.parse settings.limits text with
  | .ok e => tell (.read text e) ⟨text, .ok e.canonical⟩
  | .error e =>
    if e.position?.isSome then answer ⟨text, .error e⟩ else fail (.unreadable e)

/-! ## Statistics -/

variable [RandomSource σ]

/-- Tests the source on a die of one size, at the level of the settings unless another is given. -/
def fairness (sides sampleSize : Int) (significance : Option Number) : Session σ Report := fun g =>
  let level := significance.getD (.real g.settings.significance)
  let (result, source) := Dicebox.fairness g.source sides sampleSize level
  let events := match result with
    | .ok r => [r.event]
    | .error _ => []
  ⟨result.mapError .fairness, { g with source := source }, events⟩

/-- Rolls an expression many times and summarizes its totals. -/
def analyze (text : String) (iterations : Int) : Session σ Summary :=
  (parse text).bind fun e g =>
    let (result, source, events) := summarize e g.source iterations (some text)
    ⟨result.mapError .summary, { g with source := source }, events⟩

end Session

end Dicebox
