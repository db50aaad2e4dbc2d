import Dicebox.Proofs.Grammar

/-! # A cursor on the tokens

An expression can be read with a cursor that stands on one token of a list. What is done at the
cursor is a script: it looks at the token there, at the one behind it or at the one in front of it,
it moves the cursor on, and it calls for parts of the expression, which are read by scripts of their
own. A loop is a part that calls for itself. The cursor refuses to move on from an end mark, and
nothing ever moves it back.

A run of a script has no budget and takes each step in turn, so that a script has a run only if it
ends, and only if it never looks for a token outside of the list. Whatever the script, the cursor
sweeps over the tokens: it takes each token from where it began to where it ended once and in order,
and none of these is an end mark.

- `Production`, `Production.body`: the parts of an expression, and how they are read.
- `Script`, `Script.Runs`: what is done at the cursor, and its runs.
- `Script.Runs.unique`: a script has at most one run.
- `Sweeps`, `Script.Runs.sweeps`: how the cursor moves.
-/

namespace Dicebox

open Read

/-! ## Scripts -/

/-- The parts of an expression that are read by scripts of their own. -/
inductive Production where
  /-- Operands with the signs of one level between them. -/
  | joined (level : Level) (depth : Nat)
  /-- What stands in a chain behind the operands that so far stand for `left`. -/
  | chain (level : Level) (depth : Nat) (left : Expr)
  /-- A factor, with a budget for the factors nested in it. -/
  | factor (depth : Nat)
  /-- The modifiers of a die with so many sides. -/
  | modifiers (sides : Int)
  /-- The faces of a reroll. -/
  | faces (sides : Int)

/-- What is read of a part. -/
abbrev Production.Result : Production → Type
  | joined _ _ | chain _ _ _ | factor _ => Expr
  | modifiers _ => List (Token × Modifier)
  | faces _ => List Int

/-- Where to look from the cursor. -/
inductive Glance where
  | current
  | next
  | previous

/-- What is done at the cursor. -/
inductive Script (α : Type) where
  | done (value : α)
  | fail (error : NotationError)
  /-- Looks at a token. -/
  | look (glance : Glance) (next : Token → Script α)
  /-- Takes the token at the cursor, which then stands on the next one; an end mark stays. -/
  | advance (next : Token → Script α)
  /-- Reads a part. -/
  | call (part : Production) (next : part.Result → Script α)

namespace Script

variable {α β : Type}

/-- A script, and then one that depends on its value. -/
def bind : Script α → (α → Script β) → Script β
  | done a, f => f a
  | fail e, _ => fail e
  | look glance next, f => look glance fun t => (next t).bind f
  | advance next, f => advance fun t => (next t).bind f
  | call part next, f => call part fun a => (next a).bind f

instance : Monad Script where
  pure := done
  bind := bind

def token (glance : Glance) : Script Token := look glance done

def take : Script Token := advance done

def part (p : Production) : Script p.Result := call p done

/-- What needs no tokens. -/
def lift : Except NotationError α → Script α
  | .ok a => done a
  | .error e => fail e

def unexpected (expected : Expected) : Script α := do
  let t ← token .current
  if t.kind = .endMark then fail (.fault (.unexpectedEnd expected) t.position)
  else fail (.fault (.unexpectedToken t.text expected) t.position)

end Script

/-! ## Productions -/

namespace Production

open Script

/-- A number that may stand behind a modifier's keyword, and is `absent` if it does not. -/
def optional (read : Token → Except NotationError Int) (absent : Int) : Script Int := do
  let t ← token .current
  if t.kind = .integer then do
    let t ← take
    lift (read t)
  else return absent

/-- The threshold of a count of successes or failures. -/
def threshold (sides : Int) : Script Int := do
  let t ← token .current
  if t.kind = .integer then do
    let t ← take
    lift (face .score sides t)
  else unexpected .threshold

/-- The rest of a reroll modifier. One that repeats has to leave a face to settle on. -/
def reroll (limits : Limits) (sides : Int) (keyword : Token) (once : Bool) : Script Modifier := do
  let values ← part (.faces sides)
  if !once ∧ sides ≤ (ascending values).length then
    fail (.fault (.rerollsEveryFace sides) keyword.position)
  else return .reroll (ascending values) once limits.rerollCap

/-- The rest of the modifier that a keyword begins, or nothing if it begins none. -/
def modifier? (limits : Limits) (sides : Int) (keyword : Token) : Option (Script Modifier) :=
  match keyword.kind with
  | .select rule => some do
    let n ← optional (selected keyword) 1
    return .select rule n
  | .explode => some do
    let n ← optional (face .explosion sides) sides
    return .explode n limits.explosionCap
  | .reroll => some (reroll limits sides keyword false)
  | .rerollOnce => some (reroll limits sides keyword true)
  | .success => some do
    let n ← threshold sides
    return .success n
  | .failure => some do
    let n ← threshold sides
    return .failure n
  | _ => none

/-- A dice term from its `d` on, which begins at `start`. -/
def dice (limits : Limits) (start count : Int) : Script Expr := do
  let _ ← take
  let t ← token .current
  if t.kind = .integer then do
    let t ← take
    let sides ← lift (number t)
    if 1 ≤ sides ∧ sides ≤ limits.maxSides then do
      let ms ← part (.modifiers sides)
      lift (checkConflicts ms)
      let last ← token .previous
      return .dice ⟨count, sides, ms.map Prod.snd⟩ ⟨start, last.stop⟩
    else fail (.fault (.dieSize limits.maxSides sides) t.position)
  else fail (.fault .missingSides t.position)

/-- What begins with a number: a dice term if a `d` follows it, else a constant. -/
def numbered (limits : Limits) : Script Expr := do
  let d ← token .next
  if d.kind = .die then do
    let t ← take
    let count ← lift (diceCount limits t)
    dice limits t.position count
  else do
    let t ← take
    let v ← lift (number t)
    return .constant v ⟨t.position, t.stop⟩

/-- What the signs of a level stand between. -/
def operand (depth : Nat) : Level → Script Expr
  | .sum => part (.joined .product depth)
  | .product => part (.factor depth)

/-- How a part is read. -/
def body (limits : Limits) : (p : Production) → Script p.Result
  | joined level depth => do
    let left ← operand depth level
    part (.chain level depth left)
  | chain level depth left => do
    let t ← token .current
    match t.kind with
    | .operator op =>
      if op.precedence = level.precedence then do
        let _ ← take
        let right ← operand depth level
        part (.chain level depth (.binary op left right ⟨left.span.start, right.span.stop⟩))
      else return left
    | _ => return left
  | factor 0 => do
    let t ← token .current
    fail (.fault .nestedTooDeeply t.position)
  | factor (depth + 1) => do
    let t ← token .current
    match t.kind with
    | .operator .sub => do
      let _ ← take
      let e ← part (.factor depth)
      return .negate e ⟨t.position, e.span.stop⟩
    | .opening => do
      let _ ← take
      let e ← part (.joined .sum depth)
      let c ← token .current
      if c.kind = .closing then do
        let c ← take
        return e.withSpan ⟨t.position, c.stop⟩
      else unexpected (.closing t.position)
    | .integer => numbered limits
    | .die => dice limits t.position 1
    | .shorthand => do
      let t ← take
      lift (shorthand t)
    | _ => unexpected .primary
  | modifiers sides => do
    let keyword ← token .current
    match modifier? limits sides keyword with
    | none => return []
    | some rest => do
      let keyword ← take
      let m ← rest
      let more ← part (.modifiers sides)
      return (keyword, m) :: more
  | faces sides => do
    let t ← token .current
    if t.kind = .integer then do
      let t ← take
      let v ← lift (face .reroll sides t)
      let c ← token .current
      if c.kind = .comma then do
        let _ ← take
        let more ← part (.faces sides)
        return v :: more
      else return [v]
    else unexpected .rerollValue

end Production

def Script.whole (limits : Limits) (tokens : List Token) : Script Expr := do
  let first ← token .current
  if first.kind = .endMark then fail (.fault .empty first.position)
  else if limits.maxTokens < tokens.length then
    match tokenBeyond? limits.maxTokens tokens with
    | some t => fail (.fault (.tooManyTokens limits.maxTokens) t.position)
    | none => fail (.noTokenBeyondLimit limits.maxTokens)
  else do
    let e ← part (.joined .sum nestingLimit)
    let t ← token .current
    if t.kind = .endMark then return e
    else unexpected .operatorOrEnd

/-! ## Runs -/

/-- A token that is looked at: where the cursor stands, which token it is, and whether the cursor
takes it and moves on. -/
structure Visit where
  cursor : Nat
  token : Nat
  taken : Bool
  deriving DecidableEq, Repr

/-- The token of a list of so many that a glance from a cursor falls on. There is none in front of
the first one, and behind the last one it is still the last one. -/
inductive Glance.FallsOn (size : Nat) : Glance → Nat → Nat → Prop
  | current {i : Nat} : FallsOn size current i i
  | next {i : Nat} : FallsOn size next i (min (i + 1) (size - 1))
  | previous {i : Nat} : FallsOn size previous (i + 1) i

namespace Script

/-- A script runs on a list of tokens: from where the cursor stands, over the tokens that are looked
at, to an outcome and where the cursor stands then. -/
inductive Runs (limits : Limits) (tokens : List Token) : {α : Type} → Script α → Nat → List Visit →
    Except NotationError α → Nat → Prop
  | done {α : Type} {a : α} {i : Nat} : Runs limits tokens (done a) i [] (.ok a) i
  | fail {α : Type} {e : NotationError} {i : Nat} :
      Runs limits tokens (fail e : Script α) i [] (.error e) i
  | look {α : Type} {glance : Glance} {next : Token → Script α} {i j k : Nat} {t : Token}
      {trail : List Visit} {out : Except NotationError α} (falls : glance.FallsOn tokens.length i k)
      (there : tokens[k]? = some t) (rest : Runs limits tokens (next t) i trail out j) :
      Runs limits tokens (look glance next) i (⟨i, k, false⟩ :: trail) out j
  | take {α : Type} {next : Token → Script α} {i j : Nat} {t : Token} {trail : List Visit}
      {out : Except NotationError α} (there : tokens[i]? = some t) (word : t.kind ≠ .endMark)
      (rest : Runs limits tokens (next t) (i + 1) trail out j) :
      Runs limits tokens (advance next) i (⟨i, i, true⟩ :: trail) out j
  | stay {α : Type} {next : Token → Script α} {i j : Nat} {t : Token} {trail : List Visit}
      {out : Except NotationError α} (there : tokens[i]? = some t) (ending : t.kind = .endMark)
      (rest : Runs limits tokens (next t) i trail out j) :
      Runs limits tokens (advance next) i (⟨i, i, false⟩ :: trail) out j
  | call {α : Type} {p : Production} {next : p.Result → Script α} {i j k : Nat} {a : p.Result}
      {trail more : List Visit} {out : Except NotationError α}
      (inner : Runs limits tokens (p.body limits) i trail (.ok a) j)
      (rest : Runs limits tokens (next a) j more out k) :
      Runs limits tokens (call p next) i (trail ++ more) out k
  | refused {α : Type} {p : Production} {next : p.Result → Script α} {i j : Nat}
      {e : NotationError} {trail : List Visit}
      (inner : Runs limits tokens (p.body limits) i trail (.error e) j) :
      Runs limits tokens (call p next) i trail (.error e) j

namespace Runs

variable {limits : Limits} {tokens : List Token} {α β : Type} {s : Script α} {f : α → Script β}
  {i j k : Nat} {trail more : List Visit} {e : NotationError}

theorem bind {a : α} {out : Except NotationError β} (h : s.Runs limits tokens i trail (.ok a) j)
    (hf : (f a).Runs limits tokens j more out k) :
    (s.bind f).Runs limits tokens i (trail ++ more) out k := by
  generalize hout : Except.ok a = first at h
  induction h with
  | done =>
    obtain rfl := Except.ok.inj hout
    exact hf
  | fail => cases hout
  | look falls there _ ih => exact .look falls there (ih hf hout)
  | take there word _ ih => exact .take there word (ih hf hout)
  | stay there ending _ ih => exact .stay there ending (ih hf hout)
  | call inner _ _ ih =>
    rw [List.append_assoc]
    exact .call inner (ih hf hout)
  | refused => cases hout

theorem bind_error (h : s.Runs limits tokens i trail (.error e) j) :
    (s.bind f).Runs limits tokens i trail (.error e) j := by
  generalize hout : Except.error e = first at h
  induction h with
  | done => cases hout
  | fail =>
    obtain rfl := Except.error.inj hout
    exact .fail
  | look falls there _ ih => exact .look falls there (ih hout)
  | take there word _ ih => exact .take there word (ih hout)
  | stay there ending _ ih => exact .stay there ending (ih hout)
  | call inner _ _ ih => exact .call inner (ih hout)
  | refused inner =>
    obtain rfl := Except.error.inj hout
    exact .refused inner

/-- **A script has at most one run.** -/
theorem unique {out out' : Except NotationError α} {trail' : List Visit} {j' : Nat}
    (h : s.Runs limits tokens i trail out j) (h' : s.Runs limits tokens i trail' out' j') :
    trail = trail' ∧ out = out' ∧ j = j' := by
  induction h generalizing trail' j' with
  | done =>
    cases h'
    exact ⟨rfl, rfl, rfl⟩
  | fail =>
    cases h'
    exact ⟨rfl, rfl, rfl⟩
  | look falls there _ ih =>
    cases h' with
    | look falls' there' rest' =>
      cases falls <;> cases falls' <;>
      · obtain rfl := Option.some.inj (there.symm.trans there')
        obtain ⟨rfl, rfl, rfl⟩ := ih rest'
        exact ⟨rfl, rfl, rfl⟩
  | take there word _ ih =>
    cases h' with
    | take there' word' rest' =>
      obtain rfl := Option.some.inj (there.symm.trans there')
      obtain ⟨rfl, rfl, rfl⟩ := ih rest'
      exact ⟨rfl, rfl, rfl⟩
    | stay there' ending rest' =>
      obtain rfl := Option.some.inj (there.symm.trans there')
      exact absurd ending word
  | stay there ending _ ih =>
    cases h' with
    | take there' word rest' =>
      obtain rfl := Option.some.inj (there.symm.trans there')
      exact absurd ending word
    | stay there' ending' rest' =>
      obtain rfl := Option.some.inj (there.symm.trans there')
      obtain ⟨rfl, rfl, rfl⟩ := ih rest'
      exact ⟨rfl, rfl, rfl⟩
  | call _ _ ihi ihr =>
    cases h' with
    | call inner' rest' =>
      obtain ⟨rfl, ha, rfl⟩ := ihi inner'
      obtain rfl := Except.ok.inj ha
      obtain ⟨rfl, rfl, rfl⟩ := ihr rest'
      exact ⟨rfl, rfl, rfl⟩
    | refused inner' =>
      obtain ⟨-, hout, -⟩ := ihi inner'
      cases hout
  | refused _ ih =>
    cases h' with
    | call inner' rest' =>
      obtain ⟨-, hout, -⟩ := ih inner'
      cases hout
    | refused inner' =>
      obtain ⟨rfl, hout, rfl⟩ := ih inner'
      obtain rfl := Except.error.inj hout
      exact ⟨rfl, rfl, rfl⟩

end Runs

end Script

/-! ## Sweeps -/

/-- The tokens that are taken on a trail, in order. -/
def takenOn (trail : List Visit) : List Nat := (trail.filter Visit.taken).map Visit.token

/-- A cursor sweeps over the tokens from one place to another: it never moves back, it looks at
tokens of the list only, and it takes each token on its way once, none of which is an end mark. -/
structure Sweeps (tokens : List Token) (i j : Nat) (trail : List Visit) : Prop where
  le : i ≤ j
  ordered : (trail.map Visit.cursor).Pairwise (· ≤ ·)
  between : ∀ v ∈ trail, i ≤ v.cursor ∧ v.cursor ≤ j
  inside : ∀ v ∈ trail, v.token < tokens.length
  taken : takenOn trail = List.range' i (j - i)
  words : ∀ k, i ≤ k → k < j → ∃ t, tokens[k]? = some t ∧ t.kind ≠ .endMark

namespace Sweeps

variable {tokens : List Token} {i j k : Nat} {trail more : List Visit}

theorem nil (tokens : List Token) (i : Nat) : Sweeps tokens i i [] where
  le := le_refl i
  ordered := List.Pairwise.nil
  between := List.forall_mem_nil _
  inside := List.forall_mem_nil _
  taken := by rw [Nat.sub_self]; rfl
  words k hle hlt := by omega

theorem append (h : Sweeps tokens i j trail) (h' : Sweeps tokens j k more) :
    Sweeps tokens i k (trail ++ more) where
  le := h.le.trans h'.le
  ordered := by
    rw [List.map_append, List.pairwise_append]
    refine ⟨h.ordered, h'.ordered, ?_⟩
    simp only [List.forall_mem_map]
    intro v hv w hw
    exact (h.between v hv).2.trans (h'.between w hw).1
  between := by
    have := h.le
    have := h'.le
    refine List.forall_mem_append.mpr ⟨fun v hv => ?_, fun v hv => ?_⟩
    · have := h.between v hv
      omega
    · have := h'.between v hv
      omega
  inside := List.forall_mem_append.mpr ⟨h.inside, h'.inside⟩
  taken := by
    have hlen : k - i = (j - i) + (k - j) := by
      have := h.le
      have := h'.le
      omega
    have hi : i + (j - i) = j := Nat.add_sub_of_le h.le
    have htaken := congrArg₂ (· ++ ·) h.taken h'.taken
    rw [hlen, ← List.range'_append_1, hi, ← htaken, takenOn, List.filter_append, List.map_append]
    rfl
  words m him hmk := by
    by_cases hmj : m < j
    · exact h.words m him hmj
    · exact h'.words m (by omega) hmk

theorem look {i k : Nat} (hk : k < tokens.length) : Sweeps tokens i i [⟨i, k, false⟩] where
  le := le_refl i
  ordered := List.pairwise_singleton _ _
  between := List.forall_mem_singleton.mpr ⟨le_refl i, le_refl i⟩
  inside := List.forall_mem_singleton.mpr hk
  taken := by rw [Nat.sub_self]; rfl
  words k hle hlt := by omega

theorem take {t : Token} (ht : tokens[i]? = some t) (hword : t.kind ≠ .endMark) :
    Sweeps tokens i (i + 1) [⟨i, i, true⟩] where
  le := Nat.le_succ i
  ordered := List.pairwise_singleton _ _
  between := List.forall_mem_singleton.mpr ⟨le_refl i, Nat.le_succ i⟩
  inside := List.forall_mem_singleton.mpr (List.getElem?_eq_some_iff.mp ht).1
  taken := by rw [Nat.add_sub_cancel_left]; rfl
  words k hle hlt := by
    obtain rfl : k = i := by omega
    exact ⟨t, ht, hword⟩

/-- **No end mark is passed.** -/
theorem le_of_endMark (h : Sweeps tokens i j trail) {t : Token} (ht : tokens[k]? = some t)
    (hend : t.kind = .endMark) (hik : i ≤ k) : j ≤ k := by
  by_contra hkj
  obtain ⟨u, hu, hword⟩ := h.words k hik (by omega)
  obtain rfl := Option.some.inj (ht.symm.trans hu)
  exact hword hend

end Sweeps

/-- **Every run is a sweep over the tokens.** -/
theorem Script.Runs.sweeps {limits : Limits} {tokens : List Token} {α : Type} {s : Script α}
    {i j : Nat} {trail : List Visit} {out : Except NotationError α}
    (h : s.Runs limits tokens i trail out j) : Sweeps tokens i j trail := by
  induction h with
  | done => exact .nil tokens _
  | fail => exact .nil tokens _
  | look _ there _ ih => exact (Sweeps.look (List.getElem?_eq_some_iff.mp there).1).append ih
  | take there word _ ih => exact (Sweeps.take there word).append ih
  | stay there _ _ ih => exact (Sweeps.look (List.getElem?_eq_some_iff.mp there).1).append ih
  | call _ _ ihi ihr => exact ihi.append ihr
  | refused _ ih => exact ih

end Dicebox
