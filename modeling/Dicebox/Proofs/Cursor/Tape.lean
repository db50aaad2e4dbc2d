import Dicebox.Proofs.Cursor
import Dicebox.Proofs.Grammar.Twins

/-! # The cursor reads what the reader reads

The reader of expressions takes tokens off the front of a list and knows only where the text ends. A
cursor on the whole list finds the first end mark where the reader finds the end of its list, so it
stands as far behind the front of the list as the reader has tokens left. With that, every reader is
told by a script: they give the same value and leave the same tokens, or they refuse with the same
error. The budget of a reader that loops is a token for each round, and each round takes one.

- `Tape`: a list of tokens with an end mark, and `Tape.place`, where the cursor stands on it.
- `Tape.Tells`: a script tells what a reader does.
- `Tape.tells_factor`, `Tape.tells_joined`: one lemma for each reader, up to sums of factors.
- `exists_runs_whole`: whole expressions.
-/

namespace Dicebox

open Read

/-- A list of tokens that is split at its first end mark. -/
structure Tape where
  body : List Token
  last : Token
  behind : List Token
  words : ∀ t ∈ body, t.kind ≠ .endMark
  ending : last.kind = .endMark

namespace Tape

def tokens (T : Tape) : List Token := T.body ++ T.last :: T.behind

/-- Where the cursor stands when these tokens are left in front of the end mark. -/
def place (T : Tape) (ts : List Token) : Nat := T.body.length - ts.length

/-- The token at the cursor. -/
def current (T : Tape) : List Token → Token
  | [] => T.last
  | t :: _ => t

/-- The token in front of the cursor ends at an offset. -/
def EndsAt (T : Tape) (ts : List Token) (stop : Int) : Prop :=
  ∃ k t, T.place ts = k + 1 ∧ T.tokens[k]? = some t ∧ t.stop = stop

variable {T : Tape} {limits : Limits} {t : Token} {ts rest : List Token}

theorem getElem?_current (h : ts <:+ T.body) : T.tokens[T.place ts]? = some (T.current ts) := by
  obtain ⟨front, hfront⟩ := h
  have hplace : T.place ts = front.length := by
    rw [place, ← hfront, List.length_append, Nat.add_sub_cancel_right]
  rw [hplace, tokens, ← hfront, List.append_assoc, List.getElem?_append_right (le_refl _),
    Nat.sub_self]
  cases ts <;> rfl

theorem place_tail (h : t :: ts <:+ T.body) : T.place ts = T.place (t :: ts) + 1 := by
  have := h.length_le
  rw [List.length_cons] at this
  rw [place, place, List.length_cons]
  omega

theorem tail_suffix (h : t :: ts <:+ T.body) : ts <:+ T.body := (List.suffix_cons t ts).trans h

theorem kind_ne (h : t :: ts <:+ T.body) : t.kind ≠ .endMark :=
  T.words t (h.subset List.mem_cons_self)

theorem kind_current (h : ts <:+ T.body) : (T.current ts).kind = .endMark ↔ ts.isEmpty = true := by
  cases ts with
  | nil => simp [current, T.ending]
  | cons t ts => simp [current, kind_ne h]

theorem endsAt_tail (h : t :: ts <:+ T.body) : T.EndsAt ts t.stop :=
  ⟨T.place (t :: ts), t, place_tail h, getElem?_current h, rfl⟩

theorem here_eq : here T.last.position ts = (T.current ts).position := by
  cases ts <;> rfl

/-! ## Telling what a reader does -/

variable {α β γ δ : Type} {Left : β → α → List Token → Prop} {Left' : δ → γ → List Token → Prop}
  {s : Script α} {r : Except NotationError β}

/-- In front of these tokens, a script tells what a reader does: both give values that belong
together, which leaves some of the tokens, or both refuse with the same error. -/
def Tells (T : Tape) (limits : Limits) (Left : β → α → List Token → Prop) (ts : List Token)
    (s : Script α) : Except NotationError β → Prop
  | .ok b => ∃ a rest trail, Left b a rest ∧ rest <:+ ts ∧
      s.Runs limits T.tokens (T.place ts) trail (.ok a) (T.place rest)
  | .error e => ∃ trail j, s.Runs limits T.tokens (T.place ts) trail (.error e) j

/-- What is read of a part, with the tokens left. -/
def Rest (x : α × List Token) (a : α) (rest : List Token) : Prop := x = (a, rest)

/-- What is read of a part that knows where it ends. -/
structure Fits (T : Tape) (p : Piece α) (a : α) (rest : List Token) : Prop where
  value : p.value = a
  left : p.rest = rest
  stop : T.EndsAt rest p.stop

/-- A value that was made without looking at tokens. -/
def Same (ts : List Token) (b a : α) (rest : List Token) : Prop := b = a ∧ ts = rest

namespace Tells

theorem done {a : α} {b : β} (h : Left b a ts) : T.Tells limits Left ts (.done a) (.ok b) :=
  ⟨a, ts, [], h, List.suffix_refl ts, .done⟩

theorem fail {e : NotationError} : T.Tells limits Left ts (.fail e) (.error e) :=
  ⟨[], _, .fail⟩

theorem lift {r : Except NotationError α} : T.Tells limits (Same ts) ts (Script.lift r) r := by
  cases r with
  | ok a => exact done ⟨rfl, rfl⟩
  | error e => exact fail

theorem bind {f : α → Script γ} {g : β → Except NotationError δ}
    (h : T.Tells limits Left ts s r)
    (hf : ∀ {b a rest}, Left b a rest → rest <:+ ts → T.Tells limits Left' rest (f a) (g b)) :
    T.Tells limits Left' ts (s >>= f) (r >>= g) := by
  cases r with
  | error e =>
    obtain ⟨trail, j, hrun⟩ := h
    exact ⟨trail, j, hrun.bind_error⟩
  | ok b =>
    obtain ⟨a, rest, trail, hleft, hrest, hrun⟩ := h
    have hnext := hf hleft hrest
    show T.Tells limits Left' ts (s >>= f) (g b)
    cases hg : g b with
    | error e =>
      rw [hg] at hnext
      obtain ⟨more, j, hrun'⟩ := hnext
      exact ⟨trail ++ more, j, hrun.bind hrun'⟩
    | ok d =>
      rw [hg] at hnext
      obtain ⟨c, rest', more, hleft', hrest', hrun'⟩ := hnext
      exact ⟨c, rest', trail ++ more, hleft', hrest'.trans hrest, hrun.bind hrun'⟩

theorem map {g : β → δ} {Left' : δ → α → List Token → Prop} (h : T.Tells limits Left ts s r)
    (hg : ∀ {b a rest}, Left b a rest → Left' (g b) a rest) :
    T.Tells limits Left' ts s (r >>= fun b => .ok (g b)) := by
  cases r with
  | error e => exact h
  | ok b =>
    obtain ⟨a, rest, trail, hleft, hrun⟩ := h
    exact ⟨a, rest, trail, hg hleft, hrun⟩

theorem ite_iff {c c' : Prop} [Decidable c] [Decidable c'] {s' : Script α}
    {r' : Except NotationError β} (hc : c ↔ c') (h : c → T.Tells limits Left ts s r)
    (h' : ¬ c → T.Tells limits Left ts s' r') :
    T.Tells limits Left ts (if c then s else s') (if c' then r else r') := by
  by_cases hp : c
  · rw [if_pos hp, if_pos (hc.mp hp)]
    exact h hp
  · rw [if_neg hp, if_neg (hp ∘ hc.mpr)]
    exact h' hp

theorem ite {c : Prop} [Decidable c] {s' : Script α} {r' : Except NotationError β}
    (h : c → T.Tells limits Left ts s r) (h' : ¬ c → T.Tells limits Left ts s' r') :
    T.Tells limits Left ts (if c then s else s') (if c then r else r') := ite_iff Iff.rfl h h'

theorem step {s' : Script α} {us : List Token} (hus : us <:+ ts)
    (hrun : ∀ {trail out j}, s'.Runs limits T.tokens (T.place us) trail out j →
      ∃ trail', s.Runs limits T.tokens (T.place ts) trail' out j)
    (h : T.Tells limits Left us s' r) : T.Tells limits Left ts s r := by
  cases r with
  | error e =>
    obtain ⟨trail, j, h⟩ := h
    obtain ⟨trail', h'⟩ := hrun h
    exact ⟨trail', j, h'⟩
  | ok b =>
    obtain ⟨a, rest, trail, hleft, hrest, h⟩ := h
    obtain ⟨trail', h'⟩ := hrun h
    exact ⟨a, rest, trail', hleft, hrest.trans hus, h'⟩

theorem current {next : Token → Script α} (hts : ts <:+ T.body)
    (h : T.Tells limits Left ts (next (T.current ts)) r) :
    T.Tells limits Left ts (Script.token .current >>= next) r :=
  h.step (List.suffix_refl ts) fun hrun => ⟨_, .look .current (getElem?_current hts) hrun⟩

/-- Behind the last word stands the end mark, and so there is a token to look at. -/
theorem next {next : Token → Script α} (hts : t :: ts <:+ T.body)
    (h : T.Tells limits Left (t :: ts) (next (T.current ts)) r) :
    T.Tells limits Left (t :: ts) (Script.token .next >>= next) r := by
  have hnext := getElem?_current (tail_suffix hts)
  have hlt := (List.getElem?_eq_some_iff.mp hnext).1
  have hplace : min (T.place (t :: ts) + 1) (T.tokens.length - 1) = T.place ts := by
    rw [place_tail hts] at hlt ⊢
    omega
  refine h.step (List.suffix_refl _) fun hrun => ⟨_, .look .next ?_ hrun⟩
  rw [hplace]
  exact hnext

theorem previous {stop : Int} {next : Token → Script α} (hstop : T.EndsAt ts stop)
    (h : ∀ last : Token, last.stop = stop → T.Tells limits Left ts (next last) r) :
    T.Tells limits Left ts (Script.token .previous >>= next) r := by
  obtain ⟨k, last, hplace, hlast, hstop⟩ := hstop
  refine (h last hstop).step (List.suffix_refl ts) ?_
  intro trail out j hrun
  rw [hplace] at hrun ⊢
  exact ⟨_, .look .previous hlast hrun⟩

theorem take {next : Token → Script α} (hts : t :: ts <:+ T.body)
    (h : T.Tells limits Left ts (next t) r) :
    T.Tells limits Left (t :: ts) (Script.take >>= next) r := by
  refine h.step (List.suffix_cons t ts) ?_
  intro trail out j hrun
  rw [place_tail hts] at hrun
  exact ⟨_, .take (getElem?_current hts) (kind_ne hts) hrun⟩

theorem part {p : Production} {r : Except NotationError β} {Left : β → p.Result → List Token → Prop}
    (h : T.Tells limits Left ts (p.body limits) r) : T.Tells limits Left ts (Script.part p) r := by
  cases r with
  | error e =>
    obtain ⟨trail, j, hrun⟩ := h
    exact ⟨trail, j, .refused hrun⟩
  | ok b =>
    obtain ⟨a, rest, trail, hleft, hrest, hrun⟩ := h
    exact ⟨a, rest, trail ++ [], hleft, hrest, .call hrun .done⟩

theorem unexpected {expected : Expected} (hts : ts <:+ T.body) :
    T.Tells limits Left ts (Script.unexpected expected)
      (throw (Read.unexpected T.last.position expected ts)) := by
  refine current hts ?_
  cases ts with
  | nil =>
    rw [Tape.current, if_pos T.ending]
    exact fail
  | cons t ts =>
    rw [Tape.current, if_neg (kind_ne hts)]
    exact fail

end Tells

/-! ## Modifiers -/

theorem tells_faces (sides : Int) {ts : List Token} (hts : ts <:+ T.body) :
    T.Tells limits T.Fits ts (Script.part (.faces sides)) (faces T.last.position sides ts) := by
  induction hlen : ts.length using Nat.strong_induction_on generalizing ts with
  | _ n ih =>
    refine .part (.current hts ?_)
    cases ts with
    | nil =>
      rw [if_neg (by simp [current, T.ending])]
      exact .unexpected hts
    | cons t ts =>
      rw [faces]
      refine .ite (fun _ => .take hts (Tells.lift.bind ?_)) fun _ => .unexpected hts
      rintro v _ _ ⟨rfl, rfl⟩ -
      have htail := tail_suffix hts
      refine .current htail ?_
      cases ts with
      | nil =>
        rw [if_neg (by simp [current, T.ending])]
        exact .done ⟨rfl, rfl, endsAt_tail hts⟩
      | cons c ts =>
        refine .ite (fun _ => .take htail ?_) fun _ => .done ⟨rfl, rfl, endsAt_tail hts⟩
        have hshort : ts.length < n := by
          rw [← hlen, List.length_cons, List.length_cons]
          omega
        refine (ih _ hshort (tail_suffix htail) rfl).bind ?_
        rintro more _ _ ⟨rfl, rfl, hstop⟩ -
        exact .done ⟨rfl, rfl, hstop⟩

theorem tells_optional {read : Token → Except NotationError Int} {absent : Int} {keyword : Token}
    (hts : keyword :: ts <:+ T.body) :
    T.Tells limits T.Fits ts (Production.optional read absent)
      (optional read absent keyword ts) := by
  have htail := tail_suffix hts
  refine .current htail ?_
  cases ts with
  | nil =>
    rw [if_neg (by simp [current, T.ending])]
    exact .done ⟨rfl, rfl, endsAt_tail hts⟩
  | cons t ts =>
    refine .ite (fun _ => .take htail ?_) fun _ => .done ⟨rfl, rfl, endsAt_tail hts⟩
    refine Tells.lift.map ?_
    rintro n _ _ ⟨rfl, rfl⟩
    exact ⟨rfl, rfl, endsAt_tail htail⟩

theorem tells_threshold {sides : Int} (hts : ts <:+ T.body) :
    T.Tells limits T.Fits ts (Production.threshold sides)
      (threshold T.last.position sides ts) := by
  refine .current hts ?_
  cases ts with
  | nil =>
    rw [if_neg (by simp [current, T.ending])]
    exact .unexpected hts
  | cons t ts =>
    refine .ite (fun _ => .take hts (Tells.lift.map ?_)) fun _ => .unexpected hts
    rintro n _ _ ⟨rfl, rfl⟩
    exact ⟨rfl, rfl, endsAt_tail hts⟩

theorem tells_reroll {sides : Int} {keyword : Token} {once : Bool} (hts : ts <:+ T.body) :
    T.Tells limits T.Fits ts (Production.reroll limits sides keyword once)
      (reroll limits T.last.position sides keyword once ts) := by
  refine (tells_faces sides hts).bind ?_
  rintro p _ _ ⟨rfl, rfl, hstop⟩ -
  exact .ite (fun _ => .fail) fun _ => .done ⟨rfl, rfl, hstop⟩

/-- A keyword begins the same modifier for both, or none. -/
inductive Begins (T : Tape) (limits : Limits) (ts : List Token) :
    Option (Script Modifier) → Option (Except NotationError (Piece Modifier)) → Prop
  | none : Begins T limits ts none none
  | some {s : Script Modifier} {r : Except NotationError (Piece Modifier)}
      (tells : T.Tells limits T.Fits ts s r) : Begins T limits ts (some s) (some r)

theorem begins_modifier? (limits : Limits) (sides : Int) {keyword : Token} (hts : keyword :: ts <:+ T.body) :
    T.Begins limits ts (Production.modifier? limits sides keyword)
      (modifier? limits T.last.position sides keyword ts) := by
  have htail := tail_suffix hts
  have harg : ∀ {s : Script Int} {r : Except NotationError (Piece Int)} {m : Int → Modifier},
      T.Tells limits T.Fits ts s r → T.Begins limits ts (some (s >>= fun n => pure (m n)))
        (some (r >>= fun p => .ok ⟨m p.value, p.stop, p.rest⟩)) := by
    intro s r m h
    refine .some (h.bind ?_)
    rintro p _ _ ⟨rfl, rfl, hstop⟩ -
    exact .done ⟨rfl, rfl, hstop⟩
  rw [Production.modifier?, modifier?]
  cases keyword.kind with
  | select rule => exact harg (tells_optional hts)
  | explode => exact harg (tells_optional hts)
  | reroll => exact .some (tells_reroll htail)
  | rerollOnce => exact .some (tells_reroll htail)
  | success => exact harg (tells_threshold htail)
  | failure => exact harg (tells_threshold htail)
  | _ => exact .none

theorem modifier?_last (sides : Int) : Production.modifier? limits sides T.last = none := by
  rw [Production.modifier?, T.ending]

theorem tells_modifiers {sides : Int} {fuel : Nat} {stop : Int} (hts : ts <:+ T.body)
    (hfuel : ts.length ≤ fuel) (hstop : T.EndsAt ts stop) :
    T.Tells limits T.Fits ts (Script.part (.modifiers sides))
      (modifiers limits T.last.position sides fuel stop ts) := by
  induction fuel generalizing ts stop with
  | zero =>
    obtain rfl := List.length_eq_zero_iff.mp (Nat.le_zero.mp hfuel)
    refine .part (.current hts ?_)
    rw [current, modifier?_last]
    exact .done ⟨rfl, rfl, hstop⟩
  | succ fuel ih =>
    refine .part (.current hts ?_)
    cases ts with
    | nil =>
      rw [current, modifier?_last]
      exact .done ⟨rfl, rfl, hstop⟩
    | cons keyword ts =>
      have hbegins := begins_modifier? limits sides hts
      rw [modifiers, current]
      generalize Production.modifier? limits sides keyword = s at hbegins
      generalize modifier? limits T.last.position sides keyword ts = r at hbegins
      cases hbegins with
      | none => exact .done ⟨rfl, rfl, hstop⟩
      | some tells =>
        refine .take hts (tells.bind ?_)
        rintro p _ rest ⟨rfl, rfl, hstop⟩ hrest
        have hshort : p.rest.length ≤ fuel := by
          have := hrest.length_le
          rw [List.length_cons] at hfuel
          omega
        refine (ih (hrest.trans (tail_suffix hts)) hshort hstop).bind ?_
        rintro more _ _ ⟨rfl, rfl, hstop⟩ -
        exact .done ⟨rfl, rfl, hstop⟩

/-! ## Terms -/

theorem tells_dice {start count : Int} {d : Token} (hts : d :: ts <:+ T.body) :
    T.Tells limits Rest (d :: ts) (Production.dice limits start count)
      (dice limits T.last.position start count ts) := by
  have htail := tail_suffix hts
  refine .take hts (.current htail ?_)
  cases ts with
  | nil =>
    rw [if_neg (by simp [current, T.ending])]
    exact .fail
  | cons t ts =>
    refine .ite (fun _ => .take htail (Tells.lift.bind ?_)) fun _ => .fail
    rintro sides _ _ ⟨rfl, rfl⟩ -
    refine .ite (fun _ => ?_) fun _ => .fail
    refine (tells_modifiers (tail_suffix htail) (le_refl _) (endsAt_tail htail)).bind ?_
    rintro p _ _ ⟨rfl, rfl, hstop⟩ -
    refine Tells.lift.bind ?_
    rintro _ _ _ ⟨-, rfl⟩ -
    refine .previous hstop fun last hlast => ?_
    rw [hlast]
    exact .done rfl

theorem tells_numbered {t : Token} (hts : t :: ts <:+ T.body) :
    T.Tells limits Rest (t :: ts) (Production.numbered limits)
      (numbered limits T.last.position t ts) := by
  have htail := tail_suffix hts
  have hconstant : T.Tells limits Rest (t :: ts)
      (Script.take >>= fun t => Script.lift (number t) >>= fun v =>
        pure (Expr.constant v ⟨t.position, t.stop⟩))
      (number t >>= fun v => .ok (Expr.constant v ⟨t.position, t.stop⟩, ts)) := by
    refine .take hts (Tells.lift.bind ?_)
    rintro v _ _ ⟨rfl, rfl⟩ -
    exact .done rfl
  refine .next hts ?_
  cases ts with
  | nil =>
    rw [if_neg (by simp [current, T.ending])]
    exact hconstant
  | cons d ts =>
    refine .ite (fun _ => .take hts (Tells.lift.bind ?_)) fun _ => hconstant
    rintro count _ _ ⟨rfl, rfl⟩ -
    exact tells_dice htail

/-! ## Operators -/

section Chains

variable {depth : Nat} {level : Level}
  {operand : List Token → Except NotationError (Expr × List Token)}

/-- A reader is told by a script wherever it stands in front of the end mark. -/
def Told (T : Tape) (limits : Limits) (s : Script Expr)
    (read : List Token → Except NotationError (Expr × List Token)) : Prop :=
  ∀ {ts : List Token}, ts <:+ T.body → T.Tells limits Rest ts s (read ts)

theorem tells_chain (hoperand : T.Told limits (Production.operand depth level) operand)
    {fuel : Nat} (left : Expr) (hts : ts <:+ T.body) (hfuel : ts.length ≤ fuel) :
    T.Tells limits Rest ts (Script.part (.chain level depth left))
      (chain level.precedence operand fuel left ts) := by
  induction fuel generalizing ts left with
  | zero =>
    obtain rfl := List.length_eq_zero_iff.mp (Nat.le_zero.mp hfuel)
    refine .part (.current hts ?_)
    rw [current, T.ending]
    exact .done rfl
  | succ fuel ih =>
    refine .part (.current hts ?_)
    cases ts with
    | nil =>
      rw [current, T.ending]
      exact .done rfl
    | cons t ts =>
      rw [chain]
      dsimp only [current]
      cases t.kind with
      | operator op =>
        refine .ite (fun _ => .take hts ((hoperand (tail_suffix hts)).bind ?_)) fun _ => .done rfl
        rintro _ right rest rfl hrest
        have hshort : rest.length ≤ fuel := by
          have := hrest.length_le
          rw [List.length_cons] at hfuel
          omega
        exact ih (.binary op left right ⟨left.span.start, right.span.stop⟩)
          (hrest.trans (tail_suffix hts)) hshort
      | _ => exact .done rfl

theorem told_joined (hoperand : T.Told limits (Production.operand depth level) operand) :
    T.Told limits (Script.part (.joined level depth)) (joined level.precedence operand) := by
  intro ts hts
  refine Tells.part (p := .joined level depth) ((hoperand hts).bind ?_)
  rintro _ left rest rfl hrest
  exact tells_chain hoperand left (hrest.trans hts) (le_refl _)

theorem told_sum {factor : List Token → Except NotationError (Expr × List Token)}
    (hfactor : T.Told limits (Script.part (.factor depth)) factor) :
    T.Told limits (Script.part (.joined .sum depth)) (sum factor) :=
  @told_joined T limits depth .sum _ (@told_joined T limits depth .product _ hfactor)

end Chains

theorem told_factor : ∀ depth : Nat,
    T.Told limits (Script.part (.factor depth)) (factor limits T.last.position depth) := by
  intro depth
  induction depth with
  | zero =>
    intro ts hts
    refine Tells.part (p := .factor 0) (.current hts ?_)
    rw [← here_eq]
    exact .fail
  | succ depth ih =>
    intro ts hts
    refine Tells.part (p := .factor (depth + 1)) (.current hts ?_)
    cases ts with
    | nil =>
      rw [current, T.ending]
      exact .unexpected hts
    | cons t ts =>
      have htail := tail_suffix hts
      rw [factor.eq_def]
      dsimp only [current]
      cases t.kind with
      | operator op =>
        cases op with
        | sub =>
          refine .take hts ((ih htail).bind ?_)
          rintro _ e rest rfl -
          exact .done rfl
        | _ => exact .unexpected hts
      | opening =>
        refine .take hts ((told_sum ih htail).bind ?_)
        rintro _ e rest rfl hrest
        have hrest := hrest.trans htail
        refine .current hrest ?_
        cases rest with
        | nil =>
          rw [if_neg (by simp [current, T.ending])]
          exact .unexpected hrest
        | cons c rest => exact .ite (fun _ => .take hrest (.done rfl)) fun _ => .unexpected hrest
      | integer => exact tells_numbered hts
      | die => exact tells_dice hts
      | shorthand =>
        refine .take hts (Tells.lift.map ?_)
        rintro e _ _ ⟨rfl, rfl⟩
        exact rfl
      | _ => exact .unexpected hts

/-! ## Whole expressions -/

theorem place_body (T : Tape) : T.place T.body = 0 := Nat.sub_self _

/-- A list of tokens with an end mark, split at the first one. -/
theorem exists_tokens_eq {tokens : List Token} (h : ∃ t ∈ tokens, t.kind = .endMark) :
    ∃ T : Tape, T.tokens = tokens ∧ T.body = tokens.takeWhile (·.kind ≠ .endMark) ∧
      tokens.dropWhile (·.kind ≠ .endMark) = T.last :: T.behind := by
  obtain ⟨t, ht, hk⟩ := h
  cases hdrop : tokens.dropWhile (·.kind ≠ .endMark) with
  | nil => exact absurd hk (by simpa using List.dropWhile_eq_nil_iff.mp hdrop t ht)
  | cons last behind =>
    have hlast : last.kind = .endMark := by
      have hhead := List.head?_dropWhile_not (fun t : Token => decide (t.kind ≠ .endMark)) tokens
      rw [hdrop] at hhead
      simpa using hhead
    have hwords : ∀ u ∈ tokens.takeWhile (·.kind ≠ .endMark), u.kind ≠ .endMark := by
      intro u hu
      simpa using List.mem_takeWhile_imp hu
    refine ⟨⟨_, last, behind, hwords, hlast⟩, ?_, rfl, rfl⟩
    rw [Tape.tokens, ← hdrop, List.takeWhile_append_dropWhile]

/-- What reads all words up to the end mark gives its outcome. -/
theorem Tells.exists_runs {Left : α → α → List Token → Prop} {r : Except NotationError α}
    (h : T.Tells limits Left T.body s r) (hleft : ∀ {b a rest}, Left b a rest → b = a) :
    ∃ trail j, s.Runs limits T.tokens 0 trail r j := by
  rw [← T.place_body]
  cases r with
  | error e => exact h
  | ok b =>
    obtain ⟨a, rest, trail, hb, -, hrun⟩ := h
    obtain rfl := hleft hb
    exact ⟨trail, _, hrun⟩

end Tape

/-- **The reader is told by a script**: reading a list of tokens ends, and this is its outcome. -/
theorem exists_runs_whole (limits : Limits) (tokens : List Token) : ∃ trail j,
    (Script.whole limits (closed tokens)).Runs limits (closed tokens) 0 trail
      (Expr.ofTokens limits tokens) j := by
  obtain ⟨T, htokens, hbody, hbehind⟩ := Tape.exists_tokens_eq (exists_endMark_closed tokens)
  have hsuffix := List.suffix_refl T.body
  have htells : T.Tells limits (fun e a _ => e = a) T.body (Script.whole limits (closed tokens))
      (Expr.ofTokens limits tokens) := by
    rw [Expr.ofTokens, ← hbody, hbehind]
    refine .current hsuffix (.ite_iff (Tape.kind_current hsuffix) (fun hk => ?_) fun _ => ?_)
    · rw [List.isEmpty_iff.mp ((Tape.kind_current hsuffix).mp hk)]
      exact .fail
    · refine .ite (fun _ => ?_) fun _ => ?_
      · cases tokenBeyond? limits.maxTokens (closed tokens) with
        | some t => exact .fail
        | none => exact .fail
      · refine ((Tape.told_sum (Tape.told_factor nestingLimit)) hsuffix).bind ?_
        rintro _ e rest rfl hrest
        exact .current hrest (.ite_iff (Tape.kind_current hrest) (fun _ => .done rfl)
          fun _ => .unexpected hrest)
  rw [← htokens] at htells ⊢
  exact htells.exists_runs fun heq => heq

end Dicebox
