import Dicebox.Proofs.Cursor.Tape
import Dicebox.Proofs.Grammar.Faults

/-! # How the reading of tokens ends

Any list of tokens, in any order and with end marks anywhere, is read to an end: the cursor sweeps
over the tokens in front of the first end mark, and what comes out is an expression or a fault at one
of the tokens. All can be shown that is said about the fault, unless a limit has too many digits for
that, or an opening bracket stands so far out that its offset has.

- `NotationError.offset?`, `Script.Refuses`: the offset that is shown with a refusal is that of an
  opening bracket of the list.
- `exists_fault_of_ofTokens_error`: a refusal is a fault at one of the tokens.
- `tokens_are_swept_to_an_end`: any list of tokens.
- `unshown_limit_is_not_told`: a limit that cannot be shown.
-/

namespace Dicebox

open Read

variable {α β : Type} {limits : Limits} {tokens : List Token}

/-! ## Offsets that are shown -/

/-- The offset of a bracket that is shown with a refusal, its own place aside. -/
def NotationError.offset? : NotationError → Option Int
  | fault f _ => f.offset?
  | _ => none

/-- What refuses tokens shows no offset of a bracket. -/
def Plain (r : Except NotationError α) : Prop := ∀ e, r = .error e → e.offset? = none

namespace Plain

theorem ok (a : α) : Plain (.ok a) := fun _ h => nomatch h

theorem error {e : NotationError} (h : e.offset? = none) : Plain (.error e : Except _ α) := by
  rintro _ ⟨⟩
  exact h

theorem bind {r : Except NotationError α} {f : α → Except NotationError β} (h : Plain r)
    (hf : ∀ a, Plain (f a)) : Plain (r >>= f) := by
  intro e he
  rcases bind_eq_error.mp he with he | ⟨a, -, he⟩
  · exact h e he
  · exact hf a e he

theorem ite {c : Prop} [Decidable c] {r r' : Except NotationError α} (h : Plain r)
    (h' : Plain r') : Plain (if c then r else r') := by
  split
  · exact h
  · exact h'

theorem number (t : Token) : Plain (number t) := by
  rw [Read.number]
  split
  · exact ok _
  · exact error rfl
  · exact error rfl

theorem face (use : FaceUse) (sides : Int) (t : Token) : Plain (face use sides t) :=
  (number t).bind fun n => ite (ok n) (error rfl)

theorem selected (keyword t : Token) : Plain (selected keyword t) :=
  (number t).bind fun n => ite (error rfl) (ok n)

theorem diceCount (limits : Limits) (t : Token) : Plain (diceCount limits t) :=
  (number t).bind fun n => ite (ok n) (error rfl)

theorem shorthand (t : Token) : Plain (shorthand t) := by
  rw [Read.shorthand]
  split
  · exact ok _
  · exact error rfl

theorem forM {f : α → Except NotationError Unit} (h : ∀ a, Plain (f a)) (as : List α) :
    Plain (as.forM f) := by
  induction as with
  | nil => exact ok ()
  | cons a as ih => exact (h a).bind fun _ => ih

theorem checkConflicts (ms : List (Token × Modifier)) : Plain (checkConflicts ms) := by
  refine forM (fun family => ?_) _
  split
  · exact error rfl
  · exact ok ()

end Plain

/-- An offset that is shown with a refusal is that of an opening bracket of the list. -/
def NotationError.Bracketed (tokens : List Token) (e : NotationError) : Prop :=
  ∀ p ∈ e.offset?, ∃ t ∈ tokens, t.kind = .opening ∧ t.position = p

/-- The refusals of a script itself, whatever the parts are that it calls for. -/
def Script.Refuses (tokens : List Token) : Script α → Prop
  | done _ => True
  | fail e => e.Bracketed tokens
  | look _ next | advance next => ∀ t ∈ tokens, (next t).Refuses tokens
  | call _ next => ∀ a, (next a).Refuses tokens

namespace Script.Refuses

variable {s : Script α} {f : α → Script β}

theorem bind (h : s.Refuses tokens) (hf : ∀ a, (f a).Refuses tokens) :
    (s >>= f).Refuses tokens := by
  induction s with
  | done a => exact hf a
  | fail e => exact h
  | look _ _ ih | advance _ ih => exact fun t ht => ih t (h t ht)
  | call _ _ ih => exact fun a => ih a (h a)

theorem plain {e : NotationError} (h : e.offset? = none) :
    (Script.fail e : Script α).Refuses tokens := by
  intro p hp
  rw [h] at hp
  cases hp

theorem lift {r : Except NotationError α} (h : Plain r) : (Script.lift r).Refuses tokens := by
  cases r with
  | ok a => trivial
  | error e => exact plain (h e rfl)

theorem done (a : α) : (Script.done a).Refuses tokens := trivial

theorem part (p : Production) : (Script.part p).Refuses tokens := fun _ => trivial

theorem ite {c : Prop} [Decidable c] {s' : Script α} (h : s.Refuses tokens)
    (h' : s'.Refuses tokens) : (if c then s else s').Refuses tokens := by
  split
  · exact h
  · exact h'

theorem token {glance : Glance} {f : Token → Script β} (h : ∀ t ∈ tokens, (f t).Refuses tokens) :
    (Script.token glance >>= f).Refuses tokens := h

theorem take {f : Token → Script β} (h : ∀ t ∈ tokens, (f t).Refuses tokens) :
    (Script.take >>= f).Refuses tokens := h

theorem unexpected {expected : Expected}
    (h : ∀ p, expected = .closing p → ∃ t ∈ tokens, t.kind = .opening ∧ t.position = p) :
    (Script.unexpected expected : Script α).Refuses tokens := by
  refine token fun t _ => ?_
  cases expected with
  | closing p =>
    refine ite ?_ ?_ <;>
    · intro q hq
      obtain rfl := Option.some.inj hq
      exact h p rfl
  | _ => exact ite (plain rfl) (plain rfl)

theorem optional {read : Token → Except NotationError Int} (hread : ∀ t, Plain (read t))
    (absent : Int) : (Production.optional read absent).Refuses tokens :=
  token fun _ _ => ite (take fun t _ => lift (hread t)) (done absent)

theorem threshold (sides : Int) : (Production.threshold sides).Refuses tokens :=
  token fun _ _ => ite (take fun t _ => lift (.face _ sides t)) (unexpected fun _ h => nomatch h)

theorem modifier? {sides : Int} {keyword : Token} {m : Script Modifier}
    (h : Production.modifier? limits sides keyword = some m) : m.Refuses tokens := by
  have hreroll : ∀ once, (Production.reroll limits sides keyword once).Refuses tokens :=
    fun once => (part _).bind fun _ => ite (plain rfl) (done _)
  rw [Production.modifier?] at h
  split at h
  · obtain rfl := Option.some.inj h
    exact (optional (.selected keyword) 1).bind fun n => done _
  · obtain rfl := Option.some.inj h
    exact (optional (.face _ sides) sides).bind fun n => done _
  · obtain rfl := Option.some.inj h
    exact hreroll false
  · obtain rfl := Option.some.inj h
    exact hreroll true
  · obtain rfl := Option.some.inj h
    exact (threshold sides).bind fun n => done _
  · obtain rfl := Option.some.inj h
    exact (threshold sides).bind fun n => done _
  · cases h

theorem dice (limits : Limits) (start count : Int) :
    (Production.dice limits start count).Refuses tokens := by
  refine take fun _ _ => token fun _ _ => ite (take fun t _ => ?_) (plain rfl)
  refine (lift (.number t)).bind fun sides => ite ?_ (plain rfl)
  refine (part (.modifiers sides)).bind fun ms => (lift (.checkConflicts ms)).bind fun _ => ?_
  exact token fun _ _ => done _

theorem numbered (limits : Limits) : (Production.numbered limits).Refuses tokens := by
  refine token fun _ _ => ite (take fun t _ => ?_) (take fun t _ => ?_)
  · exact (lift (.diceCount limits t)).bind fun count => dice limits t.position count
  · exact (lift (.number t)).bind fun v => done _

theorem operand (depth : Nat) (level : Level) :
    (Production.operand depth level).Refuses tokens := by
  cases level <;> exact part _

theorem body (limits : Limits) (p : Production) : (p.body limits).Refuses tokens := by
  cases p with
  | joined level depth => exact (operand depth level).bind fun _ => part _
  | chain level depth left =>
    refine token fun t _ => ?_
    cases t.kind with
    | operator op =>
      exact ite (take fun _ _ => (operand depth level).bind fun _ => part _) (done left)
    | _ => exact done left
  | factor depth =>
    cases depth with
    | zero => exact token fun _ _ => plain rfl
    | succ depth =>
      refine token fun t ht => ?_
      have hother : (Script.unexpected .primary : Script Expr).Refuses tokens :=
        unexpected fun _ h => nomatch h
      cases hk : t.kind with
      | operator op =>
        cases op with
        | sub => exact take fun _ _ => (part (.factor depth)).bind fun _ => done _
        | _ => exact hother
      | opening =>
        refine take fun _ _ => (part (.joined .sum depth)).bind fun e => token fun _ _ => ?_
        refine ite (take fun _ _ => done _) (unexpected fun p hp => ?_)
        exact ⟨t, ht, hk, Expected.closing.inj hp⟩
      | integer => exact numbered limits
      | die => exact dice limits t.position 1
      | shorthand => exact take fun t _ => lift (.shorthand t)
      | _ => exact hother
  | modifiers sides =>
    refine token fun keyword _ => ?_
    split
    · exact done _
    · next m hm =>
      exact take fun _ _ => (modifier? hm).bind fun _ => (part (.modifiers sides)).bind fun _ => done _
  | faces sides =>
    refine token fun _ _ => ite (take fun t _ => ?_) (unexpected fun _ h => nomatch h)
    refine (lift (.face _ sides t)).bind fun v => token fun _ _ => ite ?_ (done _)
    exact take fun _ _ => (part (.faces sides)).bind fun _ => done _

theorem whole (limits : Limits) : (Script.whole limits tokens).Refuses tokens := by
  refine token fun _ _ => ite (plain rfl) (ite ?_ ?_)
  · cases tokenBeyond? limits.maxTokens tokens <;> exact plain rfl
  · refine (part (.joined .sum nestingLimit)).bind fun _ => token fun _ _ => ?_
    exact ite (done _) (unexpected fun _ h => nomatch h)

/-- A run is refused by its script, or by that of a part. -/
theorem of_runs {out : Except NotationError α} {i j : Nat} {trail : List Visit}
    (h : s.Refuses tokens) (hrun : s.Runs limits tokens i trail out j) :
    ∀ e, out = .error e → e.Bracketed tokens := by
  induction hrun with
  | done => exact fun e he => nomatch he
  | fail =>
    rintro e ⟨⟩
    exact h
  | look _ there _ ih | take there _ _ ih | stay there _ _ ih =>
    exact ih (h _ (List.mem_of_getElem? there))
  | call _ _ _ ih => exact ih (h _)
  | refused _ ih =>
    rintro e ⟨⟩
    exact ih (body limits _) _ rfl

end Script.Refuses

/-! ## Whole lists -/

theorem mem_closed {t : Token} (h : t ∈ closed tokens) : t ∈ tokens ∨ t.kind = .endMark := by
  rw [closed] at h
  split at h
  · obtain rfl := List.mem_singleton.mp h
    exact .inr rfl
  · split at h
    · exact .inl h
    · refine (List.mem_append.mp h).imp_right fun h => ?_
      obtain rfl := List.mem_singleton.mp h
      rfl

/-- The limits, and the offsets of the brackets among these tokens, have few enough digits to be
shown. -/
structure Limits.ShowableWith (limits : Limits) (tokens : List Token) : Prop where
  limits : limits.Showable
  brackets : ∀ t ∈ tokens, t.kind = .opening → Numeral.showable t.position = true

/-- Tokens whose numbers can be read are refused at one of them, and all can be shown that is said. -/
theorem exists_fault_of_ofTokens_error {err : NotationError} (hmax : 0 ≤ limits.maxTokens)
    (hscanned : ∀ t ∈ tokens, t.Scanned) (hlegible : AllLegible tokens)
    (h : Expr.ofTokens limits tokens = .error err) :
    ∃ f, ∃ t ∈ closed tokens, err = .fault f t.position ∧
      (limits.ShowableWith tokens → f.tellable = true) := by
  have hends : ∀ t : Token, t.kind = .endMark → t.Scanned ∧ t.Legible := fun t hk =>
    ⟨Token.scanned_of_ne (by simp [hk]) (by simp [hk]), Token.legible_of_ne (by simp [hk])⟩
  have hall : ∀ t ∈ closed tokens, t.Scanned ∧ t.Legible := fun t ht =>
    (mem_closed ht).elim (fun ht => ⟨hscanned t ht, hlegible t ht⟩) (hends t)
  -- the tokens have the same words as themselves
  have hrefused : Refusals (.between limits (closed tokens) (closed tokens)) err err := by
    have hrow : Row (.between limits (closed tokens) (closed tokens)) (closed tokens)
        (closed tokens) :=
      row_between (fun t ht => (hall t ht).1) (List.forall₂_same.mpr fun t _ => .refl t)
    have hagrees : Agree _ _ (Expr.ofTokens limits tokens) (Expr.ofTokens limits tokens) :=
      ofTokens_agrees hmax hrow
    rwa [h] at hagrees
  obtain ⟨trail, j, hrun⟩ := exists_runs_whole limits tokens
  have hbracketed := (Script.Refuses.whole limits).of_runs hrun err h
  cases hrefused with
  | tooLong hunread => exact absurd (fun t ht => (hall t ht).2) hunread
  | @fault f _ _ _ hpair hnumbers =>
    obtain ⟨i, t, -, ht, -, rfl, -⟩ := hpair
    refine ⟨f, t, List.mem_of_getElem? ht, rfl, fun hshow => ?_⟩
    rw [Fault.tellable, hnumbers.showable hshow.limits, Bool.true_and, Option.all_eq_true]
    intro p hp
    obtain ⟨u, hu, hk, rfl⟩ := hbracketed p hp
    exact hshow.brackets u ((mem_closed hu).resolve_right (by simp [hk])) hk

/-- **Any list of tokens is swept to an end.** Reading it has one run, which gives an expression or a
fault at one of the tokens. The cursor never moves back, never leaves the list and never passes an end
mark, and it takes the tokens in front of where it ends once each and in order. All can be shown that
is said about a fault, unless a limit or the offset of a bracket has too many digits for that. -/
theorem tokens_are_swept_to_an_end (hmax : 0 ≤ limits.maxTokens)
    (hscanned : ∀ t ∈ tokens, t.Scanned) (hlegible : AllLegible tokens) :
    ∃ trail j, Sweeps (closed tokens) 0 j trail ∧
      (∀ v ∈ trail, v.cursor < (closed tokens).length) ∧ takenOn trail = List.range j ∧
      (∀ k t, (closed tokens)[k]? = some t → t.kind = .endMark → j ≤ k) ∧
      (∀ trail' out j', (Script.whole limits (closed tokens)).Runs limits (closed tokens) 0 trail' out
        j' ↔ trail' = trail ∧ out = Expr.ofTokens limits tokens ∧ j' = j) ∧
      ((∃ e, Expr.ofTokens limits tokens = .ok e) ∨
        ∃ f, ∃ t ∈ closed tokens, Expr.ofTokens limits tokens = .error (.fault f t.position) ∧
          (limits.ShowableWith tokens → f.tellable = true)) := by
  obtain ⟨trail, j, hrun⟩ := exists_runs_whole limits tokens
  have hsweeps := hrun.sweeps
  have hends : ∀ k t, (closed tokens)[k]? = some t → t.kind = .endMark → j ≤ k :=
    fun k t ht hk => hsweeps.le_of_endMark ht hk (Nat.zero_le k)
  refine ⟨trail, j, hsweeps, ?_, ?_, hends, fun trail' out j' => ⟨fun h => h.unique hrun, ?_⟩, ?_⟩
  · obtain ⟨t, ht, hk⟩ := exists_endMark_closed tokens
    obtain ⟨k, hlt, rfl⟩ := List.getElem_of_mem ht
    intro v hv
    have := (hsweeps.between v hv).2
    have := hends k _ (List.getElem?_eq_getElem hlt) hk
    omega
  · rw [hsweeps.taken, Nat.sub_zero, List.range_eq_range']
  · rintro ⟨rfl, rfl, rfl⟩
    exact hrun
  · cases h : Expr.ofTokens limits tokens with
    | ok e => exact .inl ⟨e, rfl⟩
    | error err =>
      obtain ⟨f, t, ht, rfl, htellable⟩ :=
        exists_fault_of_ofTokens_error hmax hscanned hlegible h
      exact .inr ⟨f, t, ht, rfl, htellable⟩

/-- A list with an end mark in the middle: what stands in front of it is read, and nothing behind. -/
theorem words_behind_the_end_are_not_taken :
    let tokens : List Token :=
      [⟨.die, ['d'], 0⟩, ⟨.integer, ['6'], 1⟩, .ending 2, ⟨.comma, [','], 0⟩, ⟨.die, ['d'], 5⟩]
    0 ≤ ({} : Limits).maxTokens ∧ (∀ t ∈ tokens, t.Scanned) ∧ AllLegible tokens ∧
      ∃ trail j, (Script.whole {} (closed tokens)).Runs {} (closed tokens) 0 trail
        (.ok (.dice ⟨1, 6, []⟩ ⟨0, 2⟩)) j ∧ takenOn trail = List.range j ∧ j ≤ 2 := by
  intro tokens
  have hread : Expr.ofTokens {} tokens = .ok (.dice ⟨1, 6, []⟩ ⟨0, 2⟩) := by decide +kernel
  have hscanned : ∀ t ∈ tokens, t.Scanned := by
    simp only [tokens, List.forall_mem_cons]
    exact ⟨⟨nofun, nofun⟩, ⟨by simp, nofun⟩, ⟨nofun, nofun⟩, ⟨nofun, nofun⟩, ⟨nofun, nofun⟩,
      List.forall_mem_nil _⟩
  have hlegible : AllLegible tokens := by
    intro t ht
    simp only [tokens, List.mem_cons, List.not_mem_nil, or_false] at ht
    rcases ht with rfl | rfl | rfl | rfl | rfl <;> intro _ <;> decide
  obtain ⟨trail, j, -, -, htaken, hends, hruns, -⟩ :=
    tokens_are_swept_to_an_end (by decide : 0 ≤ ({} : Limits).maxTokens) hscanned hlegible
  exact ⟨by decide, hscanned, hlegible, trail, j, (hruns _ _ _).mpr ⟨rfl, hread.symm, rfl⟩, htaken,
    hends 2 _ rfl rfl⟩

/-- A limit with one digit more than can be shown: a die that is out of range is refused, and the
fault cannot be told. -/
theorem unshown_limit_is_not_told :
    ¬ ∀ (limits : Limits) (tokens : List Token), 0 ≤ limits.maxTokens →
      (∀ t ∈ tokens, t.Scanned) → AllLegible tokens →
      (∃ e, Expr.ofTokens limits tokens = .ok e) ∨
        ∃ f p, Expr.ofTokens limits tokens = .error (.fault f p) ∧ f.tellable = true := by
  intro h
  let limit : Int := (10 ^ Numeral.digitLimit : Nat)
  let tokens : List Token := [⟨.die, ['d'], 0⟩, ⟨.integer, ['0'], 1⟩]
  have hscanned : ∀ t ∈ tokens, t.Scanned := by
    simp only [tokens, List.forall_mem_cons]
    exact ⟨⟨nofun, nofun⟩, ⟨by simp, nofun⟩, List.forall_mem_nil _⟩
  have hlegible : AllLegible tokens := by
    intro t ht
    simp only [tokens, List.mem_cons, List.not_mem_nil, or_false] at ht
    rcases ht with rfl | rfl <;> intro _ <;> decide
  have hmax : (0 : Int) ≤ 1024 := by decide
  have hread : Expr.ofTokens { maxSides := limit } tokens = .error (.fault (.dieSize limit 0) 1) := rfl
  rcases h { maxSides := limit } tokens hmax hscanned hlegible with ⟨e, he⟩ | ⟨f, p, hf, htellable⟩
  · rw [hread] at he
    cases he
  · rw [hread] at hf
    obtain ⟨rfl, rfl⟩ := NotationError.fault.inj (Except.error.inj hf)
    rw [Fault.tellable, Fault.showable, Fault.numbers, List.all_cons,
      Numeral.showable_pow_digitLimit, Bool.false_and, Bool.false_and] at htellable
    cases htellable

end Dicebox
