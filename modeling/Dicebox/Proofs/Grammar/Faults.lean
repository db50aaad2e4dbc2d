import Dicebox.Proofs.Grammar.Twins

/-! # Why texts are refused

A text is refused at a character that begins no word, or its tokens are refused at one of them. So a
refusal has a place, unless it is about a number with too many digits: one of the text that cannot
be read, or a limit that cannot be shown.

- `scan_agrees`: the tokens of two texts with the same words.
- `NotationError.OfTooManyDigits`: a refusal without a place.
- `parse_refusal`, `parse_error_placed`: whole texts.
-/

namespace Dicebox

theorem scanned_tokens {text : String} {tokens : List Token} (h : Token.scan text = .ok tokens) :
    closed tokens = tokens ∧ ∀ t ∈ tokens, t.Scanned := by
  obtain ⟨body, stop, rfl, hbody, -⟩ := Token.scanFrom_sound h
  refine ⟨closed_concat body stop, fun t ht => ?_⟩
  rcases List.mem_append.mp ht with ht | ht
  · exact (hbody t ht).1
  · obtain rfl := List.mem_singleton.mp ht
    exact Token.scanned_of_ne (by simp [Token.ending]) (by simp [Token.ending])

/-- **Texts with the same words are read alike**, or refused at the same word. -/
theorem scan_agrees {text text' : String} {tokens tokens' : List Token} (limits : Limits)
    (hmax : 0 ≤ limits.maxTokens) (h : Token.scan text = .ok tokens)
    (h' : Token.scan text' = .ok tokens')
    (hsame : List.Forall₂ Token.SameWord tokens tokens') :
    Agree (.between limits tokens tokens') (fun e e' => e'.unplaced = e.unplaced)
      (Expr.ofTokens limits tokens) (Expr.ofTokens limits tokens') := by
  refine @ofTokens_agrees (.between limits tokens tokens') _ _ hmax ?_
  rw [(scanned_tokens h).1, (scanned_tokens h').1]
  exact row_between (scanned_tokens h).2 hsame

theorem scanFrom_error {position : Int} {cs : List Char} {err : NotationError}
    (h : Token.scanFrom position cs = .error err) : ∃ c p, err = .unexpectedCharacter c p := by
  fun_induction Token.scanFrom position cs with
  | case1 p => cases h
  | case2 p c rest hb ih => exact ih h
  | case3 p c rest hb hlex =>
    obtain rfl := Except.error.inj h
    exact ⟨c, p, rfl⟩
  | case4 p c rest hb kind more hlex ih =>
    cases hrest : Token.scanFrom (p + 1 + more) (rest.drop more) with
    | ok us =>
      rw [hrest] at h
      cases h
    | error err' =>
      rw [hrest] at h
      obtain rfl := Except.error.inj h
      exact ih hrest

/-- No number of a text is too long to be read. -/
def LegibleText (text : String) : Prop := ∀ tokens, Token.scan text = .ok tokens → AllLegible tokens

/-- The limits that are shown with a fault have few enough digits. -/
def Limits.Showable (limits : Limits) : Prop :=
  Numeral.showable limits.maxDice = true ∧ Numeral.showable limits.maxSides = true

/-- A refusal is about a number with too many digits: one of the text that cannot be read, or a
limit that cannot be shown. -/
def NotationError.OfTooManyDigits (limits : Limits) (text : String) : NotationError → Prop
  | numberTooLong _ => ¬ LegibleText text
  | fault f _ => f.showable = false ∧ ¬ limits.Showable
  | unexpectedCharacter .. | noNumeral _ | unknownShorthand | noTokenBeyondLimit _ => False

theorem Fault.OfLimits.showable {limits : Limits} {f : Fault} (h : f.OfLimits limits)
    (hlimits : limits.Showable) : f.showable = true := by
  refine List.all_eq_true.mpr fun n hn => ?_
  rcases h n hn with hs | rfl | rfl
  · exact hs
  · exact hlimits.1
  · exact hlimits.2

/-- Tokens of a text are refused at one of them, or for a number with too many digits. -/
theorem Refusals.placed_or {limits : Limits} {text : String} {tokens : List Token}
    {err : NotationError} (hscan : Token.scan text = .ok tokens)
    (h : Refusals (.between limits tokens tokens) err err) :
    (∃ p, err.position? = some p) ∨ err.OfTooManyDigits limits text := by
  cases h with
  | tooLong hunread => exact .inr fun hlegible => hunread (hlegible _ hscan)
  | @fault f _ p _ _ hnumbers =>
    cases hshow : f.showable with
    | true => exact .inl ⟨p, if_pos hshow⟩
    | false =>
      refine .inr ⟨hshow, fun hlimits => ?_⟩
      exact absurd (hshow.symm.trans (hnumbers.showable hlimits)) Bool.false_ne_true

/-- **A text is refused at a place**, unless it is for a number with too many digits. -/
theorem parse_refusal {limits : Limits} {text : String} {err : NotationError}
    (hmax : 0 ≤ limits.maxTokens) (h : Expr.parse limits text = .error err) :
    (∃ p, err.position? = some p) ∨ err.OfTooManyDigits limits text := by
  cases hscan : Token.scan text with
  | error err' =>
    obtain ⟨c, p, rfl⟩ := scanFrom_error hscan
    rw [Expr.parse, hscan] at h
    obtain rfl := Except.error.inj h
    exact .inl ⟨p, rfl⟩
  | ok tokens =>
    -- the tokens have the same words as themselves
    have hagrees := scan_agrees limits hmax hscan hscan (List.forall₂_same.mpr fun t _ => .refl t)
    rw [Expr.parse, hscan] at h
    rw [show Expr.ofTokens limits tokens = .error err from h] at hagrees
    exact hagrees.placed_or hscan

theorem parse_error_placed {limits : Limits} {text : String} {err : NotationError}
    (hmax : 0 ≤ limits.maxTokens) (hlimits : limits.Showable) (hlegible : LegibleText text)
    (h : Expr.parse limits text = .error err) : ∃ p, err.position? = some p := by
  refine (parse_refusal hmax h).resolve_right fun hlong => ?_
  cases err with
  | numberTooLong digits => exact hlong hlegible
  | fault f p => exact hlong.2 hlimits
  | _ => exact hlong

end Dicebox
