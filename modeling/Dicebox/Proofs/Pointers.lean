import Dicebox.Proofs.Respelling
import Dicebox.Proofs.Segmentation

/-! # Where a refusal points

A refusal of a text points into it: at the character that begins no word, or at one of the tokens,
where the end mark stands just past the last character. The caret below the text is therefore never
moved to bring it into range. A limit with too many digits to be shown is the one thing that leaves a
refusal without a place.

- `Token.position_of_scan`: tokens stand within their text.
- `NotationError.PointsInto`: a refusal that points at an offset of a text.
- `Refusals.pointsInto_or`, `scan_refusal_points_into`: refused tokens, and a text without tokens.
- `refusal_points_into_the_text`: any text.
- `unshown_limit_points_nowhere`: a limit that cannot be shown.
-/

namespace Dicebox

variable {limits : Limits} {text : String} {tokens : List Token} {err : NotationError} {p : Nat}

/-! ## Tokens within a text -/

/-- A token stands within its text, and the end mark at the end of it. -/
structure Token.Within (text : String) (t : Token) (p : Nat) : Prop where
  position : t.position = p
  le : p ≤ text.length
  ending : t.kind = .endMark → p = text.length

/-- **Tokens stand within their text.** -/
theorem Token.position_of_scan (h : Token.scan text = .ok tokens) {t : Token} (ht : t ∈ tokens) :
    ∃ p, t.Within text p := by
  obtain ⟨words, stop, rfl, -, -⟩ := Token.scanFrom_sound h
  obtain ⟨hpasses, hstop⟩ := Token.passes_of_scanFrom h
  rcases List.mem_append.mp ht with hword | hending
  · obtain ⟨before, after, rfl⟩ := List.append_of_mem hword
    obtain ⟨pre, post, htext, hposition, hstands, -, -⟩ := hpasses.split rfl
    refine ⟨pre.length, by rw [hposition, Int.zero_add], ?_, fun hk => absurd hk hstands.kind_ne⟩
    rw [← String.length_toList, htext, List.length_append]
    exact Nat.le_add_right _ _
  · obtain rfl := List.mem_singleton.mp hending
    refine ⟨text.length, ?_, le_refl _, fun _ => rfl⟩
    rw [← String.length_toList, ← Int.zero_add (text.toList.length : Int), ← hstop]
    rfl

/-! ## Refusals that point into a text -/

/-- What stands at the offset of a refusal: a character that begins no word, or a token. -/
inductive NotationError.Culprit (text : String) (p : Nat) : NotationError → Prop
  | character {c : Char} {pre rest : List Char} (split : text.toList = pre ++ c :: rest)
      (offset : pre.length = p) (blank : Text.isBlank c = false) (lexeme : lexeme? c rest = none) :
      Culprit text p (unexpectedCharacter c p)
  | token {f : Fault} {tokens : List Token} {t : Token} (scan : Token.scan text = .ok tokens)
      (mem : t ∈ tokens) (within : t.Within text p) : Culprit text p (fault f p)

/-- A refusal is an error of the grammar about an offset of a text, and the caret stands below that
offset exactly. -/
structure NotationError.PointsInto (err : NotationError) (text : String) (p : Nat) : Prop where
  position : err.position? = some (p : Int)
  le : p ≤ text.length
  grammatical : err.errorClass ∈ [ErrorClass.lexical, .structural, .conflict]
  culprit : err.Culprit text p
  caret : pointer text err.position? =
    text ++ "\n" ++ String.ofList (List.replicate p ' ') ++ "^"

theorem pointer_of_le (h : p ≤ text.length) :
    pointer text (some (p : Int)) = text ++ "\n" ++ String.ofList (List.replicate p ' ') ++ "^" := by
  have hmin : (min (p : Int) text.length).toNat = p := by omega
  rw [pointer, hmin]

namespace NotationError

theorem errorClass_of_showable {f : Fault} (h : f.showable = true) (p : Int) :
    (fault f p).errorClass ∈ [ErrorClass.lexical, .structural, .conflict] := by
  cases f with
  | conflict => simp [errorClass]
  | _ => simp [errorClass, h]

theorem Culprit.le {err : NotationError} (h : err.Culprit text p) : p ≤ text.length := by
  cases h with
  | character hsplit hoffset =>
    rw [← String.length_toList, hsplit, List.length_append, hoffset]
    exact Nat.le_add_right _ _
  | token _ _ hwithin => exact hwithin.le

/-- What stands at an offset and is told with its place is pointed at. -/
theorem Culprit.pointsInto {err : NotationError} (h : err.Culprit text p)
    (hposition : err.position? = some (p : Int))
    (hclass : err.errorClass ∈ [ErrorClass.lexical, .structural, .conflict]) :
    err.PointsInto text p :=
  ⟨hposition, h.le, hclass, h, by rw [hposition, pointer_of_le h.le]⟩

end NotationError

theorem scan_refusal_points_into (h : Token.scan text = .error err) :
    ∃ p, err.PointsInto text p := by
  rcases Token.exists_passes 0 text.toList with
    ⟨words, hpasses⟩ | ⟨pre, c, rest, words, htext, hpasses, hblank, hlex⟩
  · rw [Token.scan, Token.scanFrom_of_passes hpasses] at h
    cases h
  · rw [Token.scan, htext, hpasses.scans, Token.scanFrom_of_no_lexeme hblank hlex,
      Int.zero_add] at h
    obtain rfl := Except.error.inj h
    have hculprit : (NotationError.unexpectedCharacter c pre.length).Culprit text pre.length :=
      .character htext rfl hblank hlex
    exact ⟨pre.length, hculprit.pointsInto rfl (by simp [NotationError.errorClass])⟩

/-- Tokens that can be read are refused at one of them, or with a limit that cannot be shown. -/
theorem Refusals.pointsInto_or (hscan : Token.scan text = .ok tokens) (hlegible : AllLegible tokens)
    (h : Refusals (.between limits tokens tokens) err err) :
    (∃ p, err.PointsInto text p) ∨
      (¬ limits.Showable ∧ err.errorClass = .value ∧ err.position? = none) := by
  cases h with
  | tooLong hunread => exact absurd hlegible hunread
  | @fault f _ _ _ hpair hnumbers =>
    obtain ⟨i, t, -, ht, -, rfl, -⟩ := hpair
    have hmem := List.mem_of_getElem? ht
    obtain ⟨p, hwithin⟩ := Token.position_of_scan hscan hmem
    rw [hwithin.position]
    cases hshow : f.showable with
    | true =>
      have hculprit : (NotationError.fault f p).Culprit text p := .token hscan hmem hwithin
      exact .inl ⟨p, hculprit.pointsInto (if_pos hshow)
        (NotationError.errorClass_of_showable hshow p)⟩
    | false =>
      refine .inr ⟨fun hlimits => ?_, NotationError.errorClass_of_showable_eq_false hshow _,
        if_neg (by simp [hshow])⟩
      exact absurd (hshow.symm.trans (hnumbers.showable hlimits)) Bool.false_ne_true

/-- **A refusal points into the text.** A text with numbers that can be read is refused at one of its
characters or tokens, and the caret stands below that very place. With a limit that cannot be shown,
the refusal may be about that number and then points nowhere. -/
theorem refusal_points_into_the_text (hmax : 0 ≤ limits.maxTokens) (hlegible : LegibleText text)
    (h : Expr.parse limits text = .error err) :
    (∃ p, err.PointsInto text p) ∨
      (¬ limits.Showable ∧ err.errorClass = .value ∧ err.position? = none) := by
  cases hscan : Token.scan text with
  | error err' =>
    rw [Expr.parse, hscan] at h
    obtain rfl := Except.error.inj h
    exact .inl (scan_refusal_points_into hscan)
  | ok tokens =>
    -- the tokens are refused together with themselves, so at one index
    have hagrees := scan_agrees limits hmax hscan hscan (List.forall₂_same.mpr fun t _ => .refl t)
    rw [Expr.parse, hscan] at h
    rw [show Expr.ofTokens limits tokens = .error err from h] at hagrees
    exact hagrees.pointsInto_or hscan (hlegible tokens hscan)

/-- A die without sides is refused at the end of the text. -/
theorem missing_sides_point_into_the_text :
    0 ≤ ({} : Limits).maxTokens ∧ LegibleText "2d" ∧
      Expr.parse {} "2d" = .error (.fault .missingSides 2) ∧
        ∃ p, (NotationError.fault .missingSides 2).PointsInto "2d" p := by
  have hscan : Token.scan "2d" = .ok [⟨.integer, ['2'], 0⟩, ⟨.die, ['d'], 1⟩, Token.ending 2] :=
    Token.scan_dice ['2'] [] (by simp) (by simp)
  have hlegible : LegibleText "2d" := by
    intro tokens h
    obtain rfl := Except.ok.inj (hscan.symm.trans h)
    intro t ht
    fin_cases ht <;> intro _ <;> decide
  have hparse : Expr.parse {} "2d" = .error (.fault .missingSides 2) := by
    rw [Expr.parse, hscan]
    rfl
  refine ⟨by decide, hlegible, hparse, ?_⟩
  rcases refusal_points_into_the_text (by decide) hlegible hparse with hpoints | ⟨-, hvalue, -⟩
  · exact hpoints
  · cases hvalue

/-- A limit with one digit more than can be shown: a die that is out of range is refused, and the
refusal points nowhere. -/
theorem unshown_limit_points_nowhere :
    ¬ ∀ (limits : Limits) (text : String) (err : NotationError), 0 ≤ limits.maxTokens →
      LegibleText text → Expr.parse limits text = .error err → ∃ p, err.PointsInto text p := by
  intro h
  let limit : Int := (10 ^ Numeral.digitLimit : Nat)
  have hscan : Token.scan "d0" = .ok [⟨.die, ['d'], 0⟩, ⟨.integer, ['0'], 1⟩, Token.ending 2] :=
    Token.scan_dice [] ['0'] (by simp) (by simp)
  have hlegible : LegibleText "d0" := by
    intro tokens h
    obtain rfl := Except.ok.inj (hscan.symm.trans h)
    intro t ht
    fin_cases ht <;> intro _ <;> decide
  have hparse : Expr.parse { maxSides := limit } "d0" = .error (.fault (.dieSize limit 0) 1) := by
    rw [Expr.parse, hscan]
    rfl
  have hshow : (Fault.dieSize limit 0).showable = false := by
    rw [Fault.showable, Fault.numbers, List.all_cons, Numeral.showable_pow_digitLimit,
      Bool.false_and]
  have hmax : (0 : Int) ≤ 1024 := by decide
  obtain ⟨p, hpoints⟩ := h _ _ _ hmax hlegible hparse
  have hposition := hpoints.position
  rw [NotationError.position?, if_neg (by simp [hshow])] at hposition
  cases hposition

end Dicebox
