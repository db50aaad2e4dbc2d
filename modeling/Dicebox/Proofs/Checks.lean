import Dicebox.Console.Command
import Dicebox.Proofs.Grammar.Faults
import Dicebox.Proofs.Sessions

/-! # What a check finds out

A check answers with the canonical notation of a text, or with what is wrong with it and where. What
cannot be read is refused at a place of the text, so that the check has a verdict to give. There is
one exception: a number with too many digits stops the reader without a place, be it a number of the
text that cannot be read or a limit that cannot be shown with the fault. Then the check fails as well.

- `check_gives_a_verdict`: how a reading and a check of a text end.
- `parse_long_number`: a text that is one number with too many digits.
-/

namespace Dicebox

open Session

variable {σ : Type} {limits : Limits} {text : String}

/-! ## Verdicts -/

theorem result_check_of_ok {g : Engine σ} {e : Expr}
    (h : Expr.parse g.settings.limits text = .ok e) :
    (check text g).result = .ok ⟨text, .ok e.canonical⟩ := by
  rw [check, withSettings, h]
  rfl

theorem result_check_of_error {g : Engine σ} {err : NotationError} {p : Int}
    (h : Expr.parse g.settings.limits text = .error err) (hp : err.position? = some p) :
    (check text g).result = .ok ⟨text, .error err⟩ := by
  rw [check, withSettings, h]
  dsimp only
  rw [if_pos (by rw [hp]; rfl)]
  rfl

theorem NotationError.OfTooManyDigits.position?_eq_none {err : NotationError}
    (h : err.OfTooManyDigits limits text) : err.position? = none := by
  cases err with
  | fault f p => exact if_neg (by simp [h.1])
  | numberTooLong digits => rfl
  | _ => exact h.elim

theorem check_eq_fail {g : Engine σ} {err : NotationError}
    (h : Expr.parse g.settings.limits text = .error err) (hp : err.position? = none) :
    check text g = fail (.unreadable err) g := by
  rw [check, withSettings, h]
  dsimp only
  rw [if_neg (by rw [hp]; decide)]

/-- **A check gives a verdict.** A text is read, and the check answers with its canonical notation, or
it is refused with a complaint about a place of it, and the check answers with that. Only a number
with too many digits makes both of them fail with something else. -/
theorem check_gives_a_verdict (text : String) (g : Engine σ) :
    (∃ e, (parse text g).result = .ok e ∧
      (check text g).result = .ok ⟨text, .ok e.canonical⟩) ∨
    (∃ err p, (parse text g).result = .error (.unreadable err) ∧
      Console.complaint? (.unreadable err) = some (.expression err.message (some p)) ∧
        (check text g).result = .ok ⟨text, .error err⟩) ∨
    ∃ err, (parse text g).result = .error (.unreadable err) ∧
      Console.complaint? (.unreadable err) = some (.other err.message) ∧
        (check text g).result = .error (.unreadable err) ∧
          err.OfTooManyDigits g.settings.limits text := by
  have hmax : 0 ≤ g.settings.limits.maxTokens := by
    show (0 : Int) ≤ 1024
    decide
  cases hread : Expr.parse g.settings.limits text with
  | ok e =>
    refine .inl ⟨e, ?_, ?_⟩
    · rw [parse_eq_tell hread]
      rfl
    · exact result_check_of_ok hread
  | error err =>
    have hparse : (parse text g).result = .error (.unreadable err) := by
      rw [parse_eq_fail hread]
      rfl
    rcases parse_refusal hmax hread with ⟨p, hp⟩ | hlong
    · refine .inr (.inl ⟨err, p, hparse, ?_, ?_⟩)
      · rw [Console.complaint?, hp]
        rfl
      · exact result_check_of_error hread hp
    · have hnone := hlong.position?_eq_none
      refine .inr (.inr ⟨err, hparse, ?_, ?_, hlong⟩)
      · rw [Console.complaint?, hnone]
        rfl
      · rw [check_eq_fail hread hnone]
        rfl

theorem exists_read_of_check {g : Engine σ} {c : Check} (h : (check text g).result = .ok c)
    (hvalid : c.verdict.isOk = true) : ∃ e, Expr.parse g.settings.limits text = .ok e := by
  cases hread : Expr.parse g.settings.limits text with
  | ok e => exact ⟨e, rfl⟩
  | error err =>
    cases hp : err.position? with
    | none =>
      rw [check_eq_fail hread hp] at h
      cases h
    | some p =>
      rw [result_check_of_error hread hp] at h
      obtain rfl := Except.ok.inj h
      cases hvalid

/-! ## Long numbers -/

theorem parse_long_number {cs : List Char} (hmax : 2 ≤ limits.maxTokens)
    (hd : ∀ c ∈ cs, c.isDigit = true) (hlen : Numeral.digitLimit < cs.length) :
    Expr.parse limits (String.ofList cs) = .error (.numberTooLong cs.length) := by
  have hne : cs ≠ [] := List.ne_nil_of_length_pos (Nat.zero_lt_of_lt hlen)
  let t : Token := ⟨.integer, cs, 0⟩
  have hscanned : t.Scanned := ⟨fun _ => ⟨hne, hd⟩, fun hk => nomatch hk⟩
  have hlong : Read.number t = .error (.numberTooLong cs.length) :=
    Read.number_of_not_legible hscanned fun hl => Nat.not_le_of_lt hlen (hl rfl)
  have hsum : ∀ fin, Read.sum (Read.factor limits fin nestingLimit) [t] =
      .error (.numberTooLong cs.length) := by
    intro fin
    have hfactor : Read.factor limits fin nestingLimit [t] = .error (.numberTooLong cs.length) := by
      show (Read.number t >>= fun v => Except.ok (Expr.constant v ⟨t.position, t.stop⟩, [])) = _
      rw [hlong]
      rfl
    rw [Read.sum, Read.joined, Read.joined, hfactor]
    rfl
  have hshort : ¬ limits.maxTokens < ([t, Token.ending cs.length].length : Int) :=
    Int.not_lt.mpr hmax
  rw [Expr.parse, Token.scan_numeral hne hd]
  show (if limits.maxTokens < ([t, Token.ending cs.length].length : Int) then _
    else Read.sum (Read.factor limits cs.length nestingLimit) [t] >>= _) = _
  rw [if_neg hshort, hsum]
  rfl

/-- A number of 4301 digits gets no verdict, and no complaint about the expression. -/
theorem long_number_has_no_verdict :
    ¬ ∀ (g : Engine Replay) (text : String),
      (∃ c, (check text g).result = .ok c) ∧
        ∀ err, (parse text g).result = .error err →
          ∃ message p, Console.complaint? err = some (.expression message p) := by
  intro h
  have hdigits : ∀ c ∈ List.replicate 4301 '1', c.isDigit = true := by
    intro c hc
    rw [List.eq_of_mem_replicate hc]
    rfl
  have hlen : Numeral.digitLimit < (List.replicate 4301 '1').length := by
    rw [List.length_replicate]
    decide
  have hmax : 2 ≤ (desk "a" 2024).settings.limits.maxTokens := by decide
  have hread := parse_long_number hmax hdigits hlen
  obtain ⟨⟨c, hc⟩, -⟩ := h (desk "a" 2024) (String.ofList (List.replicate 4301 '1'))
  rw [check_eq_fail hread rfl] at hc
  cases hc

end Dicebox
