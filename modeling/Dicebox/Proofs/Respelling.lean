import Dicebox.Proofs.Grammar.Faults
import Dicebox.Proofs.Segments

/-! # Case and spacing

A text may be spelled in another way: with its letters in another case, and with further blanks
around its words. The tokens are then those of the same words, at other places. And two texts with
the same words are read as trees that differ in their spans only, or they are refused with errors of
one class, at words of one index. Where a limit has too many digits to be shown, the errors may be
plain ones that have no place.

- `Respells`: another way to spell a text, and `Respells.passes` for its tokens.
- `NotationError.errorClass`: what a refusal is raised as.
- `RefusedAlike`, `ReadAlike`, `readAlike_of_sameWords`: two lists of tokens with the same words.
- `case_and_spacing_carry_no_meaning`: all of this together.
- `unshown_limit_has_no_place`: a limit that cannot be shown.
-/

namespace Dicebox

/-! ## Another spelling -/

/-- A text and another one that spells the words of the first in any case, and has all of its blanks
around them and any number of others. -/
inductive Respells : List Token → List Char → List Char → Prop
  | ending {stop : Int} : Respells [Token.ending stop] [] []
  | insert {tokens : List Token} {b : Char} {cs ds : List Char} :
      Text.isBlank b = true → Respells tokens cs ds → Respells tokens cs (b :: ds)
  | keep {tokens : List Token} {b : Char} {cs ds : List Char} :
      Text.isBlank b = true → Respells tokens cs ds → Respells tokens (b :: cs) (b :: ds)
  | word {tokens : List Token} {t : Token} {word cs ds : List Char} :
      word.map Char.toLower = t.lower → Respells tokens cs ds →
        Respells (t :: tokens) (t.text ++ cs) (word ++ ds)

theorem Respells.ne_nil {tokens : List Token} {cs ds : List Char} (h : Respells tokens cs ds) :
    tokens ≠ [] := by
  induction h with
  | ending => exact List.cons_ne_nil _ _
  | insert _ _ ih => exact ih
  | keep _ _ ih => exact ih
  | word => exact List.cons_ne_nil _ _

theorem Token.Passes.uncons {p : Int} {t : Token} {cs rest : List Char} {words : List Token}
    (h : Token.Passes p (t.text ++ cs) (t :: words) rest) :
    t.StandsBefore (cs ++ rest) ∧ Token.Passes t.stop cs words rest := by
  generalize hds : t.text ++ cs = ds at h
  generalize hts : t :: words = ts at h
  cases h with
  | nil => cases hts
  | @blank _ b _ _ _ hb h =>
    subst hts
    obtain ⟨-, -, -, -, ⟨c, more, htext, hc, -⟩, -⟩ := h.split (List.nil_append _).symm
    rw [htext] at hds
    obtain ⟨rfl, -⟩ := List.cons.inj hds
    exact absurd (hc.symm.trans hb) Bool.false_ne_true
  | @word _ kind c more cs' _ _ hb hlex h =>
    obtain ⟨rfl, rfl⟩ := List.cons.inj hts
    obtain rfl : cs = cs' := List.append_cancel_left (List.cons.inj hds).2
    refine ⟨⟨c, more, rfl, hb, hlex⟩, ?_⟩
    rw [Token.stop_eq]
    exact h

section StandsBefore

variable {t : Token} {word cs ds rest : List Char}

/-- A word in another case, in front of a text that is cut short. -/
theorem Token.StandsBefore.respelled (h : t.StandsBefore cs)
    (hword : word.map Char.toLower = t.lower) (hrest : CutsShort cs ds) (p : Int) :
    (⟨t.kind, word, p⟩ : Token).StandsBefore ds := by
  obtain ⟨c, more, htext, hb, hlex⟩ := h
  rw [Token.lower, htext] at hword
  cases word with
  | nil => cases hword
  | cons c' more' =>
    refine ⟨c', more', rfl, ?_, lexeme?_cutShort hword hrest hlex⟩
    rw [← isBlank_toLower, (List.cons.inj hword).1, isBlank_toLower, hb]

theorem Token.StandsBefore.cutsShort (h : t.StandsBefore rest)
    (hword : word.map Char.toLower = t.lower) (hrest : CutsShort cs ds) :
    CutsShort (t.text ++ cs) (word ++ ds) := by
  obtain ⟨c, more, htext, -, hlex⟩ := h
  rw [Token.lower, htext] at hword
  rw [htext]
  cases word with
  | nil => cases hword
  | cons c' more' => exact .word hword (toLower_ne_i_of_lexeme? hlex) hrest

end StandsBefore

/-- **The words of a text are the words of it in another spelling.** -/
theorem Respells.passes {tokens : List Token} {cs ds : List Char} (h : Respells tokens cs ds) :
    ∀ {p : Int} (q : Int) {words : List Token} {stop : Int},
      tokens = words ++ [Token.ending stop] → Token.Passes p cs words [] →
        CutsShort cs ds ∧ ∃ words', Token.Passes q ds words' [] ∧
          List.Forall₂ Token.SameWord words words' := by
  induction h with
  | ending =>
    intro p q words stop hwords _
    obtain ⟨rfl, -⟩ := List.append_inj' ((List.nil_append _).trans hwords) rfl
    exact ⟨.nil, [], .nil, .nil⟩
  | insert hb _ ih =>
    intro p q words stop hwords hp
    obtain ⟨-, words', hq, hsame⟩ := ih (q + 1) hwords hp
    exact ⟨.blank hb, words', .blank hb hq, hsame⟩
  | keep hb _ ih =>
    intro p q words stop hwords hp
    cases hp with
    | blank _ hp =>
      obtain ⟨-, words', hq, hsame⟩ := ih (q + 1) hwords hp
      exact ⟨.blank hb, words', .blank hb hq, hsame⟩
    | word hb' _ _ => exact absurd (hb'.symm.trans hb) Bool.false_ne_true
  | @word tokens t word cs ds hword h ih =>
    intro p q words stop hwords hp
    cases words with
    | nil => exact absurd (List.cons.inj hwords).2 h.ne_nil
    | cons u words =>
      obtain ⟨rfl, rfl⟩ := List.cons.inj hwords
      obtain ⟨hstands, hp⟩ := hp.uncons
      rw [List.append_nil] at hstands
      let t' : Token := ⟨t.kind, word, q⟩
      obtain ⟨hcut, words', hq, hsame⟩ := ih t'.stop rfl hp
      have hstands' : t'.StandsBefore ds := hstands.respelled hword hcut q
      rw [← List.append_nil ds] at hstands'
      exact ⟨hstands.cutsShort hword hcut, t' :: words', .step hstands' hq,
        .cons ⟨rfl, hword⟩ hsame⟩

/-- **A text in another spelling has the same words.** -/
theorem Respells.scan {text text' : String} {tokens : List Token} (h : Token.scan text = .ok tokens)
    (hspelled : Respells tokens text.toList text'.toList) :
    ∃ tokens', Token.scan text' = .ok tokens' ∧ List.Forall₂ Token.SameWord tokens tokens' := by
  obtain ⟨words, stop, rfl, -, -⟩ := Token.scanFrom_sound h
  obtain ⟨-, words', hpasses, hsame⟩ := hspelled.passes 0 rfl (Token.passes_of_scanFrom h).1
  exact ⟨_, Token.scanFrom_of_passes hpasses, List.rel_append hsame (.cons ⟨rfl, rfl⟩ .nil)⟩

/-! ## What a refusal is raised as -/

/-- The classes of errors: about a character, about a word, about two modifiers that do not go
together, and errors of other sources, about a value, a missing entry or an index. -/
inductive ErrorClass where
  | lexical
  | structural
  | conflict
  | value
  | key
  | index
  deriving DecidableEq, Repr

/-- The class of error that a refusal is raised as. A fault that cannot be shown is raised as an
error about the value that has too many digits. -/
def NotationError.errorClass : NotationError → ErrorClass
  | unexpectedCharacter _ _ => .lexical
  | fault (.conflict ..) _ => .conflict
  | fault f _ => if f.showable then .structural else .value
  | numberTooLong _ | noNumeral _ => .value
  | unknownShorthand => .key
  | noTokenBeyondLimit limit => if Numeral.showable limit then .index else .value

theorem NotationError.errorClass_unplaced (f : Fault) (p q : Int) :
    (fault f.unplaced p).errorClass = (fault f q).errorClass := by
  cases f <;> rfl

theorem NotationError.errorClass_of_showable_eq_false {f : Fault} (h : f.showable = false)
    (p : Int) : (fault f p).errorClass = .value := by
  cases f with
  | diceCount | dieSize | noFace | rerollsEveryFace =>
    rw [errorClass, h]
    · rfl
    · simp
  | _ => cases h

/-! ## Two lists of tokens -/

/-- Errors of one class at the tokens of one index. Where a limit has too many digits to be shown,
both errors may be about that number, and have no place. -/
def RefusedAlike (limits : Limits) (tokens tokens' : List Token) (err err' : NotationError) :
    Prop :=
  (err.errorClass = err'.errorClass ∧ ∃ (i : Nat) (t t' : Token),
    tokens[i]? = some t ∧ tokens'[i]? = some t' ∧
      err.position? = some t.position ∧ err'.position? = some t'.position) ∨
  (¬ limits.Showable ∧ err.errorClass = .value ∧ err'.errorClass = .value ∧
    err.position? = none ∧ err'.position? = none)

/-- Two lists of tokens are read as trees that differ in their spans only, or both are refused. -/
def ReadAlike (limits : Limits) (tokens tokens' : List Token) : Prop :=
  match Expr.ofTokens limits tokens, Expr.ofTokens limits tokens' with
  | .ok e, .ok e' => e.same e' = true
  | .error err, .error err' => RefusedAlike limits tokens tokens' err err'
  | .ok _, .error _ | .error _, .ok _ => False

theorem refusedAlike_of_refusals {limits : Limits} {tokens tokens' : List Token}
    {err err' : NotationError} (hlegible : AllLegible tokens)
    (h : Refusals (.between limits tokens tokens') err err') :
    RefusedAlike limits tokens tokens' err err' := by
  cases h with
  | tooLong hunread => exact absurd hlegible hunread
  | @fault f f' _ _ hpair hnumbers hsame =>
    obtain ⟨i, t, t', ht, ht', rfl, rfl⟩ := hpair
    have hshow' : f'.showable = f.showable := by
      rw [Fault.showable, Fault.showable, ← f'.numbers_unplaced, hsame, f.numbers_unplaced]
    cases hshow : f.showable with
    | true =>
      refine .inl ⟨?_, i, t, t', ht, ht', if_pos hshow, if_pos (hshow'.trans hshow)⟩
      rw [← NotationError.errorClass_unplaced f 0, ← hsame, NotationError.errorClass_unplaced]
    | false =>
      refine .inr ⟨fun hlimits => ?_, NotationError.errorClass_of_showable_eq_false hshow _,
        NotationError.errorClass_of_showable_eq_false (hshow'.trans hshow) _,
        if_neg (by simp [hshow]), if_neg (by simp [hshow'.trans hshow])⟩
      exact absurd (hshow.symm.trans (hnumbers.showable hlimits)) Bool.false_ne_true

theorem readAlike_of_sameWords {limits : Limits} {text text' : String} {tokens tokens' : List Token}
    (hmax : 0 ≤ limits.maxTokens) (h : Token.scan text = .ok tokens)
    (h' : Token.scan text' = .ok tokens') (hsame : List.Forall₂ Token.SameWord tokens tokens')
    (hlegible : AllLegible tokens) : ReadAlike limits tokens tokens' := by
  have hagrees := scan_agrees limits hmax h h' hsame
  rw [ReadAlike]
  generalize Expr.ofTokens limits tokens = read at hagrees
  generalize Expr.ofTokens limits tokens' = read' at hagrees
  cases read with
  | ok e =>
    cases read' with
    | ok e' => exact Expr.same_iff.mpr hagrees.symm
    | error err' => exact hagrees
  | error err =>
    cases read' with
    | ok e' => exact hagrees
    | error err' => exact refusedAlike_of_refusals hlegible hagrees

/-- **Case and spacing carry no meaning.** A text in another spelling has the same words, and two
texts with the same words are read alike under all limits, unless a number in them is too long to be
read. -/
theorem case_and_spacing_carry_no_meaning {text : String} {tokens : List Token}
    (h : Token.scan text = .ok tokens) :
    (∀ text' : String, Respells tokens text.toList text'.toList →
      ∃ tokens', Token.scan text' = .ok tokens' ∧ List.Forall₂ Token.SameWord tokens tokens') ∧
    ∀ (text' : String) (tokens' : List Token), Token.scan text' = .ok tokens' →
      List.Forall₂ Token.SameWord tokens tokens' → AllLegible tokens →
        ∀ limits : Limits, 0 ≤ limits.maxTokens → ReadAlike limits tokens tokens' :=
  ⟨fun _ hspelled => hspelled.scan h,
    fun _ _ h' hsame hlegible _ hmax => readAlike_of_sameWords hmax h h' hsame hlegible⟩

/-- A die in capitals between blanks is the same die. -/
theorem die_is_read_alike : ∃ tokens tokens', Token.scan "2d6" = .ok tokens ∧
    Token.scan " 2 D6" = .ok tokens' ∧ List.Forall₂ Token.SameWord tokens tokens' ∧
      ReadAlike {} tokens tokens' := by
  have hspelled : Respells [⟨.integer, ['2'], 0⟩, ⟨.die, ['d'], 1⟩, ⟨.integer, ['6'], 2⟩,
      Token.ending 3] "2d6".toList " 2 D6".toList := by
    rw [show "2d6".toList = ['2', 'd', '6'] by decide,
      show " 2 D6".toList = [' ', '2', ' ', 'D', '6'] by decide]
    exact .insert rfl (@Respells.word _ ⟨.integer, ['2'], 0⟩ ['2'] _ _ rfl
      (.insert rfl (@Respells.word _ ⟨.die, ['d'], 1⟩ ['D'] _ _ rfl
        (@Respells.word _ ⟨.integer, ['6'], 2⟩ ['6'] _ _ rfl .ending))))
  obtain ⟨hspelling, hreading⟩ := case_and_spacing_carry_no_meaning scan_pool
  obtain ⟨tokens', hscan', hsame⟩ := hspelling " 2 D6" hspelled
  refine ⟨_, tokens', scan_pool, hscan', hsame, hreading _ _ hscan' hsame ?_ {} (by decide)⟩
  intro t ht
  fin_cases ht <;> intro _ <;> decide

/-- A limit with one digit more than can be shown: a number of dice that is out of range is refused
without a place. -/
theorem unshown_limit_has_no_place :
    ∃ (limits : Limits) (tokens : List Token) (err : NotationError),
      Token.scan "0d6" = .ok tokens ∧ AllLegible tokens ∧ 0 ≤ limits.maxTokens ∧
        Expr.ofTokens limits tokens = .error err ∧
          err.errorClass = .value ∧ err.position? = none := by
  have hscan : Token.scan "0d6" = .ok [⟨.integer, ['0'], 0⟩, ⟨.die, ['d'], 1⟩, ⟨.integer, ['6'], 2⟩,
      Token.ending 3] :=
    Token.scan_dice ['0'] ['6'] (by simp) (by simp)
  have hread : ∀ limit : Int, Expr.ofTokens { maxDice := limit } [⟨.integer, ['0'], 0⟩,
      ⟨.die, ['d'], 1⟩, ⟨.integer, ['6'], 2⟩, Token.ending 3] =
        .error (.fault (.diceCount limit 0) 0) := fun _ => rfl
  obtain ⟨limit, hlong⟩ : ∃ limit : Int, Numeral.showable limit = false := by
    refine ⟨(10 ^ Numeral.digitLimit : Nat), decide_eq_false ?_⟩
    rw [Int.natAbs_natCast, Nat.length_toDigits_le_iff (by decide) (by decide)]
    exact lt_irrefl _
  have hshow : (Fault.diceCount limit 0).showable = false := by
    rw [Fault.showable, Fault.numbers, List.all_cons, hlong, Bool.false_and]
  refine ⟨_, _, _, hscan, ?_, ?_, hread limit,
    NotationError.errorClass_of_showable_eq_false hshow _, if_neg (by simp [hshow])⟩
  · intro t ht
    fin_cases ht <;> intro _ <;> decide
  · show (0 : Int) ≤ ({} : Limits).maxTokens
    decide

end Dicebox
