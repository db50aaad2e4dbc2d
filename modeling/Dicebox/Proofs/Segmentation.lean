import Dicebox.Expr.Roll
import Dicebox.Proofs.Segments

/-! # The words of a text

The tokens of a text give a true account of it. Each of them is the stretch of the text that it
covers, a number is a whole run of digits, any other word is one that stands for its kind, and
between the words there are blanks only. A text that is refused is refused at the first character
that begins no word, and the text in front of that character has the tokens that the scanner had
taken.

- `Token.Passes.leaves_digit`: numbers are not cut in two.
- `Token.Passes.isBlank_of_getElem?`: the gaps between words.
- `Token.Segmentation`, `Token.Passes.segmentation`: the words of a text.
- `tokens_segment_the_text`: any text.
-/

namespace Dicebox

namespace Token

/-! ## What the scanner has come past -/

namespace Passes

variable {p : Int} {cs rest : List Char} {ts : List Token}

/-- Behind a digit that the scanner has come past there is no other digit ahead. -/
theorem leaves_digit (h : Passes p cs ts rest) :
    ∀ d ∈ cs.getLast?, d.isDigit = true → Leaves Char.isDigit rest := by
  induction h with
  | nil =>
    intro d hd
    cases hd
  | @blank p b cs rest ts hb _ ih =>
    intro d hd hdigit
    cases cs with
    | nil =>
      obtain rfl := Option.some.inj hd
      have hb := isDigit_eq_false_of_isAlphanum (isAlphanum_of_isBlank hb)
      exact absurd (hb.symm.trans hdigit) Bool.false_ne_true
    | cons c cs => exact ih d (by rwa [List.getLast?_cons_cons] at hd) hdigit
  | @word p kind c more cs rest ts hb hlex _ ih =>
    intro d hd hdigit
    rcases List.eq_nil_or_concat cs with rfl | ⟨front, last, rfl⟩
    · rw [List.append_nil] at hd
      by_cases hk : kind = .integer
      · subst hk
        exact (digits_of_lexeme? hlex).2
      · have hnone := isDigit_of_lexeme? hlex hk d (List.mem_of_getLast? hd)
        exact absurd (hnone.symm.trans hdigit) Bool.false_ne_true
    · refine ih d ?_ hdigit
      rw [← List.cons_append, List.getLast?_append] at hd
      simpa using hd

/-- **No character is passed over but a blank.** -/
theorem isBlank_of_getElem? (h : Passes p cs ts rest) :
    ∀ {i : Nat} {c : Char}, cs[i]? = some c →
      (∀ t ∈ ts, ¬ (t.position ≤ p + i ∧ p + i < t.stop)) → Text.isBlank c = true := by
  induction h with
  | nil =>
    intro i c hc
    simp at hc
  | @blank p b cs rest ts hb _ ih =>
    intro i c hc hout
    cases i with
    | zero =>
      obtain rfl := Option.some.inj hc
      exact hb
    | succ i =>
      have hshift : p + (i + 1 : Nat) = p + 1 + i := by omega
      rw [hshift] at hout
      exact ih hc hout
  | @word p kind c more cs rest ts _ _ _ ih =>
    intro i d hd hout
    obtain ⟨hword, hmore⟩ := List.forall_mem_cons.mp hout
    rw [stop_eq] at hword
    -- a character that the word does not cover stands behind it
    obtain ⟨k, rfl⟩ : ∃ k, i = (c :: more).length + k := by
      refine Nat.exists_eq_add_of_le ?_
      rw [List.length_cons]
      by_contra hlt
      exact hword ⟨by show p ≤ p + i; omega, by omega⟩
    have hshift : p + ((c :: more).length + k : Nat) = p + 1 + more.length + k := by
      rw [List.length_cons]
      omega
    rw [hshift] at hmore
    rw [← List.cons_append, List.getElem?_append_right (by omega), Nat.add_sub_cancel_left] at hd
    exact ih hd hmore

end Passes

/-! ## Words -/

/-- A number is a whole run of digits of a text, and any other word stands for its kind. -/
structure Fits (cs : List Char) (t : Token) : Prop where
  digits : t.kind = .integer → ∀ d ∈ t.text, d.isDigit = true
  maximal : t.kind = .integer → ∀ (i : Nat) (d : Char), cs[i]? = some d →
    (i : Int) + 1 = t.position ∨ (i : Int) = t.stop → d.isDigit = false
  denotes : t.kind ≠ .integer → Kind.ofWord? t.lower = some t.kind

/-- The words of a text are stretches of it in a row, of the kinds that they are read as, with
blanks between them. -/
structure Segmentation (text : String) (words : List Token) : Prop where
  inRow : InRow 0 words
  within : ∀ t ∈ words, t.stop ≤ text.length
  nonempty : ∀ t ∈ words, t.text ≠ []
  slice_eq : ∀ t ∈ words, slice text ⟨t.position, t.stop⟩ = String.ofList t.text
  fits : ∀ t ∈ words, t.kind ≠ .endMark ∧ t.Fits text.toList
  gaps : ∀ (i : Nat) (c : Char), text.toList[i]? = some c →
    (∀ t ∈ words, ¬ (t.position ≤ i ∧ i < t.stop)) → Text.isBlank c = true

namespace StandsBefore

variable {t : Token} {rest : List Char}

theorem text_ne_nil (h : t.StandsBefore rest) : t.text ≠ [] := by
  obtain ⟨c, more, htext, -, -⟩ := h
  rw [htext]
  exact List.cons_ne_nil _ _

theorem digits (h : t.StandsBefore rest) (hk : t.kind = .integer) :
    (∀ d ∈ t.text, d.isDigit = true) ∧ Leaves Char.isDigit rest := by
  obtain ⟨c, more, htext, -, hlex⟩ := h
  rw [hk] at hlex
  rw [htext]
  exact digits_of_lexeme? hlex

theorem denotes (h : t.StandsBefore rest) (hk : t.kind ≠ .integer) :
    Kind.ofWord? t.lower = some t.kind := by
  obtain ⟨c, more, htext, -, hlex⟩ := h
  rw [lower, htext]
  exact ofWord?_of_lexeme? hlex hk

theorem kind_ne (h : t.StandsBefore rest) : t.kind ≠ .endMark := by
  obtain ⟨c, more, -, -, hlex⟩ := h
  exact (lexeme?_scanned hlex 0).2

end StandsBefore

theorem Passes.fits {p : Int} {pre post : List Char} {before : List Token} {t : Token}
    (hp : t.position = pre.length) (h : t.StandsBefore post)
    (hpre : Passes p pre before (t.text ++ post)) : t.Fits (pre ++ (t.text ++ post)) where
  digits hk := (h.digits hk).1
  denotes := h.denotes
  maximal := by
    intro hk i d hd hi
    obtain ⟨hdigits, hleaves⟩ := h.digits hk
    rcases hi with hi | hi
    · -- were it a digit, the number would not begin with one
      rw [Bool.eq_false_iff]
      intro hdigit
      have hlast : pre.getLast? = some d := by
        rw [List.getElem?_append_left (by omega)] at hd
        rw [List.getLast?_eq_getElem?, ← hd]
        congr 1
        omega
      have hfirst := hpre.leaves_digit d hlast hdigit
      obtain ⟨c, more, htext, -, -⟩ := h
      rw [htext] at hfirst hdigits
      have hc := (List.forall_mem_cons.mp hdigits).1
      exact absurd ((leaves_cons.mp hfirst).symm.trans hc) Bool.false_ne_true
    · have hbehind : i = (pre ++ t.text).length := by
        rw [stop, hp] at hi
        rw [List.length_append]
        omega
      rw [← List.append_assoc, hbehind, List.getElem?_append_right (le_refl _), Nat.sub_self] at hd
      exact hleaves d (by rwa [List.head?_eq_getElem?])

/-- **What the scanner takes of a text are its words.** -/
theorem Passes.segmentation {text : String} {words : List Token}
    (h : Passes 0 text.toList words []) : Segmentation text words := by
  have each : ∀ t ∈ words, ∃ (pre post : List Char), text.toList = pre ++ (t.text ++ post) ∧
      t.position = pre.length ∧ t.StandsBefore post ∧ t.Fits text.toList := by
    intro t ht
    obtain ⟨before, after, rfl⟩ := List.append_of_mem ht
    obtain ⟨pre, post, htext, hposition, hstands, hpre, -⟩ := h.split rfl
    rw [List.append_nil] at hstands hpre
    rw [Int.zero_add] at hposition
    refine ⟨pre, post, htext, hposition, hstands, ?_⟩
    rw [htext]
    exact Passes.fits hposition hstands hpre
  have lengths : ∀ {pre word post : List Char}, text.toList = pre ++ (word ++ post) →
      text.length = pre.length + word.length + post.length := by
    intro pre word post htext
    rw [← String.length_toList, htext, List.length_append, List.length_append, Nat.add_assoc]
  refine ⟨h.inRow, ?_, ?_, ?_, ?_,
    fun i c hc hout => h.isBlank_of_getElem? hc (by simpa using hout)⟩
  · intro t ht
    obtain ⟨pre, post, htext, hposition, -, -⟩ := each t ht
    rw [stop, hposition, lengths htext]
    omega
  · intro t ht
    obtain ⟨_, _, -, -, hstands, -⟩ := each t ht
    exact hstands.text_ne_nil
  · intro t ht
    obtain ⟨pre, post, htext, hposition, -, -⟩ := each t ht
    have hlength := lengths htext
    rw [stop, hposition, ← Int.natCast_add, slice_natCast (by omega) (by omega), htext,
      ← List.append_assoc, ← List.length_append, List.take_left, List.drop_left]
  · intro t ht
    obtain ⟨_, _, -, -, hstands, hfits⟩ := each t ht
    exact ⟨hstands.kind_ne, hfits⟩

end Token

/-! ## Texts -/

/-- **Tokens segment the text.** They are its words, with the only end mark at the end of the text
behind them. A text that has none is refused at a character that begins no word, and up to that
character it has the tokens that the scanner had taken. -/
theorem tokens_segment_the_text (text : String) :
    match Token.scan text with
    | .ok tokens =>
      ∃ words, tokens = words ++ [.ending text.length] ∧ Token.Segmentation text words
    | .error err =>
      ∃ (pre : List Char) (c : Char) (rest : List Char) (words : List Token),
        text.toList = pre ++ c :: rest ∧ err = .unexpectedCharacter c pre.length ∧
          Text.isBlank c = false ∧ c.isDigit = false ∧ c ∉ "+-*/(),!".toList ∧
            Token.Passes 0 pre words (c :: rest) ∧
              Token.scan (String.ofList pre) = .ok (words ++ [.ending pre.length]) := by
  rcases Token.exists_passes 0 text.toList with
    ⟨words, h⟩ | ⟨pre, c, rest, words, htext, h, hblank, hlex⟩
  · have hscan : Token.scan text = .ok (words ++ [.ending text.length]) := by
      rw [Token.scan, Token.scanFrom_of_passes h, String.length_toList, Int.zero_add]
    rw [hscan]
    exact ⟨words, rfl, h.segmentation⟩
  · have hscan : Token.scan text = .error (.unexpectedCharacter c pre.length) := by
      rw [Token.scan, htext, h.scans, Token.scanFrom_of_no_lexeme hblank hlex, Int.zero_add]
      rfl
    have hpre : Token.scan (String.ofList pre) = .ok (words ++ [.ending pre.length]) := by
      rw [Token.scan, String.toList_ofList, Token.scanFrom_of_passes h.cut, Int.zero_add]
    obtain ⟨hdigit, hsign⟩ := lexeme?_eq_none hlex
    rw [hscan]
    exact ⟨pre, c, rest, words, htext, rfl, hblank, hdigit, sign?_eq_none.mp hsign, h, hpre⟩

end Dicebox
