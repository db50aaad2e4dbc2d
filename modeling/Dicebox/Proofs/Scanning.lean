import Dicebox.Proofs.Grammar.Clauses
import Dicebox.Proofs.Lexemes

/-! # Scanning

The scanner takes a text apart one word at a time, and what it makes of a word depends on nothing
but the word itself as long as the text behind does not carry the word on. Its tokens are what the
reader expects of a text, with the only end mark behind them.

- `Token.isWord`: a text that is a word of its own, of a kind.
- `Token.scanFrom_word`: a word in front of a text that does not carry it on.
- `Token.scanFrom_sound`: what all tokens of a text have in common.
- `Scans`: a text that is scanned into some tokens in front of another one.
- `Token.scan_numeral`, `Token.scan_dice`: a numeral and a plain dice term.
-/

namespace Dicebox

/-! ## Words in front of a text -/

/-- A text behind a character does not carry on the word that the character begins. -/
structure Breaks (c : Char) (rest : List Char) : Prop where
  digit : c.isDigit = true → Leaves Char.isDigit rest
  alpha : c.isAlpha = true → Leaves Char.isAlpha rest

theorem lexeme?_append {c : Char} {rest : List Char} (h : Breaks c rest) (more : List Char) :
    lexeme? c (more ++ rest) = lexeme? c more := by
  by_cases hd : c.isDigit = true
  · rw [lexeme?, lexeme?, if_pos hd, if_pos hd, (h.digit hd).takeWhile_append]
  · by_cases ha : c.isAlpha = true
    · rw [lexeme?, lexeme?, if_neg hd, if_neg hd, (h.alpha ha).takeWhile_append]
    · rw [lexeme?, lexeme?, if_neg hd, if_neg hd, if_neg ha, if_neg ha]

namespace Token

/-- A text is one word of a kind. -/
def isWord (kind : Kind) : List Char → Bool
  | [] => false
  | c :: more => !Text.isBlank c && lexeme? c more == some (kind, more.length)

theorem scanFrom_word {kind : Kind} {c : Char} {more rest : List Char}
    (h : isWord kind (c :: more) = true) (hrest : Breaks c rest) (p : Int) :
    scanFrom p (c :: more ++ rest) =
      (scanFrom (p + (c :: more).length) rest).map (⟨kind, c :: more, p⟩ :: ·) := by
  obtain ⟨hb, hk⟩ : Text.isBlank c = false ∧ lexeme? c more = some (kind, more.length) := by
    simpa [isWord] using h
  rw [List.cons_append, scanFrom_of_lexeme hb ((lexeme?_append hrest more).trans hk),
    List.drop_left, List.take_left, List.length_cons]
  congr 2
  omega

theorem isWord_of_digits {c : Char} {more : List Char} (h : ∀ d ∈ c :: more, d.isDigit = true) :
    isWord .integer (c :: more) = true := by
  obtain ⟨hc, hmore⟩ := List.forall_mem_cons.mp h
  have hlen : more.takeWhile Char.isDigit = more := by
    simpa using @List.takeWhile_append_of_pos _ _ more [] hmore
  simp [isWord, Text.isBlank_eq_false_of_isDigit hc, lexeme?, hc, hlen]

end Token

/-- The token of a numeral at an offset, if there is one. -/
def Token.numeralAt (p : Int) (cs : List Char) : List Token :=
  if cs.isEmpty then [] else [⟨.integer, cs, p⟩]

/-! ## The tokens of a text -/

theorem Token.scanned_of_ne {t : Token} (hi : t.kind ≠ .integer) (hs : t.kind ≠ .shorthand) :
    t.Scanned := ⟨fun h => absurd h hi, fun h => absurd h hs⟩

theorem lexeme?_scanned {c : Char} {rest : List Char} {kind : Token.Kind} {more : Nat}
    (h : lexeme? c rest = some (kind, more)) (p : Int) :
    (⟨kind, c :: rest.take more, p⟩ : Token).Scanned ∧ kind ≠ .endMark := by
  have run : ∀ q : Char → Bool, rest.take (rest.takeWhile q).length = rest.takeWhile q := by
    intro q
    exact (List.prefix_iff_eq_take.mp (List.takeWhile_prefix q)).symm
  cases lexeme?_eq_some.mp h with
  | integer hd =>
    refine ⟨⟨fun _ => ⟨List.cons_ne_nil _ _, ?_⟩, fun hk => (nomatch hk)⟩, by decide⟩
    rw [run, List.forall_mem_cons]
    exact ⟨hd, fun d hmem => List.all_eq_true.mp List.all_takeWhile d hmem⟩
  | sign hs =>
    obtain ⟨hi, hw, he⟩ := sign?_ne hs
    exact ⟨Token.scanned_of_ne hi hw, he⟩
  | @shorthand rule ha hw =>
    refine ⟨⟨fun hk => (nomatch hk), fun _ => ⟨rule, ?_⟩⟩, by decide⟩
    rw [Token.lower, run]
    exact hw
  | keyword ha hw hk =>
    obtain ⟨hi, hw, he⟩ := keyword?_ne hk
    exact ⟨Token.scanned_of_ne hi hw, he⟩
  | die ha hw hk hd => exact ⟨Token.scanned_of_ne (by simp) (by simp), by decide⟩
  | reroll ha hw hk hr => exact ⟨Token.scanned_of_ne (by simp) (by simp), by decide⟩

theorem Token.scanFrom_sound {p : Int} {cs : List Char} :
    ∀ {tokens : List Token}, scanFrom p cs = .ok tokens →
      ∃ body stop, tokens = body ++ [ending stop] ∧ (∀ t ∈ body, t.Scanned ∧ t.kind ≠ .endMark) ∧
        body.length ≤ cs.length := by
  -- along the scanner: the end, a blank, a character of no word, a word
  fun_induction scanFrom p cs with
  | case1 p =>
    intro tokens h
    obtain rfl := Except.ok.inj h
    exact ⟨[], p, rfl, by simp, by simp⟩
  | case2 p c rest hb ih =>
    intro tokens h
    obtain ⟨body, stop, he, hbody, hlen⟩ := ih h
    exact ⟨body, stop, he, hbody, by simp; omega⟩
  | case3 p c rest hb hlex =>
    intro tokens h
    cases h
  | case4 p c rest hb kind more hlex ih =>
    intro tokens h
    cases hrest : scanFrom (p + 1 + more) (rest.drop more) with
    | error e =>
      rw [hrest] at h
      cases h
    | ok us =>
      rw [hrest] at h
      obtain rfl := Except.ok.inj h
      obtain ⟨body, stop, rfl, hbody, hlen⟩ := ih hrest
      rw [List.length_drop] at hlen
      refine ⟨⟨kind, c :: rest.take more, p⟩ :: body, stop, rfl, ?_, by simp; omega⟩
      exact List.forall_mem_cons.mpr ⟨lexeme?_scanned hlex p, hbody⟩

/-! ## Texts word by word -/

/-- In front of `rest`, a text at offset `p` is scanned into these tokens. -/
def Scans (p : Int) (cs : List Char) (ts : List Token) (rest : List Char) : Prop :=
  Token.scanFrom p (cs ++ rest) = (Token.scanFrom (p + cs.length) rest).map (ts ++ ·)

namespace Scans

variable {p : Int} {rest : List Char}

theorem nil : Scans p [] [] rest := by
  rw [Scans, List.nil_append, List.length_nil, Int.natCast_zero, Int.add_zero]
  cases Token.scanFrom p rest <;> rfl

theorem append {cs ds : List Char} {ts us : List Token} (h : Scans p cs ts (ds ++ rest))
    (h' : Scans (p + cs.length) ds us rest) : Scans p (cs ++ ds) (ts ++ us) rest := by
  rw [Scans, List.append_assoc, h, h', List.length_append, Int.natCast_add, Int.add_assoc]
  cases Token.scanFrom (p + (cs.length + ds.length)) rest with
  | error e => rfl
  | ok tokens => exact congrArg Except.ok (List.append_assoc ts us tokens).symm

theorem blank {cs : List Char} {ts : List Token} (h : Scans (p + 1) cs ts rest) :
    Scans p (' ' :: cs) ts rest := by
  rw [Scans, List.cons_append, Token.scanFrom_of_blank (by decide), h, List.length_cons]
  congr 2
  omega

theorem word {kind : Token.Kind} {c : Char} {more : List Char}
    (h : Token.isWord kind (c :: more) = true) (hrest : Breaks c rest) :
    Scans p (c :: more) [⟨kind, c :: more, p⟩] rest := Token.scanFrom_word h hrest p

theorem sign {kind : Token.Kind} {c : Char} (h : Token.isWord kind [c] = true)
    (hd : c.isDigit = false) (ha : c.isAlpha = false) : Scans p [c] [⟨kind, [c], p⟩] rest :=
  word h ⟨fun h => absurd h (by simp [hd]), fun h => absurd h (by simp [ha])⟩

/-- A number is a word in front of anything but a digit. -/
theorem number (p : Int) {n : Int} (hn : 0 ≤ n) :
    ∃ w : Word .integer, w.1.value = n ∧ (Numeral.showable n = true → w.1.Legible) ∧
      ∀ {rest : List Char}, Leaves Char.isDigit rest → Scans p (Numeral.ofInt n) [w.1] rest := by
  refine ⟨⟨⟨.integer, Numeral.ofInt n, p⟩, rfl⟩, Numeral.ofDigitChars_ofInt hn,
    fun hs _ => Numeral.length_ofInt_le hn hs, fun hrest => ?_⟩
  obtain ⟨c, cs, hcs, hdigits⟩ := Numeral.exists_ofInt_eq_cons hn
  have hc := isAlpha_of_isDigit (List.forall_mem_cons.mp hdigits).1
  rw [hcs]
  exact word (Token.isWord_of_digits hdigits) ⟨fun _ => hrest, fun h => absurd h (by simp [hc])⟩

/-- A whole text is scanned into what it is scanned into in front of nothing, and an end mark. -/
theorem whole {cs : List Char} {ts : List Token} (h : Scans 0 cs ts []) :
    Token.scan (String.ofList cs) = .ok (ts ++ [Token.ending cs.length]) := by
  rw [Scans, List.append_nil, Token.scanFrom_nil, Int.zero_add] at h
  rw [Token.scan, String.toList_ofList, h]
  rfl

/-- A keyword is a word in front of anything but a letter. -/
theorem keyword {kind : Token.Kind} {c : Char} {more : List Char}
    (h : Token.isWord kind (c :: more) = true) (hc : c.isDigit = false)
    (hrest : Leaves Char.isAlpha rest) : Scans p (c :: more) [⟨kind, c :: more, p⟩] rest :=
  word h ⟨fun h => absurd h (by simp [hc]), fun _ => hrest⟩

theorem digits {cs : List Char} (hcs : ∀ c ∈ cs, c.isDigit = true) (hrest : Leaves Char.isDigit rest) :
    Scans p cs (Token.numeralAt p cs) rest := by
  cases cs with
  | nil => exact nil
  | cons c more =>
    have hc := isAlpha_of_isDigit (List.forall_mem_cons.mp hcs).1
    exact word (Token.isWord_of_digits hcs) ⟨fun _ => hrest, fun h => absurd h (by simp [hc])⟩

end Scans

namespace Token

theorem scan_word {kind : Kind} {cs : List Char} (h : isWord kind cs = true) :
    scan (String.ofList cs) = .ok [⟨kind, cs, 0⟩, ending cs.length] := by
  obtain ⟨c, more, rfl⟩ : ∃ c more, cs = c :: more := by
    cases cs with
    | nil => cases h
    | cons c more => exact ⟨c, more, rfl⟩
  exact (Scans.word h ⟨fun _ => leaves_nil _, fun _ => leaves_nil _⟩).whole

theorem scan_numeral {cs : List Char} (hne : cs ≠ []) (hcs : ∀ c ∈ cs, c.isDigit = true) :
    scan (String.ofList cs) = .ok [⟨.integer, cs, 0⟩, ending cs.length] := by
  obtain ⟨c, more, rfl⟩ := List.exists_cons_of_ne_nil hne
  exact scan_word (isWord_of_digits hcs)

/-- **A plain dice term is scanned** into its numerals, as far as they are written, and the `d` between
them. -/
theorem scan_dice (count sides : List Char) (hcount : ∀ c ∈ count, c.isDigit = true)
    (hsides : ∀ c ∈ sides, c.isDigit = true) :
    scan (String.ofList (count ++ (['d'] ++ sides))) =
      .ok (numeralAt 0 count ++ ([⟨.die, ['d'], 0 + count.length⟩] ++
        numeralAt (0 + count.length + 1) sides) ++
          [ending (count ++ (['d'] ++ sides)).length]) := by
  have hlast : Leaves Char.isAlpha (sides ++ []) := by
    intro c hc
    rw [List.append_nil] at hc
    exact isAlpha_of_isDigit (hsides c (List.mem_of_mem_head? hc))
  have hdie : Scans (0 + count.length) ['d'] [⟨.die, ['d'], 0 + count.length⟩] (sides ++ []) :=
    Scans.keyword (by decide) (by decide) hlast
  have hfirst : Leaves Char.isDigit (['d'] ++ sides ++ []) := leaves_cons.mpr rfl
  exact (Scans.append (Scans.digits hcount hfirst)
    (Scans.append hdie (Scans.digits hsides (leaves_nil _)))).whole

end Token

/-- Numbers with a text between them do not begin with a letter. -/
theorem leaves_intercalate {v : Int} (hv : 0 ≤ v) (sep : List Char) (more : List (List Char))
    (rest : List Char) :
    Leaves Char.isAlpha (sep.intercalate (Numeral.ofInt v :: more) ++ rest) := by
  obtain ⟨c, cs, hcs, hdigits⟩ := Numeral.exists_ofInt_eq_cons hv
  rw [hcs, List.intercalate_cons_cons_left, List.cons_append, leaves_cons]
  exact isAlpha_of_isDigit (List.forall_mem_cons.mp hdigits).1

end Dicebox
