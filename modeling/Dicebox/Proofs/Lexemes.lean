import Dicebox.Token.Scan
import Mathlib

/-! # The first word of a text

A text begins with a number, a sign, a shorthand, a keyword, or the single letter of a die or a
reroll. Which of these it is depends on the run of digits or of letters at its front, letters in any
case. So behind a word another text may stand in the place of the one that stood there, if its
letters carry the word on no further. No shorthand comes about in this way, since the only one that
begins like another word goes on with an `i`, which begins no word.

- `Leaves`: a run of characters of a class does not go on.
- `Lexeme`, `lexeme?_eq_some`: the ways in which a text may begin.
- `Token.Kind.ofWord?`, `ofWord?_of_lexeme?`: what a word stands for.
- `CutsShort`, `lexeme?_cutShort`: another text behind a word.
-/

namespace Dicebox

/-! ## Characters -/

theorem isAlpha_of_isDigit {c : Char} (h : c.isDigit = true) : c.isAlpha = false := by
  have hu : c.val.toNat ≤ 57 := (Char.isDigit_iff_toNat.mp h).2
  simp only [Char.isAlpha, Char.isUpper, Char.isLower, Bool.or_eq_false_iff,
    Bool.and_eq_false_iff, decide_eq_false_iff_not, UInt32.le_iff_toNat_le, ge_iff_le]
  have hA : 'A'.val.toNat = 65 := rfl
  have ha : 'a'.val.toNat = 97 := rfl
  omega

theorem isDigit_of_isAlpha {c : Char} (h : c.isAlpha = true) : c.isDigit = false := by
  rw [Bool.eq_false_iff]
  exact fun hd => Bool.false_ne_true ((isAlpha_of_isDigit hd).symm.trans h)

theorem isAlphanum_of_sign? {c : Char} {kind : Token.Kind} (h : sign? c = some kind) :
    c.isAlphanum = false := by
  rw [sign?.eq_def] at h
  split at h <;> first | decide | cases h

theorem isAlphanum_of_isBlank {c : Char} (h : Text.isBlank c = true) : c.isAlphanum = false := by
  simp only [Char.isAlphanum, Char.isAlpha, Char.isUpper, Char.isLower, Char.isDigit,
    Bool.or_eq_false_iff, Bool.and_eq_false_iff, decide_eq_false_iff_not,
    UInt32.le_iff_toNat_le, ge_iff_le]
  simp only [Text.isBlank, Bool.or_eq_true, Bool.and_eq_true, decide_eq_true_eq, beq_iff_eq] at h
  have hA : 'A'.val.toNat = 65 := rfl
  have hZ : 'Z'.val.toNat = 90 := rfl
  have ha : 'a'.val.toNat = 97 := rfl
  have hz : 'z'.val.toNat = 122 := rfl
  have hzero : '0'.val.toNat = 48 := rfl
  have hnine : '9'.val.toNat = 57 := rfl
  have hval : c.toNat = c.val.toNat := rfl
  omega

theorem isAlpha_eq_false_of_isAlphanum {c : Char} (h : c.isAlphanum = false) :
    c.isAlpha = false := (Bool.or_eq_false_iff.mp h).1

theorem isDigit_eq_false_of_isAlphanum {c : Char} (h : c.isAlphanum = false) :
    c.isDigit = false := (Bool.or_eq_false_iff.mp h).2

theorem toLower_of_isAlpha_eq_false {c : Char} (h : c.isAlpha = false) : c.toLower = c :=
  Char.toLower_eq_of_not_isUpper (by simp [(Bool.or_eq_false_iff.mp h).1])

theorem map_toLower_of_isDigit {cs : List Char} (h : ∀ c ∈ cs, c.isDigit = true) :
    cs.map Char.toLower = cs :=
  (List.map_congr_left fun c hc => toLower_of_isAlpha_eq_false (isAlpha_of_isDigit (h c hc))).trans
    (List.map_id' cs)

theorem isDigit_toLower (c : Char) : c.toLower.isDigit = c.isDigit := by
  cases h : c.isAlpha with
  | true =>
    have hsmall : c.toLower.isAlpha = true := by rw [Char.isAlpha_toLower_eq_isAlpha, h]
    rw [isDigit_of_isAlpha h, isDigit_of_isAlpha hsmall]
  | false => rw [toLower_of_isAlpha_eq_false h]

theorem isBlank_toLower (c : Char) : Text.isBlank c.toLower = Text.isBlank c := by
  have letter : ∀ {d : Char}, d.isAlpha = true → Text.isBlank d = false := by
    intro d hd
    rw [Bool.eq_false_iff]
    intro hb
    have hno := isAlpha_eq_false_of_isAlphanum (isAlphanum_of_isBlank hb)
    exact absurd (hno.symm.trans hd) Bool.false_ne_true
  cases h : c.isAlpha with
  | true => rw [letter h, letter ((Char.isAlpha_toLower_eq_isAlpha c).trans h)]
  | false => rw [toLower_of_isAlpha_eq_false h]

/-- What differs from a character in its case only is that character, if it is no letter. -/
theorem eq_of_toLower_eq {c c' : Char} (h : c'.toLower = c.toLower) (hc : c.isAlpha = false) :
    c' = c := by
  have hc' : c'.isAlpha = false := by
    rw [← Char.isAlpha_toLower_eq_isAlpha, h, Char.isAlpha_toLower_eq_isAlpha, hc]
  rwa [toLower_of_isAlpha_eq_false hc, toLower_of_isAlpha_eq_false hc'] at h

/-! ## Runs -/

/-- No word goes on in `rest` that consists of characters of a class. -/
def Leaves (p : Char → Bool) (rest : List Char) : Prop := ∀ c ∈ rest.head?, p c = false

@[simp] theorem leaves_nil (p : Char → Bool) : Leaves p [] := by
  intro c hc
  cases hc

@[simp] theorem leaves_cons {p : Char → Bool} {c : Char} {rest : List Char} :
    Leaves p (c :: rest) ↔ p c = false := by
  constructor
  · intro h
    exact h c rfl
  · rintro h d hd
    obtain rfl := Option.some.inj hd
    exact h

theorem Leaves.takeWhile_append {p : Char → Bool} {rest : List Char} (h : Leaves p rest)
    (more : List Char) : (more ++ rest).takeWhile p = more.takeWhile p := by
  have hrest : rest.takeWhile p = [] := by
    cases rest with
    | nil => rfl
    | cons c rest => rw [List.takeWhile_cons, leaves_cons.mp h, if_neg (by decide)]
  rw [List.takeWhile_append, hrest, List.append_nil]
  split
  · next hlen => exact ((List.takeWhile_prefix p).eq_of_length hlen).symm
  · rfl

/-- A run takes up a text exactly where all of it is in the class, and what is behind it is not. -/
theorem length_takeWhile_eq {p : Char → Bool} {more rest : List Char} :
    more.length = ((more ++ rest).takeWhile p).length ↔
      (∀ c ∈ more, p c = true) ∧ Leaves p rest := by
  induction more with
  | nil =>
    cases rest with
    | nil => simp
    | cons c rest =>
      rw [List.nil_append, List.takeWhile_cons, leaves_cons]
      cases p c <;> simp
  | cons c more ih =>
    rw [List.cons_append, List.takeWhile_cons, List.forall_mem_cons]
    cases p c with
    | false => simp
    | true =>
      rw [if_pos rfl, List.length_cons, List.length_cons, Nat.add_right_cancel_iff, ih]
      simp

/-! ## Words -/

/-- The letters that a text begins with, as small ones. -/
def wordOf (c : Char) (rest : List Char) : List Char :=
  (c :: rest.takeWhile Char.isAlpha).map Char.toLower

/-- The letters of a text in small letters are those of the text in small letters. -/
theorem wordOf_eq (c : Char) (rest : List Char) :
    wordOf c rest = c.toLower :: (rest.map Char.toLower).takeWhile Char.isAlpha := by
  have hclass : Char.isAlpha ∘ Char.toLower = Char.isAlpha :=
    funext fun d => Char.isAlpha_toLower_eq_isAlpha d
  rw [wordOf, List.map_cons, List.takeWhile_map, hclass]

/-- What a text begins with: how long the word is, in the order in which the classes are tried. -/
inductive Lexeme (c : Char) (rest : List Char) : Token.Kind → Nat → Prop
  | integer : c.isDigit = true → Lexeme c rest .integer (rest.takeWhile Char.isDigit).length
  | sign {kind : Token.Kind} : sign? c = some kind → Lexeme c rest kind 0
  | shorthand {rule : Selection} : c.isAlpha = true → shorthand? (wordOf c rest) = some rule →
      Lexeme c rest .shorthand (rest.takeWhile Char.isAlpha).length
  | keyword {kind : Token.Kind} : c.isAlpha = true → shorthand? (wordOf c rest) = none →
      keyword? ((wordOf c rest).take 2) = some kind → Lexeme c rest kind 1
  | die : c.isAlpha = true → shorthand? (wordOf c rest) = none →
      keyword? ((wordOf c rest).take 2) = none → c.toLower = 'd' → Lexeme c rest .die 0
  | reroll : c.isAlpha = true → shorthand? (wordOf c rest) = none →
      keyword? ((wordOf c rest).take 2) = none → c.toLower = 'r' → Lexeme c rest .reroll 0

/-- What begins with a letter is looked up as a whole word, by two letters, and by one. -/
theorem lexeme?_of_isAlpha {c : Char} (h : c.isAlpha = true) (rest : List Char) :
    lexeme? c rest =
      match shorthand? (wordOf c rest), keyword? ((wordOf c rest).take 2), c.toLower with
      | some _, _, _ => some (.shorthand, (rest.takeWhile Char.isAlpha).length)
      | none, some kind, _ => some (kind, 1)
      | none, none, 'd' => some (.die, 0)
      | none, none, 'r' => some (.reroll, 0)
      | none, none, _ => none := by
  have hsign : sign? c = none := by
    cases hs : sign? c with
    | none => rfl
    | some kind =>
      have hc := isAlpha_eq_false_of_isAlphanum (isAlphanum_of_sign? hs)
      exact absurd (hc.symm.trans h) Bool.false_ne_true
  rw [lexeme?, if_neg (by simp [isDigit_of_isAlpha h]), hsign]
  exact if_pos h

theorem lexeme?_eq_some {c : Char} {rest : List Char} {kind : Token.Kind} {more : Nat} :
    lexeme? c rest = some (kind, more) ↔ Lexeme c rest kind more := by
  constructor
  · intro h
    by_cases ha : c.isAlpha = true
    · rw [lexeme?_of_isAlpha ha] at h
      split at h
      · next hw =>
        obtain ⟨rfl, rfl⟩ := Prod.mk.inj (Option.some.inj h)
        exact .shorthand ha hw
      · next hw hk =>
        obtain ⟨rfl, rfl⟩ := Prod.mk.inj (Option.some.inj h)
        exact .keyword ha hw hk
      · next hw hk hd =>
        obtain ⟨rfl, rfl⟩ := Prod.mk.inj (Option.some.inj h)
        exact .die ha hw hk hd
      · next hw hk hr =>
        obtain ⟨rfl, rfl⟩ := Prod.mk.inj (Option.some.inj h)
        exact .reroll ha hw hk hr
      · cases h
    · rw [lexeme?, if_neg ha] at h
      split at h
      · next hd =>
        obtain ⟨rfl, rfl⟩ := Prod.mk.inj (Option.some.inj h)
        exact .integer hd
      · split at h
        · next hs =>
          obtain ⟨rfl, rfl⟩ := Prod.mk.inj (Option.some.inj h)
          exact .sign hs
        · cases h
  · intro h
    cases h with
    | integer hd => rw [lexeme?, if_pos hd]
    | sign hs =>
      have hd := isDigit_eq_false_of_isAlphanum (isAlphanum_of_sign? hs)
      rw [lexeme?, if_neg (by simp [hd]), hs]
    | shorthand ha hw => rw [lexeme?_of_isAlpha ha, hw]
    | keyword ha hw hk => rw [lexeme?_of_isAlpha ha, hw, hk]
    | die ha hw hk hd =>
      rw [lexeme?_of_isAlpha ha, hw, hk, hd]
      rfl
    | reroll ha hw hk hr =>
      rw [lexeme?_of_isAlpha ha, hw, hk, hr]
      rfl

theorem sign?_eq_none {c : Char} : sign? c = none ↔ c ∉ "+-*/(),!".toList := by
  rw [sign?.eq_def]
  split <;> simp_all

theorem lexeme?_eq_none {c : Char} {rest : List Char} (h : lexeme? c rest = none) :
    c.isDigit = false ∧ sign? c = none := by
  constructor
  · rw [Bool.eq_false_iff]
    intro hd
    rw [lexeme?_eq_some.mpr (.integer hd)] at h
    cases h
  · cases hs : sign? c with
    | none => rfl
    | some kind =>
      rw [lexeme?_eq_some.mpr (.sign hs)] at h
      cases h

theorem length_of_keyword? {cs : List Char} {kind : Token.Kind} (h : keyword? cs = some kind) :
    cs.length = 2 := by
  rw [keyword?.eq_def] at h
  split at h <;> first | rfl | cases h

theorem take_of_shorthand? {word : List Char} {rule : Selection} (h : shorthand? word = some rule) :
    word.take 2 = ['a', 'd'] ∨ word.take 2 = ['d', 'i'] := by
  rw [shorthand?] at h
  split at h
  · next hw => exact .inl (by rcases hw with rfl | rfl <;> rfl)
  · split at h
    · next hw => exact .inr (by rcases hw with rfl | rfl <;> rfl)
    · cases h

theorem sign?_ne {c : Char} {kind : Token.Kind} (h : sign? c = some kind) :
    kind ≠ .integer ∧ kind ≠ .shorthand ∧ kind ≠ .endMark := by
  rw [sign?.eq_def] at h
  split at h <;> first | (obtain rfl := Option.some.inj h; simp) | cases h

theorem keyword?_ne {cs : List Char} {kind : Token.Kind} (h : keyword? cs = some kind) :
    kind ≠ .integer ∧ kind ≠ .shorthand ∧ kind ≠ .endMark := by
  rw [keyword?.eq_def] at h
  split at h <;> first | (obtain rfl := Option.some.inj h; simp) | cases h

theorem toLower_ne_i_of_lexeme? {c : Char} {rest : List Char} {kind : Token.Kind} {more : Nat}
    (h : lexeme? c rest = some (kind, more)) : c.toLower ≠ 'i' := by
  intro hi
  cases lexeme?_eq_some.mp h with
  | integer hd =>
    rw [← isDigit_toLower, hi] at hd
    exact absurd hd (by decide)
  | sign hs =>
    have hc := isAlpha_eq_false_of_isAlphanum (isAlphanum_of_sign? hs)
    rw [← Char.isAlpha_toLower_eq_isAlpha, hi] at hc
    exact absurd hc (by decide)
  | shorthand ha hw =>
    rw [wordOf_eq, hi] at hw
    rcases take_of_shorthand? hw with htake | htake
    · exact absurd (List.cons.inj htake).1 (by decide)
    · exact absurd (List.cons.inj htake).1 (by decide)
  | keyword ha hw hk =>
    rw [wordOf_eq, hi, List.take_succ_cons, keyword?.eq_def] at hk
    split at hk <;> simp_all
  | die ha hw hk hd => exact absurd (hd.symm.trans hi) (by decide)
  | reroll ha hw hk hr => exact absurd (hr.symm.trans hi) (by decide)

/-- A keyword is two letters in a row. -/
theorem exists_of_keyword?_wordOf {c : Char} {rest : List Char} {kind : Token.Kind}
    (h : keyword? ((wordOf c rest).take 2) = some kind) :
    ∃ m rest', rest = m :: rest' ∧ m.isAlpha = true ∧
      keyword? [c.toLower, m.toLower] = some kind := by
  have htwo := length_of_keyword? h
  rw [wordOf] at h htwo
  cases rest with
  | nil => cases htwo
  | cons m rest =>
    by_cases hm : m.isAlpha = true
    · rw [List.takeWhile_cons, if_pos hm] at h
      exact ⟨m, rest, rfl, hm, h⟩
    · rw [List.takeWhile_cons, if_neg hm] at htwo
      cases htwo

theorem length_le_of_lexeme? {c : Char} {rest : List Char} {kind : Token.Kind} {more : Nat}
    (h : lexeme? c rest = some (kind, more)) : more ≤ rest.length := by
  have run : ∀ p : Char → Bool, (rest.takeWhile p).length ≤ rest.length :=
    fun p => (List.takeWhile_prefix p).length_le
  cases lexeme?_eq_some.mp h with
  | integer hd => exact run _
  | sign hs => exact Nat.zero_le _
  | shorthand ha hw => exact run _
  | keyword ha hw hk =>
    obtain ⟨m, rest', rfl, -, -⟩ := exists_of_keyword?_wordOf hk
    rw [List.length_cons]
    omega
  | die ha hw hk hd => exact Nat.zero_le _
  | reroll ha hw hk hr => exact Nat.zero_le _

/-! ## What a word stands for -/

/-- What a word in small letters stands for, if it is no number. -/
def Token.Kind.ofWord? (word : List Char) : Option Token.Kind :=
  match word with
  | ['d'] => some .die
  | ['r'] => some .reroll
  | [c] => sign? c
  | word => if (shorthand? word).isSome then some .shorthand else keyword? word

theorem Token.Kind.ofWord?_of_shorthand? {word : List Char} {rule : Selection}
    (h : shorthand? word = some rule) : ofWord? word = some .shorthand := by
  rw [shorthand?] at h
  split at h
  · next hw => rcases hw with rfl | rfl <;> rfl
  · split at h
    · next hw => rcases hw with rfl | rfl <;> rfl
    · cases h

theorem Token.Kind.ofWord?_of_keyword? {word : List Char} {kind : Token.Kind}
    (h : keyword? word = some kind) : ofWord? word = some kind := by
  rw [keyword?.eq_def] at h
  split at h <;> first | exact h | cases h

theorem Token.Kind.ofWord?_of_sign? {c : Char} {kind : Token.Kind} (h : sign? c = some kind) :
    ofWord? [c.toLower] = some kind := by
  rw [sign?.eq_def] at h
  split at h <;> first | exact h | cases h

/-- A number is a whole run of digits. -/
theorem digits_of_lexeme? {c : Char} {more rest : List Char}
    (h : lexeme? c (more ++ rest) = some (.integer, more.length)) :
    (∀ d ∈ c :: more, d.isDigit = true) ∧ Leaves Char.isDigit rest := by
  rw [lexeme?_eq_some] at h
  generalize hn : more.length = n at h
  cases h with
  | integer hd =>
    obtain ⟨hall, hleaves⟩ := length_takeWhile_eq.mp hn
    exact ⟨List.forall_mem_cons.mpr ⟨hd, hall⟩, hleaves⟩
  | sign hs => exact absurd rfl (sign?_ne hs).1
  | keyword ha hw hk => exact absurd rfl (keyword?_ne hk).1

theorem isDigit_of_lexeme? {c : Char} {more rest : List Char} {kind : Token.Kind}
    (h : lexeme? c (more ++ rest) = some (kind, more.length)) (hk : kind ≠ .integer) :
    ∀ d ∈ c :: more, d.isDigit = false := by
  have single (hc : c.isDigit = false) (hmore : more.length = 0) :
      ∀ d ∈ c :: more, d.isDigit = false := by
    rw [List.eq_nil_of_length_eq_zero hmore]
    exact List.forall_mem_singleton.mpr hc
  have letters (hc : c.isAlpha = true) (hmore : ∀ d ∈ more, d.isAlpha = true) :
      ∀ d ∈ c :: more, d.isDigit = false :=
    List.forall_mem_cons.mpr ⟨isDigit_of_isAlpha hc, fun d hd => isDigit_of_isAlpha (hmore d hd)⟩
  rw [lexeme?_eq_some] at h
  generalize hn : more.length = n at h
  cases h with
  | integer hd => exact absurd rfl hk
  | sign hs => exact single (isDigit_eq_false_of_isAlphanum (isAlphanum_of_sign? hs)) hn
  | shorthand ha hw => exact letters ha (length_takeWhile_eq.mp hn).1
  | keyword ha hw hkey =>
    obtain ⟨m, rfl⟩ := List.length_eq_one_iff.mp hn
    obtain ⟨_, _, hcons, hm, -⟩ := exists_of_keyword?_wordOf hkey
    obtain ⟨rfl, -⟩ := List.cons.inj hcons
    exact letters ha (List.forall_mem_singleton.mpr hm)
  | die ha hw hkey hd => exact single (isDigit_of_isAlpha ha) hn
  | reroll ha hw hkey hr => exact single (isDigit_of_isAlpha ha) hn

/-- **A word that is no number stands for its kind**, whatever its case. -/
theorem ofWord?_of_lexeme? {c : Char} {more rest : List Char} {kind : Token.Kind}
    (h : lexeme? c (more ++ rest) = some (kind, more.length)) (hk : kind ≠ .integer) :
    Token.Kind.ofWord? ((c :: more).map Char.toLower) = some kind := by
  rw [lexeme?_eq_some] at h
  generalize hn : more.length = n at h
  cases h with
  | integer hd => exact absurd rfl hk
  | sign hs =>
    obtain rfl := List.eq_nil_of_length_eq_zero hn
    exact Token.Kind.ofWord?_of_sign? hs
  | shorthand ha hw =>
    obtain ⟨hall, hleaves⟩ := length_takeWhile_eq.mp hn
    rw [wordOf, hleaves.takeWhile_append, List.takeWhile_eq_self_iff.mpr hall] at hw
    exact Token.Kind.ofWord?_of_shorthand? hw
  | keyword ha hw hkey =>
    obtain ⟨m, rfl⟩ := List.length_eq_one_iff.mp hn
    obtain ⟨_, _, hcons, -, hkey'⟩ := exists_of_keyword?_wordOf hkey
    obtain ⟨rfl, -⟩ := List.cons.inj hcons
    exact Token.Kind.ofWord?_of_keyword? hkey'
  | die ha hw hkey hd =>
    obtain rfl := List.eq_nil_of_length_eq_zero hn
    rw [List.map_singleton, hd]
    rfl
  | reroll ha hw hkey hr =>
    obtain rfl := List.eq_nil_of_length_eq_zero hn
    rw [List.map_singleton, hr]
    rfl

/-! ## Another text behind a word -/

/-- The letters of a text are the first ones of those of another text, in any case, it begins with a
digit only if the other one does, and it does not begin with an `i`. -/
structure CutsShort (rest rest' : List Char) : Prop where
  digit : Leaves Char.isDigit rest → Leaves Char.isDigit rest'
  letters : (rest'.map Char.toLower).takeWhile Char.isAlpha <+:
    (rest.map Char.toLower).takeWhile Char.isAlpha
  start : ∀ d ∈ rest'.head?, d.toLower ≠ 'i'

namespace CutsShort

theorem nil {rest : List Char} : CutsShort rest [] where
  digit _ := leaves_nil _
  letters := List.nil_prefix
  start := by simp

theorem blank {b : Char} {rest cs : List Char} (hb : Text.isBlank b = true) :
    CutsShort rest (b :: cs) where
  digit _ := leaves_cons.mpr (isDigit_eq_false_of_isAlphanum (isAlphanum_of_isBlank hb))
  letters := by
    have hb := isAlpha_eq_false_of_isAlphanum (isAlphanum_of_isBlank hb)
    rw [List.map_cons, List.takeWhile_cons, Char.isAlpha_toLower_eq_isAlpha, hb]
    exact List.nil_prefix
  start := by
    rintro d hd hi
    obtain rfl := Option.some.inj hd
    have hb := isAlpha_eq_false_of_isAlphanum (isAlphanum_of_isBlank hb)
    rw [← Char.isAlpha_toLower_eq_isAlpha, hi] at hb
    exact absurd hb (by decide)

theorem word {c c' : Char} {more more' cs cs' : List Char}
    (hword : (c' :: more').map Char.toLower = (c :: more).map Char.toLower)
    (hc : c.toLower ≠ 'i') (h : CutsShort cs cs') :
    CutsShort (c :: (more ++ cs)) (c' :: (more' ++ cs')) where
  digit := by
    rw [leaves_cons, leaves_cons, ← isDigit_toLower c', (List.cons.inj hword).1, isDigit_toLower]
    exact id
  letters := by
    rw [← List.cons_append, ← List.cons_append, List.map_append, List.map_append, hword,
      List.takeWhile_append, List.takeWhile_append]
    split
    · exact (List.prefix_append_right_inj _).mpr h.letters
    · exact List.prefix_rfl
  start := by
    rintro d hd hi
    obtain rfl := Option.some.inj hd
    exact hc ((List.cons.inj hword).1.symm.trans hi)

theorem alpha {rest rest' : List Char} (h : CutsShort rest rest')
    (hrest : Leaves Char.isAlpha rest) : Leaves Char.isAlpha rest' := by
  cases rest' with
  | nil => exact leaves_nil _
  | cons d rest' =>
    rw [leaves_cons, Bool.eq_false_iff]
    intro hd
    have hletters := h.letters
    rw [List.map_cons, List.takeWhile_cons, Char.isAlpha_toLower_eq_isAlpha, if_pos hd] at hletters
    cases rest with
    | nil => exact absurd (List.prefix_nil.mp hletters) (List.cons_ne_nil _ _)
    | cons c rest =>
      rw [List.map_cons, List.takeWhile_cons, Char.isAlpha_toLower_eq_isAlpha,
        leaves_cons.mp hrest] at hletters
      exact absurd (List.prefix_nil.mp hletters) (List.cons_ne_nil _ _)

theorem wordOf {c c' : Char} {rest rest' : List Char} (h : CutsShort rest rest')
    (hc : c'.toLower = c.toLower) : Dicebox.wordOf c' rest' <+: Dicebox.wordOf c rest := by
  rw [wordOf_eq, wordOf_eq, hc]
  exact (List.prefix_cons_inj _).mpr h.letters

end CutsShort

/-- A class that does not tell small letters from capitals holds of a text in any case. -/
theorem forall_mem_of_map_toLower {p : Char → Bool} (hp : ∀ c : Char, p c.toLower = p c)
    {cs ds : List Char} (h : ds.map Char.toLower = cs.map Char.toLower)
    (hcs : ∀ c ∈ cs, p c = true) : ∀ d ∈ ds, p d = true := by
  intro d hd
  have hmem : d.toLower ∈ cs.map Char.toLower := h ▸ List.mem_map_of_mem hd
  obtain ⟨c, hc, hcd⟩ := List.mem_map.mp hmem
  rw [← hp, ← hcd, hp, hcs c hc]

/-- No keyword comes about where letters are cut short. -/
theorem keyword?_take_of_shorter {word word' : List Char} (h : word' <+: word)
    (hnone : keyword? (word.take 2) = none) : keyword? (word'.take 2) = none := by
  cases hk : keyword? (word'.take 2) with
  | none => rfl
  | some kind =>
    have hlength := length_of_keyword? hk
    have htake : word'.take 2 = word.take 2 := by
      refine List.IsPrefix.eq_of_length ?_ ?_
      · exact h.take 2
      · have hle := h.length_le
        rw [List.length_take] at hlength ⊢
        rw [List.length_take]
        omega
    rw [htake, hnone] at hk
    cases hk

/-- What begins with a keyword is no shorthand. -/
theorem shorthand?_of_keyword? {word : List Char} {kind : Token.Kind}
    (h : keyword? (word.take 2) = some kind) : shorthand? word = none := by
  cases hw : shorthand? word with
  | none => rfl
  | some rule => rcases take_of_shorthand? hw with htake | htake <;> rw [htake] at h <;> cases h

theorem take_wordOf {c m : Char} (hm : m.isAlpha = true) (rest : List Char) :
    (wordOf c (m :: rest)).take 2 = [c.toLower, m.toLower] := by
  rw [wordOf, List.takeWhile_cons, if_pos hm]
  rfl

/-- No shorthand comes about where letters are cut short. -/
theorem shorthand?_wordOf_eq_none {c : Char} {rest : List Char} (hc : c.toLower ≠ 'a')
    (hrest : ∀ d ∈ rest.head?, d.toLower ≠ 'i') : shorthand? (wordOf c rest) = none := by
  cases hw : shorthand? (wordOf c rest) with
  | none => rfl
  | some rule =>
    rw [wordOf_eq] at hw
    rcases take_of_shorthand? hw with h | h
    · exact absurd (List.cons.inj h).1 hc
    · cases rest with
      | nil => cases (List.cons.inj h).2
      | cons d rest =>
        rw [List.map_cons, List.takeWhile_cons] at h
        split at h
        · exact absurd (List.cons.inj (List.cons.inj h).2).1 (hrest d rfl)
        · cases (List.cons.inj h).2

/-- **A word stays what it is** in another case and in front of a text that cuts its letters short.
-/
theorem lexeme?_cutShort {c c' : Char} {more more' rest rest' : List Char} {kind : Token.Kind}
    (hword : (c' :: more').map Char.toLower = (c :: more).map Char.toLower)
    (hrest : CutsShort rest rest') (h : lexeme? c (more ++ rest) = some (kind, more.length)) :
    lexeme? c' (more' ++ rest') = some (kind, more'.length) := by
  obtain ⟨hc, hmore⟩ := List.cons.inj hword
  have hlength : more'.length = more.length := by simpa using congrArg List.length hmore
  have hletter : c'.isAlpha = c.isAlpha := by
    rw [← Char.isAlpha_toLower_eq_isAlpha, hc, Char.isAlpha_toLower_eq_isAlpha]
  rw [lexeme?_eq_some] at h ⊢
  rw [hlength]
  generalize hn : more.length = n at h ⊢
  cases h with
  | integer hd =>
    obtain ⟨hall, hleaves⟩ := length_takeWhile_eq.mp hn
    have hn' := length_takeWhile_eq.mpr
      ⟨forall_mem_of_map_toLower isDigit_toLower hmore hall, hrest.digit hleaves⟩
    rw [← hn, ← hlength, hn']
    refine .integer ?_
    rw [← isDigit_toLower, hc, isDigit_toLower, hd]
  | sign hs =>
    obtain rfl := List.eq_nil_of_length_eq_zero hn
    obtain rfl := List.eq_nil_of_length_eq_zero hlength
    have hcc := eq_of_toLower_eq hc (isAlpha_eq_false_of_isAlphanum (isAlphanum_of_sign? hs))
    exact .sign (hcc ▸ hs)
  | shorthand ha hw =>
    obtain ⟨hall, hleaves⟩ := length_takeWhile_eq.mp hn
    have hall' := forall_mem_of_map_toLower Char.isAlpha_toLower_eq_isAlpha hmore hall
    have hleaves' := hrest.alpha hleaves
    have hn' := length_takeWhile_eq.mpr ⟨hall', hleaves'⟩
    have hsame : wordOf c' (more' ++ rest') = wordOf c (more ++ rest) := by
      rw [wordOf, wordOf, hleaves'.takeWhile_append, List.takeWhile_eq_self_iff.mpr hall',
        hleaves.takeWhile_append, List.takeWhile_eq_self_iff.mpr hall, hword]
    rw [← hsame] at hw
    rw [← hn, ← hlength, hn']
    exact .shorthand (hletter.trans ha) hw
  | keyword ha hw hk =>
    obtain ⟨m, rfl⟩ := List.length_eq_one_iff.mp hn
    obtain ⟨m', rfl⟩ := List.length_eq_one_iff.mp (hlength.trans hn)
    obtain ⟨_, _, hcons, hm, -⟩ := exists_of_keyword?_wordOf hk
    obtain ⟨rfl, -⟩ := List.cons.inj hcons
    have hmm : m'.toLower = m.toLower := (List.cons.inj hmore).1
    have hm' : m'.isAlpha = true := by
      rw [← Char.isAlpha_toLower_eq_isAlpha, hmm, Char.isAlpha_toLower_eq_isAlpha, hm]
    rw [List.singleton_append, take_wordOf hm, ← hc, ← hmm, ← take_wordOf hm' rest'] at hk
    exact .keyword (hletter.trans ha) (shorthand?_of_keyword? hk) hk
  | die ha hw hk hd =>
    obtain rfl := List.eq_nil_of_length_eq_zero hn
    obtain rfl := List.eq_nil_of_length_eq_zero hlength
    have hd' := hc.trans hd
    exact .die (hletter.trans ha) (shorthand?_wordOf_eq_none (by simp [hd']) hrest.start)
      (keyword?_take_of_shorter (hrest.wordOf hc) hk) hd'
  | reroll ha hw hk hr =>
    obtain rfl := List.eq_nil_of_length_eq_zero hn
    obtain rfl := List.eq_nil_of_length_eq_zero hlength
    have hr' := hc.trans hr
    exact .reroll (hletter.trans ha) (shorthand?_wordOf_eq_none (by simp [hr']) hrest.start)
      (keyword?_take_of_shorter (hrest.wordOf hc) hk) hr'

end Dicebox
