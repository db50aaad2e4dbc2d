import Dicebox.Proofs.Grammar.Sentences
import Dicebox.Proofs.Notation.Trees
import Dicebox.Proofs.Segments

/-! # Canonical notation has the fewest brackets

Canonical notation puts an operand in brackets only where it would otherwise be no operand. A text
that the same expression is derived from needs brackets there as well, for nothing else makes a
factor of a chain or a chain of a weaker one. So no text that is read as an expression opens fewer
brackets than its canonical notation does, and none of those can be left out.

- `openings`, `Expr.openings`: the brackets that tokens and written forms open.
- `Token.Passes.openings_le`: what the scanner finds.
- `Phrase.openings_meaning`: what a derivation needs.
- `canonical_has_fewest_brackets`: texts.
-/

namespace Dicebox

variable {limits : Limits}

/-! ## Tokens -/

/-- How many of the tokens open a bracket. -/
def openings (ts : List Token) : Nat := ts.countP fun t => t.kind = .opening

theorem openings_append (ts us : List Token) : openings (ts ++ us) = openings ts + openings us :=
  List.countP_append

theorem openings_cons_le (t : Token) (ts : List Token) : openings ts ≤ openings (t :: ts) :=
  (List.sublist_cons_self t ts).countP_le

theorem openings_opening (o : Word .opening) (ts : List Token) :
    openings (o.1 :: ts) = openings ts + 1 :=
  List.countP_cons_of_pos (decide_eq_true o.2)

theorem eq_of_lexeme?_opening {c : Char} {rest : List Char} {more : Nat}
    (h : lexeme? c rest = some (.opening, more)) : c = '(' := by
  cases lexeme?_eq_some.mp h with
  | sign hs =>
    rw [sign?.eq_def] at hs
    split at hs <;> first | rfl | cases hs
  | keyword ha hw hk =>
    rw [keyword?.eq_def] at hk
    split at hk <;> cases hk

/-- **A text has a bracket for each token that opens one.** -/
theorem Token.Passes.openings_le {p : Int} {cs rest : List Char} {ts : List Token}
    (h : Passes p cs ts rest) : openings ts ≤ cs.count '(' := by
  induction h with
  | nil => exact le_refl 0
  | blank _ _ ih => exact ih.trans (List.count_le_count_cons)
  | @word p kind c more cs rest ts _ hlex _ ih =>
    have hcs : openings ts ≤ (more ++ cs).count '(' := by
      rw [List.count_append]
      omega
    by_cases hk : kind = .opening
    · subst hk
      obtain rfl := eq_of_lexeme?_opening hlex
      rw [openings_opening ⟨⟨.opening, '(' :: more, p⟩, rfl⟩, List.count_cons_self]
      omega
    · have hother : openings (⟨kind, c :: more, p⟩ :: ts) = openings ts :=
        List.countP_cons_of_neg (by simpa using hk)
      rw [hother]
      exact hcs.trans (List.count_le_count_cons)

theorem openings_le_of_scan {text : String} {body : List Token} {stop : Int}
    (h : Token.scan text = .ok (body ++ [Token.ending stop])) :
    openings body ≤ text.toList.count '(' :=
  (Token.passes_of_scanFrom h).1.openings_le

/-! ## Written forms -/

theorem Numeral.count_ofInt (n : Int) : (Numeral.ofInt n).count '(' = 0 := by
  have hdigits : ∀ m : Nat, '(' ∉ Nat.toDigits 10 m := by
    intro m hm
    have hdigit := Nat.isDigit_of_mem_toDigits (by decide) (by decide) hm
    exact absurd hdigit (by decide)
  rw [List.count_eq_zero]
  cases n with
  | ofNat m => exact hdigits m
  | negSucc m => simpa [Numeral.ofInt] using hdigits (m + 1)

theorem Modifier.count_write (sides : Int) (m : Modifier) : (m.write sides).count '(' = 0 := by
  cases m with
  | select rule count =>
    rw [write, List.count_append, Numeral.count_ofInt]
    cases rule <;> rfl
  | explode threshold cap =>
    rw [write, List.count_cons_of_ne (by decide)]
    split
    · rfl
    · exact Numeral.count_ofInt threshold
  | reroll values once cap =>
    have hlist : ([','].intercalate (values.map Numeral.ofInt)).count '(' = 0 := by
      induction values with
      | nil => rfl
      | cons v vs ih =>
        cases vs with
        | nil => simpa using Numeral.count_ofInt v
        | cons w vs =>
          have hcomma : [','].count '(' = 0 := rfl
          rw [List.map_cons, List.map_cons, List.intercalate_cons_cons, List.count_append,
            List.count_append, Numeral.count_ofInt, hcomma, Nat.zero_add]
          exact ih
    rw [write, List.count_append, hlist]
    cases once <;> rfl
  | success threshold | failure threshold =>
    rw [write, List.count_append, Numeral.count_ofInt]
    rfl

theorem Dice.count_write (t : Dice) : t.write.count '(' = 0 := by
  have hmodifiers : (t.modifiers.flatMap (Modifier.write t.sides)).count '(' = 0 := by
    rw [List.count_eq_zero]
    intro hmem
    obtain ⟨m, -, hm⟩ := List.mem_flatMap.mp hmem
    exact List.count_eq_zero.mp (m.count_write t.sides) hm
  rw [write, List.count_append, List.count_append, List.count_cons_of_ne (by decide),
    Numeral.count_ofInt, Numeral.count_ofInt, hmodifiers]

namespace Expr

/-- How many brackets the written form opens. -/
def openings (e : Expr) : Nat := e.write.count '('

/-- The same for an expression as an operand. -/
def openingsAs (precedence : Nat) (e : Expr) : Nat := (e.writeAs precedence).count '('

theorem openingsAs_of_le {p : Nat} {e : Expr} (h : p ≤ e.precedence) :
    e.openingsAs p = e.openings := by
  rw [openingsAs, writeAs, if_neg (Nat.not_lt.mpr h), openings]

theorem openingsAs_of_lt {p : Nat} {e : Expr} (h : e.precedence < p) :
    e.openingsAs p = e.openings + 1 := by
  rw [openingsAs, writeAs, if_pos h, bracketed, List.cons_append, List.count_cons_self,
    List.count_append, openings]
  rfl

theorem openingsAs_le (p : Nat) (e : Expr) : e.openingsAs p ≤ e.openings + 1 := by
  by_cases h : e.precedence < p
  · rw [openingsAs_of_lt h]
  · rw [openingsAs_of_le (Nat.not_lt.mp h)]
    omega

theorem openingsAs_mono {p q : Nat} (h : p ≤ q) (e : Expr) : e.openingsAs p ≤ e.openingsAs q := by
  by_cases hq : e.precedence < q
  · rw [openingsAs_of_lt hq]
    exact e.openingsAs_le p
  · rw [openingsAs_of_le (Nat.not_lt.mp hq), openingsAs_of_le (h.trans (Nat.not_lt.mp hq))]

theorem openings_withSpan (s : Span) (e : Expr) : (e.withSpan s).openings = e.openings := by
  rw [openings, ← write_unplaced, unplaced_withSpan, write_unplaced, openings]

theorem openings_constant (v : Int) (s : Span) : (constant v s).openings = 0 :=
  Numeral.count_ofInt v

theorem openings_dice (t : Dice) (s : Span) : (dice t s).openings = 0 := t.count_write

theorem openings_negate (e : Expr) (s : Span) : (negate e s).openings = e.openingsAs 3 := by
  rw [openings, write_negate, List.count_cons_of_ne (by decide), openingsAs]

theorem openings_binary (op : Operator) (l r : Expr) (s : Span) :
    (binary op l r s).openings = l.openingsAs op.precedence + r.openingsAs (op.precedence + 1) := by
  have hsign : op.sign ≠ '(' := by cases op <;> decide
  rw [openings, write_binary, List.count_append, List.count_cons_of_ne (by decide),
    List.count_cons_of_ne hsign, List.count_cons_of_ne (by decide), openingsAs, openingsAs]

end Expr

/-! ## Derivations -/

/-- **A derivation opens every bracket of the written form.** -/
theorem Phrase.openings_meaning : ∀ {p : Part} (d : Phrase p), match p, d with
    | .whole c, d => (d.tree limits).openingsAs (Part.whole c).precedence ≤ openings d.tokens
    | .tail l, d => ∀ {left : Expr} {n : Nat}, left.openingsAs l.precedence ≤ n →
      (d.onto limits left).openingsAs l.precedence ≤ n + openings d.tokens := by
  -- a tail keeps what is in front of it an operand of its own level, so no bracket is added there
  intro p d
  induction d with
  | constant n =>
    exact le_of_eq_of_le (Expr.openings_constant n.1.value ⟨n.1.position, n.1.stop⟩) (Nat.zero_le _)
  | shorthand w rule known =>
    exact le_of_eq_of_le (Expr.openings_dice _ ⟨w.1.position, w.1.stop⟩) (Nat.zero_le _)
  | dice t =>
    exact le_of_eq_of_le (Expr.openings_dice (t.dice limits) (Token.spanOf t.tokens))
      (Nat.zero_le _)
  | brackets o inner c ih =>
    have hinner : (inner.tree limits).openings ≤ openings inner.tokens := by
      rw [← Expr.openingsAs_of_le (Expr.one_le_precedence _)]
      exact ih
    refine (Expr.openingsAs_le _ _).trans ?_
    show (Expr.withSpan _ (inner.tree limits)).openings + 1 ≤
      openings (o.1 :: inner.tokens ++ [c.1])
    rw [Expr.openings_withSpan, List.cons_append, openings_opening, openings_append]
    omega
  | negate m e ih =>
    have hnegate := Expr.openings_negate (e.tree limits)
      ⟨m.1.position, (e.tree limits).span.stop⟩
    exact (le_of_eq_of_le hnegate ih).trans (openings_cons_le m.1 e.tokens)
  | @chain l first more ihf ihm =>
    have hfirst : (first.tree limits).openingsAs l.precedence ≤ openings first.tokens := by
      refine le_trans (Expr.openingsAs_mono ?_ _) ihf
      rw [Level.precedence_operand]
      omega
    exact (ihm hfirst).trans_eq (openings_append first.tokens more.tokens).symm
  | last =>
    intro left n h
    exact h
  | @link l sign next more ihn ihm =>
    intro left n h
    have hbinary : ((Expr.binary sign.op left (next.tree limits)
        ⟨left.span.start, (next.tree limits).span.stop⟩).openingsAs l.precedence) ≤
          n + openings next.tokens := by
      rw [Expr.openingsAs_of_le (by rw [Expr.precedence, sign.binds]), Expr.openings_binary,
        sign.binds, ← Level.precedence_operand]
      exact Nat.add_le_add h ihn
    have hsign := openings_cons_le sign.word.1 (next.tokens ++ more.tokens)
    rw [openings_append] at hsign
    refine (ihm hbinary).trans ?_
    rw [tokens, List.cons_append]
    omega

theorem Phrase.openings_tree (d : Sentence) : (d.tree limits).openings ≤ openings d.tokens := by
  rw [← Expr.openingsAs_of_le (Expr.one_le_precedence _)]
  exact d.openings_meaning

/-! ## Texts -/

/-- No text that is read as an expression opens fewer brackets than its written form. -/
theorem openings_le_of_parse {text : String} {e : Expr} (h : Expr.parse limits text = .ok e) :
    e.openings ≤ text.toList.count '(' := by
  obtain ⟨d, stop, hscan, -, -, rfl⟩ := parse_eq_ok.mp h
  exact d.openings_tree.trans (openings_le_of_scan hscan)

/-- **Canonical notation has the fewest brackets.** What was read from a text is written with no
more opening brackets than the text has. So if one of them is left out together with a closing one
behind it, what is left is read as no equal expression, whatever the limits. -/
theorem canonical_has_fewest_brackets {text : String} {e : Expr}
    (h : Expr.parse limits text = .ok e) :
    e.canonical.toList.count '(' ≤ text.toList.count '(' ∧
      ∀ before inside behind : List Char,
        e.canonical.toList = before ++ '(' :: inside ++ ')' :: behind →
          ∀ (limits' : Limits) (e' : Expr),
            Expr.parse limits' (String.ofList (before ++ inside ++ behind)) = .ok e' →
              e'.same e = false := by
  rw [Expr.canonical, String.toList_ofList]
  refine ⟨openings_le_of_parse h, ?_⟩
  intro before inside behind hwrite limits' e' h'
  rw [Bool.eq_false_iff]
  intro hsame
  -- an equal expression is written alike, with one bracket more than it was read from
  have hfewer := openings_le_of_parse h'
  have hequal : e'.write = e.write := by
    rw [← Expr.write_unplaced, Expr.same_iff.mp hsame, Expr.write_unplaced]
  rw [Expr.openings, hequal, hwrite, String.toList_ofList] at hfewer
  simp only [List.count_append, List.count_cons_self] at hfewer
  rw [List.count_cons_of_ne (by decide)] at hfewer
  omega

theorem scan_doubledSum : Token.scan "2*((1d6)+1)" = .ok
    [⟨.integer, ['2'], 0⟩, ⟨.operator .mul, ['*'], 1⟩, ⟨.opening, ['('], 2⟩, ⟨.opening, ['('], 3⟩,
      ⟨.integer, ['1'], 4⟩, ⟨.die, ['d'], 5⟩, ⟨.integer, ['6'], 6⟩, ⟨.closing, [')'], 7⟩,
      ⟨.operator .add, ['+'], 8⟩, ⟨.integer, ['1'], 9⟩, ⟨.closing, [')'], 10⟩,
      Token.ending 11] := by
  decide +kernel

theorem scan_doubledDie : Token.scan "2 * 1d6 + 1" = .ok
    [⟨.integer, ['2'], 0⟩, ⟨.operator .mul, ['*'], 2⟩, ⟨.integer, ['1'], 4⟩, ⟨.die, ['d'], 5⟩,
      ⟨.integer, ['6'], 6⟩, ⟨.operator .add, ['+'], 8⟩, ⟨.integer, ['1'], 10⟩,
      Token.ending 11] := by
  decide +kernel

/-- Of two pairs of brackets one is written, and without it a die is doubled and no sum. -/
theorem doubled_sum_has_fewest_brackets :
    ∃ e, Expr.parse {} "2*((1d6)+1)" = .ok e ∧ e.canonical = "2 * (1d6 + 1)" ∧
      e.canonical.toList.count '(' ≤ "2*((1d6)+1)".toList.count '(' ∧
        ∃ e', Expr.parse {} "2 * 1d6 + 1" = .ok e' ∧ e'.same e = false := by
  have hsum : ∃ e, Expr.parse {} "2*((1d6)+1)" = .ok e ∧ e.canonical = "2 * (1d6 + 1)" := by
    rw [Expr.parse, scan_doubledSum]
    exact ⟨_, rfl, by decide⟩
  have hdie : ∃ e', Expr.parse {} "2 * 1d6 + 1" = .ok e' := by
    rw [Expr.parse, scan_doubledDie]
    exact ⟨_, rfl⟩
  obtain ⟨e, hread, hwrite⟩ := hsum
  obtain ⟨e', hread'⟩ := hdie
  obtain ⟨hcount, hfewest⟩ := canonical_has_fewest_brackets hread
  refine ⟨e, hread, hwrite, hcount, e', hread', ?_⟩
  refine hfewest "2 * ".toList "1d6 + 1".toList [] ?_ {} e' ?_
  · rw [hwrite]
    decide
  · exact hread'

end Dicebox
