import Dicebox.Proofs.Grammar.Reading
import Dicebox.Proofs.Scanning

/-! # Reading whole expressions

A text is read as an expression if and only if its tokens, the end mark included, are no more than
allowed and are derived by a sentence of the grammar that is within the limits and not nested too
deeply. There is then only one sentence that derives them, and what is read is its tree.

- `Derived`: a sentence derives the tokens of a text.
- `ofTokens_eq_ok`, `parse_eq_ok`: when tokens and texts are read, and as what.
- `ofTokens_too_many`, `parse_too_many`: what is said about too many tokens.
- `reads_exactly_the_sentences`: the same for the tokens of a text, with the sentence unique.
-/

namespace Dicebox

/-- A sentence derives tokens that are what it is written with, and an end mark. -/
def Derived (tokens : List Token) (d : Sentence) : Prop :=
  ∃ stop, tokens = d.tokens ++ [Token.ending stop]

/-- **Tokens have one derivation at most.** -/
theorem Derived.unique {tokens : List Token} {d d' : Sentence} (h : Derived tokens d)
    (h' : Derived tokens d') : d = d' := by
  obtain ⟨stop, rfl⟩ := h
  obtain ⟨stop', h'⟩ := h'
  exact Phrase.tokens_inj (List.append_inj_left' h' rfl)

/-! ## Tokens with an end mark -/

theorem closed_concat (body : List Token) (stop : Int) :
    closed (body ++ [Token.ending stop]) = body ++ [Token.ending stop] := by
  rw [closed, List.getLast?_concat]
  rfl

theorem takeWhile_ending {body : List Token} {stop : Int} (h : ∀ t ∈ body, t.kind ≠ .endMark) :
    (body ++ [Token.ending stop]).takeWhile (fun t => decide (t.kind ≠ .endMark)) = body := by
  rw [List.takeWhile_append_of_pos fun t ht => decide_eq_true (h t ht)]
  exact List.append_nil body

theorem Phrase.tokens_ne_nil {p : Part} (d : Phrase p) : (∃ c, p = .whole c) → d.tokens ≠ [] := by
  induction d with
  | constant | shorthand | brackets | negate =>
    intro _
    simp [tokens]
  | dice t =>
    intro _
    simp [tokens, Throw.tokens]
  | chain first more ihf _ =>
    intro _
    exact List.append_ne_nil_of_left_ne_nil (ihf ⟨_, rfl⟩) _
  | last | link =>
    rintro ⟨c, h⟩
    cases h

theorem ofTokens_eq_ok {limits : Limits} {body : List Token} {stop : Int}
    (hbody : ∀ t ∈ body, t.Scanned ∧ t.kind ≠ .endMark) {e : Expr} :
    Expr.ofTokens limits (body ++ [Token.ending stop]) = .ok e ↔
      (body.length + 1 : Int) ≤ limits.maxTokens ∧
        ∃ d : Sentence, d.Accepted limits nestingLimit ∧ body = d.tokens ∧ e = d.tree limits := by
  have hscanned : ∀ t ∈ body, t.Scanned := fun t ht => (hbody t ht).1
  rw [Expr.ofTokens, closed_concat, takeWhile_ending fun t ht => (hbody t ht).2]
  dsimp only
  by_cases hempty : body = []
  · subst hempty
    constructor
    · intro h
      cases h
    · rintro ⟨_, d, _, hd, _⟩
      exact absurd hd.symm (d.tokens_ne_nil ⟨_, rfl⟩)
  · rw [if_neg (by simpa using hempty), List.length_append, List.length_singleton]
    by_cases hlong : limits.maxTokens < (body.length + 1 : Nat)
    · rw [if_pos hlong]
      constructor
      · intro h
        split at h <;> cases h
      · rintro ⟨hle, _⟩
        omega
    · rw [if_neg hlong, bind_eq_ok]
      constructor
      · rintro ⟨⟨e', rest⟩, hread, h⟩
        obtain ⟨d, hd, hbody, rfl⟩ := Read.sum_sound Read.factor_sound hscanned hread
        dsimp only at h
        split at h
        · next hrest =>
          obtain rfl := Except.ok.inj h
          rw [List.isEmpty_iff.mp hrest, List.append_nil] at hbody
          exact ⟨by omega, d, hd, hbody, rfl⟩
        · cases h
      · rintro ⟨_, d, hd, rfl, rfl⟩
        have hread := fun fin => Read.phrase_complete fin d hd hscanned (stops_nil _)
        simp only [Read.Reads, List.append_nil] at hread
        exact ⟨(d.tree limits, []), hread _, rfl⟩

theorem tokenBeyond?_of_nonneg {limit : Int} (h : 0 ≤ limit) (tokens : List Token) :
    tokenBeyond? limit tokens = tokens[limit.toNat]? := by
  rw [tokenBeyond?, if_neg (Int.not_lt.mpr h), if_neg (Int.not_lt.mpr h)]

/-- More tokens than allowed are refused at the first one that is left out. -/
theorem ofTokens_too_many {limits : Limits} {body : List Token} {stop : Int}
    (hbody : ∀ t ∈ body, t.kind ≠ .endMark) (hmax : 1 ≤ limits.maxTokens)
    (hlong : limits.maxTokens < (body ++ [Token.ending stop]).length) :
    ∃ t, (body ++ [Token.ending stop])[limits.maxTokens.toNat]? = some t ∧
      Expr.ofTokens limits (body ++ [Token.ending stop]) =
        .error (.fault (.tooManyTokens limits.maxTokens) t.position) := by
  have hlt : limits.maxTokens.toNat < (body ++ [Token.ending stop]).length := by omega
  have hne : ¬ body.isEmpty = true := by
    intro h
    rw [List.isEmpty_iff.mp h, List.nil_append, List.length_singleton] at hlong
    omega
  have hbeyond : tokenBeyond? limits.maxTokens (body ++ [Token.ending stop]) =
      some (body ++ [Token.ending stop])[limits.maxTokens.toNat] := by
    rw [tokenBeyond?_of_nonneg (by omega), List.getElem?_eq_getElem hlt]
  refine ⟨_, List.getElem?_eq_getElem hlt, ?_⟩
  rw [Expr.ofTokens, closed_concat, takeWhile_ending hbody]
  dsimp only
  rw [if_neg hne, if_pos hlong, hbeyond]
  rfl

/-! ## The tokens of a text -/

/-- The tokens that a sentence is derived from are no end marks, and are as the scanner makes them. -/
theorem scanned_of_scan {text : String} {d : Sentence} {stop : Int}
    (h : Token.scan text = .ok (d.tokens ++ [Token.ending stop])) :
    ∀ t ∈ d.tokens, t.Scanned ∧ t.kind ≠ .endMark := by
  obtain ⟨body, stop', hbody, hscanned, -⟩ := Token.scanFrom_sound h
  obtain rfl := List.append_inj_left' hbody rfl
  exact hscanned

/-- **When a text is read, and as what.** -/
theorem parse_eq_ok {limits : Limits} {text : String} {e : Expr} :
    Expr.parse limits text = .ok e ↔ ∃ d : Sentence, ∃ stop,
      Token.scan text = .ok (d.tokens ++ [Token.ending stop]) ∧
        (d.tokens.length + 1 : Int) ≤ limits.maxTokens ∧ d.Accepted limits nestingLimit ∧
          e = d.tree limits := by
  rw [Expr.parse, bind_eq_ok]
  constructor
  · rintro ⟨tokens, hscan, h⟩
    obtain ⟨body, stop, rfl, hbody, -⟩ := Token.scanFrom_sound hscan
    obtain ⟨hlen, d, hd, rfl, rfl⟩ := (ofTokens_eq_ok hbody).mp h
    exact ⟨d, stop, hscan, hlen, hd, rfl⟩
  · rintro ⟨d, stop, hscan, hlen, hd, rfl⟩
    exact ⟨_, hscan, (ofTokens_eq_ok (scanned_of_scan hscan)).mpr ⟨hlen, d, hd, rfl, rfl⟩⟩

/-- What a text is read as is the tree of the accepted sentence that derives its tokens. -/
theorem parse_sound {limits : Limits} {text : String} {e : Expr}
    (h : Expr.parse limits text = .ok e) :
    ∃ tokens, ∃ d : Sentence, Token.scan text = .ok tokens ∧ Derived tokens d ∧
      d.Accepted limits nestingLimit ∧ (∀ t ∈ d.tokens, t.Scanned) ∧ e = d.tree limits := by
  obtain ⟨d, stop, hscan, -, hd, rfl⟩ := parse_eq_ok.mp h
  exact ⟨_, d, hscan, ⟨stop, rfl⟩, hd, fun t ht => (scanned_of_scan hscan t ht).1, rfl⟩

theorem parse_too_many {limits : Limits} {text : String} {tokens : List Token}
    (hscan : Token.scan text = .ok tokens) (hmax : 1 ≤ limits.maxTokens)
    (hlong : limits.maxTokens < tokens.length) :
    ∃ t, tokens[limits.maxTokens.toNat]? = some t ∧
      Expr.parse limits text = .error (.fault (.tooManyTokens limits.maxTokens) t.position) := by
  obtain ⟨body, stop, rfl, hbody, -⟩ := Token.scanFrom_sound hscan
  obtain ⟨t, ht, herror⟩ := ofTokens_too_many (fun t ht => (hbody t ht).2) hmax hlong
  refine ⟨t, ht, ?_⟩
  rw [Expr.parse, hscan]
  exact herror

/-- **The reader accepts exactly the sentences of the grammar.** -/
theorem reads_exactly_the_sentences {limits : Limits} {text : String} {tokens : List Token}
    (hscan : Token.scan text = .ok tokens) (hlegible : AllLegible tokens) :
    ((∃ e, Expr.ofTokens limits tokens = .ok e) ↔
      tokens.length ≤ limits.maxTokens ∧
        ∃ d : Sentence, Derived tokens d ∧ d.Within limits ∧ d.nesting ≤ 99) ∧
    ∀ e, Expr.ofTokens limits tokens = .ok e →
      ∃ d : Sentence, Derived tokens d ∧ d.Within limits ∧ d.nesting ≤ 99 ∧ d.tree limits = e ∧
        ∀ d' : Sentence, Derived tokens d' → d' = d := by
  obtain ⟨body, stop, rfl, hbody, _⟩ := Token.scanFrom_sound hscan
  have sound : ∀ e, Expr.ofTokens limits (body ++ [Token.ending stop]) = .ok e →
      ((body ++ [Token.ending stop]).length : Int) ≤ limits.maxTokens ∧
      ∃ d : Sentence, Derived (body ++ [Token.ending stop]) d ∧ d.Within limits ∧ d.nesting ≤ 99 ∧
        d.tree limits = e := by
    intro e h
    obtain ⟨hlen, d, hd, rfl, rfl⟩ := (ofTokens_eq_ok hbody).mp h
    refine ⟨by simpa using hlen, d, ⟨stop, rfl⟩, hd.within, Nat.le_of_lt_succ hd.nesting, rfl⟩
  refine ⟨⟨?_, ?_⟩, ?_⟩
  · rintro ⟨e, h⟩
    obtain ⟨hlen, d, hd, hw, hn, _⟩ := sound e h
    exact ⟨hlen, d, hd, hw, hn⟩
  · rintro ⟨hlen, d, ⟨stop', hd⟩, hw, hn⟩
    obtain rfl := List.append_inj_left' hd rfl
    have hl := (allLegible_append.mp hlegible).1
    exact ⟨d.tree limits, (ofTokens_eq_ok hbody).mpr
      ⟨by simpa using hlen, d, ⟨hw, Nat.lt_succ_of_le hn, hl⟩, rfl, rfl⟩⟩
  · intro e h
    obtain ⟨_, d, hd, hw, hn, he⟩ := sound e h
    exact ⟨d, hd, hw, hn, he, fun d' hd' => hd'.unique hd⟩

theorem scan_pool : Token.scan "2d6" = .ok
    [⟨.integer, ['2'], 0⟩, ⟨.die, ['d'], 1⟩, ⟨.integer, ['6'], 2⟩, Token.ending 3] :=
  Token.scan_dice ['2'] ['6'] (by simp) (by simp)

theorem parse_pool : Expr.parse {} "2d6" = .ok (.dice ⟨2, 6, []⟩ ⟨0, 3⟩) := by
  rw [Expr.parse, scan_pool]
  rfl

/-- The tokens of `2d6` have one derivation, which is read. -/
theorem pool_has_one_derivation :
    ∃ tokens, Token.scan "2d6" = .ok tokens ∧ AllLegible tokens ∧
      ∃ d : Sentence, Derived tokens d ∧ d.tree {} = .dice ⟨2, 6, []⟩ ⟨0, 3⟩ ∧
        ∀ d' : Sentence, Derived tokens d' → d' = d := by
  let tokens : List Token :=
    [⟨.integer, ['2'], 0⟩, ⟨.die, ['d'], 1⟩, ⟨.integer, ['6'], 2⟩, Token.ending 3]
  have hlegible : AllLegible tokens := by
    intro t ht _
    simp only [tokens, List.mem_cons, List.not_mem_nil, or_false] at ht
    rcases ht with rfl | rfl | rfl | rfl <;> decide
  have hread : Expr.ofTokens {} tokens = .ok (.dice ⟨2, 6, []⟩ ⟨0, 3⟩) := rfl
  obtain ⟨d, hd, _, _, htree, hunique⟩ :=
    (reads_exactly_the_sentences scan_pool hlegible).2 _ hread
  exact ⟨tokens, scan_pool, hlegible, d, hd, htree, hunique⟩

theorem scan_die : Token.scan "d6" =
    .ok [⟨.die, ['d'], 0⟩, ⟨.integer, ['6'], 1⟩, Token.ending 2] :=
  Token.scan_dice [] ['6'] (by simp) (by simp)

/-- A dice term without a count is one die even where no dice are allowed. -/
theorem lone_die_read_where_no_dice_are :
    ∃ tokens, Token.scan "d6" = .ok tokens ∧ AllLegible tokens ∧
      ¬ ((∃ e, Expr.ofTokens { maxDice := 0 } tokens = .ok e) ↔
        tokens.length ≤ (1024 : Int) ∧ ∃ d : Sentence, Derived tokens d ∧
          d.Within { maxDice := 0 } ∧ (∀ t ∈ d.throws, 1 ≤ t.number ∧ t.number ≤ 0) ∧
            d.nesting ≤ 99) := by
  let tokens : List Token := [⟨.die, ['d'], 0⟩, ⟨.integer, ['6'], 1⟩, Token.ending 2]
  have hlegible : AllLegible tokens := by
    intro t ht _
    simp only [tokens, List.mem_cons, List.not_mem_nil, or_false] at ht
    rcases ht with rfl | rfl | rfl <;> decide
  have hread : Expr.ofTokens { maxDice := 0 } tokens = .ok (.dice ⟨1, 6, []⟩ ⟨0, 2⟩) := rfl
  refine ⟨tokens, scan_die, hlegible, fun h => ?_⟩
  obtain ⟨_, d, hd, _, hcount, _⟩ := h.mp ⟨_, hread⟩
  let die : Throw := ⟨none, ⟨⟨.die, ['d'], 0⟩, rfl⟩, ⟨⟨.integer, ['6'], 1⟩, rfl⟩, []⟩
  obtain rfl : d = .chain (.chain (.dice die) .last) .last := hd.unique ⟨2, rfl⟩
  have hzero := (hcount die List.mem_cons_self).2
  exact absurd hzero (by decide)

end Dicebox
