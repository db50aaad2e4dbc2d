import Dicebox.Proofs.Grammar.Places
import Dicebox.Proofs.Scanning

/-! # Cutting a text at its tokens

The scanner comes past a text one word or blank at a time, and each word it takes depends on what
stands behind. A text may still be cut in front of any of its tokens and behind any of them: what is
left is scanned into the tokens that it is made of, since a word is no other word where the text
behind it ends sooner.

- `Token.StandsBefore`: a word in front of a text.
- `Token.Passes`: the scanner on its way, and `Token.exists_passes` for how far it comes.
- `Token.Passes.split`, `Token.Passes.behind`: the way to a token and the way past some.
- `Token.Passes.cut`: nothing in place of the text that is still ahead.
- `Token.InRow`, `Token.Passes.inRow`: the tokens of a text stand in a row.
- `Token.scan_segment`: tokens in the middle of a text.
-/

namespace Dicebox

namespace Token

/-! ## The way of the scanner -/

/-- In front of a text the scanner takes this token. -/
def StandsBefore (t : Token) (rest : List Char) : Prop :=
  ∃ c more, t.text = c :: more ∧ Text.isBlank c = false ∧
    lexeme? c (more ++ rest) = some (t.kind, more.length)

theorem stop_eq (kind : Kind) (c : Char) (more : List Char) (p : Int) :
    stop ⟨kind, c :: more, p⟩ = p + 1 + more.length := by
  show p + ((c :: more).length : Int) = _
  rw [List.length_cons]
  omega

/-- The scanner comes past a text at an offset, takes these tokens, and has `rest` ahead. -/
inductive Passes : Int → List Char → List Token → List Char → Prop
  | nil {p : Int} {rest : List Char} : Passes p [] [] rest
  | blank {p : Int} {b : Char} {cs rest : List Char} {ts : List Token} :
      Text.isBlank b = true → Passes (p + 1) cs ts rest → Passes p (b :: cs) ts rest
  | word {p : Int} {kind : Kind} {c : Char} {more cs rest : List Char} {ts : List Token} :
      Text.isBlank c = false → lexeme? c (more ++ (cs ++ rest)) = some (kind, more.length) →
        Passes (p + 1 + more.length) cs ts rest →
          Passes p (c :: (more ++ cs)) (⟨kind, c :: more, p⟩ :: ts) rest

/-- **The scanner comes to the end of a text, or to a character that begins no word.** -/
theorem exists_passes (p : Int) (cs : List Char) :
    (∃ ts, Passes p cs ts []) ∨
      ∃ pre c rest ts, cs = pre ++ c :: rest ∧ Passes p pre ts (c :: rest) ∧
        Text.isBlank c = false ∧ lexeme? c rest = none := by
  -- along the scanner: the end, a blank, a character of no word, a word
  fun_induction scanFrom p cs with
  | case1 p => exact .inl ⟨[], .nil⟩
  | case2 p b rest hb ih =>
    rcases ih with ⟨ts, h⟩ | ⟨pre, c, rest', ts, rfl, h, hstop⟩
    · exact .inl ⟨ts, .blank hb h⟩
    · exact .inr ⟨b :: pre, c, rest', ts, rfl, .blank hb h, hstop⟩
  | case3 p c rest hb hlex =>
    exact .inr ⟨[], c, rest, [], rfl, .nil, by simpa using hb, hlex⟩
  | case4 p c rest hb kind more hlex ih =>
    have hblank : Text.isBlank c = false := by simpa using hb
    have htake : (rest.take more).length = more :=
      List.length_take_of_le (length_le_of_lexeme? hlex)
    rcases ih with ⟨ts, h⟩ | ⟨pre, d, rest', ts, hrest, h, hstop⟩
    · refine .inl ⟨⟨kind, c :: rest.take more, p⟩ :: ts, ?_⟩
      have hsplit : rest.take more ++ (rest.drop more ++ []) = rest := by
        rw [List.append_nil, List.take_append_drop]
      have hword := Passes.word hblank (by rwa [hsplit, htake]) (by rwa [htake])
      rwa [List.take_append_drop] at hword
    · refine .inr ⟨c :: (rest.take more ++ pre), d, rest', ⟨kind, c :: rest.take more, p⟩ :: ts,
        ?_, ?_, hstop⟩
      · rw [List.cons_append, List.append_assoc, ← hrest, List.take_append_drop]
      · exact Passes.word hblank (by rwa [← hrest, List.take_append_drop, htake]) (by rwa [htake])

namespace Passes

variable {p : Int} {cs rest : List Char} {ts : List Token}

theorem step {t : Token} (h : t.StandsBefore (cs ++ rest)) (hrest : Passes t.stop cs ts rest) :
    Passes t.position (t.text ++ cs) (t :: ts) rest := by
  obtain ⟨kind, text, p⟩ := t
  obtain ⟨c, more, rfl, hb, hlex⟩ := h
  rw [stop_eq] at hrest
  exact .word hb hlex hrest

theorem scans (h : Passes p cs ts rest) : Scans p cs ts rest := by
  induction h with
  | nil => exact .nil
  | blank hb _ ih =>
    rw [Scans, List.cons_append, scanFrom_of_blank hb, ih, List.length_cons]
    congr 2
    omega
  | @word p kind c more cs rest ts hb hlex _ ih =>
    have hlength : p + 1 + more.length + cs.length = p + (c :: (more ++ cs)).length := by
      rw [List.length_cons, List.length_append]
      omega
    rw [Scans, List.cons_append, List.append_assoc, scanFrom_of_lexeme hb hlex, List.drop_left,
      List.take_left, ih, hlength]
    cases scanFrom (p + (c :: (more ++ cs)).length) rest <;> rfl

/-- A text that the scanner comes past is split in front of each of its tokens. -/
theorem split (h : Passes p cs ts rest) :
    ∀ {before : List Token} {t : Token} {after : List Token}, ts = before ++ t :: after →
      ∃ pre post, cs = pre ++ (t.text ++ post) ∧ t.position = p + pre.length ∧
        t.StandsBefore (post ++ rest) ∧ Passes p pre before (t.text ++ post ++ rest) ∧
          Passes t.position (t.text ++ post) (t :: after) rest := by
  induction h with
  | nil =>
    intro before t after hts
    exact absurd hts.symm (by simp)
  | blank hb _ ih =>
    intro before t after hts
    obtain ⟨pre, post, rfl, hposition, hstands, hpre, hpost⟩ := ih hts
    refine ⟨_ :: pre, post, rfl, ?_, hstands, .blank hb hpre, hpost⟩
    rw [hposition, List.length_cons]
    omega
  | @word p kind c more cs rest ts hb hlex hrest ih =>
    intro before t after hts
    cases before with
    | nil =>
      obtain ⟨rfl, rfl⟩ := List.cons.inj hts
      exact ⟨[], cs, rfl, (Int.add_zero p).symm, ⟨c, more, rfl, hb, hlex⟩, .nil,
        .word hb hlex hrest⟩
    | cons s before =>
      obtain ⟨rfl, rfl⟩ := List.cons.inj hts
      obtain ⟨pre, post, rfl, hposition, hstands, hpre, hpost⟩ := ih rfl
      refine ⟨c :: (more ++ pre), post, ?_, ?_, hstands, .word hb ?_ hpre, hpost⟩
      · rw [List.cons_append, List.append_assoc]
      · rw [hposition, List.length_cons, List.length_append]
        omega
      · rwa [List.append_assoc] at hlex

/-- A text that the scanner comes past is split behind each of its tokens. -/
theorem behind (h : Passes p cs ts rest) :
    ∀ {before after : List Token}, ts = before ++ after →
      ∃ pre post, cs = pre ++ post ∧ stopFrom p before = p + pre.length ∧
        Passes p pre before (post ++ rest) := by
  have none : ∀ {p : Int} {cs rest : List Char}, ∃ pre post, cs = pre ++ post ∧
      stopFrom p [] = p + pre.length ∧ Passes p pre [] (post ++ rest) :=
    fun {p cs _} => ⟨[], cs, rfl, (Int.add_zero p).symm, .nil⟩
  induction h with
  | nil =>
    intro before after hts
    obtain ⟨rfl, -⟩ := List.append_eq_nil_iff.mp hts.symm
    exact none
  | blank hb _ ih =>
    intro before after hts
    cases before with
    | nil => exact none
    | cons t before =>
      obtain ⟨pre, post, rfl, hstop, hpre⟩ := ih hts
      refine ⟨_ :: pre, post, rfl, hstop.trans ?_, .blank hb hpre⟩
      rw [List.length_cons]
      omega
  | @word p kind c more cs rest ts hb hlex _ ih =>
    intro before after hts
    cases before with
    | nil => exact none
    | cons t before =>
      obtain ⟨rfl, rfl⟩ := List.cons.inj hts
      obtain ⟨pre, post, rfl, hstop, hpre⟩ := ih rfl
      refine ⟨c :: (more ++ pre), post, ?_, ?_, .word hb ?_ hpre⟩
      · rw [List.cons_append, List.append_assoc]
      · rw [← stop_eq kind c more p] at hstop
        refine Eq.trans hstop ?_
        rw [stop_eq, List.length_cons, List.length_append]
        omega
      · rwa [List.append_assoc] at hlex

/-- The text that is passed cuts short the text with what is ahead behind it. -/
theorem cutsShort (h : Passes p cs ts rest) : CutsShort (cs ++ rest) cs := by
  induction h with
  | nil => exact .nil
  | blank hb _ _ => exact .blank hb
  | word hb hlex _ ih =>
    rw [List.cons_append, List.append_assoc]
    exact .word rfl (toLower_ne_i_of_lexeme? hlex) ih

/-- **What is still ahead may be left out.** -/
theorem cut (h : Passes p cs ts rest) : Passes p cs ts [] := by
  induction h with
  | nil => exact .nil
  | blank hb _ ih => exact .blank hb ih
  | @word p kind c more cs rest ts hb hlex hrest ih =>
    refine .word hb ?_ ih
    rw [List.append_nil]
    exact lexeme?_cutShort rfl hrest.cutsShort hlex

end Passes

theorem scanFrom_of_passes {p : Int} {cs : List Char} {ts : List Token} (h : Passes p cs ts []) :
    scanFrom p cs = .ok (ts ++ [ending (p + cs.length)]) := by
  rw [← List.append_nil cs, h.scans, List.append_nil, scanFrom_nil]
  rfl

/-- The scanner comes to the end of a text that has tokens. -/
theorem passes_of_scanFrom {p : Int} {cs : List Char} {body : List Token} {stop : Int}
    (h : scanFrom p cs = .ok (body ++ [ending stop])) :
    Passes p cs body [] ∧ stop = p + cs.length := by
  rcases exists_passes p cs with ⟨ts, hts⟩ | ⟨pre, c, rest, ts, rfl, hpre, hb, hlex⟩
  · rw [scanFrom_of_passes hts] at h
    obtain ⟨rfl, hending⟩ := List.append_inj' (Except.ok.inj h) rfl
    exact ⟨hts, (congrArg Token.position (List.cons.inj hending).1).symm⟩
  · rw [hpre.scans, scanFrom_of_no_lexeme hb hlex] at h
    cases h

theorem scanFrom_shifted (k : Int) {p : Int} {cs : List Char} :
    ∀ {ts : List Token}, scanFrom p cs = .ok ts →
      scanFrom (p + k) cs = .ok (ts.map (shifted k)) := by
  fun_induction scanFrom p cs with
  | case1 p =>
    intro ts h
    obtain rfl := Except.ok.inj h
    exact scanFrom_nil _
  | case2 p c rest hb ih =>
    intro ts h
    rw [scanFrom_of_blank hb, Int.add_right_comm]
    exact ih h
  | case3 p c rest hb hlex =>
    intro ts h
    cases h
  | case4 p c rest hb kind more hlex ih =>
    intro ts h
    obtain ⟨us, hus, rfl⟩ := map_eq_ok.mp h
    have hmove : p + k + 1 + more = p + 1 + more + k := by omega
    rw [scanFrom_of_lexeme (by simpa using hb) hlex, hmove, ih hus]
    rfl

/-! ## Tokens in a row -/

/-- Tokens stand one behind the other, behind an offset, and each of them takes up some room. -/
def InRow (p : Int) : List Token → Prop
  | [] => True
  | t :: ts => p ≤ t.position ∧ t.position < t.stop ∧ InRow t.stop ts

theorem inRow_append {p : Int} {ts us : List Token} :
    InRow p (ts ++ us) ↔ InRow p ts ∧ InRow (stopFrom p ts) us := by
  induction ts generalizing p with
  | nil => exact (and_iff_right trivial).symm
  | cons t ts ih =>
    rw [List.cons_append, InRow, InRow, ih, and_assoc, and_assoc]
    rfl

theorem InRow.le_stopFrom {p : Int} {ts : List Token} (h : InRow p ts) : p ≤ stopFrom p ts := by
  induction ts generalizing p with
  | nil => exact le_refl p
  | cons t ts ih =>
    obtain ⟨hstart, hroom, hrest⟩ := h
    exact hstart.trans (hroom.le.trans (ih hrest))

/-- What tokens in a row cover begins behind the offset, and takes up some room. -/
theorem InRow.spanOf {p : Int} {ts : List Token} (h : InRow p ts) (hne : ts ≠ []) :
    p ≤ (spanOf ts).start ∧ (Token.spanOf ts).start < (Token.spanOf ts).stop ∧
      (Token.spanOf ts).stop = stopFrom p ts := by
  cases ts with
  | nil => exact absurd rfl hne
  | cons t ts =>
    obtain ⟨hstart, hroom, hrest⟩ := h
    exact ⟨hstart, hroom.trans_le hrest.le_stopFrom, rfl⟩

theorem InRow.mono {p q : Int} {ts : List Token} (h : InRow q ts) (hpq : p ≤ q) : InRow p ts := by
  cases ts with
  | nil => trivial
  | cons t ts => exact ⟨hpq.trans h.1, h.2⟩

/-- **The tokens of a text stand in a row.** -/
theorem Passes.inRow {p : Int} {cs rest : List Char} {ts : List Token} (h : Passes p cs ts rest) :
    InRow p ts := by
  induction h with
  | nil => trivial
  | blank _ _ ih => exact ih.mono (by omega)
  | @word p kind c more cs rest ts _ _ _ ih =>
    rw [InRow, stop_eq]
    refine ⟨le_refl p, ?_, ih⟩
    show p < _
    omega

/-! ## Segments -/

/-- **Tokens in the middle of a text are those of the stretch that they cover.** -/
theorem scan_segment {cs : List Char} {before ts after : List Token} {stop : Int}
    (h : scanFrom 0 cs = .ok (before ++ (ts ++ after) ++ [ending stop])) (hne : ts ≠ []) :
    ∃ pre mid post : List Char, cs = pre ++ (mid ++ post) ∧ mid ≠ [] ∧
      spanOf ts = ⟨pre.length, (pre.length + mid.length : Nat)⟩ ∧
        scanFrom 0 mid = .ok (ts.map (shifted (-pre.length)) ++ [ending mid.length]) := by
  obtain ⟨t, ts, rfl⟩ := List.exists_cons_of_ne_nil hne
  obtain ⟨pre, post', rfl, hposition, -, -, hpasses⟩ := (passes_of_scanFrom h).1.split rfl
  rw [Int.zero_add] at hposition
  obtain ⟨mid, post, hsplit, hstop, hmid⟩ := hpasses.behind (List.cons_append ..).symm
  have hscan := scanFrom_shifted (-pre.length) (scanFrom_of_passes hmid.cut)
  rw [hposition] at hstop hscan
  have hmoved : scanFrom 0 mid =
      .ok ((t :: ts).map (shifted (-pre.length)) ++ [ending mid.length]) := by
    have hending :
        (ending (pre.length + mid.length)).shifted (-pre.length) = ending mid.length := by
      show ending (pre.length + mid.length + -pre.length) = _
      congr 1
      omega
    rw [Int.add_right_neg, List.map_append, List.map_singleton, hending] at hscan
    exact hscan
  refine ⟨pre, mid, post, ?_, ?_, ?_, hmoved⟩
  · rw [hsplit]
  · rintro rfl
    simp at hmoved
  · rw [spanOf, hposition, Int.natCast_add, ← hstop]
    rfl

end Token

end Dicebox
