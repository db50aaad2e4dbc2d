import Dicebox.Proofs.Grammar

/-! # The grammar is unambiguous

Two phrases of the same part, each with tokens behind it that are no part of it, are equal if they
are written alike with what follows. A list of tokens therefore has one derivation at most, whatever
the limits.

- `Listing.tokens_append_inj`, `Clause.tokens_append_inj`, `Throw.tokens_append_inj`: the parts of a
  dice term.
- `Phrase.tokens_append_inj`: phrases.
-/

namespace Dicebox

/-! ## Leading tokens -/

@[simp] theorem leading_cons (t : Token) (ts : List Token) : leading (t :: ts) = some t.kind := rfl

@[simp] theorem stops_nil (p : Nat) : Stops p [] := by
  intro k h
  cases h

theorem stops_cons {p : Nat} {t : Token} {ts : List Token} :
    Stops p (t :: ts) ↔ t.kind = .closing ∨ ∃ op, t.kind = .operator op ∧ op.precedence < p := by
  constructor
  · intro h
    exact h t.kind rfl
  · rintro h k hk
    obtain rfl := Option.some.inj hk
    exact h

theorem Stops.mono {p q : Nat} {ts : List Token} (h : Stops p ts) (hpq : p ≤ q) : Stops q ts := by
  intro k hk
  rcases h k hk with hc | ⟨op, hop, hlt⟩
  · exact Or.inl hc
  · exact Or.inr ⟨op, hop, by omega⟩

/-- A kind that is neither a closing bracket nor an operator does not stand behind a phrase. -/
theorem Stops.leading_ne {p : Nat} {ts : List Token} (h : Stops p ts) {k : Token.Kind}
    (hc : k ≠ .closing) (hop : ∀ op, k ≠ .operator op) : leading ts ≠ some k := by
  intro hk
  rcases h k hk with rfl | ⟨op, rfl, _⟩
  · exact hc rfl
  · exact hop op rfl

theorem Word.eq_of_cons_append {k : Token.Kind} {a b : Word k} {r s : List Token}
    (h : a.1 :: r = b.1 :: s) : a = b ∧ r = s := by
  obtain ⟨hab, hrs⟩ := List.cons.inj h
  exact ⟨Subtype.ext hab, hrs⟩

theorem Word.kind_eq_of_cons {k l : Token.Kind} {a : Word k} {b : Word l} {r s : List Token}
    (h : a.1 :: r = b.1 :: s) : k = l := by
  rw [← a.2, ← b.2, (List.cons.inj h).1]

/-! ## Modifiers -/

theorem written_append_inj {k : Token.Kind} {a b : Option (Word k)} {r s : List Token}
    (hr : leading r ≠ some k) (hs : leading s ≠ some k) (h : written a ++ r = written b ++ s) :
    a = b ∧ r = s := by
  rcases a with _ | a <;> rcases b with _ | b
  · exact ⟨rfl, h⟩
  · have he : r = b.1 :: s := h
    rw [he, leading_cons, b.2] at hr
    exact absurd rfl hr
  · have he : a.1 :: r = s := h
    rw [← he, leading_cons, a.2] at hs
    exact absurd rfl hs
  · obtain ⟨rfl, rfl⟩ := Word.eq_of_cons_append h
    exact ⟨rfl, rfl⟩

theorem Listing.more_append_inj {r s : List Token} (hr : leading r ≠ some .comma)
    (hs : leading s ≠ some .comma) :
    ∀ {a b : List (Word .comma × Word .integer)},
      (a.flatMap fun m => [m.1.1, m.2.1]) ++ r = (b.flatMap fun m => [m.1.1, m.2.1]) ++ s →
        a = b ∧ r = s := by
  intro a
  induction a with
  | nil =>
    intro b h
    cases b with
    | nil => exact ⟨rfl, h⟩
    | cons y b =>
      have he : r = y.1.1 :: y.2.1 :: _ := h
      rw [he, leading_cons, y.1.2] at hr
      exact absurd rfl hr
  | cons x a ih =>
    intro b h
    cases b with
    | nil =>
      have he : x.1.1 :: x.2.1 :: _ = s := h
      rw [← he, leading_cons, x.1.2] at hs
      exact absurd rfl hs
    | cons y b =>
      obtain ⟨hc, h⟩ := Word.eq_of_cons_append h
      obtain ⟨hn, h⟩ := Word.eq_of_cons_append h
      obtain ⟨rfl, rfl⟩ := ih h
      exact ⟨by rw [Prod.ext hc hn], rfl⟩

theorem Listing.tokens_append_inj {a b : Listing} {r s : List Token} (hr : leading r ≠ some .comma)
    (hs : leading s ≠ some .comma) (h : a.tokens ++ r = b.tokens ++ s) : a = b ∧ r = s := by
  obtain ⟨x, a⟩ := a
  obtain ⟨y, b⟩ := b
  obtain ⟨rfl, h⟩ := Word.eq_of_cons_append h
  obtain ⟨rfl, rfl⟩ := more_append_inj hr hs h
  exact ⟨rfl, rfl⟩

namespace Clause

/-- The kind of the keyword says which modifier it is. -/
def kind : Clause → Token.Kind
  | select rule _ _ => .select rule
  | explode _ _ => .explode
  | reroll once _ _ => .rerolling once
  | success _ _ => .success
  | failure _ _ => .failure

theorem kind_keyword (c : Clause) : c.keyword.kind = c.kind := by
  cases c with
  | select _ k _ | explode k _ | reroll _ k _ | success k _ | failure k _ => exact k.2

/-- Neither a sign nor a bracket nor a number begins a clause. -/
theorem kind_ne (c : Clause) :
    (∀ op, c.kind ≠ .operator op) ∧ c.kind ≠ .closing ∧ c.kind ≠ .integer ∧ c.kind ≠ .comma := by
  cases c with
  | reroll once _ _ => cases once <;> simp [kind, Token.Kind.rerolling]
  | select | explode | success | failure => simp [kind]

theorem tokens_append_inj {a b : Clause} {r s : List Token}
    (hr : leading r ≠ some .integer ∧ leading r ≠ some .comma)
    (hs : leading s ≠ some .integer ∧ leading s ≠ some .comma)
    (h : a.tokens ++ r = b.tokens ++ s) : a = b ∧ r = s := by
  obtain ⟨hkey, harg⟩ := List.cons.inj h
  have hkind : a.kind = b.kind := by rw [← kind_keyword, ← kind_keyword, hkey]
  cases a with
  | select rule k n =>
    cases b with
    | select rule' k' n' =>
      obtain rfl := Token.Kind.select.inj hkind
      obtain rfl := Subtype.ext hkey
      obtain ⟨rfl, rfl⟩ := written_append_inj hr.1 hs.1 harg
      exact ⟨rfl, rfl⟩
    | reroll once => cases once <;> cases hkind
    | explode | success | failure => cases hkind
  | explode k n =>
    cases b with
    | explode k' n' =>
      obtain rfl := Subtype.ext hkey
      obtain ⟨rfl, rfl⟩ := written_append_inj hr.1 hs.1 harg
      exact ⟨rfl, rfl⟩
    | reroll once => cases once <;> cases hkind
    | select | success | failure => cases hkind
  | reroll once k l =>
    cases b with
    | reroll once' k' l' =>
      obtain rfl : once = once' := by cases once <;> cases once' <;> first | rfl | cases hkind
      obtain rfl := Subtype.ext hkey
      obtain ⟨rfl, rfl⟩ := Listing.tokens_append_inj hr.2 hs.2 harg
      exact ⟨rfl, rfl⟩
    | select | explode | success | failure => cases once <;> cases hkind
  | success k n =>
    cases b with
    | success k' n' =>
      obtain rfl := Subtype.ext hkey
      obtain ⟨rfl, rfl⟩ := Word.eq_of_cons_append harg
      exact ⟨rfl, rfl⟩
    | reroll once => cases once <;> cases hkind
    | select | explode | failure => cases hkind
  | failure k n =>
    cases b with
    | failure k' n' =>
      obtain rfl := Subtype.ext hkey
      obtain ⟨rfl, rfl⟩ := Word.eq_of_cons_append harg
      exact ⟨rfl, rfl⟩
    | reroll once => cases once <;> cases hkind
    | select | explode | success => cases hkind

theorem leading_flatMap_ne {r : List Token} (hr : Stops 3 r) (cs : List Clause) :
    leading (cs.flatMap tokens ++ r) ≠ some .integer ∧
      leading (cs.flatMap tokens ++ r) ≠ some .comma := by
  cases cs with
  | nil => exact ⟨hr.leading_ne (by simp) (by simp), hr.leading_ne (by simp) (by simp)⟩
  | cons c cs =>
    have he : leading ((c :: cs).flatMap tokens ++ r) = some c.kind := by
      rw [List.flatMap_cons, ← kind_keyword]
      rfl
    rw [he]
    obtain ⟨_, _, hi, hc⟩ := c.kind_ne
    exact ⟨fun h => hi (Option.some.inj h), fun h => hc (Option.some.inj h)⟩

theorem not_stops (c : Clause) (p : Nat) (ts : List Token) : ¬ Stops p (c.tokens ++ ts) := by
  intro h
  have hk : leading (c.tokens ++ ts) = some c.kind := by
    rw [← kind_keyword]
    rfl
  exact h.leading_ne c.kind_ne.2.1 c.kind_ne.1 hk

theorem flatMap_tokens_append_inj {r s : List Token} (hr : Stops 3 r) (hs : Stops 3 s) :
    ∀ {a b : List Clause}, a.flatMap tokens ++ r = b.flatMap tokens ++ s → a = b ∧ r = s := by
  intro a
  induction a with
  | nil =>
    intro b h
    cases b with
    | nil => exact ⟨rfl, h⟩
    | cons c b =>
      have he : r = c.tokens ++ (b.flatMap tokens ++ s) := by simpa using h
      exact absurd (he ▸ hr) (c.not_stops 3 _)
  | cons c a ih =>
    intro b h
    cases b with
    | nil =>
      have he : c.tokens ++ (a.flatMap tokens ++ r) = s := by simpa using h
      exact absurd (he ▸ hs) (c.not_stops 3 _)
    | cons c' b =>
      rw [List.flatMap_cons, List.flatMap_cons, List.append_assoc, List.append_assoc] at h
      obtain ⟨rfl, hrest⟩ := tokens_append_inj (leading_flatMap_ne hr a) (leading_flatMap_ne hs b) h
      obtain ⟨rfl, rfl⟩ := ih hrest
      exact ⟨rfl, rfl⟩

end Clause

/-! ## Dice terms -/

theorem Throw.tokens_append_inj {a b : Throw} {r s : List Token} (hr : Stops 3 r) (hs : Stops 3 s)
    (h : a.tokens ++ r = b.tokens ++ s) : a = b ∧ r = s := by
  obtain ⟨n, d, m, cs⟩ := a
  obtain ⟨n', d', m', cs'⟩ := b
  simp only [tokens, List.append_assoc, List.cons_append] at h
  obtain ⟨rfl, hdie⟩ := written_append_inj (by simp [d.2]) (by simp [d'.2]) h
  obtain ⟨rfl, hsides⟩ := Word.eq_of_cons_append hdie
  obtain ⟨rfl, hclauses⟩ := Word.eq_of_cons_append hsides
  obtain ⟨rfl, rfl⟩ := Clause.flatMap_tokens_append_inj hr hs hclauses
  exact ⟨rfl, rfl⟩

/-! ## Phrases -/

theorem Sign.eq_of_cons_append {l : Level} {a b : Sign l} {r s : List Token}
    (h : a.word.1 :: r = b.word.1 :: s) : a = b ∧ r = s := by
  obtain ⟨op, w, hw⟩ := a
  obtain ⟨op', w', hw'⟩ := b
  obtain rfl := Token.Kind.operator.inj (Word.kind_eq_of_cons h)
  obtain ⟨rfl, rfl⟩ := Word.eq_of_cons_append h
  exact ⟨rfl, rfl⟩

theorem Sign.not_stops {l : Level} (a : Sign l) (ts : List Token) :
    ¬ Stops l.precedence (a.word.1 :: ts) := by
  rw [stops_cons, a.word.2]
  rintro (h | ⟨op, h, hlt⟩)
  · cases h
  · obtain rfl := Token.Kind.operator.inj h
    have := a.binds
    omega

theorem Level.precedence_operand (l : Level) :
    (Part.whole l.operand).precedence = l.precedence + 1 := by
  cases l <;> rfl

theorem Part.precedence_bounds (c : Category) :
    1 ≤ (Part.whole c).precedence ∧ (Part.whole c).precedence ≤ 3 := by
  cases c with
  | factor => decide
  | chain l => cases l <;> decide

/-- Behind an operand comes the tail of its chain, which begins with a sign if with anything. -/
theorem Phrase.stops_tail {l : Level} (d : Phrase (.tail l)) {r : List Token}
    (hr : Stops l.precedence r) : Stops (Part.whole l.operand).precedence (d.tokens ++ r) := by
  rw [Level.precedence_operand]
  cases d with
  | last => exact hr.mono (by omega)
  | link sign next more =>
    simp only [tokens, List.cons_append]
    rw [stops_cons, sign.word.2]
    exact Or.inr ⟨sign.op, rfl, by rw [sign.binds]; omega⟩

theorem Throw.kind_of_cons {t : Throw} {k : Token.Kind} {w : Word k} {r s : List Token}
    (h : t.tokens ++ r = w.1 :: s) : k = .integer ∧ leading s = some .die ∨ k = .die := by
  obtain ⟨_ | n, d, m, cs⟩ := t
  · exact Or.inr (Word.kind_eq_of_cons h).symm
  · obtain ⟨_, hs⟩ := List.cons.inj h
    refine Or.inl ⟨(Word.kind_eq_of_cons h).symm, ?_⟩
    rw [← hs]
    exact congrArg some d.2

/-- A constant that a phrase may stop behind is no dice term. -/
theorem Throw.ne_constant {t : Throw} {n : Word .integer} {r s : List Token} (hs : Stops 3 s)
    (h : t.tokens ++ r = n.1 :: s) : False := by
  rcases kind_of_cons h with ⟨_, hd⟩ | hd
  · exact hs.leading_ne (by simp) (by simp) hd
  · cases hd

/-- **The grammar is unambiguous.** Two phrases that stop in front of what follows them are equal if
they are written alike together with it. -/
theorem Phrase.tokens_append_inj : ∀ {p : Part} (d d' : Phrase p) {r s : List Token},
    Stops p.precedence r → Stops p.precedence s → d.tokens ++ r = d'.tokens ++ s →
      d = d' ∧ r = s := by
  -- the other phrase begins with the same token, whose kind leaves it only one form, but that
  -- a number may begin a constant and a dice term
  intro p d
  induction d with
  | constant n =>
    intro d' r s hr hs h
    cases d' with
    | constant n' =>
      obtain ⟨rfl, hrest⟩ := Word.eq_of_cons_append h
      exact ⟨rfl, hrest⟩
    | dice t => exact (Throw.ne_constant hr h.symm).elim
    | shorthand | brackets | negate => cases Word.kind_eq_of_cons h
  | shorthand w rule known =>
    intro d' r s hr hs h
    cases d' with
    | shorthand w' rule' known' =>
      obtain ⟨rfl, hrest⟩ := Word.eq_of_cons_append h
      obtain rfl : rule = rule' := Option.some.inj (known.symm.trans known')
      exact ⟨rfl, hrest⟩
    | dice t =>
      rcases Throw.kind_of_cons h.symm with ⟨hk, _⟩ | hk <;> cases hk
    | constant | brackets | negate => cases Word.kind_eq_of_cons h
  | dice t =>
    intro d' r s hr hs h
    cases d' with
    | constant n => exact (Throw.ne_constant hs h).elim
    | dice t' =>
      obtain ⟨rfl, hrest⟩ := Throw.tokens_append_inj hr hs h
      exact ⟨rfl, hrest⟩
    | shorthand | brackets | negate =>
      rcases Throw.kind_of_cons h with ⟨hk, _⟩ | hk <;> cases hk
  | brackets o inner c ih =>
    intro d' r s hr hs h
    cases d' with
    | brackets o' inner' c' =>
      simp only [tokens, List.cons_append, List.append_assoc] at h
      obtain ⟨rfl, hinner⟩ := Word.eq_of_cons_append h
      obtain ⟨rfl, hclosing⟩ := ih inner' (stops_cons.mpr (Or.inl c.2))
        (stops_cons.mpr (Or.inl c'.2)) hinner
      obtain ⟨rfl, hrest⟩ := Word.eq_of_cons_append hclosing
      exact ⟨rfl, hrest⟩
    | dice t =>
      rcases Throw.kind_of_cons h.symm with ⟨hk, _⟩ | hk <;> cases hk
    | constant | shorthand | negate => cases Word.kind_eq_of_cons h
  | negate m e ih =>
    intro d' r s hr hs h
    cases d' with
    | negate m' e' =>
      obtain ⟨rfl, hoperand⟩ := Word.eq_of_cons_append h
      obtain ⟨rfl, hrest⟩ := ih e' hr hs hoperand
      exact ⟨rfl, hrest⟩
    | dice t =>
      rcases Throw.kind_of_cons h.symm with ⟨hk, _⟩ | hk <;> cases hk
    | constant | shorthand | brackets => cases Word.kind_eq_of_cons h
  | chain first more ihf ihm =>
    intro d' r s hr hs h
    cases d' with
    | chain first' more' =>
      simp only [tokens, List.append_assoc] at h
      obtain ⟨rfl, htail⟩ := ihf first' (more.stops_tail hr) (more'.stops_tail hs) h
      obtain ⟨rfl, hrest⟩ := ihm more' hr hs htail
      exact ⟨rfl, hrest⟩
  | last =>
    intro d' r s hr hs h
    cases d' with
    | last => exact ⟨rfl, h⟩
    | link sign next more =>
      have hsign : r = sign.word.1 :: (next.tokens ++ more.tokens ++ s) := h
      exact absurd (hsign ▸ hr) (sign.not_stops _)
  | link sign next more ihn ihm =>
    intro d' r s hr hs h
    cases d' with
    | last =>
      have hsign : sign.word.1 :: (next.tokens ++ more.tokens ++ r) = s := h
      exact absurd (hsign ▸ hs) (sign.not_stops _)
    | link sign' next' more' =>
      simp only [tokens, List.cons_append, List.append_assoc] at h
      obtain ⟨rfl, hnext⟩ := Sign.eq_of_cons_append h
      obtain ⟨rfl, htail⟩ := ihn next' (more.stops_tail hr) (more'.stops_tail hs) hnext
      obtain ⟨rfl, hrest⟩ := ihm more' hr hs htail
      exact ⟨rfl, hrest⟩

/-- A list of tokens is written by one phrase at most. -/
theorem Phrase.tokens_inj {p : Part} {d d' : Phrase p} (h : d.tokens = d'.tokens) : d = d' :=
  (tokens_append_inj d d' (stops_nil _) (stops_nil _) (by rw [h])).1

end Dicebox
