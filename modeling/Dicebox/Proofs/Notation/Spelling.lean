import Dicebox.Proofs.Grammar.Nodes
import Dicebox.Proofs.Notation

/-! # Spelling expressions

The written form of an expression that fits the limits is scanned into the tokens of a phrase that
stands for this expression, in front of any text that does not go on with a digit. Brackets are
where the grammar needs them: an operand is spelled as a phrase of the category that its operator
takes, in brackets if its own category is another one that does not count as that.

- `clause_spelled`, `throw_spelled`: modifiers and dice terms.
- `Spells`: a text that spells an expression as a phrase of a category.
- `spells_writeAs`: expressions.
-/

namespace Dicebox

/-! ## Modifiers -/

theorem Modifier.leaves_write (sides : Int) (m : Modifier) (rest : List Char) :
    Leaves Char.isDigit (m.write sides ++ rest) := by
  cases m with
  | select rule count => cases rule <;> exact leaves_cons.mpr rfl
  | explode => exact leaves_cons.mpr rfl
  | reroll values once cap => cases once <;> exact leaves_cons.mpr rfl
  | success | failure => exact leaves_cons.mpr rfl

theorem Modifier.leaves_flatMap_write {rest : List Char} (hrest : Leaves Char.isDigit rest)
    (sides : Int) (ms : List Modifier) :
    Leaves Char.isDigit (ms.flatMap (Modifier.write sides) ++ rest) := by
  cases ms with
  | nil => exact hrest
  | cons m ms =>
    rw [List.flatMap_cons, List.append_assoc]
    exact m.leaves_write sides _

theorem listing_spelled {vs : List Int} :
    ∀ (p : Int) {v : Int}, (∀ w ∈ v :: vs, 1 ≤ w ∧ Numeral.showable w = true) →
      ∃ l : Listing, l.values = v :: vs ∧ AllLegible l.tokens ∧
        ∀ {rest : List Char}, Leaves Char.isDigit rest →
          Scans p ([','].intercalate ((v :: vs).map Numeral.ofInt)) l.tokens rest := by
  induction vs with
  | nil =>
    intro p v h
    obtain ⟨hv, hs⟩ := h v List.mem_cons_self
    obtain ⟨n, rfl, hl, hscan⟩ := Scans.number p (show 0 ≤ v by omega)
    refine ⟨⟨n, []⟩, rfl, allLegible_cons.mpr ⟨hl hs, allLegible_nil⟩, fun hrest => ?_⟩
    rw [List.map_singleton, List.intercalate_singleton]
    exact hscan hrest
  | cons w vs ih =>
    intro p v h
    obtain ⟨⟨hv, hs⟩, hvs⟩ := List.forall_mem_cons.mp h
    obtain ⟨n, rfl, hl, hscan⟩ := Scans.number p (show 0 ≤ v by omega)
    let comma : Token := ⟨.comma, [','], p + (Numeral.ofInt n.1.value).length⟩
    obtain ⟨l, hvals, hleg, hmore⟩ := ih (comma.position + 1) hvs
    have hcomma : comma.Legible := Token.legible_of_ne (by simp [comma])
    refine ⟨⟨n, (⟨comma, rfl⟩, l.first) :: l.more⟩, congrArg (n.1.value :: ·) hvals,
      allLegible_cons.mpr ⟨hl hs, allLegible_cons.mpr ⟨hcomma, hleg⟩⟩, fun hrest => ?_⟩
    have htext : [','].intercalate ((n.1.value :: w :: vs).map Numeral.ofInt) =
        Numeral.ofInt n.1.value ++ ([','] ++ [','].intercalate ((w :: vs).map Numeral.ofInt)) := by
      rw [List.map_cons, List.map_cons, List.intercalate_cons_cons, List.append_assoc]
    have hsign : ∀ {rest : List Char}, Scans comma.position [','] [comma] rest :=
      Scans.sign (by decide) (by decide) (by decide)
    rw [htext]
    show Scans p _ ([n.1] ++ ([comma] ++ l.tokens)) _
    exact Scans.append (hscan (leaves_cons.mpr rfl)) (Scans.append hsign (hmore hrest))

theorem keyword_spelled (kind : Token.Kind) (c : Char) (more : List Char)
    (h : Token.isWord kind (c :: more) = true) (hc : c.isDigit = false) (hk : kind ≠ .integer)
    (p : Int) {n : Int} (hn : 1 ≤ n) (hs : Numeral.showable n = true) :
    ∃ (k : Word kind) (w : Word .integer), w.1.value = n ∧ AllLegible [k.1, w.1] ∧
      ∀ {rest : List Char}, Leaves Char.isDigit rest →
        Scans p (c :: more ++ Numeral.ofInt n) [k.1, w.1] rest := by
  have hn : 0 ≤ n := by omega
  obtain ⟨w, hw, hl, hscan⟩ := Scans.number (p + (c :: more).length) hn
  have halpha : ∀ rest : List Char, Leaves Char.isAlpha (Numeral.ofInt n ++ rest) := by
    simpa using leaves_intercalate hn [] []
  refine ⟨⟨⟨kind, c :: more, p⟩, rfl⟩, w, hw, ?_, fun hrest =>
    Scans.append (Scans.keyword h hc (halpha _)) (hscan hrest)⟩
  exact allLegible_cons.mpr ⟨Token.legible_of_ne hk, allLegible_cons.mpr ⟨hl hs, allLegible_nil⟩⟩

theorem Selection.isWord_keyword (rule : Selection) :
    ∃ c more, rule.keyword = c :: more ∧ Token.isWord (.select rule) (c :: more) = true ∧
      c.isDigit = false := by
  cases rule with
  | keepHighest => exact ⟨'k', ['h'], rfl, by decide, by decide⟩
  | keepLowest => exact ⟨'k', ['l'], rfl, by decide, by decide⟩
  | dropHighest => exact ⟨'d', ['h'], rfl, by decide, by decide⟩
  | dropLowest => exact ⟨'d', ['l'], rfl, by decide, by decide⟩

theorem reroll_spelled (once : Bool) (p : Int) {values : List Int} (hne : values ≠ [])
    (hvalues : ∀ v ∈ values, 1 ≤ v ∧ Numeral.showable v = true) :
    ∃ (k : Word (.rerolling once)) (l : Listing), l.values = values ∧ AllLegible (k.1 :: l.tokens) ∧
      ∀ {rest : List Char}, Leaves Char.isDigit rest →
        Scans p ((if once then ['r', 'o'] else ['r']) ++
          [','].intercalate (values.map Numeral.ofInt)) (k.1 :: l.tokens) rest := by
  obtain ⟨v, vs, rfl⟩ := List.exists_cons_of_ne_nil hne
  obtain ⟨c, more, hword, hc, hkey⟩ : ∃ c more,
      Token.isWord (.rerolling once) (c :: more) = true ∧ c.isDigit = false ∧
        (if once then ['r', 'o'] else ['r']) = c :: more := by
    cases once with
    | false => exact ⟨'r', [], by decide, by decide, rfl⟩
    | true => exact ⟨'r', ['o'], by decide, by decide, rfl⟩
  have hk : Token.Kind.rerolling once ≠ .integer := by cases once <;> decide
  have hv : 0 ≤ v := by
    have := (hvalues v List.mem_cons_self).1
    omega
  obtain ⟨l, hl, hleg, hscan⟩ := listing_spelled (p + (c :: more).length) hvalues
  refine ⟨⟨⟨.rerolling once, c :: more, p⟩, rfl⟩, l, hl,
    allLegible_cons.mpr ⟨Token.legible_of_ne hk, hleg⟩, fun hrest => ?_⟩
  rw [hkey]
  exact Scans.append (Scans.keyword hword hc (leaves_intercalate hv _ _ _)) (hscan hrest)

theorem clause_spelled {limits : Limits} {sides : Int} {m : Modifier} (hfits : m.Fits sides)
    (hcapped : m.Capped limits) (hshown : ∀ n ∈ m.numbers, Numeral.showable n = true) (p : Int) :
    ∃ c : Clause, c.modifier limits sides = m ∧ AllLegible c.tokens ∧
      ∀ {rest : List Char}, Leaves Char.isDigit rest → Scans p (m.write sides) c.tokens rest := by
  have hpos := hfits.pos
  cases m with
  | select rule count =>
    obtain ⟨c, more, hkey, hword, hc⟩ := rule.isWord_keyword
    obtain ⟨k, w, rfl, hl, hscan⟩ := keyword_spelled (.select rule) c more hword hc (by simp) p
      (hpos count List.mem_cons_self) (hshown count List.mem_cons_self)
    refine ⟨.select rule k (some w), rfl, hl, fun hrest => ?_⟩
    rw [Modifier.write, hkey]
    exact hscan hrest
  | explode threshold cap =>
    obtain rfl : cap = limits.explosionCap := hcapped
    let mark : Token := ⟨.explode, ['!'], p⟩
    have hmark : mark.Legible := Token.legible_of_ne (by simp [mark])
    have hsign : ∀ {rest : List Char}, Scans p ['!'] [mark] rest :=
      Scans.sign (by decide) (by decide) (by decide)
    by_cases hall : threshold = sides
    · refine ⟨.explode ⟨mark, rfl⟩ none, ?_, allLegible_cons.mpr ⟨hmark, allLegible_nil⟩,
        fun _ => ?_⟩
      · rw [hall]
        rfl
      · rw [Modifier.write, if_pos hall]
        exact hsign
    · have hone := hpos threshold List.mem_cons_self
      obtain ⟨w, rfl, hl, hscan⟩ := Scans.number (p + ['!'].length) (show 0 ≤ threshold by omega)
      refine ⟨.explode ⟨mark, rfl⟩ (some w), rfl, allLegible_cons.mpr ⟨hmark, allLegible_cons.mpr
        ⟨hl (hshown _ List.mem_cons_self), allLegible_nil⟩⟩, fun hrest => ?_⟩
      rw [Modifier.write, if_neg hall]
      exact Scans.append hsign (hscan hrest)
  | reroll values once cap =>
    obtain rfl : cap = limits.rerollCap := hcapped
    obtain ⟨hne, hpair, -, -⟩ := hfits
    obtain ⟨k, l, rfl, hl, hscan⟩ := reroll_spelled once p hne fun v hv => ⟨hpos v hv, hshown v hv⟩
    refine ⟨.reroll once k l, ?_, hl, hscan⟩
    rw [Clause.modifier, (List.toFinset_sort _ (hpair.imp ne_of_lt)).mpr (hpair.imp le_of_lt)]
  | success threshold =>
    obtain ⟨k, w, rfl, hl, hscan⟩ := keyword_spelled .success 'c' ['s'] (by decide) (by decide)
      (by decide) p (hpos threshold List.mem_cons_self) (hshown threshold List.mem_cons_self)
    exact ⟨.success k w, rfl, hl, hscan⟩
  | failure threshold =>
    obtain ⟨k, w, rfl, hl, hscan⟩ := keyword_spelled .failure 'c' ['f'] (by decide) (by decide)
      (by decide) p (hpos threshold List.mem_cons_self) (hshown threshold List.mem_cons_self)
    exact ⟨.failure k w, rfl, hl, hscan⟩

theorem clauses_spelled {limits : Limits} {sides : Int} {ms : List Modifier}
    (hfits : ∀ m ∈ ms, m.Fits sides) (hcapped : ∀ m ∈ ms, m.Capped limits)
    (hshown : ∀ n ∈ ms.flatMap Modifier.numbers, Numeral.showable n = true) :
    ∀ p : Int, ∃ cs : List Clause, cs.map (Clause.modifier limits sides) = ms ∧
      AllLegible (cs.flatMap Clause.tokens) ∧
        ∀ {rest : List Char}, Leaves Char.isDigit rest →
          Scans p (ms.flatMap (Modifier.write sides)) (cs.flatMap Clause.tokens) rest := by
  induction ms with
  | nil => exact fun p => ⟨[], rfl, allLegible_nil, fun _ => Scans.nil⟩
  | cons m ms ih =>
    intro p
    obtain ⟨hm, hms⟩ := List.forall_mem_cons.mp hfits
    obtain ⟨hcm, hcms⟩ := List.forall_mem_cons.mp hcapped
    rw [List.flatMap_cons] at hshown
    obtain ⟨hsm, hsms⟩ := List.forall_mem_append.mp hshown
    obtain ⟨c, hc, hl, hscan⟩ := clause_spelled hm hcm hsm p
    obtain ⟨cs, hcs, hls, hscans⟩ := ih hms hcms hsms (p + (m.write sides).length)
    refine ⟨c :: cs, by rw [List.map_cons, hc, hcs], ?_, fun hrest => ?_⟩
    · rw [List.flatMap_cons]
      exact allLegible_append.mpr ⟨hl, hls⟩
    · rw [List.flatMap_cons, List.flatMap_cons]
      exact Scans.append (hscan (Modifier.leaves_flatMap_write hrest sides ms)) (hscans hrest)

/-! ## Dice terms -/

theorem throw_spelled {limits : Limits} {t : Dice} (ht : t.Fits limits) (p : Int) :
    ∃ u : Throw, u.dice limits = t ∧ u.Within limits ∧ AllLegible u.tokens ∧
      ∀ {rest : List Char}, Leaves Char.isDigit rest → Scans p t.write u.tokens rest := by
  obtain ⟨hcount, hsides, hfits, hcapped, hcompatible, hshown⟩ := ht
  obtain ⟨count, sides, ms⟩ := t
  dsimp only at hcount hsides hfits hcapped hcompatible
  obtain ⟨hsc, hss, hsm⟩ : Numeral.showable count = true ∧ Numeral.showable sides = true ∧
      ∀ n ∈ ms.flatMap Modifier.numbers, Numeral.showable n = true := by
    simpa [Dice.numbers] using hshown
  obtain ⟨n, rfl, hn, hscan⟩ := Scans.number p (show 0 ≤ count from Int.le_of_lt hcount.1)
  obtain ⟨d, s, rfl, hds, hscand⟩ := keyword_spelled .die 'd' [] (by decide) (by decide) (by decide)
    (p + (Numeral.ofInt n.1.value).length) hsides.1 hss
  obtain ⟨cs, rfl, hcs, hscans⟩ := clauses_spelled hfits hcapped hsm
    (p + (Numeral.ofInt n.1.value ++ 'd' :: Numeral.ofInt s.1.value).length)
  refine ⟨⟨some n, d, s, cs⟩, rfl, ⟨fun w hw => ?_, hsides, hfits, hcompatible⟩, ?_,
    fun hrest => ?_⟩
  · obtain rfl := Option.some.inj hw
    exact hcount
  · show AllLegible ([n.1] ++ ([d.1, s.1] ++ cs.flatMap Clause.tokens))
    exact allLegible_append.mpr ⟨allLegible_cons.mpr ⟨hn hsc, allLegible_nil⟩,
      allLegible_append.mpr ⟨hds, hcs⟩⟩
  · have hleaves := Modifier.leaves_flatMap_write hrest s.1.value
    show Scans p _ (([n.1] ++ [d.1, s.1]) ++ cs.flatMap Clause.tokens) _
    refine Scans.append (Scans.append (hscan ?_) (hscand (hleaves _))) (hscans hrest)
    exact leaves_cons.mpr rfl

/-! ## Expressions -/

/-- A text spells an expression as a phrase of a category: in front of anything but a digit it is
scanned into the tokens of an accepted phrase that stands for this expression. -/
def Spells (limits : Limits) (depth : Nat) (c : Category) (cs : List Char) (e : Expr) : Prop :=
  ∀ p : Int, ∃ d : Phrase (.whole c), d.Accepted limits depth ∧
    (d.tree limits).unplaced = e.unplaced ∧
      ∀ {rest : List Char}, Leaves Char.isDigit rest → Scans p cs d.tokens rest

namespace Spells

variable {limits : Limits} {depth : Nat} {cs ds : List Char} {a b e : Expr}

theorem bracketed (h : Spells limits depth (.chain .sum) cs e) :
    Spells limits (depth + 1) .factor (bracketed cs) e := by
  intro p
  obtain ⟨d, hd, htree, hscan⟩ := h (p + ['('].length)
  let opening : Token := ⟨.opening, ['('], p⟩
  let closing : Token := ⟨.closing, [')'], p + ('(' :: cs).length⟩
  have hopening : ∀ {rest : List Char}, Scans p ['('] [opening] rest :=
    Scans.sign (by decide) (by decide) (by decide)
  have hclosing : ∀ {rest : List Char}, Scans (p + ('(' :: cs).length) [')'] [closing] rest :=
    Scans.sign (by decide) (by decide) (by decide)
  refine ⟨.brackets ⟨opening, rfl⟩ d ⟨closing, rfl⟩, Phrase.accepted_brackets.mpr hd, ?_,
    fun _ => ?_⟩
  · exact (Expr.unplaced_withSpan _ _).trans htree
  · show Scans p ((['('] ++ cs) ++ [')']) (([opening] ++ d.tokens) ++ [closing]) _
    exact Scans.append (Scans.append hopening (hscan (leaves_cons.mpr rfl))) hclosing

theorem negate (s : Span) (h : Spells limits depth .factor cs e) :
    Spells limits (depth + 1) .factor ('-' :: cs) (.negate e s) := by
  intro p
  obtain ⟨d, hd, htree, hscan⟩ := h (p + ['-'].length)
  let minus : Token := ⟨.operator .sub, ['-'], p⟩
  have hminus : ∀ {rest : List Char}, Scans p ['-'] [minus] rest :=
    Scans.sign (by decide) (by decide) (by decide)
  refine ⟨.negate ⟨minus, rfl⟩ d, Phrase.accepted_negate.mpr hd, ?_, fun hrest => ?_⟩
  · exact congrArg (Expr.negate · ⟨0, 0⟩) htree
  · exact Scans.append hminus (hscan hrest)

theorem binary {l : Level} {op : Operator} (hop : op.precedence = l.precedence) (s : Span)
    (ha : Spells limits depth (.chain l) cs a) (hb : Spells limits depth l.operand ds b) :
    Spells limits depth (.chain l) (cs ++ ' ' :: op.sign :: ' ' :: ds) (.binary op a b s) := by
  intro p
  obtain ⟨d, hd, htree, hscan⟩ := ha p
  let word : Token := ⟨.operator op, [op.sign], p + cs.length + 1⟩
  obtain ⟨next, hnext, hright, hscans⟩ := hb (word.position + [op.sign].length + 1)
  have hword : ∀ {rest : List Char}, Scans word.position [op.sign] [word] rest := by
    intro rest
    cases op <;> exact Scans.sign (by decide) (by decide) (by decide)
  -- the left operand is itself a chain of this level, which the right one is put at the end of
  let sign : Sign l := ⟨op, ⟨word, rfl⟩, hop⟩
  refine ⟨d.grown sign next, Phrase.accepted_grown hd hnext, ?_, fun hrest => ?_⟩
  · rw [Phrase.tree_grown, Expr.unplaced, Expr.unplaced, htree, hright]
  · rw [Phrase.tokens_grown]
    show Scans p (cs ++ ' ' :: ([op.sign] ++ ' ' :: ds)) (_ ++ ([word] ++ next.tokens)) _
    exact Scans.append (hscan (leaves_cons.mpr rfl))
      (Scans.blank (Scans.append hword (Scans.blank (hscans hrest))))

end Spells

end Dicebox
