import Dicebox.Proofs.Notation.Spelling

/-! # Reading what was written

An expression that fits the limits is what its written form is read as, up to spans, if no leaf of
the written form is enclosed too deeply and the limit on tokens leaves room for it. The written form
has a bracket only where the grammar needs one, and every bracket it has costs one unit of depth.

- `spells_writeAs`: an expression as an operand of any category.
- `spells_write`: an expression by itself.
- `canonical_derived`, `canonical_read`: the written form is derived, and read as the same
  expression.
-/

namespace Dicebox

def Operator.level : Operator → Level
  | .add | .sub => .sum
  | .mul | .div => .product

@[simp] theorem Operator.precedence_level (op : Operator) :
    op.level.precedence = op.precedence := by
  cases op <;> rfl

/-- What the written form of an expression is outside of brackets. -/
def Expr.category : Expr → Category
  | .binary op _ _ _ => .chain op.level
  | .constant _ _ | .dice _ _ | .negate _ _ => .factor

theorem Expr.precedence_category (e : Expr) :
    (Part.whole e.category).precedence = e.precedence := by
  cases e with
  | constant | dice | negate => rfl
  | binary op l r s => exact op.precedence_level

variable {limits : Limits}

theorem Spells.lift {depth : Nat} {c c' : Category} {cs : List Char} {e : Expr}
    (hc : (Part.whole c').precedence ≤ (Part.whole c).precedence) (h : Spells limits depth c cs e) :
    Spells limits depth c' cs e := by
  intro p
  obtain ⟨d, hd, htree, hscan⟩ := h p
  obtain ⟨s, htokens, hs, hsame⟩ := Phrase.exists_lift hc hd
  refine ⟨s, hs, ?_, fun hrest => ?_⟩
  · rw [hsame, htree]
  · rw [htokens]
    exact hscan hrest

/-- An expression that is spelled by itself is spelled as an operand, in brackets if it binds less
tightly than its place asks for. -/
theorem spells_writeAs {depth p : Nat} {e : Expr} {c : Category}
    (hp : (Part.whole c).precedence = p)
    (h : ∀ {depth : Nat}, e.nesting < depth → Spells limits depth e.category e.write e)
    (hdepth : e.nestingAs p < depth) : Spells limits depth c (e.writeAs p) e := by
  by_cases hlt : e.precedence < p
  · rw [Expr.nestingAs, if_pos hlt] at hdepth
    obtain ⟨depth, rfl⟩ : ∃ n, depth = n + 1 := ⟨depth - 1, by omega⟩
    have hsum : Spells limits depth (.chain .sum) e.write e :=
      Spells.lift (Part.precedence_bounds _).1 (h (Nat.lt_of_succ_lt_succ hdepth))
    rw [Expr.writeAs, if_pos hlt]
    exact Spells.lift (Part.precedence_bounds _).2 hsum.bracketed
  · rw [Expr.nestingAs, if_neg hlt] at hdepth
    rw [Expr.writeAs, if_neg hlt]
    refine Spells.lift ?_ (h hdepth)
    rw [hp, Expr.precedence_category]
    omega

theorem spells_write {e : Expr} (he : e.Fits limits) :
    ∀ {depth : Nat}, e.nesting < depth → Spells limits depth e.category e.write e := by
  induction e with
  | constant v s =>
    intro depth hdepth p
    obtain ⟨n, rfl, hn, hscan⟩ := Scans.number p he.1
    exact ⟨.constant n, Phrase.accepted_constant.mpr ⟨hdepth, hn he.2⟩, rfl, hscan⟩
  | dice t s =>
    intro depth hdepth p
    obtain ⟨u, rfl, hu, hl, hscan⟩ := throw_spelled he p
    exact ⟨.dice u, Phrase.accepted_dice.mpr ⟨hu, hdepth, hl⟩, rfl, hscan⟩
  | negate e s ih =>
    intro depth hdepth
    obtain ⟨depth, rfl⟩ : ∃ n, depth = n + 1 := ⟨depth - 1, by omega⟩
    rw [Expr.write_negate]
    exact Spells.negate s (spells_writeAs rfl (ih he) (Nat.lt_of_succ_lt_succ hdepth))
  | binary op l r s ihl ihr =>
    intro depth hdepth
    rw [Expr.nesting_binary, max_lt_iff] at hdepth
    have hright : (Part.whole op.level.operand).precedence = op.precedence + 1 := by
      rw [Level.precedence_operand, op.precedence_level]
    rw [Expr.write_binary]
    exact Spells.binary op.precedence_level.symm s
      (spells_writeAs op.precedence_level (ihl he.1) hdepth.1)
      (spells_writeAs hright (ihr he.2) hdepth.2)

/-! ## Whole expressions -/

/-- The written form is derived by a sentence that is nested no deeper and stands for the same
expression. -/
theorem canonical_derived {t : Expr} (ht : t.Fits limits) :
    ∃ d : Sentence, ∃ stop, Token.scan t.canonical = .ok (d.tokens ++ [Token.ending stop]) ∧
      d.Accepted limits (t.nesting + 1) ∧ (d.tree limits).unplaced = t.unplaced := by
  have hsum : Spells limits (t.nesting + 1) (.chain .sum) t.write t :=
    Spells.lift (Part.precedence_bounds _).1 (spells_write ht (Nat.lt_succ_self _))
  obtain ⟨d, hd, htree, hscan⟩ := hsum 0
  exact ⟨d, t.write.length, (hscan (leaves_nil _)).whole, hd, htree⟩

/-- The written form is scanned into no more tokens than it has characters, and an end mark, and
they are read as the same expression where so many tokens are allowed. -/
theorem canonical_read {t : Expr} (ht : t.Fits limits) (hnesting : t.nesting < nestingLimit) :
    ∃ tokens, Token.scan t.canonical = .ok tokens ∧ tokens.length ≤ t.write.length + 1 ∧
      (tokens.length ≤ limits.maxTokens →
        ∃ e, Expr.parse limits t.canonical = .ok e ∧ e.unplaced = t.unplaced) := by
  obtain ⟨d, stop, htokens, hd, htree⟩ := canonical_derived ht
  obtain ⟨body, stop', hbody, -, hlen⟩ := Token.scanFrom_sound htokens
  obtain rfl := List.append_inj_left' hbody rfl
  rw [Expr.canonical, String.toList_ofList] at hlen
  have hshallow : d.nesting < nestingLimit :=
    Nat.lt_of_le_of_lt (Nat.le_of_lt_succ hd.nesting) hnesting
  refine ⟨_, htokens, by simpa using hlen, fun hmax => ⟨d.tree limits, ?_, htree⟩⟩
  exact parse_eq_ok.mpr
    ⟨d, stop, htokens, by simpa using hmax, ⟨hd.within, hshallow, hd.legible⟩, rfl⟩

/-- **Writing and reading is the identity** on the expressions that fit the limits, up to spans. -/
theorem parse_canonical {t : Expr} (ht : t.Fits limits) (hnesting : t.nesting ≤ 99) :
    ∃ tokens, Token.scan t.canonical = .ok tokens ∧
      (tokens.length ≤ limits.maxTokens →
        ∃ e, Expr.parse limits t.canonical = .ok e ∧ e.same t = true) := by
  obtain ⟨tokens, hscan, _, hread⟩ := canonical_read ht (Nat.lt_succ_of_le hnesting)
  refine ⟨tokens, hscan, fun hmax => ?_⟩
  obtain ⟨e, he, hsame⟩ := hread hmax
  exact ⟨e, he, Expr.same_iff.mpr hsame⟩

/-- `-(2d6r1 - 3)` is read back under the default limits. -/
theorem parse_negated_difference :
    let pool : Expr := .dice ⟨2, 6, [.reroll [1] false 100]⟩ ⟨0, 0⟩
    let t : Expr := .negate (.binary .sub pool (.constant 3 ⟨0, 0⟩) ⟨0, 0⟩) ⟨0, 0⟩
    t.Fits {} ∧ t.nesting ≤ 99 ∧ t.canonical = "-(2d6r1 - 3)" ∧
      ∃ e, Expr.parse {} "-(2d6r1 - 3)" = .ok e ∧ e.same t = true := by
  intro pool t
  have hpool : Dice.Fits {} ⟨2, 6, [.reroll [1] false 100]⟩ := by
    refine ⟨by decide, by decide, ?_, ?_, fun family => ?_, by decide⟩
    · intro m hm
      obtain rfl := List.mem_singleton.mp hm
      refine ⟨by decide, by decide, ?_, fun _ => ⟨2, ⟨by decide, by decide⟩, by decide⟩⟩
      intro v hv
      obtain rfl := List.mem_singleton.mp hv
      exact ⟨by decide, by decide⟩
    · intro m hm
      obtain rfl := List.mem_singleton.mp hm
      exact rfl
    · cases family <;> decide
  have hfits : t.Fits {} := ⟨hpool, by decide, by decide⟩
  have htext : t.canonical = "-(2d6r1 - 3)" := by decide
  obtain ⟨tokens, hscan, hread⟩ := parse_canonical hfits (by decide)
  obtain ⟨body, stop, rfl, -, hlen⟩ := Token.scanFrom_sound hscan
  rw [htext] at hlen hread
  have hroom : body.length ≤ 12 := hlen
  refine ⟨hfits, by decide, htext, hread ?_⟩
  rw [List.length_append, List.length_singleton]
  show ((body.length + 1 : Nat) : Int) ≤ 1024
  omega

end Dicebox
