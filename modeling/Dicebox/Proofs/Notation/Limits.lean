import Dicebox.Proofs.Notation.WellFormed

/-! # What the limits hold for

The reader checks the number of dice and their sides where it reads digits. A shorthand stands for
two twenty-sided dice whatever the limits are, so under limits that leave no room for those it is the
one way to write a term that goes beyond them.

- `Dice.InLimits`, `Leaf.Limited`: a term within the limits, and what a leaf is read as.
- `limits_hold_but_for_shorthands`: when all terms of a tree that was read are within the limits.
-/

namespace Dicebox

variable {limits : Limits}

/-- A dice term keeps to the limits on the number of dice and their sides. -/
structure Dice.InLimits (limits : Limits) (t : Dice) : Prop where
  count : 1 ≤ t.count ∧ t.count ≤ limits.maxDice
  sides : 1 ≤ t.sides ∧ t.sides ≤ limits.maxSides

def shorthandDice (rule : Selection) : Dice := ⟨2, 20, [.select rule 1]⟩

theorem inLimits_shorthandDice {rule : Selection} :
    (shorthandDice rule).InLimits limits ↔ limits.FitShorthands := by
  have hcount : (1 : Int) ≤ 2 := by decide
  have hsides : (1 : Int) ≤ 20 := by decide
  constructor
  · intro h
    exact ⟨h.count.2, h.sides.2⟩
  · intro h
    exact ⟨⟨hcount, h.1⟩, ⟨hsides, h.2⟩⟩

/-- What a leaf is read as: only a shorthand is free of the limits. -/
inductive Leaf.Limited (limits : Limits) : Leaf → Int ⊕ Dice → Prop
  | number {word : Word .integer} {v : Int} : Limited limits (.number word) (.inl v)
  | shorthand {word : Word .shorthand} {rule : Selection} :
      Limited limits (.shorthand word rule) (.inr (shorthandDice rule))
  | dice {u : Throw} {t : Dice} : t.InLimits limits → Limited limits (.dice u) (.inr t)

/-- A count that is not written is one, which the limit allows. -/
theorem Leaf.ReadAs.limited (hdice : 1 ≤ limits.maxDice) {leaf : Leaf} {part : Int ⊕ Dice}
    (h : leaf.ReadAs limits part) : leaf.Limited limits part := by
  cases h with
  | number => exact .number
  | shorthand => exact .shorthand
  | @dice u t hcount hlone hsides _ =>
    refine .dice ⟨?_, hsides⟩
    by_cases hnone : u.count = none
    · rw [hlone hnone]
      exact ⟨le_refl 1, hdice⟩
    · exact hcount hnone

theorem Leaf.Limited.inLimits_iff {leaf : Leaf} {part : Int ⊕ Dice} (h : leaf.Limited limits part) :
    (∀ t, .inr t = part → t.InLimits limits) ↔
      ∀ word rule, .shorthand word rule = leaf → limits.FitShorthands := by
  cases h with
  | number => simp
  | shorthand => simp [inLimits_shorthandDice]
  | dice ht => simpa using ht

theorem inLimits_iff_of_limited {ls : List Leaf} {parts : List (Int ⊕ Dice)}
    (h : List.Forall₂ (Leaf.Limited limits) ls parts) :
    (∀ t, .inr t ∈ parts → t.InLimits limits) ↔
      ∀ word rule, .shorthand word rule ∈ ls → limits.FitShorthands := by
  induction h with
  | nil => simp
  | cons hleaf _ ih =>
    simp only [List.mem_cons, or_imp, forall_and]
    exact and_congr hleaf.inLimits_iff ih

/-- **Only shorthands go beyond the limits.** Each dice term of a tree that was read is one that the
limits allow, or the two dice of a shorthand. So all terms are within the limits exactly if they
leave room for two twenty-sided dice or the text has no shorthand. -/
theorem limits_hold_but_for_shorthands {text : String} {e : Expr} (hdice : 1 ≤ limits.maxDice)
    (hread : Expr.parse limits text = .ok e) :
    ∃ tokens, ∃ d : Sentence, Token.scan text = .ok tokens ∧ Derived tokens d ∧
      List.Forall₂ (Leaf.Limited limits) d.leaves e.leaves ∧
        ((∀ t, .inr t ∈ e.leaves → t.InLimits limits) ↔
          ∀ word rule, .shorthand word rule ∈ d.leaves → limits.FitShorthands) := by
  obtain ⟨tokens, d, hscan, hderived, hd, -, rfl⟩ := parse_sound hread
  have hlimited : List.Forall₂ (Leaf.Limited limits) d.leaves (d.tree limits).leaves :=
    (d.leaves_meaning hd.within).imp fun _ _ h => h.limited hdice
  exact ⟨tokens, d, hscan, hderived, hlimited, inLimits_iff_of_limited hlimited⟩

theorem pool_keeps_to_its_limits :
    ∃ e, Expr.parse {} "2d6" = .ok e ∧
      ∃ tokens, ∃ d : Sentence, Token.scan "2d6" = .ok tokens ∧ Derived tokens d ∧
        List.Forall₂ (Leaf.Limited {}) d.leaves [.inr ⟨2, 6, []⟩] ∧
          ((∀ t, .inr t ∈ [Sum.inr (α := Int) (⟨2, 6, []⟩ : Dice)] → t.InLimits {}) ↔
            ∀ word rule, .shorthand word rule ∈ d.leaves → Limits.FitShorthands {}) :=
  ⟨_, parse_pool, limits_hold_but_for_shorthands (by decide) parse_pool⟩

theorem scan_advantage :
    Token.scan "adv" = .ok [⟨.shorthand, ['a', 'd', 'v'], 0⟩, Token.ending 3] :=
  Token.scan_word (by decide)

/-- Two twenty-sided dice are thrown where one die with six sides is allowed. -/
theorem shorthand_exceeds_the_limits :
    ¬ ∀ (limits : Limits) (text : String) (e : Expr), 1 ≤ limits.maxDice → 1 ≤ limits.maxSides →
      Expr.parse limits text = .ok e → ∀ t, .inr t ∈ e.leaves → t.InLimits limits := by
  intro h
  have hread : Expr.parse { maxDice := 1, maxSides := 6 } "adv" =
      .ok (.dice (shorthandDice .keepHighest) ⟨0, 3⟩) := by
    rw [Expr.parse, scan_advantage]
    rfl
  have hdice := h _ _ _ (by decide) (by decide) hread _ (List.mem_singleton_self _)
  exact absurd hdice.count.2 (by decide)

end Dicebox
