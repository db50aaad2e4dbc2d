import Dicebox.Proofs.Notation.RoundTrip
import Dicebox.Proofs.Notation.Trees

/-! # What is read is well formed

The leaves of a tree that was read stand in the order in which they are written, and each is what the
limits and the grammar make of it. Its written form is derived by a sentence that is nested no deeper
than the one that derives the text.

- `Leaf`, `Phrase.leaves`, `Expr.leaves`: the leaves of a phrase and of a tree.
- `Leaf.ReadAs`: what is known of what a leaf was read as.
- `Phrase.leaves_meaning`: the leaves of what a phrase stands for.
- `parsed_tree_is_well_formed`: all of this for a text.
-/

namespace Dicebox

variable {limits : Limits}

/-! ## Leaves -/

/-- A leaf as it is written. -/
inductive Leaf where
  | number (word : Word .integer)
  | shorthand (word : Word .shorthand) (rule : Selection)
  | dice (term : Throw)

/-- The leaves of a phrase, in the order they are written. -/
def Phrase.leaves : {p : Part} → Phrase p → List Leaf
  | _, constant n => [.number n]
  | _, shorthand w rule _ => [.shorthand w rule]
  | _, dice t => [.dice t]
  | _, brackets _ inner _ => inner.leaves
  | _, negate _ e => e.leaves
  | _, chain first more => first.leaves ++ more.leaves
  | _, last => []
  | _, link _ next more => next.leaves ++ more.leaves

/-- The constants and dice terms of a tree, from left to right. -/
def Expr.leaves : Expr → List (Int ⊕ Dice)
  | constant v _ => [.inl v]
  | dice t _ => [.inr t]
  | negate e _ => e.leaves
  | binary _ l r _ => l.leaves ++ r.leaves

theorem Expr.leaves_withSpan (s : Span) (e : Expr) : (e.withSpan s).leaves = e.leaves := by
  cases e <;> rfl

/-- The modifiers of a dice term make sense, have the caps that the reader gives and go together. -/
structure Dice.Sensible (limits : Limits) (t : Dice) : Prop where
  fits : ∀ m ∈ t.modifiers, m.Fits t.sides
  capped : ∀ m ∈ t.modifiers, m.Capped limits
  compatible : Compatible t.modifiers

/-- What a leaf may be read as. A count that is not written is one, which no limit is checked
against. -/
inductive Leaf.ReadAs (limits : Limits) : Leaf → Int ⊕ Dice → Prop
  | number {word : Word .integer} {v : Int} : 0 ≤ v → ReadAs limits (.number word) (.inl v)
  | shorthand {word : Word .shorthand} {rule : Selection} :
      rule = .keepHighest ∨ rule = .keepLowest → Dice.Sensible limits ⟨2, 20, [.select rule 1]⟩ →
        ReadAs limits (.shorthand word rule) (.inr ⟨2, 20, [.select rule 1]⟩)
  | dice {u : Throw} {t : Dice} :
      (u.count ≠ none → 1 ≤ t.count ∧ t.count ≤ limits.maxDice) → (u.count = none → t.count = 1) →
        1 ≤ t.sides ∧ t.sides ≤ limits.maxSides → t.Sensible limits →
          ReadAs limits (.dice u) (.inr t)

theorem shorthand?_eq_some {word : List Char} {rule : Selection} (h : shorthand? word = some rule) :
    rule = .keepHighest ∨ rule = .keepLowest := by
  rw [shorthand?] at h
  split at h
  · exact .inl (Option.some.inj h).symm
  · split at h
    · exact .inr (Option.some.inj h).symm
    · cases h

theorem Leaf.readAs_shorthand {word : Word .shorthand} {rule : Selection}
    (known : shorthand? word.1.lower = some rule) :
    ReadAs limits (.shorthand word rule) (.inr ⟨2, 20, [.select rule 1]⟩) := by
  refine .shorthand (shorthand?_eq_some known) ⟨?_, ?_, fun family => ?_⟩
  · exact List.forall_mem_singleton.mpr (le_refl 1)
  · exact List.forall_mem_singleton.mpr trivial
  · cases rule <;> cases family <;> decide

theorem Leaf.readAs_dice {t : Throw} (ht : t.Within limits) :
    ReadAs limits (.dice t) (.inr (t.dice limits)) := by
  refine .dice (fun hcount => ?_) (fun hnone => ?_) ht.sides ⟨ht.fits, ?_, ht.compatible⟩
  · obtain ⟨n, hn⟩ := Option.ne_none_iff_exists'.mp hcount
    rw [Throw.dice, Throw.number, hn]
    exact ht.count n hn
  · rw [Throw.dice, Throw.number, hnone]
    rfl
  · intro m hm
    obtain ⟨c, -, rfl⟩ := List.mem_map.mp hm
    exact c.capped_modifier _

/-- **The leaves of what a phrase stands for** are those of the phrase, in order. -/
theorem Phrase.leaves_meaning : ∀ {p : Part} (d : Phrase p), d.Within limits → match p, d with
    | .whole _, d => List.Forall₂ (Leaf.ReadAs limits) d.leaves (d.tree limits).leaves
    | .tail _, d => ∀ {ls : List Leaf} {left : Expr},
      List.Forall₂ (Leaf.ReadAs limits) ls left.leaves →
        List.Forall₂ (Leaf.ReadAs limits) (ls ++ d.leaves) (d.onto limits left).leaves := by
  intro p d
  induction d with
  | constant n => exact fun _ => .cons (.number (Int.natCast_nonneg _)) .nil
  | shorthand w rule known => exact fun _ => .cons (Leaf.readAs_shorthand known) .nil
  | dice t => exact fun hd => .cons (Leaf.readAs_dice (hd t (List.mem_singleton_self t))) .nil
  | brackets o inner c ih =>
    intro hd
    show List.Forall₂ _ inner.leaves (Expr.withSpan _ (inner.tree limits)).leaves
    rw [Expr.leaves_withSpan]
    exact ih hd
  | negate m e ih => exact ih
  | chain first more ihf ihm =>
    intro hd
    obtain ⟨hfirst, hmore⟩ := List.forall_mem_append.mp hd
    exact ihm hmore (ihf hfirst)
  | last =>
    intro _ ls left h
    rwa [leaves, List.append_nil]
  | link sign next more ihn ihm =>
    intro hd ls left h
    obtain ⟨hnext, hmore⟩ := List.forall_mem_append.mp hd
    rw [leaves, ← List.append_assoc]
    exact ihm hmore (List.rel_append h (ihn hnext))

/-! ## The written form -/

theorem exists_fits {depth : Nat} {d : Sentence} (hd : d.Accepted limits depth)
    (hscanned : ∀ t ∈ d.tokens, t.Scanned) : ∃ wide : Limits, (d.tree wide).Fits wide := by
  let wide : Limits := { maxDice := max limits.maxDice 2, maxSides := max limits.maxSides 20 }
  have htwo : 2 ≤ wide.maxDice := le_max_right _ _
  have htwenty : 20 ≤ wide.maxSides := le_max_right _ _
  exact ⟨wide, Phrase.fits_tree hd hscanned (le_max_left _ _) (le_max_left _ _) (by omega)
    fun _ _ _ => ⟨htwo, htwenty⟩⟩

/-- The written form of what was read is derived by a sentence that is nested no deeper. -/
theorem nesting_canonical {depth : Nat} {d : Sentence} (hd : d.Accepted limits depth)
    (hscanned : ∀ t ∈ d.tokens, t.Scanned) :
    ∃ tokens, ∃ again : Sentence, Token.scan (d.tree limits).canonical = .ok tokens ∧
      Derived tokens again ∧ again.nesting ≤ d.nesting := by
  obtain ⟨wide, hfits⟩ := exists_fits hd hscanned
  obtain ⟨again, stop, hscan, hagain, -⟩ := canonical_derived hfits
  rw [Expr.canonical_eq_of_bare (b := d.tree limits) d.bare_tree] at hscan
  exact ⟨_, again, hscan, ⟨stop, rfl⟩, (Nat.le_of_lt_succ hagain.nesting).trans d.nesting_tree⟩

/-! ## Sides -/

theorem Expr.leaves_bare (e : Expr) : e.bare.leaves = e.leaves.map (Sum.map id Dice.bare) := by
  induction e with
  | constant | dice => rfl
  | negate e s ih => exact ih
  | binary op l r s ihl ihr => rw [bare, leaves, leaves, ihl, ihr, List.map_append]

theorem Expr.Fits.showable_sides {e : Expr} (he : e.Fits limits) :
    ∀ t, .inr t ∈ e.leaves → Numeral.showable t.sides = true := by
  induction e with
  | constant v s =>
    intro t ht
    cases List.mem_singleton.mp ht
  | dice t s =>
    intro u hu
    obtain rfl := Sum.inr.inj (List.mem_singleton.mp hu)
    exact he.shown _ (List.mem_cons_of_mem _ List.mem_cons_self)
  | negate e s ih => exact ih he
  | binary op l r s ihl ihr =>
    intro t ht
    rcases List.mem_append.mp ht with ht | ht
    · exact ihl he.1 t ht
    · exact ihr he.2 t ht

theorem showable_sides_of_parse {text : String} {e : Expr} (h : Expr.parse limits text = .ok e) :
    ∀ t, .inr t ∈ e.leaves → Numeral.showable t.sides = true := by
  obtain ⟨tokens, d, -, -, hd, hscanned, rfl⟩ := parse_sound h
  obtain ⟨wide, hfits⟩ := exists_fits hd hscanned
  intro t ht
  -- wider limits change no more than the caps of a term
  have hbare : Sum.inr t.bare ∈ (d.tree wide).leaves.map (Sum.map id Dice.bare) := by
    rw [← Expr.leaves_bare, d.bare_tree, Expr.leaves_bare]
    exact List.mem_map_of_mem ht
  obtain ⟨part, hpart, heq⟩ := List.mem_map.mp hbare
  cases part with
  | inl v => cases heq
  | inr u =>
    rw [show t.sides = u.sides from (congrArg Dice.sides (Sum.inr.inj heq)).symm]
    exact hfits.showable_sides u hpart

/-! ## All of it -/

/-- **Every tree that is read is well formed.** Its leaves are those of the sentence that derives the
text, each with the counts, sides and modifiers that its place allows, and its written form is nested
no deeper than the text. -/
theorem parsed_tree_is_well_formed {text : String} {e : Expr}
    (h : Expr.parse limits text = .ok e) :
    ∃ tokens, ∃ d : Sentence, Token.scan text = .ok tokens ∧ Derived tokens d ∧
      List.Forall₂ (Leaf.ReadAs limits) d.leaves e.leaves ∧ d.nesting ≤ 99 ∧
        ∃ tokens', ∃ d' : Sentence, Token.scan e.canonical = .ok tokens' ∧ Derived tokens' d' ∧
          d'.nesting ≤ d.nesting := by
  obtain ⟨tokens, d, hscan, hderived, hd, hscanned, rfl⟩ := parse_sound h
  exact ⟨tokens, d, hscan, hderived, d.leaves_meaning hd.within, Nat.le_of_lt_succ hd.nesting,
    nesting_canonical hd hscanned⟩

theorem parsed_pool_is_well_formed :
    ∃ e, Expr.parse {} "2d6" = .ok e ∧
      ∃ tokens, ∃ d : Sentence, Token.scan "2d6" = .ok tokens ∧ Derived tokens d ∧
        List.Forall₂ (Leaf.ReadAs {}) d.leaves [.inr ⟨2, 6, []⟩] ∧ d.nesting ≤ 99 ∧
          ∃ tokens', ∃ d' : Sentence, Token.scan e.canonical = .ok tokens' ∧ Derived tokens' d' ∧
            d'.nesting ≤ d.nesting :=
  ⟨_, parse_pool, parsed_tree_is_well_formed parse_pool⟩

/-- Where no dice are allowed, a dice term without a count still throws one. -/
theorem lone_die_exceeds_its_limit :
    ¬ ∀ (limits : Limits) (text : String) (e : Expr), Expr.parse limits text = .ok e →
      ∃ tokens, ∃ d : Sentence, Token.scan text = .ok tokens ∧ Derived tokens d ∧
        List.Forall₂ (fun leaf part => ∀ u t, leaf = .dice u → part = .inr t →
          1 ≤ t.count ∧ t.count ≤ limits.maxDice) d.leaves e.leaves := by
  intro h
  have hread : Expr.parse { maxDice := 0 } "d6" = .ok (.dice ⟨1, 6, []⟩ ⟨0, 2⟩) := by
    rw [Expr.parse, scan_die]
    rfl
  obtain ⟨tokens, d, hscan, hd, hleaves⟩ := h _ _ _ hread
  rw [scan_die] at hscan
  obtain rfl := Except.ok.inj hscan
  let die : Throw := ⟨none, ⟨⟨.die, ['d'], 0⟩, rfl⟩, ⟨⟨.integer, ['6'], 1⟩, rfl⟩, []⟩
  obtain rfl : d = .chain (.chain (.dice die) .last) .last := hd.unique ⟨2, rfl⟩
  have hzero := ((List.forall₂_cons.mp hleaves).1 die ⟨1, 6, []⟩ rfl rfl).2
  exact absurd hzero (by decide)

end Dicebox
