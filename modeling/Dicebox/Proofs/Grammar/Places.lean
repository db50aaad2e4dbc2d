import Dicebox.Proofs.Grammar.Reading

/-! # Phrases at another place

A phrase that stands at another place of a text has the same words, each of them so many characters
further on. It is accepted as before, and stands for the same expression up to spans.

- `Token.shifted`, `Phrase.shifted`: a token and a phrase at another place.
- `Phrase.tokens_shifted`: what the phrase is written with there.
- `Phrase.Accepted.shifted`: it is accepted there.
- `Phrase.unplaced_tree_shifted`: what it stands for.
-/

namespace Dicebox

def Token.shifted (k : Int) (t : Token) : Token := { t with position := t.position + k }

def Word.shifted {kind : Token.Kind} (k : Int) (w : Word kind) : Word kind := ⟨w.1.shifted k, w.2⟩

variable (k : Int) {limits : Limits} {depth : Nat}

theorem written_shifted {kind : Token.Kind} (w : Option (Word kind)) :
    written (w.map (Word.shifted k)) = (written w).map (Token.shifted k) := by
  cases w <;> rfl

theorem numberOr_shifted (absent : Int) (n : Option (Word .integer)) :
    numberOr absent (n.map (Word.shifted k)) = numberOr absent n := by
  cases n <;> rfl

theorem AllLegible.shifted {ts : List Token} (h : AllLegible ts) :
    AllLegible (ts.map (Token.shifted k)) := List.forall_mem_map.mpr h

/-! ## Dice terms -/

namespace Listing

def shifted (l : Listing) : Listing :=
  ⟨l.first.shifted k, l.more.map fun m => (m.1.shifted k, m.2.shifted k)⟩

theorem tokens_shifted (l : Listing) : (l.shifted k).tokens = l.tokens.map (Token.shifted k) := by
  rw [tokens, tokens, List.map_cons, List.map_flatMap, shifted, List.flatMap_map]
  rfl

theorem values_shifted (l : Listing) : (l.shifted k).values = l.values := by
  rw [values, values, shifted, List.map_map]
  rfl

end Listing

namespace Clause

def shifted : Clause → Clause
  | select rule keyword count => select rule (keyword.shifted k) (count.map (Word.shifted k))
  | explode keyword threshold => explode (keyword.shifted k) (threshold.map (Word.shifted k))
  | reroll once keyword faces => reroll once (keyword.shifted k) (faces.shifted k)
  | success keyword threshold => success (keyword.shifted k) (threshold.shifted k)
  | failure keyword threshold => failure (keyword.shifted k) (threshold.shifted k)

theorem tokens_shifted (c : Clause) : (c.shifted k).tokens = c.tokens.map (Token.shifted k) := by
  cases c with
  | select rule keyword n | explode keyword n =>
    exact congrArg (keyword.1.shifted k :: ·) (written_shifted k n)
  | reroll once keyword l => exact congrArg (keyword.1.shifted k :: ·) (l.tokens_shifted k)
  | success | failure => rfl

theorem modifier_shifted (sides : Int) (c : Clause) :
    (c.shifted k).modifier limits sides = c.modifier limits sides := by
  cases c with
  | select rule keyword n => exact congrArg (Modifier.select rule) (numberOr_shifted k 1 n)
  | explode keyword n =>
    exact congrArg (Modifier.explode · limits.explosionCap) (numberOr_shifted k sides n)
  | reroll once keyword l => rw [shifted, modifier, modifier, Listing.values_shifted]
  | success | failure => rfl

end Clause

namespace Throw

def shifted (t : Throw) : Throw :=
  ⟨t.count.map (Word.shifted k), t.die.shifted k, t.sides.shifted k, t.clauses.map (Clause.shifted k)⟩

theorem tokens_shifted (t : Throw) : (t.shifted k).tokens = t.tokens.map (Token.shifted k) := by
  have hclauses : (t.clauses.map (Clause.shifted k)).flatMap Clause.tokens =
      (t.clauses.flatMap Clause.tokens).map (Token.shifted k) := by
    rw [List.flatMap_map, List.map_flatMap]
    exact List.flatMap_congr fun c _ => c.tokens_shifted k
  rw [tokens, tokens, shifted, List.map_append, List.map_cons, List.map_cons, written_shifted,
    hclauses]
  rfl

theorem modifiers_shifted (t : Throw) : (t.shifted k).modifiers limits = t.modifiers limits := by
  rw [modifiers, modifiers, shifted, List.map_map]
  exact List.map_congr_left fun c _ => c.modifier_shifted k _

theorem dice_shifted (t : Throw) : (t.shifted k).dice limits = t.dice limits := by
  rw [dice, dice, modifiers_shifted]
  exact congrArg (Dice.mk · _ _) (numberOr_shifted k 1 t.count)

theorem Within.shifted {t : Throw} (h : t.Within limits) : (t.shifted k).Within limits := by
  refine ⟨fun n hn => ?_, h.sides, ?_, ?_⟩
  · obtain ⟨w, hw, rfl⟩ := Option.map_eq_some_iff.mp hn
    exact h.count w hw
  · rw [modifiers_shifted]
    exact h.fits
  · rw [modifiers_shifted]
    exact h.compatible

end Throw

/-! ## Phrases -/

def Sign.shifted {l : Level} (s : Sign l) : Sign l := ⟨s.op, s.word.shifted k, s.binds⟩

namespace Phrase

def shifted : {p : Part} → Phrase p → Phrase p
  | _, constant n => constant (n.shifted k)
  | _, shorthand w rule known => shorthand (w.shifted k) rule known
  | _, dice t => dice (t.shifted k)
  | _, brackets o inner c => brackets (o.shifted k) inner.shifted (c.shifted k)
  | _, negate m e => negate (m.shifted k) e.shifted
  | _, chain first more => chain first.shifted more.shifted
  | _, last => last
  | _, link sign next more => link (sign.shifted k) next.shifted more.shifted

theorem tokens_shifted {p : Part} (d : Phrase p) :
    (d.shifted k).tokens = d.tokens.map (Token.shifted k) := by
  induction d with
  | constant | shorthand | last => rfl
  | dice t => exact t.tokens_shifted k
  | brackets o inner c ih =>
    rw [shifted, tokens, tokens, ih, List.map_append, List.map_cons]
    rfl
  | negate m e ih =>
    rw [shifted, tokens, tokens, ih, List.map_cons]
    rfl
  | chain first more ihf ihm => rw [shifted, tokens, tokens, ihf, ihm, List.map_append]
  | link sign next more ihn ihm =>
    rw [shifted, tokens, tokens, ihn, ihm, List.map_append, List.map_cons]
    rfl

theorem nesting_shifted {p : Part} (d : Phrase p) : (d.shifted k).nesting = d.nesting := by
  induction d with
  | constant | shorthand | dice | last => rfl
  | brackets o inner c ih => exact congrArg (· + 1) ih
  | negate m e ih => exact congrArg (· + 1) ih
  | chain first more ihf ihm => exact congrArg₂ max ihf ihm
  | link sign next more ihn ihm => exact congrArg₂ max ihn ihm

theorem throws_shifted {p : Part} (d : Phrase p) :
    (d.shifted k).throws = d.throws.map (Throw.shifted k) := by
  induction d with
  | constant | shorthand | dice | last => rfl
  | brackets o inner c ih => exact ih
  | negate m e ih => exact ih
  | chain first more ihf ihm => rw [shifted, throws, throws, ihf, ihm, List.map_append]
  | link sign next more ihn ihm => rw [shifted, throws, throws, ihn, ihm, List.map_append]

/-- **A phrase is accepted wherever it stands.** -/
theorem Accepted.shifted {p : Part} {d : Phrase p} (h : d.Accepted limits depth) :
    (d.shifted k).Accepted limits depth := by
  refine ⟨?_, ?_, ?_⟩
  · rw [Within, throws_shifted]
    exact List.forall_mem_map.mpr fun t ht => (h.within t ht).shifted k
  · rw [nesting_shifted]
    exact h.nesting
  · rw [tokens_shifted]
    exact h.legible.shifted k

/-- **A phrase stands for the same expression wherever it stands**, up to spans. -/
theorem unplaced_meaning_shifted {p : Part} (d : Phrase p) : match p, d with
    | .whole _, d => ((d.shifted k).tree limits).unplaced = (d.tree limits).unplaced
    | .tail _, d => ∀ {left left' : Expr}, left.unplaced = left'.unplaced →
      ((d.shifted k).onto limits left).unplaced = (d.onto limits left').unplaced := by
  induction d with
  | constant | shorthand => rfl
  | dice t => exact congrArg (Expr.dice · ⟨0, 0⟩) (t.dice_shifted k)
  | brackets o inner c ih =>
    exact (Expr.unplaced_withSpan _ _).trans (ih.trans (Expr.unplaced_withSpan _ _).symm)
  | negate m e ih => exact congrArg (Expr.negate · ⟨0, 0⟩) ih
  | chain first more ihf ihm => exact ihm ihf
  | last => exact fun h => h
  | link sign next more ihn ihm =>
    intro left left' h
    exact ihm (congrArg₂ (fun l r => Expr.binary sign.op l r ⟨0, 0⟩) h ihn)

theorem unplaced_tree_shifted {c : Category} (d : Phrase (.whole c)) :
    ((d.shifted k).tree limits).unplaced = (d.tree limits).unplaced := unplaced_meaning_shifted k d

end Phrase

end Dicebox
