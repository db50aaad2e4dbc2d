import Dicebox.Expr.Roll
import Dicebox.Proofs.Grammar.Nodes
import Dicebox.Proofs.Segments

/-! # A span is the text of its node

Every node of an expression that was read has a stretch of the text as its span, brackets around the
node included. The spans of its children lie inside its own and do not overlap, and what stands in the
stretch is itself read, under the same limits, as the node.

- `Expr.Encloses`: a node and the spans of its children.
- `Phrase.encloses_of_mem_nodes`: the spans of nodes in a row of tokens.
- `parse_slice_span`: the text of a node.
- `every_span_is_the_text_of_its_node`: all of this together.
-/

namespace Dicebox

variable {limits : Limits} {depth : Nat}

/-! ## Children -/

def Span.Inside (s t : Span) : Prop := t.start ≤ s.start ∧ s.stop ≤ t.stop

theorem Span.Inside.trans {s t u : Span} (h : s.Inside t) (h' : t.Inside u) : s.Inside u :=
  ⟨h'.1.trans h.1, h.2.trans h'.2⟩

/-- The spans of the children of a node lie inside its own, and the left one ends in front of the
right one. -/
def Expr.Encloses : Expr → Prop
  | constant _ _ | dice _ _ => True
  | negate e s => e.span.Inside s
  | binary _ l r s => l.span.Inside s ∧ r.span.Inside s ∧ l.span.stop ≤ r.span.start

theorem Expr.Encloses.withSpan {e : Expr} {s : Span} (h : e.Encloses) (hs : e.span.Inside s) :
    (e.withSpan s).Encloses := by
  cases e with
  | constant | dice => trivial
  | negate e t => exact h.trans hs
  | binary op l r t => exact ⟨h.1.trans hs, h.2.1.trans hs, h.2.2⟩

namespace Phrase

theorem span_inRow (limits : Limits) {c : Category} {d : Phrase (.whole c)} {p : Int}
    (h : Token.InRow p d.tokens) :
    p ≤ (d.tree limits).span.start ∧ (d.tree limits).span.start < (d.tree limits).span.stop ∧
      (d.tree limits).span.stop = Token.stopFrom p d.tokens := by
  rw [span_tree]
  exact h.spanOf (d.tokens_ne_nil ⟨_, rfl⟩)

theorem encloses_meaning {p : Part} (d : Phrase p) : ∀ {q : Int}, Token.InRow q d.tokens →
    match p, d with
    | .whole _, d => ∀ m ∈ (d.tree limits).nodes, m.Encloses
    | .tail _, d => ∀ left : Expr, left.span.start ≤ left.span.stop → left.span.stop = q →
      (∀ m ∈ left.nodes, m.Encloses) → ∀ m ∈ (d.onto limits left).nodes, m.Encloses := by
  induction d with
  | constant | shorthand | dice => exact fun _ => List.forall_mem_singleton.mpr trivial
  | brackets o inner c ih =>
    intro q hrow
    obtain ⟨⟨-, hopening, hinner⟩, hbehind, hclosing, -⟩ := Token.inRow_append.mp hrow
    obtain ⟨hstart, -, hstop⟩ := span_inRow limits hinner
    have hnodes : ∀ m ∈ (inner.tree limits).nodes, m.Encloses := ih hinner
    have hinside : (inner.tree limits).span.Inside ⟨o.1.position, c.1.stop⟩ :=
      ⟨hopening.le.trans hstart, hstop.le.trans (hbehind.trans hclosing.le)⟩
    exact Expr.forall_nodes_withSpan ((hnodes _ (Expr.mem_nodes _)).withSpan hinside) hnodes
  | negate m e ih =>
    intro q hrow
    obtain ⟨-, hminus, hoperand⟩ := hrow
    obtain ⟨hstart, -, -⟩ := span_inRow limits hoperand
    exact Expr.forall_nodes_negate.mpr ⟨⟨hminus.le.trans hstart, le_refl _⟩, ih hoperand⟩
  | chain first more ihf ihm =>
    intro q hrow
    obtain ⟨hfirst, hmore⟩ := Token.inRow_append.mp hrow
    obtain ⟨-, hroom, hstop⟩ := span_inRow limits hfirst
    exact ihm hmore (first.tree limits) hroom.le hstop (ihf hfirst)
  | last => exact fun _ _ _ _ h => h
  | link sign next more ihn ihm =>
    intro q hrow left hleft hq hnodes
    obtain ⟨⟨hbehind, hsign, hnext⟩, hmore⟩ := Token.inRow_append.mp hrow
    obtain ⟨hstart, hroom, hstop⟩ := span_inRow limits hnext
    -- the sign stands between the two operands
    have hapart : left.span.stop ≤ (next.tree limits).span.start := by
      rw [hq]
      exact hbehind.trans (hsign.le.trans hstart)
    have hright : left.span.stop ≤ (next.tree limits).span.stop := hapart.trans hroom.le
    exact ihm hmore (.binary _ left (next.tree limits) ⟨_, _⟩) (hleft.trans hright) hstop
      (Expr.forall_nodes_binary.mpr ⟨⟨⟨le_refl _, hright⟩, ⟨hleft.trans hapart, le_refl _⟩, hapart⟩,
        hnodes, ihn hnext⟩)

/-- **In a row of tokens the spans of all children are enclosed.** -/
theorem encloses_of_mem_nodes {d : Sentence} {p : Int} (h : Token.InRow p d.tokens) {m : Expr}
    (hm : m ∈ (d.tree limits).nodes) : m.Encloses := d.encloses_meaning h m hm

end Phrase

/-! ## Texts -/

/-- **The text of a node is read as the node.** -/
theorem parse_slice_span {text : String} {e m : Expr} (h : Expr.parse limits text = .ok e)
    (hm : m ∈ e.nodes) :
    ∃ start stop : Nat, m.span = ⟨start, stop⟩ ∧ start < stop ∧ stop ≤ text.length ∧
      ∃ again, Expr.parse limits (slice text m.span) = .ok again ∧
        again.unplaced = m.unplaced := by
  obtain ⟨whole, stop, hscan, hlength, hwhole, rfl⟩ := parse_eq_ok.mp h
  obtain ⟨c, d, before, after, htokens, -, hd, rfl⟩ := Phrase.stands_of_mem_nodes hwhole hm
  rw [htokens] at hscan
  obtain ⟨pre, mid, post, hsplit, hmid, hspan, hcut⟩ :=
    Token.scan_segment hscan (d.tokens_ne_nil ⟨_, rfl⟩)
  have hlengths : text.length = pre.length + (mid.length + post.length) := by
    rw [← String.length_toList, hsplit, List.length_append, List.length_append]
  have hslice : slice text (d.tree limits).span = String.ofList mid := by
    rw [d.span_tree, hspan, slice_natCast (by omega) (by omega), hsplit, ← List.append_assoc,
      ← List.length_append, List.take_left, List.drop_left]
  refine ⟨pre.length, pre.length + mid.length, d.span_tree.trans hspan, ?_, by omega, ?_⟩
  · have hpos := List.length_pos_iff.mpr hmid
    omega
  · obtain ⟨s, hs, haccepted, htree⟩ := Phrase.exists_sentence (hd.shifted (-pre.length))
    refine ⟨s.tree limits, parse_eq_ok.mpr ⟨s, mid.length, ?_, ?_, haccepted, rfl⟩, ?_⟩
    · rw [hslice, hs, Phrase.tokens_shifted, Token.scan, String.toList_ofList]
      exact hcut
    · rw [hs, Phrase.tokens_shifted, List.length_map]
      have hlen := congrArg List.length htokens
      simp only [List.length_append] at hlen
      omega
    · rw [htree]
      exact d.unplaced_tree_shifted _

/-- **A span is the text of its node.** It lies in the text, it encloses the spans of the children of
the node, and what stands there is read as the node. -/
theorem every_span_is_the_text_of_its_node {text : String} {e m : Expr}
    (h : Expr.parse limits text = .ok e) (hm : m ∈ e.nodes) :
    0 ≤ m.span.start ∧ m.span.start < m.span.stop ∧ m.span.stop ≤ text.length ∧ m.Encloses ∧
      ∃ again, Expr.parse limits (slice text m.span) = .ok again ∧ again.same m = true := by
  obtain ⟨start, stop, hspan, hroom, hend, again, hread, hsame⟩ := parse_slice_span h hm
  obtain ⟨d, fin, hscan, -, -, rfl⟩ := parse_eq_ok.mp h
  have hencloses := Phrase.encloses_of_mem_nodes (Token.passes_of_scanFrom hscan).1.inRow hm
  refine ⟨?_, ?_, ?_, hencloses, again, hread, Expr.same_iff.mpr hsame⟩ <;> rw [hspan] <;> dsimp only
    <;> omega

theorem scan_bracketedDie : Token.scan "(d6)-1" =
    .ok [⟨.opening, ['('], 0⟩, ⟨.die, ['d'], 1⟩, ⟨.integer, ['6'], 2⟩, ⟨.closing, [')'], 3⟩,
      ⟨.operator .sub, ['-'], 4⟩, ⟨.integer, ['1'], 5⟩, Token.ending 6] := by
  decide +kernel

/-- The span of a die in brackets holds the brackets. -/
theorem bracketed_die_is_read_by_itself :
    ∃ e, Expr.parse {} "(d6)-1" = .ok e ∧ .dice ⟨1, 6, []⟩ ⟨0, 4⟩ ∈ e.nodes ∧ e.Encloses ∧
      ∃ again, Expr.parse {} "(d6)" = .ok again ∧
        again.same (.dice ⟨1, 6, []⟩ ⟨0, 4⟩) = true := by
  have hread : Expr.parse {} "(d6)-1" =
      .ok (.binary .sub (.dice ⟨1, 6, []⟩ ⟨0, 4⟩) (.constant 1 ⟨5, 6⟩) ⟨0, 6⟩) := by
    rw [Expr.parse, scan_bracketedDie]
    rfl
  have hdie : Expr.dice ⟨1, 6, []⟩ ⟨0, 4⟩ ∈
      (Expr.binary .sub (.dice ⟨1, 6, []⟩ ⟨0, 4⟩) (.constant 1 ⟨5, 6⟩) ⟨0, 6⟩).nodes := by decide
  have hslice : slice "(d6)-1" ⟨0, 4⟩ = "(d6)" := by decide
  obtain ⟨-, -, -, -, hagain⟩ := every_span_is_the_text_of_its_node hread hdie
  obtain ⟨-, -, -, hencloses, -⟩ := every_span_is_the_text_of_its_node hread (Expr.mem_nodes _)
  rw [Expr.span, hslice] at hagain
  exact ⟨_, hread, hdie, hencloses, hagain⟩

end Dicebox
