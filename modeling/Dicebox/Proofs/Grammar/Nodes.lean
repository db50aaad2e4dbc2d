import Dicebox.Proofs.Grammar.Sentences

/-! # The nodes of what is read

Every node of the expression that a phrase stands for is itself what a phrase stands for: one that
the larger phrase is written around, and that stands there by itself, since what follows it cannot be
a part of it. The first operands of a chain are such a phrase too, for chains are grouped to the left.

- `Phrase.grown`: a chain with one more operand at its end.
- `Phrase.exists_lift`: a phrase as one of a category that binds less tightly.
- `Phrase.span_tree`: the span of an expression is what the tokens of its phrase cover.
- `Expr.nodes`: all nodes of an expression.
- `Stands`, `Phrase.stands_of_mem_nodes`: the phrase of a node.
-/

namespace Dicebox

/-! ## Chains that grow at the end -/

namespace Phrase

def extend : {l : Level} → Phrase (.tail l) → Sign l → Phrase (.whole l.operand) → Phrase (.tail l)
  | _, last, sign, next => link sign next last
  | _, link sign' next' more, sign, next => link sign' next' (more.extend sign next)

def grown {l : Level} : Phrase (.whole (.chain l)) → Sign l → Phrase (.whole l.operand) →
    Phrase (.whole (.chain l))
  | chain first more, sign, next => chain first (more.extend sign next)

variable {limits : Limits} {depth : Nat} {l : Level} {sign : Sign l}
  {next : Phrase (.whole l.operand)}

theorem tokens_extend : ∀ more : Phrase (.tail l),
    (more.extend sign next).tokens = more.tokens ++ sign.word.1 :: next.tokens
  | last => by
    rw [extend, tokens, tokens, tokens, List.append_nil, List.nil_append]
  | link sign' next' more => by
    rw [extend, tokens, tokens, tokens_extend more, List.append_assoc]

/-- The new operand is the right one of the new root. -/
theorem onto_extend : ∀ (more : Phrase (.tail l)) (left : Expr),
    (more.extend sign next).onto limits left =
      .binary sign.op (more.onto limits left) (next.tree limits)
        ⟨(more.onto limits left).span.start, (next.tree limits).span.stop⟩
  | last, left => by
    rw [extend]
    rfl
  | link sign' next' more, left => by
    rw [extend]
    exact onto_extend more _

theorem accepted_extend (hnext : next.Accepted limits depth) : ∀ {more : Phrase (.tail l)},
    more.Accepted limits depth → (more.extend sign next).Accepted limits depth
  | last, h => by
    rw [extend]
    exact accepted_link.mpr ⟨hnext, h⟩
  | link sign' next' more, h => by
    obtain ⟨hn, hm⟩ := accepted_link.mp h
    rw [extend]
    exact accepted_link.mpr ⟨hn, accepted_extend hnext hm⟩

theorem tokens_grown (d : Phrase (.whole (.chain l))) :
    (d.grown sign next).tokens = d.tokens ++ sign.word.1 :: next.tokens := by
  cases d with
  | chain first more => rw [grown, tokens, tokens_extend, tokens, List.append_assoc]

theorem tree_grown (d : Phrase (.whole (.chain l))) :
    (d.grown sign next).tree limits =
      .binary sign.op (d.tree limits) (next.tree limits)
        ⟨(d.tree limits).span.start, (next.tree limits).span.stop⟩ := by
  cases d with
  | chain first more => exact onto_extend more _

theorem accepted_grown {d : Phrase (.whole (.chain l))} (hd : d.Accepted limits depth)
    (hnext : next.Accepted limits depth) : (d.grown sign next).Accepted limits depth := by
  cases d with
  | chain first more =>
    obtain ⟨hfirst, hmore⟩ := accepted_chain.mp hd
    exact accepted_chain.mpr ⟨hfirst, accepted_extend hnext hmore⟩

/-! ## Lifting -/

/-- An operand by itself is a chain. -/
theorem exists_chain {d : Phrase (.whole l.operand)} (hd : d.Accepted limits depth) :
    ∃ s : Phrase (.whole (.chain l)), s.tokens = d.tokens ∧ s.Accepted limits depth ∧
      s.tree limits = d.tree limits := by
  refine ⟨.chain d .last, ?_, ?_, rfl⟩
  · rw [tokens, tokens, List.append_nil]
  · exact accepted_chain.mpr ⟨hd, accepted_last (Nat.zero_lt_of_lt hd.nesting)⟩

/-- What binds more tightly may stand where something is allowed that binds less tightly. -/
theorem exists_lift {c c' : Category} (hc : (Part.whole c').precedence ≤ (Part.whole c).precedence)
    {d : Phrase (.whole c)} (hd : d.Accepted limits depth) :
    ∃ s : Phrase (.whole c'), s.tokens = d.tokens ∧ s.Accepted limits depth ∧
      s.tree limits = d.tree limits := by
  have product : ∀ d : Phrase (.whole .factor), d.Accepted limits depth →
      ∃ s : Phrase (.whole (.chain .product)), s.tokens = d.tokens ∧ s.Accepted limits depth ∧
        s.tree limits = d.tree limits := fun _ h => exists_chain (l := .product) h
  have sum : ∀ d : Phrase (.whole (.chain .product)), d.Accepted limits depth →
      ∃ s : Sentence, s.tokens = d.tokens ∧ s.Accepted limits depth ∧
        s.tree limits = d.tree limits := fun _ h => exists_chain (l := .sum) h
  cases c with
  | factor =>
    cases c' with
    | factor => exact ⟨d, rfl, hd, rfl⟩
    | chain l =>
      cases l with
      | product => exact product d hd
      | sum =>
        obtain ⟨s, htokens, hs, htree⟩ := product d hd
        obtain ⟨t, htokens', ht, htree'⟩ := sum s hs
        exact ⟨t, htokens'.trans htokens, ht, htree'.trans htree⟩
  | chain l =>
    cases c' with
    | factor => cases l <;> exact absurd hc (by decide)
    | chain l' =>
      cases l with
      | sum =>
        cases l' with
        | sum => exact ⟨d, rfl, hd, rfl⟩
        | product => exact absurd hc (by decide)
      | product =>
        cases l' with
        | sum => exact sum d hd
        | product => exact ⟨d, rfl, hd, rfl⟩

/-- Every whole is a sentence. -/
theorem exists_sentence {c : Category} {d : Phrase (.whole c)} (hd : d.Accepted limits depth) :
    ∃ s : Sentence, s.tokens = d.tokens ∧ s.Accepted limits depth ∧
      s.tree limits = d.tree limits := by
  have hsum : (Part.whole (.chain .sum)).precedence ≤ (Part.whole c).precedence :=
    (Part.precedence_bounds c).1
  exact exists_lift hsum hd

end Phrase

/-! ## Spans -/

namespace Token

theorem stop_spanOf {ts : List Token} (h : ts ≠ []) (p : Int) : (spanOf ts).stop = stopFrom p ts := by
  cases ts with
  | nil => exact absurd rfl h
  | cons t ts => rfl

theorem spanOf_append {ts : List Token} (h : ts ≠ []) (us : List Token) :
    spanOf (ts ++ us) = ⟨(spanOf ts).start, stopFrom (spanOf ts).stop us⟩ := by
  cases ts with
  | nil => exact absurd rfl h
  | cons t ts =>
    rw [List.cons_append, spanOf, stopFrom_append]
    rfl

end Token

namespace Phrase

variable {limits : Limits}

theorem span_meaning {p : Part} (d : Phrase p) : match p, d with
    | .whole _, d => (d.tree limits).span = Token.spanOf d.tokens
    | .tail _, d => ∀ left : Expr, (d.onto limits left).span =
      ⟨left.span.start, Token.stopFrom left.span.stop d.tokens⟩ := by
  induction d with
  | constant | shorthand | dice => rfl
  | brackets o inner c ih =>
    show (Expr.withSpan _ (inner.tree limits)).span = _
    rw [Expr.span_withSpan, tokens, Token.spanOf_append (List.cons_ne_nil _ _)]
    rfl
  | negate m e ih =>
    have hne : e.tokens ≠ [] := e.tokens_ne_nil ⟨_, rfl⟩
    show Span.mk m.1.position (e.tree limits).span.stop = _
    rw [show (e.tree limits).span = _ from ih, Token.stop_spanOf hne m.1.stop]
    rfl
  | chain first more ihf ihm =>
    have hne : first.tokens ≠ [] := first.tokens_ne_nil ⟨_, rfl⟩
    show (more.onto limits (first.tree limits)).span = _
    rw [ihm, show (first.tree limits).span = _ from ihf, tokens, Token.spanOf_append hne]
  | last => exact fun _ => rfl
  | link sign next more ihn ihm =>
    intro left
    have hne : next.tokens ≠ [] := next.tokens_ne_nil ⟨_, rfl⟩
    have hright : (next.tree limits).span = Token.spanOf next.tokens := ihn
    refine (ihm _).trans ?_
    show Span.mk left.span.start (Token.stopFrom (next.tree limits).span.stop more.tokens) = _
    rw [hright, Token.stop_spanOf hne sign.word.1.stop, tokens, Token.stopFrom_append]
    rfl

/-- **The span of an expression is what the tokens of its phrase cover.** -/
theorem span_tree {c : Category} (d : Phrase (.whole c)) :
    (d.tree limits).span = Token.spanOf d.tokens := span_meaning d

end Phrase

/-! ## Nodes -/

/-- All nodes of an expression, each in front of those below it. -/
def Expr.nodes : Expr → List Expr
  | constant v s => [constant v s]
  | dice t s => [dice t s]
  | negate e s => negate e s :: e.nodes
  | binary op l r s => binary op l r s :: (l.nodes ++ r.nodes)

theorem Expr.forall_nodes_negate {P : Expr → Prop} {e : Expr} {s : Span} :
    (∀ m ∈ (negate e s).nodes, P m) ↔ P (negate e s) ∧ ∀ m ∈ e.nodes, P m := by
  rw [nodes, List.forall_mem_cons]

theorem Expr.forall_nodes_binary {P : Expr → Prop} {op : Operator} {l r : Expr} {s : Span} :
    (∀ m ∈ (binary op l r s).nodes, P m) ↔
      P (binary op l r s) ∧ (∀ m ∈ l.nodes, P m) ∧ ∀ m ∈ r.nodes, P m := by
  rw [nodes, List.forall_mem_cons, List.forall_mem_append]

/-- The nodes of an expression with another span are the same but for the root. -/
theorem Expr.forall_nodes_withSpan {P : Expr → Prop} {e : Expr} {s : Span} (hroot : P (e.withSpan s))
    (h : ∀ m ∈ e.nodes, P m) : ∀ m ∈ (e.withSpan s).nodes, P m := by
  cases e with
  | constant | dice => exact List.forall_mem_singleton.mpr hroot
  | negate e t => exact forall_nodes_negate.mpr ⟨hroot, (forall_nodes_negate.mp h).2⟩
  | binary op l r t => exact forall_nodes_binary.mpr ⟨hroot, (forall_nodes_binary.mp h).2⟩

theorem Expr.mem_nodes (e : Expr) : e ∈ e.nodes := by
  cases e <;> exact List.mem_cons_self

/-- Somewhere among tokens an accepted phrase for an expression stands by itself. -/
def Stands (limits : Limits) (depth : Nat) (ts : List Token) (m : Expr) : Prop :=
  ∃ c, ∃ d : Phrase (.whole c), ∃ before after, ts = before ++ (d.tokens ++ after) ∧
    Stops 3 after ∧ d.Accepted limits depth ∧ d.tree limits = m

variable {limits : Limits} {depth : Nat}

theorem Phrase.stands {c : Category} {d : Phrase (.whole c)} {rest : List Token}
    (hd : d.Accepted limits depth) (hrest : Stops 3 rest) :
    Stands limits depth (d.tokens ++ rest) (d.tree limits) := ⟨c, d, [], rest, rfl, hrest, hd, rfl⟩

theorem Stands.mono {ts : List Token} {m : Expr} (h : Stands limits depth ts m) (front : List Token)
    {deeper : Nat} (hdepth : depth ≤ deeper) : Stands limits deeper (front ++ ts) m := by
  obtain ⟨c, d, before, after, rfl, hafter, hd, rfl⟩ := h
  refine ⟨c, d, front ++ before, after, (List.append_assoc _ _ _).symm, hafter, ?_, rfl⟩
  exact ⟨hd.within, hd.nesting.trans_le hdepth, hd.legible⟩

theorem Phrase.stands_meaning {p : Part} (d : Phrase p) :
    ∀ {depth : Nat}, d.Accepted limits depth → ∀ {rest : List Token}, Stops p.precedence rest →
      match p, d with
      | .whole _, d => ∀ m ∈ (d.tree limits).nodes, Stands limits depth (d.tokens ++ rest) m
      | .tail l, d => ∀ lead : Phrase (.whole (.chain l)), lead.Accepted limits depth →
        (∀ m ∈ (lead.tree limits).nodes,
          Stands limits depth (lead.tokens ++ (d.tokens ++ rest)) m) →
        ∀ m ∈ (d.onto limits (lead.tree limits)).nodes,
          Stands limits depth (lead.tokens ++ (d.tokens ++ rest)) m := by
  induction d with
  | constant | shorthand | dice =>
    intro depth hd rest hrest
    exact List.forall_mem_singleton.mpr (stands hd hrest)
  | brackets o inner c ih =>
    intro depth hd rest hrest
    have hroot := stands hd hrest
    obtain ⟨depth, rfl⟩ := hd.exists_eq_succ
    have hclosing : Stops 1 (c.1 :: rest) := stops_cons.mpr (.inl c.2)
    refine Expr.forall_nodes_withSpan hroot fun m hm => ?_
    rw [tokens, List.append_assoc]
    exact (ih (accepted_brackets.mp hd) hclosing m hm).mono [o.1] (Nat.le_succ _)
  | negate m e ih =>
    intro depth hd rest hrest
    have hroot := stands hd hrest
    obtain ⟨depth, rfl⟩ := hd.exists_eq_succ
    refine Expr.forall_nodes_negate.mpr ⟨hroot, fun n hn => ?_⟩
    exact (ih (accepted_negate.mp hd) hrest n hn).mono [m.1] (Nat.le_succ _)
  | @chain l first more ihf ihm =>
    intro depth hd rest hrest
    obtain ⟨hfirst, hmore⟩ := accepted_chain.mp hd
    have hlead : (chain first .last).Accepted limits depth :=
      accepted_chain.mpr ⟨hfirst, accepted_last (Nat.zero_lt_of_lt hd.nesting)⟩
    have hstops := more.stops_tail hrest
    have htokens : (chain first .last).tokens = first.tokens := by
      rw [tokens, tokens, List.append_nil]
    have hnodes := ihm hmore hrest (chain first .last) hlead
    rw [htokens] at hnodes
    intro m hm
    show Stands limits depth ((first.tokens ++ more.tokens) ++ rest) m
    rw [List.append_assoc]
    exact hnodes (ihf hfirst hstops) m hm
  | last => exact fun _ _ _ _ _ h => h
  | @link l sign next more ihn ihm =>
    intro depth hd rest hrest lead hlead hnodes
    obtain ⟨hnext, hmore⟩ := accepted_link.mp hd
    have hstops := more.stops_tail hrest
    have hgrown : (lead.grown sign next).Accepted limits depth := accepted_grown hlead hnext
    have htokens : lead.tokens ++ ((link sign next more).tokens ++ rest) =
        (lead.grown sign next).tokens ++ (more.tokens ++ rest) := by
      show lead.tokens ++ ((sign.word.1 :: next.tokens ++ more.tokens) ++ rest) = _
      simp [tokens_grown]
    rw [htokens] at hnodes ⊢
    have hmeaning := ihm hmore hrest (lead.grown sign next) hgrown
    rw [tree_grown] at hmeaning
    refine hmeaning (Expr.forall_nodes_binary.mpr ⟨?_, hnodes, fun m hm => ?_⟩)
    · rw [← tree_grown]
      exact stands hgrown (hstops.mono (Part.precedence_bounds l.operand).2)
    · have hright := (ihn hnext hstops m hm).mono (lead.tokens ++ [sign.word.1]) (le_refl depth)
      rwa [tokens_grown, List.append_assoc, List.cons_append, ← List.singleton_append,
        ← List.append_assoc]

/-- **Every node of what is read is what a phrase stands for** that stands by itself among the tokens. -/
theorem Phrase.stands_of_mem_nodes {d : Sentence} (hd : d.Accepted limits depth) {m : Expr}
    (hm : m ∈ (d.tree limits).nodes) : Stands limits depth d.tokens m := by
  have hstands := d.stands_meaning hd (stops_nil _) m hm
  rwa [List.append_nil] at hstands

end Dicebox
