import Dicebox.Proofs.Grammar.Clauses

/-! # Reading phrases

The reader accepts the phrases of the grammar that are within the limits and not nested too deeply,
and reads each of them as the expression it stands for. What it takes from a list of tokens is such
a phrase (`factor_sound`), and in front of tokens that cannot belong to it, such a phrase is what it
takes (`phrase_complete`).

- `Phrase.Accepted`: a phrase within the limits, with fewer than so many factors in each other.
- `factor_sound`, `joined_sound`: what is read is a phrase.
- `phrase_complete`: phrases are read.
-/

namespace Dicebox

/-! ## Accepted phrases -/

/-- A phrase that a reader with a budget of `depth` nested factors accepts. -/
structure Phrase.Accepted (limits : Limits) (depth : Nat) {p : Part} (d : Phrase p) : Prop where
  within : d.Within limits
  nesting : d.nesting < depth
  legible : AllLegible d.tokens

namespace Phrase

variable {limits : Limits} {depth : Nat}

theorem Accepted.exists_eq_succ {p : Part} {d : Phrase p} (hd : d.Accepted limits depth) :
    ∃ n, depth = n + 1 := ⟨depth - 1, by have := hd.nesting; omega⟩

theorem accepted_constant {n : Word .integer} :
    (constant n).Accepted limits depth ↔ 0 < depth ∧ n.1.Legible := by
  constructor
  · intro h
    exact ⟨h.nesting, (allLegible_cons.mp h.legible).1⟩
  · rintro ⟨hd, hl⟩
    exact ⟨fun t ht => (nomatch ht), hd, allLegible_cons.mpr ⟨hl, allLegible_nil⟩⟩

theorem accepted_shorthand {w : Word .shorthand} {rule : Selection}
    {known : shorthand? w.1.lower = some rule} (hd : 0 < depth) :
    (shorthand w rule known).Accepted limits depth := by
  have hw : w.1.Legible := Token.legible_of_ne (by simp [w.2])
  exact ⟨fun t ht => (nomatch ht), hd, allLegible_cons.mpr ⟨hw, allLegible_nil⟩⟩

theorem accepted_dice {t : Throw} :
    (dice t).Accepted limits depth ↔ t.Within limits ∧ 0 < depth ∧ AllLegible t.tokens := by
  constructor
  · intro h
    exact ⟨h.within t (List.mem_singleton_self t), h.nesting, h.legible⟩
  · rintro ⟨hw, hd, hl⟩
    refine ⟨fun u hu => ?_, hd, hl⟩
    obtain rfl := List.mem_singleton.mp hu
    exact hw

theorem accepted_brackets {o : Word .opening} {inner : Sentence} {c : Word .closing} :
    (brackets o inner c).Accepted limits (depth + 1) ↔ inner.Accepted limits depth := by
  have ho : o.1.Legible := Token.legible_of_ne (by simp [o.2])
  have hc : c.1.Legible := Token.legible_of_ne (by simp [c.2])
  constructor
  · intro h
    have hl := h.legible
    rw [tokens, allLegible_append, allLegible_cons] at hl
    exact ⟨h.within, Nat.lt_of_succ_lt_succ h.nesting, hl.1.2⟩
  · intro h
    refine ⟨h.within, Nat.succ_lt_succ h.nesting, ?_⟩
    rw [tokens, allLegible_append, allLegible_cons]
    exact ⟨⟨ho, h.legible⟩, allLegible_cons.mpr ⟨hc, allLegible_nil⟩⟩

theorem accepted_negate {m : Word (.operator .sub)} {e : Phrase (.whole .factor)} :
    (negate m e).Accepted limits (depth + 1) ↔ e.Accepted limits depth := by
  have hm : m.1.Legible := Token.legible_of_ne (by simp [m.2])
  constructor
  · intro h
    exact ⟨h.within, Nat.lt_of_succ_lt_succ h.nesting, (allLegible_cons.mp h.legible).2⟩
  · intro h
    exact ⟨h.within, Nat.succ_lt_succ h.nesting, allLegible_cons.mpr ⟨hm, h.legible⟩⟩

theorem accepted_chain {l : Level} {first : Phrase (.whole l.operand)} {more : Phrase (.tail l)} :
    (chain first more).Accepted limits depth ↔
      first.Accepted limits depth ∧ more.Accepted limits depth := by
  constructor
  · intro h
    obtain ⟨hwf, hwm⟩ := List.forall_mem_append.mp h.within
    obtain ⟨hlf, hlm⟩ := allLegible_append.mp h.legible
    obtain ⟨hnf, hnm⟩ := max_lt_iff.mp h.nesting
    exact ⟨⟨hwf, hnf, hlf⟩, ⟨hwm, hnm, hlm⟩⟩
  · rintro ⟨hf, hm⟩
    exact ⟨List.forall_mem_append.mpr ⟨hf.within, hm.within⟩, max_lt hf.nesting hm.nesting,
      allLegible_append.mpr ⟨hf.legible, hm.legible⟩⟩

theorem accepted_last {l : Level} (hd : 0 < depth) :
    (last : Phrase (.tail l)).Accepted limits depth :=
  ⟨fun _ ht => (nomatch ht), hd, allLegible_nil⟩

theorem accepted_link {l : Level} {sign : Sign l} {next : Phrase (.whole l.operand)}
    {more : Phrase (.tail l)} :
    (link sign next more).Accepted limits depth ↔
      next.Accepted limits depth ∧ more.Accepted limits depth := by
  have hs : sign.word.1.Legible := Token.legible_of_ne (by simp [sign.word.2])
  constructor
  · intro h
    obtain ⟨hwn, hwm⟩ := List.forall_mem_append.mp h.within
    have hl := h.legible
    rw [tokens, allLegible_append, allLegible_cons] at hl
    obtain ⟨hnn, hnm⟩ := max_lt_iff.mp h.nesting
    exact ⟨⟨hwn, hnn, hl.1.2⟩, ⟨hwm, hnm, hl.2⟩⟩
  · rintro ⟨hn, hm⟩
    refine ⟨List.forall_mem_append.mpr ⟨hn.within, hm.within⟩, max_lt hn.nesting hm.nesting, ?_⟩
    rw [tokens, allLegible_append, allLegible_cons]
    exact ⟨⟨hs, hn.legible⟩, hm.legible⟩

end Phrase

namespace Read

/-- What reads the phrases of a category. -/
def whole (limits : Limits) (fin : Int) (depth : Nat) :
    Category → List Token → Except NotationError (Expr × List Token)
  | .factor => factor limits fin depth
  | .chain .product => joined 2 (factor limits fin depth)
  | .chain .sum => sum (factor limits fin depth)

theorem whole_chain (limits : Limits) (fin : Int) (depth : Nat) (l : Level) :
    whole limits fin depth (.chain l) = joined l.precedence (whole limits fin depth l.operand) := by
  cases l <;> rfl

/-! ## What is read is a phrase -/

/-- What a reader takes from tokens of a text is an accepted phrase, and its value is what the
phrase stands for. -/
def Derives (limits : Limits) (depth : Nat) (c : Category)
    (read : List Token → Except NotationError (Expr × List Token)) : Prop :=
  ∀ {ts rest : List Token} {e : Expr}, (∀ t ∈ ts, t.Scanned) → read ts = .ok (e, rest) →
    ∃ d : Phrase (.whole c), d.Accepted limits depth ∧ ts = d.tokens ++ rest ∧ e = d.tree limits

variable {limits : Limits} {fin : Int} {depth : Nat}

theorem chain_sound {l : Level} {operand : List Token → Except NotationError (Expr × List Token)}
    (hoperand : Derives limits depth l.operand operand) (hdepth : 0 < depth) :
    ∀ {fuel : Nat} {left e : Expr} {ts rest : List Token}, (∀ t ∈ ts, t.Scanned) →
      chain l.precedence operand fuel left ts = .ok (e, rest) →
        ∃ d : Phrase (.tail l), d.Accepted limits depth ∧ ts = d.tokens ++ rest ∧
          e = d.onto limits left := by
  intro fuel
  induction fuel with
  | zero =>
    intro left e ts rest hts h
    obtain ⟨rfl, rfl⟩ := Prod.mk.inj (Except.ok.inj h)
    exact ⟨.last, Phrase.accepted_last hdepth, rfl, rfl⟩
  | succ fuel ih =>
    intro left e ts rest hts h
    rw [chain.eq_def] at h
    cases ts with
    | nil =>
      obtain ⟨rfl, rfl⟩ := Prod.mk.inj (Except.ok.inj h)
      exact ⟨.last, Phrase.accepted_last hdepth, rfl, rfl⟩
    | cons t ts =>
      dsimp only at h
      split at h
      · next op hop =>
        split at h
        · next hprec =>
          obtain ⟨⟨right, us⟩, hright, h⟩ := bind_eq_ok.mp h
          obtain ⟨next, hnext, rfl, rfl⟩ := hoperand (fun u hu => hts u (by simp [hu])) hright
          obtain ⟨more, hmore, rfl, rfl⟩ := ih (fun u hu => hts u (by simp [hu])) h
          refine ⟨.link ⟨op, ⟨t, hop⟩, hprec⟩ next more,
            Phrase.accepted_link.mpr ⟨hnext, hmore⟩, ?_, rfl⟩
          rw [Phrase.tokens, List.cons_append, List.cons_append, List.append_assoc]
        · obtain ⟨rfl, rfl⟩ := Prod.mk.inj (Except.ok.inj h)
          exact ⟨.last, Phrase.accepted_last hdepth, rfl, rfl⟩
      · obtain ⟨rfl, rfl⟩ := Prod.mk.inj (Except.ok.inj h)
        exact ⟨.last, Phrase.accepted_last hdepth, rfl, rfl⟩

theorem joined_sound {l : Level} {operand : List Token → Except NotationError (Expr × List Token)}
    (hoperand : Derives limits depth l.operand operand) :
    Derives limits depth (.chain l) (joined l.precedence operand) := by
  intro ts rest e hts h
  obtain ⟨⟨left, us⟩, hleft, h⟩ := bind_eq_ok.mp h
  obtain ⟨first, hfirst, rfl, rfl⟩ := hoperand hts hleft
  obtain ⟨more, hmore, rfl, rfl⟩ := chain_sound hoperand (Nat.zero_lt_of_lt hfirst.nesting)
    (fun u hu => hts u (by simp [hu])) h
  refine ⟨.chain first more, Phrase.accepted_chain.mpr ⟨hfirst, hmore⟩, ?_, rfl⟩
  rw [Phrase.tokens, List.append_assoc]

theorem sum_sound {factor : List Token → Except NotationError (Expr × List Token)}
    (hfactor : Derives limits depth .factor factor) :
    Derives limits depth (.chain .sum) (sum factor) :=
  joined_sound (l := .sum) (joined_sound (l := .product) hfactor)

/-- The token that a dice term begins with. -/
abbrev firstOf (n : Option (Word .integer)) (d : Word .die) : Token := (n.map Subtype.val).getD d.1

theorem throw_sound {n : Option (Word .integer)} {d : Word .die} {ts rest : List Token} {e : Expr}
    (hdepth : 0 < depth) (hts : ∀ t ∈ ts, t.Scanned) (hn : AllLegible (written n))
    (hcount : ∀ w ∈ n, 1 ≤ w.1.value ∧ w.1.value ≤ limits.maxDice)
    (h : dice limits fin (firstOf n d).position (numberOr 1 n) ts = .ok (e, rest)) :
    ∃ p : Phrase (.whole .factor), p.Accepted limits depth ∧
      written n ++ d.1 :: ts = p.tokens ++ rest ∧ e = p.tree limits := by
  obtain ⟨s, cs, rfl, rfl, hsides, hfits, hcomp, hl⟩ := dice_sound hts h
  have hd : d.1.Legible := Token.legible_of_ne (by simp [d.2])
  refine ⟨.dice ⟨n, d, s, cs⟩, Phrase.accepted_dice.mpr
    ⟨⟨hcount, hsides, hfits, hcomp⟩, hdepth, ?_⟩, ?_, ?_⟩
  · exact allLegible_append.mpr ⟨hn, allLegible_cons.mpr ⟨hd, hl⟩⟩
  · rw [Phrase.tokens, Throw.tokens, List.append_assoc]
    rfl
  · cases n <;> rfl

theorem throw_complete (fin : Int) {t : Throw} {rest : List Token}
    (ht : (Phrase.dice t).Accepted limits depth)
    (hts : ∀ u ∈ t.tokens, u.Scanned) (hrest : Stops 3 rest) :
    dice limits fin (firstOf t.count t.die).position (numberOr 1 t.count)
        (t.sides.1 :: t.clauses.flatMap Clause.tokens ++ rest) =
      .ok ((Phrase.dice t).tree limits, rest) := by
  obtain ⟨hw, -, hl⟩ := Phrase.accepted_dice.mp ht
  obtain ⟨n, d, s, cs⟩ := t
  have hsub : ∀ u ∈ s.1 :: cs.flatMap Clause.tokens, u ∈ (⟨n, d, s, cs⟩ : Throw).tokens := by
    intro u hu
    exact List.mem_append_right _ (List.mem_cons_of_mem _ hu)
  have hread := dice_complete fin (firstOf n d).position (numberOr 1 n) hrest
    (fun u hu => hts u (hsub u hu)) (fun u hu => hl u (hsub u hu)) hw.sides hw.fits
    hw.compatible
  refine hread.trans ?_
  cases n <;> rfl

theorem numbered_sound {n : Word .integer} {ts rest : List Token} {e : Expr} (hdepth : 0 < depth)
    (hts : ∀ t ∈ n.1 :: ts, t.Scanned) (h : numbered limits fin n.1 ts = .ok (e, rest)) :
    ∃ d : Phrase (.whole .factor), d.Accepted limits depth ∧ n.1 :: ts = d.tokens ++ rest ∧
      e = d.tree limits := by
  obtain ⟨hn, hts'⟩ := List.forall_mem_cons.mp hts
  have constant : ∀ {us : List Token}, ((number n.1).bind fun v =>
      Except.ok (Expr.constant v ⟨n.1.position, n.1.stop⟩, us)) = .ok (e, rest) →
        ∃ d : Phrase (.whole .factor), d.Accepted limits depth ∧ n.1 :: us = d.tokens ++ rest ∧
          e = d.tree limits := by
    intro us h
    obtain ⟨v, hv, h⟩ := bind_eq_ok.mp h
    obtain ⟨hl, rfl⟩ := (number_eq_ok n.2 hn).mp hv
    obtain ⟨rfl, rfl⟩ := Prod.mk.inj (Except.ok.inj h)
    exact ⟨.constant n, Phrase.accepted_constant.mpr ⟨hdepth, hl⟩, rfl, rfl⟩
  cases ts with
  | nil => exact constant h
  | cons d ts =>
    rw [numbered] at h
    split at h
    · next hk =>
      obtain ⟨v, hv, h⟩ := bind_eq_ok.mp h
      obtain ⟨hl, rfl, hcount⟩ := (takes_diceCount limits n.2 hn).mp hv
      refine throw_sound (n := some n) (d := ⟨d, hk⟩) hdepth (List.forall_mem_cons.mp hts').2
        (allLegible_cons.mpr ⟨hl, allLegible_nil⟩) (fun w hw => ?_) h
      obtain rfl := Option.some.inj hw
      exact hcount
    · exact constant h

theorem factor_sound : ∀ {depth : Nat}, Derives limits depth .factor (factor limits fin depth) := by
  -- a bracket holds a sum of factors with one unit of depth less, so no induction along sums
  intro depth
  induction depth with
  | zero =>
    intro ts rest e hts h
    cases h
  | succ depth ih =>
    intro ts rest e hts h
    cases ts with
    | nil => cases h
    | cons t ts =>
      obtain ⟨ht, hts'⟩ := List.forall_mem_cons.mp hts
      rw [factor.eq_def] at h
      dsimp only at h
      split at h
      · next hk =>
        obtain ⟨⟨e', us⟩, hread, h⟩ := bind_eq_ok.mp h
        obtain ⟨rfl, rfl⟩ := Prod.mk.inj (Except.ok.inj h)
        obtain ⟨d, hd, rfl, rfl⟩ := ih hts' hread
        exact ⟨.negate ⟨t, hk⟩ d, Phrase.accepted_negate.mpr hd, rfl, rfl⟩
      · next hk =>
        obtain ⟨⟨e', us⟩, hread, h⟩ := bind_eq_ok.mp h
        obtain ⟨d, hd, rfl, rfl⟩ := sum_sound ih hts' hread
        cases us with
        | nil => cases h
        | cons c us =>
          dsimp only at h
          split at h
          · next hc =>
            obtain ⟨rfl, rfl⟩ := Prod.mk.inj (Except.ok.inj h)
            refine ⟨.brackets ⟨t, hk⟩ d ⟨c, hc⟩, Phrase.accepted_brackets.mpr hd, ?_, rfl⟩
            rw [Phrase.tokens, List.append_assoc]
            rfl
          · cases h
      · next hk => exact numbered_sound (n := ⟨t, hk⟩) (Nat.succ_pos depth) hts h
      · next hk =>
        refine throw_sound (n := none) (d := ⟨t, hk⟩) (Nat.succ_pos depth) hts' allLegible_nil
          ?_ h
        intro w hw
        cases hw
      · next hk =>
        obtain ⟨rule, known⟩ := ht.known hk
        rw [shorthand, show shorthand? (t.text.map Char.toLower) = some rule from known] at h
        obtain ⟨rfl, rfl⟩ := Prod.mk.inj (Except.ok.inj h)
        exact ⟨.shorthand ⟨t, hk⟩ rule known, Phrase.accepted_shorthand (Nat.succ_pos depth), rfl,
          rfl⟩
      · cases h

/-! ## Phrases are read -/

/-- A sign of this level follows no tail. -/
theorem chain_of_stops {l : Level} {operand : List Token → Except NotationError (Expr × List Token)}
    {fuel : Nat} {left : Expr} {rest : List Token} (hrest : Stops l.precedence rest) :
    chain l.precedence operand fuel left rest = .ok (left, rest) := by
  cases fuel with
  | zero => rfl
  | succ fuel =>
    cases rest with
    | nil => rfl
    | cons t ts =>
      rw [chain]
      rcases stops_cons.mp hrest with hk | ⟨op, hk, hlt⟩
      · rw [hk]
        rfl
      · rw [hk]
        exact if_neg (by omega)

theorem chain_of_sign {l : Level} {operand : List Token → Except NotationError (Expr × List Token)}
    {fuel : Nat} {left right : Expr} {sign : Sign l} {ts rest : List Token}
    (hright : operand ts = .ok (right, rest)) :
    chain l.precedence operand (fuel + 1) left (sign.word.1 :: ts) =
      chain l.precedence operand fuel
        (.binary sign.op left right ⟨left.span.start, right.span.stop⟩) rest := by
  rw [chain, sign.word.2]
  refine (if_pos sign.binds).trans ?_
  rw [hright]
  rfl

/-- What reading a phrase in front of `rest` comes to: a whole is read as its tree, and a tail, with
a unit of fuel for each token, as what it makes of the expression in front of it. -/
def Reads (limits : Limits) (fin : Int) (depth : Nat) (rest : List Token) :
    {p : Part} → Phrase p → Prop
  | .whole c, d => whole limits fin depth c (d.tokens ++ rest) = .ok (d.tree limits, rest)
  | .tail l, d => ∀ {fuel : Nat} (left : Expr), (d.tokens ++ rest).length ≤ fuel →
      chain l.precedence (whole limits fin depth l.operand) fuel left (d.tokens ++ rest) =
        .ok (d.onto limits left, rest)

theorem phrase_complete (fin : Int) {p : Part} (d : Phrase p) :
    ∀ {depth : Nat} {rest : List Token}, d.Accepted limits depth → (∀ t ∈ d.tokens, t.Scanned) →
      Stops p.precedence rest → Reads limits fin depth rest d := by
  induction d with
  | constant n =>
    intro depth rest hd hts hrest
    obtain ⟨depth, rfl⟩ := hd.exists_eq_succ
    have hn : number n.1 = .ok n.1.value :=
      (number_eq_ok n.2 (hts n.1 List.mem_cons_self)).mpr ⟨(Phrase.accepted_constant.mp hd).2, rfl⟩
    show factor limits fin (depth + 1) (n.1 :: rest) = _
    rw [factor.eq_def]
    simp only [n.2]
    cases rest with
    | nil =>
      rw [numbered, hn]
      rfl
    | cons t ts =>
      have hk : ¬ t.kind = .die := fun hk => hrest.leading_ne (by simp) (by simp) (congrArg some hk)
      rw [numbered, if_neg hk, hn]
      rfl
  | shorthand w rule known =>
    intro depth rest hd hts hrest
    obtain ⟨depth, rfl⟩ := hd.exists_eq_succ
    show factor limits fin (depth + 1) (w.1 :: rest) = _
    rw [factor.eq_def]
    simp only [w.2]
    rw [shorthand, show shorthand? (w.1.text.map Char.toLower) = some rule from known]
    rfl
  | dice t =>
    intro depth rest hd hts hrest
    obtain ⟨depth, rfl⟩ := hd.exists_eq_succ
    have hread := throw_complete fin hd hts hrest
    obtain ⟨n, d, s, cs⟩ := t
    cases n with
    | none =>
      show factor limits fin (depth + 1) (d.1 :: (s.1 :: cs.flatMap Clause.tokens ++ rest)) = _
      rw [factor.eq_def]
      simp only [d.2]
      exact hread
    | some n =>
      obtain ⟨hw, -, hl⟩ := Phrase.accepted_dice.mp hd
      have hn : diceCount limits n.1 = .ok n.1.value :=
        (takes_diceCount limits n.2 (hts n.1 List.mem_cons_self)).mpr
          ⟨hl n.1 List.mem_cons_self, rfl, hw.count n rfl⟩
      show factor limits fin (depth + 1)
        (n.1 :: d.1 :: (s.1 :: cs.flatMap Clause.tokens ++ rest)) = _
      rw [factor.eq_def]
      simp only [n.2]
      rw [numbered, if_pos d.2, hn]
      exact hread
  | brackets o inner c ih =>
    intro depth rest hd hts hrest
    obtain ⟨depth, rfl⟩ := hd.exists_eq_succ
    rw [Phrase.tokens] at hts
    have hclosing : Stops 1 (c.1 :: rest) := stops_cons.mpr (Or.inl c.2)
    have hinner := ih (Phrase.accepted_brackets.mp hd) (fun t ht => hts t (by simp [ht])) hclosing
    show factor limits fin (depth + 1) (o.1 :: inner.tokens ++ [c.1] ++ rest) = _
    rw [List.append_assoc, List.cons_append, List.singleton_append, factor.eq_def]
    simp only [o.2]
    refine bind_eq_ok.mpr ⟨_, hinner, ?_⟩
    exact if_pos c.2
  | negate m e ih =>
    intro depth rest hd hts hrest
    obtain ⟨depth, rfl⟩ := hd.exists_eq_succ
    have he := ih (Phrase.accepted_negate.mp hd) (List.forall_mem_cons.mp hts).2 hrest
    show factor limits fin (depth + 1) (m.1 :: (e.tokens ++ rest)) = _
    rw [factor.eq_def]
    simp only [m.2]
    exact bind_eq_ok.mpr ⟨_, he, rfl⟩
  | @chain l first more ihf ihm =>
    intro depth rest hd hts hrest
    obtain ⟨hdf, hdm⟩ := Phrase.accepted_chain.mp hd
    obtain ⟨htf, htm⟩ := List.forall_mem_append.mp hts
    have hfirst := ihf hdf htf (more.stops_tail hrest)
    have hmore := ihm hdm htm hrest (first.tree limits) (le_refl _)
    show whole limits fin depth (.chain l) (first.tokens ++ more.tokens ++ rest) = _
    rw [whole_chain, List.append_assoc]
    exact bind_eq_ok.mpr ⟨_, hfirst, hmore⟩
  | last =>
    intro depth rest hd hts hrest fuel left hfuel
    exact chain_of_stops hrest
  | @link l sign next more ihn ihm =>
    intro depth rest hd hts hrest fuel left hfuel
    obtain ⟨hdn, hdm⟩ := Phrase.accepted_link.mp hd
    obtain ⟨htn, htm⟩ := List.forall_mem_append.mp hts
    have hnext := ihn hdn (List.forall_mem_cons.mp htn).2 (more.stops_tail hrest)
    rw [Phrase.tokens, List.cons_append, List.cons_append, List.append_assoc] at hfuel ⊢
    obtain ⟨fuel, rfl⟩ : ∃ k, fuel = k + 1 := ⟨fuel - 1, by simp at hfuel; omega⟩
    rw [chain_of_sign hnext]
    refine ihm hdm htm hrest _ ?_
    simp only [List.length_cons, List.length_append] at hfuel ⊢
    omega

end Read

end Dicebox
