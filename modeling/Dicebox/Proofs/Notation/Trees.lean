import Dicebox.Proofs.Grammar.Reading
import Dicebox.Proofs.Notation

/-! # The written form of what was read

What an accepted phrase stands for is fit to be written and read again under any limits that are no
tighter and leave room for the dice of its shorthands, which no limit was checked against. Its
written form has no more negations and brackets around a leaf than the phrase has, for a bracket is
written only where the phrase had one, and the caps that the reader gave leave no trace in it.

- `Phrase.bare_tree`: what a phrase stands for, but for the caps.
- `Limits.HaveRoom`, `Phrase.fits_tree`: it fits limits that are no tighter and have room for its
  shorthands.
- `Phrase.nesting_tree`: its written form is nested no deeper.
-/

namespace Dicebox

variable {limits limits' : Limits}

/-! ## Caps -/

theorem Clause.bare_modifier (sides : Int) (c : Clause) :
    (c.modifier limits sides).bare = (c.modifier limits' sides).bare := by
  cases c <;> rfl

theorem Clause.fits_modifier {sides : Int} {c : Clause} :
    (c.modifier limits sides).Fits sides ↔ (c.modifier limits' sides).Fits sides := by
  cases c <;> rfl

theorem Clause.family_modifier (limits limits' : Limits) (sides : Int) (c : Clause) :
    Family.of? (c.modifier limits sides) = Family.of? (c.modifier limits' sides) := by
  cases c <;> rfl

theorem Clause.capped_modifier (sides : Int) (c : Clause) :
    (c.modifier limits sides).Capped limits := by
  cases c <;> first | rfl | trivial

theorem Throw.bare_dice (t : Throw) : (t.dice limits).bare = (t.dice limits').bare := by
  rw [dice, dice, Dice.bare, Dice.bare, modifiers, modifiers, List.map_map, List.map_map]
  congr 1
  exact List.map_congr_left fun c _ => c.bare_modifier _

/-- Two readings of a phrase under different limits differ in caps only. -/
theorem Phrase.bare_meaning : ∀ {p : Part} (d : Phrase p), match p, d with
    | .whole _, d => (d.tree limits).bare = (d.tree limits').bare
    | .tail _, d => ∀ {left left' : Expr}, left.bare = left'.bare →
      (d.onto limits left).bare = (d.onto limits' left').bare := by
  intro p d
  induction d with
  | constant | shorthand => rfl
  | dice t => exact congrArg (Expr.dice · ⟨0, 0⟩) t.bare_dice
  | brackets o inner c ih =>
    show (Expr.withSpan _ (inner.tree limits)).bare = (Expr.withSpan _ (inner.tree limits')).bare
    rw [Expr.bare_withSpan, Expr.bare_withSpan]
    exact ih
  | negate m e ih => exact congrArg (Expr.negate · ⟨0, 0⟩) ih
  | chain first more ihf ihm => exact ihm ihf
  | last => exact id
  | link sign next more ihn ihm =>
    intro left left' h
    refine ihm ?_
    rw [Expr.bare, Expr.bare, h]
    exact congrArg (Expr.binary sign.op left'.bare · ⟨0, 0⟩) ihn

theorem Phrase.bare_tree {c : Category} (d : Phrase (.whole c)) :
    (d.tree limits).bare = (d.tree limits').bare := d.bare_meaning

/-! ## Bounds -/

theorem Listing.showable_values {l : Listing} (hts : ∀ t ∈ l.tokens, t.Scanned)
    (hl : AllLegible l.tokens) : ∀ v ∈ l.values, Numeral.showable v = true := by
  have hword : ∀ w : Word .integer, w.1 ∈ l.tokens → Numeral.showable w.1.value = true :=
    fun w hw => Token.showable_value w.2 (hts w.1 hw) (hl w.1 hw)
  intro v hv
  rcases List.mem_cons.mp hv with rfl | hv
  · exact hword l.first List.mem_cons_self
  · obtain ⟨m, hm, rfl⟩ := List.mem_map.mp hv
    refine hword m.2 (List.mem_cons_of_mem _ (List.mem_flatMap.mpr ⟨m, hm, ?_⟩))
    exact List.mem_cons_of_mem _ List.mem_cons_self

theorem showable_numberOr {absent : Int} {n : Option (Word .integer)}
    (habsent : Numeral.showable absent = true) (hts : ∀ t ∈ written n, t.Scanned)
    (hl : AllLegible (written n)) : Numeral.showable (numberOr absent n) = true := by
  cases n with
  | none => exact habsent
  | some w =>
    exact Token.showable_value w.2 (hts w.1 List.mem_cons_self) (hl w.1 List.mem_cons_self)

theorem Clause.showable_numbers {c : Clause} {sides : Int} (hsides : Numeral.showable sides = true)
    (hts : ∀ t ∈ c.arguments, t.Scanned) (hl : AllLegible c.arguments) :
    ∀ n ∈ (c.modifier limits sides).numbers, Numeral.showable n = true := by
  intro n hn
  cases c with
  | select rule k w =>
    obtain rfl := List.mem_singleton.mp hn
    exact showable_numberOr (by decide) hts hl
  | explode k w =>
    obtain rfl := List.mem_singleton.mp hn
    exact showable_numberOr hsides hts hl
  | reroll once k l =>
    have hmem : n ∈ l.values.toFinset.sort (· ≤ ·) := hn
    rw [Finset.mem_sort, List.mem_toFinset] at hmem
    exact Listing.showable_values hts hl n hmem
  | success k w | failure k w =>
    obtain rfl := List.mem_singleton.mp hn
    exact Token.showable_value w.2 (hts w.1 List.mem_cons_self) (hl w.1 List.mem_cons_self)

/-- A dice term within limits fits limits that are no tighter and allow a single die. -/
theorem Throw.fits_dice {t : Throw} (ht : t.Within limits)
    (hdice : limits.maxDice ≤ limits'.maxDice) (hsides : limits.maxSides ≤ limits'.maxSides)
    (hone : 1 ≤ limits'.maxDice)
    (hts : ∀ u ∈ t.tokens, u.Scanned) (hl : AllLegible t.tokens) :
    (t.dice limits').Fits limits' := by
  obtain ⟨n, d, s, cs⟩ := t
  obtain ⟨hcount, hside, hfits, hcompatible⟩ := ht
  obtain ⟨htn, htrest⟩ := List.forall_mem_append.mp hts
  obtain ⟨-, hts, htcs⟩ := (List.forall_mem_cons.mp htrest).imp_right List.forall_mem_cons.mp
  obtain ⟨hln, hlrest⟩ := allLegible_append.mp hl
  obtain ⟨-, hls, hlcs⟩ := (allLegible_cons.mp hlrest).imp_right allLegible_cons.mp
  have hs : Numeral.showable s.1.value = true := Token.showable_value s.2 hts hls
  refine ⟨?_, ⟨hside.1, hside.2.trans hsides⟩, ?_, ?_, ?_, ?_⟩
  · cases n with
    | none => exact ⟨le_refl 1, hone⟩
    | some w => exact ⟨(hcount w rfl).1, (hcount w rfl).2.trans hdice⟩
  · intro m hm
    obtain ⟨c, hc, rfl⟩ := List.mem_map.mp hm
    exact Clause.fits_modifier.mp (hfits _ (List.mem_map.mpr ⟨c, hc, rfl⟩))
  · intro m hm
    obtain ⟨c, hc, rfl⟩ := List.mem_map.mp hm
    exact c.capped_modifier _
  · intro family
    have h := hcompatible family
    rw [modifiers, List.countP_map] at h
    show (List.map _ cs).countP _ ≤ 1
    rw [List.countP_map]
    refine le_of_eq_of_le (List.countP_congr fun c _ => ?_) h
    simp only [Function.comp_apply, c.family_modifier limits limits']
  · refine List.forall_mem_cons.mpr ⟨showable_numberOr (by decide) htn hln,
      List.forall_mem_cons.mpr ⟨hs, fun v hv => ?_⟩⟩
    obtain ⟨m, hm, hv⟩ := List.mem_flatMap.mp hv
    obtain ⟨c, hc, rfl⟩ := List.mem_map.mp hm
    have hsub : ∀ u ∈ c.arguments, u ∈ cs.flatMap Clause.tokens := by
      intro u hu
      exact List.mem_flatMap.mpr ⟨c, hc, List.mem_cons_of_mem _ hu⟩
    exact Clause.showable_numbers hs (fun u hu => htcs u (hsub u hu))
      (fun u hu => hlcs u (hsub u hu)) v hv

theorem Expr.fits_withSpan {s : Span} {e : Expr} : (e.withSpan s).Fits limits ↔ e.Fits limits := by
  cases e <;> rfl

/-- The limits leave room for two twenty-sided dice. -/
def Limits.FitShorthands (limits : Limits) : Prop := 2 ≤ limits.maxDice ∧ 20 ≤ limits.maxSides

/-- The limits leave room for the shorthands among these tokens. -/
def Limits.HaveRoom (limits : Limits) (ts : List Token) : Prop :=
  ∀ t ∈ ts, t.kind = .shorthand → limits.FitShorthands

/-- What an accepted phrase stands for under limits that are no tighter and have room for its
shorthands. -/
theorem Phrase.fits_meaning (hdice : limits.maxDice ≤ limits'.maxDice)
    (hsides : limits.maxSides ≤ limits'.maxSides) (hone : 1 ≤ limits'.maxDice) {depth : Nat} :
    ∀ {p : Part} (d : Phrase p), d.Accepted limits depth → (∀ t ∈ d.tokens, t.Scanned) →
      limits'.HaveRoom d.tokens → match p, d with
        | .whole _, d => (d.tree limits').Fits limits'
        | .tail _, d => ∀ {left : Expr}, left.Fits limits' → (d.onto limits' left).Fits limits' := by
  intro p d
  induction d generalizing depth with
  | constant n =>
    intro hd hts _
    have hshown := Token.showable_value n.2 (hts n.1 List.mem_cons_self)
      (Phrase.accepted_constant.mp hd).2
    exact ⟨Int.natCast_nonneg _, hshown⟩
  | shorthand w rule known =>
    intro _ _ hroom
    obtain ⟨htwo, htwenty⟩ := hroom w.1 List.mem_cons_self w.2
    refine ⟨⟨(by decide : (1 : Int) ≤ 2), htwo⟩, ⟨(by decide : (1 : Int) ≤ 20), htwenty⟩, ?_, ?_,
      fun family => ?_, ?_⟩
    · intro m hm
      obtain rfl := List.mem_singleton.mp hm
      exact le_refl 1
    · intro m hm
      obtain rfl := List.mem_singleton.mp hm
      trivial
    · cases rule <;> cases family <;> decide
    · cases rule <;> decide
  | dice t =>
    intro hd hts _
    obtain ⟨hw, -, hl⟩ := Phrase.accepted_dice.mp hd
    exact Throw.fits_dice hw hdice hsides hone hts hl
  | brackets o inner c ih =>
    intro hd hts hroom
    obtain ⟨depth, rfl⟩ := hd.exists_eq_succ
    have hinner : ∀ t ∈ inner.tokens, t ∈ (brackets o inner c).tokens := by
      intro t ht
      simp [tokens, ht]
    exact Expr.fits_withSpan.mpr (ih (Phrase.accepted_brackets.mp hd)
      (fun t ht => hts t (hinner t ht)) fun t ht => hroom t (hinner t ht))
  | negate m e ih =>
    intro hd hts hroom
    obtain ⟨depth, rfl⟩ := hd.exists_eq_succ
    exact ih (Phrase.accepted_negate.mp hd) (List.forall_mem_cons.mp hts).2
      (List.forall_mem_cons.mp hroom).2
  | chain first more ihf ihm =>
    intro hd hts hroom
    obtain ⟨hdf, hdm⟩ := Phrase.accepted_chain.mp hd
    obtain ⟨htf, htm⟩ := List.forall_mem_append.mp hts
    obtain ⟨hrf, hrm⟩ := List.forall_mem_append.mp hroom
    exact ihm hdm htm hrm (ihf hdf htf hrf)
  | last =>
    intro _ _ _ left h
    exact h
  | link sign next more ihn ihm =>
    intro hd hts hroom left h
    obtain ⟨hdn, hdm⟩ := Phrase.accepted_link.mp hd
    obtain ⟨htn, htm⟩ := List.forall_mem_append.mp hts
    obtain ⟨hrn, hrm⟩ := List.forall_mem_append.mp hroom
    exact ihm hdm htm hrm
      ⟨h, ihn hdn (List.forall_mem_cons.mp htn).2 (List.forall_mem_cons.mp hrn).2⟩

theorem Phrase.fits_tree {depth : Nat} {c : Category} {d : Phrase (.whole c)}
    (hd : d.Accepted limits depth) (hts : ∀ t ∈ d.tokens, t.Scanned)
    (hdice : limits.maxDice ≤ limits'.maxDice) (hsides : limits.maxSides ≤ limits'.maxSides)
    (hone : 1 ≤ limits'.maxDice) (hroom : limits'.HaveRoom d.tokens) :
    (d.tree limits').Fits limits' :=
  fits_meaning hdice hsides hone d hd hts hroom

/-! ## Nesting -/

namespace Expr

theorem nesting_withSpan (s : Span) (e : Expr) : (e.withSpan s).nesting = e.nesting := by
  cases e <;> rfl

theorem one_le_precedence (e : Expr) : 1 ≤ e.precedence := by
  cases e with
  | constant | dice | negate => exact (by decide : 1 ≤ 3)
  | binary op l r s =>
    show 1 ≤ op.precedence
    cases op <;> decide

theorem nestingAs_of_le {p : Nat} {e : Expr} (h : p ≤ e.precedence) : e.nestingAs p = e.nesting :=
  if_neg (Nat.not_lt.mpr h)

theorem nestingAs_le (p : Nat) (e : Expr) : e.nestingAs p ≤ e.nesting + 1 := by
  rw [nestingAs]
  split <;> omega

theorem nestingAs_mono {p q : Nat} (h : p ≤ q) (e : Expr) : e.nestingAs p ≤ e.nestingAs q := by
  rw [nestingAs, nestingAs]
  split <;> split <;> omega

end Expr

theorem Phrase.nesting_meaning : ∀ {p : Part} (d : Phrase p), match p, d with
    | .whole c, d => (d.tree limits).nestingAs (Part.whole c).precedence ≤ d.nesting
    | .tail l, d => ∀ {left : Expr} {n : Nat}, left.nestingAs l.precedence ≤ n →
      (d.onto limits left).nestingAs l.precedence ≤ max n d.nesting := by
  -- a tail keeps what is in front of it an operand of its own level, so no bracket is added there
  intro p d
  induction d with
  | constant | shorthand | dice => exact le_refl 0
  | brackets o inner c ih =>
    have hone : (inner.tree limits).nesting ≤ inner.nesting := by
      rw [← Expr.nestingAs_of_le (Expr.one_le_precedence _)]
      exact ih
    refine (Expr.nestingAs_le _ _).trans ?_
    show (Expr.withSpan _ (inner.tree limits)).nesting + 1 ≤ inner.nesting + 1
    rw [Expr.nesting_withSpan]
    omega
  | negate m e ih => exact Nat.succ_le_succ ih
  | @chain l first more ihf ihm =>
    refine ihm (le_trans (Expr.nestingAs_mono ?_ _) ihf)
    rw [Level.precedence_operand]
    omega
  | last =>
    intro left n h
    exact le_max_of_le_left h
  | @link l sign next more ihn ihm =>
    intro left n h
    have hbinary : ((Expr.binary sign.op left (next.tree limits)
        ⟨left.span.start, (next.tree limits).span.stop⟩).nestingAs l.precedence) ≤
          max n next.nesting := by
      rw [Expr.nestingAs_of_le (by rw [Expr.precedence, sign.binds]), Expr.nesting_binary,
        sign.binds, ← Level.precedence_operand]
      exact max_le_max h ihn
    refine (ihm hbinary).trans ?_
    rw [nesting, max_assoc]

/-- The written form is nested no deeper than the phrase that was read. -/
theorem Phrase.nesting_tree (d : Sentence) : (d.tree limits).nesting ≤ d.nesting := by
  have h : (d.tree limits).nestingAs 1 ≤ d.nesting := d.nesting_meaning
  rwa [Expr.nestingAs_of_le (Expr.one_le_precedence _)] at h

end Dicebox
