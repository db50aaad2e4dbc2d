import Dicebox.Audit
import Dicebox.Proofs.Folds
import Dicebox.Proofs.Notation.Rereading
import Dicebox.Source.Kinds

/-! # Rolls pass their audit

The audit of a roll reads its notation again and folds the recorded terms along the tree that it
finds there. That tree differs from the one that was rolled in places and caps at most, and neither
plays a part in a score, so the audit comes to the total of the roll.

- `Expr.refold_bare`: recorded terms are folded alike along two trees that are written alike.
- `Expr.Folds.refold`, `Expr.roll_ensures`: the terms of a roll fold to its total.
- `reread`: the notation of what was read is read again.
- `rolled_text_passes_audit`: the audit of a roll.
-/

namespace Dicebox

/-! ## Folding recorded terms -/

theorem findSome?_bare {f : Modifier → Option Int} (hf : ∀ m, f m.bare = f m) (ms : List Modifier) :
    (ms.map Modifier.bare).findSome? f = ms.findSome? f := by
  rw [List.findSome?_map]
  exact congrArg (List.findSome? · ms) (funext hf)

theorem score_bare (dice : List Die) (ms : List Modifier) :
    score dice (ms.map Modifier.bare) = score dice ms := by
  have hsuccess : successThreshold? (ms.map Modifier.bare) = successThreshold? ms := by
    apply findSome?_bare
    intro m
    cases m <;> rfl
  have hfailure : failureThreshold? (ms.map Modifier.bare) = failureThreshold? ms := by
    apply findSome?_bare
    intro m
    cases m <;> rfl
  rw [score, score, hsuccess, hfailure]

namespace Expr

/-- Neither places nor caps play a part in an audit. -/
theorem refold_bare (e : Expr) (terms : List TermResult) :
    e.bare.refold terms = e.refold terms := by
  induction e generalizing terms with
  | constant v s => rcases terms with _ | ⟨_ | _, _⟩ <;> rfl
  | dice t s =>
    rcases terms with _ | ⟨_ | r, rest⟩
    · rfl
    · rfl
    · rw [bare, refold, refold, Dice.bare, score_bare]
  | negate e s ih => rw [bare, refold, refold, ih]
  | binary op l r s ihl ihr =>
    rw [bare, refold, refold, ihl]
    simp only [ihr]

theorem refold_negate {e : Expr} {s : Span} {v : Int} {terms rest : List TermResult}
    (h : e.refold terms = .ok (v, rest)) : (negate e s).refold terms = .ok (-v, rest) := by
  rw [refold, h]
  rfl

theorem refold_binary {op : Operator} {l r : Expr} {s : Span} {a b v : Int}
    {terms rest rest' : List TermResult} (hl : l.refold terms = .ok (a, rest))
    (hr : r.refold rest = .ok (b, rest')) (hv : op.value? a b = some v) :
    (binary op l r s).refold terms = .ok (v, rest') := by
  rw [refold, hl]
  show (r.refold rest).bind _ = _
  rw [hr]
  simp only [Except.bind, hv]
  rfl

end Expr

/-! ## Folding what was rolled -/

namespace Expr

/-- What an expression comes to folds to its value, in front of any other terms. -/
theorem Folds.refold {e : Expr} {place : Nat} {vs : List Int} {es : List Event}
    {terms : List TermResult} {v : Int} (h : e.Folds place vs es terms v) :
    ∀ rest, e.refold (terms ++ rest) = .ok (v, rest) := by
  induction h with
  | constant => exact fun rest => if_pos rfl
  | dice hr => exact fun rest => if_pos (Dice.roll_score hr)
  | negate _ ih => exact fun rest => refold_negate (ih rest)
  | @binary _ _ _ _ _ _ _ _ _ left right _ _ _ _ _ hv ihl ihr =>
    intro rest
    rw [List.append_assoc]
    exact refold_binary (ihl (right ++ rest)) (ihr rest) hv

/-- The terms of a roll fold to its total, and it keeps the written form of its expression. -/
theorem roll_ensures (e : Expr) (text : Option String) :
    (e.roll text).Ensures fun r =>
      r.canonical = e.canonical ∧ e.refold r.terms = .ok (r.total, []) := by
  refine .of_yields fun h => ?_
  obtain ⟨hcanonical, _, -, hfolds⟩ := roll_yields h
  exact ⟨hcanonical, by simpa using hfolds.refold []⟩

end Expr

/-! ## Reading the notation again -/

/-- The limits of the audit leave room for every shorthand. -/
theorem haveRoom_auditLimits (canonical : String) (ts : List Token) :
    (auditLimits canonical).HaveRoom ts :=
  fun _ _ _ => ⟨(by decide : (2 : Int) ≤ 2 ^ 63 - 1), (by decide : (20 : Int) ≤ 2 ^ 63 - 1)⟩

/-- What was read is written like an expression that the limits of the audit fit. -/
theorem exists_fits_audit {limits : Limits} {text : String} {e : Expr}
    (hdice : limits.maxDice ≤ 2 ^ 63 - 1) (hsides : limits.maxSides ≤ 2 ^ 63 - 1)
    (h : Expr.parse limits text = .ok e) :
    ∃ again : Expr, again.bare = e.bare ∧ again.Fits (auditLimits e.canonical) ∧
      again.nesting < nestingLimit :=
  exists_fits_of_parse hdice hsides (by decide : (1 : Int) ≤ 2 ^ 63 - 1)
    (fun _ _ => haveRoom_auditLimits _ _) h

/-- The notation of what was read is read again, as an expression that is written alike. -/
theorem reread {limits : Limits} {text : String} {e : Expr} (hdice : limits.maxDice ≤ 2 ^ 63 - 1)
    (hsides : limits.maxSides ≤ 2 ^ 63 - 1) (h : Expr.parse limits text = .ok e) :
    ∃ e', Expr.parse (auditLimits e.canonical) e.canonical = .ok e' ∧ e'.bare = e.bare := by
  obtain ⟨tokens, -, hlen, hread⟩ := canonical_reread hdice hsides
    (by decide : (1 : Int) ≤ 2 ^ 63 - 1) (fun _ _ => haveRoom_auditLimits e.canonical _) h
  have hmax : (tokens.length : Int) ≤ e.canonical.length + 1 := by omega
  exact hread hmax

/-! ## The audit -/

/-- The notation of a roll is read again as a tree that its terms fold to its total along. -/
theorem refold_of_run {σ : Type} [RandomSource σ] {limits : Limits} {text : String} {e : Expr}
    (hdice : limits.maxDice ≤ 2 ^ 63 - 1) (hsides : limits.maxSides ≤ 2 ^ 63 - 1)
    (h : Expr.parse limits text = .ok e) {shown : Option String} {source : σ} {r : Roll}
    (hrun : ((e.roll shown).run source).outcome = .ok r) :
    ∃ e', Expr.parse (auditLimits r.canonical) r.canonical = .ok e' ∧
      e'.refold r.terms = .ok (r.total, []) := by
  obtain ⟨hcanonical, hfold⟩ := Rolling.Ensures.of_run (e.roll_ensures shown) hrun
  obtain ⟨e', hread, hbare⟩ := reread hdice hsides h
  rw [← hcanonical] at hread
  refine ⟨e', hread, ?_⟩
  rw [← Expr.refold_bare, hbare, Expr.refold_bare, hfold]

theorem recompute_of_refold {r : Roll} {e : Expr} {total : Int}
    (hread : Expr.parse (auditLimits r.canonical) r.canonical = .ok e)
    (hfold : e.refold r.terms = .ok (total, [])) : r.recompute = .ok total := by
  rw [Roll.recompute, audit, hread]
  show (e.refold r.terms).bind _ = _
  rw [hfold]
  rfl

/-- **Every rolled text passes its own audit**: its notation is read again under the fixed nesting
limit, its leaves line up with the recorded terms, and the total is that of the roll. -/
theorem rolled_text_passes_audit {σ : Type} [RandomSource σ] {limits : Limits} {text : String}
    {e : Expr} (hdice : limits.maxDice ≤ 2 ^ 63 - 1) (hsides : limits.maxSides ≤ 2 ^ 63 - 1)
    (hparse : Expr.parse limits text = .ok e) {source : σ} {r : Roll}
    (hrun : ((e.roll (some text)).run source).outcome = .ok r) :
    r.recompute = .ok r.total ∧ ∃ e', Expr.parse (auditLimits r.canonical) r.canonical = .ok e' ∧
      e'.refold r.terms = .ok (r.total, []) := by
  obtain ⟨e', hread, hfold⟩ := refold_of_run hdice hsides hparse hrun
  exact ⟨recompute_of_refold hread hfold, e', hread, hfold⟩

theorem run_pool : ∃ r, (((Expr.dice ⟨2, 6, []⟩ ⟨0, 3⟩).roll (some "2d6")).run
    (Replay.ofList [.int 5, .int 2])).outcome = .ok r ∧ r.total = 7 := ⟨_, rfl, rfl⟩

theorem replayed_pool_passes_audit :
    ∃ e r, Expr.parse {} "2d6" = .ok e ∧
      ((e.roll (some "2d6")).run (Replay.ofList [.int 5, .int 2])).outcome = .ok r ∧
        r.total = 7 ∧ r.recompute = .ok 7 := by
  obtain ⟨r, hrun, htotal⟩ := run_pool
  obtain ⟨haudit, _⟩ := rolled_text_passes_audit (by decide) (by decide) parse_pool hrun
  rw [htotal] at haudit
  exact ⟨_, r, parse_pool, hrun, htotal, haudit⟩

end Dicebox
