import Dicebox.Proofs.Breakdown
import Dicebox.Proofs.Stored

/-! # Terms that line up with their notation

The dice of a rolled term are those that the notation asks for: as many dice thrown at first, all of
one size, whatever the modifiers did to them, and the extra dice of an explosion told apart. So the
terms of a roll line up with the leaves of its notation, also when that is read again. An audit does
not ask for so much: it scores the dice of a term and looks neither at their number nor at their
size, and a term with foreign dice passes.

- `DiceResult.ThrownFor`, `TermResult.LinesUp`: a recorded term has the dice that a leaf asks for.
- `Modifier.Does.countP_own`: no modifier changes the number of dice that were thrown at first.
- `rolled_terms_line_up`: an evaluated text.
- `foreign_die_passes_audit`: a term that does not line up.
-/

namespace Dicebox

variable {ws : List Int} {es : List Event}

/-! ## Dice that were thrown at first -/

/-- A die that was not set off by another one. -/
abbrev Die.Own (d : Die) : Prop := d.fromExplosion = false

theorem EachDie.countP_eq {R : Die → List Int → List Event → List Die → Prop} {p : Die → Bool}
    (hR : ∀ {d ws es new}, R d ws es new → new.countP p = [d].countP p) {dice dice' : List Die}
    (h : EachDie R dice ws es dice') : dice'.countP p = dice.countP p := by
  induction h with
  | nil => rfl
  | @cons d dice new rest _ _ _ _ hd _ ih =>
    rw [List.countP_append, hR hd, ih, ← List.countP_append, List.singleton_append]

theorem Explosion.Chain.countP_own {threshold cap : Int} {left : Nat} {d : Die} {new : List Die}
    (h : Chain threshold cap left d ws es new) :
    new.countP (fun d => d.Own) = [d].countP (fun d => d.Own) := by
  induction h with
  | rests => rfl
  | capped => simp [List.countP_cons]
  | goesOn _ _ _ ih =>
    rw [List.countP_cons, ih]
    simp [List.countP_cons, extra]

/-- **No modifier changes the number of dice that were thrown at first.** -/
theorem Modifier.Does.countP_own {m : Modifier} {dice dice' : List Die}
    (h : m.Does dice ws es dice') :
    dice'.countP (fun d => d.Own) = dice.countP (fun d => d.Own) := by
  cases m with
  | reroll =>
    refine EachDie.countP_eq ?_ h
    rintro d ws es _ ⟨d', rfl, hthrown⟩
    cases hthrown <;> rfl
  | explode =>
    refine EachDie.countP_eq (fun hexplodes => ?_) h
    cases hexplodes with
    | stays => rfl
    | chain _ _ hchain => exact hchain.countP_own
  | select rule count =>
    obtain ⟨-, -, rfl⟩ := h
    have hmap := map_selectAll Die.fromExplosion (fun _ => rfl) rule count dice
    have hcount := congrArg (List.countP (fun b => b = false)) hmap
    rwa [List.countP_map, List.countP_map] at hcount
  | success | failure => rw [h.2.2]

/-! ## Terms and leaves -/

/-- The dice of a recorded term are those that a dice term asks for. -/
structure DiceResult.ThrownFor (t : Dice) (r : DiceResult) : Prop where
  count : r.count = t.count
  sides : r.sides = t.sides
  size : ∀ d ∈ r.dice, d.sides = t.sides
  own : (r.dice.countP (fun d => d.Own) : Int) = t.count

/-- A recorded term has what a leaf asks for: its constant, or its dice. -/
inductive TermResult.LinesUp : TermResult → Int ⊕ Dice → Prop
  | constant (v : Int) : LinesUp (.constant v) (.inl v)
  | dice {t : Dice} {r : DiceResult} (h : r.ThrownFor t) : LinesUp (.dice r) (.inr t)

theorem Dice.roll_thrownFor {t : Dice} {term : Int} (hcount : 1 ≤ t.count) {vs : List Int}
    {r : DiceResult} (h : (t.roll term).Yields vs es r) : r.ThrownFor t := by
  have hsound := roll_sound h
  obtain ⟨faces, ws, dice, rfl, hlen, -, hall, rfl⟩ := roll_yields h
  have hfresh : (faces.map (Die.fresh t.sides term)).countP (fun d => d.Own) = faces.length := by
    rw [List.countP_map, List.countP_eq_length]
    exact fun _ _ => rfl
  have hown : dice.countP (fun d => d.Own) = faces.length :=
    hall.invariant (I := fun dice => dice.countP (fun d => d.Own) = faces.length)
      (fun _ hdoes hdice => hdoes.countP_own.trans hdice) hfresh
  refine ⟨rfl, rfl, fun d hd => (hsound d hd).sides_eq, ?_⟩
  rw [hown, hlen]
  omega

theorem Expr.Folds.linesUp {e : Expr} {place : Nat} {vs : List Int} {terms : List TermResult}
    {v : Int} (h : e.Folds place vs es terms v) (he : e.Throwable) :
    List.Forall₂ TermResult.LinesUp terms e.leaves := by
  induction h with
  | constant => exact .cons (.constant _) .nil
  | dice hr => exact .cons (.dice (Dice.roll_thrownFor he.1 hr)) .nil
  | negate _ ih => exact ih he
  | binary _ _ _ ihl ihr => exact List.rel_append (ihl he.1) (ihr he.2)

theorem TermResult.linesUp_bare {t : TermResult} {leaf : Int ⊕ Dice} :
    t.LinesUp (leaf.map id Dice.bare) ↔ t.LinesUp leaf := by
  cases leaf with
  | inl v => rfl
  | inr d =>
    constructor
    · rintro ⟨⟩
      next h => exact .dice ⟨h.count, h.sides, h.size, h.own⟩
    · rintro ⟨⟩
      next h => exact .dice ⟨h.count, h.sides, h.size, h.own⟩

theorem Expr.linesUp_bare {e : Expr} {terms : List TermResult} :
    List.Forall₂ TermResult.LinesUp terms e.bare.leaves ↔
      List.Forall₂ TermResult.LinesUp terms e.leaves := by
  rw [leaves_bare, List.forall₂_map_right_iff]
  simp only [TermResult.linesUp_bare]

theorem Expr.roll_ensures_linesUp {e : Expr} (he : e.Throwable) (text : Option String) :
    (e.roll text).Ensures fun r =>
      r.canonical = e.canonical ∧ List.Forall₂ TermResult.LinesUp r.terms e.leaves :=
  .of_yields fun h => by
    obtain ⟨hcanonical, _, -, hfolds⟩ := roll_yields h
    exact ⟨hcanonical, hfolds.linesUp he⟩

/-! ## Rolls -/

/-- **The terms of a roll line up with its notation**, read as an audit reads it: every dice term has
the count and the sides that are written, all of its dice have these sides, and so many of them were
not set off by others. -/
theorem rolled_terms_line_up {σ : Type} [RandomSource σ] {limits : Limits} {text : String}
    {e : Expr} (hdice : limits.maxDice ≤ 2 ^ 63 - 1) (hsides : limits.maxSides ≤ 2 ^ 63 - 1)
    (hparse : Expr.parse limits text = .ok e) {source : σ} {r : Roll}
    (hrun : ((e.roll (some text)).run source).outcome = .ok r) :
    ∃ e', Expr.parse (auditLimits r.canonical) r.canonical = .ok e' ∧
      List.Forall₂ TermResult.LinesUp r.terms e'.leaves := by
  have hthrowable := throwable_of_parse hdice hsides hparse
  obtain ⟨hcanonical, hlines⟩ :=
    Rolling.Ensures.of_run (Expr.roll_ensures_linesUp hthrowable (some text)) hrun
  obtain ⟨e', hread, hbare⟩ := reread hdice hsides hparse
  rw [← hcanonical] at hread
  exact ⟨e', hread, by rwa [← Expr.linesUp_bare, hbare, Expr.linesUp_bare]⟩

/-- Two dice that show 5 and 2 line up with their notation. -/
theorem pool_lines_up :
    ∃ e r e', Expr.parse {} "2d6" = .ok e ∧
      ((e.roll (some "2d6")).run (Replay.ofList [.int 5, .int 2])).outcome = .ok r ∧ r.total = 7 ∧
        Expr.parse (auditLimits r.canonical) r.canonical = .ok e' ∧
          List.Forall₂ TermResult.LinesUp r.terms e'.leaves := by
  obtain ⟨r, hrun, htotal⟩ := run_pool
  obtain ⟨e', hread, hlines⟩ := rolled_terms_line_up (by decide) (by decide) parse_pool hrun
  exact ⟨_, r, e', parse_pool, hrun, htotal, hread, hlines⟩

/-! ## A foreign die -/

/-- A die of twenty sides in the place of one of six. -/
def foreignDie : Roll :=
  ⟨"1d6", "1d6", 15,
    [.dice ⟨"1d6", 1, 20, [{ value := 15, sides := 20, term := 0 }], 15, .sum⟩]⟩

theorem scan_oneDie : Token.scan "1d6" = .ok
    [⟨.integer, ['1'], 0⟩, ⟨.die, ['d'], 1⟩, ⟨.integer, ['6'], 2⟩, Token.ending 3] :=
  Token.scan_dice ['1'] ['6'] (by simp) (by simp)

theorem parse_oneDie : Expr.parse (auditLimits "1d6") "1d6" = .ok (.dice ⟨1, 6, []⟩ ⟨0, 3⟩) := by
  rw [Expr.parse, scan_oneDie]
  rfl

/-- A die of twenty sides passes the audit of `1d6`, and is read back from storage. -/
theorem foreign_die_passes_audit :
    ∃ e, Expr.parse (auditLimits foreignDie.canonical) foreignDie.canonical = .ok e ∧
      foreignDie.recompute = .ok 15 ∧ ¬ List.Forall₂ TermResult.LinesUp foreignDie.terms e.leaves ∧
        ∃ stamp : Stamp, Entry.load .lenient (Entry.toData ⟨stamp, foreignDie⟩) =
          .good ⟨stamp, foreignDie⟩ := by
  have haudit : foreignDie.recompute = .ok 15 := recompute_of_refold parse_oneDie rfl
  have hproper : ∀ t ∈ foreignDie.terms, t.Proper := by
    refine List.forall_mem_singleton.mpr ⟨0, le_refl 0, by decide, by decide, ?_⟩
    exact List.forall_mem_singleton.mpr ⟨rfl, rfl, by decide, by decide⟩
  refine ⟨_, parse_oneDie, haudit, fun hlines => ?_,
    ⟨"a", ⟨2024, 2, 29, 23, 59, 59, 120000, some 0⟩⟩,
    Entry.load_of_proper ValueReader.lenient_lawful hproper haudit (by decide) (by decide) rfl⟩
  obtain ⟨hline, -⟩ := List.forall₂_cons.mp hlines
  cases hline with
  | dice h => exact absurd h.sides (by decide)

end Dicebox
