import Dicebox.Expr.Roll
import Dicebox.Proofs.Yields
import Dicebox.Source.Kinds

/-! # What was drawn replays the roll

A roll that has a value, or that fails of itself, has been handed nothing but faces of its dice. A
replay of these faces is asked for the same dice in the same order, so it answers alike until the
roll is over and keeps what it holds beyond that. A replay that holds less runs dry at the first die
it has no face for.

- `Rolling.Ends.replay`, `Rolling.Ends.runs_dry`: replays that hold enough, and that do not.
- `draws_replay_the_roll`: a whole expression.
-/

namespace Dicebox

namespace Rolling

variable {α : Type}

/-! ## Replays -/

theorem next_replay (v : Data) (rest : List Data) (handed : Nat) (low high : Int) :
    RandomSource.next (Replay.mk (v :: rest) handed) low high = (.ok v, ⟨rest, handed + 1⟩) := rfl

theorem run_draw_empty (sides : Int) (next : Int → Rolling α) (handed : Nat) :
    (draw sides next).run (Replay.mk [] handed) =
      ⟨.error (.source (.valuesRanOut handed) sides), ⟨[], handed⟩, []⟩ := rfl

namespace Ends

variable {r : Rolling α} {vs : List Int} {es : List Event} {o : Except RollError α}

/-- A replay of the faces ends the roll in the same way, and keeps what else it holds. -/
theorem replay (h : r.Ends vs es o) (rest : List Data) (handed : Nat) :
    r.run (Replay.mk (vs.map Data.int ++ rest) handed) = ⟨o, ⟨rest, handed + vs.length⟩, es⟩ := by
  induction h generalizing handed with
  | done a => rfl
  | fail e => rfl
  | @draw sides face next vs es o hface _ ih =>
    rw [List.map_cons, List.cons_append, run_of_next (next_replay _ _ _ _ _) hface, ih,
      List.length_cons, Nat.add_assoc, Nat.add_comm 1]
  | @note event rest' vs es o _ ih =>
    rw [run, ih]

/-- A replay of the faces hands out all of them and nothing else. -/
theorem handed_replay (h : r.Ends vs es o) (handed : Nat) (past : List Data) :
    (r.run (Recording.mk (Replay.mk (vs.map Data.int) handed) past)).source.handed =
      (vs.map Data.int).reverse ++ past := by
  induction h generalizing handed past with
  | done a => rfl
  | fail e => rfl
  | @draw sides face next vs es o hface _ ih =>
    have hnext : RandomSource.next (Recording.mk (Replay.mk ((face :: vs).map Data.int) handed) past)
        1 sides = (.ok (.int face), ⟨⟨vs.map Data.int, handed + 1⟩, .int face :: past⟩) := rfl
    rw [run_of_next hnext hface, ih, List.map_cons, List.reverse_cons, List.append_assoc,
      List.singleton_append]
  | note _ ih => exact ih handed past

/-- A replay of some of the faces ends when it has no more of them. -/
theorem runs_dry (h : r.Ends vs es o) {us : List Data} (hus : us <+: vs.map Data.int)
    (hne : us ≠ vs.map Data.int) (handed : Nat) :
    ∃ sides, (r.run (Replay.mk us handed)).outcome =
        .error (.source (.valuesRanOut (handed + us.length)) sides) ∧
      (r.run (Replay.mk us handed)).source = ⟨[], handed + us.length⟩ := by
  induction h generalizing us handed with
  | done a => exact absurd (List.prefix_nil.mp hus) hne
  | fail e => exact absurd (List.prefix_nil.mp hus) hne
  | @draw sides face next vs es o hface _ ih =>
    cases us with
    | nil => exact ⟨sides, by rw [run_draw_empty]; rfl, by rw [run_draw_empty]; rfl⟩
    | cons u us =>
      rw [List.map_cons] at hus hne
      obtain ⟨rfl, hprefix⟩ := List.cons_prefix_cons.mp hus
      have hshort : us ≠ vs.map Data.int := by
        intro heq
        exact hne (congrArg _ heq)
      obtain ⟨sides', hout, hsource⟩ := ih hprefix hshort (handed + 1)
      have hlength : handed + (Data.int face :: us).length = handed + 1 + us.length := by
        rw [List.length_cons]
        omega
      rw [run_of_next (next_replay _ _ _ _ _) hface, hlength]
      exact ⟨sides', hout, hsource⟩
  | note _ ih => exact ih hus hne handed

end Ends

/-- Each way for a roll to come out is its run against some source. -/
theorem Yields.run_replay {r : Rolling α} {vs : List Int} {es : List Event} {a : α}
    (h : r.Yields vs es a) :
    (r.run (Replay.ofList (vs.map Data.int))).outcome = .ok a ∧
      r.drawn (Replay.ofList (vs.map Data.int)) = vs.map Data.int := by
  have hrun := h.ends.replay [] 0
  have hdrawn := h.ends.handed_replay 0 []
  rw [List.append_nil] at hrun hdrawn
  refine ⟨?_, ?_⟩
  · rw [Replay.ofList, hrun]
  · rw [drawn, Replay.ofList, hdrawn, List.reverse_reverse]

end Rolling

/-! ## Expressions -/

/-- **What was drawn replays the roll.** Where an expression has a result or divides by zero, a
replay of the values that its source handed out, with any others behind them, ends it in the same way
with the same events and keeps those others; and a replay of fewer of them runs out of values when it
has handed out all it holds. -/
theorem draws_replay_the_roll {σ : Type} [RandomSource σ] (e : Expr) (text : Option String)
    (source : σ)
    (hend : (∃ r, ((e.roll text).run source).outcome = .ok r) ∨
      ∃ span divisor, ((e.roll text).run source).outcome = .error (.divisionByZero span divisor)) :
    (∀ ws : List Data,
      let again := (e.roll text).run (Replay.ofList ((e.roll text).drawn source ++ ws))
      again.outcome = ((e.roll text).run source).outcome ∧
        again.events = ((e.roll text).run source).events ∧ again.source.rest = ws) ∧
    ∀ us : List Data, us <+: (e.roll text).drawn source → us ≠ (e.roll text).drawn source →
      let short := (e.roll text).run (Replay.ofList us)
      (∃ sides, short.outcome = .error (.source (.valuesRanOut us.length) sides)) ∧
        short.source = ⟨[], us.length⟩ := by
  have hown : ((e.roll text).run source).OfItself := by
    rcases hend with ⟨r, hr⟩ | ⟨span, divisor, hzero⟩
    · exact Run.ofItself_of_ok hr
    · intro err herr
      rw [hzero] at herr
      obtain rfl := Except.error.inj herr
      exact id
  obtain ⟨vs, hdrawn, hends⟩ := Rolling.ends_drawn hown
  rw [hdrawn]
  refine ⟨fun ws => ?_, fun us hus hne => ?_⟩
  · have hrun := hends.replay ws 0
    dsimp only [Replay.ofList]
    rw [hrun]
    exact ⟨rfl, rfl, rfl⟩
  · obtain ⟨sides, hout, hsource⟩ := hends.runs_dry hus hne 0
    rw [Nat.zero_add] at hout hsource
    exact ⟨⟨sides, hout⟩, hsource⟩

/-- Two dice that explode, divided by what a third one shows above 3. -/
def quotientOfDice : Expr :=
  .binary .div (.dice ⟨2, 6, [.explode 6 100]⟩ ⟨0, 4⟩)
    (.binary .sub (.dice ⟨1, 6, []⟩ ⟨8, 11⟩) (.constant 3 ⟨14, 15⟩) ⟨8, 15⟩) ⟨0, 15⟩

/-- The words make a 6, a 2 and the 4 that the 6 sets off, and then a 5 or a 3 to divide by. -/
theorem quotient_of_dice_is_replayed :
    (∃ r, ((quotientOfDice.roll none).run (Source.listed ⟨[5, 1, 3, 4], 0⟩)).outcome = .ok r ∧
      r.total = 6 ∧ ((quotientOfDice.roll none).run
        (Replay.ofList [.int 6, .int 2, .int 4, .int 5, .null])).outcome = .ok r) ∧
    ((quotientOfDice.roll none).run (Source.listed ⟨[5, 1, 3, 2], 0⟩)).outcome =
        .error (.divisionByZero ⟨8, 15⟩ "1d6 - 3") ∧
      ((quotientOfDice.roll none).run
        (Replay.ofList [.int 6, .int 2, .int 4, .int 3, .null])).outcome =
          .error (.divisionByZero ⟨8, 15⟩ "1d6 - 3") ∧
      ∃ sides, ((quotientOfDice.roll none).run
        (Replay.ofList [.int 6, .int 2, .int 4])).outcome =
          .error (.source (.valuesRanOut 3) sides) := by
  obtain ⟨r, hr, htotal⟩ : ∃ r, ((quotientOfDice.roll none).run
      (Source.listed ⟨[5, 1, 3, 4], 0⟩)).outcome = .ok r ∧ r.total = 6 := ⟨_, rfl, rfl⟩
  have hzero : ((quotientOfDice.roll none).run (Source.listed ⟨[5, 1, 3, 2], 0⟩)).outcome =
      .error (.divisionByZero ⟨8, 15⟩ "1d6 - 3") := rfl
  obtain ⟨hagain, -⟩ := draws_replay_the_roll quotientOfDice none _ (.inl ⟨r, hr⟩)
  obtain ⟨hagain', hshort⟩ := draws_replay_the_roll quotientOfDice none _ (.inr ⟨_, _, hzero⟩)
  have hdrawn : (quotientOfDice.roll none).drawn (Source.listed ⟨[5, 1, 3, 2], 0⟩) =
      [.int 6, .int 2, .int 4, .int 3] := rfl
  rw [hdrawn] at hshort
  have hprefix : [Data.int 6, .int 2, .int 4] <+: [.int 6, .int 2, .int 4, .int 3] := ⟨[.int 3], rfl⟩
  exact ⟨⟨r, hr, htotal, (hagain [.null]).1.trans hr⟩, hzero, (hagain' [.null]).1.trans hzero,
    (hshort _ hprefix nofun).1⟩

end Dicebox
