import Dicebox.Proofs.Checks
import Dicebox.Proofs.Notation.Limits
import Dicebox.Proofs.Supply

/-! # Why a valid expression fails to roll

An expression that a check finds valid fails to roll for a zero divisor, or because of the source:
a replay comes to its end, or hands out something else than a face. All of these are complaints
about the expression. There are two ways to fail with something else. A sampler refuses a die with
more sides than there are words, which only a limit above that number lets through; and a replay may
hand out a value with too many digits for the complaint about it. However a roll fails, nothing is
recorded.

- `Rolling.Supplied.error_run`: a sampler with words for every draw.
- `Rolling.Confined.error_run_replay`: a replay.
- `failed_roll_complains_about_its_expression`: a roll of an engine.
-/

namespace Dicebox

open Rolling Session

/-! ## Samplers -/

/-- A source that reduces words. -/
def Source.Sampling : Source → Prop
  | seeded _ | secure _ | listed _ => True
  | wordless | replay _ | constant _ => False

theorem Source.Accepts.sampling {limit : Nat} {source source' : Source} {x : UInt32}
    (h : source.Accepts limit x source') : source'.Sampling := by
  cases h <;> trivial

/-- A sampler refuses a die with more sides than there are words, and stays as it was. -/
theorem Source.Sampling.next_of_wide {source : Source} (hsource : source.Sampling) {sides : Int}
    (h : wordRange < sides) :
    RandomSource.next source 1 sides = (.error (.rangeTooWide 1 sides), source) := by
  have hrange : 1 ≤ sides := by omega
  have hspan : wordRange < sides - 1 + 1 := by omega
  cases source with
  | seeded state =>
    have hnext : state.next 1 sides = (.error (.rangeTooWide 1 sides), state) := by
      rw [Seeded.next, sample_of_wide _ hrange hspan]
    exact congrArg (sampled seeded) hnext
  | secure words => exact congrArg (sampled secure) (sample_of_wide words hrange hspan)
  | listed words => exact congrArg (sampled listed) (sample_of_wide words hrange hspan)
  | wordless | replay _ | constant _ => exact hsource.elim

variable {α : Type} {D : Int → Prop} {E : RollError → Prop} {P : α → Prop} {r : Rolling α}
  {err : RollError}

/-- **A sampler that supplies a roll refuses only dice that are too wide.** -/
theorem Rolling.Supplied.error_run {source : Source} (h : r.Supplied source)
    (hsource : source.Sampling) (hr : r.Confined D E P) (hD : ∀ sides, D sides → 1 ≤ sides)
    (herr : (r.run source).outcome = .error err) :
    E err ∨ ∃ sides, D sides ∧ wordRange < sides ∧ err = .source (.rangeTooWide 1 sides) sides := by
  induction r generalizing source with
  | done a => cases herr
  | fail e =>
    obtain rfl := Except.error.inj herr
    exact .inl hr
  | draw sides next ih =>
    obtain ⟨hsides, hnext⟩ := hr
    by_cases hwide : wordRange < sides
    · rw [run, hsource.next_of_wide hwide] at herr
      obtain rfl := Except.error.inj herr
      exact .inr ⟨sides, hsides, hwide, rfl⟩
    · have hsamplable : Samplable sides := ⟨hD sides hsides, not_lt.mp hwide⟩
      obtain ⟨x, source', hword, hrest⟩ := h hsamplable
      obtain ⟨hask, hface⟩ := hword.next_die hsamplable
      rw [run_of_next hask hface] at herr
      exact ih _ hrest hword.sampling (hnext _) herr
  | note event rest ih => exact ih h hsource hr.2 herr

/-! ## Replays -/

/-- **A replay ends, or hands out one of its values**, where the roll itself does not fail. -/
theorem Rolling.Confined.error_run_replay {state : Replay} (hr : r.Confined D E P)
    (herr : (r.run (Source.replay state)).outcome = .error err) :
    E err ∨ ∃ sides, D sides ∧ ((∃ handed, err = .source (.valuesRanOut handed) sides) ∨
      ∃ v ∈ state.rest, err = .outOfContract v sides) := by
  induction r generalizing state with
  | done a => cases herr
  | fail e =>
    obtain rfl := Except.error.inj herr
    exact .inl hr
  | draw sides next ih =>
    obtain ⟨hsides, hnext⟩ := hr
    obtain ⟨rest, handed⟩ := state
    cases rest with
    | nil =>
      obtain rfl := Except.error.inj herr
      exact .inr ⟨sides, hsides, .inl ⟨handed, rfl⟩⟩
    | cons v rest =>
      have hask : RandomSource.next (Source.replay ⟨v :: rest, handed⟩) 1 sides =
          (.ok v, .replay ⟨rest, handed + 1⟩) := rfl
      rw [run, hask] at herr
      dsimp only at herr
      split at herr
      · rcases ih _ (hnext _) herr with hown | ⟨sides, hsides, hend | ⟨u, hu, hvalue⟩⟩
        · exact .inl hown
        · exact .inr ⟨sides, hsides, .inl hend⟩
        · exact .inr ⟨sides, hsides, .inr ⟨u, List.mem_cons_of_mem _ hu, hvalue⟩⟩
      · obtain rfl := Except.error.inj herr
        exact .inr ⟨sides, hsides, .inr ⟨v, List.mem_cons_self, rfl⟩⟩
  | note event rest ih => exact ih hr.2 herr

/-! ## Rolls of an engine -/

/-- A source has what a roll takes: a sampler has an accepted word for each draw, and a replay may
have anything. -/
def Source.Provides (source : Source) (r : Rolling α) : Prop :=
  (source.Sampling ∧ r.Supplied source) ∨ ∃ state, source = .replay state

/-- A failure is a complaint about the expression. -/
def EngineError.AboutExpression (err : EngineError) : Prop :=
  ∃ message p, Console.complaint? err = some (.expression message p)

/-- A failure that is no complaint about the expression: a sampler is asked for a die with more sides
than there are words, or a replay hands out a value with too many digits to be shown. -/
def RollError.OffTopic (maxSides : Int) (source : Source) : RollError → Prop
  | .source (.rangeTooWide low high) sides =>
    source.Sampling ∧ low = 1 ∧ high = sides ∧ wordRange < sides ∧ sides ≤ maxSides
  | .outOfContract v _ => v.showable = false ∧ ∃ state, source = .replay state ∧ v ∈ state.rest
  | _ => False

theorem run_error_about_expression {limits : Limits} {text : String} {e : Expr} {source : Source}
    (hread : Expr.parse limits text = .ok e) {shown : Option String}
    (hsource : source.Provides (e.roll shown))
    (herr : ((e.roll shown).run source).outcome = .error err) :
    EngineError.AboutExpression (.roll err) ∨ err.OffTopic limits.maxSides source := by
  have hconfined := e.roll_confined (D := fun sides => ∃ t, .inr t ∈ e.leaves ∧ t.sides = sides)
    (fun t ht => ⟨t, ht, rfl⟩) shown
  have hown : ¬ err.OfSource → EngineError.AboutExpression (.roll err) := by
    intro h
    cases err with
    | divisionByZero span divisor => exact ⟨_, _, rfl⟩
    | outOfContract | source => exact absurd trivial h
  rcases hsource with ⟨hsampling, hsupplied⟩ | ⟨state, rfl⟩
  · have hpositive : ∀ sides, (∃ t, .inr t ∈ e.leaves ∧ t.sides = sides) → 1 ≤ sides := by
      rintro _ ⟨t, ht, rfl⟩
      exact (sides_of_parse hread t ht).1
    rcases hsupplied.error_run hsampling hconfined hpositive herr with
      h | ⟨_, ⟨t, ht, rfl⟩, hwide, rfl⟩
    · exact .inl (hown h)
    · refine .inr ⟨hsampling, rfl, rfl, hwide, ?_⟩
      rcases (sides_of_parse hread t ht).2 with hle | htwenty
      · exact hle
      · rw [htwenty] at hwide
        exact absurd hwide (by decide)
  · rcases hconfined.error_run_replay herr with h | ⟨_, ⟨t, ht, rfl⟩, ⟨handed, rfl⟩ | ⟨v, hv, rfl⟩⟩
    · exact .inl (hown h)
    · exact .inl ⟨_, _, rfl⟩
    · have hsides := showable_sides_of_parse hread t ht
      cases hshow : v.showable with
      | true =>
        have hboth : (RollError.outOfContract v t.sides).showable = true := by
          rw [RollError.showable, hshow, hsides]
          rfl
        exact .inl ⟨_, none, congrArg some (if_pos hboth)⟩
      | false => exact .inr ⟨hshow, state, rfl, hv⟩

/-- **A valid expression rolls, or fails with a complaint about it.** The roll is recorded if it has
a result, and nothing is recorded if it has none. Only a die with more sides than there are words, or
a replay of a value with too many digits, makes the roll fail with something else. -/
theorem valid_expression_rolls_or_is_complained_about {g : Engine Source} {text : String} {c : Check}
    (hcheck : (check text g).result = .ok c) (hvalid : c.verdict.isOk = true)
    (hsource : ∀ e, Expr.parse g.settings.limits text = .ok e →
      g.source.Provides (e.roll (some text))) :
    let out := roll text g
    (∃ entry, out.result = .ok entry ∧ out.engine.history = g.history.record entry) ∨
      ∃ err, out.result = .error (.roll err) ∧ out.engine.history = g.history ∧
        (EngineError.AboutExpression (.roll err) ∨ err.OffTopic g.settings.maxSides g.source) := by
  obtain ⟨e, hread⟩ := exists_read_of_check hcheck hvalid
  cases hrun : ((e.roll (some text)).run g.source).outcome with
  | ok r =>
    obtain ⟨hresult, hkeeps, -⟩ := roll_keeps_of_ok hread hrun
    exact .inl ⟨_, hresult, hkeeps.history⟩
  | error err =>
    obtain ⟨hresult, hkeeps, -⟩ := roll_keeps_of_error hread hrun
    exact .inr ⟨err, hresult, hkeeps.history,
      run_error_about_expression hread (hsource e hread) hrun⟩

/-- The desk with other settings and a source of the kinds there are. -/
def table (settings : Settings) (source : Source) : Engine Source where
  settings := settings
  source := source
  history := (desk "a" 2024).history
  stamps := (desk "a" 2024).stamps

/-- A replay that hands out a 7 for a die with six sides. -/
theorem seven_on_a_die_is_complained_about :
    let g := table {} (.replay (Replay.ofList [.int 7]))
    (check "d6" g).result = .ok ⟨"d6", .ok "1d6"⟩ ∧
      ∃ err, (roll "d6" g).result = .error (.roll err) ∧
        (roll "d6" g).engine.history = g.history ∧ EngineError.AboutExpression (.roll err) := by
  intro g
  have hread : Expr.parse g.settings.limits "d6" = .ok (.dice ⟨1, 6, []⟩ ⟨0, 2⟩) := by
    rw [Expr.parse, scan_die]
    rfl
  have hcheck : (check "d6" g).result = .ok ⟨"d6", .ok "1d6"⟩ := by
    rw [result_check_of_ok hread]
    rfl
  have hfails : (roll "d6" g).result = .error (.roll (.outOfContract (.int 7) 6)) := by
    rw [roll_eq_evaluate hread]
    rfl
  refine ⟨hcheck, ?_⟩
  rcases valid_expression_rolls_or_is_complained_about hcheck rfl fun _ _ => .inr ⟨_, rfl⟩ with
    ⟨entry, hok, -⟩ | ⟨err, herr, hhistory, habout | hoff⟩
  · rw [hfails] at hok
    cases hok
  · exact ⟨err, herr, hhistory, habout⟩
  · rw [hfails] at herr
    obtain rfl := EngineError.roll.inj (Except.error.inj herr)
    exact absurd hoff.1 (by decide)

theorem scan_wideDie : Token.scan "1d4294967297" = .ok
    [⟨.integer, ['1'], 0⟩, ⟨.die, ['d'], 1⟩,
      ⟨.integer, ['4', '2', '9', '4', '9', '6', '7', '2', '9', '7'], 2⟩, Token.ending 12] :=
  Token.scan_dice ['1'] ['4', '2', '9', '4', '9', '6', '7', '2', '9', '7'] (by simp) (by simp)

/-- With a limit above the number of words, a valid expression fails with something else. -/
theorem wide_die_is_not_complained_about :
    ¬ ∀ (given : Data) (settings : Settings) (words : Entropy) (text : String) (c : Check),
      Settings.ofData .lenient given = .good settings →
        let g := table settings (Source.forSeed settings.seed words)
        (check text g).result = .ok c → c.verdict.isOk = true →
          (∀ e, Expr.parse g.settings.limits text = .ok e →
            g.source.Provides (e.roll (some text))) →
            ∀ err, (roll text g).result = .error err → err.AboutExpression := by
  intro h
  let settings : Settings := { maxSides := 8589934592, seed := some 1 }
  let g := table settings (Source.forSeed settings.seed ⟨[]⟩)
  have hgood : Settings.ofData .lenient (.record [("max_sides", .int 8589934592), ("seed", .int 1)]) =
      .good settings := rfl
  have hread : Expr.parse g.settings.limits "1d4294967297" =
      .ok (.dice ⟨1, 4294967297, []⟩ ⟨0, 12⟩) := by
    rw [Expr.parse, scan_wideDie]
    rfl
  have hcheck : (check "1d4294967297" g).result = .ok ⟨"1d4294967297", .ok "1d4294967297"⟩ := by
    rw [result_check_of_ok hread]
    rfl
  have hprovides : ∀ e, Expr.parse g.settings.limits "1d4294967297" = .ok e →
      g.source.Provides (e.roll (some "1d4294967297")) := by
    intro e he
    rw [hread] at he
    obtain rfl := Except.ok.inj he
    exact .inl ⟨trivial, fun hsides => absurd hsides.2 (by decide)⟩
  have hfails : (roll "1d4294967297" g).result =
      .error (.roll (.source (.rangeTooWide 1 4294967297) 4294967297)) := by
    rw [roll_eq_evaluate hread]
    rfl
  obtain ⟨message, p, habout⟩ := h _ _ _ _ _ hgood hcheck rfl hprovides _ hfails
  cases habout

end Dicebox
