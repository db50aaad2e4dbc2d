import Dicebox.Proofs.Checked
import Dicebox.Proofs.Readers
import Dicebox.Proofs.Checks

/-! # Commands that cannot read their expression

Several commands take an expression, and they come to the reader in different ways: a check reports
what it finds, and the others fail. Where the expression cannot be read they all end alike, with one
error line, the pointer below it and status 1, and none of them throws a die. The settings of an
environment were written with few enough digits, so a fault can always be shown with its limits.

- `Settings.showable_of_read`: the limits of an environment.
- `Command.request`, `Command.About`: what a command asks its engine for, and about which expression.
- `Command.TurnsAway`: a command that ends with a refusal.
- `commands_refuse_alike`: all commands.
-/

namespace Dicebox

/-! ## The settings of an environment -/

namespace Settings

variable {reader : SettingsReader} (hreader : reader.Lawful)

include hreader

/-- A bounded integer of an environment can be shown if the usual one can. -/
theorem showable_of_field {environment : List (String × String)} {name : String} {usual low n : Int}
    (husual : Numeral.showable usual = true)
    (h : (allSet reader environment []).readFieldOr name usual (bounded reader.values low) =
      .good n) :
    Numeral.showable n = true := by
  rw [Data.readFieldOr] at h
  split at h
  · obtain ⟨s, rfl⟩ := hreader.exists_text ‹_›
    obtain ⟨m, hm, hlow⟩ := Checked.andThen_eq_good.mp (Checked.under_eq_good.mp h)
    obtain ⟨-, rfl⟩ := atLeast_eq_good.mp hlow
    exact hreader.values.showable_of_text hm
  · obtain rfl := Checked.good.inj h
    exact husual

/-- **The limits of an environment can be shown.** -/
theorem showable_of_read {environment : List (String × String)} {settings : Settings}
    (h : read reader environment [] = .good settings) : settings.limits.Showable := by
  -- the first two of nine fields
  obtain ⟨_, _, h₈, -, rfl⟩ := Checked.seq_eq_good.mp h
  obtain ⟨_, _, h₇, -, rfl⟩ := Checked.seq_eq_good.mp h₈
  obtain ⟨_, _, h₆, -, rfl⟩ := Checked.seq_eq_good.mp h₇
  obtain ⟨_, _, h₅, -, rfl⟩ := Checked.seq_eq_good.mp h₆
  obtain ⟨_, _, h₄, -, rfl⟩ := Checked.seq_eq_good.mp h₅
  obtain ⟨_, _, h₃, -, rfl⟩ := Checked.seq_eq_good.mp h₄
  obtain ⟨_, _, h₂, -, rfl⟩ := Checked.seq_eq_good.mp h₃
  obtain ⟨_, _, h₁, hsides, rfl⟩ := Checked.seq_eq_good.mp h₂
  obtain ⟨_, hdice, rfl⟩ := Checked.map_eq_good.mp h₁
  exact ⟨showable_of_field hreader (by decide) hdice, showable_of_field hreader (by decide) hsides⟩

end Settings

namespace Console

open Session

/-! ## Commands about an expression -/

namespace Command

/-- What a command asks its engine for. -/
def request : Command → Request
  | roll text _ _ => .roll text
  | batch text count _ _ => .batch text count never
  | check text => .check text
  | fairness sides samples _ significance => .fairness sides samples (significance.map .real)
  | analyze text iterations _ => .analyze text iterations

/-- A command is about an expression, and asks for no more rolls of it than a batch may have. -/
def About (settings : Settings) (text : String) : Command → Prop
  | roll e _ _ | check e | analyze e _ _ => e = text
  | batch e count _ _ => e = text ∧ 0 ≤ count ∧ count ≤ settings.maxBatchSize
  | fairness .. => False

/-- A command ends with these items and status 1, and its engine, whatever its source, stays as it
was. -/
structure TurnsAway (s : Surroundings) (settings : Settings) (command : Command)
    (items : List Item) : Prop where
  ending : run s command = .failed items
  engine : ∀ g : Engine Source, g.settings = settings → (command.request.perform g).engine = g

end Command

variable {s : Surroundings} {settings : Settings} {text : String} {err : NotationError} {p : Int}

theorem complaint?_unreadable (hp : err.position? = some p) :
    complaint? (.unreadable err) = some (.expression err.message (some p)) := by
  rw [complaint?, hp]
  rfl

/-- A session that cannot read its expression ends the command with its failure. -/
theorem serve_of_fail {α : Type} {session : Session Source α} {seed : Option Int} {e : EngineError}
    {unset : List (Issue Empty) → Ending} {failed : EngineError → Ending} {done : α → Ending}
    (hsettings : s.settings = .good settings)
    (h : session (engineFor s settings seed) = fail e (engineFor s settings seed)) :
    serve s seed session unset failed done = failed e := by
  rw [serve, hsettings]
  dsimp only
  rw [h]
  rfl

theorem serve_of_answer {α : Type} {session : Session Source α} {seed : Option Int} {a : α}
    {unset : List (Issue Empty) → Ending} {failed : EngineError → Ending} {done : α → Ending}
    (hsettings : s.settings = .good settings)
    (h : (session (engineFor s settings seed)).result = .ok a) :
    serve s seed session unset failed done = done a := by
  rw [serve, hsettings]
  dsimp only
  rw [h]

/-- **A command that cannot read its expression turns it away.** -/
theorem turnsAway_of_unreadable (hsettings : s.settings = .good settings)
    (h : Expr.parse settings.limits text = .error err) (hp : err.position? = some p)
    {command : Command} (habout : command.About settings text) :
    command.TurnsAway s settings (showRefusal text err.message (some p)) := by
  have hunread : settings.Unreadable text := by
    intro e he
    cases h.symm.trans he
  -- but for a check, what is asked for is refused
  have still : ∀ q : Request, q.Refused settings →
      ∀ g : Engine Source, g.settings = settings → (q.perform g).engine = g := by
    rintro q hq g rfl
    obtain ⟨_, hrefuses⟩ := Request.perform_refused hq
    exact congrArg (·.engine) hrefuses
  cases command with
  | roll e seed asData =>
    obtain rfl := habout
    refine ⟨?_, still (.roll e) hunread⟩
    rw [run, serve_of_fail hsettings (roll_eq_fail h), endRoll, complaint?_unreadable hp]
  | batch e count seed asData =>
    obtain ⟨rfl, hcount⟩ := habout
    refine ⟨?_, still (.batch e count never) (.inr hunread)⟩
    have hfails := rollBatch_eq_fail (g := engineFor s settings seed) hcount h never
    rw [run, serve_of_fail hsettings hfails, endSeries,
      complaint?_unreadable hp]
  | check e =>
    obtain rfl := habout
    refine ⟨?_, fun g _ => ?_⟩
    · rw [run, serve_of_answer hsettings (result_check_of_error h hp), endingOfCheck, showCheck]
      dsimp only
      rw [hp]
      rfl
    · exact (engine_silent _ g).trans (engine_check e g)
  | fairness => exact habout.elim
  | analyze e iterations seed =>
    obtain rfl := habout
    refine ⟨?_, still (.analyze e iterations) (.inr hunread)⟩
    have hread : Expr.parse (engineFor s settings seed).settings.limits e = .error err := h
    rw [run, serve_of_fail hsettings (analyze_eq_fail hread iterations), endSeries,
      complaint?_unreadable hp]

theorem status_check_eq_zero (hsettings : s.settings = .good settings) :
    (run s (.check text)).status = 0 ↔ ∃ e, Expr.parse settings.limits text = .ok e := by
  cases h : Expr.parse settings.limits text with
  | ok e =>
    rw [run, serve_of_answer hsettings (result_check_of_ok h)]
    exact ⟨fun _ => ⟨e, rfl⟩, fun _ => rfl⟩
  | error err =>
    have hfails : (run s (.check text)).status = 1 := by
      cases hp : err.position? with
      | some p =>
        rw [run, serve_of_answer hsettings (result_check_of_error h hp)]
        rfl
      | none =>
        rw [run, serve_of_fail hsettings (check_eq_fail h hp)]
        rfl
    simp [hfails]

/-- **Commands refuse alike.** Under the settings of an environment, what cannot be read is refused at
a place of it, and every command that was given it shows the same error line and the same pointer and
nothing else, ends with status 1 and throws no die. A check ends with status 0 exactly if its
expression can be read. -/
theorem commands_refuse_alike (hreader : s.settingsReader.Lawful)
    (hsettings : s.settings = .good settings)
    (text : String) :
    (∀ args, Command.read? s.argumentReader args = some (.check text) →
      ((runLine s args).status = 0 ↔ ∃ e, Expr.parse settings.limits text = .ok e)) ∧
    ∀ err, LegibleText text → Expr.parse settings.limits text = .error err →
      ∃ p, err.position? = some p ∧
        ∀ args command, Command.read? s.argumentReader args = some command → command.About settings text →
          runLine s args = .failed [errorLine err.message, .pointer (pointer text (some p))] ∧
          ∀ g : Engine Source, g.settings = settings → (command.request.perform g).engine = g := by
  refine ⟨fun args hargs => ?_, fun err hlegible h => ?_⟩
  · rw [runLine, hargs]
    exact status_check_eq_zero hsettings
  · have hmax : 0 ≤ settings.limits.maxTokens := by
      show (0 : Int) ≤ 1024
      decide
    obtain ⟨p, hp⟩ := parse_error_placed hmax (Settings.showable_of_read hreader hsettings) hlegible h
    refine ⟨p, hp, fun args command hargs habout => ?_⟩
    obtain ⟨hending, hengine⟩ := turnsAway_of_unreadable hsettings h hp habout
    rw [runLine, hargs]
    exact ⟨hending, hengine⟩

/-- Surroundings with nothing in them but a stamp. -/
def bareRoom : Surroundings where
  environment := []
  entropy := ⟨[]⟩
  stamps _ := ⟨"a", ⟨2024, 1, 1, 0, 0, 0, 0, some 0⟩⟩
  wording _ _ := ""

/-- A die without sides, given to each of the four commands. -/
theorem cut_die_is_refused_alike :
    bareRoom.settings = .good {} ∧ LegibleText "2d" ∧
      Expr.parse ({} : Settings).limits "2d" = .error (.fault .missingSides 2) ∧
        ∀ args ∈ [["check", "2d"], ["roll", "2d", "--json"], ["batch", "-n", "3", "2d"],
          ["--", "analyze", "2d", "-i5", "--seed=7"]],
          runLine bareRoom args = .failed [errorLine "Missing number of sides after 'd'",
            .pointer (pointer "2d" (some 2))] := by
  have hread : bareRoom.settings = .good {} := rfl
  have hlegible : LegibleText "2d" := by
    intro tokens h
    obtain rfl := Except.ok.inj (scan_cut.symm.trans h)
    intro t ht
    fin_cases ht <;> intro _ <;> decide
  have hparse : Expr.parse ({} : Settings).limits "2d" = .error (.fault .missingSides 2) := by
    rw [Expr.parse, scan_cut]
    rfl
  obtain ⟨-, hrefused⟩ := commands_refuse_alike SettingsReader.lenient_lawful hread "2d"
  obtain ⟨p, hp, hends⟩ := hrefused _ hlegible hparse
  obtain rfl := Option.some.inj hp
  refine ⟨hread, hlegible, hparse, ?_⟩
  simp only [List.forall_mem_cons, List.not_mem_nil, false_implies, implies_true, and_true]
  refine ⟨?_, ?_, ?_, ?_⟩
  · exact (hends _ (.check "2d") (by rfl) rfl).1
  · exact (hends _ (.roll "2d" none true) (by rfl) rfl).1
  · exact (hends _ (.batch "2d" 3 none false) (by rfl) ⟨rfl, by decide, by decide⟩).1
  · exact (hends _ (.analyze "2d" 5 (some 7)) (by rfl) rfl).1

end Console

end Dicebox
