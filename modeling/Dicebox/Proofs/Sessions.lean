import Dicebox.Proofs.Batches

/-! # What a session may touch

An engine is asked for one thing after another. Rolls are recorded when they have a result, each of
them once and in the order in which they are made, also where a later roll of the same request fails.
Nothing else is recorded: a check, a reading or a statistic leaves the history alone. A request that
is refused before any die is thrown leaves the whole engine as it was.

- `Request`, `Request.perform`: what an engine can be asked for.
- `rollsFrom`: the rolls that come out when expressions are rolled in turn, whoever asks for them.
- `Request.completed`, `completed`: the rolls that come out of a request, and of requests in turn.
- `Engine.Keeps`: an engine that has recorded some rolls, and otherwise at most moved its source.
- `Request.perform_keeps`, `Engine.performAll_keeps`: one request, and requests in turn.
- `Request.Refused`, `Request.perform_refused`: what is refused, and changes nothing.
- `session_touches_only_its_rolls`: all of this together.
-/

namespace Dicebox

open Session

variable {σ α β : Type}

/-! ## Requests -/

/-- What an engine can be asked for. -/
inductive Request where
  | roll (text : String)
  | batch (text : String) (n : Int) (cancelled : Answers)
  | many (texts : List String)
  | abilityScores (count : Int)
  | check (text : String)
  | parse (text : String)
  | fairness (sides sampleSize : Int) (significance : Option Number)
  | analyze (text : String) (iterations : Int)

/-- A session without its answer. -/
def Session.silent (s : Session σ α) : Session σ Unit := s.bind fun _ => answer ()

def Request.perform [RandomSource σ] : Request → Session σ Unit
  | roll text => (Session.roll text).silent
  | batch text n cancelled => (rollBatch text n cancelled).silent
  | many texts => (Session.rollMany texts).silent
  | abilityScores count => (rollAbilityScores count).silent
  | check text => (Session.check text).silent
  | parse text => (Session.parse text).silent
  | fairness sides sampleSize significance =>
    (Session.fairness sides sampleSize significance).silent
  | analyze text iterations => (Session.analyze text iterations).silent

/-- The engine after requests, one after the other, whether they fail or not. -/
def Engine.performAll [RandomSource σ] (g : Engine σ) (requests : List Request) : Engine σ :=
  requests.foldl (fun g q => (q.perform g).engine) g

/-! ## The rolls that come out -/

/-- The rolls that come out when expressions are rolled in turn from a source, up to the first that
fails, and the source behind them. -/
def rollsFrom [RandomSource σ] (limits : Limits) : List String → σ → List Roll × σ
  | [], source => ([], source)
  | text :: texts, source =>
    match Expr.parse limits text with
    | .error _ => ([], source)
    | .ok e =>
      let run := (e.roll (some text)).run source
      match run.outcome with
      | .error _ => ([], run.source)
      | .ok r =>
        let (rs, source) := rollsFrom limits texts run.source
        (r :: rs, source)

/-- How many of `n` rolls a batch makes: those in front of the first for which the answer is yes. -/
def batchLength (n : Nat) (cancelled : Answers) : Nat := (List.range n).findIdx cancelled

theorem batchLength_le (n : Nat) (cancelled : Answers) : batchLength n cancelled ≤ n :=
  List.findIdx_le_length.trans_eq List.length_range

theorem cancelled_of_lt_batchLength {n i : Nat} {cancelled : Answers}
    (h : i < batchLength n cancelled) : cancelled i = false := by
  simpa using List.not_of_lt_findIdx h

theorem cancelled_batchLength {n : Nat} {cancelled : Answers} (h : batchLength n cancelled < n) :
    cancelled (batchLength n cancelled) = true := by
  have hlt : (List.range n).findIdx cancelled < (List.range n).length := by
    rwa [List.length_range]
  have hfirst := List.findIdx_getElem (w := hlt)
  rwa [List.getElem_range] at hfirst

/-- The expressions of a batch: so many times the same one, if the batch is not too large. -/
def batchTexts (settings : Settings) (text : String) (n : Int) (cancelled : Answers) :
    List String :=
  if 0 ≤ n ∧ n ≤ settings.maxBatchSize then
    List.replicate (batchLength n.toNat cancelled) text
  else []

def Request.texts (settings : Settings) : Request → List String
  | roll text => [text]
  | batch text n cancelled => batchTexts settings text n cancelled
  | many texts => texts
  | abilityScores count => batchTexts settings abilityScore count never
  | check _ | parse _ | fairness _ _ _ | analyze _ _ => []

/-- The rolls that come out of a request. -/
def Request.completed [RandomSource σ] (q : Request) (g : Engine σ) : List Roll :=
  (rollsFrom g.settings.limits (q.texts g.settings) g.source).1

/-- The rolls that come out of requests, one after the other. -/
def completed [RandomSource σ] : List Request → Engine σ → List Roll
  | [], _ => []
  | q :: qs, g => q.completed g ++ completed qs (q.perform g).engine

/-! ## Keeping rolls -/

/-- Rolls with the stamps that an engine has for them. -/
def Engine.stamped (g : Engine σ) (rolls : List Roll) : List Entry :=
  rolls.mapIdx fun i r => ⟨g.stamps (g.made + i), r⟩

/-- An engine has recorded these rolls, and otherwise at most moved its source. -/
structure Engine.Keeps (g : Engine σ) (rolls : List Roll) (g' : Engine σ) : Prop where
  settings : g'.settings = g.settings
  stamps : g'.stamps = g.stamps
  made : g'.made = g.made + rolls.length
  history : g'.history = (g.stamped rolls).foldl History.record g.history

theorem Engine.Keeps.refl (g : Engine σ) : g.Keeps [] g := ⟨rfl, rfl, rfl, rfl⟩

/-- Moving the source records nothing. -/
theorem Engine.Keeps.of_source (g : Engine σ) (source : σ) : g.Keeps [] { g with source := source } :=
  ⟨rfl, rfl, rfl, rfl⟩

theorem Engine.stamped_append (g g' : Engine σ) {rolls rolls' : List Roll}
    (hstamps : g'.stamps = g.stamps) (hmade : g'.made = g.made + rolls.length) :
    g.stamped (rolls ++ rolls') = g.stamped rolls ++ g'.stamped rolls' := by
  have hrest : (fun i r => (⟨g.stamps (g.made + (i + rolls.length)), r⟩ : Entry)) =
      fun i r => ⟨g'.stamps (g'.made + i), r⟩ := by
    funext i r
    rw [hstamps, hmade, Nat.add_assoc, Nat.add_comm i]
  rw [stamped, List.mapIdx_append, hrest]
  rfl

theorem Engine.Keeps.trans {g g' g'' : Engine σ} {rolls rolls' : List Roll}
    (h : g.Keeps rolls g') (h' : g'.Keeps rolls' g'') : g.Keeps (rolls ++ rolls') g'' := by
  refine ⟨h'.settings.trans h.settings, h'.stamps.trans h.stamps, ?_, ?_⟩
  · rw [h'.made, h.made, List.length_append, Nat.add_assoc]
  · rw [h'.history, h.history, stamped_append g g' h.stamps h.made, List.foldl_append]

theorem entries_foldl_record (h : History) (es : List Entry) :
    (es.foldl History.record h).entries = (es.reverse ++ h.entries).take h.capacity := by
  induction es generalizing h with
  | nil => exact (List.take_of_length_le h.length_le).symm
  | cons e es ih =>
    rw [List.foldl_cons, ih]
    show (es.reverse ++ (e :: h.entries).take h.capacity).take h.capacity = _
    rw [List.reverse_cons, List.append_assoc, List.singleton_append, List.take_append,
      List.take_append, List.take_take, Nat.min_eq_left (Nat.sub_le _ _)]

/-! ## Sessions in turn -/

theorem engine_bind_answer (s : Session σ α) (f : α → β) (g : Engine σ) :
    (s.bind (fun a => answer (f a)) g).engine = (s g).engine := by
  cases h : (s g).result with
  | error e => rw [bind_of_error h]
  | ok a => rw [bind_of_ok h]; rfl

theorem engine_silent (s : Session σ α) (g : Engine σ) : (s.silent g).engine = (s g).engine :=
  engine_bind_answer s _ g

theorem engine_parse (text : String) (g : Engine σ) : (Session.parse text g).engine = g := by
  cases hread : Expr.parse g.settings.limits text with
  | error err => rw [parse_eq_fail hread]; rfl
  | ok e => rw [parse_eq_tell hread]; rfl

theorem engine_check (text : String) (g : Engine σ) : (Session.check text g).engine = g := by
  rw [Session.check, withSettings]
  cases Expr.parse g.settings.limits text with
  | ok e => rfl
  | error err =>
    dsimp only
    split <;> rfl

/-! ## Refused sessions -/

/-- An expression cannot be read under the limits of the settings. -/
def Settings.Unreadable (settings : Settings) (text : String) : Prop :=
  ∀ e, Expr.parse settings.limits text ≠ .ok e

/-- An outcome without what it tells of readings. -/
def Outcome.quiet (o : Outcome σ α) : Outcome σ α :=
  { o with events := o.events.filter (·.reading?.isNone) }

/-- A session is refused by an engine, which stays as it was and tells at most of readings. -/
def Session.Refuses (s : Session σ α) (g : Engine σ) : Prop :=
  ∃ err, (s g).quiet = fail err g

theorem Session.Refuses.bind {s : Session σ α} {g : Engine σ} (h : s.Refuses g)
    (f : α → Session σ β) : (s.bind f).Refuses g := by
  obtain ⟨err, herr⟩ := h
  have hresult : (s g).result = .error err := congrArg (·.result) herr
  refine ⟨err, ?_⟩
  rw [bind_of_error hresult]
  simpa only [Outcome.quiet, fail, Outcome.mk.injEq, hresult] using herr

theorem parse_refuses {text : String} {g : Engine σ} (h : g.settings.Unreadable text) :
    (Session.parse text).Refuses g := by
  cases hread : Expr.parse g.settings.limits text with
  | error err => exact ⟨_, congrArg Outcome.quiet (parse_eq_fail hread)⟩
  | ok e => exact absurd hread (h e)

variable [RandomSource σ]

/-! ## Rolls -/

variable {text : String} {e : Expr} {g : Engine σ}

theorem roll_keeps_of_error {err : RollError} (hread : Expr.parse g.settings.limits text = .ok e)
    (hrun : ((e.roll (some text)).run g.source).outcome = .error err) :
    (roll text g).result = .error (.roll err) ∧ g.Keeps [] (roll text g).engine ∧
      (roll text g).engine.source = ((e.roll (some text)).run g.source).source := by
  rw [roll_eq_evaluate hread, evaluate_of_error hrun]
  exact ⟨rfl, .of_source g _, rfl⟩

theorem roll_keeps_of_ok {r : Roll} (hread : Expr.parse g.settings.limits text = .ok e)
    (hrun : ((e.roll (some text)).run g.source).outcome = .ok r) :
    (roll text g).result = .ok ⟨g.stamps g.made, r⟩ ∧ g.Keeps [r] (roll text g).engine ∧
      (roll text g).engine.source = ((e.roll (some text)).run g.source).source := by
  rw [roll_eq_evaluate hread, evaluate_of_ok hrun]
  exact ⟨rfl, ⟨rfl, rfl, rfl, rfl⟩, rfl⟩

/-- **Rolls in turn keep the rolls that come out**, and leave the source behind them. -/
theorem inTurn_keeps (texts : List String) (g : Engine σ) :
    g.Keeps (rollsFrom g.settings.limits texts g.source).1 (inTurn (texts.map roll) g).engine ∧
      (inTurn (texts.map roll) g).engine.source =
        (rollsFrom g.settings.limits texts g.source).2 := by
  induction texts generalizing g with
  | nil => exact ⟨.refl g, rfl⟩
  | cons text texts ih =>
    rw [List.map_cons, inTurn, rollsFrom]
    cases hread : Expr.parse g.settings.limits text with
    | error err =>
      rw [bind_of_fail (roll_eq_fail hread)]
      exact ⟨.refl g, rfl⟩
    | ok e =>
      dsimp only
      cases hrun : ((e.roll (some text)).run g.source).outcome with
      | error err =>
        obtain ⟨hfails, hkeeps, hsource⟩ := roll_keeps_of_error hread hrun
        rw [bind_of_error hfails]
        exact ⟨hkeeps, hsource⟩
      | ok r =>
        obtain ⟨hrolls, hfirst, hmoved⟩ := roll_keeps_of_ok hread hrun
        obtain ⟨hkeeps, hsource⟩ := ih (roll text g).engine
        rw [hfirst.settings, hmoved] at hkeeps hsource
        rw [bind_of_ok hrolls]
        dsimp only
        rw [engine_bind_answer]
        exact ⟨hfirst.trans hkeeps, hsource⟩

theorem engine_rollBatch (text : String) (n : Int) (cancelled : Answers) (g : Engine σ) :
    (rollBatch text n cancelled g).engine =
      (inTurn ((batchTexts g.settings text n cancelled).map roll) g).engine := by
  by_cases hn : 0 ≤ n ∧ n ≤ g.settings.maxBatchSize
  · rw [batchTexts, if_pos hn, List.map_replicate]
    cases hread : Expr.parse g.settings.limits text with
    | error err =>
      rw [rollBatch_eq_fail hn hread]
      -- the batch fails at once, and so does the first of its rolls, if there is one
      cases batchLength n.toNat cancelled with
      | zero => rfl
      | succ m => rw [inTurn_roll_fail (Nat.succ_pos m) hread]
    | ok e =>
      have hrolls := congrArg (·.engine) (inTurn_evaluate (batchLength n.toNat cancelled) hread)
      refine Eq.trans ?_ hrolls
      rw [rollBatch_eq_rollUntil hn hread,
        rollUntil_eq (batchLength_le n.toNat cancelled)
          (fun i hi => by rw [Nat.zero_add, cancelled_of_lt_batchLength hi])
          (fun hlt => by rw [Nat.zero_add, cancelled_batchLength hlt])]
      split
      · rw [bind_tell]
        split <;> rfl
      · rw [bind_answer]
        rfl
  · rw [rollBatch, withSettings, batchTexts, if_neg hn, if_neg hn]
    rfl

/-! ## Requests in turn -/

/-- A session that rolls these expressions in turn keeps what comes out of them. -/
theorem silent_keeps {s : Session σ α} {texts : List String} {g : Engine σ}
    (h : (s g).engine = (inTurn (texts.map roll) g).engine) :
    g.Keeps (rollsFrom g.settings.limits texts g.source).1 (s.silent g).engine := by
  rw [engine_silent, h]
  exact (inTurn_keeps texts g).1

theorem engine_fairness (sides sampleSize : Int) (significance : Option Number) (g : Engine σ) :
    ∃ source, (Session.fairness sides sampleSize significance g).engine =
      { g with source := source } := ⟨_, rfl⟩

theorem analyze_eq_fail {text : String} {err : NotationError} {g : Engine σ}
    (h : Expr.parse g.settings.limits text = .error err) (iterations : Int) :
    Session.analyze text iterations g = fail (.unreadable err) g := bind_of_fail (parse_eq_fail h)

theorem analyze_eq {text : String} {e : Expr} {g : Engine σ}
    (h : Expr.parse g.settings.limits text = .ok e) (iterations : Int) :
    Session.analyze text iterations g =
      let (result, source, events) := summarize e g.source iterations (some text)
      ⟨result.mapError .summary, { g with source := source }, .read text e :: events⟩ :=
  bind_of_tell (parse_eq_tell h)

theorem engine_analyze (text : String) (iterations : Int) (g : Engine σ) :
    ∃ source, (Session.analyze text iterations g).engine = { g with source := source } := by
  cases hread : Expr.parse g.settings.limits text with
  | error err =>
    rw [analyze_eq_fail hread]
    exact ⟨g.source, rfl⟩
  | ok e =>
    rw [analyze_eq hread]
    exact ⟨_, rfl⟩

/-- **One request keeps the rolls that come out of it**, and nothing else. -/
theorem Request.perform_keeps (q : Request) (g : Engine σ) :
    g.Keeps (q.completed g) (q.perform g).engine := by
  cases q with
  | roll text => exact silent_keeps (engine_bind_answer _ _ g).symm
  | batch text n cancelled => exact silent_keeps (engine_rollBatch text n cancelled g)
  | many texts => exact silent_keeps (congrArg (·.engine) (rollMany_eq texts g))
  | abilityScores count => exact silent_keeps (engine_rollBatch abilityScore count never g)
  | check text =>
    rw [perform, engine_silent, engine_check]
    exact .refl g
  | parse text =>
    rw [perform, engine_silent, engine_parse]
    exact .refl g
  | fairness sides sampleSize significance =>
    obtain ⟨source, hengine⟩ := engine_fairness sides sampleSize significance g
    rw [perform, engine_silent, hengine]
    exact .of_source g source
  | analyze text iterations =>
    obtain ⟨source, hengine⟩ := engine_analyze text iterations g
    rw [perform, engine_silent, hengine]
    exact .of_source g source

/-- **Requests in turn keep the rolls that come out of them**, in order. -/
theorem Engine.performAll_keeps (qs : List Request) (g : Engine σ) :
    g.Keeps (completed qs g) (g.performAll qs) := by
  induction qs generalizing g with
  | nil => exact .refl g
  | cons q qs ih => exact (q.perform_keeps g).trans (ih _)

/-! ## Refusals -/

def Number.IsLevel (level : Number) : Prop := ∃ x, level = .real x ∧ (0.0 < x && x < 1.0) = true

/-- A request is refused before a die is thrown: it is for too many rolls or for less than none, for
an expression that cannot be read, or for a statistic with parameters out of range. -/
def Request.Refused (settings : Settings) : Request → Prop
  | roll text | parse text => settings.Unreadable text
  | batch text n _ => ¬ (0 ≤ n ∧ n ≤ settings.maxBatchSize) ∨ settings.Unreadable text
  | abilityScores n => ¬ (0 ≤ n ∧ n ≤ settings.maxBatchSize) ∨ settings.Unreadable abilityScore
  | fairness sides sampleSize significance =>
    sides < 2 ∨ sampleSize < 1 ∨ ¬ (significance.getD (.real settings.significance)).IsLevel
  | analyze text iterations => iterations < 1 ∨ settings.Unreadable text
  | many _ | check _ => False

theorem rollBatch_refuses {text : String} {n : Int} {g : Engine σ}
    (h : ¬ (0 ≤ n ∧ n ≤ g.settings.maxBatchSize) ∨ g.settings.Unreadable text)
    (cancelled : Answers) : (rollBatch text n cancelled).Refuses g := by
  rw [Session.Refuses, rollBatch, withSettings]
  by_cases hn : 0 ≤ n ∧ n ≤ g.settings.maxBatchSize
  · rw [if_pos hn]
    exact (parse_refuses (h.resolve_left (not_not.mpr hn))).bind _
  · rw [if_neg hn]
    exact ⟨_, rfl⟩

theorem significanceLevel?_eq_none {level : Number} (h : ¬ level.IsLevel) :
    significanceLevel? level = none := by
  cases level with
  | whole n => rfl
  | real x => exact if_neg fun hx => h ⟨x, rfl, hx⟩

theorem fairness_refuses {sides sampleSize : Int} {significance : Option Number} {g : Engine σ}
    (h : sides < 2 ∨ sampleSize < 1 ∨
      ¬ (significance.getD (.real g.settings.significance)).IsLevel) :
    (Session.fairness sides sampleSize significance).Refuses g := by
  obtain ⟨err, herr⟩ : ∃ err, Dicebox.fairness g.source sides sampleSize
      (significance.getD (.real g.settings.significance)) = (.error err, g.source) := by
    rw [Dicebox.fairness, fairnessWithin]
    by_cases hsides : sides < 2
    · exact ⟨_, if_pos hsides⟩
    · rw [if_neg hsides]
      by_cases hsamples : sampleSize < 1
      · exact ⟨_, if_pos hsamples⟩
      · have hlevel := (h.resolve_left hsides).resolve_left hsamples
        rw [if_neg hsamples, significanceLevel?_eq_none hlevel]
        exact ⟨_, rfl⟩
  refine ⟨.fairness err, ?_⟩
  rw [Session.fairness, herr]
  rfl

theorem analyze_refuses {text : String} {iterations : Int} {g : Engine σ}
    (h : iterations < 1 ∨ g.settings.Unreadable text) :
    (Session.analyze text iterations).Refuses g := by
  by_cases hread : g.settings.Unreadable text
  · exact (parse_refuses hread).bind _
  · have hnone := h.resolve_right hread
    obtain ⟨e, he⟩ : ∃ e, Expr.parse g.settings.limits text = .ok e := by
      simpa [Settings.Unreadable] using hread
    refine ⟨.summary (.noIterations iterations), ?_⟩
    rw [analyze_eq he, summarize, if_pos hnone]
    rfl

/-- **What is refused changes nothing.** -/
theorem Request.perform_refused {q : Request} {g : Engine σ} (h : q.Refused g.settings) :
    q.perform.Refuses g := by
  cases q with
  | roll text => exact ((parse_refuses h).bind _).bind _
  | batch text n cancelled => exact (rollBatch_refuses h cancelled).bind _
  | many texts => exact h.elim
  | abilityScores count => exact (rollBatch_refuses h never).bind _
  | check text => exact h.elim
  | parse text => exact (parse_refuses h).bind _
  | fairness sides sampleSize significance => exact (fairness_refuses h).bind _
  | analyze text iterations => exact (analyze_refuses h).bind _

/-! ## The law -/

/-- A request for a check, a reading or a statistic. -/
def Request.IsInquiry : Request → Prop
  | check _ | parse _ | fairness _ _ _ | analyze _ _ => True
  | roll _ | batch _ _ _ | many _ | abilityScores _ => False

/-- **A session touches only its rolls.** A history with room for them holds the rolls that came out
of the requests, once each and in the order in which they were made, and nothing else; checks,
readings and statistics leave the history alone, checks and readings the source as well; and what is
refused leaves both as they were. -/
theorem session_touches_only_its_rolls (g : Engine σ) :
    (∀ qs : List Request,
      (completed qs g).length + g.history.size ≤ g.history.capacity →
        (g.performAll qs).history.entries =
          (g.stamped (completed qs g)).reverse ++ g.history.entries) ∧
    (∀ q : Request, q.IsInquiry → (q.perform g).engine.history = g.history) ∧
    (∀ text : String, ((Request.check text).perform g).engine.source = g.source ∧
      ((Request.parse text).perform g).engine.source = g.source) ∧
    ∀ q : Request, q.Refused g.settings →
      (∃ err, (q.perform g).result = .error err) ∧ (q.perform g).engine.source = g.source ∧
        (q.perform g).engine.history = g.history := by
  refine ⟨?_, ?_, ?_, ?_⟩
  · intro qs hroom
    have hkeeps := g.performAll_keeps qs
    rw [hkeeps.history, entries_foldl_record]
    refine List.take_of_length_le ?_
    rw [List.length_append, List.length_reverse, Engine.stamped, List.length_mapIdx]
    exact hroom
  · intro q hinquiry
    have hnone : q.texts g.settings = [] := by
      cases q <;> first | rfl | exact hinquiry.elim
    have hkeeps := q.perform_keeps g
    rw [Request.completed, hnone] at hkeeps
    exact hkeeps.history
  · intro text
    rw [Request.perform, Request.perform, engine_silent, engine_silent, engine_check, engine_parse]
    exact ⟨rfl, rfl⟩
  · intro q hrefused
    obtain ⟨err, herr⟩ := Request.perform_refused hrefused
    have hengine : (q.perform g).engine = g := congrArg (·.engine) herr
    exact ⟨⟨err, congrArg (·.result) herr⟩, by rw [hengine], by rw [hengine]⟩

/-- Faces for two pools: of a batch of three two are recorded, though the batch fails. -/
theorem two_pools_of_three_are_kept :
    let g := desk "a" 2024
    let qs : List Request := [.check "2d6", .batch "2d6" 3 never, .fairness 1 10 none]
    (completed qs g).map Roll.total = [7, 9] ∧
      (g.performAll qs).history.entries = (g.stamped (completed qs g)).reverse ∧
      ((Request.check "2d6").perform g).engine.history = g.history ∧
      ((Request.fairness 1 10 none).perform g).engine.source = g.source := by
  intro g qs
  obtain ⟨hkept, hinquiry, -, hrefused⟩ := session_touches_only_its_rolls g
  have hcheck : ((Request.check "2d6").perform g).engine = g :=
    (engine_silent _ g).trans (engine_check "2d6" g)
  have hcompleted : (completed qs g).map Roll.total = [7, 9] := by
    have hbatch : (rollsFrom g.settings.limits ["2d6", "2d6", "2d6"] g.source).1.map Roll.total =
        [7, 9] := by
      have hread : Expr.parse g.settings.limits "2d6" = .ok _ := read_pool "a" 2024
      simp only [rollsFrom, hread]
      rfl
    show (_ ++ completed _ ((Request.check "2d6").perform g).engine).map Roll.total = _
    rw [hcheck]
    show ([] ++ (_ ++ ([] ++ []))).map Roll.total = _
    rw [List.nil_append, List.append_nil, List.append_nil]
    exact hbatch
  have hsides : (Request.fairness 1 10 none).Refused g.settings := Or.inl (by decide)
  refine ⟨hcompleted, ?_, hinquiry (.check "2d6") trivial, (hrefused _ hsides).2.1⟩
  have hlength : (completed qs g).length = 2 := by
    rw [← List.length_map (f := Roll.total), hcompleted]
    rfl
  have hentries := hkept qs (by rw [hlength]; decide)
  rwa [show g.history.entries = [] from rfl, List.append_nil] at hentries

end Dicebox
