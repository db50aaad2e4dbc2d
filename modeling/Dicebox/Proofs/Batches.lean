import Dicebox.Engine
import Dicebox.Proofs.Confined
import Dicebox.Proofs.Grammar.Sentences
import Dicebox.Source.Kinds

/-! # A batch is its rolls made one at a time

An engine that rolls a batch reads its expression once, and one that rolls a list of expressions
reads each distinct one once. What is read depends on the settings alone, and no roll changes those,
so nothing else comes of it than of the rolls one after the other, up to the first that fails or
before which somebody cancels. Only the log is another one: rolls tell each time that they read their
text, and this is left out wherever it has been told before. Names and times tell the rolls of two
engines apart, but nothing that an engine does depends on them.

- `Session.inTurn`: sessions one after the other.
- `Event.news`, `Outcome.once`: a log without repeated readings, and an outcome with such a log.
- `Session.rollUntil_eq`: the rolls of a batch, however it is cancelled.
- `Session.rollBatch_eq`, `Session.rollBatch_cancelled`, `Session.rollMany_eq`: on one engine.
- `Engine.Alike`, `Outcome.Alike`: engines and outcomes, but for names and times.
- `batch_is_its_rolls`: on two engines.
-/

namespace Dicebox

/-! ## Logs without repeated readings -/

namespace Event

/-- A log without the readings that were known before or that it has told already. -/
def news (known : List (String × Expr)) : List Event → List Event
  | [] => []
  | event :: events =>
    match event.reading? with
    | none => event :: news known events
    | some reading =>
      if reading ∈ known then news known events else event :: news (reading :: known) events

variable {known : List (String × Expr)} {text : String} {e : Expr}

theorem news_read_of_mem (h : (text, e) ∈ known) (events : List Event) :
    news known (.read text e :: events) = news known events := if_pos h

theorem news_read_of_notMem (h : (text, e) ∉ known) (events : List Event) :
    news known (.read text e :: events) = .read text e :: news ((text, e) :: known) events :=
  if_neg h

theorem news_append_of_silent {events : List Event} (h : ∀ event ∈ events, event.reading? = none)
    (rest : List Event) : news known (events ++ rest) = events ++ news known rest := by
  induction events with
  | nil => rfl
  | cons event events ih =>
    obtain ⟨hevent, hevents⟩ := List.forall_mem_cons.mp h
    rw [List.cons_append, news, hevent, ih hevents, List.cons_append]

theorem news_of_silent {events : List Event} (h : ∀ event ∈ events, event.reading? = none) :
    news known events = events := by
  have happend : news known (events ++ []) = events ++ news known [] := news_append_of_silent h []
  rwa [List.append_nil, news, List.append_nil] at happend

theorem news_concat_of_silent {event : Event} (h : event.reading? = none)
    (known : List (String × Expr)) (events : List Event) :
    news known (events ++ [event]) = news known events ++ [event] := by
  induction events generalizing known with
  | nil => exact news_of_silent (List.forall_mem_singleton.mpr h)
  | cons first events ih =>
    rw [List.cons_append, news, news]
    split
    · rw [ih, List.cons_append]
    · split
      · exact ih known
      · rw [ih, List.cons_append]

end Event

/-! ## Outcomes -/

namespace Outcome

variable {σ α : Type}

/-- An outcome with one event more at its end. -/
def noting (o : Outcome σ α) (event : Event) : Outcome σ α :=
  { o with events := o.events ++ [event] }

/-- An outcome with one event more in front. -/
def preceded (o : Outcome σ α) (event : Event) : Outcome σ α :=
  { o with events := event :: o.events }

/-- An outcome that tells only of readings that are new. -/
def since (known : List (String × Expr)) (o : Outcome σ α) : Outcome σ α :=
  { o with events := Event.news known o.events }

/-- An outcome that tells of each reading once. -/
abbrev once (o : Outcome σ α) : Outcome σ α := o.since []

@[simp] theorem result_preceded (o : Outcome σ α) (event : Event) :
    (o.preceded event).result = o.result := rfl

theorem since_preceded_of_mem {known : List (String × Expr)} {text : String} {e : Expr}
    (h : (text, e) ∈ known) (o : Outcome σ α) :
    (o.preceded (.read text e)).since known = o.since known := by
  rw [since, preceded, Event.news_read_of_mem h, since]

theorem since_preceded_of_notMem {known : List (String × Expr)} {text : String} {e : Expr}
    (h : (text, e) ∉ known) (o : Outcome σ α) :
    (o.preceded (.read text e)).since known =
      (o.since ((text, e) :: known)).preceded (.read text e) := by
  rw [since, preceded, Event.news_read_of_notMem h, preceded, since]

theorem once_noting {event : Event} (h : event.reading? = none) (o : Outcome σ α) :
    (o.noting event).once = o.once.noting event := by
  rw [once, since, noting, Event.news_concat_of_silent h, noting, once, since]

end Outcome

namespace Session

variable {σ α β γ δ : Type}

/-- Sessions one after the other up to the first that fails, with the answers in order. -/
def inTurn : List (Session σ α) → Session σ (List α)
  | [] => answer []
  | s :: ss => s.bind fun a => (inTurn ss).bind fun as => answer (a :: as)

/-! ## One session after another -/

variable {s s' : Session σ α} {f f' : α → Session σ β} {g g' : Engine σ}

theorem bind_of_fail {e : EngineError} (h : s g = fail e g) : s.bind f g = fail e g := by
  rw [bind, h]
  rfl

theorem bind_of_tell {event : Event} {a : α} (h : s g = tell event a g) :
    s.bind f g = (f a g).preceded event := by
  rw [bind, h]
  rfl

theorem bind_of_preceded {event : Event} (h : s g = (s' g).preceded event) :
    s.bind f g = (s'.bind f g).preceded event := by
  rw [bind, bind, h]
  cases hs : (s' g).result <;> simp only [Outcome.preceded, hs, List.cons_append]

theorem bind_of_error {e : EngineError} (h : (s g).result = .error e) :
    s.bind f g = ⟨.error e, (s g).engine, (s g).events⟩ := by
  simp only [bind, h]

theorem bind_of_ok {a : α} (h : (s g).result = .ok a) :
    s.bind f g = ⟨(f a (s g).engine).result, (f a (s g).engine).engine,
      (s g).events ++ (f a (s g).engine).events⟩ := by
  simp only [bind, h]

theorem bind_answer (s : Session σ α) : s.bind answer = s := by
  funext g
  cases h : (s g).result with
  | error e => rw [bind_of_error h, ← h]
  | ok a =>
    rw [bind_of_ok h]
    simp only [answer, List.append_nil, ← h]

theorem bind_tell (s : Session σ α) (event : Event) (g : Engine σ) :
    s.bind (tell event) g = if (s g).result.isOk then (s g).noting event else s g := by
  cases h : (s g).result with
  | error e =>
    rw [bind_of_error h]
    show _ = s g
    rw [← h]
  | ok a =>
    rw [bind_of_ok h]
    show (⟨.ok a, _, _⟩ : Outcome σ α) = (s g).noting event
    rw [Outcome.noting, ← h]
    rfl

/-- A session that tells only of readings that are new. -/
def since (known : List (String × Expr)) (s : Session σ α) : Session σ α :=
  fun g => (s g).since known

theorem since_bind_answer (s : Session σ α) (f : α → β) (known : List (String × Expr))
    (g : Engine σ) :
    (s.bind (fun a => answer (f a)) g).since known =
      (s.since known).bind (fun a => answer (f a)) g := by
  cases h : (s g).result with
  | error e => simp only [bind, since, Outcome.since, h]
  | ok a => simp only [bind, since, Outcome.since, h, answer, List.append_nil]

/-- What is new behind a session that tells of no readings is new behind its events. -/
theorem since_bind_of_silent (hs : ∀ event ∈ (s g).events, event.reading? = none)
    (f : α → Session σ β) (known : List (String × Expr)) :
    (s.bind f g).since known = s.bind (fun a => (f a).since known) g := by
  cases h : (s g).result with
  | error e =>
    rw [bind_of_error h, bind_of_error h, Outcome.since, Event.news_of_silent hs]
  | ok a =>
    rw [bind_of_ok h, bind_of_ok h, Outcome.since, Event.news_append_of_silent hs]
    rfl

/-! ## Rolls -/

variable {text : String} {e : Expr} {err : NotationError}

theorem parse_eq_tell (h : Expr.parse g.settings.limits text = .ok e) :
    parse text g = tell (.read text e) e g := by
  rw [parse, withSettings, h]

theorem parse_eq_fail (h : Expr.parse g.settings.limits text = .error err) :
    parse text g = fail (.unreadable err) g := by
  rw [parse, withSettings, h]

variable [RandomSource σ]

theorem roll_eq_evaluate (h : Expr.parse g.settings.limits text = .ok e) :
    roll text g = (evaluate e text g).preceded (.read text e) := bind_of_tell (parse_eq_tell h)

theorem roll_eq_fail (h : Expr.parse g.settings.limits text = .error err) :
    roll text g = fail (.unreadable err) g := bind_of_fail (parse_eq_fail h)

theorem evaluate_of_error {err : RollError}
    (h : ((e.roll (some text)).run g.source).outcome = .error err) :
    evaluate e text g = ⟨.error (.roll err),
      { g with source := ((e.roll (some text)).run g.source).source },
      ((e.roll (some text)).run g.source).events⟩ := by
  simp only [evaluate, h]

theorem evaluate_of_ok {r : Roll} (h : ((e.roll (some text)).run g.source).outcome = .ok r) :
    evaluate e text g = ⟨.ok ⟨g.stamps g.made, r⟩,
      { g with
        source := ((e.roll (some text)).run g.source).source
        history := g.history.record ⟨g.stamps g.made, r⟩
        made := g.made + 1 },
      ((e.roll (some text)).run g.source).events⟩ := by
  simp only [evaluate, h]

theorem settings_evaluate (e : Expr) (text : String) (g : Engine σ) :
    (evaluate e text g).engine.settings = g.settings := by
  rw [evaluate]
  split <;> rfl

/-- What has been read is rolled without reading anything more. -/
theorem silent_evaluate (e : Expr) (text : String) (g : Engine σ) :
    ∀ event ∈ (evaluate e text g).events, event.reading? = none := by
  have hrun := (e.roll_confined (D := fun _ => True) (fun _ _ => trivial) (some text)).reading?_run
    g.source
  rw [evaluate]
  split <;> exact hrun

/-- One roll of what has been read, with rolls behind it that tell only what is new. -/
theorem evaluate_since {known : List (String × Expr)} {rest rest' : Session σ (List Entry)}
    (h : rest (evaluate e text g).engine = (rest' (evaluate e text g).engine).since known) :
    (evaluate e text).bind (fun entry => rest.bind fun entries => answer (entry :: entries)) g =
      ((evaluate e text).bind (fun entry => rest'.bind fun entries => answer (entry :: entries))
        g).since known := by
  rw [since_bind_of_silent (silent_evaluate e text g)]
  cases hroll : (evaluate e text g).result with
  | error err => rw [bind_of_error hroll, bind_of_error hroll]
  | ok entry =>
    rw [bind_of_ok hroll, bind_of_ok hroll, since, since_bind_answer]
    simp only [bind, since, h]

/-- Rolls of what has been read once tell that they read it again, and nothing else is new. -/
theorem inTurn_evaluate (n : Nat) (h : Expr.parse g.settings.limits text = .ok e) :
    inTurn (List.replicate n (evaluate e text)) g =
      (inTurn (List.replicate n (roll text)) g).since [(text, e)] := by
  induction n generalizing g with
  | zero => rfl
  | succ n ih =>
    have hread : Expr.parse (evaluate e text g).engine.settings.limits text = .ok e := by
      rwa [settings_evaluate]
    rw [List.replicate_succ, List.replicate_succ, inTurn, inTurn,
      bind_of_preceded (roll_eq_evaluate h),
      Outcome.since_preceded_of_mem (List.mem_singleton_self _)]
    exact evaluate_since (ih hread)

/-- Rolls in turn tell of their reading when they begin. -/
theorem once_inTurn_roll {n : Nat} (hn : 0 < n) (h : Expr.parse g.settings.limits text = .ok e) :
    (inTurn (List.replicate n (roll text)) g).once =
      (inTurn (List.replicate n (evaluate e text)) g).preceded (.read text e) := by
  obtain ⟨n, rfl⟩ := Nat.exists_eq_succ_of_ne_zero hn.ne'
  have hread : Expr.parse (evaluate e text g).engine.settings.limits text = .ok e := by
    rwa [settings_evaluate]
  rw [List.replicate_succ, List.replicate_succ, inTurn, inTurn,
    bind_of_preceded (roll_eq_evaluate h), Outcome.once,
    Outcome.since_preceded_of_notMem List.not_mem_nil]
  exact congrArg (Outcome.preceded · (.read text e)) (evaluate_since (inTurn_evaluate n hread)).symm

theorem inTurn_roll_fail {n : Nat} (hn : 0 < n)
    (h : Expr.parse g.settings.limits text = .error err) :
    inTurn (List.replicate n (roll text)) g = fail (.unreadable err) g := by
  obtain ⟨n, rfl⟩ := Nat.exists_eq_succ_of_ne_zero hn.ne'
  exact bind_of_fail (roll_eq_fail h)

/-! ## Batches on one engine -/

/-- **A batch rolls until somebody cancels it**: `m` times, if the first answers are no and the next
one, as far as it is asked for, is yes. -/
theorem rollUntil_eq {cancelled : Answers} {asked made left m : Nat} (hm : m ≤ left)
    (hgo : ∀ i < m, cancelled (made + i) = false)
    (hstop : m < left → cancelled (made + m) = true) :
    rollUntil cancelled e text asked made left =
      (inTurn (List.replicate m (evaluate e text))).bind
        (if m < left then tell (σ := σ) (.batchCancelled text (made + m) asked) else answer) := by
  induction left generalizing made m with
  | zero =>
    obtain rfl := Nat.le_zero.mp hm
    rfl
  | succ left ih =>
    cases m with
    | zero =>
      have hyes : cancelled made = true := hstop (Nat.succ_pos left)
      rw [rollUntil, if_pos hyes, if_pos (Nat.succ_pos left)]
      rfl
    | succ m =>
      have hno : cancelled made = false := hgo 0 (Nat.succ_pos m)
      have hnext : ∀ i, made + 1 + i = made + (i + 1) := fun i => by omega
      have hgo' : ∀ i < m, cancelled (made + 1 + i) = false :=
        fun i hi => hnext i ▸ hgo (i + 1) (Nat.succ_lt_succ hi)
      have hstop' : m < left → cancelled (made + 1 + m) = true :=
        fun hlt => hnext m ▸ hstop (Nat.succ_lt_succ hlt)
      rw [rollUntil, hno, if_neg Bool.false_ne_true, ih (Nat.le_of_succ_le_succ hm) hgo' hstop',
        hnext, List.replicate_succ, inTurn, bind_assoc]
      simp only [bind_assoc, Nat.succ_lt_succ_iff]
      split <;> rfl

theorem rollUntil_never (e : Expr) (text : String) (asked made left : Nat) :
    rollUntil (σ := σ) never e text asked made left =
      inTurn (List.replicate left (evaluate e text)) := by
  rw [rollUntil_eq le_rfl (fun _ _ => rfl) fun h => absurd h (lt_irrefl _),
    if_neg (lt_irrefl _), bind_answer]

variable {n : Int}

theorem rollBatch_eq_rollUntil (hn : 0 ≤ n ∧ n ≤ g.settings.maxBatchSize)
    (h : Expr.parse g.settings.limits text = .ok e) (cancelled : Answers) :
    rollBatch text n cancelled g =
      (rollUntil cancelled e text n.toNat 0 n.toNat g).preceded (.read text e) := by
  rw [rollBatch, withSettings, if_pos hn]
  exact bind_of_tell (parse_eq_tell h)

theorem rollBatch_eq_fail (hn : 0 ≤ n ∧ n ≤ g.settings.maxBatchSize)
    (h : Expr.parse g.settings.limits text = .error err) (cancelled : Answers) :
    rollBatch text n cancelled g = fail (.unreadable err) g := by
  rw [rollBatch, withSettings, if_pos hn]
  exact bind_of_fail (parse_eq_fail h)

/-- A batch that nobody cancels reads its expression, and then rolls it. -/
theorem rollBatch_eq_inTurn (hn : 0 ≤ n ∧ n ≤ g.settings.maxBatchSize)
    (h : Expr.parse g.settings.limits text = .ok e) :
    rollBatch text n never g =
      (inTurn (List.replicate n.toNat (evaluate e text)) g).preceded (.read text e) := by
  rw [rollBatch_eq_rollUntil hn h, rollUntil_never]

/-- A batch that nobody cancels is its rolls in turn. -/
theorem rollBatch_eq (hn : 1 ≤ n) (hmax : n ≤ g.settings.maxBatchSize) :
    rollBatch text n never g = (inTurn (List.replicate n.toNat (roll text)) g).once := by
  have hsize : 0 ≤ n ∧ n ≤ g.settings.maxBatchSize := ⟨by omega, hmax⟩
  cases h : Expr.parse g.settings.limits text with
  | error err =>
    rw [inTurn_roll_fail (by omega) h, rollBatch_eq_fail hsize h]
    rfl
  | ok e => rw [once_inTurn_roll (by omega) h, rollBatch_eq_inTurn hsize h]

/-- A batch that is cancelled after `k` rolls is these in turn. -/
theorem rollBatch_cancelled {cancelled : Answers} {k : Nat} (hn : 1 ≤ n)
    (hmax : n ≤ g.settings.maxBatchSize) (hk : 0 < k) (hgo : ∀ i < k, cancelled i = false)
    (hstop : cancelled k = true) :
    rollBatch text n cancelled g =
      let rolled := inTurn (List.replicate (min n.toNat k) (roll text)) g
      (if k < n.toNat ∧ rolled.result.isOk then rolled.noting (.batchCancelled text k n.toNat)
        else rolled).once := by
  have hsize : 0 ≤ n ∧ n ≤ g.settings.maxBatchSize := ⟨by omega, hmax⟩
  have hmin : 0 < min n.toNat k := by omega
  cases h : Expr.parse g.settings.limits text with
  | error err =>
    rw [inTurn_roll_fail hmin h, rollBatch_eq_fail hsize h]
    dsimp only
    rw [if_neg fun hok => by cases hok.2]
    rfl
  | ok e =>
    have hrolled := once_inTurn_roll hmin h
    have hok : (inTurn (List.replicate (min n.toNat k) (roll text)) g).result.isOk =
        (inTurn (List.replicate (min n.toNat k) (evaluate e text)) g).result.isOk :=
      congrArg (·.result.isOk) hrolled
    rw [rollBatch_eq_rollUntil hsize h]
    dsimp only
    rw [hok]
    by_cases hlt : k < n.toNat
    · rw [Nat.min_eq_right hlt.le] at hrolled ⊢
      rw [rollUntil_eq hlt.le (by simpa using hgo) (by simpa using fun _ => hstop), if_pos hlt,
        bind_tell, Nat.zero_add]
      simp only [hlt, true_and]
      split
      · have hsilent : (Event.batchCancelled text k n.toNat).reading? = none := rfl
        rw [Outcome.once_noting hsilent, hrolled]
        rfl
      · exact hrolled.symm
    · have hle : n.toNat ≤ k := Nat.not_lt.mp hlt
      rw [Nat.min_eq_left hle] at hrolled ⊢
      have hall : ∀ i < n.toNat, cancelled (0 + i) = false := fun i hi => by
        rw [Nat.zero_add]
        exact hgo i (hi.trans_le hle)
      rw [rollUntil_eq le_rfl hall fun h => absurd h (lt_irrefl _), if_neg (lt_irrefl _),
        bind_answer, if_neg fun h => hlt h.1, hrolled]

/-- A batch that is cancelled before its first roll has read its expression. -/
theorem rollBatch_cancelled_at_once {cancelled : Answers} (hn : 1 ≤ n)
    (hmax : n ≤ g.settings.maxBatchSize) (hstop : cancelled 0 = true)
    (h : Expr.parse g.settings.limits text = .ok e) :
    rollBatch text n cancelled g =
      ⟨.ok [], g, [.read text e, .batchCancelled text 0 n.toNat]⟩ := by
  have hpos : 0 < n.toNat := by omega
  rw [rollBatch_eq_rollUntil ⟨by omega, hmax⟩ h,
    rollUntil_eq (Nat.zero_le _) (fun i hi => absurd hi i.not_lt_zero) fun _ => hstop, if_pos hpos]
  rfl

/-! ## Lists of expressions on one engine -/

/-- What has been read before is read again as the same. -/
abbrev Known (g : Engine σ) (known : List (String × Expr)) : Prop :=
  ∀ p ∈ known, Expr.parse g.settings.limits p.1 = .ok p.2

omit [RandomSource σ] in
theorem Known.of_lookup {known : List (String × Expr)} (h : Known g known)
    (hlookup : known.lookup text = some e) :
    (text, e) ∈ known ∧ Expr.parse g.settings.limits text = .ok e := by
  obtain ⟨before, after, rfl, -⟩ := List.lookup_eq_some_iff.mp hlookup
  have hmem : (text, e) ∈ before ++ (text, e) :: after := List.mem_append_right _ List.mem_cons_self
  exact ⟨hmem, h _ hmem⟩

/-- A roll leaves the settings alone, so what was read before it is still read as the same. -/
theorem Known.evaluate {known : List (String × Expr)} (h : Known g known) (e : Expr)
    (text : String) : Known (Session.evaluate e text g).engine known := by
  rwa [Known, settings_evaluate]

/-- Rolls of which some expressions have been read before are rolls in turn. -/
theorem rollKnown_eq {known : List (String × Expr)} {texts : List String} (h : Known g known) :
    rollKnown known texts g = (inTurn (texts.map roll) g).since known := by
  induction texts generalizing known g with
  | nil => rfl
  | cons text texts ih =>
    rw [rollKnown, List.map_cons, inTurn]
    cases hlookup : known.lookup text with
    | some e =>
      obtain ⟨hmem, hread⟩ := h.of_lookup hlookup
      rw [bind_of_preceded (roll_eq_evaluate hread), Outcome.since_preceded_of_mem hmem]
      exact evaluate_since (ih (h.evaluate e text))
    | none =>
      dsimp only
      cases hread : Expr.parse g.settings.limits text with
      | error err =>
        rw [bind_of_fail (parse_eq_fail hread), bind_of_fail (roll_eq_fail hread)]
        rfl
      | ok e =>
        have hknown : Known g ((text, e) :: known) := List.forall_mem_cons.mpr ⟨hread, h⟩
        have hnew : (text, e) ∉ known := fun hmem => by
          simpa using List.lookup_eq_none_iff.mp hlookup _ hmem
        rw [bind_of_tell (parse_eq_tell hread), bind_of_preceded (roll_eq_evaluate hread),
          Outcome.since_preceded_of_notMem hnew]
        exact congrArg (Outcome.preceded · (.read text e))
          (evaluate_since (ih (hknown.evaluate e text)))

/-- A list of expressions is their rolls in turn. -/
theorem rollMany_eq (texts : List String) (g : Engine σ) :
    rollMany texts g = (inTurn (texts.map roll) g).once := rollKnown_eq (List.forall_mem_nil _)

end Session

/-! ## Two engines -/

/-- Two histories keep the same rolls and have tallied the same dice. -/
structure History.Alike (h h' : History) : Prop where
  capacity : h.capacity = h'.capacity
  rolls : h.entries.map Entry.roll = h'.entries.map Entry.roll
  total : h.total = h'.total
  tallies : h.tallies = h'.tallies

/-- Two engines differ at most in the names and times of their rolls. -/
structure Engine.Alike {σ : Type} (g g' : Engine σ) : Prop where
  settings : g.settings = g'.settings
  source : g.source = g'.source
  history : g.history.Alike g'.history

/-- Two sessions come out alike, as far as their answers are shown. -/
structure Outcome.Alike {σ α β : Type} (shown : α → β) (o o' : Outcome σ α) : Prop where
  result : o.result.map shown = o'.result.map shown
  engine : o.engine.Alike o'.engine
  events : o.events = o'.events

theorem History.Alike.record {h h' : History} (hh : h.Alike h') {entry entry' : Entry}
    (hroll : entry.roll = entry'.roll) : (h.record entry).Alike (h'.record entry') := by
  refine ⟨hh.capacity, ?_, congrArg (· + 1) hh.total, ?_⟩
  · show ((entry :: h.entries).take h.capacity).map Entry.roll = _
    rw [List.map_take, List.map_cons, hroll, hh.rolls, hh.capacity, ← List.map_cons, ← List.map_take]
    rfl
  · show tallyDice entry.roll.dice h.tallies = tallyDice entry'.roll.dice h'.tallies
    rw [hroll, hh.tallies]

theorem Outcome.Alike.isOk_eq {σ α β : Type} {shown : α → β} {o o' : Outcome σ α}
    (h : o.Alike shown o') : o.result.isOk = o'.result.isOk := by
  have hresult := h.result
  cases ho : o.result <;> cases ho' : o'.result <;> rw [ho, ho'] at hresult <;>
    first | rfl | cases hresult

theorem Outcome.Alike.noting {σ α β : Type} {shown : α → β} {o o' : Outcome σ α}
    (h : o.Alike shown o') (event : Event) : (o.noting event).Alike shown (o'.noting event) :=
  ⟨h.result, h.engine, congrArg (· ++ [event]) h.events⟩

theorem Outcome.Alike.preceded {σ α β : Type} {shown : α → β} {o o' : Outcome σ α}
    (h : o.Alike shown o') (event : Event) : (o.preceded event).Alike shown (o'.preceded event) :=
  ⟨h.result, h.engine, congrArg (event :: ·) h.events⟩

theorem Outcome.Alike.once {σ α β : Type} {shown : α → β} {o o' : Outcome σ α}
    (h : o.Alike shown o') : o.once.Alike shown o'.once :=
  ⟨h.result, h.engine, congrArg (Event.news []) h.events⟩

namespace Session

variable {σ α β γ δ : Type} {g g' : Engine σ}

theorem bind_alike {shown : α → β} {shown' : γ → δ} {s : Session σ α} {f f' : α → Session σ γ}
    (hs : (s g).Alike shown (s g'))
    (hf : ∀ a a', shown a = shown a' → ∀ g g' : Engine σ, g.Alike g' →
      (f a g).Alike shown' (f' a' g')) :
    (s.bind f g).Alike shown' (s.bind f' g') := by
  have hresult := hs.result
  cases h : (s g).result with
  | error e =>
    cases h' : (s g').result with
    | error e' =>
      rw [h, h'] at hresult
      obtain rfl := Except.error.inj hresult
      rw [bind_of_error h, bind_of_error h']
      exact ⟨rfl, hs.engine, hs.events⟩
    | ok a' =>
      rw [h, h'] at hresult
      cases hresult
  | ok a =>
    cases h' : (s g').result with
    | error e' =>
      rw [h, h'] at hresult
      cases hresult
    | ok a' =>
      rw [h, h'] at hresult
      obtain ⟨hresult, hengine, hevents⟩ := hf a a' (Except.ok.inj hresult) _ _ hs.engine
      rw [bind_of_ok h, bind_of_ok h']
      refine ⟨hresult, hengine, ?_⟩
      dsimp only
      rw [hs.events, hevents]

theorem inTurn_alike {shown : α → β} {ss : List (Session σ α)}
    (h : ∀ s ∈ ss, ∀ g g' : Engine σ, g.Alike g' → (s g).Alike shown (s g')) (hg : g.Alike g') :
    (inTurn ss g).Alike (List.map shown) (inTurn ss g') := by
  induction ss generalizing g g' with
  | nil => exact ⟨rfl, hg, rfl⟩
  | cons s ss ih =>
    obtain ⟨hfirst, hrest⟩ := List.forall_mem_cons.mp h
    refine bind_alike (hfirst g g' hg) fun a a' ha g g' hg => ?_
    refine bind_alike (ih hrest hg) fun as as' has g g' hg => ?_
    refine ⟨?_, hg, rfl⟩
    show Except.ok (shown a :: as.map shown) = Except.ok (shown a' :: as'.map shown)
    rw [ha, has]

variable [RandomSource σ]

theorem evaluate_alike (hg : g.Alike g') (e : Expr) (text : String) :
    (evaluate e text g).Alike Entry.roll (evaluate e text g') := by
  rw [evaluate, evaluate, hg.source]
  cases ((e.roll (some text)).run g'.source).outcome with
  | error err => exact ⟨rfl, ⟨hg.settings, rfl, hg.history⟩, rfl⟩
  | ok roll => exact ⟨rfl, ⟨hg.settings, rfl, hg.history.record rfl⟩, rfl⟩

theorem roll_alike (hg : g.Alike g') (text : String) :
    (roll text g).Alike Entry.roll (roll text g') := by
  cases h : Expr.parse g.settings.limits text with
  | error err =>
    have h' := h
    rw [hg.settings] at h'
    rw [roll_eq_fail h, roll_eq_fail h']
    exact ⟨rfl, hg, rfl⟩
  | ok e =>
    have h' := h
    rw [hg.settings] at h'
    rw [roll_eq_evaluate h, roll_eq_evaluate h']
    exact (evaluate_alike hg e text).preceded _

theorem rolls_alike (hg : g.Alike g') (texts : List String) :
    (inTurn (texts.map roll) g).Alike (List.map Entry.roll) (inTurn (texts.map roll) g') := by
  refine inTurn_alike (fun s hs g g' hg => ?_) hg
  obtain ⟨text, -, rfl⟩ := List.mem_map.mp hs
  exact roll_alike hg text

end Session

/-! ## Batches -/

open Session

/-- **A batch is its rolls made one at a time.** It has the same rolls in the same order or the same
failure, and leaves the same source, history and log, but that it tells once of reading its
expression, where the first roll does. A batch that is cancelled when `k` rolls have been made is
`min n k` of them, and tells so if it was cut short; one that is cancelled before its first roll has
read its expression by then, or has failed to. Rolls of several expressions are rolls of each in
turn, of which each expression is read once. -/
theorem batch_is_its_rolls {σ : Type} [RandomSource σ] {g g' : Engine σ} (hg : g.Alike g') :
    (∀ (text : String) (n : Int), 1 ≤ n → n ≤ g.settings.maxBatchSize →
      (rollBatch text n never g).Alike (List.map Entry.roll)
        (inTurn (List.replicate n.toNat (roll text)) g').once ∧
      ∀ cancelled : Answers,
        (∀ k : Nat, 0 < k → (∀ i < k, cancelled i = false) → cancelled k = true →
          let rolled := inTurn (List.replicate (min n.toNat k) (roll text)) g'
          (rollBatch text n cancelled g).Alike (List.map Entry.roll)
            (if k < n.toNat ∧ rolled.result.isOk
              then rolled.noting (.batchCancelled text k n.toNat) else rolled).once) ∧
        (cancelled 0 = true → ∀ e, Expr.parse g.settings.limits text = .ok e →
          rollBatch text n cancelled g =
            ⟨.ok [], g, [.read text e, .batchCancelled text 0 n.toNat]⟩) ∧
        ∀ err, Expr.parse g.settings.limits text = .error err →
          rollBatch text n cancelled g = fail (.unreadable err) g) ∧
    ∀ texts : List String,
      (Session.rollMany texts g).Alike (List.map Entry.roll)
        (inTurn (texts.map roll) g').once := by
  have hrolls : ∀ (text : String) (n : Nat), (inTurn (List.replicate n (roll text)) g).Alike
      (List.map Entry.roll) (inTurn (List.replicate n (roll text)) g') := by
    intro text n
    rw [← List.map_replicate]
    exact rolls_alike hg _
  refine ⟨fun text n hn hmax => ⟨?_, fun cancelled => ⟨fun k hk hgo hstop => ?_,
    fun hstop e hread => rollBatch_cancelled_at_once hn hmax hstop hread,
    fun err hread => rollBatch_eq_fail ⟨by omega, hmax⟩ hread cancelled⟩⟩, fun texts => ?_⟩
  · rw [rollBatch_eq hn hmax]
    exact (hrolls text _).once
  · have hrolled := hrolls text (min n.toNat k)
    rw [rollBatch_cancelled hn hmax hk hgo hstop]
    dsimp only
    rw [hrolled.isOk_eq]
    split
    · exact (hrolled.noting _).once
    · exact hrolled.once
  · rw [rollMany_eq]
    exact (rolls_alike hg texts).once

/-- An engine with faces for two pools, which gives all its rolls one name and one time. -/
def desk (id : String) (year : Nat) : Engine Replay where
  settings := {}
  source := Replay.ofList [.int 5, .int 2, .int 6, .int 3]
  history := History.empty 1000 (by decide)
  stamps _ := ⟨id, ⟨year, 1, 1, 0, 0, 0, 0, some 0⟩⟩

theorem read_pool (id : String) (year : Nat) :
    Expr.parse (desk id year).settings.limits "2d6" = .ok (.dice ⟨2, 6, []⟩ ⟨0, 3⟩) := parse_pool

/-- Two rolls of a pool on a desk tell twice that they read it. -/
theorem pools_in_turn (id : String) (year : Nat) :
    (inTurn [roll "2d6", roll "2d6"] (desk id year)).result.map (List.map fun e => e.roll.total) =
        .ok [7, 9] ∧
      (inTurn [roll "2d6", roll "2d6"] (desk id year)).events =
        [.read "2d6" (.dice ⟨2, 6, []⟩ ⟨0, 3⟩), .evaluated "2d6" 7,
          .read "2d6" (.dice ⟨2, 6, []⟩ ⟨0, 3⟩), .evaluated "2d6" 9] := by
  have hread := read_pool id year
  have hagain : Expr.parse (evaluate (.dice ⟨2, 6, []⟩ ⟨0, 3⟩) "2d6"
      (desk id year)).engine.settings.limits "2d6" = .ok (.dice ⟨2, 6, []⟩ ⟨0, 3⟩) := by
    rwa [settings_evaluate]
  refine ⟨?_, ?_⟩
  · have hrolled := congrArg (·.result) (inTurn_evaluate 2 hread)
    exact (congrArg (Except.map _) hrolled).symm.trans rfl
  · rw [inTurn, bind_of_preceded (roll_eq_evaluate hread), bind_of_ok rfl, inTurn]
    simp only [Session.bind, roll_eq_evaluate hagain]
    rfl

/-- Two pools in a batch, one in a batch that is then cancelled, none in one that is cancelled at
once, and two in a list. -/
theorem pools_at_once_are_pools_in_turn :
    (inTurn [roll "2d6", roll "2d6"] (desk "b" 2025)).result.map (List.map fun e => e.roll.total) =
        .ok [7, 9] ∧
      (rollBatch "2d6" 2 never (desk "a" 2024)).Alike (List.map Entry.roll)
        (inTurn [roll "2d6", roll "2d6"] (desk "b" 2025)).once ∧
      (rollBatch "2d6" 2 (fun asked => 1 ≤ asked) (desk "a" 2024)).Alike (List.map Entry.roll)
        ((inTurn [roll "2d6"] (desk "b" 2025)).noting (.batchCancelled "2d6" 1 2)).once ∧
      rollBatch "2d6" 2 (fun _ => true) (desk "a" 2024) =
        ⟨.ok [], desk "a" 2024,
          [.read "2d6" (.dice ⟨2, 6, []⟩ ⟨0, 3⟩), .batchCancelled "2d6" 0 2]⟩ ∧
      (Session.rollMany ["2d6", "2d6"] (desk "a" 2024)).Alike (List.map Entry.roll)
        (inTurn [roll "2d6", roll "2d6"] (desk "b" 2025)).once := by
  have hdesks : (desk "a" 2024).Alike (desk "b" 2025) := ⟨rfl, rfl, rfl, rfl, rfl, rfl⟩
  obtain ⟨hbatch, hmany⟩ := batch_is_its_rolls hdesks
  obtain ⟨hwhole, hcancelled⟩ := hbatch "2d6" 2 (by decide) (by decide)
  have hone : (inTurn [roll "2d6"] (desk "b" 2025)).result.isOk = true := by
    have hrolled := congrArg (·.result.isOk) (inTurn_evaluate 1 (read_pool "b" 2025))
    exact hrolled.symm.trans rfl
  have hcut := (hcancelled fun asked => 1 ≤ asked).1 1 Nat.one_pos (by decide) (by decide)
  dsimp only at hcut
  rw [if_pos ⟨by decide, hone⟩] at hcut
  exact ⟨(pools_in_turn "b" 2025).1, hwhole, hcut,
    (hcancelled fun _ => true).2.1 rfl _ (read_pool "a" 2024), hmany _⟩

theorem scan_cut : Token.scan "2d" =
    .ok [⟨.integer, ['2'], 0⟩, ⟨.die, ['d'], 1⟩, Token.ending 2] :=
  Token.scan_dice ['2'] [] (by simp) (by simp)

/-- The log of a batch is not that of its rolls, which read their expression each time; and a batch
of what cannot be read fails even if it is cancelled before its first roll. -/
theorem batch_reads_once_and_first :
    (¬ ∀ (g : Engine Replay) (text : String) (n : Int), 1 ≤ n → n ≤ g.settings.maxBatchSize →
      (rollBatch text n never g).events =
        (inTurn (List.replicate n.toNat (roll text)) g).events) ∧
    ¬ ∀ (g : Engine Replay) (text : String) (n : Int) (cancelled : Answers) (k : Nat), 1 ≤ n →
      n ≤ g.settings.maxBatchSize → (∀ i < k, cancelled i = false) → cancelled k = true →
        (rollBatch text n cancelled g).result.map (List.map Entry.roll) =
          (inTurn (List.replicate (min n.toNat k) (roll text)) g).result.map
            (List.map Entry.roll) := by
  refine ⟨fun h => ?_, fun h => ?_⟩
  · have hevents := h (desk "a" 2024) "2d6" 2 (by decide) (by decide)
    have hrolls := (pools_in_turn "a" 2024).2
    rw [rollBatch_eq (by decide) (by decide)] at hevents
    change Event.news [] (inTurn [roll "2d6", roll "2d6"] (desk "a" 2024)).events =
      (inTurn [roll "2d6", roll "2d6"] (desk "a" 2024)).events at hevents
    -- the second reading is told by the rolls only
    rw [hrolls, Event.news_read_of_notMem List.not_mem_nil] at hevents
    simp [Event.news, Event.reading?] at hevents
  · obtain ⟨err, hread⟩ : ∃ err, Expr.parse (desk "a" 2024).settings.limits "2d" = .error err := by
      rw [Expr.parse, scan_cut]
      exact ⟨_, rfl⟩
    have hresult := h (desk "a" 2024) "2d" 5 (fun _ => true) 0 (by decide) (by decide) (by decide)
      rfl
    rw [rollBatch_eq_fail (by decide) hread] at hresult
    cases hresult

end Dicebox
