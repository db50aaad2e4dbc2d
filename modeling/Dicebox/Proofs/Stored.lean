import Dicebox.Proofs.Audit
import Dicebox.Proofs.Checked
import Dicebox.Proofs.Readers
import Dicebox.Proofs.Table
import Dicebox.Stored

/-! # Stored rolls come back

A roll may be stored because its dice are within their bounds and its total passes the audit. What
is stored says everything about the roll, so reading it gives the same roll with the same name and
time.

- `Die.Bounded`, `DiceResult.Bounded`, `TermResult.Bounded`: what is asked of the parts of a roll.
- `Die.ofData_toData`, `TermResult.ofData_toData`: the parts come back.
- `Entry.dump_of_bounded`, `Entry.load_of_bounded`: an entry.
- `stored_roll_comes_back`: an evaluated text.
-/

namespace Dicebox

/-! ## Single values -/

theorem atLeast_of_le {ρ : Type} {low n : Int} (h : low ≤ n) :
    (atLeast low n : Checked ρ Int) = .good n := if_pos h

namespace ValueReader.Lawful

variable {reader : ValueReader} (h : reader.Lawful)

include h

theorem atLeast_int {ρ : Type} {low n : Int} (hn : low ≤ n) :
    (reader.int (.int n)).andThen (atLeast low) = (.good n : Checked ρ Int) := by
  rw [h.int_int]
  exact atLeast_of_le hn

theorem readList_int {ρ : Type} (ns : List Int) :
    Data.readList reader.int (.list (ns.map .int)) = (.good ns : Checked ρ (List Int)) :=
  readList_map fun n _ => h.int_int n

end ValueReader.Lawful

/-! ## Dice -/

namespace Die

variable {sides term : Int} {d : Die}

/-- A die that shows one of its faces, at a place. -/
structure Bounded (d : Die) : Prop where
  face : OnDie d.sides d.value
  term : 0 ≤ d.term

theorem Proper.bounded (h : d.Proper sides term) (hterm : 0 ≤ term) : d.Bounded := by
  refine ⟨?_, ?_⟩
  · rw [h.sides_eq]
    exact h.face
  · rw [h.term_eq]
    exact hterm

theorem fitting_of_bounded (h : d.Bounded) : d.fitting = .good d := if_pos h.face.2

theorem sound_of_bounded (h : d.Bounded) : d.sound = .good d := by
  rw [sound, atLeast_of_le h.face.1, atLeast_of_le (h.face.1.trans h.face.2), atLeast_of_le h.term]
  exact fitting_of_bounded h

theorem ofData_toData {reader : ValueReader} (hreader : reader.Lawful)
    (h : d.Bounded) : ofData reader d.toData = .good d := by
  have hfields : ofFields reader d.toData = .good d := by
    rw [ofFields, (readField_eq_good (a := d.value) rfl).mpr (hreader.atLeast_int h.face.1),
      (readField_eq_good (a := d.sides) rfl).mpr
        (hreader.atLeast_int (h.face.1.trans h.face.2)),
      (readFieldOr_eq_good (a := d.term) rfl).mpr (hreader.atLeast_int h.term),
      (readFieldOr_eq_good (a := d.kept) rfl).mpr (hreader.bool_bool _),
      (readFieldOr_eq_good (a := d.exploded) rfl).mpr (hreader.bool_bool _),
      (readFieldOr_eq_good (a := d.rerolled) rfl).mpr (hreader.bool_bool _),
      (readFieldOr_eq_good (a := d.fromExplosion) rfl).mpr (hreader.bool_bool _),
      (readFieldOr_eq_good (a := d.explosionCapped) rfl).mpr (hreader.bool_bool _),
      (readFieldOr_eq_good (a := d.rerolledFrom) rfl).mpr (hreader.readList_int _)]
    rfl
  show (ofFields reader d.toData).andThen fitting = _
  rw [hfields]
  exact fitting_of_bounded h

end Die

/-! ## Terms -/

theorem Scoring.ofData_name (s : Scoring) : ofData (.text s.name) = .good s := by
  cases s <;> rfl

namespace DiceResult

variable {r : DiceResult}

/-- A term of at least one die of at least one side, with dice that show their own faces. -/
structure Bounded (r : DiceResult) : Prop where
  count : 1 ≤ r.count
  sides : 1 ≤ r.sides
  dice : ∀ d ∈ r.dice, d.Bounded

theorem Proper.bounded {term : Int} (h : r.Proper term) (hterm : 0 ≤ term) : r.Bounded :=
  ⟨h.count, h.sides, fun d hd => (h.dice d hd).bounded hterm⟩

theorem soundDice_of_bounded {dice : List Die} (h : ∀ d ∈ dice, d.Bounded) :
    sound.soundDice dice = .good dice := by
  induction dice with
  | nil => rfl
  | cons d dice ih =>
    obtain ⟨hd, hdice⟩ := List.forall_mem_cons.mp h
    rw [sound.soundDice, Die.sound_of_bounded hd, Checked.andThen_good, ih hdice]
    rfl

theorem sound_of_bounded (h : r.Bounded) : r.sound = .good r := by
  rw [sound, soundDice_of_bounded h.dice, Checked.andThen_good, atLeast_of_le h.count,
    atLeast_of_le h.sides]
  rfl

theorem ofFields_toData {reader : ValueReader} (hreader : reader.Lawful)
    (h : r.Bounded) : ofFields reader r.toData = .good r := by
  have hdice : Data.readList (Die.ofData reader) (.list (r.dice.map Die.toData)) = .good r.dice :=
    readList_map fun d hd => Die.ofData_toData hreader (h.dice d hd)
  rw [ofFields, (readField_eq_good (a := r.canonical) rfl).mpr (hreader.text_text _),
    (readField_eq_good (a := r.count) rfl).mpr (hreader.atLeast_int h.count),
    (readField_eq_good (a := r.sides) rfl).mpr (hreader.atLeast_int h.sides),
    (readField_eq_good (a := r.subtotal) rfl).mpr (hreader.int_int _),
    (readFieldOr_eq_good (a := r.scoring) rfl).mpr (Scoring.ofData_name _),
    (readField_eq_good (a := r.dice) rfl).mpr hdice]
  rfl

end DiceResult

namespace TermResult

variable {t : TermResult}

/-- A constant, or dice within their bounds. -/
def Bounded : TermResult → Prop
  | constant _ => True
  | dice r => r.Bounded

theorem Proper.bounded (h : t.Proper) : t.Bounded := by
  cases t with
  | constant v => trivial
  | dice r =>
    obtain ⟨term, hterm, hr⟩ := h
    exact hr.bounded hterm

theorem sound_of_bounded (h : t.Bounded) : t.sound = .good t := by
  cases t with
  | constant v => rfl
  | dice r =>
    rw [sound, DiceResult.sound_of_bounded h]
    rfl

theorem ofData_toData {reader : ValueReader} (hreader : reader.Lawful)
    (h : t.Bounded) : ofData reader t.toData = .good t := by
  cases t with
  | constant v =>
    show ((Data.readField "value" reader.int (constant v).toData).map constant).under "constant" = _
    rw [(readField_eq_good (a := v) rfl).mpr (hreader.int_int v)]
    rfl
  | dice r =>
    show ((DiceResult.ofFields reader r.toData).map dice).under "dice" = _
    rw [DiceResult.ofFields_toData hreader h]
    rfl

end TermResult

/-! ## Entries -/

namespace Entry

variable {e : Entry}

theorem soundTerms_of_bounded {terms : List TermResult} (h : ∀ t ∈ terms, t.Bounded) :
    soundTerms terms = .good terms := by
  induction terms with
  | nil => rfl
  | cons t terms ih =>
    obtain ⟨ht, hterms⟩ := List.forall_mem_cons.mp h
    rw [soundTerms, TermResult.sound_of_bounded ht, Checked.andThen_good, ih hterms]
    rfl

theorem consistent_of_recompute (h : e.roll.recompute = .ok e.roll.total) :
    e.consistent = .good e := by
  rw [consistent, h]
  exact if_pos rfl

theorem dump_of_bounded (hterms : ∀ t ∈ e.roll.terms, t.Bounded)
    (haudit : e.roll.recompute = .ok e.roll.total) : e.dump = .good e.toData := by
  rw [dump, soundTerms_of_bounded hterms, Checked.andThen_good, consistent_of_recompute haudit]
  rfl

theorem dump_of_proper (hterms : ∀ t ∈ e.roll.terms, t.Proper)
    (haudit : e.roll.recompute = .ok e.roll.total) : e.dump = .good e.toData :=
  dump_of_bounded (fun t ht => (hterms t ht).bounded) haudit

theorem load_of_bounded {reader : ValueReader} (hreader : reader.Lawful)
    (hterms : ∀ t ∈ e.roll.terms, t.Bounded)
    (haudit : e.roll.recompute = .ok e.roll.total) (htime : e.stamp.time.Exact)
    (hyear : 1 ≤ e.stamp.time.year) : load reader e.toData = .good e := by
  have hlist : Data.readList (TermResult.ofData reader)
      (.list (e.roll.terms.map TermResult.toData)) = .good e.roll.terms :=
    readList_map fun t ht => TermResult.ofData_toData hreader (hterms t ht)
  have hfields : ofFields reader e.toData = .good e := by
    rw [ofFields, (readField_eq_good (a := e.stamp.id) rfl).mpr (hreader.text_text _),
      (readField_eq_good (a := e.roll.expression) rfl).mpr (hreader.text_text _),
      (readField_eq_good (a := e.roll.canonical) rfl).mpr (hreader.text_text _),
      (readField_eq_good (a := e.roll.total) rfl).mpr (hreader.int_int _),
      (readField_eq_good (a := e.stamp.time) rfl).mpr (hreader.time_write htime hyear),
      (readField_eq_good (a := e.roll.terms) rfl).mpr hlist]
    rfl
  show (ofFields reader e.toData).andThen consistent = _
  rw [hfields]
  exact consistent_of_recompute haudit

theorem load_of_proper {reader : ValueReader} (hreader : reader.Lawful)
    (hterms : ∀ t ∈ e.roll.terms, t.Proper)
    (haudit : e.roll.recompute = .ok e.roll.total) (hvalid : e.stamp.time.valid = true)
    (hyear : 1 ≤ e.stamp.time.year) (hutc : e.stamp.time.offset = some 0) :
    load reader e.toData = .good e := by
  have htime : e.stamp.time.Exact := ⟨hvalid, by
    rw [hutc]
    exact Timestamp.inMinutes_zero⟩
  exact load_of_bounded hreader (fun t ht => (hterms t ht).bounded) haudit htime hyear

end Entry

theorem throwable_of_parse {limits : Limits} {text : String} {e : Expr}
    (hdice : limits.maxDice ≤ 2 ^ 63 - 1) (hsides : limits.maxSides ≤ 2 ^ 63 - 1)
    (hparse : Expr.parse limits text = .ok e) : e.Throwable := by
  obtain ⟨again, hbare, hfits, -⟩ := exists_fits_audit hdice hsides hparse
  rw [← Expr.throwable_bare, ← hbare, Expr.throwable_bare]
  exact hfits.throwable

/-- What is rolled for a text that was read is within its bounds and passes its audit. -/
theorem storable_of_run {σ : Type} [RandomSource σ] {limits : Limits} {text : String} {e : Expr}
    (hdice : limits.maxDice ≤ 2 ^ 63 - 1) (hsides : limits.maxSides ≤ 2 ^ 63 - 1)
    (hparse : Expr.parse limits text = .ok e) {shown : Option String} {source : σ} {r : Roll}
    (hrun : ((e.roll shown).run source).outcome = .ok r) :
    (∀ t ∈ r.terms, t.Proper) ∧ r.recompute = .ok r.total := by
  obtain ⟨e', hread, hfold⟩ := refold_of_run hdice hsides hparse hrun
  have hthrowable := throwable_of_parse hdice hsides hparse
  exact ⟨Rolling.Ensures.of_run (Expr.roll_ensures_proper hthrowable shown) hrun,
    recompute_of_refold hread hfold⟩

/-- **A rolled text is stored, and comes back as it was**: its dice, its total and all else that it
says of itself, with its name and the time it was made, if values are read by a library that can be
relied on. -/
theorem stored_roll_comes_back {reader : ValueReader} (hreader : reader.Lawful) {σ : Type}
    [RandomSource σ] {limits : Limits} {text : String} {e : Expr}
    (hdice : limits.maxDice ≤ 2 ^ 63 - 1) (hsides : limits.maxSides ≤ 2 ^ 63 - 1)
    (hparse : Expr.parse limits text = .ok e) {source : σ} {r : Roll}
    (hrun : ((e.roll (some text)).run source).outcome = .ok r) (id : String) {time : Timestamp}
    (hvalid : time.valid = true) (hyear : 1 ≤ time.year) (hutc : time.offset = some 0) :
    ∃ data, Entry.dump ⟨⟨id, time⟩, r⟩ = .good data ∧
      Entry.load reader data = .good ⟨⟨id, time⟩, r⟩ := by
  obtain ⟨hterms, haudit⟩ := storable_of_run hdice hsides hparse hrun
  let entry : Entry := ⟨⟨id, time⟩, r⟩
  exact ⟨entry.toData, Entry.dump_of_proper hterms haudit,
    Entry.load_of_proper hreader hterms haudit hvalid hyear hutc⟩

/-- Two dice that show 5 and 2 come back from storage. -/
theorem replayed_pool_comes_back :
    ∃ e r, Expr.parse {} "2d6" = .ok e ∧
      ((e.roll (some "2d6")).run (Replay.ofList [.int 5, .int 2])).outcome = .ok r ∧ r.total = 7 ∧
        ∃ data, Entry.dump ⟨⟨"a", ⟨2024, 2, 29, 23, 59, 59, 120000, some 0⟩⟩, r⟩ = .good data ∧
          Entry.load .lenient data = .good ⟨⟨"a", ⟨2024, 2, 29, 23, 59, 59, 120000, some 0⟩⟩, r⟩ := by
  obtain ⟨r, hrun, htotal⟩ := run_pool
  exact ⟨_, r, parse_pool, hrun, htotal,
    stored_roll_comes_back ValueReader.lenient_lawful (by decide) (by decide) parse_pool hrun "a"
      (by decide) (by decide) rfl⟩

end Dicebox
