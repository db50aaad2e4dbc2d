import Dicebox.Proofs.Stored

/-! # Loading normalises

A stored roll is read with leniency: a number may stand as text, a truth value as a number, a field
that has a usual value may be left out. What is read has none of that left. Its dice show their own
faces, its time is exact, and its total follows from its terms, so that it may be stored; and what is
stored then is read as the same roll again.

- `Die.ReadFrom`, `DiceResult.ReadFrom`, `Entry.ReadFrom`: what the fields of a record said.
- `TermResult.bounded_of_ofData`, `Entry.bounded_of_load`: what is read may be stored.
- `loading_normalises_once`: a stored roll.
-/

namespace Dicebox

/-! ## Dice -/

/-- A die that was read says what the fields of a record said. -/
structure Die.ReadFrom (reader : ValueReader) (data : Data) (d : Die) : Prop where
  value : data.readField "value" (fun v => (reader.int v).andThen (atLeast 1)) =
    (.good d.value : Stored Int)
  term : data.readFieldOr "term_index" 0 (fun v => (reader.int v).andThen (atLeast 0)) =
    (.good d.term : Stored Int)
  kept : data.readFieldOr "kept" true reader.bool = (.good d.kept : Stored Bool)
  fits : d.value ≤ d.sides

variable {reader : ValueReader} {data : Data}

theorem Die.readFrom_of_ofData {d : Die} (h : ofData reader data = .good d) :
    d.ReadFrom reader data := by
  cases data with
  | record fields =>
    obtain ⟨d', hfields, hfitting⟩ := Checked.andThen_eq_good.mp h
    obtain ⟨rfl, hfits⟩ : d' = d ∧ d'.value ≤ d'.sides := by
      rw [fitting] at hfitting
      split at hfitting
      · exact ⟨Checked.good.inj hfitting, ‹_›⟩
      · cases hfitting
    -- the first, the third and the fourth of nine fields
    obtain ⟨_, _, h₈, _, rfl⟩ := Checked.seq_eq_good.mp hfields
    obtain ⟨_, _, h₇, _, rfl⟩ := Checked.seq_eq_good.mp h₈
    obtain ⟨_, _, h₆, _, rfl⟩ := Checked.seq_eq_good.mp h₇
    obtain ⟨_, _, h₅, _, rfl⟩ := Checked.seq_eq_good.mp h₆
    obtain ⟨_, _, h₄, _, rfl⟩ := Checked.seq_eq_good.mp h₅
    obtain ⟨_, _, h₃, hkept, rfl⟩ := Checked.seq_eq_good.mp h₄
    obtain ⟨_, _, h₂, hterm, rfl⟩ := Checked.seq_eq_good.mp h₃
    obtain ⟨_, _, h₁, _, rfl⟩ := Checked.seq_eq_good.mp h₂
    obtain ⟨_, hvalue, rfl⟩ := Checked.map_eq_good.mp h₁
    exact ⟨hvalue, hterm, hkept, hfits⟩
  | _ => cases h

theorem Die.bounded_of_ofData {d : Die} (h : ofData reader data = .good d) : d.Bounded := by
  obtain ⟨hvalue, hterm, -, hfits⟩ := readFrom_of_ofData h
  obtain ⟨v, hv⟩ := exists_of_readField hvalue
  refine ⟨⟨le_of_andThen_atLeast hv, hfits⟩, ?_⟩
  rcases exists_of_readFieldOr hterm with hzero | ⟨v, hv⟩
  · rw [← hzero]
  · exact le_of_andThen_atLeast hv

/-! ## Terms -/

/-- The dice of a term that was read say what the fields of a record said. -/
structure DiceResult.ReadFrom (reader : ValueReader) (data : Data) (r : DiceResult) : Prop where
  count : data.readField "count" (fun v => (reader.int v).andThen (atLeast 1)) =
    (.good r.count : Stored Int)
  sides : data.readField "sides" (fun v => (reader.int v).andThen (atLeast 1)) =
    (.good r.sides : Stored Int)
  subtotal : data.readField "subtotal" reader.int = (.good r.subtotal : Stored Int)
  scoring : data.readFieldOr "scoring" .sum Scoring.ofData = .good r.scoring
  dice : data.readField "dice" (Data.readList (Die.ofData reader)) = .good r.dice

theorem DiceResult.readFrom_of_ofFields {r : DiceResult} (h : ofFields reader data = .good r) :
    r.ReadFrom reader data := by
  obtain ⟨_, _, h₅, hdice, rfl⟩ := Checked.seq_eq_good.mp h
  obtain ⟨_, _, h₄, hscoring, rfl⟩ := Checked.seq_eq_good.mp h₅
  obtain ⟨_, _, h₃, hsubtotal, rfl⟩ := Checked.seq_eq_good.mp h₄
  obtain ⟨_, _, h₂, hsides, rfl⟩ := Checked.seq_eq_good.mp h₃
  obtain ⟨_, _, h₁, hcount, rfl⟩ := Checked.seq_eq_good.mp h₂
  obtain ⟨_, _, rfl⟩ := Checked.map_eq_good.mp h₁
  exact ⟨hcount, hsides, hsubtotal, hscoring, hdice⟩

theorem DiceResult.bounded_of_ofFields {r : DiceResult} (h : ofFields reader data = .good r) :
    r.Bounded := by
  obtain ⟨hcount, hsides, -, -, hdice⟩ := readFrom_of_ofFields h
  obtain ⟨count, hcount⟩ := exists_of_readField hcount
  obtain ⟨sides, hsides⟩ := exists_of_readField hsides
  obtain ⟨items, hitems⟩ := exists_of_readField hdice
  refine ⟨le_of_andThen_atLeast hcount, le_of_andThen_atLeast hsides, fun d hd => ?_⟩
  obtain ⟨v, hv⟩ := exists_of_readList hitems d hd
  exact Die.bounded_of_ofData hv

theorem TermResult.bounded_of_ofData {t : TermResult} (h : ofData reader data = .good t) :
    t.Bounded := by
  cases data with
  | record fields =>
    rw [ofData] at h
    split at h
    · cases h
    · obtain ⟨r, hr, rfl⟩ := Checked.map_eq_good.mp (Checked.under_eq_good.mp h)
      exact DiceResult.bounded_of_ofFields hr
    · obtain ⟨v, -, rfl⟩ := Checked.map_eq_good.mp (Checked.under_eq_good.mp h)
      trivial
    · cases h
  | _ => cases h

/-! ## Entries -/

/-- An entry that was read says what the fields of a record said, and its total follows from its
terms. -/
structure Entry.ReadFrom (reader : ValueReader) (data : Data) (entry : Entry) : Prop where
  canonical : data.readField "notation" reader.text =
    (.good entry.roll.canonical : Stored String)
  total : data.readField "total" reader.int = (.good entry.roll.total : Stored Int)
  time : data.readField "timestamp" reader.time = (.good entry.stamp.time : Stored Timestamp)
  terms : data.readField "terms" (Data.readList (TermResult.ofData reader)) = .good entry.roll.terms
  audit : entry.roll.recompute = .ok entry.roll.total

theorem Entry.readFrom_of_load {entry : Entry} (h : load reader data = .good entry) :
    entry.ReadFrom reader data := by
  cases data with
  | record fields =>
    obtain ⟨entry', hfields, hconsistent⟩ := Checked.andThen_eq_good.mp h
    obtain ⟨rfl, haudit⟩ : entry' = entry ∧ entry'.roll.recompute = .ok entry'.roll.total := by
      rw [consistent] at hconsistent
      split at hconsistent
      · cases hconsistent
      · next total hrecompute =>
        split at hconsistent
        · next hsame =>
          rw [← hsame]
          exact ⟨Checked.good.inj hconsistent, hrecompute⟩
        · cases hconsistent
    obtain ⟨_, _, h₅, hterms, rfl⟩ := Checked.seq_eq_good.mp hfields
    obtain ⟨_, _, h₄, htime, rfl⟩ := Checked.seq_eq_good.mp h₅
    obtain ⟨_, _, h₃, htotal, rfl⟩ := Checked.seq_eq_good.mp h₄
    obtain ⟨_, _, h₂, hcanonical, rfl⟩ := Checked.seq_eq_good.mp h₃
    obtain ⟨_, _, h₁, _, rfl⟩ := Checked.seq_eq_good.mp h₂
    obtain ⟨_, _, rfl⟩ := Checked.map_eq_good.mp h₁
    exact ⟨hcanonical, htotal, htime, hterms, haudit⟩
  | _ => cases h

theorem Entry.bounded_of_load {entry : Entry} (h : load reader data = .good entry) :
    ∀ t ∈ entry.roll.terms, t.Bounded := by
  obtain ⟨items, hitems⟩ := exists_of_readField (readFrom_of_load h).terms
  intro t ht
  obtain ⟨v, hv⟩ := exists_of_readList hitems t ht
  exact TermResult.bounded_of_ofData hv

theorem Roll.bounded_dice {r : Roll} (h : ∀ t ∈ r.terms, t.Bounded) : ∀ d ∈ r.dice, d.Bounded := by
  intro d hd
  obtain ⟨result, hresult, hd⟩ := List.mem_flatMap.mp hd
  obtain ⟨t, ht, hdice⟩ := List.mem_filterMap.mp hresult
  cases t with
  | constant v => cases hdice
  | dice r =>
    obtain rfl := Option.some.inj hdice
    exact (h _ ht).dice d hd

/-- **Loading normalises once.** What is read from stored data, however that is spelled, may be
stored; the new stored form is read as the same entry with the same name and time, and is what that
entry is stored as again. The total of the entry follows from its terms, and each of its dice shows a
face of its own and has a place. -/
theorem loading_normalises_once (hreader : reader.Lawful) {entry : Entry}
    (h : Entry.load reader data = .good entry) :
    ∃ stored, (Entry.load reader data).andThen Entry.dump = .good stored ∧
      Entry.load reader stored = Entry.load reader data ∧
        (Entry.load reader stored).andThen Entry.dump = .good stored ∧
          entry.roll.recompute = .ok entry.roll.total ∧
            ∀ d ∈ entry.roll.dice, (1 ≤ d.value ∧ d.value ≤ d.sides) ∧ 0 ≤ d.term := by
  have hbounded := Entry.bounded_of_load h
  obtain ⟨-, -, htime, -, haudit⟩ := Entry.readFrom_of_load h
  obtain ⟨v, hv⟩ := exists_of_readField htime
  obtain ⟨hexact, hyear⟩ := hreader.exact_of_time hv
  have hdump := Entry.dump_of_bounded hbounded haudit
  have hload := Entry.load_of_bounded hreader hbounded haudit hexact hyear
  refine ⟨entry.toData, ?_, hload.trans h.symm, ?_, haudit, fun d hd => ?_⟩
  · rw [h]
    exact hdump
  · rw [hload]
    exact hdump
  · obtain ⟨hface, hterm⟩ := Roll.bounded_dice hbounded d hd
    exact ⟨hface, hterm⟩

/-- Two dice that show 5 and 2, stored with texts and truth values in the place of numbers, with a
field that is not known and without those that have a usual value. -/
def loosePool : Data :=
  .record [("roll_id", .text "a"), ("expression", .text "2d6"), ("notation", .text "2d6"),
    ("total", .text " 7.0 "), ("timestamp", .int 1709251199), ("comment", .null),
    ("terms", .list [.record [("kind", .text "dice"), ("notation", .text "2d6"),
      ("count", .text "02"), ("sides", .int 6), ("subtotal", .int 7),
      ("dice", .list [.record [("value", .int 5), ("sides", .text "6"), ("kept", .int 1)],
        .record [("value", .text "2"), ("sides", .int 6), ("term_index", .bool false)]])]])]

theorem loose_pool_is_normalised :
    ∃ entry stored, Entry.load .lenient loosePool = .good entry ∧ entry.roll.total = 7 ∧
      entry.stamp = ⟨"a", ⟨2024, 2, 29, 23, 59, 59, 0, some 0⟩⟩ ∧
        (Entry.load .lenient loosePool).andThen Entry.dump = .good stored ∧
          Entry.load .lenient stored = Entry.load .lenient loosePool ∧
            (Entry.load .lenient stored).andThen Entry.dump = .good stored ∧
              ∀ d ∈ entry.roll.dice, (1 ≤ d.value ∧ d.value ≤ d.sides) ∧ 0 ≤ d.term := by
  let two : Die := { value := 2, sides := 6, term := 0 }
  let pool : DiceResult := ⟨"2d6", 2, 6, [{ two with value := 5 }, two], 7, .sum⟩
  let entry : Entry :=
    ⟨⟨"a", ⟨2024, 2, 29, 23, 59, 59, 0, some 0⟩⟩, ⟨"2d6", "2d6", 7, [.dice pool]⟩⟩
  have hrun : (((Expr.dice ⟨2, 6, []⟩ ⟨0, 3⟩).roll (some "2d6")).run
      (Replay.ofList [.int 5, .int 2])).outcome = .ok entry.roll := rfl
  have haudit := (storable_of_run (by decide) (by decide) parse_pool hrun).2
  have hfields : Entry.ofFields .lenient loosePool = .good entry := by rfl
  have hload : Entry.load .lenient loosePool = .good entry := by
    show (Entry.ofFields .lenient loosePool).andThen Entry.consistent = _
    rw [hfields]
    exact Entry.consistent_of_recompute haudit
  obtain ⟨stored, hstored, hagain, hsame, -, hdice⟩ := loading_normalises_once ValueReader.lenient_lawful hload
  exact ⟨entry, stored, hload, rfl, rfl, hstored, hagain, hsame, hdice⟩

end Dicebox
