import Dicebox.Proofs.Breakdown
import Dicebox.Proofs.Loading

/-! # Tampering with a stored roll

The stored form of a roll is plain data, and whoever has it may change it. Every number that goes
into the total is held by something else: the total by the subtotals and constants, the constants and
the scoring by the notation, a subtotal by its dice, and the terms as a whole by the leaves of the
notation. So a change of one of them is found out when the roll is read back, and so is a term that
is missing or one too many.

- `Edit`: a change of the stored form, with `DieEdit` and `TermEdit` for its parts.
- `Edit.Alters`: a change of something that feeds the total.
- `TermEdit.not_bearsOut`: a changed term does not agree with its leaf.
- `Edit.load_ne_good`: a changed entry.
- `tampered_roll_is_refused`: an evaluated text.
-/

namespace Dicebox

/-! ## Changes of plain data -/

namespace Data

def onField (name : String) (f : Data → Data) : Data → Data
  | record fields => record (fields.map fun p => if p.1 = name then (p.1, f p.2) else p)
  | d => d

def onItems (f : List Data → List Data) : Data → Data
  | list items => list (f items)
  | d => d

end Data

/-! ## Edits -/

/-- A change of a stored die. -/
inductive DieEdit where
  | value (n : Int)
  | kept (b : Bool)

/-- A change of a stored term. -/
inductive TermEdit where
  | constant (n : Int)
  | subtotal (n : Int)
  | scoring (s : Scoring)
  | die (place : Nat) (edit : DieEdit)

/-- A change of a stored roll. -/
inductive Edit where
  | total (n : Int)
  | term (place : Nat) (edit : TermEdit)
  | delete (place : Nat)
  | append (item : Data)

def DieEdit.apply : DieEdit → Data → Data
  | value n => Data.onField "value" fun _ => .int n
  | kept b => Data.onField "kept" fun _ => .bool b

def TermEdit.apply : TermEdit → Data → Data
  | constant n => Data.onField "value" fun _ => .int n
  | subtotal n => Data.onField "subtotal" fun _ => .int n
  | scoring s => Data.onField "scoring" fun _ => .text s.name
  | die place edit => Data.onField "dice" (Data.onItems (·.modify place edit.apply))

def Edit.apply : Edit → Data → Data
  | total n => Data.onField "total" fun _ => .int n
  | term place edit => Data.onField "terms" (Data.onItems (·.modify place edit.apply))
  | delete place => Data.onField "terms" (Data.onItems (·.eraseIdx place))
  | append item => Data.onField "terms" (Data.onItems (· ++ [item]))

/-- A change of what a die adds to a sum: of its face if it is kept, and of whether it is kept. -/
def DieEdit.Alters (d : Die) : DieEdit → Prop
  | value n => d.kept = true ∧ n ≠ d.value
  | kept b => b ≠ d.kept

/-- A change of what a term is made of. Its dice count one by one only where they are added up. -/
def TermEdit.Alters : TermResult → TermEdit → Prop
  | .constant v, constant n => n ≠ v
  | .dice r, subtotal n => n ≠ r.subtotal
  | .dice r, scoring s => s ≠ r.scoring
  | .dice r, die place edit => r.scoring = .sum ∧ ∃ d, r.dice[place]? = some d ∧ edit.Alters d
  | _, _ => False

/-- A change of the total or of what it follows from. -/
def Edit.Alters (r : Roll) : Edit → Prop
  | total n => n ≠ r.total
  | term place edit => ∃ t, r.terms[place]? = some t ∧ edit.Alters t
  | delete place => place < r.terms.length
  | append _ => True

/-! ## Dice -/

def Die.share (d : Die) : Int := if d.kept then d.value else 0

variable {reader : ValueReader} (hreader : reader.Lawful)

include hreader in
/-- What a die adds to a sum does not survive a change of it. -/
theorem DieEdit.share_ne {sides term : Int} {d d' : Die} {edit : DieEdit} (h : edit.Alters d)
    (hd : d.Proper sides term) (hread : Die.ofData reader (edit.apply d.toData) = .good d') :
    d'.share ≠ d.share := by
  have hpos : 1 ≤ d.value := hd.face.1
  obtain ⟨hvalue, -, hkept, -⟩ := Die.readFrom_of_ofData hread
  cases edit with
  | value n =>
    obtain ⟨hcounts, hne⟩ := h
    obtain ⟨m, hm, hbound⟩ :=
      Checked.andThen_eq_good.mp ((readField_eq_good (v := .int n) rfl).mp hvalue)
    obtain rfl : n = m := Checked.good.inj ((hreader.int_int n).symm.trans hm)
    obtain ⟨-, hn⟩ := atLeast_eq_good.mp hbound
    have hk : d.kept = d'.kept := Checked.good.inj
      ((hreader.bool_bool _).symm.trans ((readFieldOr_eq_good (v := .bool d.kept) rfl).mp hkept))
    rw [Die.share, Die.share, ← hk, hcounts, if_pos rfl, if_pos rfl, ← hn]
    exact hne
  | kept b =>
    have hne : b ≠ d.kept := h
    obtain ⟨m, hm, hbound⟩ :=
      Checked.andThen_eq_good.mp ((readField_eq_good (v := .int d.value) rfl).mp hvalue)
    obtain rfl : d.value = m := Checked.good.inj ((hreader.int_int _).symm.trans hm)
    obtain ⟨-, hv⟩ := atLeast_eq_good.mp hbound
    have hk : b = d'.kept := Checked.good.inj
      ((hreader.bool_bool _).symm.trans ((readFieldOr_eq_good (v := .bool b) rfl).mp hkept))
    rw [Die.share, Die.share, ← hv, ← hk]
    cases b with
    | true =>
      have hd : d.kept = false := by simpa using hne.symm
      rw [hd, if_pos rfl]
      show d.value ≠ 0
      omega
    | false =>
      have hd : d.kept = true := by simpa using hne.symm
      rw [hd, if_pos rfl]
      show 0 ≠ d.value
      omega

theorem sumOf_keptFaces_cons (d : Die) (dice : List Die) :
    sumOf (keptFaces (d :: dice)) = d.share + sumOf (keptFaces dice) := by
  cases hk : d.kept <;> simp [keptFaces, Die.share, hk]

theorem sumOf_keptFaces_set {dice : List Die} {d d' : Die} {place : Nat}
    (h : dice[place]? = some d) :
    sumOf (keptFaces (dice.set place d')) + d.share = sumOf (keptFaces dice) + d'.share := by
  induction dice generalizing place with
  | nil => cases h
  | cons d₀ dice ih =>
    cases place with
    | zero =>
      obtain rfl := Option.some.inj h
      rw [List.set_cons_zero, sumOf_keptFaces_cons, sumOf_keptFaces_cons]
      omega
    | succ place =>
      have hrest := ih h
      rw [List.set_cons_succ, sumOf_keptFaces_cons, sumOf_keptFaces_cons]
      omega

/-! ## Terms -/

theorem score_eq_sum {dice : List Die} {ms : List Modifier} {n : Int}
    (h : score dice ms = (n, .sum)) (dice' : List Die) :
    score dice' ms = (sumOf (keptFaces dice'), .sum) := by
  rw [score] at h ⊢
  split at h
  · rfl
  all_goals cases h

/-- How a term is scored follows from its modifiers alone. -/
theorem score_snd (dice dice' : List Die) (ms : List Modifier) :
    (score dice ms).2 = (score dice' ms).2 := by
  rw [score, score]
  split <;> rfl

theorem TermResult.good_dice {data : Data} {t : TermResult}
    (hkind : data.field? "kind" = some (.text "dice")) (h : ofData reader data = .good t) :
    ∃ r, DiceResult.ofFields reader data = .good r ∧ t = .dice r := by
  cases data with
  | record fields =>
    rw [ofData, hkind] at h
    obtain ⟨r, hr, rfl⟩ := Checked.map_eq_good.mp (Checked.under_eq_good.mp h)
    exact ⟨r, hr, rfl⟩
  | _ => cases hkind

include hreader in
/-- **A changed term does not agree with its leaf.** -/
theorem TermEdit.not_bearsOut {t t' : TermResult} {leaf : Int ⊕ Dice} {edit : TermEdit}
    (h : edit.Alters t) (ht : t.Proper) (hborne : t.BearsOut leaf)
    (hread : TermResult.ofData reader (edit.apply t.toData) = .good t') : ¬ t'.BearsOut leaf := by
  cases hborne with
  | constant v =>
    cases edit with
    | constant n =>
      obtain ⟨m, hm, rfl⟩ := Checked.map_eq_good.mp (Checked.under_eq_good.mp hread)
      obtain rfl : n = m := Checked.good.inj
        ((hreader.int_int n).symm.trans ((readField_eq_good (v := .int n) rfl).mp hm))
      intro hborne'
      cases hborne'
      exact h rfl
    | subtotal | scoring | die => exact h.elim
  | @dice leaf r hscore =>
    obtain ⟨term, hterm, hr⟩ := ht
    have hdice : Data.readList (Die.ofData reader) (.list (r.dice.map Die.toData)) = .good r.dice :=
      readList_map fun d hd => Die.ofData_toData hreader ((hr.dice d hd).bounded hterm)
    cases edit with
    | constant => exact h.elim
    | subtotal n =>
      obtain ⟨r', hr', rfl⟩ := TermResult.good_dice rfl hread
      obtain ⟨-, -, hsubtotal, -, hdice'⟩ := DiceResult.readFrom_of_ofFields hr'
      have hn : n = r'.subtotal := Checked.good.inj
        ((hreader.int_int n).symm.trans ((readField_eq_good (v := .int n) rfl).mp hsubtotal))
      have hsame : r.dice = r'.dice := by
        have hlist := (readField_eq_good (v := .list (r.dice.map Die.toData)) rfl).mp hdice'
        exact Checked.good.inj (hdice.symm.trans hlist)
      rintro ⟨⟩
      next hscore' =>
        rw [← hsame, hscore, ← hn] at hscore'
        exact h (congrArg Prod.fst hscore').symm
    | scoring s =>
      obtain ⟨r', hr', rfl⟩ := TermResult.good_dice rfl hread
      obtain ⟨-, -, -, hscoring, -⟩ := DiceResult.readFrom_of_ofFields hr'
      have hs : s = r'.scoring := by
        have hname := (readFieldOr_eq_good (v := .text s.name) rfl).mp hscoring
        rw [Scoring.ofData_name] at hname
        exact Checked.good.inj hname
      rintro ⟨⟩
      next hscore' =>
        have hsame := score_snd r'.dice r.dice leaf.modifiers
        rw [hscore', hscore] at hsame
        exact h (hs.trans hsame)
    | die place edit =>
      obtain ⟨hsum, d, hd, halters⟩ := h
      obtain ⟨r', hr', rfl⟩ := TermResult.good_dice rfl hread
      obtain ⟨-, -, hsubtotal, -, hdice'⟩ := DiceResult.readFrom_of_ofFields hr'
      have hn : r.subtotal = r'.subtotal := Checked.good.inj
        ((hreader.int_int _).symm.trans
          ((readField_eq_good (v := .int r.subtotal) rfl).mp hsubtotal))
      obtain ⟨d', hd', hset⟩ := readList_modify
        (fun d hd => Die.ofData_toData hreader ((hr.dice d hd).bounded hterm)) hd
        ((readField_eq_good
          (v := .list ((r.dice.map Die.toData).modify place edit.apply)) rfl).mp hdice')
      have hshare := edit.share_ne hreader halters (hr.dice d (List.mem_of_getElem? hd)) hd'
      rintro ⟨⟩
      next hscore' =>
        -- both subtotals are sums, which differ by the shares of the one die
        rw [hsum] at hscore
        have hbefore := congrArg Prod.fst (hscore.symm.trans (score_eq_sum hscore r.dice))
        have hafter := congrArg Prod.fst (hscore'.symm.trans (score_eq_sum hscore r'.dice))
        rw [hset] at hafter
        have hdiffer : sumOf (keptFaces (r.dice.set place d')) + d.share =
            sumOf (keptFaces r.dice) + d'.share := sumOf_keptFaces_set hd
        dsimp only at hbefore hafter
        omega

/-! ## Entries -/

/-- Of two lists that go together with one and differ in one place, both items go together with the
same one there. -/
theorem exists_of_forall₂_set {α β : Type} {R : α → β → Prop} {as : List α} {bs : List β} {i : Nat}
    {a a' : α} (h : List.Forall₂ R as bs) (h' : List.Forall₂ R (as.set i a') bs)
    (hi : as[i]? = some a) : ∃ b, R a b ∧ R a' b := by
  induction h generalizing i with
  | nil => cases hi
  | @cons a₀ b as bs hab _ ih =>
    cases i with
    | zero =>
      obtain rfl := Option.some.inj hi
      obtain ⟨hab', -⟩ := List.forall₂_cons.mp h'
      exact ⟨b, hab, hab'⟩
    | succ i =>
      obtain ⟨-, htail⟩ := List.forall₂_cons.mp h'
      exact ih htail hi

include hreader in
/-- **A changed entry is not read.** What the notation stands for is not changed, and it leaves no
room for other terms or another total. -/
theorem Edit.load_ne_good {entry entry' : Entry} {edit : Edit} (h : edit.Alters entry.roll)
    (hproper : ∀ t ∈ entry.roll.terms, t.Proper)
    (haudit : entry.roll.recompute = .ok entry.roll.total) :
    Entry.load reader (edit.apply entry.toData) ≠ .good entry' := by
  intro hload
  obtain ⟨hcanonical, htotal, -, hterms, haudit'⟩ := Entry.readFrom_of_load hload
  have hsame : entry.roll.canonical = entry'.roll.canonical := by
    have hfield : (edit.apply entry.toData).field? "notation" =
        some (.text entry.roll.canonical) := by cases edit <;> rfl
    exact Checked.good.inj
      ((hreader.text_text _).symm.trans ((readField_eq_good hfield).mp hcanonical))
  obtain ⟨e, hread, hfold⟩ := Roll.recompute_eq_ok.mp haudit
  obtain ⟨hborne, -, hvalue⟩ := Roll.refold_nil_eq_ok.mp hfold
  obtain ⟨e', hread', hfold'⟩ := Roll.recompute_eq_ok.mp haudit'
  rw [← hsame, hread] at hread'
  obtain rfl := Except.ok.inj hread'
  obtain ⟨hborne', -, hvalue'⟩ := Roll.refold_nil_eq_ok.mp hfold'
  have hlen : entry'.roll.terms.length = entry.roll.terms.length :=
    hborne'.length_eq.trans hborne.length_eq.symm
  have hback : ∀ t ∈ entry.roll.terms, TermResult.ofData reader t.toData = .good t :=
    fun t ht => TermResult.ofData_toData hreader (hproper t ht).bounded
  cases edit with
  | total n =>
    have hn : n = entry'.roll.total := Checked.good.inj
      ((hreader.int_int n).symm.trans ((readField_eq_good (v := .int n) rfl).mp htotal))
    have hlist : entry.roll.terms = entry'.roll.terms :=
      Checked.good.inj ((readList_map hback).symm.trans ((readField_eq_good rfl).mp hterms))
    rw [← hlist, ← hvalue] at hvalue'
    exact h (hn.trans hvalue')
  | term place edit =>
    obtain ⟨t, ht, halters⟩ := h
    obtain ⟨t', ht', hset⟩ := readList_modify hback ht ((readField_eq_good rfl).mp hterms)
    rw [hset] at hborne'
    obtain ⟨leaf, hleaf, hleaf'⟩ := exists_of_forall₂_set hborne hborne' ht
    exact edit.not_bearsOut hreader halters (hproper t (List.mem_of_getElem? ht)) hleaf ht' hleaf'
  | delete place =>
    have hplace : place < entry.roll.terms.length := h
    have hitems := length_of_readList ((readField_eq_good
      (v := .list ((entry.roll.terms.map TermResult.toData).eraseIdx place)) rfl).mp hterms)
    rw [List.length_eraseIdx, List.length_map, if_pos hplace] at hitems
    omega
  | append item =>
    have hitems := length_of_readList ((readField_eq_good
      (v := .list (entry.roll.terms.map TermResult.toData ++ [item])) rfl).mp hterms)
    rw [List.length_append, List.length_map, List.length_singleton] at hitems
    omega

include hreader in
/-- **Stored rolls are tamper-evident** in everything that feeds the total: the total, the subtotals,
the scoring, the constants, the kept dice of a sum, and the number of terms. -/
theorem tampered_roll_is_refused {σ : Type} [RandomSource σ] {limits : Limits} {text : String}
    {e : Expr} (hdice : limits.maxDice ≤ 2 ^ 63 - 1) (hsides : limits.maxSides ≤ 2 ^ 63 - 1)
    (hparse : Expr.parse limits text = .ok e) {source : σ} {r : Roll}
    (hrun : ((e.roll (some text)).run source).outcome = .ok r) (stamp : Stamp) :
    ∃ data, Entry.dump ⟨stamp, r⟩ = .good data ∧
      ∀ edit : Edit, edit.Alters r → ∃ issues, Entry.load reader (edit.apply data) = .bad issues := by
  obtain ⟨hproper, haudit⟩ := storable_of_run hdice hsides hparse hrun
  let entry : Entry := ⟨stamp, r⟩
  refine ⟨entry.toData, Entry.dump_of_proper hproper haudit, fun edit halters => ?_⟩
  cases hload : Entry.load reader (edit.apply entry.toData) with
  | good entry' => exact absurd hload (Edit.load_ne_good hreader halters hproper haudit)
  | bad issues => exact ⟨issues, rfl⟩

/-- Two dice that show 5 and 2 are not read as a total of 8, nor as 5 and 3, nor without the 2. -/
theorem tampered_pool_is_refused :
    ∃ e r data, Expr.parse {} "2d6" = .ok e ∧
      ((e.roll (some "2d6")).run (Replay.ofList [.int 5, .int 2])).outcome = .ok r ∧
        Entry.dump ⟨⟨"a", ⟨2024, 2, 29, 23, 59, 59, 120000, some 0⟩⟩, r⟩ = .good data ∧
          ∀ edit ∈ [Edit.total 8, .term 0 (.die 1 (.value 3)), .term 0 (.die 1 (.kept false))],
            ∃ issues, Entry.load .lenient (edit.apply data) = .bad issues := by
  let two : Die := { value := 2, sides := 6, term := 0 }
  let pool : DiceResult := ⟨"2d6", 2, 6, [{ two with value := 5 }, two], 7, .sum⟩
  have hrun : (((Expr.dice ⟨2, 6, []⟩ ⟨0, 3⟩).roll (some "2d6")).run
      (Replay.ofList [.int 5, .int 2])).outcome = .ok ⟨"2d6", "2d6", 7, [.dice pool]⟩ := rfl
  obtain ⟨data, hdump, hrefused⟩ := tampered_roll_is_refused ValueReader.lenient_lawful (by decide)
    (by decide) parse_pool hrun ⟨"a", ⟨2024, 2, 29, 23, 59, 59, 120000, some 0⟩⟩
  refine ⟨_, _, data, parse_pool, hrun, hdump, fun edit hedit => hrefused edit ?_⟩
  simp only [List.mem_cons, List.not_mem_nil, or_false] at hedit
  rcases hedit with rfl | rfl | rfl
  · exact fun h => absurd h (by decide)
  · exact ⟨.dice pool, rfl, rfl, two, rfl, rfl, by decide⟩
  · exact ⟨.dice pool, rfl, rfl, two, rfl, Bool.false_ne_true⟩

end Dicebox
