import Dicebox.Proofs.Replays
import Dicebox.Proofs.Selection
import Dicebox.Proofs.Throws

/-! # Terms that only keep and drop dice

Which of several equal dice a selection takes depends on the order in which they were thrown, but the
faces that it leaves do not. If the faces of the kept dice are put in order, every selection cuts off
one end of them, so that a term with selections only adds up a window of its sorted draws. Where the
window lies is settled by the number of dice and the modifiers, before anything is thrown.

- `inOrder`, `forall₂_inOrder`: sorted values, and that higher values stay higher when sorted.
- `Window`, `Selection.window`, `windowOf`: a stretch of a sorted list, what selections leave of it.
- `inOrder_keptFaces_selectAll`: one selection.
- `Dice.totals_iff`: the subtotals of a term with selections only.
- `kept_dice_are_a_window`: such terms as a whole.
-/

namespace Dicebox

open Rolling

/-! ## Sorted values -/

def inOrder (vs : List Int) : List Int := vs.insertionSort (· ≤ ·)

theorem inOrder_perm (vs : List Int) : (inOrder vs).Perm vs := List.perm_insertionSort _ _

theorem length_inOrder (vs : List Int) : (inOrder vs).length = vs.length :=
  (inOrder_perm vs).length_eq

theorem pairwise_inOrder (vs : List Int) : (inOrder vs).Pairwise (· ≤ ·) :=
  List.sortedLE_insertionSort.pairwise

theorem inOrder_eq {vs ws : List Int} (hperm : vs.Perm ws) (hws : ws.Pairwise (· ≤ ·)) :
    inOrder vs = ws :=
  ((inOrder_perm vs).trans hperm).eq_of_pairwise' (pairwise_inOrder vs) hws

theorem inOrder_congr {vs ws : List Int} (h : vs.Perm ws) : inOrder vs = inOrder ws :=
  inOrder_eq (h.trans (inOrder_perm ws).symm) (pairwise_inOrder ws)

theorem orderedInsert_eq_cons {x : Int} {xs : List Int} (h : (x :: xs).Pairwise (· ≤ ·)) :
    xs.orderedInsert (· ≤ ·) x = x :: xs := by
  cases xs with
  | nil => rfl
  | cons y xs =>
    have hle : x ≤ y := List.rel_of_pairwise_cons h List.mem_cons_self
    exact List.orderedInsert_cons_of_le _ _ hle

theorem forall₂_orderedInsert {v w : Int} {xs ys : List Int} (hvw : v ≤ w)
    (hxs : xs.Pairwise (· ≤ ·)) (hys : ys.Pairwise (· ≤ ·)) (h : List.Forall₂ (· ≤ ·) xs ys) :
    List.Forall₂ (· ≤ ·) (xs.orderedInsert (· ≤ ·) v) (ys.orderedInsert (· ≤ ·) w) := by
  induction h generalizing v w with
  | nil => exact .cons hvw .nil
  | @cons x y xs ys hxy h ih =>
    have hxs' := (List.pairwise_cons.mp hxs).2
    have hys' := (List.pairwise_cons.mp hys).2
    by_cases hv : v ≤ x
    · by_cases hw : w ≤ y
      · rw [List.orderedInsert_cons_of_le _ _ hv, List.orderedInsert_cons_of_le _ _ hw]
        exact .cons hvw (.cons hxy h)
      · -- the greater value goes further back, and what stood there moves to the front
        rw [List.orderedInsert_cons_of_le _ _ hv, List.orderedInsert_of_not_le _ _ hw]
        have htail := ih (v := x) (w := w) (by omega) hxs' hys'
        rw [orderedInsert_eq_cons hxs] at htail
        exact .cons (by omega) htail
    · by_cases hw : w ≤ y
      · rw [List.orderedInsert_of_not_le _ _ hv, List.orderedInsert_cons_of_le _ _ hw]
        have htail := ih (v := v) (w := y) (by omega) hxs' hys'
        rw [orderedInsert_eq_cons hys] at htail
        exact .cons (by omega) htail
      · rw [List.orderedInsert_of_not_le _ _ hv, List.orderedInsert_of_not_le _ _ hw]
        exact .cons hxy (ih hvw hxs' hys')

/-- **Values that are not lower stay so at every place when they are sorted.** -/
theorem forall₂_inOrder {vs ws : List Int} (h : List.Forall₂ (· ≤ ·) vs ws) :
    List.Forall₂ (· ≤ ·) (inOrder vs) (inOrder ws) := by
  induction h with
  | nil => exact .nil
  | cons hvw _ ih => exact forall₂_orderedInsert hvw (pairwise_inOrder _) (pairwise_inOrder _) ih

/-! ## Windows -/

/-- The places of a sorted list from `lo` up to but not including `hi`. -/
@[ext]
structure Window (size : Nat) where
  lo : Nat
  hi : Nat
  lo_le_hi : lo ≤ hi
  hi_le_size : hi ≤ size

namespace Window

variable {size : Nat} {vs ws : List Int}

def width (w : Window size) : Nat := w.hi - w.lo

def cut (w : Window size) (vs : List Int) : List Int := (vs.take w.hi).drop w.lo

/-- The window that shows everything. -/
def whole (size : Nat) : Window size := ⟨0, size, Nat.zero_le size, Nat.le_refl size⟩

def within (w : Window size) (inner : Window w.width) : Window size where
  lo := w.lo + inner.lo
  hi := w.lo + inner.hi
  lo_le_hi := Nat.add_le_add_left inner.lo_le_hi w.lo
  hi_le_size := by
    have hlo := w.lo_le_hi
    have hhi := w.hi_le_size
    have hinner : inner.hi ≤ w.hi - w.lo := inner.hi_le_size
    omega

theorem length_cut (w : Window size) (hvs : vs.length = size) : (w.cut vs).length = w.width := by
  rw [cut, List.length_drop, List.length_take, hvs, Nat.min_eq_left w.hi_le_size, width]

theorem pairwise_cut (w : Window size) (hvs : vs.Pairwise (· ≤ ·)) :
    (w.cut vs).Pairwise (· ≤ ·) :=
  (hvs.sublist (List.take_sublist _ _)).sublist (List.drop_sublist _ _)

theorem cut_whole (hvs : vs.length = size) : (whole size).cut vs = vs := by
  rw [cut, whole, List.drop_zero, List.take_of_length_le (Nat.le_of_eq hvs)]

theorem cut_within (w : Window size) (inner : Window w.width) (vs : List Int) :
    (w.within inner).cut vs = inner.cut (w.cut vs) := by
  have hlo := w.lo_le_hi
  have hinner : inner.hi ≤ w.hi - w.lo := inner.hi_le_size
  simp only [cut, within]
  rw [List.take_drop, List.take_take, List.drop_drop, Nat.min_eq_left (by omega)]

theorem forall₂_cut (w : Window size) (h : List.Forall₂ (· ≤ ·) vs ws) :
    List.Forall₂ (· ≤ ·) (w.cut vs) (w.cut ws) :=
  List.forall₂_drop _ (List.forall₂_take _ h)

end Window

/-- The places of the sorted faces that a selection leaves. -/
def Selection.window (rule : Selection) (count : Int) (size : Nat) : Window size :=
  have hle : taken count size ≤ size := taken_le count size
  match rule with
  | keepHighest => ⟨size - taken count size, size, Nat.sub_le _ _, Nat.le_refl _⟩
  | keepLowest => ⟨0, taken count size, Nat.zero_le _, hle⟩
  | dropHighest => ⟨0, size - taken count size, Nat.zero_le _, Nat.sub_le _ _⟩
  | dropLowest => ⟨taken count size, size, hle, Nat.le_refl _⟩

/-- What a modifier leaves of a window. Only selections play a part here. -/
def Window.after {size : Nat} (w : Window size) : Modifier → Window size
  | .select rule count => w.within (rule.window count w.width)
  | .explode _ _ | .reroll _ _ _ | .success _ | .failure _ => w

/-- The window that modifiers leave of so many dice. -/
def windowOf (ms : List Modifier) (size : Nat) : Window size :=
  ms.foldl Window.after (.whole size)

/-! ## Selections -/

theorem map_ranking (highest : Bool) (dice : List Die) :
    (ranking highest dice).map (fun p => p.1.value) =
      if highest then (inOrder (keptFaces dice)).reverse else inOrder (keptFaces dice) := by
  have hperm : ((ranking highest dice).map fun p => p.1.value).Perm (keptFaces dice) := by
    rw [keptFaces, ← map_value_candidates]
    exact (ranking_perm highest dice).map _
  cases highest with
  | false =>
    rw [if_neg Bool.false_ne_true]
    refine (inOrder_eq hperm.symm ?_).symm
    exact List.pairwise_map.mpr ((pairwise_ranking false dice).imp fun h => h.value_le)
  | true =>
    rw [if_pos rfl, eq_comm, List.reverse_eq_iff]
    refine inOrder_eq (hperm.symm.trans (List.reverse_perm _).symm) ?_
    refine List.pairwise_reverse.mpr (List.pairwise_map.mpr ?_)
    exact (pairwise_ranking true dice).imp fun h => h.value_le

theorem length_keptFaces (dice : List Die) : (keptFaces dice).length = dice.countP (·.kept) := by
  rw [keptFaces, List.length_map, ← List.countP_eq_length_filter]

/-- **A selection cuts off one end of the sorted faces of the kept dice.** -/
theorem inOrder_keptFaces_selectAll (rule : Selection) (count : Int) (dice : List Die) :
    inOrder (keptFaces (selectAll rule count dice)) =
      (rule.window count (keptFaces dice).length).cut (inOrder (keptFaces dice)) := by
  have hperm : (keptFaces (selectAll rule count dice)).Perm
      ((rule.remaining count dice).map fun p => p.1.value) := by
    rw [keptFaces, ← map_value_candidates]
    exact candidates_selectAll.map _
  have hlength : (inOrder (keptFaces dice)).length = dice.countP (·.kept) := by
    rw [length_inOrder, length_keptFaces]
  have hall := List.take_of_length_le (Nat.le_of_eq hlength)
  rw [length_keptFaces]
  refine inOrder_eq (hperm.trans ?_) ?_
  · cases rule with
    | keepHighest =>
      show (((ranking true dice).take _).map _).Perm _
      rw [List.map_take, map_ranking, if_pos rfl, List.take_reverse, hlength]
      simp only [Selection.window, Window.cut, hall]
      exact List.reverse_perm _
    | keepLowest =>
      show (((ranking false dice).take _).map _).Perm _
      rw [List.map_take, map_ranking, if_neg Bool.false_ne_true]
      simp only [Selection.window, Window.cut, List.drop_zero]
      exact List.Perm.refl _
    | dropHighest =>
      show (((ranking true dice).drop _).map _).Perm _
      rw [List.map_drop, map_ranking, if_pos rfl, List.drop_reverse, hlength]
      simp only [Selection.window, Window.cut, List.drop_zero]
      exact List.reverse_perm _
    | dropLowest =>
      show (((ranking false dice).drop _).map _).Perm _
      rw [List.map_drop, map_ranking, if_neg Bool.false_ne_true]
      simp only [Selection.window, Window.cut, hall]
      exact List.Perm.refl _
  · exact Window.pairwise_cut _ (pairwise_inOrder _)

/-- A modifier is a selection. -/
abbrev Modifier.Selects (m : Modifier) : Prop := ∃ rule count, m = .select rule count

variable {ms : List Modifier} {sides term : Int} {vs ws : List Int} {es : List Event}

/-- What the window shows before some selections, the window that they leave of it shows behind
them. -/
theorem Modifier.DoAll.window {size : Nat} {dice dice' : List Die} (h : DoAll ms dice ws es dice')
    (hms : ∀ m ∈ ms, m.Selects) (hvs : vs.length = size) {w : Window size}
    (hdice : inOrder (keptFaces dice) = w.cut vs) :
    ws = [] ∧ es = [] ∧ inOrder (keptFaces dice') = (ms.foldl Window.after w).cut vs := by
  induction h generalizing w with
  | nil => exact ⟨rfl, rfl, hdice⟩
  | @cons m ms dice dice₁ dice' ws ws' es es' hm _ ih =>
    obtain ⟨⟨rule, count, rfl⟩, hrest⟩ := List.forall_mem_cons.mp hms
    obtain ⟨rfl, rfl, rfl⟩ := hm
    have hwidth : (keptFaces dice).length = w.width := by
      rw [← length_inOrder, hdice, w.length_cut hvs]
    have hstep : inOrder (keptFaces (selectAll rule count dice)) =
        (w.after (.select rule count)).cut vs := by
      rw [inOrder_keptFaces_selectAll, hwidth, hdice]
      exact (w.cut_within _ vs).symm
    obtain ⟨rfl, rfl, hdice'⟩ := ih hrest hstep
    exact ⟨rfl, rfl, hdice'⟩

/-! ## Terms -/

theorem keptFaces_fresh (sides term : Int) (vs : List Int) :
    keptFaces (vs.map (Die.fresh sides term)) = vs := by
  induction vs with
  | nil => rfl
  | cons v vs ih => exact congrArg (v :: ·) ih

theorem score_of_selects (hms : ∀ m ∈ ms, m.Selects) (dice : List Die) :
    score dice ms = (sumOf (keptFaces dice), .sum) := by
  have hsuccess : successThreshold? ms = none := by
    refine List.findSome?_eq_none_iff.mpr fun m hm => ?_
    obtain ⟨rule, count, rfl⟩ := hms m hm
    rfl
  have hfailure : failureThreshold? ms = none := by
    refine List.findSome?_eq_none_iff.mpr fun m hm => ?_
    obtain ⟨rule, count, rfl⟩ := hms m hm
    rfl
  simp only [score, hsuccess, hfailure]

/-- **A term that only keeps and drops shows a window of its sorted draws**, and adds it up. -/
theorem Dice.roll_window {n : Int} {r : DiceResult} (hms : ∀ m ∈ ms, m.Selects)
    (h : ((Dice.mk n sides ms).roll term).Yields vs es r) :
    vs.length = n.toNat ∧ (∀ v ∈ vs, OnDie sides v) ∧
      inOrder (keptFaces r.dice) = (windowOf ms n.toNat).cut (inOrder vs) ∧
      r.subtotal = sumOf ((windowOf ms n.toNat).cut (inOrder vs)) := by
  obtain ⟨faces, ws, dice, rfl, hlen, hfaces, hall, rfl⟩ := roll_yields h
  have hsize : (inOrder faces).length = n.toNat := (length_inOrder faces).trans hlen
  have hwhole : inOrder (keptFaces (faces.map (Die.fresh sides term))) =
      (Window.whole n.toNat).cut (inOrder faces) := by
    rw [keptFaces_fresh, Window.cut_whole hsize]
  obtain ⟨rfl, -, hdice⟩ := hall.window hms hsize hwhole
  rw [List.append_nil]
  refine ⟨hlen, hfaces, hdice, ?_⟩
  show (score dice ms).1 = sumOf ((windowOf ms n.toNat).cut (inOrder faces))
  rw [score_of_selects hms, windowOf, ← hdice]
  exact (inOrder_perm (keptFaces dice)).sum_eq.symm

theorem Modifier.foldl_select_yields (hms : ∀ m ∈ ms, m.Selects) (dice : List Die) :
    ∃ dice', (Rolling.foldl (fun dice m => m.apply dice) dice ms).Yields [] [] dice' := by
  induction ms generalizing dice with
  | nil => exact ⟨dice, .done dice⟩
  | cons m ms ih =>
    obtain ⟨⟨rule, count, rfl⟩, hrest⟩ := List.forall_mem_cons.mp hms
    exact ih hrest (selectAll rule count dice)

theorem Dice.exists_roll_yields {n : Int} (hms : ∀ m ∈ ms, m.Selects) (term : Int)
    (hlen : vs.length = n.toNat) (hvs : ∀ v ∈ vs, OnDie sides v) :
    ∃ r, ((Dice.mk n sides ms).roll term).Yields vs [] r := by
  have hthrown := yields_thrown ⟨n, sides, ms⟩ term hlen hvs
  obtain ⟨dice, hdice⟩ := Modifier.foldl_select_yields hms (vs.map (Die.fresh sides term))
  let r : DiceResult :=
    ⟨canonical ⟨n, sides, ms⟩, n, sides, dice, (score dice ms).1, (score dice ms).2⟩
  have hscored : (Rolling.done r).Yields [] [] r := .done r
  have hroll : ((Dice.mk n sides ms).roll term).Yields (vs ++ ([] ++ [])) ([] ++ ([] ++ [])) r :=
    hthrown.bind (hdice.bind hscored)
  exact ⟨r, by simpa using hroll⟩

/-- Some source hands out these values for the dice of a term, and they make this subtotal. -/
def Dice.Totals (t : Dice) (vs : List Int) (subtotal : Int) : Prop :=
  ∃ (σ : Type) (_ : RandomSource σ) (source : σ) (term : Int) (r : DiceResult),
    ((t.roll term).run source).outcome = .ok r ∧
      (t.roll term).drawn source = vs.map Data.int ∧ r.subtotal = subtotal

theorem map_int_inj {vs ws : List Int} (h : vs.map Data.int = ws.map Data.int) : vs = ws :=
  List.map_injective_iff.mpr (fun _ _ heq => Data.int.inj heq) h

/-- **The subtotals of a term that only keeps and drops**: there is one for each list of so many
faces, the sum of the values in its window. -/
theorem Dice.totals_iff {n s : Int} (hms : ∀ m ∈ ms, m.Selects) :
    (Dice.mk n sides ms).Totals vs s ↔ vs.length = n.toNat ∧ (∀ v ∈ vs, OnDie sides v) ∧
      s = sumOf ((windowOf ms n.toNat).cut (inOrder vs)) := by
  constructor
  · rintro ⟨σ, _, source, term, r, hrun, hdrawn, rfl⟩
    obtain ⟨ws, hws, hy⟩ := yields_drawn hrun
    obtain rfl := map_int_inj (hws.symm.trans hdrawn)
    obtain ⟨hlen, hfaces, -, htotal⟩ := roll_window hms hy
    exact ⟨hlen, hfaces, htotal⟩
  · rintro ⟨hlen, hfaces, rfl⟩
    obtain ⟨r, hy⟩ := exists_roll_yields hms 0 hlen hfaces
    obtain ⟨hrun, hdrawn⟩ := hy.run_replay
    exact ⟨Replay, inferInstance, _, 0, r, hrun, hdrawn, (roll_window hms hy).2.2.2⟩

/-! ## The law -/

theorem taken_of_le {count : Int} {size : Nat} (hpos : 0 ≤ count) (hle : count ≤ size) :
    taken count size = count.toNat := by
  rw [taken, if_neg (by omega), Nat.min_eq_left (by omega)]

theorem windowOf_singleton (rule : Selection) (count : Int) (size : Nat) :
    windowOf [.select rule count] size = rule.window count size := by
  apply Window.ext
  · exact Nat.zero_add _
  · exact Nat.zero_add _

/-- To keep the highest is to drop the lowest of the others, and the other way round. -/
theorem window_complement {n N : Int} (hpos : 1 ≤ N) (hlt : N < n) :
    Selection.keepHighest.window N n.toNat = Selection.dropLowest.window (n - N) n.toNat ∧
      Selection.keepLowest.window N n.toNat = Selection.dropHighest.window (n - N) n.toNat := by
  have hkept : taken N n.toNat = N.toNat := taken_of_le (by omega) (by omega)
  have hdropped : taken (n - N) n.toNat = (n - N).toNat := taken_of_le (by omega) (by omega)
  constructor
  · apply Window.ext
    · show n.toNat - taken N n.toNat = taken (n - N) n.toNat
      omega
    · rfl
  · apply Window.ext
    · rfl
    · show taken N n.toNat = n.toNat - taken (n - N) n.toNat
      omega

/-- One selection and another that leave the same window make the same subtotal of the same draws. -/
theorem Dice.totals_congr {n s s' : Int} {rule rule' : Selection} {count count' : Int}
    (hwindow : rule.window count n.toNat = rule'.window count' n.toNat)
    (h : (Dice.mk n sides [.select rule count]).Totals vs s)
    (h' : (Dice.mk n sides [.select rule' count']).Totals vs s') : s = s' := by
  have hone : ∀ (rule : Selection) (count : Int), ∀ m ∈ [Modifier.select rule count], m.Selects := by
    intro rule count m hm
    exact ⟨rule, count, List.mem_singleton.mp hm⟩
  obtain ⟨-, -, rfl⟩ := (totals_iff (hone rule count)).mp h
  obtain ⟨-, -, rfl⟩ := (totals_iff (hone rule' count')).mp h'
  rw [windowOf_singleton, windowOf_singleton, hwindow]

/-- **The dice that a term keeps are a window of its sorted draws**, which its number of dice and its
selections settle: a keep, a drop, or both in either order, and any longer row of them. So the order
of the draws does not matter for its subtotal, a higher draw never lowers it, and keeping the highest
comes to the same as dropping the others. -/
theorem kept_dice_are_a_window {n : Int} {ms : List Modifier} (hms : ∀ m ∈ ms, m.Selects) :
    (∃ w : Window n.toNat, ∀ (sides term : Int) {σ : Type} [RandomSource σ] (source : σ)
      (r : DiceResult), (((Dice.mk n sides ms).roll term).run source).outcome = .ok r →
        ∃ vs : List Int, ((Dice.mk n sides ms).roll term).drawn source = vs.map Data.int ∧
          (keptFaces r.dice : Multiset Int) = (w.cut (inOrder vs) : List Int)) ∧
    ∀ sides : Int,
      (∀ vs, (∃ s, (Dice.mk n sides ms).Totals vs s) ↔
        vs.length = n.toNat ∧ ∀ v ∈ vs, OnDie sides v) ∧
      (∀ vs ws s s', vs.Perm ws → (Dice.mk n sides ms).Totals vs s →
        (Dice.mk n sides ms).Totals ws s' → s = s') ∧
      (∀ before v w after s s', v ≤ w → (Dice.mk n sides ms).Totals (before ++ v :: after) s →
        (Dice.mk n sides ms).Totals (before ++ w :: after) s' → s ≤ s') ∧
      ∀ N : Int, 1 ≤ N → N < n → ∀ vs s s',
        ((Dice.mk n sides [.select .keepHighest N]).Totals vs s →
          (Dice.mk n sides [.select .dropLowest (n - N)]).Totals vs s' → s = s') ∧
        ((Dice.mk n sides [.select .keepLowest N]).Totals vs s →
          (Dice.mk n sides [.select .dropHighest (n - N)]).Totals vs s' → s = s') := by
  refine ⟨⟨windowOf ms n.toNat, ?_⟩, fun sides => ⟨?_, ?_, ?_, ?_⟩⟩
  · intro sides term σ _ source r hrun
    obtain ⟨vs, hdrawn, hy⟩ := yields_drawn hrun
    obtain ⟨-, -, hkept, -⟩ := Dice.roll_window hms hy
    refine ⟨vs, hdrawn, ?_⟩
    rw [← hkept, Multiset.coe_eq_coe]
    exact (inOrder_perm _).symm
  · intro vs
    constructor
    · rintro ⟨s, hs⟩
      obtain ⟨hlen, hfaces, -⟩ := (Dice.totals_iff hms).mp hs
      exact ⟨hlen, hfaces⟩
    · rintro ⟨hlen, hfaces⟩
      exact ⟨_, (Dice.totals_iff hms).mpr ⟨hlen, hfaces, rfl⟩⟩
  · intro vs ws s s' hperm hs hs'
    obtain ⟨-, -, rfl⟩ := (Dice.totals_iff hms).mp hs
    obtain ⟨-, -, rfl⟩ := (Dice.totals_iff hms).mp hs'
    rw [inOrder_congr hperm]
  · intro before v w after s s' hvw hs hs'
    obtain ⟨-, -, rfl⟩ := (Dice.totals_iff hms).mp hs
    obtain ⟨-, -, rfl⟩ := (Dice.totals_iff hms).mp hs'
    have hdraws : List.Forall₂ (· ≤ ·) (before ++ v :: after) (before ++ w :: after) :=
      List.rel_append (List.forall₂_same.mpr fun x _ => Int.le_refl x)
        (.cons hvw (List.forall₂_same.mpr fun x _ => Int.le_refl x))
    exact ((windowOf ms n.toNat).forall₂_cut (forall₂_inOrder hdraws)).sum_le_sum
  · intro N hpos hlt vs s s'
    obtain ⟨hhighest, hlowest⟩ := window_complement hpos hlt
    exact ⟨Dice.totals_congr hhighest, Dice.totals_congr hlowest⟩

/-- Four dice: the three highest are kept, and then the lowest of these is dropped. -/
def fourDice : Dice := ⟨4, 6, [.select .keepHighest 3, .select .dropLowest 1]⟩

theorem run_fourDice :
    ∃ r, ((fourDice.roll 0).run (Replay.ofList [.int 3, .int 5, .int 1, .int 5])).outcome = .ok r ∧
      r.subtotal = 10 := ⟨_, rfl, by cbv⟩

/-- A 3, a 5, a 1 and a 5 make 10, in any order, and with a 2 in place of the 1 no less. -/
theorem four_dice_show_a_window :
    (∀ m ∈ fourDice.modifiers, m.Selects) ∧
      (∃ r, ((fourDice.roll 0).run (Replay.ofList [.int 3, .int 5, .int 1, .int 5])).outcome = .ok r ∧
        ∃ (w : Window 4) (vs : List Int),
          (fourDice.roll 0).drawn (Replay.ofList [.int 3, .int 5, .int 1, .int 5]) =
            vs.map Data.int ∧ (keptFaces r.dice : Multiset Int) = (w.cut (inOrder vs) : List Int)) ∧
      fourDice.Totals [5, 5, 3, 1] 10 ∧ ∃ s, fourDice.Totals [3, 5, 2, 5] s ∧ 10 ≤ s := by
  have hms : ∀ m ∈ fourDice.modifiers, m.Selects := by
    intro m hm
    rcases List.mem_cons.mp hm with rfl | hm
    · exact ⟨_, _, rfl⟩
    · exact ⟨_, _, List.mem_singleton.mp hm⟩
  have hfaces : ∀ vs : List Int, vs ∈ [[3, 5, 1, 5], [5, 5, 3, 1], [3, 5, 2, 5]] →
      vs.length = 4 ∧ ∀ v ∈ vs, OnDie 6 v := by simp [OnDie]
  obtain ⟨⟨w, hw⟩, hlaw⟩ := kept_dice_are_a_window (n := 4) hms
  obtain ⟨htotals, hperm, hraise, -⟩ := hlaw 6
  obtain ⟨r, hrun, htotal⟩ := run_fourDice
  have hten : fourDice.Totals [3, 5, 1, 5] 10 :=
    ⟨Replay, inferInstance, _, 0, r, hrun, rfl, htotal⟩
  obtain ⟨s, hs⟩ := (htotals [5, 5, 3, 1]).mpr (hfaces _ (by simp))
  obtain ⟨s', hs'⟩ := (htotals [3, 5, 2, 5]).mpr (hfaces _ (by simp))
  obtain rfl := hperm _ _ 10 s (by decide) hten hs
  exact ⟨hms, ⟨r, hrun, w, hw 6 0 _ r hrun⟩, hs, s',
    hs', hraise [3, 5] 1 2 [5] 10 s' (by decide) hten hs'⟩

end Dicebox
