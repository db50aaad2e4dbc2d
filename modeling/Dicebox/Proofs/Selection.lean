import Dicebox.Term.Select
import Mathlib

/-! # What a selection takes

A selection puts the dice that are still kept in rank order and takes the first so many of them, to
keep them or to drop them. Its sort is stable, so no two dice share a rank: of equal ones the earlier
comes first. All that a selection does follows from this one list and the place where it is cut.

- `pairwise_mergeSort_ties`: a stable sort.
- `Ahead`, `pairwise_ranking`: the rank of a die.
- `Selection.leading`, `Selection.trailing`: the dice that are taken, and those that are not.
- `mem_droppedBy`, `candidates_selectAll`: what a selection drops, and what it leaves.
- `Selects`, `selection_takes_the_first_in_rank`: a selection as a whole.
-/

namespace Dicebox

/-! ## Stable sorts -/

theorem not_sublist_swap {α : Type} {a b : α} {l : List α} (hl : l.Nodup)
    (hab : [a, b].Sublist l) : ¬ [b, a].Sublist l := by
  induction l with
  | nil => cases hab
  | cons x l ih =>
    obtain ⟨hx, hl⟩ := List.nodup_cons.mp hl
    intro hba
    rcases List.sublist_cons_iff.mp hab with hab | ⟨r, hr, hb⟩
    · have hb : b ∈ l := hab.subset (List.mem_cons_of_mem a List.mem_cons_self)
      rcases List.sublist_cons_iff.mp hba with hba | ⟨r, hr, -⟩
      · exact ih hl hab hba
      · obtain ⟨rfl, -⟩ := List.cons.inj hr
        exact hx hb
    · obtain ⟨rfl, rfl⟩ := List.cons.inj hr
      have hb : b ∈ l := List.singleton_sublist.mp hb
      rcases List.sublist_cons_iff.mp hba with hba | ⟨r, hr, -⟩
      · exact hx (hba.subset (List.mem_cons_of_mem b List.mem_cons_self))
      · obtain ⟨rfl, -⟩ := List.cons.inj hr
        exact hx hb

/-- **A stable sort leaves ties in the order in which they stand.** -/
theorem pairwise_mergeSort_ties {α : Type} {le : α → α → Bool} {R : α → α → Prop} {l : List α}
    (htrans : ∀ a b c, le a b = true → le b c = true → le a c = true)
    (htotal : ∀ a b, (le a b || le b a) = true) (hl : l.Pairwise R) (hnodup : l.Nodup) :
    (l.mergeSort le).Pairwise fun a b => le a b = true ∧ (le b a = true → R a b) := by
  have hsorted := List.pairwise_mergeSort htrans htotal l
  have hperm := List.mergeSort_perm l le
  have hnodup' := hperm.nodup_iff.mpr hnodup
  refine List.pairwise_iff_forall_sublist.mpr fun {a b} hab => ?_
  refine ⟨List.pairwise_iff_forall_sublist.mp hsorted hab, fun hba => ?_⟩
  have ha : a ∈ l := hperm.subset (hab.subset List.mem_cons_self)
  have hb : b ∈ l := hperm.subset (hab.subset (List.mem_cons_of_mem a List.mem_cons_self))
  obtain ⟨front, back, rfl⟩ := List.append_of_mem hb
  rcases List.mem_append.mp ha with hfront | hrest
  · exact (List.pairwise_append.mp hl).2.2 a hfront b List.mem_cons_self
  · exfalso
    rcases List.mem_cons.mp hrest with rfl | hback
    · exact List.nodup_iff_sublist.mp hnodup' _ hab
    · -- the tie stood the other way round, and the sort has kept it so
      have hpair : [b, a].Sublist (front ++ b :: back) := by
        have htail : [b, a].Sublist (b :: back) := (List.singleton_sublist.mpr hback).cons_cons b
        exact htail.trans (List.sublist_append_right _ _)
      exact not_sublist_swap hnodup' hab (List.pair_sublist_mergeSort htrans htotal hba hpair)

/-! ## Rank -/

/-- The first die ranks before the second: it is higher, or lower if the lowest come first, or it is
equal and lies in front. -/
def Ahead (highest : Bool) (a b : Die × Nat) : Prop :=
  (if highest then b.1.value < a.1.value else a.1.value < b.1.value) ∨
    a.1.value = b.1.value ∧ a.2 < b.2

theorem Ahead.value_le {highest : Bool} {a b : Die × Nat} (h : Ahead highest a b) :
    if highest then b.1.value ≤ a.1.value else a.1.value ≤ b.1.value := by
  rcases h with hstrict | ⟨heq, -⟩
  · cases highest with
    | false => exact Int.le_of_lt hstrict
    | true => exact Int.le_of_lt hstrict
  · cases highest with
    | false => exact Int.le_of_eq heq
    | true => exact Int.le_of_eq heq.symm

theorem Ahead.place_lt {highest : Bool} {a b : Die × Nat} (h : Ahead highest a b)
    (heq : a.1.value = b.1.value) : a.2 < b.2 := by
  rcases h with hstrict | ⟨-, hplace⟩
  · cases highest with
    | false => exact absurd heq (Int.ne_of_lt hstrict)
    | true => exact absurd heq.symm (Int.ne_of_lt hstrict)
  · exact hplace

/-- The kept dice with their places, the first in rank first. -/
def ranking (highest : Bool) (dice : List Die) : List (Die × Nat) :=
  (candidates dice).mergeSort (ranksBefore highest)

theorem mem_candidates {d : Die} {i : Nat} {dice : List Die} :
    (d, i) ∈ candidates dice ↔ dice[i]? = some d ∧ d.kept = true := by
  simp [candidates, List.mk_mem_zipIdx_iff_getElem?]

theorem map_value_candidates (dice : List Die) :
    (candidates dice).map (fun p => p.1.value) = (dice.filter (·.kept)).map (·.value) := by
  have hfilter : (candidates dice).map Prod.fst = dice.filter (·.kept) := by
    conv_rhs => rw [← List.zipIdx_map_fst 0 dice]
    rw [candidates, List.filter_map]
    rfl
  rw [← hfilter, List.map_map]
  rfl

theorem length_candidates (dice : List Die) :
    (candidates dice).length = dice.countP (·.kept) := by
  have hlen := congrArg List.length (map_value_candidates dice)
  rwa [List.length_map, List.length_map, ← List.countP_eq_length_filter] at hlen

theorem pairwise_zipIdx {α : Type} (l : List α) (k : Nat) :
    (l.zipIdx k).Pairwise fun a b => a.2 < b.2 := by
  induction l generalizing k with
  | nil => simp
  | cons a l ih =>
    rw [List.zipIdx_cons, List.pairwise_cons]
    refine ⟨fun b hb => ?_, ih (k + 1)⟩
    obtain ⟨hlow, -, -⟩ := List.mem_zipIdx hb
    exact hlow

theorem pairwise_candidates (dice : List Die) :
    (candidates dice).Pairwise fun a b => a.2 < b.2 :=
  (pairwise_zipIdx dice 0).filter _

theorem nodup_candidates (dice : List Die) : (candidates dice).Nodup :=
  (pairwise_candidates dice).imp fun hlt heq => by simp [heq] at hlt

theorem ranking_perm (highest : Bool) (dice : List Die) :
    (ranking highest dice).Perm (candidates dice) := List.mergeSort_perm _ _

theorem nodup_ranking (highest : Bool) (dice : List Die) : (ranking highest dice).Nodup :=
  (ranking_perm highest dice).nodup_iff.mpr (nodup_candidates dice)

/-- **Each die ranks before all that come behind it.** -/
theorem pairwise_ranking (highest : Bool) (dice : List Die) :
    (ranking highest dice).Pairwise (Ahead highest) := by
  have htrans : ∀ a b c : Die × Nat, ranksBefore highest a b = true →
      ranksBefore highest b c = true → ranksBefore highest a c = true := by
    intro a b c
    cases highest <;> simp [ranksBefore] <;> omega
  have htotal : ∀ a b : Die × Nat, (ranksBefore highest a b || ranksBefore highest b a) = true := by
    intro a b
    cases highest <;> simp [ranksBefore] <;> omega
  refine (pairwise_mergeSort_ties htrans htotal (pairwise_candidates dice)
    (nodup_candidates dice)).imp ?_
  rintro a b ⟨hle, htie⟩
  by_cases heq : a.1.value = b.1.value
  · exact .inr ⟨heq, htie (by cases highest <;> simp [ranksBefore, heq])⟩
  · left
    cases highest
    · simp [ranksBefore] at hle ⊢
      omega
    · simp [ranksBefore] at hle ⊢
      omega

/-! ## The cut -/

def Selection.leading (rule : Selection) (count : Int) (dice : List Die) : List (Die × Nat) :=
  (ranking rule.highest dice).take (taken count (dice.countP (·.kept)))

def Selection.trailing (rule : Selection) (count : Int) (dice : List Die) : List (Die × Nat) :=
  (ranking rule.highest dice).drop (taken count (dice.countP (·.kept)))

variable {rule : Selection} {count : Int} {dice : List Die}

theorem leading_append_trailing (rule : Selection) (count : Int) (dice : List Die) :
    rule.leading count dice ++ rule.trailing count dice = ranking rule.highest dice :=
  List.take_append_drop _ _

theorem mem_ranking (highest : Bool) {p : Die × Nat} :
    p ∈ ranking highest dice ↔ p ∈ candidates dice := (ranking_perm highest dice).mem_iff

theorem ahead_of_leading {a b : Die × Nat} (ha : a ∈ rule.leading count dice)
    (hb : b ∈ rule.trailing count dice) : Ahead rule.highest a b := by
  have hpair := pairwise_ranking rule.highest dice
  rw [← leading_append_trailing rule count dice] at hpair
  exact (List.pairwise_append.mp hpair).2.2 a ha b hb

theorem mem_trailing {p : Die × Nat} (hp : p ∈ candidates dice) :
    p ∈ rule.trailing count dice ↔ p ∉ rule.leading count dice := by
  have hnodup := nodup_ranking rule.highest dice
  have hmem := (mem_ranking rule.highest).mpr hp
  rw [← leading_append_trailing rule count dice] at hnodup hmem
  have hdisjoint := List.disjoint_of_nodup_append hnodup
  rcases List.mem_append.mp hmem with hlead | htrail
  · exact ⟨fun htrail => absurd htrail (hdisjoint hlead), fun hnot => absurd hlead hnot⟩
  · exact ⟨fun _ hlead => hdisjoint hlead htrail, fun _ => htrail⟩

theorem mem_candidates_of_leading {p : Die × Nat} (hp : p ∈ rule.leading count dice) :
    p ∈ candidates dice := (mem_ranking _).mp (List.mem_of_mem_take hp)

theorem mem_candidates_of_trailing {p : Die × Nat} (hp : p ∈ rule.trailing count dice) :
    p ∈ candidates dice := (mem_ranking _).mp (List.mem_of_mem_drop hp)

theorem taken_le (count : Int) (size : Nat) : taken count size ≤ size := by
  rw [taken]
  split <;> omega

theorem length_leading :
    (rule.leading count dice).length = taken count (dice.countP (·.kept)) := by
  rw [Selection.leading, List.length_take, (ranking_perm _ _).length_eq, length_candidates]
  exact Nat.min_eq_left (taken_le _ _)

theorem length_trailing : (rule.trailing count dice).length =
    dice.countP (·.kept) - taken count (dice.countP (·.kept)) := by
  rw [Selection.trailing, List.length_drop, (ranking_perm _ _).length_eq, length_candidates]

/-! ## What is dropped and what is left -/

/-- The dice that are still kept after a selection. -/
def Selection.remaining (rule : Selection) (count : Int) (dice : List Die) : List (Die × Nat) :=
  if rule.keeps then rule.leading count dice else rule.trailing count dice

theorem droppedBy_eq : droppedBy rule count dice =
    (if rule.keeps then rule.trailing count dice else rule.leading count dice).map Prod.snd := by
  have hlen : (ranked rule.highest dice).length = dice.countP (·.kept) := by
    rw [ranked, List.length_map, List.length_mergeSort, length_candidates]
  rw [droppedBy]
  simp only [hlen]
  split
  · exact (List.map_drop ..).symm
  · exact (List.map_take ..).symm

theorem snd_mem_map {l : List (Die × Nat)} (hl : ∀ p ∈ l, p ∈ candidates dice) {p : Die × Nat}
    (hp : p ∈ candidates dice) : p.2 ∈ l.map Prod.snd ↔ p ∈ l := by
  constructor
  · intro hplace
    obtain ⟨⟨d, i⟩, hmem, rfl⟩ := List.mem_map.mp hplace
    have hd := (mem_candidates.mp (hl _ hmem)).1
    have hp := (mem_candidates.mp hp).1
    rw [hd] at hp
    obtain rfl := Option.some.inj hp
    exact hmem
  · intro hmem
    exact List.mem_map_of_mem hmem

theorem mem_droppedBy (rule : Selection) (count : Int) {p : Die × Nat} (hp : p ∈ candidates dice) :
    p.2 ∈ droppedBy rule count dice ↔ p ∉ rule.remaining count dice := by
  rw [droppedBy_eq, Selection.remaining]
  by_cases hkeeps : rule.keeps = true
  · rw [if_pos hkeeps, if_pos hkeeps, snd_mem_map (fun _ => mem_candidates_of_trailing) hp,
      mem_trailing hp]
  · rw [if_neg hkeeps, if_neg hkeeps, snd_mem_map (fun _ => mem_candidates_of_leading) hp,
      mem_trailing hp, not_not]

/-- A die after a selection that drops the dice at some places. -/
def Die.unlessAt (dropped : List Nat) (i : Nat) (d : Die) : Die :=
  if i ∈ dropped then { d with kept := false } else d

theorem getElem?_selectAll (i : Nat) : (selectAll rule count dice)[i]? =
    dice[i]?.map (Die.unlessAt (droppedBy rule count dice) i) := by
  rw [selectAll, List.getElem?_map, List.getElem?_zipIdx, Option.map_map, Nat.zero_add]
  rfl

theorem Die.kept_unlessAt {dropped : List Nat} {i : Nat} {d : Die} :
    (d.unlessAt dropped i).kept = true ↔ i ∉ dropped ∧ d.kept = true := by
  rw [unlessAt]
  by_cases hi : i ∈ dropped
  · simp [hi]
  · simp [hi]

theorem candidates_selectAll :
    (candidates (selectAll rule count dice)).Perm (rule.remaining count dice) := by
  have hnodup : (rule.remaining count dice).Nodup := by
    rw [Selection.remaining]
    split
    · exact (nodup_ranking _ _).sublist (List.take_sublist _ _)
    · exact (nodup_ranking _ _).sublist (List.drop_sublist _ _)
  have hcandidate : ∀ p ∈ rule.remaining count dice, p ∈ candidates dice := by
    intro p hp
    rw [Selection.remaining] at hp
    split at hp
    · exact mem_candidates_of_leading hp
    · exact mem_candidates_of_trailing hp
  refine (List.perm_ext_iff_of_nodup (nodup_candidates _) hnodup).mpr fun ⟨d, i⟩ => ?_
  rw [mem_candidates, getElem?_selectAll, Option.map_eq_some_iff]
  constructor
  · rintro ⟨⟨e, he, rfl⟩, hkept⟩
    obtain ⟨hplace, hkept⟩ := Die.kept_unlessAt.mp hkept
    have hmem : (e, i) ∈ candidates dice := mem_candidates.mpr ⟨he, hkept⟩
    rw [Die.unlessAt, if_neg hplace]
    by_contra hout
    exact hplace ((mem_droppedBy rule count hmem).mpr hout)
  · intro hmem
    have hd := hcandidate _ hmem
    have hplace : i ∉ droppedBy rule count dice := fun h => (mem_droppedBy rule count hd).mp h hmem
    obtain ⟨hdie, hkept⟩ := mem_candidates.mp hd
    exact ⟨⟨d, hdie, by rw [Die.unlessAt, if_neg hplace]⟩, hkept⟩

/-! ## The law -/

/-- The die at a place was kept, and the selection has taken it: a keep has kept it, and a drop has
dropped it. -/
def TakenAt (rule : Selection) (dice dice' : List Die) (i : Nat) (d : Die) : Prop :=
  dice[i]? = some d ∧ d.kept = true ∧ ∃ d', dice'[i]? = some d' ∧ d'.kept = rule.keeps

/-- The die at a place was kept, and the selection has not taken it. -/
def PassedOver (rule : Selection) (dice dice' : List Die) (i : Nat) (d : Die) : Prop :=
  dice[i]? = some d ∧ d.kept = true ∧ ∃ d', dice'[i]? = some d' ∧ d'.kept ≠ rule.keeps

/-- A selection takes the first dice in rank, so many as it asks for or all, and does nothing else. -/
structure Selects (rule : Selection) (count : Nat) (dice dice' : List Die) : Prop where
  /-- No die is moved or changed, except that a kept one may be dropped. -/
  unchanged : List.Forall₂ (fun d d' => d' = d ∨ d.kept = true ∧ d' = { d with kept := false })
    dice dice'
  left : dice'.countP (·.kept) =
    if rule.keeps then min count (dice.countP (·.kept))
    else dice.countP (·.kept) - min count (dice.countP (·.kept))
  /-- What is taken is at least as high as what is not, or at most as high. -/
  rank : ∀ {i j d e}, TakenAt rule dice dice' i d → PassedOver rule dice dice' j e →
    if rule.highest then e.value ≤ d.value else d.value ≤ e.value
  /-- Of equal dice the earlier ones are taken. -/
  ties : ∀ {i j d e}, TakenAt rule dice dice' i d → PassedOver rule dice dice' j e →
    d.value = e.value → i < j

theorem kept_eq_keeps {d d' : Die} {i : Nat} (hd : dice[i]? = some d) (hkept : d.kept = true)
    (hd' : (selectAll rule count dice)[i]? = some d') :
    d'.kept = rule.keeps ↔ (d, i) ∈ rule.leading count dice := by
  have hmem := mem_candidates.mpr ⟨hd, hkept⟩
  rw [getElem?_selectAll, hd] at hd'
  obtain rfl := Option.some.inj hd'
  have hremains : (d.unlessAt (droppedBy rule count dice) i).kept = true ↔
      (d, i) ∈ rule.remaining count dice := by
    have hplace := mem_droppedBy rule count hmem
    rw [Die.kept_unlessAt, hplace, not_not]
    exact and_iff_left hkept
  rw [Selection.remaining] at hremains
  cases hkeeps : rule.keeps
  · rw [hkeeps, if_neg Bool.false_ne_true, mem_trailing hmem] at hremains
    rw [← Bool.not_eq_true, hremains, not_not]
  · rwa [hkeeps, if_pos rfl] at hremains

theorem TakenAt.mem_leading {i : Nat} {d : Die}
    (h : TakenAt rule dice (selectAll rule count dice) i d) : (d, i) ∈ rule.leading count dice := by
  obtain ⟨hd, hkept, d', hd', hkeeps⟩ := h
  exact (kept_eq_keeps hd hkept hd').mp hkeeps

theorem PassedOver.mem_trailing {i : Nat} {d : Die}
    (h : PassedOver rule dice (selectAll rule count dice) i d) :
    (d, i) ∈ rule.trailing count dice := by
  obtain ⟨hd, hkept, d', hd', hkeeps⟩ := h
  refine (Dicebox.mem_trailing (mem_candidates.mpr ⟨hd, hkept⟩)).mpr fun hlead => ?_
  exact hkeeps ((kept_eq_keeps hd hkept hd').mpr hlead)

theorem kept_of_mem_droppedBy {i : Nat} {d : Die} (hd : dice[i]? = some d)
    (hi : i ∈ droppedBy rule count dice) : d.kept = true := by
  rw [droppedBy_eq] at hi
  obtain ⟨⟨e, j⟩, hmem, rfl⟩ := List.mem_map.mp hi
  have he : (e, j) ∈ candidates dice := by
    split at hmem
    · exact mem_candidates_of_trailing hmem
    · exact mem_candidates_of_leading hmem
  obtain ⟨hplace, hkept⟩ := mem_candidates.mp he
  rw [hplace] at hd
  obtain rfl := Option.some.inj hd
  exact hkept

theorem selectAll_unchanged (rule : Selection) (count : Int) (dice : List Die) :
    List.Forall₂ (fun d d' => d' = d ∨ d.kept = true ∧ d' = { d with kept := false }) dice
      (selectAll rule count dice) := by
  conv => arg 2; rw [← List.zipIdx_map_fst 0 dice]
  rw [selectAll, List.forall₂_map_left_iff, List.forall₂_map_right_iff, List.forall₂_same]
  rintro ⟨d, i⟩ hd
  by_cases hi : i ∈ droppedBy rule count dice
  · right
    exact ⟨kept_of_mem_droppedBy (List.mk_mem_zipIdx_iff_getElem?.mp hd) hi, if_pos hi⟩
  · left
    exact if_neg hi

theorem countP_selectAll (rule : Selection) (count : Int) (dice : List Die) :
    (selectAll rule count dice).countP (·.kept) =
      if rule.keeps then taken count (dice.countP (·.kept))
      else dice.countP (·.kept) - taken count (dice.countP (·.kept)) := by
  rw [← length_candidates, candidates_selectAll.length_eq, Selection.remaining]
  split
  · exact length_leading
  · exact length_trailing

theorem taken_natCast (count size : Nat) : taken count size = min count size := by
  rw [taken, if_neg (by omega), Int.toNat_natCast]

/-- **A selection takes the first dice in rank and touches nothing else.** -/
theorem selection_takes_the_first_in_rank (rule : Selection) (count : Nat) (dice : List Die) :
    Selects rule count dice (selectAll rule count dice) := by
  refine ⟨selectAll_unchanged rule count dice, ?_, ?_, ?_⟩
  · rw [countP_selectAll, taken_natCast]
  · intro i j d e htaken hpassed
    exact (ahead_of_leading htaken.mem_leading hpassed.mem_trailing).value_le
  · intro i j d e htaken hpassed heq
    exact (ahead_of_leading htaken.mem_leading hpassed.mem_trailing).place_lt heq

/-- Of three fives the first two are kept. -/
example : (selectAll .keepHighest 2
    ([5, 5, 2, 5].map fun v => { value := v, sides := 6, term := 0 })).map Die.kept =
      [true, true, false, false] := by
  cbv

end Dicebox
