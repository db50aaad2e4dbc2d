import Dicebox.Data.Read
import Mathlib

/-! # What good values are made of

A checked value is good if and only if everything that it is made of is good: both of two values, a
value and the condition on it, every item of a list, every field of a record.

- `Checked.map_eq_good`, `Checked.seq_eq_good`, `Checked.andThen_eq_good`: values in parts.
- `Checked.allFrom_eq_good`, `readList_eq_good`: lists.
- `readList_modify`: a list of which one item was changed.
- `readField_eq_good`, `exists_of_readField`: records.
-/

namespace Dicebox

variable {ρ α β : Type}

namespace Checked

theorem map_eq_good {f : α → β} {c : Checked ρ α} {b : β} :
    c.map f = .good b ↔ ∃ a, c = .good a ∧ f a = b := by
  cases c <;> simp [map]

theorem seq_eq_good {f : Checked ρ (α → β)} {c : Checked ρ α} {b : β} :
    f.seq c = .good b ↔ ∃ g a, f = .good g ∧ c = .good a ∧ g a = b := by
  cases f <;> cases c <;> simp [seq]

theorem andThen_eq_good {c : Checked ρ α} {f : α → Checked ρ β} {b : β} :
    c.andThen f = .good b ↔ ∃ a, c = .good a ∧ f a = .good b := by
  cases c <;> simp [andThen]

theorem under_eq_good {name : String} {c : Checked ρ α} {a : α} :
    c.under name = .good a ↔ c = .good a := by
  cases c <;> simp [under]

theorem allFrom_eq_good {place : Nat} {cs : List (Checked ρ α)} {as : List α} :
    allFrom place cs = .good as ↔ cs = as.map .good := by
  constructor
  · intro h
    induction cs generalizing place as with
    | nil =>
      cases h
      rfl
    | cons c cs ih =>
      obtain ⟨g, bs, hg, hbs, rfl⟩ := seq_eq_good.mp h
      obtain ⟨a, ha, rfl⟩ := map_eq_good.mp hg
      rw [under_eq_good.mp ha, ih hbs]
      rfl
  · rintro rfl
    exact allFrom_good place as

end Checked

theorem atLeast_eq_good {low n m : Int} :
    (atLeast low n : Checked ρ Int) = .good m ↔ low ≤ n ∧ n = m := by
  rw [atLeast]
  split <;> simp [Checked.fail, *]

theorem le_of_andThen_atLeast {low n : Int} {c : Checked ρ Int}
    (h : c.andThen (atLeast low) = .good n) : low ≤ n := by
  obtain ⟨m, -, hm⟩ := Checked.andThen_eq_good.mp h
  obtain ⟨hle, rfl⟩ := atLeast_eq_good.mp hm
  exact hle

/-! ## Lists -/

section Lists

variable {read : Data → Checked ρ α}

theorem readList_eq_good {items : List Data} {as : List α} :
    Data.readList read (.list items) = .good as ↔ items.map read = as.map .good :=
  Checked.allFrom_eq_good

theorem length_of_readList {items : List Data} {as : List α}
    (h : Data.readList read (.list items) = .good as) : items.length = as.length := by
  simpa using congrArg List.length (readList_eq_good.mp h)

theorem exists_of_readList {d : Data} {as : List α} (h : Data.readList read d = .good as) :
    ∀ a ∈ as, ∃ v, read v = .good a := by
  intro a ha
  cases d with
  | list items =>
    have hmem : Checked.good a ∈ items.map read := by
      rw [readList_eq_good.mp h]
      exact List.mem_map_of_mem ha
    obtain ⟨v, -, hv⟩ := List.mem_map.mp hmem
    exact ⟨v, hv⟩
  | _ => cases h

theorem readList_map {write : α → Data} {as : List α} (h : ∀ a ∈ as, read (write a) = .good a) :
    Data.readList read (.list (as.map write)) = .good as := by
  rw [readList_eq_good, List.map_map]
  exact List.map_congr_left h

/-- Where every item of a list is read back and one of them is changed, the list that is read
differs at this place only. -/
theorem readList_modify {write : α → Data} {f : Data → Data} {as bs : List α} {i : Nat} {a : α}
    (has : ∀ a ∈ as, read (write a) = .good a) (hi : as[i]? = some a)
    (h : Data.readList read (.list ((as.map write).modify i f)) = .good bs) :
    ∃ b, read (f (write a)) = .good b ∧ bs = as.set i b := by
  rw [readList_eq_good] at h
  induction as generalizing i bs with
  | nil => cases hi
  | cons a' as ih =>
    obtain ⟨ha', hmore⟩ := List.forall_mem_cons.mp has
    cases i with
    | zero =>
      obtain rfl := Option.some.inj hi
      rw [List.map_cons, List.modify_zero_cons, List.map_cons] at h
      obtain ⟨b, bs, rfl, hb, hbs⟩ := List.map_eq_cons_iff.mp h.symm
      have hsame : bs = as := by
        have hmap : bs.map (Checked.good (ρ := ρ)) = as.map Checked.good := by
          rw [hbs, List.map_map]
          exact List.map_congr_left hmore
        exact List.map_injective_iff.mpr (fun _ _ => Checked.good.inj) hmap
      rw [hsame]
      exact ⟨b, hb.symm, rfl⟩
    | succ i =>
      rw [List.map_cons, List.modify_succ_cons, List.map_cons, ha'] at h
      obtain ⟨b, bs, rfl, hb, hbs⟩ := List.map_eq_cons_iff.mp h.symm
      obtain rfl := Checked.good.inj hb
      obtain ⟨c, hc, rfl⟩ := ih hmore hi hbs.symm
      exact ⟨c, hc, rfl⟩

end Lists

/-! ## Records -/

theorem readField_eq_good {name : String} {read : Data → Checked ρ α} {d v : Data} {a : α}
    (hfield : d.field? name = some v) : d.readField name read = .good a ↔ read v = .good a := by
  rw [Data.readField, hfield]
  exact Checked.under_eq_good

theorem readFieldOr_eq_good {name : String} {absent : α} {read : Data → Checked ρ α} {d v : Data}
    {a : α} (hfield : d.field? name = some v) :
    d.readFieldOr name absent read = .good a ↔ read v = .good a := by
  rw [Data.readFieldOr, hfield]
  exact Checked.under_eq_good

theorem exists_of_readField {name : String} {read : Data → Checked ρ α} {d : Data} {a : α}
    (h : d.readField name read = .good a) : ∃ v, read v = .good a := by
  rw [Data.readField] at h
  split at h
  · exact ⟨_, Checked.under_eq_good.mp h⟩
  · cases h

theorem exists_of_readFieldOr {name : String} {absent : α} {read : Data → Checked ρ α} {d : Data}
    {a : α} (h : d.readFieldOr name absent read = .good a) : absent = a ∨ ∃ v, read v = .good a := by
  rw [Data.readFieldOr] at h
  split at h
  · exact .inr ⟨_, Checked.under_eq_good.mp h⟩
  · exact .inl (Checked.good.inj h)

end Dicebox
