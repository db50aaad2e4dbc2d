import Dicebox.Proofs.Numeral
import Dicebox.Proofs.Timestamps
import Dicebox.Settings

/-! # What readers are relied on for

Single values of stored rolls and settings are read by a library, and which spellings it admits is up
to it. A roll comes back because typed values are read as they are and a written time as that time;
what was read in another spelling is written again because times have no more to them than is
written; and a limit that was read from a text can be shown, since numerals of texts are not longer
than those that can be.

- `ValueReader.Lawful`, `SettingsReader.Lawful`: all that is relied on.
- `ValueReader.lenient_lawful`, `SettingsReader.lenient_lawful`: the lenient library.
-/

namespace Dicebox

/-! ## Single values -/

/-- What is relied on of a library for single values. -/
structure ValueReader.Lawful (reader : ValueReader) : Prop where
  int_int : ∀ {ρ : Type} (n : Int), (reader.int (.int n) : Checked ρ Int) = .good n
  bool_bool : ∀ {ρ : Type} (b : Bool), (reader.bool (.bool b) : Checked ρ Bool) = .good b
  text_text : ∀ {ρ : Type} (s : String), (reader.text (.text s) : Checked ρ String) = .good s
  /-- An exact time is read back, if its year can be stored. -/
  time_write : ∀ {ρ : Type} {t : Timestamp}, t.Exact → 1 ≤ t.year →
    (reader.time (.text t.write) : Checked ρ Timestamp) = .good t
  /-- Every time that is read is exact, and in a year that can be stored. -/
  exact_of_time : ∀ {ρ : Type} {d : Data} {t : Timestamp},
    reader.time d = (.good t : Checked ρ Timestamp) → t.Exact ∧ 1 ≤ t.year
  showable_of_text : ∀ {ρ : Type} {s : String} {n : Int},
    reader.int (.text s) = (.good n : Checked ρ Int) → Numeral.showable n = true

variable {ρ : Type}

theorem readTime_write {t : Timestamp} (h : t.Exact) (hyear : 1 ≤ t.year) :
    (Data.readTime (.text t.write) : Checked ρ Timestamp) = .good t := by
  rw [Data.readTime, Timestamp.readAny?_write h]
  exact if_pos hyear

theorem nearTime_eq_good {found : Option Timestamp} {t : Timestamp}
    (h : Data.nearTime found = (.good t : Checked ρ Timestamp)) : found = some t ∧ 1 ≤ t.year := by
  rw [Data.nearTime.eq_def] at h
  split at h
  · split at h
    · obtain rfl := Checked.good.inj h
      exact ⟨rfl, ‹_›⟩
    · cases h
  · cases h

theorem exact_of_readTime {d : Data} {t : Timestamp}
    (h : d.readTime = (.good t : Checked ρ Timestamp)) : t.Exact ∧ 1 ≤ t.year := by
  cases d with
  | text s =>
    rw [Data.readTime] at h
    split at h
    · next found hread =>
      obtain ⟨hfound, hyear⟩ := nearTime_eq_good h
      obtain rfl := Option.some.inj hfound
      exact ⟨Timestamp.exact_of_readAny? hread, hyear⟩
    · cases h
  | int n =>
    rw [Data.readTime] at h
    split at h
    · obtain ⟨hfound, hyear⟩ := nearTime_eq_good h
      exact ⟨Timestamp.exact_of_ofCount? hfound, hyear⟩
    · split at h
      · cases h
      · cases h
  | real x =>
    obtain ⟨hfound, hyear⟩ := nearTime_eq_good h
    exact ⟨Timestamp.exact_of_ofReal? hfound, hyear⟩
  | _ => cases h

theorem showable_of_readInt_text {s : String} {n : Int}
    (h : (Data.text s).readInt = (.good n : Checked ρ Int)) : Numeral.showable n = true := by
  rw [Data.readInt] at h
  split at h
  · obtain rfl := Checked.good.inj h
    exact Numeral.showable_of_readWhole ‹_›
  · cases h
  · cases h

theorem ValueReader.lenient_lawful : ValueReader.lenient.Lawful where
  int_int _ := rfl
  bool_bool _ := rfl
  text_text _ := rfl
  time_write h hyear := by
    dsimp only [ValueReader.lenient]
    exact readTime_write h hyear
  exact_of_time h := exact_of_readTime h
  showable_of_text h := showable_of_readInt_text h

/-! ## Settings -/

/-- What is relied on of a library for settings: what an environment sets is text. -/
structure SettingsReader.Lawful (reader : SettingsReader) : Prop where
  values : reader.values.Lawful
  exists_text : ∀ {start : String} {environment : List (String × String)} {name : String} {v : Data},
    (reader.gathered start environment []).field? name = some v → ∃ s, v = .text s

theorem Settings.text_of_gathered {start : String} {environment : List (String × String)}
    {name : String} {v : Data} (h : (gathered start environment []).field? name = some v) :
    ∃ s, v = .text s := by
  obtain ⟨before, after, hfields, -⟩ := List.lookup_eq_some_iff.mp h
  rw [List.map_nil, List.reverse_nil, List.nil_append] at hfields
  have hmem : (name, v) ∈ before ++ (name, v) :: after :=
    List.mem_append_right _ List.mem_cons_self
  rw [← hfields, List.mem_reverse, List.mem_filterMap] at hmem
  obtain ⟨⟨key, value⟩, -, hset⟩ := hmem
  simp only [setting?] at hset
  split at hset
  · exact ⟨value, (Prod.mk.inj (Option.some.inj hset)).2.symm⟩
  · cases hset

theorem SettingsReader.lenient_lawful : SettingsReader.lenient.Lawful where
  values := ValueReader.lenient_lawful
  exists_text := Settings.text_of_gathered

end Dicebox
