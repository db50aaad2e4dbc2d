import Dicebox.Timestamp
import Mathlib

/-! # Dates of the calendar

The days since the start of 1970 are counted in eras of 400 years that begin in March, so that a leap
day is the last day of its year. Which year a day lies in follows from its place in the era, and the
month and the day from its place in the year. All of it exists in the calendar: there are no more
days to a month than it has, and a 366th day belongs to a year that ends in a 29th of February.

- `yearOfEra_bounds`: the year of an era that a day lies in, and its place there.
- `dayOfMonth_bounds`: the month of a year, and the day of the month.
- `dateOfDays_exists`: the date of a day.
- `valid_of_ofSeconds?`: the time of a second.
-/

namespace Dicebox.Timestamp

/-! ## Years -/

/-- A day of one of the four centuries of an era, but for the day that ends the era: the year of the
century that it lies in, and its place in the year. The year that ends a century has no leap day. -/
theorem yearOfCentury_bounds {century day year : Int} (hc : 0 ≤ century ∧ century ≤ 3)
    (hd : 0 ≤ day ∧ day < 36524) (hy : year = (day - (24 * century + day) / 1460) / 365) :
    0 ≤ year ∧ year ≤ 99 ∧ 0 ≤ day - 365 * year - year / 4 ∧
      day - 365 * year - year / 4 ≤ 365 ∧
        (day - 365 * year - year / 4 = 365 → (year + 1) % 4 = 0 ∧ year ≠ 99) := by
  -- the leap days that are taken off are those before the year, or one more
  have hlow : year / 4 ≤ (24 * century + day) / 1460 := by omega
  have hhigh : (24 * century + day) / 1460 ≤ year / 4 + 1 := by omega
  have hlast : year ≤ 99 := by omega
  refine ⟨by omega, hlast, by omega, by omega, fun h => ⟨?_, by omega⟩⟩
  have hleap : year = 4 * (year / 4) + 3 := by omega
  omega

/-- The year of an era that a day of it lies in. -/
def yearOfEra (day : Int) : Int := (day - day / 1460 + day / 36524 - day / 146096) / 365

def dayOfYear (day : Int) : Int :=
  day - (365 * yearOfEra day + yearOfEra day / 4 - yearOfEra day / 100)

/-- **A year has 365 days, or 366 if it ends in a leap year.** -/
theorem yearOfEra_bounds {day : Int} (hd : 0 ≤ day ∧ day < 146097) :
    0 ≤ yearOfEra day ∧ yearOfEra day ≤ 399 ∧ 0 ≤ dayOfYear day ∧ dayOfYear day ≤ 365 ∧
      (dayOfYear day = 365 → (yearOfEra day + 1) % 4 = 0 ∧
        ((yearOfEra day + 1) % 100 ≠ 0 ∨ (yearOfEra day + 1) % 400 = 0)) := by
  by_cases hlast : day = 146096
  · subst hlast
    decide
  · obtain ⟨century, place, hc, hp, rfl⟩ : ∃ century place : Int, (0 ≤ century ∧ century ≤ 3) ∧
        (0 ≤ place ∧ place < 36524) ∧ day = 36524 * century + place :=
      ⟨day / 36524, day % 36524, ⟨by omega, by omega⟩, ⟨by omega, by omega⟩, by omega⟩
    obtain ⟨year, hy⟩ : ∃ year, year = (place - (24 * century + place) / 1460) / 365 := ⟨_, rfl⟩
    obtain ⟨hzero, hninety, hlow, hhigh, hleap⟩ := yearOfCentury_bounds hc hp hy
    have hyear : yearOfEra (36524 * century + place) = 100 * century + year := by
      rw [yearOfEra]
      omega
    have hfours : (100 * century + year) / 4 = 25 * century + year / 4 := by omega
    have hhundreds : (100 * century + year) / 100 = century := by omega
    rw [dayOfYear, hyear, hfours, hhundreds]
    refine ⟨by omega, by omega, by omega, by omega, fun h => ?_⟩
    obtain ⟨hfour, hne⟩ := hleap (by omega)
    exact ⟨by omega, .inl (by omega)⟩

theorem yearOfEra_eq_last {day : Int} (hd : 0 ≤ day ∧ day < 146097) :
    yearOfEra day = 399 ↔ 145731 ≤ day := by
  rw [yearOfEra]
  omega

/-! ## Months -/

/-- The place in a year that begins in March of the month that a day lies in. -/
def monthOfYear (day : Int) : Int := (5 * day + 2) / 153

def dayOfMonth (day : Int) : Int := day - (153 * monthOfYear day + 2) / 5 + 1

/-- The number of a month by its place in a year that begins in March. -/
def monthNumber (march : Int) : Int := if march < 10 then march + 3 else march - 9

/-- The months from March to January begin where the days before them end. -/
theorem length_of_month (year : Nat) {march : Int} (hm : 0 ≤ march ∧ march ≤ 10) :
    ((153 * (march + 1) + 2) / 5 - (153 * march + 2) / 5 : Int) =
      daysIn year (monthNumber march).toNat := by
  obtain ⟨hlow, hhigh⟩ := hm
  interval_cases march <;> rfl

/-- **No month has more days than the calendar gives it**, if a 366th day ends a leap year. -/
theorem dayOfMonth_bounds {day : Int} (hd : 0 ≤ day ∧ day ≤ 365) {year : Nat}
    (hleap : day = 365 → isLeap year = true) :
    1 ≤ dayOfMonth day ∧ dayOfMonth day ≤ daysIn year (monthNumber (monthOfYear day)).toNat := by
  obtain ⟨march, hm⟩ : ∃ march, march = monthOfYear day := ⟨_, rfl⟩
  have hfloor : 153 * march ≤ 5 * day + 2 ∧ 5 * day + 2 < 153 * march + 153 := by
    rw [hm, monthOfYear]
    omega
  rw [dayOfMonth, ← hm]
  by_cases hfebruary : march = 11
  · subst hfebruary
    have hdays : daysIn year (monthNumber 11).toNat = if isLeap year then 29 else 28 := rfl
    rw [hdays]
    by_cases hlast : day = 365
    · rw [if_pos (hleap hlast)]
      omega
    · split <;> omega
  · rw [← length_of_month year ⟨by omega, by omega⟩]
    omega

/-! ## Dates -/

theorem isLeap_of_mod {year : Int} (hyear : 0 ≤ year) (hfour : year % 4 = 0)
    (hhundred : year % 100 ≠ 0 ∨ year % 400 = 0) : isLeap year.toNat = true := by
  obtain ⟨n, rfl⟩ := Int.eq_ofNat_of_zero_le hyear
  simp only [isLeap, Int.toNat_natCast, Bool.and_eq_true, Bool.or_eq_true, bne_iff_ne,
    decide_eq_true_eq]
  omega

/-- The date of a day by its place in an era. January and February end a year of the era, but are in
the next year of the calendar. -/
theorem dateOfDays_eq {days era place : Int} (hp : 0 ≤ place ∧ place < 146097)
    (hdays : days + 719468 = era * 146097 + place) :
    dateOfDays days = (if 306 ≤ dayOfYear place then yearOfEra place + era * 400 + 1
        else yearOfEra place + era * 400,
      monthNumber (monthOfYear (dayOfYear place)), dayOfMonth (dayOfYear place)) := by
  have hera : (days + 719468).fdiv 146097 = era := by
    rw [Int.fdiv_eq_ediv_of_nonneg _ (by decide)]
    omega
  have hplace : days + 719468 - era * 146097 = place := by omega
  have hnext : monthNumber (monthOfYear (dayOfYear place)) ≤ 2 ↔ 306 ≤ dayOfYear place := by
    have hlow := (yearOfEra_bounds hp).2.2
    rw [monthNumber, monthOfYear]
    split <;> omega
  simp only [dateOfDays, hera, hplace, ← hnext]
  rfl

/-- **The days from the start of the year 0 to the end of the year 9999 have a date.** -/
theorem dateOfDays_exists {days : Int} (hdays : -719528 ≤ days ∧ days ≤ 2932896) :
    let (year, month, day) := dateOfDays days
    (0 ≤ year ∧ year ≤ 9999) ∧ 1 ≤ day ∧ day ≤ daysIn year.toNat month.toNat := by
  obtain ⟨era, place, hp, hsplit⟩ : ∃ era place : Int, (0 ≤ place ∧ place < 146097) ∧
      days + 719468 = era * 146097 + place :=
    ⟨(days + 719468) / 146097, (days + 719468) % 146097, ⟨by omega, by omega⟩, by omega⟩
  rw [dateOfDays_eq hp hsplit]
  dsimp only
  obtain ⟨hzero, hlast, hlow, hhigh, hleap⟩ := yearOfEra_bounds hp
  obtain ⟨year, hyear⟩ : ∃ year, year = if 306 ≤ dayOfYear place then
      yearOfEra place + era * 400 + 1 else yearOfEra place + era * 400 := ⟨_, rfl⟩
  rw [← hyear]
  have hbounds : 0 ≤ year ∧ year ≤ 9999 := by
    -- the year 0 begins on the 306th day of an era's last year, and so does the year 10000
    have hend : yearOfEra place = 399 ↔ 145731 ≤ place := yearOfEra_eq_last hp
    have hday : yearOfEra place = 399 → dayOfYear place = place - 145731 := by
      intro h
      rw [dayOfYear, h]
      omega
    split at hyear <;> omega
  refine ⟨hbounds, dayOfMonth_bounds ⟨hlow, hhigh⟩ fun hday => ?_⟩
  rw [if_pos (by omega)] at hyear
  obtain ⟨hfour, hhundred⟩ := hleap hday
  exact isLeap_of_mod hbounds.1 (by omega) (by omega)

/-! ## Times -/

/-- A count of seconds between the years 0 and 9999 gives a time of the calendar. -/
theorem valid_of_ofSeconds? {seconds : Int} {microsecond : Nat} {t : Timestamp}
    (hus : microsecond < 1000000) (h : ofSeconds? seconds microsecond = some t) :
    t.valid = true ∧ t.offset = some 0 := by
  rw [ofSeconds?] at h
  split at h
  · cases h
  · next hrange =>
    have hdays : -719528 ≤ seconds.fdiv 86400 ∧ seconds.fdiv 86400 ≤ 2932896 := by
      rw [firstMoment, lastMoment] at hrange
      rw [Int.fdiv_eq_ediv_of_nonneg _ (by decide)]
      omega
    have hrest : (seconds.fmod 86400).toNat < 86400 := by
      rw [Int.fmod_eq_emod_of_nonneg _ (by decide)]
      omega
    have hdate := dateOfDays_exists hdays
    obtain ⟨year, month, day⟩ := dateOfDays (seconds.fdiv 86400)
    obtain ⟨hyear, hday, hmonth⟩ := hdate
    obtain rfl := Option.some.inj h
    refine ⟨?_, rfl⟩
    have hoffset : ((some 0 : Option Int).all fun o => o.natAbs < span 24 0 0) = true := by decide
    simp only [valid, hoffset, Bool.and_eq_true, decide_eq_true_eq, and_true]
    omega

end Dicebox.Timestamp
