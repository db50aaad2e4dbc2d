import Dicebox.Proofs.Calendar

/-! # Reading written timestamps

A number that is written in a fixed width is read back, with what follows it, if it has no more
digits than the width. The parts of a valid timestamp are such numbers, so the written form of a time
is read as the time that it was written for, unless it leaves out seconds of the offset. No reader
comes to such an offset, and so every time that was read is written and read again as it was.

- `Timestamp.number?_digits`: numbers of a fixed width.
- `Timestamp.Exact`: a time that is written without loss.
- `Timestamp.readAny?_write`: the written form of one.
- `Timestamp.exact_of_readAny?`, `Timestamp.exact_of_ofReal?`: what is read is one.
-/

namespace Dicebox.Timestamp

/-! ## Numbers of a fixed width -/

theorem length_digits {width n : Nat} (hw : 0 < width) (hn : n < 10 ^ width) :
    (digits width n).length = width := by
  have hlen : (Nat.toDigits 10 n).length ≤ width :=
    (Nat.length_toDigits_le_iff (by decide) hw).mpr hn
  rw [digits, zeroFilled, List.length_append, List.length_replicate]
  omega

theorem isDigit_of_mem_digits {width n : Nat} : ∀ c ∈ digits width n, c.isDigit = true := by
  intro c hc
  rcases List.mem_append.mp hc with hc | hc
  · obtain rfl := List.eq_of_mem_replicate hc
    rfl
  · exact Nat.isDigit_of_mem_toDigits (by decide) (by decide) hc

theorem ofDigitChars_digits (width n : Nat) : Nat.ofDigitChars 10 (digits width n) 0 = n := by
  rw [digits, zeroFilled, Nat.ofDigitChars_append, Nat.ofDigitChars_replicate_zero, Nat.mul_zero,
    Nat.ofDigitChars_ten_toDigits]

theorem number?_digits {width n : Nat} (hw : 0 < width) (hn : n < 10 ^ width) (rest : List Char) :
    number? width (digits width n ++ rest) = some (n, rest) := by
  have hlen := length_digits hw hn
  have htake : (digits width n ++ rest).take width = digits width n := List.take_left' hlen
  have hdrop : (digits width n ++ rest).drop width = rest := List.drop_left' hlen
  have hall : (digits width n).all Char.isDigit = true :=
    List.all_eq_true.mpr isDigit_of_mem_digits
  rw [number?, htake, hdrop]
  exact (if_pos ⟨hlen, hall⟩).trans (by rw [ofDigitChars_digits])

theorem number?_two_digits {n : Nat} (hn : n < 100) (rest : List Char) :
    number? 2 (digits 2 n ++ rest) = some (n, rest) := number?_digits (by decide) hn rest

theorem marked?_digits {n : Nat} (hn : n < 100) (mark : Char) (rest : List Char) :
    marked? mark (mark :: (digits 2 n ++ rest)) = some (n, rest) :=
  (if_pos rfl).trans (number?_two_digits hn rest)

/-! ## Parts of a timestamp -/

theorem readDate?_digits {year month day : Nat} (hy : year < 10000) (hm : month < 100)
    (hd : day < 100) (rest : List Char) :
    readDate? (digits 4 year ++ '-' :: (digits 2 month ++ '-' :: (digits 2 day ++ rest))) =
      some (year, month, day, rest) := by
  rw [readDate?, number?_digits (by decide) hy]
  simp only [Option.bind_eq_bind, Option.bind_some, marked?_digits hm, marked?_digits hd,
    Option.pure_def]

/-- Neither a digit nor the point of a fraction begins a text. -/
def EndsNumber (cs : List Char) : Prop := ∀ c ∈ cs.head?, c.isDigit = false ∧ c ≠ '.' ∧ c ≠ ','

theorem EndsNumber.span_digits {rest : List Char} (h : EndsNumber rest) {ds : List Char}
    (hds : ∀ c ∈ ds, c.isDigit = true) : (ds ++ rest).span Char.isDigit = (ds, rest) := by
  have hrest : rest.takeWhile Char.isDigit = [] ∧ rest.dropWhile Char.isDigit = rest := by
    cases rest with
    | nil => exact ⟨rfl, rfl⟩
    | cons c rest =>
      have hc := (h c rfl).1
      simp [hc]
  rw [List.span_eq_takeWhile_dropWhile, List.takeWhile_append_of_pos hds,
    List.dropWhile_append_of_pos hds, hrest.1, hrest.2, List.append_nil]

theorem readFraction?_digits {microsecond : Nat} (hm : microsecond < 1000000) {rest : List Char}
    (hrest : EndsNumber rest) :
    readFraction? ('.' :: (digits 6 microsecond ++ rest)) = some (microsecond, rest) := by
  have hlen : (digits 6 microsecond).length = 6 := length_digits (by decide) hm
  have hne : (digits 6 microsecond).isEmpty = false := by
    rw [List.isEmpty_eq_false_iff, ← List.length_pos_iff]
    omega
  rw [readFraction?, hrest.span_digits isDigit_of_mem_digits]
  simp only [hne, List.take_of_length_le (Nat.le_of_eq hlen), hlen, ofDigitChars_digits]
  simp [tenTo]

theorem readFraction?_none {rest : List Char} (hrest : EndsNumber rest) :
    readFraction? rest = some (0, rest) := by
  rw [readFraction?.eq_def]
  split
  · exact absurd rfl (hrest '.' rfl).2.1
  · exact absurd rfl (hrest ',' rfl).2.2
  · rfl

theorem readSeconds?_digits {second microsecond : Nat} (hs : second < 100)
    (hm : microsecond < 1000000) {rest : List Char} (hrest : EndsNumber rest) :
    readSeconds? (':' :: (digits 2 second ++
      ((if microsecond = 0 then [] else '.' :: digits 6 microsecond) ++ rest))) =
        some (second, microsecond, rest) := by
  rw [readSeconds?, number?_two_digits hs]
  by_cases hzero : microsecond = 0
  · rw [if_pos hzero, hzero]
    simp only [List.nil_append, Option.bind_eq_bind, Option.bind_some, readFraction?_none hrest,
      Option.pure_def]
  · rw [if_neg hzero, List.cons_append]
    simp only [Option.bind_eq_bind, Option.bind_some, readFraction?_digits hm hrest,
      Option.pure_def]

/-! ## Offsets -/

theorem endsNumber_writeOffset (offset : Option Int) : EndsNumber (writeOffset offset) := by
  intro c hc
  cases offset with
  | none => cases hc
  | some o =>
    rw [writeOffset] at hc
    split at hc
    · obtain rfl := Option.some.inj hc
      decide
    · obtain rfl := Option.some.inj hc
      split <;> decide

theorem readHours?_digits (sign : Int) {hours minutes : Nat} (hh : hours < 100)
    (hm : minutes < 60) : readHours? sign (digits 2 hours ++ ':' :: digits 2 minutes) =
      some (some (sign * span hours minutes 0)) := by
  have hminutes : number? 2 (digits 2 minutes) = some (minutes, []) := by
    have h := number?_two_digits (n := minutes) (by omega) []
    rwa [List.append_nil] at h
  rw [readHours?, number?_two_digits hh]
  simp only [Option.bind_eq_bind, Option.bind_some, List.head?_cons, if_true, List.drop_one,
    List.tail_cons, hminutes]
  exact if_pos ⟨rfl, hm⟩

/-- An offset that is known counts whole minutes. -/
def InMinutes (offset : Option Int) : Prop := ∀ o ∈ offset, (span 0 1 0 : Int) ∣ o

theorem writeOffset_minutes {o : Int} {minutes : Nat} (ho : o.natAbs = span 0 minutes 0)
    (hpos : 0 < minutes) : writeOffset (some o) = (if o < 0 then '-' else '+') ::
      (digits 2 (minutes / 60) ++ ':' :: digits 2 (minutes % 60)) := by
  have hseconds : (o.natAbs + span 0 0 1 / 2) / span 0 0 1 = 60 * minutes := by
    rw [ho, span, span]
    omega
  have hhours : 60 * minutes / 3600 = minutes / 60 := by omega
  have hrest : 60 * minutes / 60 = minutes := by omega
  rw [writeOffset, hseconds, if_neg (by omega), hhours, hrest]
  rfl

theorem readOffset?_writeOffset {offset : Option Int} (hwhole : InMinutes offset)
    (hday : ∀ o ∈ offset, o.natAbs < span 24 0 0) :
    readOffset? (writeOffset offset) = some offset := by
  cases offset with
  | none => rfl
  | some o =>
    obtain ⟨n, hn⟩ := hwhole o rfl
    have hlast := hday o rfl
    rw [span] at hn hlast
    have ho : o.natAbs = span 0 n.natAbs 0 := by
      rw [span]
      omega
    by_cases hzero : n = 0
    · subst hzero
      obtain rfl : o = 0 := by omega
      rfl
    · rw [writeOffset_minutes ho (by omega)]
      have hminutes : n.natAbs % 60 < 60 := Nat.mod_lt _ (by decide)
      have hhours : n.natAbs / 60 < 100 := by omega
      have hread := fun sign => readHours?_digits sign hhours hminutes
      by_cases hneg : o < 0
      · rw [if_pos hneg]
        refine (hread (-1)).trans ?_
        rw [span]
        congr 2
        omega
      · rw [if_neg hneg]
        refine (hread 1).trans ?_
        rw [span]
        congr 2
        omega

/-! ## Valid timestamps -/

theorem daysIn_le (year month : Nat) : daysIn year month ≤ 31 := by
  unfold daysIn
  split
  · split <;> omega
  · split
    · omega
    · split <;> omega

theorem month_le_of_daysIn {year month : Nat} (h : 1 ≤ daysIn year month) : month ≤ 12 := by
  unfold daysIn at h
  split at h
  · omega
  · split at h
    · next hmem =>
      simp only [List.mem_cons, List.not_mem_nil, or_false] at hmem
      omega
    · split at h <;> omega

/-- The parts of a valid timestamp keep to the widths they are written in. -/
theorem bounds_of_valid {t : Timestamp} (h : t.valid = true) :
    t.year < 10000 ∧ t.month < 100 ∧ t.day < 100 ∧ t.hour < 100 ∧ t.minute < 100 ∧
      t.second < 100 ∧ t.microsecond < 1000000 := by
  simp only [valid, Bool.and_eq_true, decide_eq_true_eq] at h
  obtain ⟨⟨⟨⟨⟨⟨⟨hy, hd⟩, hdays⟩, hh⟩, hm⟩, hs⟩, hus⟩, -⟩ := h
  have hmonth := month_le_of_daysIn (Nat.le_trans hd hdays)
  have hday := Nat.le_trans hdays (daysIn_le _ _)
  exact ⟨by omega, by omega, by omega, by omega, by omega, by omega, hus⟩

/-- A time of the calendar of which the written form leaves nothing out. -/
structure Exact (t : Timestamp) : Prop where
  valid : t.valid = true
  offset : InMinutes t.offset

/-- **An exact time is read back** from its written form. -/
theorem read?_write {t : Timestamp} (h : t.Exact) : read? t.write.toList = some t := by
  obtain ⟨hy, hm, hd, hh, hmin, hs, hus⟩ := bounds_of_valid h.valid
  have htext : t.write.toList = digits 4 t.year ++ '-' :: (digits 2 t.month ++ '-' ::
      (digits 2 t.day ++ 'T' :: (digits 2 t.hour ++ ':' :: (digits 2 t.minute ++ ':' ::
        (digits 2 t.second ++ ((if t.microsecond = 0 then [] else '.' :: digits 6 t.microsecond) ++
          writeOffset t.offset)))))) := by
    rw [write, String.toList_ofList, writeTime]
    simp only [List.append_assoc, List.cons_append]
  have hday : ∀ o ∈ t.offset, o.natAbs < span 24 0 0 := by
    intro o ho
    have hall := h.valid
    simp only [Timestamp.valid, Bool.and_eq_true] at hall
    rw [Option.mem_def.mp ho] at hall
    exact of_decide_eq_true hall.2
  rw [htext, read?, readDate?_digits hy hm hd]
  simp only [Option.bind_eq_bind, Option.bind_some, List.head?_cons, List.drop_one, List.tail_cons,
    number?_two_digits hh, marked?_digits hmin,
    readSeconds?_digits hs hus (endsNumber_writeOffset t.offset),
    readOffset?_writeOffset h.offset hday]
  exact if_pos ⟨by decide, h.valid⟩

theorem readAny?_write {t : Timestamp} (h : t.Exact) : readAny? t.write.toList = some t := by
  rw [readAny?, read?_write h]
  rfl

/-! ## What is read -/

theorem inMinutes_of_readHours? {sign : Int} {cs : List Char} {offset : Option Int}
    (h : readHours? sign cs = some offset) : InMinutes offset := by
  obtain ⟨⟨hours, cs⟩, -, h⟩ := Option.bind_eq_some_iff.mp h
  obtain ⟨⟨minutes, cs⟩, -, h⟩ := Option.bind_eq_some_iff.mp h
  dsimp only at h
  split at h
  · obtain rfl := Option.some.inj h
    intro o ho
    obtain rfl := Option.some.inj ho
    have hspan : (span hours minutes 0 : Int) = span 0 1 0 * (60 * hours + minutes) := by
      rw [span, span]
      push_cast
      ring
    rw [hspan]
    exact ⟨sign * (60 * hours + minutes), by ring⟩
  · cases h

theorem inMinutes_zero : InMinutes (some 0) := by
  intro o ho
  obtain rfl := Option.some.inj ho
  exact dvd_zero _

theorem inMinutes_of_readOffset? {cs : List Char} {offset : Option Int}
    (h : readOffset? cs = some offset) : InMinutes offset := by
  rw [readOffset?.eq_def] at h
  split at h
  · obtain rfl := Option.some.inj h
    exact fun _ ho => nomatch ho
  · obtain rfl := Option.some.inj h
    exact inMinutes_zero
  · obtain rfl := Option.some.inj h
    exact inMinutes_zero
  · exact inMinutes_of_readHours? h
  · exact inMinutes_of_readHours? h
  · exact inMinutes_of_readHours? h
  · cases h

theorem exact_of_read? {cs : List Char} {t : Timestamp} (h : read? cs = some t) : t.Exact := by
  obtain ⟨⟨year, month, day, cs⟩, -, h⟩ := Option.bind_eq_some_iff.mp h
  obtain ⟨separator, -, h⟩ := Option.bind_eq_some_iff.mp h
  obtain ⟨⟨hour, cs⟩, -, h⟩ := Option.bind_eq_some_iff.mp h
  obtain ⟨⟨minute, cs⟩, -, h⟩ := Option.bind_eq_some_iff.mp h
  obtain ⟨⟨second, microsecond, cs⟩, -, h⟩ := Option.bind_eq_some_iff.mp h
  obtain ⟨offset, hoffset, h⟩ := Option.bind_eq_some_iff.mp h
  dsimp only at h
  split at h
  · next hvalid =>
    obtain rfl := Option.some.inj h
    exact ⟨hvalid.2, inMinutes_of_readOffset? hoffset⟩
  · cases h

theorem exact_of_readMidnight? {cs : List Char} {t : Timestamp} (h : readMidnight? cs = some t) :
    t.Exact := by
  obtain ⟨⟨year, month, day, cs⟩, -, h⟩ := Option.bind_eq_some_iff.mp h
  dsimp only at h
  split at h
  · next hvalid =>
    obtain rfl := Option.some.inj h
    exact ⟨hvalid.2, fun _ ho => nomatch ho⟩
  · cases h

theorem exact_of_ofSeconds? {seconds : Int} {microsecond : Nat} {t : Timestamp}
    (hus : microsecond < 1000000) (h : ofSeconds? seconds microsecond = some t) : t.Exact := by
  obtain ⟨hvalid, hutc⟩ := valid_of_ofSeconds? hus h
  refine ⟨hvalid, ?_⟩
  rw [hutc]
  exact inMinutes_zero

theorem exact_of_ofCount? {count : Int} {t : Timestamp} (h : ofCount? count = some t) :
    t.Exact := by
  rw [ofCount?] at h
  split at h
  · exact exact_of_ofSeconds? (by decide) h
  · refine exact_of_ofSeconds? ?_ h
    rw [Int.fmod_eq_emod_of_nonneg _ (by decide)]
    omega

theorem exact_of_ofReal? {x : Float} {t : Timestamp} (h : ofReal? x = some t) : t.Exact := by
  obtain ⟨seconds, -, h⟩ := Option.bind_eq_some_iff.mp h
  obtain ⟨microseconds, -, h⟩ := Option.bind_eq_some_iff.mp h
  exact exact_of_ofSeconds? (by omega) h

/-- **Whatever form a time has, it is exact.** -/
theorem exact_of_readAny? {cs : List Char} {t : Timestamp} (h : readAny? cs = some t) :
    t.Exact := by
  rw [readAny?, Option.or_eq_some_iff] at h
  rcases h with h | ⟨-, h⟩
  · exact exact_of_read? h
  · rw [Option.or_eq_some_iff] at h
    rcases h with h | ⟨-, h⟩
    · rw [readCount?] at h
      split at h
      · exact exact_of_ofCount? h
      · split at h
        · obtain ⟨x, -, h⟩ := Option.bind_eq_some_iff.mp h
          exact exact_of_ofReal? h
        · cases h
    · exact exact_of_readMidnight? h

end Dicebox.Timestamp
