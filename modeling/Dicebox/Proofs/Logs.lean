import Dicebox.History
import Dicebox.Proofs.Except
import Dicebox.Proofs.Rounding

/-! # A history is a plain log

Whatever a history shows can be read off the list of all rolls that were recorded since it was last
cleared. What it keeps are the last of them, as many as there is room for; what it counts are all of
them and all of their dice, whether they are still kept or not.

- `logOf`: the list, for a history that is recorded to and cleared.
- `Tallied`: tallies that count some dice, size by size.
- `History.Follows`: the list and the history, which every change preserves.
- `History.Shows`: what can be seen of a history.
- `history_shows_its_log`: all that a history shows.
-/

namespace Dicebox

/-! ## The log -/

/-- What can be done to a history. -/
inductive History.Change where
  | record (e : Entry)
  | clear

/-- The history after one change. -/
def History.change (h : History) : Change → History
  | .record e => h.record e
  | .clear => h.clear

/-- The history after changes, one after the other. -/
def History.after (h : History) (changes : List Change) : History := changes.foldl change h

/-- The rolls recorded since the last clearing, the oldest first. -/
def logOf (changes : List History.Change) : List Entry :=
  changes.foldl (fun log c => match c with
    | .record e => log ++ [e]
    | .clear => []) []

def diceIn (log : List Entry) : List Die := log.flatMap fun e => e.roll.dice

def ofSides (sides : Int) (dice : List Die) : List Die := dice.filter fun d => d.sides = sides

theorem diceIn_concat (log : List Entry) (e : Entry) :
    diceIn (log ++ [e]) = diceIn log ++ e.roll.dice := by
  simp [diceIn]

theorem ofSides_concat_of_eq {sides : Int} {d : Die} (h : d.sides = sides) (dice : List Die) :
    ofSides sides (dice ++ [d]) = ofSides sides dice ++ [d] := by
  simp [ofSides, h]

theorem ofSides_concat_of_ne {sides : Int} {d : Die} (h : d.sides ≠ sides) (dice : List Die) :
    ofSides sides (dice ++ [d]) = ofSides sides dice := by
  simp [ofSides, h]

theorem ofSides_eq_nil {sides : Int} {dice : List Die} (h : sides ∉ dice.map Die.sides) :
    ofSides sides dice = [] := by
  rw [ofSides, List.filter_eq_nil_iff]
  intro d hd
  have hne : d.sides ≠ sides := fun heq => h (heq ▸ List.mem_map_of_mem hd)
  simpa using hne

/-! ## Tallies -/

/-- A tally has counted these dice and no others. -/
structure DieTally.Of (t : DieTally) (dice : List Die) : Prop where
  count : t.count = dice.length
  sum : t.sum = sumOf (dice.map Die.value)
  highest : t.highest = dice.countP fun d => d.value = d.sides
  lowest : t.lowest = dice.countP fun d => d.value = 1

theorem sumOf_concat (ns : List Int) (n : Int) : sumOf (ns ++ [n]) = sumOf ns + n := by
  induction ns with
  | nil => simp
  | cons m ns ih =>
    rw [List.cons_append, sumOf_cons, sumOf_cons, ih]
    omega

theorem DieTally.of_empty (sides : Int) : (empty sides).Of [] := ⟨rfl, rfl, rfl, rfl⟩

theorem DieTally.Of.add {t : DieTally} {dice : List Die} (h : t.Of dice) (d : Die) :
    (t.add d).Of (dice ++ [d]) := by
  refine ⟨?_, ?_, ?_, ?_⟩
  · show t.count + 1 = _
    rw [h.count, List.length_append, List.length_singleton]
  · show t.sum + d.value = _
    rw [h.sum, List.map_append, List.map_singleton, sumOf_concat]
  · show t.highest + (if d.isHighest then 1 else 0) = _
    rw [h.highest, List.countP_append, List.countP_singleton]
    rfl
  · show t.lowest + (if d.isLowest then 1 else 0) = _
    rw [h.lowest, List.countP_append, List.countP_singleton]
    rfl

variable {d : Die} {dice : List Die} {ts : List DieTally}

theorem mem_sides_tallyDie {n : Int} :
    n ∈ (tallyDie d ts).map DieTally.sides ↔ n ∈ ts.map DieTally.sides ∨ n = d.sides := by
  induction ts with
  | nil => simp [tallyDie, DieTally.add, DieTally.empty]
  | cons t ts ih =>
    rw [tallyDie]
    split
    · simp only [List.map_cons, List.mem_cons, DieTally.add, DieTally.empty]
      tauto
    · split
      · next heq =>
        simp only [List.map_cons, List.mem_cons, DieTally.add, heq]
        tauto
      · simp only [List.map_cons, List.mem_cons, ih]
        tauto

theorem pairwise_tallyDie (h : (ts.map DieTally.sides).Pairwise (· < ·)) :
    ((tallyDie d ts).map DieTally.sides).Pairwise (· < ·) := by
  induction ts with
  | nil => exact List.pairwise_singleton _ _
  | cons t ts ih =>
    obtain ⟨ht, hts⟩ := List.pairwise_cons.mp h
    rw [tallyDie]
    split
    · next hlt =>
      refine List.pairwise_cons.mpr ⟨?_, h⟩
      intro n hn
      rcases List.mem_cons.mp hn with rfl | hn
      · exact hlt
      · exact lt_trans hlt (ht n hn)
    · split
      · exact h
      · refine List.pairwise_cons.mpr ⟨?_, ih hts⟩
        intro n hn
        rcases mem_sides_tallyDie.mp hn with hn | rfl
        · exact ht n hn
        · omega

theorem sides_lt_of_pairwise {t : DieTally}
    (h : ((t :: ts).map DieTally.sides).Pairwise (· < ·)) : ∀ u ∈ ts, t.sides < u.sides :=
  fun _ hu => (List.pairwise_cons.mp h).1 _ (List.mem_map_of_mem hu)

/-- What is true of the tallies of other sizes, and becomes true of the one that the die is added to,
is true of all tallies after the die is counted. -/
theorem forall_mem_tallyDie {P : DieTally → Prop} (hsorted : (ts.map DieTally.sides).Pairwise (· < ·))
    (hother : ∀ t ∈ ts, d.sides ≠ t.sides → P t) (hadd : ∀ t ∈ ts, d.sides = t.sides → P (t.add d))
    (hnew : d.sides ∉ ts.map DieTally.sides → P ((DieTally.empty d.sides).add d)) :
    ∀ t ∈ tallyDie d ts, P t := by
  induction ts with
  | nil => exact List.forall_mem_singleton.mpr (hnew List.not_mem_nil)
  | cons t ts ih =>
    have hlarger := sides_lt_of_pairwise hsorted
    rw [tallyDie]
    split
    · next hlt =>
      have hall : ∀ u ∈ t :: ts, d.sides < u.sides :=
        List.forall_mem_cons.mpr ⟨hlt, fun u hu => hlt.trans (hlarger u hu)⟩
      have habsent : d.sides ∉ (t :: ts).map DieTally.sides := by
        intro hmem
        obtain ⟨u, hu, heq⟩ := List.mem_map.mp hmem
        exact (hall u hu).ne' heq
      exact List.forall_mem_cons.mpr ⟨hnew habsent, fun u hu => hother u hu (hall u hu).ne⟩
    · obtain ⟨hother₀, hother⟩ := List.forall_mem_cons.mp hother
      obtain ⟨hadd₀, hadd⟩ := List.forall_mem_cons.mp hadd
      split
      · next heq =>
        refine List.forall_mem_cons.mpr ⟨hadd₀ heq, fun u hu => ?_⟩
        exact hother u hu (heq.trans_lt (hlarger u hu)).ne
      · next hne =>
        refine List.forall_mem_cons.mpr ⟨hother₀ hne, ih hsorted.of_cons hother hadd ?_⟩
        intro habsent
        refine hnew fun hmem => ?_
        rcases List.mem_cons.mp hmem with heq | hmem
        · exact hne heq
        · exact habsent hmem

/-- Tallies by ascending size count these dice, size by size. -/
structure Tallied (dice : List Die) (ts : List DieTally) : Prop where
  ascending : (ts.map DieTally.sides).Pairwise (· < ·)
  mem_sides : ∀ n, n ∈ ts.map DieTally.sides ↔ n ∈ dice.map Die.sides
  counts : ∀ t ∈ ts, t.Of (ofSides t.sides dice)

theorem tallied_nil : Tallied [] [] := ⟨.nil, fun _ => Iff.rfl, nofun⟩

/-- **One die more** is counted among the dice of its size, and nowhere else. -/
theorem Tallied.tallyDie (h : Tallied dice ts) (d : Die) :
    Tallied (dice ++ [d]) (Dicebox.tallyDie d ts) := by
  refine ⟨pairwise_tallyDie h.ascending, ?_, ?_⟩
  · intro n
    rw [mem_sides_tallyDie, h.mem_sides, List.map_append, List.mem_append, List.map_singleton,
      List.mem_singleton]
  · refine forall_mem_tallyDie h.ascending ?_ ?_ ?_
    · intro t ht hne
      rw [ofSides_concat_of_ne hne]
      exact h.counts t ht
    · intro t ht heq
      show (t.add d).Of (ofSides t.sides (dice ++ [d]))
      rw [ofSides_concat_of_eq heq]
      exact (h.counts t ht).add d
    · intro habsent
      show ((DieTally.empty d.sides).add d).Of (ofSides d.sides (dice ++ [d]))
      have hnone : ofSides d.sides dice = [] := ofSides_eq_nil fun hmem =>
        habsent ((h.mem_sides _).mpr hmem)
      rw [ofSides_concat_of_eq rfl, hnone]
      exact (DieTally.of_empty _).add d

theorem Tallied.tallyDice (h : Tallied dice ts) (more : List Die) :
    Tallied (dice ++ more) (Dicebox.tallyDice more ts) := by
  induction more generalizing dice ts with
  | nil => rwa [List.append_nil]
  | cons d more ih =>
    have hrest := ih (h.tallyDie d)
    rwa [List.append_assoc, List.singleton_append] at hrest

/-! ## Histories -/

namespace History

/-- A history keeps the last rolls of a log, and has counted all of them and their dice. -/
structure Follows (h : History) (log : List Entry) : Prop where
  entries : h.entries = log.reverse.take h.capacity
  total : h.total = log.length
  tallied : Tallied (diceIn log) h.tallies

theorem follows_empty (capacity : Nat) (hpos : 0 < capacity) : (empty capacity hpos).Follows [] :=
  ⟨List.take_nil.symm, rfl, tallied_nil⟩

theorem Follows.record {h : History} {log : List Entry} (hf : h.Follows log) (e : Entry) :
    (h.record e).Follows (log ++ [e]) := by
  refine ⟨?_, ?_, ?_⟩
  · show (e :: h.entries).take h.capacity = _
    obtain ⟨n, hn⟩ := Nat.exists_eq_succ_of_ne_zero h.capacity_pos.ne'
    -- of the entries before, those that stay are among those that were kept
    have hkept : (h.entries.take n) = log.reverse.take n := by
      rw [hf.entries, List.take_take, hn, Nat.min_eq_left (Nat.le_succ n)]
    rw [List.reverse_append, List.reverse_singleton, List.singleton_append]
    show (e :: h.entries).take h.capacity = (e :: log.reverse).take h.capacity
    rw [hn, List.take_succ_cons, List.take_succ_cons, hkept]
  · show h.total + 1 = _
    rw [hf.total, List.length_append, List.length_singleton]
  · rw [diceIn_concat]
    exact hf.tallied.tallyDice e.roll.dice

theorem Follows.change {h : History} {changes : List Change} (hf : h.Follows (logOf changes))
    (c : Change) : (h.change c).Follows (logOf (changes ++ [c])) := by
  rw [logOf, List.foldl_append]
  cases c with
  | record e => exact hf.record e
  | clear => exact follows_empty _ _

/-- **Every run of changes** leaves a history that follows the log. -/
theorem follows_after (capacity : Nat) (hpos : 0 < capacity) (changes : List Change) :
    ((empty capacity hpos).after changes).Follows (logOf changes) := by
  induction changes using List.reverseRecOn with
  | nil => exact follows_empty capacity hpos
  | append_singleton changes c ih =>
    rw [after, List.foldl_append]
    exact ih.change c

theorem capacity_after (h : History) (changes : List Change) :
    (h.after changes).capacity = h.capacity := by
  induction changes generalizing h with
  | nil => rfl
  | cons c changes ih =>
    have hstep : (h.change c).capacity = h.capacity := by
      cases c <;> rfl
    rw [after, List.foldl_cons]
    exact (ih (h.change c)).trans hstep

end History

theorem natAbs_sumOf_le {bound : Nat} {vs : List Int} (h : ∀ v ∈ vs, v.natAbs ≤ bound) :
    (sumOf vs).natAbs ≤ vs.length * bound := by
  induction vs with
  | nil => simp
  | cons v vs ih =>
    obtain ⟨hv, hvs⟩ := List.forall_mem_cons.mp h
    have hrest := ih hvs
    rw [sumOf_cons, List.length_cons, Nat.add_mul, Nat.one_mul]
    omega

/-! ## What a history shows -/

/-- Statistics that count these dice and no others. -/
structure History.DieStatistics.Of (s : DieStatistics) (dice : List Die) : Prop where
  count : s.count = dice.length
  mean : IsQuotient s.mean (sumOf (dice.map Die.value)) dice.length
  highest : s.highest = dice.countP fun d => d.value = d.sides
  lowest : s.lowest = dice.countP fun d => d.value = 1

/-- A history shows the last rolls of a log, so many of them, and the statistics of all its dice. -/
structure History.Shows (h : History) (capacity : Nat) (log : List Entry) : Prop where
  size : h.size = min log.length capacity
  recent : ∀ k : Nat, h.recent k = (log.rtake capacity).reverse.take k
  find : ∀ id, h.find? id = ((log.rtake capacity).filter fun e => e.stamp.id = id).getLast?
  total : h.total = log.length
  statistics : ∃ stats, h.statistics = .ok stats ∧
    (stats.map (·.sides)).Pairwise (· < ·) ∧
    (∀ n, n ∈ stats.map (·.sides) ↔ n ∈ (diceIn log).map Die.sides) ∧
    ∀ s ∈ stats, s.Of (ofSides s.sides (diceIn log))

namespace History

variable {h : History} {log : List Entry}

theorem Follows.reverse_rtake (hf : h.Follows log) : (log.rtake h.capacity).reverse = h.entries := by
  rw [List.rtake_eq_reverse_take_reverse, List.reverse_reverse, hf.entries]

theorem Follows.find?_eq (hf : h.Follows log) (id : String) :
    h.find? id = ((log.rtake h.capacity).filter fun e => e.stamp.id = id).getLast? := by
  rw [find?, ← hf.reverse_rtake, ← List.head?_filter, List.filter_reverse, List.head?_reverse]

theorem statisticsOf_eq_ok {t : DieTally} {dice : List Die} (ht : t.Of dice) (hdice : dice ≠ [])
    (hvalues : ∀ d ∈ dice, d.value.natAbs ≤ 2 ^ 1000) :
    ∃ s, statisticsOf t = .ok s ∧ s.sides = t.sides ∧ s.Of dice := by
  have hlength : dice.length ≠ 0 := fun hzero => hdice (List.length_eq_zero_iff.mp hzero)
  have hsum : (sumOf (dice.map Die.value)).natAbs ≤ dice.length * 2 ^ 1000 := by
    rw [← List.length_map (f := Die.value)]
    refine natAbs_sumOf_le fun v hv => ?_
    obtain ⟨d, hd, rfl⟩ := List.mem_map.mp hv
    exact hvalues d hd
  obtain ⟨mean, hmean⟩ := divided_eq_ok hlength hsum
  refine ⟨⟨t.sides, t.count, mean, t.highest, t.lowest⟩, ?_, rfl,
    ⟨ht.count, divided_isQuotient hmean, ht.highest, ht.lowest⟩⟩
  rw [statisticsOf, ht.sum, ht.count, hmean]
  rfl

theorem mapM_statisticsOf {dice : List Die} {ts : List DieTally}
    (h : ∀ t ∈ ts, ∃ s, statisticsOf t = .ok s ∧ s.sides = t.sides ∧ s.Of (ofSides t.sides dice)) :
    ∃ stats, ts.mapM statisticsOf = .ok stats ∧ stats.map (·.sides) = ts.map DieTally.sides ∧
      ∀ s ∈ stats, s.Of (ofSides s.sides dice) := by
  induction ts with
  | nil => exact ⟨[], rfl, rfl, nofun⟩
  | cons t ts ih =>
    obtain ⟨ht, hts⟩ := List.forall_mem_cons.mp h
    obtain ⟨s, hs, hsides, hof⟩ := ht
    obtain ⟨stats, hstats, hmap, hall⟩ := ih hts
    refine ⟨s :: stats, ?_, ?_, ?_⟩
    · rw [List.mapM_cons, hs, hstats]
      rfl
    · rw [List.map_cons, List.map_cons, hmap, hsides]
    · rw [← hsides] at hof
      exact List.forall_mem_cons.mpr ⟨hof, hall⟩

/-- A history that follows a log shows it, if no die of the log shows too much. -/
theorem Follows.shows (hf : h.Follows log)
    (hvalues : ∀ d ∈ diceIn log, d.value.natAbs ≤ 2 ^ 1000) : h.Shows h.capacity log := by
  have hstatistics : ∀ t ∈ h.tallies, ∃ s, statisticsOf t = .ok s ∧ s.sides = t.sides ∧
      s.Of (ofSides t.sides (diceIn log)) := by
    intro t ht
    -- a size that is tallied is the size of a die
    obtain ⟨d, hd, hsides⟩ := List.mem_map.mp
      ((hf.tallied.mem_sides t.sides).mp (List.mem_map_of_mem ht))
    have hmem : d ∈ ofSides t.sides (diceIn log) := List.mem_filter.mpr ⟨hd, by simpa using hsides⟩
    exact statisticsOf_eq_ok (hf.tallied.counts t ht) (List.ne_nil_of_mem hmem)
      fun d hd => hvalues d (List.mem_filter.mp hd).1
  obtain ⟨stats, hstats, hsides, hall⟩ := mapM_statisticsOf hstatistics
  refine ⟨?_, ?_, hf.find?_eq, hf.total, stats, hstats, ?_, ?_, hall⟩
  · rw [size, hf.entries, List.length_take, List.length_reverse, Nat.min_comm]
  · intro k
    rw [recent, if_pos (Int.natCast_nonneg k), Int.toNat_natCast, hf.reverse_rtake]
  · rw [hsides]
    exact hf.tallied.ascending
  · intro n
    rw [hsides]
    exact hf.tallied.mem_sides n

theorem ofSize_eq_ok {size : Int} (hpos : 1 ≤ size) (hmax : size ≤ greatestCapacity) :
    ofSize size = .ok (empty size.toNat (by omega)) := by
  rw [ofSize, dif_neg (by omega), if_neg (by omega)]

end History

/-- **A history shows its log.** Of the rolls recorded since it was last cleared it keeps the last
ones, as many as it has room for, and it finds the latest of a name among them; all of them are
counted, and so are all of their dice, size by size. -/
theorem history_shows_its_log {size : Int} (hpos : 1 ≤ size)
    (hmax : size ≤ History.greatestCapacity) (changes : List History.Change)
    (hvalues : ∀ d ∈ diceIn (logOf changes), d.value.natAbs < 2 ^ 1000) :
    ∃ h, History.ofSize size = .ok h ∧ (h.after changes).Shows size.toNat (logOf changes) := by
  refine ⟨_, History.ofSize_eq_ok hpos hmax, ?_⟩
  have hfollows := History.follows_after size.toNat (by omega) changes
  have hshows := hfollows.shows fun d hd => (hvalues d hd).le
  rwa [History.capacity_after] at hshows

def pairOf (id : String) (a b : Int) : Entry where
  stamp := ⟨id, ⟨2024, 1, 1, 0, 0, 0, 0, some 0⟩⟩
  roll := ⟨"2d6", "2d6", a + b,
    [.dice ⟨"2d6", 2, 6, [⟨a, 6, 0, true, false, false, false, false, []⟩,
      ⟨b, 6, 0, true, false, false, false, false, []⟩], a + b, .sum⟩]⟩

/-- Of three pairs behind a clearing, two are kept and all are counted. -/
theorem last_pairs_are_kept :
    ∃ h, History.ofSize 2 = .ok h ∧
      let now := h.after [.record (pairOf "z" 1 1), .clear, .record (pairOf "a" 6 6),
        .record (pairOf "b" 1 6), .record (pairOf "c" 2 3)]
      now.size = 2 ∧ now.total = 3 ∧ now.recent 1 = [pairOf "c" 2 3] ∧ now.find? "a" = none ∧
        ∃ stats, now.statistics = .ok stats ∧
          ∀ s ∈ stats, s.sides = 6 → s.count = 6 ∧ s.highest = 3 ∧ s.lowest = 1 := by
  have hvalues : ∀ d ∈ diceIn (logOf [.record (pairOf "z" 1 1), .clear, .record (pairOf "a" 6 6),
      .record (pairOf "b" 1 6), .record (pairOf "c" 2 3)]), d.value.natAbs < 2 ^ 1000 := by
    have hbound : ∀ {n k : Nat}, n < k → n < 2 ^ k := fun hn => hn.trans Nat.lt_two_pow_self
    intro d hd
    have hsmall : d.value.natAbs < 1000 := by
      revert d
      decide
    exact hbound hsmall
  have htwo : (1 : Int) ≤ 2 := by decide
  have hlists : (2 : Int) ≤ History.greatestCapacity := by decide
  obtain ⟨h, hsize, hshows⟩ := history_shows_its_log htwo hlists _ hvalues
  obtain ⟨stats, hstats, -, -, hall⟩ := hshows.statistics
  refine ⟨h, hsize, hshows.size, hshows.total, hshows.recent 1, hshows.find "a", stats, hstats, ?_⟩
  intro s hs hsides
  have hof := hall s hs
  rw [hsides] at hof
  exact ⟨hof.count, hof.highest, hof.lowest⟩

/-- No history has room for more rolls than any list can hold. -/
theorem no_history_is_larger_than_a_list :
    ¬ ∀ (size : Int) (changes : List History.Change), 1 ≤ size →
      (∀ d ∈ diceIn (logOf changes), d.value.natAbs < 2 ^ 1000) →
        ∃ h, History.ofSize size = .ok h ∧
          (h.after changes).Shows size.toNat (logOf changes) := by
  intro h
  obtain ⟨history, hsize, -⟩ := h 9223372036854775808 [] (by decide) nofun
  have hrefused : History.ofSize 9223372036854775808 =
      .error (.tooLarge 9223372036854775808) := by
    rw [History.ofSize, dif_neg (by decide), if_pos (by decide)]
  rw [hrefused] at hsize
  cases hsize

end Dicebox
