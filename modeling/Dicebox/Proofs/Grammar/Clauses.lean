import Dicebox.Proofs.Except
import Dicebox.Proofs.Grammar.Unique
import Dicebox.Proofs.Numeral

/-! # Reading dice terms

The reader of a dice term and of each of its parts accepts what the grammar derives for that part
and what is within bounds, and nothing else. Every statement has two directions: what the reader
takes from a list of tokens is a derivation (`_sound`), and in front of tokens that cannot belong to
it, a derivation is what the reader takes (`_complete`).

- `Token.Scanned`, `Token.Legible`: what the scanner grants, and what a number has to be to be read.
- `ascending_eq_sort`, `length_lt_iff`: the faces of a reroll.
- `clause_sound`, `clause_complete`: modifiers.
- `dice_sound`, `dice_complete`: dice terms.
-/

namespace Dicebox

/-! ## Tokens of a text -/

/-- What every token of a text has: the text of a number is digits, and a shorthand is known. -/
structure Token.Scanned (t : Token) : Prop where
  digits : t.kind = .integer → t.text ≠ [] ∧ ∀ c ∈ t.text, c.isDigit = true
  known : t.kind = .shorthand → ∃ rule, shorthand? t.lower = some rule

/-- A number has few enough digits to be read. -/
def Token.Legible (t : Token) : Prop := t.kind = .integer → t.text.length ≤ Numeral.digitLimit

theorem Token.legible_of_ne {t : Token} (h : t.kind ≠ .integer) : t.Legible := fun hk => absurd hk h

theorem Token.showable_value {t : Token} (hk : t.kind = .integer) (ht : t.Scanned)
    (hl : t.Legible) : Numeral.showable t.value = true :=
  Numeral.showable_ofDigitChars (ht.digits hk).2 (hl hk)

def AllLegible (ts : List Token) : Prop := ∀ t ∈ ts, t.Legible

theorem allLegible_nil : AllLegible [] := fun _ ht => nomatch ht

theorem allLegible_cons {t : Token} {ts : List Token} :
    AllLegible (t :: ts) ↔ t.Legible ∧ AllLegible ts := List.forall_mem_cons

theorem allLegible_append {ts us : List Token} :
    AllLegible (ts ++ us) ↔ AllLegible ts ∧ AllLegible us := List.forall_mem_append

theorem Clause.legible_keyword (c : Clause) : c.keyword.Legible := by
  apply Token.legible_of_ne
  rw [c.kind_keyword]
  exact c.kind_ne.2.2.1

theorem Clause.length_le_flatMap (cs : List Clause) : cs.length ≤ (cs.flatMap tokens).length := by
  induction cs with
  | nil => simp
  | cons c cs ih =>
    rw [List.flatMap_cons, List.length_append, tokens, List.length_cons, List.length_cons]
    omega

theorem Token.stopFrom_append (p : Int) (ts us : List Token) :
    Token.stopFrom p (ts ++ us) = Token.stopFrom (Token.stopFrom p ts) us := List.foldl_append

namespace Read

/-! ## Numbers -/

theorem number_of_not_legible {t : Token} (ht : t.Scanned) (hl : ¬ t.Legible) :
    number t = .error (.numberTooLong t.text.length) := by
  rw [Token.Legible, Classical.not_imp] at hl
  rw [number, Numeral.read_of_digits_of_lt (ht.digits hl.1).2 (Nat.lt_of_not_le hl.2)]

theorem number_eq_ok {t : Token} (hk : t.kind = .integer) (ht : t.Scanned) {v : Int} :
    number t = .ok v ↔ t.Legible ∧ t.value = v := by
  obtain ⟨hne, hd⟩ := ht.digits hk
  by_cases hl : t.Legible
  · rw [number, Numeral.read_of_digits hne hd (hl hk)]
    exact ⟨fun h => ⟨hl, Except.ok.inj h⟩, fun h => congrArg Except.ok h.2⟩
  · rw [number_of_not_legible ht hl]
    constructor
    · intro h
      cases h
    · intro h
      exact absurd h.1 hl

/-- A reader takes the numbers that have a property, and no others. -/
def Takes (read : Token → Except NotationError Int) (P : Int → Prop) : Prop :=
  ∀ ⦃t : Token⦄, t.kind = .integer → t.Scanned → ∀ ⦃v : Int⦄,
    read t = .ok v ↔ t.Legible ∧ t.value = v ∧ P v

/-- A number is read first, and then looked at. -/
theorem takes_of_check {read : Token → Except NotationError Int} {P : Int → Prop}
    {check : Token → Int → Except NotationError Int} (hread : ∀ t, read t = number t >>= check t)
    (hcheck : ∀ (t : Token) (n v : Int), check t n = .ok v ↔ n = v ∧ P n) : Takes read P := by
  intro t hk ht v
  rw [hread, bind_eq_ok]
  constructor
  · rintro ⟨n, hn, h⟩
    obtain ⟨hl, rfl⟩ := (number_eq_ok hk ht).mp hn
    obtain ⟨rfl, hP⟩ := (hcheck t _ _).mp h
    exact ⟨hl, rfl, hP⟩
  · rintro ⟨hl, rfl, hP⟩
    exact ⟨t.value, (number_eq_ok hk ht).mpr ⟨hl, rfl⟩, (hcheck t _ _).mpr ⟨rfl, hP⟩⟩

theorem takes_face (use : FaceUse) (sides : Int) : Takes (face use sides) (OnDie sides) :=
  takes_of_check (fun _ => rfl) fun _ _ _ => ite_eq_ok

theorem takes_selected (keyword : Token) : Takes (selected keyword) (1 ≤ ·) := by
  refine takes_of_check (fun _ => rfl) fun t n v => ?_
  rw [← ite_not]
  exact ite_eq_ok.trans (and_congr_right fun _ => Int.not_lt)

theorem takes_diceCount (limits : Limits) :
    Takes (diceCount limits) fun n => 1 ≤ n ∧ n ≤ limits.maxDice :=
  takes_of_check (fun _ => rfl) fun _ _ _ => ite_eq_ok

/-! ## Faces of a reroll -/

theorem mem_insertFace {v w : Int} {ws : List Int} : w ∈ insertFace v ws ↔ w = v ∨ w ∈ ws := by
  induction ws with
  | nil => simp [insertFace]
  | cons u ws ih =>
    rw [insertFace]
    split
    · simp
    · split
      · next h => simp [h]
      · simp only [List.mem_cons, ih]
        tauto

theorem pairwise_insertFace {v : Int} {ws : List Int} (h : ws.Pairwise (· < ·)) :
    (insertFace v ws).Pairwise (· < ·) := by
  induction ws with
  | nil => simp [insertFace]
  | cons u ws ih =>
    obtain ⟨hu, hws⟩ := List.pairwise_cons.mp h
    rw [insertFace]
    split
    · next hlt =>
      refine List.pairwise_cons.mpr ⟨fun w hw => ?_, h⟩
      rcases List.mem_cons.mp hw with rfl | hw
      · exact hlt
      · exact lt_trans hlt (hu w hw)
    · split
      · exact h
      · refine List.pairwise_cons.mpr ⟨fun w hw => ?_, ih hws⟩
        rcases mem_insertFace.mp hw with rfl | hw
        · omega
        · exact hu w hw

theorem mem_ascending {w : Int} {vs : List Int} : w ∈ ascending vs ↔ w ∈ vs := by
  induction vs with
  | nil => rfl
  | cons v vs ih =>
    rw [ascending, List.foldr_cons, mem_insertFace, List.mem_cons, ← ih, ascending]

theorem pairwise_ascending (vs : List Int) : (ascending vs).Pairwise (· < ·) := by
  induction vs with
  | nil => exact List.Pairwise.nil
  | cons v vs ih => exact pairwise_insertFace ih

/-- The faces of a reroll are the set of the numbers that are written, in order. -/
theorem ascending_eq_sort (vs : List Int) : ascending vs = vs.toFinset.sort (· ≤ ·) := by
  refine (pairwise_ascending vs).eq_of_mem_iff (Finset.sortedLT_sort _).pairwise fun v => ?_
  rw [mem_ascending, Finset.mem_sort, List.mem_toFinset]

/-- A set of faces covers the die if and only if there are as many of them as the die has. -/
theorem length_lt_iff {sides : Int} {vs : List Int} (h : vs.Pairwise (· < ·))
    (hv : ∀ v ∈ vs, OnDie sides v) :
    (vs.length : Int) < sides ↔ ∃ face, OnDie sides face ∧ face ∉ vs := by
  have hnodup : vs.Nodup := h.imp fun hlt => ne_of_lt hlt
  have hcard : vs.toFinset.card = vs.length := List.toFinset_card_of_nodup hnodup
  have hdie : ((Finset.Icc 1 sides).card : Int) = max sides 0 := by
    rw [Int.card_Icc]
    omega
  -- both sides compare the faces as a set with the interval of all faces
  have hsub : vs.toFinset ⊆ Finset.Icc 1 sides := by
    intro v hmem
    exact Finset.mem_Icc.mpr (hv v (List.mem_toFinset.mp hmem))
  constructor
  · intro hlt
    obtain ⟨face, hface, hnot⟩ := Finset.exists_mem_notMem_of_card_lt_card
      (show vs.toFinset.card < (Finset.Icc 1 sides).card by omega)
    exact ⟨face, Finset.mem_Icc.mp hface, fun hmem => hnot (List.mem_toFinset.mpr hmem)⟩
  · rintro ⟨face, hface, hnot⟩
    have hss : vs.toFinset ⊂ Finset.Icc 1 sides := by
      refine Finset.ssubset_iff_subset_ne.mpr ⟨hsub, fun he => hnot ?_⟩
      exact List.mem_toFinset.mp (he ▸ Finset.mem_Icc.mpr hface)
    have hlt := Finset.card_lt_card hss
    have := hface.1
    have := hface.2
    omega

/-! ## Arguments of a modifier -/

theorem optional_sound {read : Token → Except NotationError Int} {P : Int → Prop}
    (hread : Takes read P) {absent : Int} (habsent : P absent) {keyword : Token} {ts : List Token}
    {q : Piece Int} (hts : ∀ t ∈ ts, t.Scanned) (h : optional read absent keyword ts = .ok q) :
    ∃ n : Option (Word .integer), ts = written n ++ q.rest ∧
      q = ⟨numberOr absent n, Token.stopFrom keyword.stop (written n), q.rest⟩ ∧
      P (numberOr absent n) ∧ AllLegible (written n) := by
  cases ts with
  | nil =>
    obtain rfl := Except.ok.inj h
    exact ⟨none, rfl, rfl, habsent, allLegible_nil⟩
  | cons t ts =>
    rw [optional] at h
    split at h
    · next hk =>
      obtain ⟨v, hv, hp⟩ := bind_eq_ok.mp h
      obtain rfl := Except.ok.inj hp
      obtain ⟨hl, rfl, hP⟩ := (hread hk (hts t (by simp))).mp hv
      exact ⟨some ⟨t, hk⟩, rfl, rfl, hP, allLegible_cons.mpr ⟨hl, allLegible_nil⟩⟩
    · obtain rfl := Except.ok.inj h
      exact ⟨none, rfl, rfl, habsent, allLegible_nil⟩

theorem optional_complete {read : Token → Except NotationError Int} {P : Int → Prop}
    (hread : Takes read P) {absent : Int} (keyword : Token) {n : Option (Word .integer)}
    {rest : List Token} (hts : ∀ t ∈ written n, t.Scanned) (hl : AllLegible (written n))
    (hP : P (numberOr absent n)) (hrest : leading rest ≠ some .integer) :
    optional read absent keyword (written n ++ rest) =
      .ok ⟨numberOr absent n, Token.stopFrom keyword.stop (written n), rest⟩ := by
  cases n with
  | none =>
    cases rest with
    | nil => rfl
    | cons t ts =>
      have hk : ¬ t.kind = .integer := fun hk => hrest (congrArg some hk)
      exact if_neg hk
  | some w =>
    have hw : read w.1 = .ok w.1.value :=
      (hread w.2 (hts w.1 List.mem_cons_self)).mpr ⟨hl w.1 List.mem_cons_self, rfl, hP⟩
    have hopt : optional read absent keyword (w.1 :: rest) =
        (read w.1).bind fun v => .ok ⟨v, w.1.stop, rest⟩ := if_pos w.2
    exact hopt.trans (by rw [hw]; rfl)

theorem threshold_sound {fin sides : Int} {ts : List Token} {q : Piece Int}
    (hts : ∀ t ∈ ts, t.Scanned) (h : threshold fin sides ts = .ok q) :
    ∃ n : Word .integer, ts = n.1 :: q.rest ∧ q = ⟨n.1.value, n.1.stop, q.rest⟩ ∧
      OnDie sides n.1.value ∧ AllLegible [n.1] := by
  cases ts with
  | nil => cases h
  | cons t ts =>
    rw [threshold] at h
    split at h
    · next hk =>
      obtain ⟨v, hv, hp⟩ := bind_eq_ok.mp h
      obtain rfl := Except.ok.inj hp
      obtain ⟨hl, rfl, hface⟩ := (takes_face .score sides hk (hts t (by simp))).mp hv
      exact ⟨⟨t, hk⟩, rfl, rfl, hface, allLegible_cons.mpr ⟨hl, allLegible_nil⟩⟩
    · cases h

theorem threshold_complete (fin : Int) {sides : Int} {n : Word .integer} (rest : List Token)
    (hs : n.1.Scanned) (hl : n.1.Legible) (hface : OnDie sides n.1.value) :
    threshold fin sides (n.1 :: rest) = .ok ⟨n.1.value, n.1.stop, rest⟩ := by
  rw [threshold, if_pos n.2, (takes_face .score sides n.2 hs).mpr ⟨hl, rfl, hface⟩]
  rfl

theorem faces_sound {fin sides : Int} {ts : List Token} {piece : Piece (List Int)}
    (hts : ∀ t ∈ ts, t.Scanned) (h : faces fin sides ts = .ok piece) :
    ∃ l : Listing, ts = l.tokens ++ piece.rest ∧ piece.stop = Token.stopFrom 0 l.tokens ∧
      piece.value = l.values ∧ (∀ v ∈ l.values, OnDie sides v) ∧ AllLegible l.tokens := by
  fun_induction faces fin sides ts generalizing piece with
  | case1 => cases h
  | case2 t ts hk ih =>
    obtain ⟨v, hv, hp⟩ := bind_eq_ok.mp h
    obtain ⟨hl, rfl, hface⟩ := (takes_face .reroll sides hk (hts t (by simp))).mp hv
    have single : ∀ v ∈ (⟨⟨t, hk⟩, []⟩ : Listing).values, OnDie sides v := by
      simpa [Listing.values] using hface
    have legible : AllLegible (⟨⟨t, hk⟩, []⟩ : Listing).tokens :=
      allLegible_cons.mpr ⟨hl, allLegible_nil⟩
    cases ts with
    | nil =>
      obtain rfl := Except.ok.inj hp
      exact ⟨⟨⟨t, hk⟩, []⟩, rfl, rfl, rfl, single, legible⟩
    | cons c ts =>
      dsimp only at hp
      split at hp
      · next hc =>
        obtain ⟨more, hmore, hp⟩ := bind_eq_ok.mp hp
        obtain rfl := Except.ok.inj hp
        obtain ⟨l, hl', hstop, hval, hfaces, hleg⟩ :=
          ih (fun u hu => hts u (by simp [hu])) hmore
        refine ⟨⟨⟨t, hk⟩, (⟨c, hc⟩, l.first) :: l.more⟩, ?_, hstop, ?_, ?_, ?_⟩
        · rw [hl']
          rfl
        · exact congrArg (t.value :: ·) hval
        · intro v hv
          rcases List.mem_cons.mp hv with rfl | hv
          · exact hface
          · exact hfaces v hv
        · have hcomma : c.Legible := Token.legible_of_ne (by simp [hc])
          exact allLegible_cons.mpr ⟨hl, allLegible_cons.mpr ⟨hcomma, hleg⟩⟩
      · obtain rfl := Except.ok.inj hp
        exact ⟨⟨⟨t, hk⟩, []⟩, rfl, rfl, rfl, single, legible⟩
  | case3 t ts hk => cases h

theorem faces_complete (fin : Int) {sides : Int} {l : Listing} {rest : List Token}
    (hts : ∀ t ∈ l.tokens, t.Scanned) (hl : AllLegible l.tokens)
    (hfaces : ∀ v ∈ l.values, OnDie sides v) (hrest : leading rest ≠ some .comma) :
    faces fin sides (l.tokens ++ rest) = .ok ⟨l.values, Token.stopFrom 0 l.tokens, rest⟩ := by
  obtain ⟨n, more⟩ := l
  have hn : face .reroll sides n.1 = .ok n.1.value :=
    (takes_face .reroll sides n.2 (hts _ (by simp [Listing.tokens]))).mpr
      ⟨hl _ (by simp [Listing.tokens]), rfl, hfaces _ (by simp [Listing.values])⟩
  induction more generalizing n with
  | nil =>
    cases rest with
    | nil =>
      rw [Listing.tokens, List.flatMap_nil, List.append_nil, faces, if_pos n.2, hn]
      rfl
    | cons t ts =>
      have hk : ¬ t.kind = .comma := fun hk => hrest (congrArg some hk)
      rw [Listing.tokens, List.flatMap_nil, List.cons_append, List.nil_append, faces, if_pos n.2,
        hn]
      exact if_neg hk
  | cons m more ih =>
    obtain ⟨c, n'⟩ := m
    have hsub : ∀ t ∈ (⟨n', more⟩ : Listing).tokens,
        t ∈ (⟨n, (c, n') :: more⟩ : Listing).tokens := by
      intro t ht
      exact List.mem_cons_of_mem _ (List.mem_cons_of_mem _ ht)
    have hn' : face .reroll sides n'.1 = .ok n'.1.value :=
      (takes_face .reroll sides n'.2 (hts _ (hsub _ (by simp [Listing.tokens])))).mpr
        ⟨hl _ (hsub _ (by simp [Listing.tokens])), rfl, hfaces _ (by simp [Listing.values])⟩
    have hmore := ih n' (fun t ht => hts t (hsub t ht)) (fun t ht => hl t (hsub t ht))
      (fun v hv => hfaces v (List.mem_cons_of_mem _ hv)) hn'
    have hshape : (⟨n, (c, n') :: more⟩ : Listing).tokens ++ rest =
        n.1 :: c.1 :: ((⟨n', more⟩ : Listing).tokens ++ rest) := rfl
    rw [hshape, faces, if_pos n.2, hn]
    refine (if_pos c.2).trans ?_
    rw [hmore]
    rfl

/-! ## Modifiers -/

/-- What the reader takes for a clause in front of `rest`. -/
def piece (limits : Limits) (sides : Int) (c : Clause) (rest : List Token) : Piece Modifier :=
  ⟨c.modifier limits sides, Token.stopFrom c.keyword.stop c.arguments, rest⟩

theorem reroll_sound {limits : Limits} {fin sides : Int} {keyword : Token} (once : Bool)
    (hk : keyword.kind = .rerolling once) {ts : List Token} {p : Piece Modifier}
    (hts : ∀ t ∈ ts, t.Scanned) (h : reroll limits fin sides keyword once ts = .ok p) :
    ∃ l : Listing, ts = l.tokens ++ p.rest ∧
      p = piece limits sides (.reroll once ⟨keyword, hk⟩ l) p.rest ∧
      ((Clause.reroll once ⟨keyword, hk⟩ l).modifier limits sides).Fits sides ∧
      AllLegible l.tokens := by
  obtain ⟨q, hq, hp⟩ := bind_eq_ok.mp h
  obtain ⟨l, hl, hstop, hval, hfaces, hleg⟩ := faces_sound hts hq
  have hmem : ∀ v ∈ ascending q.value, OnDie sides v := by
    intro v hv
    rw [hval] at hv
    exact hfaces v (mem_ascending.mp hv)
  dsimp only at hp
  split at hp
  · cases hp
  · next hsettles =>
    obtain rfl := Except.ok.inj hp
    have hsort : ascending q.value = l.values.toFinset.sort (· ≤ ·) := by
      rw [hval, ascending_eq_sort]
    refine ⟨l, hl, ?_, ?_, hleg⟩
    · rw [hsort, hstop]
      rfl
    · rw [Clause.modifier, ← hsort]
      refine ⟨?_, pairwise_ascending _, hmem, fun honce => ?_⟩
      · intro hnil
        have : l.first.1.value ∈ ascending q.value := by
          rw [hval, mem_ascending]
          exact List.mem_cons_self
        rw [hnil] at this
        cases this
      · rw [← length_lt_iff (pairwise_ascending _) hmem]
        rw [honce] at hsettles
        simpa using hsettles

theorem reroll_complete {limits : Limits} (fin : Int) {sides : Int} {once : Bool}
    {k : Word (.rerolling once)} {l : Listing} {rest : List Token}
    (hts : ∀ t ∈ l.tokens, t.Scanned) (hl : AllLegible l.tokens)
    (hfits : ((Clause.reroll once k l).modifier limits sides).Fits sides)
    (hrest : leading rest ≠ some .comma) :
    reroll limits fin sides k.1 once (l.tokens ++ rest) =
      .ok (piece limits sides (.reroll once k l) rest) := by
  rw [Clause.modifier, ← ascending_eq_sort] at hfits
  obtain ⟨-, hpair, hfaces, hsettles⟩ := hfits
  have hread := faces_complete fin hts hl
    (fun v hv => hfaces v (mem_ascending.mpr hv)) hrest
  have hcond : ¬ ((!once) = true ∧ sides ≤ (ascending l.values).length) := by
    rintro ⟨honce, hle⟩
    have := (length_lt_iff hpair hfaces).mpr (hsettles (by simpa using honce))
    omega
  rw [reroll, hread]
  refine (if_neg hcond).trans ?_
  rw [piece, Clause.modifier, ← ascending_eq_sort]
  rfl

theorem clause_sound {limits : Limits} {fin sides : Int} (hsides : 1 ≤ sides) {keyword : Token}
    {ts : List Token} {p : Piece Modifier} (hts : ∀ t ∈ ts, t.Scanned)
    (h : modifier? limits fin sides keyword ts = some (.ok p)) :
    ∃ c : Clause, c.keyword = keyword ∧ ts = c.arguments ++ p.rest ∧
      p = piece limits sides c p.rest ∧ (c.modifier limits sides).Fits sides ∧
      AllLegible c.arguments := by
  rw [modifier?.eq_def] at h
  split at h
  · next rule hk =>
    obtain ⟨q, hq, hp⟩ := bind_eq_ok.mp (Option.some.inj h)
    obtain rfl := Except.ok.inj hp
    obtain ⟨n, hn, he, hfits, hl⟩ := optional_sound (takes_selected keyword) (le_refl 1) hts hq
    rw [he]
    exact ⟨.select rule ⟨keyword, hk⟩ n, rfl, hn, rfl, hfits, hl⟩
  · next hk =>
    obtain ⟨q, hq, hp⟩ := bind_eq_ok.mp (Option.some.inj h)
    obtain rfl := Except.ok.inj hp
    obtain ⟨n, hn, he, hfits, hl⟩ :=
      optional_sound (takes_face .explosion sides) ⟨hsides, le_refl sides⟩ hts hq
    rw [he]
    exact ⟨.explode ⟨keyword, hk⟩ n, rfl, hn, rfl, hfits, hl⟩
  · next hk =>
    obtain ⟨l, hl, hp, hfits, hleg⟩ := reroll_sound false hk hts (Option.some.inj h)
    exact ⟨.reroll false ⟨keyword, hk⟩ l, rfl, hl, hp, hfits, hleg⟩
  · next hk =>
    obtain ⟨l, hl, hp, hfits, hleg⟩ := reroll_sound true hk hts (Option.some.inj h)
    exact ⟨.reroll true ⟨keyword, hk⟩ l, rfl, hl, hp, hfits, hleg⟩
  · next hk =>
    obtain ⟨q, hq, hp⟩ := bind_eq_ok.mp (Option.some.inj h)
    obtain rfl := Except.ok.inj hp
    obtain ⟨n, hn, he, hface, hl⟩ := threshold_sound hts hq
    rw [he]
    exact ⟨.success ⟨keyword, hk⟩ n, rfl, hn, rfl, hface, hl⟩
  · next hk =>
    obtain ⟨q, hq, hp⟩ := bind_eq_ok.mp (Option.some.inj h)
    obtain rfl := Except.ok.inj hp
    obtain ⟨n, hn, he, hface, hl⟩ := threshold_sound hts hq
    rw [he]
    exact ⟨.failure ⟨keyword, hk⟩ n, rfl, hn, rfl, hface, hl⟩
  · cases h

theorem clause_complete {limits : Limits} (fin : Int) {sides : Int} {c : Clause} {rest : List Token}
    (hts : ∀ t ∈ c.arguments, t.Scanned) (hl : AllLegible c.arguments)
    (hfits : (c.modifier limits sides).Fits sides)
    (hrest : leading rest ≠ some .integer ∧ leading rest ≠ some .comma) :
    modifier? limits fin sides c.keyword (c.arguments ++ rest) =
      some (.ok (piece limits sides c rest)) := by
  have hkind := c.kind_keyword
  cases c with
  | select rule k n =>
    have hread := optional_complete (takes_selected k.1) k.1 hts hl hfits hrest.1
    rw [modifier?.eq_def, hkind]
    simp only [Clause.kind, Clause.keyword, Clause.arguments, hread]
    rfl
  | explode k n =>
    have hread := optional_complete (takes_face .explosion sides) k.1 hts hl hfits hrest.1
    rw [modifier?.eq_def, hkind]
    simp only [Clause.kind, Clause.keyword, Clause.arguments, hread]
    rfl
  | reroll once k l =>
    have hread := reroll_complete fin hts hl hfits hrest.2
    rw [modifier?.eq_def, hkind]
    cases once <;> exact congrArg some hread
  | success k n =>
    have hread := threshold_complete fin rest (hts n.1 (by simp [Clause.arguments]))
      (hl n.1 (by simp [Clause.arguments])) hfits
    rw [modifier?.eq_def, hkind]
    simp only [Clause.kind, Clause.arguments, List.cons_append, List.nil_append, hread]
    rfl
  | failure k n =>
    have hread := threshold_complete fin rest (hts n.1 (by simp [Clause.arguments]))
      (hl n.1 (by simp [Clause.arguments])) hfits
    rw [modifier?.eq_def, hkind]
    simp only [Clause.kind, Clause.arguments, List.cons_append, List.nil_append, hread]
    rfl

/-- What begins no clause is no modifier. -/
theorem modifier?_eq_none {limits : Limits} {fin sides : Int} {t : Token} {ts : List Token}
    (h : Stops 3 (t :: ts)) : modifier? limits fin sides t ts = none := by
  rw [modifier?.eq_def]
  rcases stops_cons.mp h with hk | ⟨op, hk, _⟩ <;> rw [hk]

/-- The modifiers of clauses in a row. -/
abbrev modifiersOf (limits : Limits) (sides : Int) (cs : List Clause) : List Modifier :=
  cs.map (Clause.modifier limits sides)

theorem modifiers_sound {limits : Limits} {fin sides : Int} (hsides : 1 ≤ sides) :
    ∀ {fuel : Nat} {stop : Int} {ts : List Token} {p : Piece (List (Token × Modifier))},
      (∀ t ∈ ts, t.Scanned) → modifiers limits fin sides fuel stop ts = .ok p →
        ∃ cs : List Clause, ts = cs.flatMap Clause.tokens ++ p.rest ∧
          p.stop = Token.stopFrom stop (cs.flatMap Clause.tokens) ∧
          p.value.map Prod.snd = modifiersOf limits sides cs ∧
          (∀ m ∈ modifiersOf limits sides cs, m.Fits sides) ∧
          AllLegible (cs.flatMap Clause.tokens) := by
  intro fuel
  induction fuel with
  | zero =>
    intro stop ts p hts h
    obtain rfl := Except.ok.inj h
    exact ⟨[], rfl, rfl, rfl, by simp, allLegible_nil⟩
  | succ fuel ih =>
    intro stop ts p hts h
    cases ts with
    | nil =>
      obtain rfl := Except.ok.inj h
      exact ⟨[], rfl, rfl, rfl, by simp, allLegible_nil⟩
    | cons keyword ts =>
      rw [modifiers] at h
      split at h
      · obtain rfl := Except.ok.inj h
        exact ⟨[], rfl, rfl, rfl, by simp, allLegible_nil⟩
      · next read hread =>
        obtain ⟨q, hq, h⟩ := bind_eq_ok.mp h
        obtain ⟨more, hmore, h⟩ := bind_eq_ok.mp h
        obtain rfl := Except.ok.inj h
        obtain ⟨c, rfl, hargs, hpiece, hfits, hl⟩ :=
          clause_sound hsides (fun t ht => hts t (by simp [ht])) (hq ▸ hread)
        obtain ⟨cs, hcs, hstop, hval, hall, hleg⟩ :=
          ih (fun t ht => hts t (by simp [hargs, ht])) hmore
        refine ⟨c :: cs, ?_, ?_, ?_, ?_, ?_⟩
        · rw [hargs, hcs, List.flatMap_cons, Clause.tokens, List.cons_append, List.cons_append,
            List.append_assoc]
        · rw [hstop, hpiece, List.flatMap_cons, Token.stopFrom_append]
          rfl
        · rw [List.map_cons, hval, hpiece]
          rfl
        · exact List.forall_mem_cons.mpr ⟨hfits, hall⟩
        · rw [List.flatMap_cons, allLegible_append]
          exact ⟨allLegible_cons.mpr ⟨c.legible_keyword, hl⟩, hleg⟩

theorem modifiers_complete {limits : Limits} (fin : Int) {sides : Int} {rest : List Token}
    (hrest : Stops 3 rest) :
    ∀ {cs : List Clause} {fuel : Nat} (stop : Int), cs.length ≤ fuel →
      (∀ t ∈ cs.flatMap Clause.tokens, t.Scanned) → AllLegible (cs.flatMap Clause.tokens) →
        (∀ m ∈ modifiersOf limits sides cs, m.Fits sides) →
          modifiers limits fin sides fuel stop (cs.flatMap Clause.tokens ++ rest) =
            .ok ⟨cs.map fun c => (c.keyword, c.modifier limits sides),
              Token.stopFrom stop (cs.flatMap Clause.tokens), rest⟩ := by
  intro cs
  induction cs with
  | nil =>
    intro fuel stop _ _ _ _
    cases fuel with
    | zero => rfl
    | succ fuel =>
      cases rest with
      | nil => rfl
      | cons t ts =>
        rw [List.flatMap_nil, List.nil_append, modifiers, modifier?_eq_none hrest]
        rfl
  | cons c cs ih =>
    intro fuel stop hfuel hts hl hfits
    obtain ⟨fuel, rfl⟩ : ∃ k, fuel = k + 1 := ⟨fuel - 1, by simp at hfuel; omega⟩
    rw [List.flatMap_cons] at hts hl
    obtain ⟨hc, hcs⟩ := List.forall_mem_append.mp hts
    obtain ⟨hlc, hlcs⟩ := allLegible_append.mp hl
    obtain ⟨hfc, hfcs⟩ := List.forall_mem_cons.mp hfits
    have hread := clause_complete fin (List.forall_mem_cons.mp hc).2
      (allLegible_cons.mp hlc).2 hfc (Clause.leading_flatMap_ne hrest cs)
    have hmore := ih (Token.stopFrom c.keyword.stop c.arguments)
      (Nat.le_of_succ_le_succ hfuel) hcs hlcs hfcs
    rw [List.flatMap_cons, List.append_assoc, Clause.tokens, List.cons_append, modifiers, hread]
    show (modifiers limits fin sides fuel (Token.stopFrom c.keyword.stop c.arguments)
      (cs.flatMap Clause.tokens ++ rest)).bind _ = _
    rw [hmore, Token.stopFrom_append]
    rfl

/-! ## Modifiers that go together -/

theorem countP_family (ms : List (Token × Modifier)) (family : Family) :
    (ms.map Prod.snd).countP (fun m => Family.of? m = some family) =
      (ofFamily family ms).length := by
  rw [List.countP_map, List.countP_eq_length_filter]
  rfl

theorem checkConflicts_eq_ok {ms : List (Token × Modifier)} :
    checkConflicts ms = .ok () ↔ Compatible (ms.map Prod.snd) := by
  rw [checkConflicts, forM_eq_ok]
  have every : ∀ family : Family, family ∈ [Family.keep, .drop, .explode, .success, .failure] := by
    intro family
    cases family <;> simp
  constructor
  · intro h family
    have hf := h family (every family)
    rw [countP_family]
    split at hf
    · cases hf
    · next hne =>
      rcases hm : ofFamily family ms with _ | ⟨first, _ | ⟨second, more⟩⟩
      · simp
      · simp
      · exact absurd hm (hne first second more)
  · intro h family _
    have hlen := h family
    rw [countP_family] at hlen
    split
    · next hm =>
      rw [hm] at hlen
      simp at hlen
    · rfl

/-! ## Dice terms -/

/-- What is read behind the `d` of a dice term: the number of sides and the clauses. -/
theorem dice_sound {limits : Limits} {fin start count : Int} {ts rest : List Token} {e : Expr}
    (hts : ∀ t ∈ ts, t.Scanned) (h : dice limits fin start count ts = .ok (e, rest)) :
    ∃ (n : Word .integer) (cs : List Clause), ts = n.1 :: cs.flatMap Clause.tokens ++ rest ∧
      e = .dice ⟨count, n.1.value, modifiersOf limits n.1.value cs⟩
        ⟨start, Token.stopFrom n.1.stop (cs.flatMap Clause.tokens)⟩ ∧
      (1 ≤ n.1.value ∧ n.1.value ≤ limits.maxSides) ∧
      (∀ m ∈ modifiersOf limits n.1.value cs, m.Fits n.1.value) ∧
      Compatible (modifiersOf limits n.1.value cs) ∧
      AllLegible (n.1 :: cs.flatMap Clause.tokens) := by
  cases ts with
  | nil => cases h
  | cons t ts =>
    rw [dice] at h
    split at h
    · next hk =>
      obtain ⟨v, hv, h⟩ := bind_eq_ok.mp h
      obtain ⟨hl, rfl⟩ := (number_eq_ok hk (hts t (by simp))).mp hv
      split at h
      · next hsides =>
        obtain ⟨p, hp, h⟩ := bind_eq_ok.mp h
        obtain ⟨⟨⟩, hcheck, h⟩ := bind_eq_ok.mp h
        obtain ⟨cs, hcs, hstop, hval, hfits, hleg⟩ :=
          modifiers_sound hsides.1 (fun u hu => hts u (by simp [hu])) hp
        rw [checkConflicts_eq_ok, hval] at hcheck
        obtain ⟨rfl, rfl⟩ := Prod.mk.inj (Except.ok.inj h)
        refine ⟨⟨t, hk⟩, cs, ?_, ?_, hsides, hfits, hcheck, allLegible_cons.mpr ⟨hl, hleg⟩⟩
        · exact congrArg (t :: ·) hcs
        · rw [hval, hstop]
      · cases h
    · cases h

theorem dice_complete {limits : Limits} (fin start count : Int) {n : Word .integer}
    {cs : List Clause} {rest : List Token} (hrest : Stops 3 rest)
    (hts : ∀ t ∈ n.1 :: cs.flatMap Clause.tokens, t.Scanned)
    (hl : AllLegible (n.1 :: cs.flatMap Clause.tokens))
    (hsides : 1 ≤ n.1.value ∧ n.1.value ≤ limits.maxSides)
    (hfits : ∀ m ∈ modifiersOf limits n.1.value cs, m.Fits n.1.value)
    (hcompatible : Compatible (modifiersOf limits n.1.value cs)) :
    dice limits fin start count (n.1 :: cs.flatMap Clause.tokens ++ rest) =
      .ok (.dice ⟨count, n.1.value, modifiersOf limits n.1.value cs⟩
        ⟨start, Token.stopFrom n.1.stop (cs.flatMap Clause.tokens)⟩, rest) := by
  obtain ⟨hn, hcs⟩ := List.forall_mem_cons.mp hts
  obtain ⟨hln, hlcs⟩ := allLegible_cons.mp hl
  have hfuel : cs.length ≤ (cs.flatMap Clause.tokens ++ rest).length := by
    have := Clause.length_le_flatMap cs
    rw [List.length_append]
    omega
  have hmods := modifiers_complete fin hrest n.1.stop hfuel hcs hlcs hfits
  have hcheck :
      checkConflicts (cs.map fun c => (c.keyword, c.modifier limits n.1.value)) = .ok () := by
    rw [checkConflicts_eq_ok, List.map_map]
    exact hcompatible
  rw [List.cons_append, dice, if_pos n.2, (number_eq_ok n.2 hn).mpr ⟨hln, rfl⟩]
  refine (if_pos hsides).trans ?_
  rw [hmods]
  show (checkConflicts _).bind _ = _
  rw [hcheck]
  show Except.ok _ = _
  rw [List.map_map]
  rfl

end Read

end Dicebox
