import Dicebox.Proofs.Grammar.Sentences

/-! # Two lists with the same words

The reader looks at the kinds of its tokens and at their texts in small letters. Where they stand is
only told again: in the spans of a tree, and in the place of a refusal. So two lists of tokens with
the same words are read as the same tree but for its spans, or both are refused, for the same fault
and at words that belong together.

The tokens are those of texts, which have the digits and the shorthands that their kinds promise,
and a limit that is not below zero has a token beyond it whenever it is exceeded. So the only
refusal without a place is one about a number with too many digits to be read.

- `Grounds`, `Refusals`: on which grounds two lists are refused.
- `Agree`: two readers give values that belong together, or else they refuse.
- `Token.SameWord`, `Token.Twins`, `Row`: the same words at two places.
- `Read.factor_agrees`: one lemma for each reader, up to a factor.
- `Grounds.between`, `ofTokens_agrees`: whole expressions.
-/

namespace Dicebox

/-! ## Refusals -/

/-- What is allowed, without the place of a bracket. -/
def Expected.unplaced : Expected → Expected
  | closing _ => closing 0
  | expected => expected

/-- A fault with its words in small letters and without the place of a bracket. -/
def Fault.unplaced : Fault → Fault
  | unexpectedEnd expected => unexpectedEnd expected.unplaced
  | unexpectedToken text expected => unexpectedToken (text.map Char.toLower) expected.unplaced
  | emptySelection keyword => emptySelection (keyword.map Char.toLower)
  | conflict family second first =>
    conflict family (second.map Char.toLower) (first.map Char.toLower)
  | f => f

@[simp] theorem Fault.numbers_unplaced (f : Fault) : f.unplaced.numbers = f.numbers := by
  cases f <;> rfl

/-- Each number that is shown with a fault is a limit, or has few enough digits. -/
def Fault.OfLimits (limits : Limits) (f : Fault) : Prop :=
  ∀ n ∈ f.numbers, Numeral.showable n = true ∨ n = limits.maxDice ∨ n = limits.maxSides

/-- The grounds on which two lists of tokens can be refused: the limits, the offsets that belong
together, and whether one of their numbers has too many digits to be read. -/
structure Grounds where
  limits : Limits
  Pair : Int → Int → Prop
  Unread : Prop

/-- One fault at two offsets that belong together, or a number that is too long if there is one. -/
inductive Refusals (G : Grounds) : NotationError → NotationError → Prop
  | fault {f f' : Fault} {p p' : Int} (pair : G.Pair p p') (numbers : f.OfLimits G.limits)
      (same : f'.unplaced = f.unplaced) : Refusals G (.fault f p) (.fault f' p')
  | tooLong {digits : Nat} (unread : G.Unread) :
      Refusals G (.numberTooLong digits) (.numberTooLong digits)

variable {G : Grounds} {α β : Type} {Q : α → α → Prop} {R : β → β → Prop}

/-! ## Agreement -/

/-- Two readers give values with the relation `Q`, or both refuse on these grounds. -/
def Agree (G : Grounds) (Q : α → α → Prop) :
    Except NotationError α → Except NotationError α → Prop
  | .ok a, .ok a' => Q a a'
  | .error err, .error err' => Refusals G err err'
  | .ok _, .error _ | .error _, .ok _ => False

namespace Agree

theorem fault {f f' : Fault} {p p' : Int} (pair : G.Pair p p') (hf : f.OfLimits G.limits)
    (same : f'.unplaced = f.unplaced) : Agree G Q (.error (.fault f p)) (.error (.fault f' p')) :=
  Refusals.fault pair hf same

theorem plain {f f' : Fault} {p p' : Int} (pair : G.Pair p p') (hf : f.numbers = [])
    (same : f'.unplaced = f.unplaced) :
    Agree G Q (.error (.fault f p)) (.error (.fault f' p')) := by
  refine .fault pair ?_ same
  rw [Fault.OfLimits, hf]
  exact List.forall_mem_nil _

theorem bind {x x' : Except NotationError α} {f f' : α → Except NotationError β}
    (hx : Agree G Q x x') (hf : ∀ a a', Q a a' → Agree G R (f a) (f' a')) :
    Agree G R (x >>= f) (x' >>= f') := by
  cases x with
  | ok a =>
    cases x' with
    | ok a' => exact hf a a' hx
    | error err' => exact hx.elim
  | error err =>
    cases x' with
    | ok a' => exact hx.elim
    | error err' => exact hx

theorem ite {c : Prop} [Decidable c] {x x' y y' : Except NotationError α}
    (hx : c → Agree G Q x x') (hy : ¬ c → Agree G Q y y') :
    Agree G Q (if c then x else y) (if c then x' else y') := by
  split
  · exact hx ‹_›
  · exact hy ‹_›

theorem forM {f f' : α → Except NotationError Unit} {as : List α}
    (h : ∀ a ∈ as, Agree G (fun _ _ => True) (f a) (f' a)) :
    Agree G (fun _ _ => True) (as.forM f) (as.forM f') := by
  induction as with
  | nil => trivial
  | cons a as ih =>
    obtain ⟨ha, has⟩ := List.forall_mem_cons.mp h
    exact ha.bind fun _ _ _ => ih has

end Agree

/-! ## Tokens -/

/-- Two tokens are one word, wherever they stand and whatever their case. -/
structure Token.SameWord (t t' : Token) : Prop where
  kind : t'.kind = t.kind
  lower : t'.lower = t.lower

theorem Token.SameWord.refl (t : Token) : t.SameWord t := ⟨rfl, rfl⟩

/-- One word at two places: tokens of texts that give no other grounds than these. -/
structure Token.Twins (G : Grounds) (t t' : Token) : Prop extends Token.SameWord t t' where
  scanned : t.Scanned
  unread : ¬ t.Legible → G.Unread
  pair : G.Pair t.position t'.position

theorem Token.Twins.text_eq {t t' : Token} (h : t.Twins G t') (hk : t.kind = .integer) :
    t'.text = t.text := by
  have hdigits := (h.scanned.digits hk).2
  have hdigits' := forall_mem_of_map_toLower isDigit_toLower h.lower hdigits
  rw [← map_toLower_of_isDigit hdigits', ← map_toLower_of_isDigit hdigits]
  exact h.lower

/-- Two lists of tokens with the same words. -/
abbrev Row (G : Grounds) : List Token → List Token → Prop := List.Forall₂ (Token.Twins G)

/-- Two parts with the same value, and the same words left. -/
def Piece.Agrees (G : Grounds) (piece piece' : Piece α) : Prop :=
  piece'.value = piece.value ∧ Row G piece.rest piece'.rest

namespace Read

section Readers

variable {fin fin' sides : Int} {t t' keyword keyword' : Token} {ts ts' : List Token}

theorem unexpected_agrees {expected expected' : Expected} (hfin : G.Pair fin fin')
    (hexpected : expected'.unplaced = expected.unplaced) (hts : Row G ts ts') :
    Agree G Q (.error (unexpected fin expected ts)) (.error (unexpected fin' expected' ts')) := by
  cases hts with
  | nil => exact .plain hfin rfl (congrArg Fault.unexpectedEnd hexpected)
  | cons ht hts => exact .plain ht.pair rfl (congrArg₂ Fault.unexpectedToken ht.lower hexpected)

/-! ## Numbers -/

theorem number_agrees (hk : t.kind = .integer) (ht : t.Twins G t') :
    Agree G (fun v v' => v' = v ∧ Numeral.showable v = true) (number t) (number t') := by
  have hsame : number t' = number t := by rw [number, number, ht.text_eq hk]
  rw [hsame]
  by_cases hl : t.Legible
  · rw [(number_eq_ok hk ht.scanned).mpr ⟨hl, rfl⟩]
    exact ⟨rfl, Token.showable_value hk ht.scanned hl⟩
  · rw [number_of_not_legible ht.scanned hl]
    exact .tooLong (ht.unread hl)

def NumbersAgree (G : Grounds) (read read' : Token → Except NotationError Int) : Prop :=
  ∀ ⦃t t' : Token⦄, t.kind = .integer → t.Twins G t' →
    Agree G (fun v v' => v' = v) (read t) (read' t')

theorem face_agrees (use : FaceUse) (hsides : Numeral.showable sides = true) :
    NumbersAgree G (face use sides) (face use sides) := by
  intro t t' hk ht
  refine (number_agrees hk ht).bind ?_
  rintro v _ ⟨rfl, hv⟩
  exact .ite (fun _ => rfl) fun _ =>
    .fault ht.pair (by simp [Fault.OfLimits, Fault.numbers, hsides, hv]) rfl

theorem selected_agrees (hk : keyword.Twins G keyword') :
    NumbersAgree G (selected keyword) (selected keyword') := by
  intro t t' hkind ht
  refine (number_agrees hkind ht).bind ?_
  rintro v _ ⟨rfl, -⟩
  exact .ite (fun _ => .plain ht.pair rfl (congrArg Fault.emptySelection hk.lower)) fun _ => rfl

theorem diceCount_agrees : NumbersAgree G (diceCount G.limits) (diceCount G.limits) := by
  intro t t' hk ht
  refine (number_agrees hk ht).bind ?_
  rintro v _ ⟨rfl, hv⟩
  exact .ite (fun _ => rfl) fun _ =>
    .fault ht.pair (by simp [Fault.OfLimits, Fault.numbers, hv]) rfl

/-! ## Modifiers -/

theorem faces_agrees (hsides : Numeral.showable sides = true) (hfin : G.Pair fin fin')
    (hts : Row G ts ts') :
    Agree G (Piece.Agrees G) (faces fin sides ts) (faces fin' sides ts') := by
  fun_induction faces fin sides ts generalizing ts' with
  | case1 =>
    cases hts
    exact .plain hfin rfl rfl
  | case2 t ts hk ih =>
    cases hts with
    | cons ht hts =>
      rw [faces, if_pos (ht.kind.trans hk)]
      refine (face_agrees .reroll hsides hk ht).bind ?_
      rintro _ v rfl
      cases hts with
      | nil => exact ⟨rfl, .nil⟩
      | cons hc hts =>
        dsimp only
        rw [hc.kind]
        refine .ite (fun _ => ?_) fun _ => ⟨rfl, .cons hc hts⟩
        refine (ih hts).bind ?_
        rintro more more' ⟨hvalue, hrest⟩
        exact ⟨congrArg (v :: ·) hvalue, hrest⟩
  | case3 t ts hk =>
    cases hts with
    | cons ht hts =>
      rw [faces, if_neg (by rwa [ht.kind])]
      exact unexpected_agrees hfin rfl (.cons ht hts)

theorem optional_agrees {read read' : Token → Except NotationError Int} {absent : Int}
    (hread : NumbersAgree G read read') (hts : Row G ts ts') :
    Agree G (Piece.Agrees G) (optional read absent keyword ts)
      (optional read' absent keyword' ts') := by
  cases hts with
  | nil => exact ⟨rfl, .nil⟩
  | cons ht hts =>
    rw [optional, optional, ht.kind]
    refine .ite (fun hk => (hread hk ht).bind ?_) fun _ => ⟨rfl, .cons ht hts⟩
    rintro v _ rfl
    exact ⟨rfl, hts⟩

theorem threshold_agrees (hsides : Numeral.showable sides = true) (hfin : G.Pair fin fin')
    (hts : Row G ts ts') :
    Agree G (Piece.Agrees G) (threshold fin sides ts) (threshold fin' sides ts') := by
  cases hts with
  | nil => exact .plain hfin rfl rfl
  | cons ht hts =>
    rw [threshold, threshold, ht.kind]
    refine .ite (fun hk => (face_agrees .score hsides hk ht).bind ?_) fun _ =>
      unexpected_agrees hfin rfl (.cons ht hts)
    rintro v _ rfl
    exact ⟨rfl, hts⟩

theorem reroll_agrees {once : Bool} (hsides : Numeral.showable sides = true)
    (hfin : G.Pair fin fin') (hk : keyword.Twins G keyword') (hts : Row G ts ts') :
    Agree G (Piece.Agrees G) (reroll G.limits fin sides keyword once ts)
      (reroll G.limits fin' sides keyword' once ts') := by
  refine (faces_agrees hsides hfin hts).bind ?_
  rintro piece piece' ⟨hvalue, hrest⟩
  rw [hvalue]
  exact .ite (fun _ => .fault hk.pair (by simp [Fault.OfLimits, Fault.numbers, hsides]) rfl)
    fun _ => ⟨rfl, hrest⟩

theorem Agree.modifier {x x' : Except NotationError (Piece α)} (make : α → Modifier)
    (h : Agree G (Piece.Agrees G) x x') :
    Agree G (Piece.Agrees G)
      (x >>= fun piece => .ok (⟨make piece.value, piece.stop, piece.rest⟩ : Piece Modifier))
      (x' >>= fun piece => .ok ⟨make piece.value, piece.stop, piece.rest⟩) := by
  refine h.bind ?_
  rintro piece piece' ⟨hvalue, hrest⟩
  exact ⟨congrArg make hvalue, hrest⟩

theorem modifier?_agrees (hsides : Numeral.showable sides = true) (hfin : G.Pair fin fin')
    (hk : keyword.Twins G keyword') (hts : Row G ts ts') :
    Option.Rel (Agree G (Piece.Agrees G)) (modifier? G.limits fin sides keyword ts)
      (modifier? G.limits fin' sides keyword' ts') := by
  rw [modifier?.eq_def, modifier?.eq_def, hk.kind]
  split
  · exact .some (Agree.modifier _ (optional_agrees (selected_agrees hk) hts))
  · exact .some (Agree.modifier (.explode · G.limits.explosionCap)
      (optional_agrees (face_agrees .explosion hsides) hts))
  · exact .some (reroll_agrees hsides hfin hk hts)
  · exact .some (reroll_agrees hsides hfin hk hts)
  · exact .some (Agree.modifier _ (threshold_agrees hsides hfin hts))
  · exact .some (Agree.modifier _ (threshold_agrees hsides hfin hts))
  · exact .none

/-- Modifiers in a row, each with its keyword. -/
abbrev Keyed (G : Grounds) : List (Token × Modifier) → List (Token × Modifier) → Prop :=
  List.Forall₂ fun m m' => m.1.Twins G m'.1 ∧ m'.2 = m.2

/-- The keywords are kept, since a conflict faults at the second one of its family. -/
theorem modifiers_agrees {fuel : Nat} {stop stop' : Int} (hsides : Numeral.showable sides = true)
    (hfin : G.Pair fin fin') (hts : Row G ts ts') :
    Agree G (fun piece piece' => Keyed G piece.value piece'.value ∧ Row G piece.rest piece'.rest)
      (modifiers G.limits fin sides fuel stop ts)
      (modifiers G.limits fin' sides fuel stop' ts') := by
  induction fuel generalizing stop stop' ts ts' with
  | zero => exact ⟨.nil, hts⟩
  | succ fuel ih =>
    cases hts with
    | nil => exact ⟨.nil, .nil⟩
    | @cons keyword keyword' ts ts' hk hts =>
      have hread := modifier?_agrees hsides hfin hk hts
      rw [modifiers, modifiers]
      generalize modifier? G.limits fin sides keyword ts = read at hread
      generalize modifier? G.limits fin' sides keyword' ts' = read' at hread
      cases hread with
      | none => exact ⟨.nil, .cons hk hts⟩
      | some hread =>
        refine hread.bind ?_
        rintro piece piece' ⟨hvalue, hrest⟩
        refine (ih hrest).bind ?_
        rintro more more' ⟨hmore, hleft⟩
        exact ⟨.cons ⟨hk, hvalue⟩ hmore, hleft⟩

theorem checkConflicts_agrees {ms ms' : List (Token × Modifier)} (h : Keyed G ms ms') :
    Agree G (fun _ _ => True) (checkConflicts ms) (checkConflicts ms') := by
  refine .forM fun family _ => ?_
  have hfamily : Keyed G (ofFamily family ms) (ofFamily family ms') :=
    List.rel_filter (fun m m' hm => by simp only [hm.2]) h
  generalize ofFamily family ms = found at hfamily
  generalize ofFamily family ms' = found' at hfamily
  cases hfamily with
  | nil => trivial
  | cons hfirst hmore =>
    cases hmore with
    | nil => trivial
    | cons hsecond _ =>
      exact .plain hsecond.1.pair rfl
        (congrArg₂ (Fault.conflict family) hsecond.1.lower hfirst.1.lower)

/-! ## Expressions -/

/-- Two expressions that differ in their spans only, and the same words left. -/
def ExprsAgree (G : Grounds) (piece piece' : Expr × List Token) : Prop :=
  piece'.1.unplaced = piece.1.unplaced ∧ Row G piece.2 piece'.2

def ReadersAgree (G : Grounds)
    (read read' : List Token → Except NotationError (Expr × List Token)) : Prop :=
  ∀ ⦃ts ts' : List Token⦄, Row G ts ts' → Agree G (ExprsAgree G) (read ts) (read' ts')

theorem dice_agrees {start start' count : Int} (hfin : G.Pair fin fin') :
    ReadersAgree G (dice G.limits fin start count) (dice G.limits fin' start' count) := by
  intro ts ts' hts
  cases hts with
  | nil => exact .plain hfin rfl rfl
  | cons ht hts =>
    rw [dice, dice, ht.kind]
    refine .ite (fun hk => ?_) fun _ => .plain ht.pair rfl rfl
    refine (number_agrees hk ht).bind ?_
    rintro sides _ ⟨rfl, hsides⟩
    refine .ite (fun _ => ?_) fun _ =>
      .fault ht.pair (by simp [Fault.OfLimits, Fault.numbers, hsides]) rfl
    rw [← hts.length_eq]
    refine (modifiers_agrees hsides hfin hts).bind ?_
    rintro piece piece' ⟨hvalue, hrest⟩
    refine (checkConflicts_agrees hvalue).bind fun _ _ _ => ⟨?_, hrest⟩
    have hmodifiers : piece'.value.map Prod.snd = piece.value.map Prod.snd := by
      refine List.forall₂_eq_eq_eq ▸ ?_
      rw [List.forall₂_map_left_iff, List.forall₂_map_right_iff]
      exact hvalue.flip.imp fun _ _ hm => hm.2
    rw [hmodifiers]
    rfl

theorem numbered_agrees (hfin : G.Pair fin fin') (hk : t.kind = .integer) (ht : t.Twins G t') :
    ReadersAgree G (numbered G.limits fin t) (numbered G.limits fin' t') := by
  intro ts ts' hts
  have constant : Agree G (ExprsAgree G)
      (number t >>= fun v => .ok (Expr.constant v ⟨t.position, t.stop⟩, ts))
      (number t' >>= fun v => .ok (Expr.constant v ⟨t'.position, t'.stop⟩, ts')) := by
    refine (number_agrees hk ht).bind ?_
    rintro v _ ⟨rfl, -⟩
    exact ⟨rfl, hts⟩
  cases hts with
  | nil => exact constant
  | cons hd hts =>
    rw [numbered, numbered, hd.kind]
    refine .ite (fun _ => (diceCount_agrees hk ht).bind ?_) fun _ => constant
    rintro count _ rfl
    exact dice_agrees hfin hts

theorem shorthand_agrees (hk : t.kind = .shorthand) (ht : t.Twins G t') :
    Agree G (fun e e' => e'.unplaced = e.unplaced) (shorthand t) (shorthand t') := by
  obtain ⟨rule, known⟩ := ht.scanned.known hk
  rw [shorthand, shorthand, show shorthand? (t.text.map Char.toLower) = some rule from known,
    show shorthand? (t'.text.map Char.toLower) = some rule from
      (congrArg shorthand? ht.lower).trans known]
  exact rfl

theorem chain_agrees {operand operand' : List Token → Except NotationError (Expr × List Token)}
    {precedence fuel : Nat} {left left' : Expr} (hoperand : ReadersAgree G operand operand')
    (hleft : left'.unplaced = left.unplaced) :
    ReadersAgree G (chain precedence operand fuel left) (chain precedence operand' fuel left') := by
  induction fuel generalizing left left' with
  | zero => exact fun _ _ hts => ⟨hleft, hts⟩
  | succ fuel ih =>
    intro ts ts' hts
    cases hts with
    | nil => exact ⟨hleft, .nil⟩
    | cons ht hts =>
      rw [chain, chain, ht.kind]
      split
      · refine .ite (fun _ => (hoperand hts).bind ?_) fun _ => ⟨hleft, .cons ht hts⟩
        rintro ⟨right, rest⟩ ⟨right', rest'⟩ ⟨hright, hrest⟩
        refine ih ?_ hrest
        rw [Expr.unplaced, Expr.unplaced, hleft, hright]
      · exact ⟨hleft, .cons ht hts⟩

theorem joined_agrees {operand operand' : List Token → Except NotationError (Expr × List Token)}
    {precedence : Nat} (hoperand : ReadersAgree G operand operand') :
    ReadersAgree G (joined precedence operand) (joined precedence operand') := by
  intro ts ts' hts
  refine (hoperand hts).bind ?_
  rintro ⟨left, rest⟩ ⟨left', rest'⟩ ⟨hleft, hrest⟩
  dsimp only
  rw [← hrest.length_eq]
  exact chain_agrees hoperand hleft hrest

theorem sum_agrees {factor factor' : List Token → Except NotationError (Expr × List Token)}
    (hfactor : ReadersAgree G factor factor') : ReadersAgree G (sum factor) (sum factor') :=
  joined_agrees (joined_agrees hfactor)

theorem factor_agrees (hfin : G.Pair fin fin') (depth : Nat) :
    ReadersAgree G (factor G.limits fin depth) (factor G.limits fin' depth) := by
  induction depth with
  | zero =>
    intro ts ts' hts
    cases hts with
    | nil => exact .plain hfin rfl rfl
    | cons ht _ => exact .plain ht.pair rfl rfl
  | succ depth ih =>
    intro ts ts' hts
    cases hts with
    | nil => exact .plain hfin rfl rfl
    | @cons t t' ts ts' ht hts =>
      rw [factor.eq_def, factor.eq_def]
      dsimp only
      rw [ht.kind]
      split
      · refine (ih hts).bind ?_
        rintro ⟨e, rest⟩ ⟨e', rest'⟩ ⟨he, hrest⟩
        refine ⟨?_, hrest⟩
        rw [Expr.unplaced, Expr.unplaced, he]
      · refine (sum_agrees ih hts).bind ?_
        rintro ⟨e, rest⟩ ⟨e', rest'⟩ ⟨he, hrest⟩
        cases hrest with
        | nil => exact .plain hfin rfl rfl
        | cons hc hrest =>
          dsimp only
          rw [hc.kind]
          refine .ite (fun _ => ⟨?_, hrest⟩) fun _ =>
            .plain hc.pair rfl (congrArg (Fault.unexpectedToken · _) hc.lower)
          rw [Expr.unplaced_withSpan, Expr.unplaced_withSpan, he]
      · next hk => exact numbered_agrees hfin hk ht hts
      · exact dice_agrees hfin hts
      · next hk =>
        refine (shorthand_agrees hk ht).bind ?_
        rintro e e' he
        exact ⟨he, hts⟩
      · exact .plain ht.pair rfl (congrArg (Fault.unexpectedToken · _) ht.lower)

end Readers

end Read

/-! ## Whole expressions -/

theorem exists_endMark_closed (tokens : List Token) :
    ∃ t ∈ closed tokens, t.kind = .endMark := by
  rw [closed]
  split
  · exact ⟨_, List.mem_singleton_self _, rfl⟩
  · next t hlast =>
    by_cases hk : t.kind = .endMark
    · rw [if_pos hk]
      exact ⟨t, List.mem_of_getLast? hlast, hk⟩
    · rw [if_neg hk]
      exact ⟨.ending t.stop, List.mem_append_right _ (List.mem_singleton_self _), rfl⟩

/-- Two lists with the same words have the same words in front of their end marks, and behind. -/
theorem Row.at_endMark {ts ts' : List Token} (h : Row G ts ts') :
    Row G (ts.takeWhile (·.kind ≠ .endMark)) (ts'.takeWhile (·.kind ≠ .endMark)) ∧
      Row G (ts.dropWhile (·.kind ≠ .endMark)) (ts'.dropWhile (·.kind ≠ .endMark)) := by
  induction h with
  | nil => exact ⟨.nil, .nil⟩
  | @cons t t' ts ts' ht hts ih =>
    rw [List.takeWhile_cons, List.takeWhile_cons, List.dropWhile_cons, List.dropWhile_cons, ht.kind]
    split
    · exact ⟨.cons ht ih.1, ih.2⟩
    · exact ⟨.nil, .cons ht hts⟩

theorem Row.tokenBeyond? {ts ts' : List Token} {limit : Int} (h : Row G ts ts') (hlimit : 0 ≤ limit)
    (hlong : limit < ts.length) : ∃ t t', Dicebox.tokenBeyond? limit ts = some t ∧
      Dicebox.tokenBeyond? limit ts' = some t' ∧ t.Twins G t' := by
  have hi : limit.toNat < ts.length := by omega
  have hi' : limit.toNat < ts'.length := h.length_eq ▸ hi
  refine ⟨ts[limit.toNat], ts'[limit.toNat], ?_, ?_, h.get hi hi'⟩
  · rw [tokenBeyond?_of_nonneg hlimit, List.getElem?_eq_getElem hi]
  · rw [tokenBeyond?_of_nonneg hlimit, List.getElem?_eq_getElem hi']

/-- The grounds that two lists of tokens give: the offsets of the words of one index belong
together. -/
def Grounds.between (limits : Limits) (tokens tokens' : List Token) : Grounds where
  limits := limits
  Pair p p' := ∃ (i : Nat) (t t' : Token), tokens[i]? = some t ∧ tokens'[i]? = some t' ∧
    t.position = p ∧ t'.position = p'
  Unread := ¬ AllLegible tokens

theorem row_between {limits : Limits} {tokens tokens' : List Token}
    (hscanned : ∀ t ∈ tokens, t.Scanned)
    (h : List.Forall₂ Token.SameWord tokens tokens') :
    Row (.between limits tokens tokens') tokens tokens' := by
  rw [Row, List.forall₂_iff_get]
  refine ⟨h.length_eq, fun i hi hi' => ?_⟩
  have hunread : ¬ (tokens.get ⟨i, hi⟩).Legible → ¬ AllLegible tokens :=
    fun hl hall => hl (hall _ (List.get_mem _ _))
  exact ⟨h.get hi hi', hscanned _ (List.get_mem _ _), hunread, i, tokens[i], tokens'[i],
    List.getElem?_eq_getElem hi, List.getElem?_eq_getElem hi', rfl, rfl⟩

/-- **Lists with the same words are read as the same tree** but for its spans, or they are refused
for the same fault at the same word. -/
theorem ofTokens_agrees {tokens tokens' : List Token} (hmax : 0 ≤ G.limits.maxTokens)
    (h : Row G (closed tokens) (closed tokens')) :
    Agree G (fun e e' => e'.unplaced = e.unplaced) (Expr.ofTokens G.limits tokens)
      (Expr.ofTokens G.limits tokens') := by
  obtain ⟨hbody, hbehind⟩ := h.at_endMark
  have hfin : G.Pair (Read.here 0 ((closed tokens).dropWhile (·.kind ≠ .endMark)))
      (Read.here 0 ((closed tokens').dropWhile (·.kind ≠ .endMark))) := by
    obtain ⟨t, ht, hk⟩ := exists_endMark_closed tokens
    have hsome : (closed tokens).dropWhile (·.kind ≠ .endMark) ≠ [] := by
      intro hnone
      exact absurd hk (by simpa using List.dropWhile_eq_nil_iff.mp hnone t ht)
    generalize (closed tokens).dropWhile (·.kind ≠ .endMark) = ts at hbehind hsome
    generalize (closed tokens').dropWhile (·.kind ≠ .endMark) = ts' at hbehind
    cases hbehind with
    | nil => exact absurd rfl hsome
    | cons hend _ => exact hend.pair
  rw [Expr.ofTokens, Expr.ofTokens, ← h.length_eq]
  dsimp only
  have hempty : ∀ {ts ts' : List Token}, Row G ts ts' → ts'.isEmpty = ts.isEmpty := by
    intro ts ts' hts
    cases hts <;> rfl
  rw [hempty hbody]
  refine .ite (fun _ => .plain hfin rfl rfl) fun _ => .ite (fun hlong => ?_) fun _ => ?_
  · obtain ⟨t, t', ht, ht', htwins⟩ := h.tokenBeyond? hmax hlong
    rw [ht, ht']
    exact .plain htwins.pair rfl rfl
  · refine (Read.sum_agrees (Read.factor_agrees hfin _) hbody).bind ?_
    rintro ⟨e, rest⟩ ⟨e', rest'⟩ ⟨he, hrest⟩
    dsimp only
    rw [hempty hrest]
    exact .ite (fun _ => he) fun _ => Read.unexpected_agrees hfin rfl hrest

end Dicebox
