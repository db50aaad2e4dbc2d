import Dicebox.Proofs.Audit
import Dicebox.Proofs.Grammar.Faults
import Dicebox.Proofs.Leaves
import Dicebox.Stored

/-! # What an audit accepts

An audit takes the recorded terms of a roll one by one while it goes along the tree of the notation.
It comes to a total if and only if the terms and the leaves of that tree agree one to one, from left
to right, and no divisor is zero; the total is then the value of the tree. In every other case the
audit says what is wrong, unless that is a constant with more digits than can be shown.

- `TermResult.BearsOut`: a recorded term agrees with a leaf.
- `Expr.refold_eq_ok`, `Expr.refold_error`: terms folded along a tree.
- `parse_auditLimits`: the limits that an audit reads under.
- `AuditError.Worded`: an error that can be put into words.
- `audit_is_exact`, `long_constant_is_not_worded`: the audit of a roll.
-/

namespace Dicebox

/-! ## Terms and leaves -/

/-- A recorded term agrees with a leaf: it is the same constant, or its subtotal and its scoring
follow from its dice under the modifiers of the leaf. -/
inductive TermResult.BearsOut : TermResult → Int ⊕ Dice → Prop
  | constant (v : Int) : BearsOut (.constant v) (.inl v)
  | dice {t : Dice} {r : DiceResult} (h : score r.dice t.modifiers = (r.subtotal, r.scoring)) :
      BearsOut (.dice r) (.inr t)

/-- An error is about recorded terms: a wrong constant is one of them. -/
def AuditError.Concerns (terms : List TermResult) : AuditError → Prop
  | unreadable _ => False
  | wrongConstant v => .constant v ∈ terms
  | wrongSubtotal _ | mismatch | zeroDivisor | surplusTerms => True

theorem AuditError.Concerns.append {terms : List TermResult} {err : AuditError}
    (h : err.Concerns terms) (before : List TermResult) : err.Concerns (before ++ terms) := by
  cases err with
  | unreadable => exact h
  | wrongConstant => exact List.mem_append_right before h
  | wrongSubtotal | mismatch | zeroDivisor | surplusTerms => trivial

namespace Expr

variable {terms rest : List TermResult} {v : Int}

theorem refold_constant_eq_ok {c : Int} {s : Span} :
    (constant c s).refold terms = .ok (v, rest) ↔
      terms = .constant c :: rest ∧ v = c := by
  rcases terms with _ | ⟨w | r, more⟩
  · simp [refold]
  · rw [refold, ite_eq_ok, Prod.mk.injEq]
    simp only [List.cons.injEq, TermResult.constant.injEq]
    constructor
    · rintro ⟨⟨rfl, rfl⟩, rfl⟩
      exact ⟨⟨rfl, rfl⟩, rfl⟩
    · rintro ⟨⟨rfl, rfl⟩, rfl⟩
      exact ⟨⟨rfl, rfl⟩, rfl⟩
  · simp [refold]

theorem refold_dice_eq_ok {t : Dice} {s : Span} :
    (dice t s).refold terms = .ok (v, rest) ↔
      ∃ r, terms = .dice r :: rest ∧ score r.dice t.modifiers = (r.subtotal, r.scoring) ∧
        v = r.subtotal := by
  rcases terms with _ | ⟨w | r, more⟩
  · simp [refold]
  · simp [refold]
  · rw [refold, ite_eq_ok, Prod.mk.injEq]
    constructor
    · rintro ⟨⟨rfl, rfl⟩, h⟩
      exact ⟨r, rfl, h, rfl⟩
    · rintro ⟨r', hterms, h, rfl⟩
      obtain ⟨hr, rfl⟩ := List.cons.inj hterms
      obtain rfl := TermResult.dice.inj hr
      exact ⟨⟨rfl, rfl⟩, h⟩

theorem refold_negate_eq_ok {e : Expr} {s : Span} :
    (negate e s).refold terms = .ok (v, rest) ↔ ∃ a, e.refold terms = .ok (a, rest) ∧ v = -a := by
  rw [refold, bind_eq_ok]
  constructor
  · rintro ⟨⟨a, rest'⟩, he, h⟩
    obtain ⟨rfl, rfl⟩ := Prod.mk.inj (Except.ok.inj h)
    exact ⟨a, he, rfl⟩
  · rintro ⟨a, he, rfl⟩
    exact ⟨(a, rest), he, rfl⟩

theorem refold_binary_eq_ok {op : Operator} {l r : Expr} {s : Span} :
    (binary op l r s).refold terms = .ok (v, rest) ↔
      ∃ a middle b, l.refold terms = .ok (a, middle) ∧ r.refold middle = .ok (b, rest) ∧
        op.value? a b = some v := by
  constructor
  · intro h
    rw [refold] at h
    obtain ⟨⟨a, middle⟩, hl, h⟩ := bind_eq_ok.mp h
    obtain ⟨⟨b, rest'⟩, hr, h⟩ := bind_eq_ok.mp h
    dsimp only at h hr
    split at h
    · next w hw =>
      obtain ⟨rfl, rfl⟩ := Prod.mk.inj (Except.ok.inj h)
      exact ⟨a, middle, b, hl, hr, hw⟩
    · cases h
  · rintro ⟨a, middle, b, hl, hr, hv⟩
    exact refold_binary hl hr hv

/-- **Terms fold along a tree if and only if they bear out its leaves one by one**, up to terms that
are left, and no divisor is zero. -/
theorem refold_eq_ok {e : Expr} :
    e.refold terms = .ok (v, rest) ↔ ∃ used, terms = used ++ rest ∧
      List.Forall₂ TermResult.BearsOut used e.leaves ∧
        0 ∉ e.divisors (used.map TermResult.value) ∧ v = e.value (used.map TermResult.value) := by
  induction e generalizing terms rest v with
  | constant c s =>
    rw [refold_constant_eq_ok]
    constructor
    · rintro ⟨rfl, rfl⟩
      exact ⟨[.constant v], rfl, .cons (.constant v) .nil, List.not_mem_nil, rfl⟩
    · rintro ⟨used, rfl, hused, -, rfl⟩
      obtain ⟨t, ts, hc, hnil, rfl⟩ := List.forall₂_cons_right_iff.mp hused
      obtain rfl := List.forall₂_nil_right_iff.mp hnil
      cases hc
      exact ⟨rfl, rfl⟩
  | dice t s =>
    rw [refold_dice_eq_ok]
    constructor
    · rintro ⟨r, rfl, hscore, rfl⟩
      exact ⟨[.dice r], rfl, .cons (.dice hscore) .nil, List.not_mem_nil, rfl⟩
    · rintro ⟨used, rfl, hused, -, rfl⟩
      obtain ⟨t, ts, hd, hnil, rfl⟩ := List.forall₂_cons_right_iff.mp hused
      obtain rfl := List.forall₂_nil_right_iff.mp hnil
      cases hd with
      | dice hscore => exact ⟨_, rfl, hscore, rfl⟩
  | negate e s ih =>
    rw [refold_negate_eq_ok]
    constructor
    · rintro ⟨a, he, rfl⟩
      obtain ⟨used, hterms, hused, hzero, rfl⟩ := ih.mp he
      exact ⟨used, hterms, hused, hzero, rfl⟩
    · rintro ⟨used, hterms, hused, hzero, rfl⟩
      exact ⟨_, ih.mpr ⟨used, hterms, hused, hzero, rfl⟩, rfl⟩
  | binary op l r s ihl ihr =>
    rw [refold_binary_eq_ok]
    constructor
    · rintro ⟨a, middle, b, hl, hr, hv⟩
      obtain ⟨left, rfl, hleft, hzl, rfl⟩ := ihl.mp hl
      obtain ⟨right, rfl, hright, hzr, rfl⟩ := ihr.mp hr
      obtain ⟨hdivisor, rfl⟩ := Operator.value?_eq_some.mp hv
      have hlen : (left.map TermResult.value).length = l.leaves.length := by
        rw [List.length_map, hleft.length_eq]
      refine ⟨left ++ right, (List.append_assoc ..).symm, List.rel_append hleft hright, ?_, ?_⟩
      · rw [List.map_append, zero_mem_divisors_binary hlen]
        rintro (h | h | h)
        · exact hzl h
        · exact hzr h
        · exact hdivisor h
      · rw [List.map_append, value_binary hlen]
    · rintro ⟨used, rfl, hused, hzero, rfl⟩
      -- the leaves of the left side have the first terms
      obtain ⟨left, right, rfl, hleft, hright⟩ : ∃ left right, used = left ++ right ∧
          List.Forall₂ TermResult.BearsOut left l.leaves ∧
            List.Forall₂ TermResult.BearsOut right r.leaves :=
        ⟨used.take l.leaves.length, used.drop l.leaves.length, (List.take_append_drop _ _).symm,
          List.forall₂_take_append _ _ _ hused, List.forall₂_drop_append _ _ _ hused⟩
      have hlen : (left.map TermResult.value).length = l.leaves.length := by
        rw [List.length_map, hleft.length_eq]
      rw [List.map_append, zero_mem_divisors_binary hlen, not_or, not_or] at hzero
      obtain ⟨hzl, hzr, hdivisor⟩ := hzero
      refine ⟨_, right ++ rest, _, ihl.mpr ⟨left, ?_, hleft, hzl, rfl⟩,
        ihr.mpr ⟨right, rfl, hright, hzr, rfl⟩, ?_⟩
      · exact List.append_assoc ..
      · rw [List.map_append, value_binary hlen]
        exact Operator.value?_eq_some.mpr ⟨hdivisor, rfl⟩

/-- **What is wrong with terms that do not fold along a tree** is no matter of the notation. -/
theorem refold_error {e : Expr} {err : AuditError} (h : e.refold terms = .error err) :
    err.Concerns terms := by
  induction e generalizing terms with
  | constant c s =>
    rcases terms with _ | ⟨w | r, more⟩
    · obtain rfl := Except.error.inj h
      trivial
    · rw [refold] at h
      split at h
      · cases h
      · obtain rfl := Except.error.inj h
        exact List.mem_cons_self
    · obtain rfl := Except.error.inj h
      trivial
  | dice t s =>
    rcases terms with _ | ⟨w | r, more⟩
    · obtain rfl := Except.error.inj h
      trivial
    · obtain rfl := Except.error.inj h
      trivial
    · rw [refold] at h
      split at h
      · cases h
      · obtain rfl := Except.error.inj h
        trivial
  | negate e s ih =>
    rw [refold] at h
    rcases bind_eq_error.mp h with he | ⟨p, -, h⟩
    · exact ih he
    · cases h
  | binary op l r s ihl ihr =>
    rw [refold] at h
    rcases bind_eq_error.mp h with hl | ⟨⟨a, middle⟩, hl, h⟩
    · exact ihl hl
    · rcases bind_eq_error.mp h with hr | ⟨⟨b, rest⟩, -, h⟩
      · -- the right side has the terms behind those of the left side
        obtain ⟨used, rfl, -⟩ := refold_eq_ok.mp hl
        exact (ihr hr).append used
      · dsimp only at h
        split at h
        · cases h
        · obtain rfl := Except.error.inj h
          trivial

end Expr

/-! ## Limits -/

section Limits

variable {limits : Limits} {fin : Int} (n : Int)

theorem Read.modifiers_maxTokens {sides stop : Int} {fuel : Nat} {ts : List Token} :
    modifiers { limits with maxTokens := n } fin sides fuel stop ts =
      modifiers limits fin sides fuel stop ts := by
  induction fuel generalizing stop ts with
  | zero => rfl
  | succ fuel ih =>
    cases ts with
    | nil => rfl
    | cons keyword ts =>
      have hread : modifier? { limits with maxTokens := n } fin sides keyword ts =
          modifier? limits fin sides keyword ts := rfl
      simp only [modifiers, hread, ih]

theorem Read.dice_maxTokens {start count : Int} {ts : List Token} :
    dice { limits with maxTokens := n } fin start count ts = dice limits fin start count ts := by
  cases ts with
  | nil => rfl
  | cons t ts => simp only [dice, modifiers_maxTokens]

theorem Read.factor_maxTokens (depth : Nat) :
    factor { limits with maxTokens := n } fin depth = factor limits fin depth := by
  induction depth with
  | zero => rfl
  | succ depth ih =>
    have hnumbered (t : Token) (ts : List Token) :
        numbered { limits with maxTokens := n } fin t ts = numbered limits fin t ts := by
      cases ts with
      | nil => rfl
      | cons d ts => simp only [numbered, dice_maxTokens, diceCount]
    funext ts
    cases ts with
    | nil => rfl
    | cons t ts => simp only [factor, ih, hnumbered, dice_maxTokens]

/-- What is read does not depend on a limit on tokens that it keeps to. -/
theorem parse_maxTokens {text : String} (h : (text.length + 1 : Int) ≤ limits.maxTokens)
    (hn : (text.length + 1 : Int) ≤ n) :
    Expr.parse { limits with maxTokens := n } text = Expr.parse limits text := by
  cases hscan : Token.scan text with
  | error err => rw [Expr.parse, Expr.parse, hscan]; rfl
  | ok tokens =>
    obtain ⟨body, stop, rfl, hbody, hlen⟩ := Token.scanFrom_sound hscan
    have hsize : ((body ++ [Token.ending stop]).length : Int) ≤ text.length + 1 := by
      rw [List.length_append, List.length_singleton, ← String.length_toList]
      omega
    have hread : Expr.ofTokens { limits with maxTokens := n } (body ++ [Token.ending stop]) =
        Expr.ofTokens limits (body ++ [Token.ending stop]) := by
      rw [Expr.ofTokens, Expr.ofTokens, closed_concat, if_neg (Int.not_lt.mpr (hsize.trans h)),
        if_neg (Int.not_lt.mpr (hsize.trans hn)), Read.factor_maxTokens]
    rw [Expr.parse, Expr.parse, hscan]
    exact hread

end Limits

theorem parse_auditLimits {text : String} (h : text.length < 2 ^ 63 - 1) :
    Expr.parse (auditLimits text) text =
      Expr.parse { maxDice := 2 ^ 63 - 1, maxSides := 2 ^ 63 - 1, maxTokens := 2 ^ 63 - 1 } text :=
  (parse_maxTokens (2 ^ 63 - 1) (le_refl _) (by omega)).symm

/-! ## The audit -/

/-- An error can be put into words: what cannot be read has a place, and a constant that is not the
expected one can be shown. -/
def AuditError.Worded : AuditError → Prop
  | unreadable err => ∃ p, err.position? = some p
  | wrongConstant v => Numeral.showable v = true
  | wrongSubtotal _ | mismatch | zeroDivisor | surplusTerms => True

theorem AuditError.Concerns.worded_or {terms : List TermResult} {err : AuditError}
    (h : err.Concerns terms) : err.Worded ∨
      ∃ v, .constant v ∈ terms ∧ err = .wrongConstant v ∧ Numeral.showable v = false := by
  cases err with
  | unreadable => exact h.elim
  | wrongConstant v =>
    cases hshown : Numeral.showable v with
    | true => exact .inl hshown
    | false => exact .inr ⟨v, h, rfl, hshown⟩
  | wrongSubtotal | mismatch | zeroDivisor | surplusTerms => exact .inl trivial

namespace Roll

variable {r : Roll} {e : Expr} {total : Int}

theorem recompute_eq_ok :
    r.recompute = .ok total ↔
      ∃ e, Expr.parse (auditLimits r.canonical) r.canonical = .ok e ∧
        e.refold r.terms = .ok (total, []) := by
  constructor
  · intro h
    cases hread : Expr.parse (auditLimits r.canonical) r.canonical with
    | error err =>
      rw [recompute, audit, hread] at h
      cases h
    | ok e =>
      rw [recompute, audit, hread] at h
      obtain ⟨⟨v, rest⟩, hfold, h⟩ := bind_eq_ok.mp h
      dsimp only at h
      split at h
      · next hrest =>
        obtain rfl := Except.ok.inj h
        rw [List.isEmpty_iff.mp hrest] at hfold
        exact ⟨e, rfl, hfold⟩
      · cases h
  · rintro ⟨e, hread, hfold⟩
    exact recompute_of_refold hread hfold

theorem refold_nil_eq_ok :
    e.refold r.terms = .ok (total, []) ↔ List.Forall₂ TermResult.BearsOut r.terms e.leaves ∧
      0 ∉ e.divisors (r.terms.map TermResult.value) ∧
        total = e.value (r.terms.map TermResult.value) := by
  rw [Expr.refold_eq_ok]
  constructor
  · rintro ⟨used, hused, h⟩
    rw [List.append_nil] at hused
    rwa [hused]
  · intro h
    exact ⟨r.terms, (List.append_nil _).symm, h⟩

/-- What an audit cannot put into words is one of the recorded constants. -/
theorem recompute_error {err : AuditError} (hlegible : LegibleText r.canonical)
    (h : r.recompute = .error err) :
    err.Worded ∨
      ∃ v, .constant v ∈ r.terms ∧ err = .wrongConstant v ∧ Numeral.showable v = false := by
  cases hread : Expr.parse (auditLimits r.canonical) r.canonical with
  | error err' =>
    rw [recompute, audit, hread] at h
    obtain rfl := Except.error.inj h
    have hmax : 0 ≤ (auditLimits r.canonical).maxTokens := Int.natCast_nonneg _
    have hlimit : Numeral.showable (2 ^ 63 - 1) = true := by decide
    exact .inl (parse_error_placed hmax ⟨hlimit, hlimit⟩ hlegible hread)
  | ok e =>
    rw [recompute, audit, hread] at h
    rcases bind_eq_error.mp h with hfold | ⟨⟨total, rest⟩, -, h⟩
    · exact (Expr.refold_error hfold).worded_or
    · dsimp only at h
      split at h
      · cases h
      · obtain rfl := Except.error.inj h
        exact .inl trivial

end Roll

/-- **The audit is exact.** It comes to a total if and only if the notation is read as a tree that
the terms bear out leaf by leaf, without a zero divisor, and whose value is the total; the notation
is read under the largest limits there are. Otherwise, if its numbers can be read, the audit has
words for what is wrong, unless a recorded constant is wrong and too long to be shown. -/
theorem audit_is_exact (r : Roll) :
    (∀ total, r.recompute = .ok total ↔
      ∃ e, Expr.parse (auditLimits r.canonical) r.canonical = .ok e ∧
        List.Forall₂ TermResult.BearsOut r.terms e.leaves ∧
          0 ∉ e.divisors (r.terms.map TermResult.value) ∧
            total = e.value (r.terms.map TermResult.value)) ∧
    (r.canonical.length < 2 ^ 63 - 1 →
      Expr.parse (auditLimits r.canonical) r.canonical =
        Expr.parse { maxDice := 2 ^ 63 - 1, maxSides := 2 ^ 63 - 1, maxTokens := 2 ^ 63 - 1 }
          r.canonical) ∧
    (LegibleText r.canonical →
      ∀ err, r.recompute = .error err → err.Worded ∨
        ∃ v, .constant v ∈ r.terms ∧ err = .wrongConstant v ∧ Numeral.showable v = false) := by
  refine ⟨fun total => ?_, parse_auditLimits, fun hlegible err h => r.recompute_error hlegible h⟩
  rw [Roll.recompute_eq_ok]
  simp only [Roll.refold_nil_eq_ok]

/-! ## A constant in the place of another -/

/-- The number one as a roll, with a recorded constant. -/
def oneAs (v : Int) : Roll := ⟨"1", "1", 1, [.constant v]⟩

theorem scan_one : Token.scan "1" = .ok [⟨.integer, ['1'], 0⟩, Token.ending 1] :=
  Token.scan_numeral (by simp) (by simp)

theorem legible_oneAs {v : Int} : LegibleText (oneAs v).canonical := by
  intro tokens h
  obtain rfl := Except.ok.inj (scan_one.symm.trans h)
  simp [allLegible_cons, allLegible_nil, Token.Legible, Token.ending, Numeral.digitLimit]

theorem recompute_oneAs {v : Int} :
    (oneAs v).recompute = if v = 1 then .ok v else .error (.wrongConstant v) := by
  have hread : Expr.parse (auditLimits "1") "1" = .ok (.constant 1 ⟨0, 1⟩) := by
    rw [Expr.parse, scan_one]
    rfl
  rw [Roll.recompute, audit, show (oneAs v).canonical = "1" from rfl, hread]
  show Expr.refold _ [.constant v] >>= _ = _
  rw [Expr.refold]
  by_cases h : v = 1
  · rw [if_pos h, if_pos h]
    rfl
  · rw [if_neg h, if_neg h]
    rfl

/-- A one bears itself out, and a two in its place does not. -/
theorem one_is_audited :
    (∃ e, Expr.parse (auditLimits "1") "1" = .ok e ∧
      List.Forall₂ TermResult.BearsOut [.constant 1] e.leaves) ∧
    ∃ err, (oneAs 2).recompute = .error err ∧ err.Worded := by
  obtain ⟨hexact, -, -⟩ := audit_is_exact (oneAs 1)
  obtain ⟨-, -, herror⟩ := audit_is_exact (oneAs 2)
  have hok : (oneAs 1).recompute = .ok 1 := by rw [recompute_oneAs, if_pos rfl]
  have herr : (oneAs 2).recompute = .error (.wrongConstant 2) := by
    rw [recompute_oneAs, if_neg (by decide)]
  obtain ⟨e, hread, hborne, -⟩ := (hexact 1).mp hok
  refine ⟨⟨e, hread, hborne⟩, _, herr, ?_⟩
  rcases herror legible_oneAs _ herr with hworded | ⟨v, -, hv, hshown⟩
  · exact hworded
  · obtain rfl := AuditError.wrongConstant.inj hv
    exact absurd hshown (by decide)

/-- A constant with one digit more than can be shown is refused without words of its own. -/
theorem long_constant_is_not_worded :
    let r := oneAs (10 ^ Numeral.digitLimit : Nat)
    LegibleText r.canonical ∧ ∃ err, r.recompute = .error err ∧ ¬ err.Worded ∧
      (Inconsistency.audit err).message = Numeral.tooLongToShow := by
  intro r
  have hne : ¬ ((10 ^ Numeral.digitLimit : Nat) : Int) = 1 := by
    have : 1 < 10 ^ Numeral.digitLimit := Nat.one_lt_pow (by decide) (by decide)
    omega
  have hlong : Numeral.showable (10 ^ Numeral.digitLimit : Nat) = false := by
    apply decide_eq_false
    rw [Int.natAbs_natCast, Nat.length_toDigits_le_iff (by decide) (by decide)]
    exact lt_irrefl _
  refine ⟨legible_oneAs, .wrongConstant (10 ^ Numeral.digitLimit : Nat), ?_, ?_, ?_⟩
  · rw [recompute_oneAs, if_neg hne]
  · rw [AuditError.Worded, hlong]
    exact Bool.false_ne_true
  · rw [Inconsistency.message, Inconsistency.wording, List.all_cons, hlong]
    rfl

end Dicebox
