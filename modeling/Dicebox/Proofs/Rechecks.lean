import Dicebox.Proofs.Batches
import Dicebox.Proofs.Checks
import Dicebox.Proofs.Notation.Limits
import Dicebox.Proofs.Notation.Rereading

/-! # Checking canonical notation

The notation that a check answers with is accepted by the same engine and answered with as it is, but
for one thing. It says what the text left out, a count of one or the dice of a shorthand, so it can
have more tokens than the text, and more than the engine allows. Then it is refused at the first
token that is left out.

- `canonical_is_checked_again`: what a check says of the notation that a check answered with.
- `sum_spelled`: sums of dice, with or without a count and with or without blanks.
- `long_sum_is_not_checked_again`: a sum that is read, and whose notation has too many tokens.
-/

namespace Dicebox

open Session

variable {σ : Type} {limits : Limits}

/-! ## Once more -/

/-- **Canonical notation is checked again** as what it is, unless it has too many tokens. -/
theorem canonical_is_checked_again {g : Engine σ} {text canonical : String}
    (hdice : 1 ≤ g.settings.maxDice)
    (hroom : ∀ tokens, Token.scan text = .ok tokens → g.settings.limits.HaveRoom tokens)
    (hcheck : (check text g).result = .ok ⟨text, .ok canonical⟩) :
    ∃ tokens, Token.scan canonical = .ok tokens ∧
      (tokens.length ≤ 1024 → (check canonical g).result = .ok ⟨canonical, .ok canonical⟩) ∧
      (1024 < tokens.length → ∃ t, tokens[1024]? = some t ∧
        (check canonical g).result =
          .ok ⟨canonical, .error (.fault (.tooManyTokens 1024) t.position)⟩) := by
  obtain ⟨e, hread⟩ := exists_read_of_check hcheck rfl
  rw [result_check_of_ok hread] at hcheck
  obtain rfl : e.canonical = canonical :=
    Except.ok.inj (congrArg Check.verdict (Except.ok.inj hcheck))
  have hmax : g.settings.limits.maxTokens = 1024 := rfl
  obtain ⟨tokens, hscan, -, hagain⟩ := canonical_reread (le_refl _) (le_refl _) hdice hroom hread
  refine ⟨tokens, hscan, fun hfew => ?_, fun hmany => ?_⟩
  · obtain ⟨e', hread', hbare⟩ := hagain (by omega)
    rw [result_check_of_ok hread', Expr.canonical_eq_of_bare hbare]
  · have hlong : g.settings.limits.maxTokens < tokens.length := by omega
    obtain ⟨t, ht, hrefused⟩ := parse_too_many hscan (by omega) hlong
    refine ⟨t, ht, ?_⟩
    exact result_check_of_error hrefused rfl

/-- `adv` is checked, and so is `2d20kh1`. -/
theorem advantage_is_checked_again :
    1 ≤ (desk "a" 2024).settings.maxDice ∧
      (∀ tokens, Token.scan "adv" = .ok tokens →
        (desk "a" 2024).settings.limits.HaveRoom tokens) ∧
      (check "adv" (desk "a" 2024)).result = .ok ⟨"adv", .ok "2d20kh1"⟩ ∧
      ∃ tokens, Token.scan "2d20kh1" = .ok tokens ∧
        (tokens.length ≤ 1024 →
          (check "2d20kh1" (desk "a" 2024)).result = .ok ⟨"2d20kh1", .ok "2d20kh1"⟩) ∧
        (1024 < tokens.length → ∃ t, tokens[1024]? = some t ∧
          (check "2d20kh1" (desk "a" 2024)).result =
            .ok ⟨"2d20kh1", .error (.fault (.tooManyTokens 1024) t.position)⟩) := by
  have hdice : 1 ≤ (desk "a" 2024).settings.maxDice := by decide
  have hroom : ∀ tokens, Token.scan "adv" = .ok tokens →
      (desk "a" 2024).settings.limits.HaveRoom tokens := by
    intro tokens _ t _ _
    exact ⟨by decide, by decide⟩
  have hread : Expr.parse (desk "a" 2024).settings.limits "adv" =
      .ok (.dice (shorthandDice .keepHighest) ⟨0, 3⟩) := by
    rw [Expr.parse, scan_advantage]
    rfl
  have hcheck : (check "adv" (desk "a" 2024)).result = .ok ⟨"adv", .ok "2d20kh1"⟩ := by
    rw [result_check_of_ok hread]
    rfl
  exact ⟨hdice, hroom, hcheck, canonical_is_checked_again hdice hroom hcheck⟩

/-! ## Sums of dice -/

/-- A sum of dice with so many behind the first one. -/
def dieSum : Nat → Expr
  | 0 => .dice ⟨1, 6, []⟩ ⟨0, 0⟩
  | n + 1 => .binary .add (dieSum n) (.dice ⟨1, 6, []⟩ ⟨0, 0⟩) ⟨0, 0⟩

/-- A text, and so many times a link and the text again behind it. -/
def linked (die link : List Char) : Nat → List Char
  | 0 => die
  | n + 1 => linked die link n ++ (link ++ die)

theorem write_dieSum (n : Nat) :
    (dieSum n).write = linked ['1', 'd', '6'] [' ', '+', ' '] n := by
  induction n with
  | zero => rfl
  | succ n ih =>
    have hleft : (dieSum n).writeAs Operator.add.precedence = (dieSum n).write :=
      if_neg (Nat.not_lt.mpr (Expr.one_le_precedence _))
    rw [dieSum, Expr.write_binary, hleft, ih]
    rfl

/-- A text is one six-sided die, with so many tokens. -/
def SpellsDie (limits : Limits) (cs : List Char) (k : Nat) : Prop :=
  ∀ p : Int, ∃ u : Throw, u.dice limits = ⟨1, 6, []⟩ ∧ u.Within limits ∧ AllLegible u.tokens ∧
    u.tokens.length = k ∧ ∀ {rest : List Char}, Leaves Char.isDigit rest → Scans p cs u.tokens rest

def SpellsPlus (cs : List Char) : Prop :=
  ∀ p : Int, ∃ q : Int, ∀ {rest : List Char}, Leaves Char.isDigit (cs ++ rest) ∧
    Scans p cs [⟨.operator .add, ['+'], q⟩] rest

theorem spellsPlus_bare : SpellsPlus ['+'] :=
  fun p => ⟨p, leaves_cons.mpr rfl, Scans.sign (by decide) (by decide) (by decide)⟩

theorem spellsPlus_spaced : SpellsPlus [' ', '+', ' '] := by
  intro p
  refine ⟨p + 1, fun {rest} => ⟨leaves_cons.mpr rfl, Scans.blank ?_⟩⟩
  have hplus : Scans (p + 1) ['+'] [⟨.operator .add, ['+'], p + 1⟩] ([' '] ++ rest) :=
    Scans.sign (by decide) (by decide) (by decide)
  exact hplus.append (Scans.blank Scans.nil)

theorem six_spelled (p : Int) :
    ∃ (d : Word .die) (s : Word .integer), s.1.value = 6 ∧ AllLegible [d.1, s.1] ∧
      ∀ {rest : List Char}, Leaves Char.isDigit rest → Scans p ['d', '6'] [d.1, s.1] rest :=
  keyword_spelled .die 'd' [] (by decide) (by decide) (by decide) p (by decide) (by decide)

theorem within_six (hdice : 1 ≤ limits.maxDice) (hsides : 6 ≤ limits.maxSides)
    (count : Option (Word .integer)) (hcount : ∀ n ∈ count, n.1.value = 1) (d : Word .die)
    {s : Word .integer} (hs : s.1.value = 6) :
    Throw.Within limits ⟨count, d, s, []⟩ ∧ Throw.dice limits ⟨count, d, s, []⟩ = ⟨1, 6, []⟩ := by
  refine ⟨⟨fun n hn => ?_, ?_, ?_, fun _ => Nat.zero_le 1⟩, ?_⟩
  · rw [hcount n hn]
    exact ⟨le_refl 1, hdice⟩
  · rw [hs]
    exact ⟨by decide, hsides⟩
  · exact fun m hm => nomatch hm
  · have hone : numberOr 1 count = 1 := by
      cases count with
      | none => rfl
      | some n => exact hcount n rfl
    rw [Throw.dice, Throw.number, hone, hs]
    rfl

theorem spellsDie_lone (hdice : 1 ≤ limits.maxDice) (hsides : 6 ≤ limits.maxSides) :
    SpellsDie limits ['d', '6'] 2 := by
  intro p
  obtain ⟨d, s, hs, hl, hscan⟩ := six_spelled p
  obtain ⟨hwithin, htree⟩ := within_six hdice hsides none (by simp) d hs
  exact ⟨_, htree, hwithin, hl, rfl, hscan⟩

theorem spellsDie_counted (hdice : 1 ≤ limits.maxDice) (hsides : 6 ≤ limits.maxSides) :
    SpellsDie limits ['1', 'd', '6'] 3 := by
  intro p
  obtain ⟨n, hn, hln, hone⟩ := Scans.number p (by decide : (0 : Int) ≤ 1)
  obtain ⟨d, s, hs, hl, hscan⟩ := six_spelled (p + ['1'].length)
  obtain ⟨hwithin, htree⟩ := within_six hdice hsides (some n) (by simp [hn]) d hs
  refine ⟨_, htree, hwithin, allLegible_cons.mpr ⟨hln (by decide), hl⟩, rfl, fun hrest => ?_⟩
  exact Scans.append (hone (leaves_cons.mpr rfl)) (hscan hrest)

/-- However the dice and the plus signs are written, the text is the sum. -/
theorem sum_spelled {die link : List Char} {k : Nat} (hdie : SpellsDie limits die k)
    (hlink : SpellsPlus link) (n : Nat) :
    ∃ d : Sentence, d.Accepted limits nestingLimit ∧ d.tokens.length + 1 = (n + 1) * (k + 1) ∧
      (d.tree limits).unplaced = dieSum n ∧
        ∀ {rest : List Char}, Leaves Char.isDigit rest →
          Scans 0 (linked die link n) d.tokens rest := by
  have hpos : 0 < nestingLimit := by decide
  have operand : ∀ {u : Throw}, u.Within limits → AllLegible u.tokens →
      (Phrase.chain (.dice u) .last : Phrase (.whole (.chain .product))).Accepted limits
        nestingLimit := by
    intro u hu hl
    exact Phrase.accepted_chain.mpr
      ⟨Phrase.accepted_dice.mpr ⟨hu, hpos, hl⟩, Phrase.accepted_last hpos⟩
  induction n with
  | zero =>
    obtain ⟨u, htree, hu, hl, hlen, hscan⟩ := hdie 0
    refine ⟨.chain (.chain (.dice u) .last) .last,
      Phrase.accepted_chain.mpr ⟨operand hu hl, Phrase.accepted_last hpos⟩, ?_, ?_, fun hrest => ?_⟩
    · simp [Phrase.tokens, hlen]
    · exact congrArg (Expr.dice · ⟨0, 0⟩) htree
    · simpa [Phrase.tokens, linked] using hscan hrest
  | succ n ih =>
    obtain ⟨d, hd, hlen, htree, hscan⟩ := ih
    obtain ⟨q, hplus⟩ := hlink (0 + (linked die link n).length)
    obtain ⟨u, hdice, hu, hl, hk, hlast⟩ := hdie (0 + (linked die link n).length + link.length)
    let sign : Sign .sum := ⟨.add, ⟨⟨.operator .add, ['+'], q⟩, rfl⟩, rfl⟩
    let next : Phrase (.whole Level.sum.operand) := .chain (.dice u) .last
    have htokens : next.tokens = u.tokens := by
      show u.tokens ++ [] = u.tokens
      exact List.append_nil _
    refine ⟨d.grown sign next, Phrase.accepted_grown hd (operand hu hl), ?_, ?_, fun hrest => ?_⟩
    · rw [Phrase.tokens_grown, htokens, List.length_append, List.length_cons, hk,
        Nat.add_one_mul (n + 1), ← hlen]
      omega
    · rw [Phrase.tree_grown, Expr.unplaced, htree]
      exact congrArg (Expr.binary .add (dieSum n) · ⟨0, 0⟩) (congrArg (Expr.dice · ⟨0, 0⟩) hdice)
    · rw [Phrase.tokens_grown, htokens]
      show Scans 0 (linked die link n ++ (link ++ die)) (d.tokens ++ ([sign.word.1] ++ u.tokens)) _
      refine Scans.append (hscan ?_) (Scans.append hplus.2 (hlast hrest))
      rw [List.append_assoc]
      exact hplus.1

theorem scan_sum {die link : List Char} {k : Nat} (hdie : SpellsDie limits die k)
    (hlink : SpellsPlus link) (n : Nat) :
    ∃ d : Sentence, ∃ stop, Token.scan (String.ofList (linked die link n)) =
        .ok (d.tokens ++ [Token.ending stop]) ∧ d.Accepted limits nestingLimit ∧
      d.tokens.length + 1 = (n + 1) * (k + 1) ∧ (d.tree limits).unplaced = dieSum n := by
  obtain ⟨d, hd, hlen, htree, hscan⟩ := sum_spelled hdie hlink n
  exact ⟨d, (linked die link n).length, (hscan (leaves_nil _)).whole, hd, hlen, htree⟩

/-- The notation of a sum of dice without a count has one more token for each of them. -/
theorem canonical_of_lone_dice (hdice : 1 ≤ limits.maxDice) (hsides : 6 ≤ limits.maxSides) {n : Nat}
    (hfew : (n + 1) * 3 ≤ limits.maxTokens) :
    ∃ e, Expr.parse limits (String.ofList (linked ['d', '6'] ['+'] n)) = .ok e ∧
      ∃ tokens, Token.scan e.canonical = .ok tokens ∧ tokens.length = (n + 1) * 4 := by
  obtain ⟨d, stop, hscan, hd, hlen, htree⟩ :=
    scan_sum (spellsDie_lone hdice hsides) spellsPlus_bare n
  obtain ⟨d', stop', hscan', -, hlen', -⟩ :=
    scan_sum (spellsDie_counted hdice hsides) spellsPlus_spaced n
  have hwrite : (d.tree limits).write = linked ['1', 'd', '6'] [' ', '+', ' '] n := by
    rw [← write_dieSum, ← htree, Expr.write_unplaced]
  refine ⟨d.tree limits, parse_eq_ok.mpr ⟨d, stop, hscan, by omega, hd, rfl⟩,
    d'.tokens ++ [Token.ending stop'], ?_, ?_⟩
  · rw [Expr.canonical, hwrite]
    exact hscan'
  · rw [List.length_append, List.length_singleton, hlen']

/-- 257 dice without a count are a sum that is read, and whose notation has too many tokens. -/
theorem long_sum_is_not_checked_again :
    ¬ ∀ (g : Engine Replay) (text canonical : String), 1 ≤ g.settings.maxDice →
      1 ≤ g.settings.maxSides → (check text g).result = .ok ⟨text, .ok canonical⟩ →
        (check canonical g).result = .ok ⟨canonical, .ok canonical⟩ := by
  intro h
  have hdice : 1 ≤ (desk "a" 2024).settings.limits.maxDice := by decide
  have hsides : 6 ≤ (desk "a" 2024).settings.limits.maxSides := by decide
  have hmax : (desk "a" 2024).settings.limits.maxTokens = 1024 := rfl
  obtain ⟨e, hread, tokens, hscan, hlen⟩ := canonical_of_lone_dice hdice hsides (n := 256) (by omega)
  have hlong : (desk "a" 2024).settings.limits.maxTokens < tokens.length := by omega
  obtain ⟨t, -, hrefused⟩ := parse_too_many hscan (by omega) hlong
  have hcheck := result_check_of_ok hread
  have hagain := h (desk "a" 2024) _ e.canonical hdice (by decide) hcheck
  rw [result_check_of_error hrefused rfl] at hagain
  cases Except.ok.inj hagain

end Dicebox
