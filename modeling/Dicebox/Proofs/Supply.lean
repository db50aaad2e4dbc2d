import Dicebox.Proofs.Divisors
import Dicebox.Proofs.Words

/-! # Only a zero divisor stops a roll

A sampler refuses a range that holds nothing or more numbers than there are words. What is read has
dice with at least one side, so with sides that a word can count no draw of it is refused, and the
number that comes of an accepted word is a face of the die. As long as the words of a sampler supply
the draws of a roll, then, the source is to blame for nothing, and the roll stops only where a
divisor comes to zero.

- `Rolling.Supplied`: a roll that finds an accepted word for each of its draws.
- `Rolling.Supplied.ofItself`: its runs.
- `only_a_zero_divisor_stops_a_roll`: an expression that was read.
-/

namespace Dicebox

namespace Rolling

variable {α : Type}

/-- A sampler has an accepted word for each draw of a roll that it can make at all. -/
def Supplied : Rolling α → Source → Prop
  | done _, _ | fail _, _ => True
  | draw sides next, source => Samplable sides →
      ∃ x source', source.Accepts (wordLimit sides.toNat) x source' ∧
        (next (wordValue 1 sides.toNat x)).Supplied source'
  | note _ rest, source => rest.Supplied source

/-- **A sampler that supplies a roll is to blame for nothing.** -/
theorem Supplied.ofItself {P : α → Prop} {r : Rolling α} {source : Source}
    (h : r.Supplied source) (hr : r.Confined Samplable (fun err => ¬ err.OfSource) P) :
    (r.run source).OfItself := by
  induction r generalizing source with
  | done a => exact Run.ofItself_of_ok rfl
  | fail e =>
    intro err herr
    obtain rfl := Except.error.inj herr
    exact hr
  | draw sides next ih =>
    obtain ⟨hsides, hnext⟩ := hr
    obtain ⟨x, source', hword, hrest⟩ := h hsides
    obtain ⟨hask, hface⟩ := hword.next_die hsides
    rw [run_of_next hask hface]
    exact ih _ hrest (hnext _)
  | note event rest ih => exact ih h hr.2

end Rolling

open Rolling

/-! ## Expressions -/

theorem Leaf.exists_readAs {limits : Limits} {ls : List Leaf} {parts : List (Int ⊕ Dice)}
    (h : List.Forall₂ (Leaf.ReadAs limits) ls parts) :
    ∀ part ∈ parts, ∃ leaf, Leaf.ReadAs limits leaf part := by
  intro part hpart
  induction h with
  | nil => cases hpart
  | cons hleaf _ ih =>
    rcases List.mem_cons.mp hpart with rfl | hpart
    · exact ⟨_, hleaf⟩
    · exact ih hpart

theorem exists_readAs_of_parse {limits : Limits} {text : String} {e : Expr}
    (hread : Expr.parse limits text = .ok e) :
    ∀ part ∈ e.leaves, ∃ leaf, Leaf.ReadAs limits leaf part := by
  obtain ⟨tokens, d, -, -, hd, -, rfl⟩ := parse_sound hread
  exact Leaf.exists_readAs (d.leaves_meaning hd.within)

/-- A die has at least one side, and more than the limit only if it is one of a shorthand. -/
theorem sides_of_parse {limits : Limits} {text : String} {e : Expr}
    (hread : Expr.parse limits text = .ok e) :
    ∀ t, .inr t ∈ e.leaves → 1 ≤ t.sides ∧ (t.sides ≤ limits.maxSides ∨ t.sides = 20) := by
  intro t ht
  obtain ⟨leaf, hleaf⟩ := exists_readAs_of_parse hread _ ht
  cases hleaf with
  | shorthand => exact ⟨(by decide : (1 : Int) ≤ 20), .inr rfl⟩
  | dice _ _ hsides _ => exact ⟨hsides.1, .inl hsides.2⟩

/-- **Only a zero divisor stops a roll** that a sampler has words for: it fails exactly where the
expression, worked out from left to right, comes to a divisor that is zero, and has a result
everywhere else. -/
theorem only_a_zero_divisor_stops_a_roll {limits : Limits} {text : String} {e : Expr}
    (hread : Expr.parse limits text = .ok e)
    (hsides : ∀ t : Dice, .inr t ∈ e.leaves → t.sides ≤ wordRange) {shown : Option String}
    {source : Source} (hsupplied : (e.roll shown).Supplied source) :
    let outcome := ((e.roll shown).run source).outcome
    (∀ err, outcome = .error err → ¬ err.OfSource) ∧
      ((∃ span divisor, outcome = .error (.divisionByZero span divisor)) ↔
        ∃ divisor source', e.StopsAt 0 source divisor source') ∧
      ((¬ ∃ divisor source', e.StopsAt 0 source divisor source') →
        ∃ r, outcome = .ok r ∧ ∃ source', e.ComesTo 0 source r.terms r.total source') := by
  have hconfined := e.roll_confined (D := Samplable)
    (fun t ht => ⟨(sides_of_parse hread t ht).1, hsides t ht⟩) shown
  have hown := hsupplied.ofItself hconfined
  refine ⟨hown, ⟨?_, ?_⟩, fun hnever => ?_⟩
  · rintro ⟨span, divisor, hzero⟩
    rcases Expr.comes_or_stops hown with ⟨terms, v, source', hcomes⟩ | hstops
    · obtain ⟨es, hrun⟩ := hcomes.run_roll shown
      rw [hrun] at hzero
      cases hzero
    · exact hstops
  · rintro ⟨divisor, source', hstops⟩
    obtain ⟨es, hrun⟩ := hstops.run_roll shown
    rw [hrun]
    exact ⟨_, _, rfl⟩
  · rcases Expr.comes_or_stops hown with ⟨terms, v, source', hcomes⟩ | hstops
    · obtain ⟨es, hrun⟩ := hcomes.run_roll shown
      rw [hrun]
      exact ⟨_, rfl, source', hcomes⟩
    · exact absurd hstops hnever

def eightShared : Expr :=
  .binary .div (.constant 8 ⟨0, 1⟩)
    (.binary .sub (.dice ⟨1, 6, []⟩ ⟨3, 5⟩) (.constant 1 ⟨6, 7⟩) ⟨2, 8⟩) ⟨0, 8⟩

theorem scan_eightShared : Token.scan "8/(d6-1)" = .ok
    [⟨.integer, ['8'], 0⟩, ⟨.operator .div, ['/'], 1⟩, ⟨.opening, ['('], 2⟩, ⟨.die, ['d'], 3⟩,
      ⟨.integer, ['6'], 4⟩, ⟨.operator .sub, ['-'], 5⟩, ⟨.integer, ['1'], 6⟩, ⟨.closing, [')'], 7⟩,
      Token.ending 8] := by
  decide +kernel

theorem parse_eightShared : Expr.parse {} "8/(d6-1)" = .ok eightShared := by
  rw [Expr.parse, scan_eightShared]
  rfl

/-- The highest word is rejected, and the next one shows a 5; the word 0 shows a 1. -/
theorem eight_shared_stops_at_a_one :
    (∃ r, ((eightShared.roll none).run (Source.listed ⟨[4294967295, 4], 0⟩)).outcome = .ok r ∧
      r.total = 2) ∧
      ∃ divisor source', eightShared.StopsAt 0 (Source.listed ⟨[0], 0⟩) divisor source' := by
  have hsides : ∀ t : Dice, .inr t ∈ eightShared.leaves → t.sides ≤ wordRange := by
    intro t ht
    obtain rfl : t = ⟨1, 6, []⟩ := by simpa [eightShared, Expr.leaves] using ht
    decide
  have hfive : (eightShared.roll none).Supplied (.listed ⟨[4294967295, 4], 0⟩) :=
    fun _ => ⟨4, _, .listed (.behind rfl (by decide) (.here rfl (by decide))), trivial⟩
  have hone : (eightShared.roll none).Supplied (.listed ⟨[0], 0⟩) :=
    fun _ => ⟨0, _, .listed (.here rfl (by decide)), trivial⟩
  obtain ⟨-, hzero, -⟩ := only_a_zero_divisor_stops_a_roll parse_eightShared hsides hone
  obtain ⟨-, hzero', hresult⟩ := only_a_zero_divisor_stops_a_roll parse_eightShared hsides hfive
  refine ⟨?_, hzero.mp ⟨_, _, rfl⟩⟩
  obtain ⟨r, hr, -⟩ := hresult fun hstops => by
    obtain ⟨span, divisor, herr⟩ := hzero'.mpr hstops
    cases herr
  refine ⟨r, hr, ?_⟩
  obtain rfl := Except.ok.inj hr
  rfl

end Dicebox
