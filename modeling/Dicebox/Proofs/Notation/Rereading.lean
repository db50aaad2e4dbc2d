import Dicebox.Proofs.Notation.RoundTrip
import Dicebox.Proofs.Notation.Trees

/-! # Reading a written form under other limits

The written form of what was read is read again under any limits that are no tighter than those it
was read under, if they allow so many tokens. Dice that no limit was checked against need room of
their own: the one die of a term without a count, and the two twenty-sided ones of a shorthand.

- `exists_fits_of_parse`: what was read is written like something that the other limits fit.
- `canonical_reread`: its written form is read again, as an expression that is written alike.
-/

namespace Dicebox

variable {limits limits' : Limits} {text : String} {e : Expr}

/-- What was read is written like an expression that limits fit if they are no tighter. -/
theorem exists_fits_of_parse (hdice : limits.maxDice ≤ limits'.maxDice)
    (hsides : limits.maxSides ≤ limits'.maxSides) (hone : 1 ≤ limits'.maxDice)
    (hroom : ∀ tokens, Token.scan text = .ok tokens → limits'.HaveRoom tokens)
    (h : Expr.parse limits text = .ok e) :
    ∃ again : Expr, again.bare = e.bare ∧ again.Fits limits' ∧ again.nesting < nestingLimit := by
  obtain ⟨_, d, hscan, ⟨stop, rfl⟩, hd, hscanned, rfl⟩ := parse_sound h
  have htokens : limits'.HaveRoom d.tokens := (List.forall_mem_append.mp (hroom _ hscan)).1
  -- the same sentence under the other limits, which changes its caps only
  exact ⟨d.tree limits', d.bare_tree, Phrase.fits_tree hd hscanned hdice hsides hone htokens,
    Nat.lt_of_le_of_lt d.nesting_tree hd.nesting⟩

/-- **The written form of what was read is read again** where its tokens are not too many, as an
expression that is written alike. -/
theorem canonical_reread (hdice : limits.maxDice ≤ limits'.maxDice)
    (hsides : limits.maxSides ≤ limits'.maxSides) (hone : 1 ≤ limits'.maxDice)
    (hroom : ∀ tokens, Token.scan text = .ok tokens → limits'.HaveRoom tokens)
    (h : Expr.parse limits text = .ok e) :
    ∃ tokens, Token.scan e.canonical = .ok tokens ∧ tokens.length ≤ e.canonical.length + 1 ∧
      (tokens.length ≤ limits'.maxTokens →
        ∃ e', Expr.parse limits' e.canonical = .ok e' ∧ e'.bare = e.bare) := by
  obtain ⟨again, hbare, hfits, hnesting⟩ := exists_fits_of_parse hdice hsides hone hroom h
  obtain ⟨tokens, hscan, hlen, hread⟩ := canonical_read hfits hnesting
  rw [← Expr.canonical_eq_of_bare hbare]
  refine ⟨tokens, hscan, ?_, fun hmax => ?_⟩
  · rwa [Expr.canonical, String.length_ofList]
  · obtain ⟨e', he', hsame⟩ := hread hmax
    refine ⟨e', he', ?_⟩
    rw [← Expr.bare_unplaced, hsame, Expr.bare_unplaced, hbare]

end Dicebox
