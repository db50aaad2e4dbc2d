import Dicebox.Expr.Write
import Dicebox.Term.Explode
import Dicebox.Term.Reroll
import Dicebox.Term.Score
import Dicebox.Term.Select

/-! # Rolling a dice term

All dice of a term are thrown first; then its modifiers act on them in the order they are written.
What a modifier counts as success or failure only matters for the score.

- `Dice.thrown`: the dice before any modifier.
- `Modifier.apply`: what one modifier does.
- `Dice.roll`: a whole term.
-/

namespace Dicebox

/-- Throws so many dice, behind those already thrown; the newest comes first. -/
def throwDice (sides term : Int) : Nat → List Die → Rolling (List Die)
  | 0, done => .done done
  | more + 1, done =>
    .draw sides fun face => throwDice sides term more ({ value := face, sides, term } :: done)

/-- The dice of a term before any modifier. -/
def Dice.thrown (t : Dice) (term : Int) : Rolling (List Die) :=
  (throwDice t.sides term t.count.toNat []).bind fun done => .done done.reverse

/-- What a modifier does to the dice on the table. -/
def Modifier.apply (m : Modifier) (dice : List Die) : Rolling (List Die) :=
  match m with
  | .reroll values once cap => rerollAll values once cap dice
  | .explode threshold cap => explodeAll threshold cap dice
  | .select rule count => .done (selectAll rule count dice)
  | .success _ | .failure _ => .done dice

/-- A dice term that is the leaf number `term` of its expression. -/
def Dice.roll (t : Dice) (term : Int) : Rolling DiceResult :=
  (t.thrown term).bind fun dice =>
    (Rolling.foldl (fun dice m => m.apply dice) dice t.modifiers).bind fun dice =>
      let (subtotal, scoring) := score dice t.modifiers
      .done ⟨t.canonical, t.count, t.sides, dice, subtotal, scoring⟩

end Dicebox
