import Dicebox.Die
import Dicebox.Rolling

/-! # Explosions

A kept die at or above the threshold sets off an extra die, which may set off another one, and so
on, until a die stays below the threshold or the cap is reached. The extra dice lie right behind the
one that set off the first of them, and set off nothing in a later explosion.

- `chain`: the dice of one chain.
- `explodeAll`: all dice with the chains that they set off.
-/

namespace Dicebox

namespace Explosion

def extra (d : Die) (face : Int) : Die :=
  { value := face, sides := d.sides, term := d.term, fromExplosion := true }

/-- Adds a die and the chain that it sets off to the dice before it, the newest first. -/
def chain (threshold cap : Int) : Nat → Die → List Die → Rolling (List Die)
  | left, d, done =>
    if d.value < threshold then .done (d :: done)
    else
      match left with
      | 0 =>
        .note (.explosionCapReached cap d.sides)
          (.done ({ d with exploded := true, explosionCapped := true } :: done))
      | left + 1 =>
        .draw d.sides fun face =>
          chain threshold cap left (extra d face) ({ d with exploded := true } :: done)

/-- Adds a die to the dice before it, with its chain if it may set one off. -/
def step (threshold cap : Int) (done : List Die) (d : Die) : Rolling (List Die) :=
  if d.kept ∧ !d.fromExplosion then chain threshold cap cap.toNat d done
  else .done (d :: done)

end Explosion

def explodeAll (threshold cap : Int) (dice : List Die) : Rolling (List Die) :=
  (Rolling.foldl (Explosion.step threshold cap) [] dice).bind fun done => .done done.reverse

end Dicebox
