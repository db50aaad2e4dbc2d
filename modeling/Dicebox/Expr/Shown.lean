import Dicebox.Expr
import Dicebox.Text.Numeral
import Dicebox.Text.Quoted

/-! # Trees in full

A tree is shown in full by the names of its parts and what they hold, without its places in a text.

- `Modifier.shown`, `Expr.shown`: a modifier and a tree in full.
-/

namespace Dicebox

/-- A part of a tree with what it holds, in order. -/
def shownPart (name : String) (holds : List (String × String)) : String :=
  name ++ "(" ++ ", ".intercalate (holds.map fun (field, value) => field ++ "=" ++ value) ++ ")"

/-- So many things in a row. A single one has a comma behind it. -/
def shownRow : List String → String
  | [x] => "(" ++ x ++ ",)"
  | xs => "(" ++ ", ".intercalate xs ++ ")"

def Selection.shownName : Selection → String
  | keepHighest => "KeepHighest"
  | keepLowest => "KeepLowest"
  | dropHighest => "DropHighest"
  | dropLowest => "DropLowest"

def Modifier.shown : Modifier → String
  | select rule count => shownPart rule.shownName [("count", Numeral.text count)]
  | explode threshold cap =>
    shownPart "Explode" [("threshold", Numeral.text threshold), ("cap", Numeral.text cap)]
  | reroll values once cap =>
    shownPart "Reroll" [("values", shownRow (values.map Numeral.text)),
      ("once", if once then "True" else "False"), ("cap", Numeral.text cap)]
  | success threshold => shownPart "SuccessCount" [("threshold", Numeral.text threshold)]
  | failure threshold => shownPart "FailureCount" [("threshold", Numeral.text threshold)]

def Expr.shown : Expr → String
  | constant v _ => shownPart "Constant" [("value", Numeral.text v)]
  | dice t _ =>
    shownPart "DiceTerm" [("count", Numeral.text t.count), ("sides", Numeral.text t.sides),
      ("modifiers", shownRow (t.modifiers.map Modifier.shown))]
  | negate e _ => shownPart "UnaryNegate" [("operand", e.shown)]
  | binary op l r _ =>
    shownPart "BinaryOp" [("op", Text.quote (String.singleton op.sign)), ("left", l.shown),
      ("right", r.shown)]

end Dicebox
