import Dicebox.Expr.Read
import Dicebox.Expr.Roll

/-! # Auditing a recorded roll

A recorded roll can be checked without throwing a die: its notation is read again, its leaves are
held against the recorded terms one by one, every dice term is scored again from its recorded dice,
and the total follows from the subtotals. Only the nesting limit and very large limits on numbers
apply to the notation, which may be longer than the text it came from.

- `AuditError`: what may be wrong.
- `Expr.refold`: the value of a tree from recorded terms.
- `audit`: the total that a notation and its recorded terms give.
-/

namespace Dicebox

/-- Why a recorded roll does not bear out its total. -/
inductive AuditError where
  /-- The notation cannot be read. -/
  | unreadable (error : NotationError)
  | wrongConstant (value : Int)
  /-- The subtotal or the scoring of a term, shown by its notation, does not follow from its dice. -/
  | wrongSubtotal (canonical : String)
  /-- A leaf has no term of its kind. -/
  | mismatch
  | zeroDivisor
  | surplusTerms
  deriving DecidableEq, Repr

namespace AuditError

/-- What is wrong, without its place in the notation. -/
def message : AuditError → String
  | unreadable e => e.message
  | wrongConstant v => "Constant " ++ Numeral.text v ++ " does not match its notation"
  | wrongSubtotal canonical => "Subtotal of '" ++ canonical ++ "' does not match its dice"
  | mismatch => "Roll breakdown does not match its notation"
  | zeroDivisor => "Roll breakdown divides by zero"
  | surplusTerms => "Roll breakdown has more terms than its notation"

/-- The offset in the notation that the error is about. -/
def position? : AuditError → Option Int
  | unreadable e => e.position?
  | _ => none

end AuditError

/-- The limits that a recorded notation is read under. It may have any number of tokens, and has no
more than characters and an end mark. -/
def auditLimits (canonical : String) : Limits :=
  let most : Int := 9223372036854775807
  { maxDice := most, maxSides := most, maxTokens := canonical.length + 1 }

/-- The value of a tree from the terms recorded for its leaves, and the terms that are left. -/
def Expr.refold : Expr → List TermResult → Except AuditError (Int × List TermResult)
  | constant v _, .constant w :: rest =>
    if w = v then .ok (w, rest) else .error (.wrongConstant w)
  | dice t _, .dice r :: rest =>
    if score r.dice t.modifiers = (r.subtotal, r.scoring) then .ok (r.subtotal, rest)
    else .error (.wrongSubtotal r.canonical)
  | constant _ _, _ | dice _ _, _ => .error .mismatch
  | negate e _, terms => do
    let (v, rest) ← e.refold terms
    return (-v, rest)
  | binary op l r _, terms => do
    let (a, rest) ← l.refold terms
    let (b, rest) ← r.refold rest
    match op.value? a b with
    | some v => return (v, rest)
    | none => throw .zeroDivisor

/-- The total that a notation and the terms recorded for it give. -/
def audit (canonical : String) (terms : List TermResult) : Except AuditError Int :=
  match Expr.parse (auditLimits canonical) canonical with
  | .error e => .error (.unreadable e)
  | .ok e => do
    let (total, rest) ← e.refold terms
    if rest.isEmpty then return total else throw .surplusTerms

def Roll.recompute (r : Roll) : Except AuditError Int := audit r.canonical r.terms

end Dicebox
