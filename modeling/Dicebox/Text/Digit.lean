/-! # Decimal digits

A numeral may be written with the digits of any script. The digits of a script are ten characters in
a row, from its zero upwards; the class is the general category Nd of Unicode 14.

- `zeros`: the zero of each script.
- `plainDigit`: a digit of any script as the digit `0` to `9`, and any other character as itself.
-/

namespace Dicebox.Text

/-- The code points of the zeros other than `0`, in ascending order. -/
def zeros : List Nat := [
  0x0660, 0x06F0, 0x07C0, 0x0966, 0x09E6, 0x0A66, 0x0AE6, 0x0B66, 0x0BE6, 0x0C66, 0x0CE6, 0x0D66,
  0x0DE6, 0x0E50, 0x0ED0, 0x0F20, 0x1040, 0x1090, 0x17E0, 0x1810, 0x1946, 0x19D0, 0x1A80, 0x1A90,
  0x1B50, 0x1BB0, 0x1C40, 0x1C50, 0xA620, 0xA8D0, 0xA900, 0xA9D0, 0xA9F0, 0xAA50, 0xABF0, 0xFF10,
  0x104A0, 0x10D30, 0x11066, 0x110F0, 0x11136, 0x111D0, 0x112F0, 0x11450, 0x114D0, 0x11650,
  0x116C0, 0x11730, 0x118E0, 0x11950, 0x11C50, 0x11D50, 0x11DA0, 0x16A60, 0x16AC0, 0x16B50,
  0x1D7CE, 0x1D7D8, 0x1D7E2, 0x1D7EC, 0x1D7F6, 0x1E140, 0x1E2F0, 0x1E950, 0x1FBF0]

/-- A digit of any script as `0` to `9`, and any other character as itself. -/
def plainDigit (c : Char) : Char :=
  if c.toNat < 0x80 then c
  else
    match zeros.find? fun z => z ≤ c.toNat ∧ c.toNat < z + 10 with
    | some z => Char.ofNat (48 + (c.toNat - z))
    | none => c

theorem plainDigit_of_lt {c : Char} (h : c.toNat < 0x80) : plainDigit c = c := by
  simp [plainDigit, h]

theorem plainDigit_of_isDigit {c : Char} (h : c.isDigit = true) : plainDigit c = c := by
  apply plainDigit_of_lt
  simp only [Char.isDigit, Bool.and_eq_true, decide_eq_true_eq, UInt32.le_iff_toNat_le] at h
  have hu : c.toNat ≤ 57 := h.2
  omega

end Dicebox.Text
