/-! # Numerals

    What digits stand for, in bases up to sixteen. -/

namespace Sigil.Text

/-- The value of a digit in bases up to sixteen. -/
def digitValue? (c : Char) : Option Nat :=
  if '0' ≤ c ∧ c ≤ '9' then some (c.toNat - '0'.toNat)
  else if 'a' ≤ c ∧ c ≤ 'f' then some (c.toNat - 'a'.toNat + 10)
  else if 'A' ≤ c ∧ c ≤ 'F' then some (c.toNat - 'A'.toNat + 10)
  else none

/-- The number that digits stand for, when all are digits of the base. -/
def numeral? (base : Nat) (cs : List Char) : Option Nat :=
  cs.foldl (fun value? c => do
    let value ← value?
    let digit ← digitValue? c
    guard (digit < base)
    pure (value * base + digit)) (some 0)

end Sigil.Text
