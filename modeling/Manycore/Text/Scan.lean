/-! # Scanning text

Parts taken from the front of a text, and the values of digits.
-/

namespace Manycore.Text

/-- Takes a part from the front of a text, and leaves the rest. -/
abbrev Scan (α : Type) := List Char → Option (α × List Char)

/-- The value of a digit in base sixteen or below. -/
def digitValue? (c : Char) : Option Nat :=
  if '0' ≤ c ∧ c ≤ '9' then some (c.toNat - 48)
  else if 'a' ≤ c ∧ c ≤ 'f' then some (c.toNat - 87)
  else if 'A' ≤ c ∧ c ≤ 'F' then some (c.toNat - 55)
  else none

/-- Whether a character is a digit of a base up to sixteen. -/
def isDigitOf (base : Nat) (c : Char) : Bool :=
  match digitValue? c with
  | some value => decide (value < base)
  | none => false

/-- The value of a run of digits. -/
def digitsValue (base : Nat) (digits : List Char) : Nat :=
  digits.foldl (fun n c => base * n + (digitValue? c).getD 0) 0

/-- A natural number written in digits of a base only, perhaps after a plus sign. -/
def readNatural? (base : Nat) (text : List Char) : Option Nat :=
  let digits := match text with
    | '+' :: rest => rest
    | _ => text
  if digits ≠ [] ∧ digits.all (isDigitOf base) then some (digitsValue base digits) else none

end Manycore.Text
