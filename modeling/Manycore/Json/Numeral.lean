import Manycore.Number.Decimal

/-! # Numbers of JSON

A number is kept as it is written, since whole numbers, floats and their signs are told apart by
their text.
-/

namespace Manycore.Json

/-- A number as it is written. -/
structure Numeral where
  negative : Bool
  /-- The digits before the point. -/
  whole : List Char
  /-- The digits after the point, if there is one. -/
  places : Option (List Char)
  /-- The power of ten, if there is one. -/
  power : Option Int

namespace Numeral

def ofNat (n : Nat) : Numeral := ⟨false, Nat.toDigits 10 n, none, none⟩

/-- The magnitude of a number that is written in digits only. -/
def magnitude? (n : Numeral) : Option Nat :=
  if n.places.isNone ∧ n.power.isNone then some (Text.digitsValue 10 n.whole) else none

/-- The natural number that is written in digits only and without a sign. -/
def natural? (n : Numeral) : Option Nat := if n.negative then none else n.magnitude?

/-- The whole number that is written in digits only. A negative zero is none. -/
def integer? (n : Numeral) : Option Int :=
  match n.negative, n.magnitude? with
  | false, some m => some m
  | true, some (m + 1) => some (-((m : Int) + 1))
  | _, _ => none

/-- The binary64 number nearest to the written one. -/
def toBinary64 (n : Numeral) : Binary64 :=
  let places := n.places.getD []
  Decimal.toBinary64 n.negative
    ⟨Text.digitsValue 10 (n.whole ++ places), n.power.getD 0 - places.length⟩

def text (n : Numeral) : String :=
  (if n.negative then "-" else "") ++ String.ofList n.whole
    ++ (n.places.map fun digits => "." ++ String.ofList digits).getD ""
    ++ (n.power.map fun power => s!"e{power}").getD ""

end Numeral

end Manycore.Json
