import Manycore.Number.Binary64
import Manycore.Text.Scan

/-! # Decimal text of binary64 numbers

Writing picks the fewest digits that read back to the same number and, among those, the nearest to
it; an exact tie goes to the larger. Reading rounds the exact decimal value once.
-/

namespace Manycore

/-- The decimal number `digits * 10 ^ exponent`. -/
structure Decimal where
  digits : Nat
  exponent : Int
  deriving DecidableEq, Repr

namespace Decimal

/-- Move the trailing zeros of the digits into the exponent. -/
def stripZeros (fuel : Nat) (d : Decimal) : Decimal :=
  match fuel with
  | 0 => d
  | fuel + 1 =>
    if d.digits ≠ 0 ∧ d.digits % 10 = 0 then stripZeros fuel ⟨d.digits / 10, d.exponent + 1⟩
    else d

/-- The real numbers that round to one binary64 number, as quarters of its last place: from `low`
to `high`, ends included or not, each counting `scale` quarter units. -/
structure Interval where
  low : Nat
  high : Nat
  closed : Bool
  scale : Nat

/-- The interval of a finite positive number. Below a power of two the gap is half as wide. -/
def intervalOf (x : Binary64) : Interval :=
  let significand := if x.exponentField = 0 then x.fraction else twoTo 52 + x.fraction
  let narrow := x.fraction = 0 && decide (1 < x.exponentField)
  { low := if narrow then 4 * significand - 1 else 4 * significand - 2
    high := 4 * significand + 2
    closed := significand % 2 = 0
    scale := twoTo (x.exponentField - 1) }

/-- Compare `d` with a count of quarter units, exactly. -/
def compareQuarters (d : Decimal) (quarters : Nat) : Ordering :=
  compare (d.digits * tenTo d.exponent.toNat * (4 * Binary64.unitsPerOne))
    (quarters * tenTo (-d.exponent).toNat)

/-- Whether `d` lies among the real numbers that round to the number. -/
def Interval.holds (i : Interval) (d : Decimal) : Bool :=
  let atLow := d.compareQuarters (i.low * i.scale)
  let atHigh := d.compareQuarters (i.high * i.scale)
  (atLow == .gt || (i.closed && atLow == .eq)) && (atHigh == .lt || (i.closed && atHigh == .eq))

/-- The least power of ten above the value, for a positive number: the place of its first digit,
plus one. -/
def scaleOf (x : Binary64) : Int :=
  let whole := x.units / Binary64.unitsPerOne
  if whole ≠ 0 then (Nat.toDigits 10 whole).length
  else
    match (List.range 330).find? fun n => decide (Binary64.unitsPerOne ≤ x.units * tenTo (n + 1)) with
    | some n => -(n : Int)
    | none => 0

/-- The two neighbours of the value on the grid of `10 ^ exponent`, and how twice the value
compares with their sum. -/
def neighbours (x : Binary64) (exponent : Int) : Decimal × Decimal × Ordering :=
  let num := x.units * tenTo (-exponent).toNat
  let den := Binary64.unitsPerOne * tenTo exponent.toNat
  let below := num / den
  (⟨below, exponent⟩, ⟨below + 1, exponent⟩, compare (2 * num) ((2 * below + 1) * den))

/-- The neighbour on a grid that reads back; of two the nearer, and on a tie the larger. -/
def onGrid (x : Binary64) (i : Interval) (exponent : Int) : Option Decimal :=
  let (below, above, side) := neighbours x exponent
  match i.holds below, i.holds above with
  | true, true => some (if side == .lt then below else above)
  | true, false => some below
  | false, true => some above
  | false, false => none

/-- The fewest digits that read back to a finite positive number. -/
def shortest (x : Binary64) : Decimal :=
  let interval := intervalOf x
  let scale := scaleOf x
  match (List.range 17).findSome? fun (n : Nat) => onGrid x interval (scale - (n + 1)) with
  | some d => d.stripZeros 20
  | none => ⟨x.units * Nat.pow 5 1074, -1074⟩

/-- The digits with the point in its place and no exponent. -/
def positional (d : Decimal) : String :=
  let digits := Nat.toDigits 10 d.digits
  if 0 ≤ d.exponent then String.ofList (digits ++ List.replicate d.exponent.toNat '0')
  else
    let places := (-d.exponent).toNat
    let whole := digits.length - places
    if places < digits.length then
      String.ofList (digits.take whole ++ '.' :: digits.drop whole)
    else
      String.ofList ('0' :: '.' :: (List.replicate (places - digits.length) '0' ++ digits))

/-- The first digit before the point, the rest after it, and the power of ten after `e`. -/
def scientific (d : Decimal) : String :=
  let digits := Nat.toDigits 10 d.digits
  let power := d.exponent + (digits.length - 1 : Nat)
  let fraction := if digits.length ≤ 1 then [] else '.' :: digits.drop 1
  String.ofList (digits.take 1 ++ fraction ++ 'e' :: (toString power).toList)

/-- The number nearest to the decimal. Exponents far beyond the range are settled by the count of
digits alone. -/
def toBinary64 (negative : Bool) (d : Decimal) : Binary64 :=
  let places : Int := (Nat.toDigits 10 d.digits).length
  if d.digits = 0 then .zero negative
  else if d.exponent + places < -400 then .zero negative
  else if 400 < d.exponent + places then .infinity negative
  else .ofRatio negative (d.digits * tenTo d.exponent.toNat) (tenTo (-d.exponent).toNat)

end Decimal

namespace Binary64

/-- The number without an exponent, however long: `0.5`, `3`, `-0`, `NaN`, `inf`. -/
def plainText (x : Binary64) : String :=
  if x.isNaN then "NaN"
  else
    let sign := if x.isNegative then "-" else ""
    let body :=
      if x.isInfinite then "inf"
      else if x.units = 0 then "0"
      else (Decimal.shortest x).positional
    sign ++ body

/-- The number with at least one place, and with an exponent below `10 ^ -4` and from `10 ^ 16`:
`0.5`, `3.0`, `1e16`. -/
def marked (x : Binary64) : String :=
  if x.isNaN then "NaN"
  else
    let sign := if x.isNegative then "-" else ""
    let body :=
      if x.isInfinite then "inf"
      else if x.units = 0 then "0.0"
      else
        let d := Decimal.shortest x
        let power := d.exponent + ((Nat.toDigits 10 d.digits).length - 1 : Nat)
        if power < -4 || 15 < power then d.scientific
        else if 0 ≤ d.exponent then d.positional ++ ".0"
        else d.positional
    sign ++ body

/-- Split a sign off. -/
def takeSign : List Char → Bool × List Char
  | '-' :: rest => (true, rest)
  | '+' :: rest => (false, rest)
  | text => (false, text)

/-- The power of ten after an exponent mark; no mark is the power zero. -/
def readPower : List Char → Option Int
  | [] => some 0
  | mark :: rest =>
    let (negative, digits) := takeSign rest
    if (mark = 'e' || mark = 'E') && digits ≠ [] && digits.all Char.isDigit then
      let power : Int := Text.digitsValue 10 digits
      some (if negative then -power else power)
    else none

/-- A decimal without its sign: digits, perhaps a point and digits, perhaps a power of ten. Digits
are needed on one side of the point only. -/
def readMagnitude (text : List Char) : Option Decimal :=
  let whole := text.takeWhile Char.isDigit
  let afterWhole := text.dropWhile Char.isDigit
  let (places, rest) :=
    match afterWhole with
    | '.' :: tail => (tail.takeWhile Char.isDigit, tail.dropWhile Char.isDigit)
    | _ => ([], afterWhole)
  if whole = [] && places = [] then none
  else (readPower rest).map fun power => ⟨Text.digitsValue 10 (whole ++ places), power - places.length⟩

/-- Read a number: an optional sign, then a decimal or one of the words `inf`, `infinity` and `nan`
in either case. -/
def read? (text : String) : Option Binary64 :=
  let (negative, body) := takeSign text.toList
  let word := body.map Char.toLower
  if word = ['i', 'n', 'f'] || word = ['i', 'n', 'f', 'i', 'n', 'i', 't', 'y'] then
    some (infinity negative)
  else if word = ['n', 'a', 'n'] then
    some (ofMagnitude negative nan.magnitudeBits)
  else (readMagnitude body).map (Decimal.toBinary64 negative)

end Binary64

end Manycore
