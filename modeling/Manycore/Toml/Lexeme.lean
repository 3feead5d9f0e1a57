import Manycore.Number.Decimal
import Manycore.Toml.Value

/-! # The smallest parts of TOML

Blanks, comments, strings, numbers, dates and keys.
-/

namespace Manycore.Toml

open Text (Scan)

def isSpace (c : Char) : Bool := c = ' ' || c = '\t'

def skipSpace (cs : List Char) : List Char := cs.dropWhile isSpace

/-- Characters that may stand in comments and strings: no controls but the tab. -/
def isPlain (c : Char) : Bool := c = '\t' || (32 ≤ c.toNat && c.toNat ≠ 127)

/-- The rest after a line end. -/
def afterNewline? : List Char → Option (List Char)
  | '\n' :: rest => some rest
  | '\r' :: '\n' :: rest => some rest
  | _ => none

/-- Drop a comment, up to the end of its line. -/
def skipComment : List Char → List Char
  | '#' :: rest => rest.dropWhile isPlain
  | cs => cs

/-- Drop blanks and line ends. -/
def skipBlankLines : List Char → List Char
  | ' ' :: rest => skipBlankLines rest
  | '\t' :: rest => skipBlankLines rest
  | '\n' :: rest => skipBlankLines rest
  | '\r' :: '\n' :: rest => skipBlankLines rest
  | cs => cs

/-- Drop blanks, line ends and the comments before them, at most `fuel` lines. -/
def skipFiller : Nat → List Char → List Char
  | 0, cs => cs
  | fuel + 1, cs =>
    match afterNewline? (skipComment (skipSpace cs)) with
    | some rest => skipFiller fuel rest
    | none => skipSpace cs

/-- The character with a number that is written in so many digits of base sixteen. -/
def scanCode (count : Nat) : Scan Char := fun cs =>
  let digits := cs.take count
  let n := Text.digitsValue 16 digits
  if digits.length = count ∧ digits.all (Text.isDigitOf 16) ∧ n.isValidChar then
    some (Char.ofNat n, cs.drop count)
  else none

/-- What stands after a backslash. -/
def scanEscape : Scan Char
  | 'b' :: rest => some ('\x08', rest)
  | 't' :: rest => some ('\t', rest)
  | 'n' :: rest => some ('\n', rest)
  | 'f' :: rest => some ('\x0c', rest)
  | 'r' :: rest => some ('\r', rest)
  | '"' :: rest => some ('"', rest)
  | '\\' :: rest => some ('\\', rest)
  | 'u' :: rest => scanCode 4 rest
  | 'U' :: rest => scanCode 8 rest
  | _ => none

/-- The rest after a line end that a backslash takes out, with all blanks that follow. -/
def afterLineBreak? (cs : List Char) : Option (List Char) :=
  (afterNewline? (skipSpace cs)).map skipBlankLines

/-- The characters of a string up to its closing quotes. Double quotes know escapes, and three
quotes allow line ends and, unless there are three of them, quotes. -/
def scanQuoted (quote : Char) (long : Bool) : Nat → Scan (List Char)
  | 0, _ => none
  | fuel + 1, cs =>
    match cs with
    | [] => none
    | c :: rest =>
      if c = quote then
        if long then
          let run := (cs.takeWhile (· = quote)).length
          if run < 3 then
            (scanQuoted quote long fuel (cs.drop run)).map fun (text, rest) =>
              (List.replicate run quote ++ text, rest)
          else some (List.replicate (min run 5 - 3) quote, cs.drop (min run 5))
        else some ([], rest)
      else if c = '\\' ∧ quote = '"' then
        match if long then afterLineBreak? rest else none with
        | some rest => scanQuoted quote long fuel rest
        | none => do
          let (escaped, rest) ← scanEscape rest
          let (text, rest) ← scanQuoted quote long fuel rest
          some (escaped :: text, rest)
      else if isPlain c then
        (scanQuoted quote long fuel rest).map fun (text, rest) => (c :: text, rest)
      else if long then do
        let rest ← afterNewline? cs
        let (text, rest) ← scanQuoted quote long fuel rest
        some ('\n' :: text, rest)
      else none

/-- A string in single quotes of the given kind, on one line. -/
def scanShort (quote : Char) : Scan String
  | [] => none
  | c :: rest =>
    if c = quote then
      (scanQuoted quote false rest.length rest).map fun (text, rest) => (String.ofList text, rest)
    else none

/-- A string of any kind. A line end right after three quotes does not belong to it. -/
def scanString : Scan String
  | a :: b :: c :: rest =>
    if a = b ∧ b = c then
      let rest := (afterNewline? rest).getD rest
      (scanQuoted a true rest.length rest).map fun (text, rest) => (String.ofList text, rest)
    else scanShort a (a :: b :: c :: rest)
  | a :: rest => scanShort a (a :: rest)
  | [] => none

def isBareKeyChar (c : Char) : Bool := c.isAlphanum || c = '_' || c = '-'

/-- One part of a key. -/
def scanKeyPart : Scan String
  | '"' :: rest => scanShort '"' ('"' :: rest)
  | '\'' :: rest => scanShort '\'' ('\'' :: rest)
  | cs =>
    match cs.takeWhile isBareKeyChar with
    | [] => none
    | name => some (String.ofList name, cs.dropWhile isBareKeyChar)

/-- The parts of a dotted key, with blanks around them. -/
def scanKeyParts : Nat → Scan (List String)
  | 0, _ => none
  | fuel + 1, cs => do
    let (part, rest) ← scanKeyPart (skipSpace cs)
    match skipSpace rest with
    | '.' :: rest => do
      let (parts, rest) ← scanKeyParts fuel rest
      some (part :: parts, rest)
    | rest => some ([part], rest)

/-- How deep keys and values may be nested. -/
def maxDepth : Nat := 79

/-- A key: the tables that it names, and its last part. -/
def scanKey : Scan (List String × String) := fun cs => do
  let (parts, rest) ← scanKeyParts maxDepth cs
  let last ← parts.getLast?
  some ((parts.dropLast, last), rest)

/-- The digits at the front, between two of which an underscore may stand. -/
def takeDigits (base : Nat) : List Char → List Char × List Char
  | '_' :: c :: rest =>
    if Text.isDigitOf base c then
      let (digits, rest) := takeDigits base rest
      (c :: digits, rest)
    else ([], '_' :: c :: rest)
  | c :: rest =>
    if Text.isDigitOf base c then
      let (digits, rest) := takeDigits base rest
      (c :: digits, rest)
    else ([], c :: rest)
  | [] => ([], [])

/-- One or more digits; the first character is none of the underscores. -/
def scanDigits (base : Nat) : Scan (List Char)
  | [] => none
  | c :: rest =>
    if Text.isDigitOf base c then some (takeDigits base (c :: rest)) else none

/-- The digits of a whole number, which has no leading zeros. -/
def scanWhole : Scan (List Char)
  | '0' :: rest => some (['0'], rest)
  | cs => scanDigits 10 cs

/-- The digits after a point, if there is one. -/
def scanPlaces : Scan (Option (List Char))
  | '.' :: rest => (scanDigits 10 rest).map fun (digits, rest) => (some digits, rest)
  | cs => some (none, cs)

/-- A power of ten, if there is one. -/
def scanPower : Scan (Option Int)
  | [] => some (none, [])
  | c :: rest =>
    if c = 'e' ∨ c = 'E' then
      let (negative, rest) := Binary64.takeSign rest
      (scanDigits 10 rest).map fun (digits, rest) =>
        let power : Int := Text.digitsValue 10 digits
        (some (if negative then -power else power), rest)
    else some (none, c :: rest)

/-- A value within sixty-four bits. -/
def integer? (n : Int) : Option Value :=
  if -(twoTo 63 : Int) ≤ n ∧ n < twoTo 63 then some (.integer n) else none

/-- A float of decimal digits. One that is too large is refused, one that is too small is not. -/
def float? (negative : Bool) (whole places : List Char) (power : Int) : Option Value :=
  let x := Decimal.toBinary64 negative
    ⟨Text.digitsValue 10 (whole ++ places), power - places.length⟩
  if x.isInfinite ∧ ¬ negative then none else some (.float x)

/-- A number in digits of base ten after its sign. -/
def scanDecimal (negative : Bool) : Scan Value := fun cs => do
  let (whole, rest) ← scanWhole cs
  let (places, rest) ← scanPlaces rest
  let (power, rest) ← scanPower rest
  let value ←
    if places.isNone ∧ power.isNone then
      let n : Int := Text.digitsValue 10 whole
      integer? (if negative then -n else n)
    else float? negative whole (places.getD []) (power.getD 0)
  some (value, rest)

/-- An integer in a base that a letter announces. -/
def scanBased (base : Nat) : Scan Value := fun cs => do
  let (digits, rest) ← scanDigits base cs
  let value ← integer? (Text.digitsValue base digits)
  some (value, rest)

/-- A number. -/
def scanNumber : Scan Value
  | '0' :: 'x' :: rest => scanBased 16 rest
  | '0' :: 'o' :: rest => scanBased 8 rest
  | '0' :: 'b' :: rest => scanBased 2 rest
  | cs =>
    let (negative, rest) := Binary64.takeSign cs
    match rest with
    | 'i' :: 'n' :: 'f' :: rest => some (.float (.infinity negative), rest)
    | 'n' :: 'a' :: 'n' :: rest => some (.float .nan, rest)
    | rest => scanDecimal negative rest

/-- A number of exactly so many digits within a range. -/
def scanField (count low high : Nat) : Scan Nat := fun cs =>
  let digits := cs.take count
  let n := Text.digitsValue 10 digits
  if digits.length = count ∧ digits.all Char.isDigit ∧ low ≤ n ∧ n ≤ high then
    some (n, cs.drop count)
  else none

def scanMark (mark : Char) : Scan Unit
  | c :: rest => if c = mark then some ((), rest) else none
  | [] => none

/-- The days of a month. -/
def daysIn (year month : Nat) : Nat :=
  if month = 2 then
    if year % 4 = 0 ∧ (year % 100 ≠ 0 ∨ year % 400 = 0) then 29 else 28
  else if month = 4 ∨ month = 6 ∨ month = 9 ∨ month = 11 then 30
  else 31

def scanDate : Scan Unit := fun cs => do
  let (year, cs) ← scanField 4 0 9999 cs
  let (_, cs) ← scanMark '-' cs
  let (month, cs) ← scanField 2 1 12 cs
  let (_, cs) ← scanMark '-' cs
  let (_, cs) ← scanField 2 1 (daysIn year month) cs
  some ((), cs)

def scanClock : Scan Unit := fun cs => do
  let (_, cs) ← scanField 2 0 23 cs
  let (_, cs) ← scanMark ':' cs
  let (_, cs) ← scanField 2 0 59 cs
  let (_, cs) ← scanMark ':' cs
  let (_, cs) ← scanField 2 0 60 cs
  match cs with
  | '.' :: rest =>
    if (rest.takeWhile Char.isDigit).isEmpty then none else some ((), rest.dropWhile Char.isDigit)
  | cs => some ((), cs)

/-- The distance from universal time, if there is one. -/
def scanOffset : Scan Unit
  | [] => some ((), [])
  | c :: rest =>
    if c = 'Z' ∨ c = 'z' then some ((), rest)
    else if c = '+' ∨ c = '-' then do
      let (_, rest) ← scanField 2 0 23 rest
      let (_, rest) ← scanMark ':' rest
      let (_, rest) ← scanField 2 0 59 rest
      some ((), rest)
    else some ((), c :: rest)

/-- Whether a text begins with so many digits and a mark. -/
def beginsWith (count : Nat) (mark : Char) (cs : List Char) : Bool :=
  (cs.take count).length == count && (cs.take count).all Char.isDigit && (cs.drop count).head? == some mark

/-- A date, a time, or both with a `T` or a blank between. -/
def scanDateTime : Scan Value := fun cs =>
  if beginsWith 4 '-' cs then do
    let (_, cs) ← scanDate cs
    match cs with
    | c :: rest =>
      if (c = 'T' ∨ c = 't' ∨ c = ' ') ∧ beginsWith 2 ':' rest then do
        let (_, rest) ← scanClock rest
        let (_, rest) ← scanOffset rest
        some (.dateTime, rest)
      else some (.dateTime, c :: rest)
    | [] => some (.dateTime, [])
  else do
    let (_, cs) ← scanClock cs
    some (.dateTime, cs)

end Manycore.Toml
