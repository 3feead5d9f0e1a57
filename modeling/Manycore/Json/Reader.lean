import Manycore.Json.Value

/-! # Reading JSON

A strict reader: one value with blanks around it, and nothing else.
-/

namespace Manycore.Json

open Text (Scan)

def isSpace (c : Char) : Bool := c = ' ' || c = '\n' || c = '\r' || c = '\t'

def skipSpace (cs : List Char) : List Char := cs.dropWhile isSpace

/-- The decimal digits at the front, at least one. -/
def scanDigits : Scan (List Char) := fun cs =>
  match cs.takeWhile Char.isDigit with
  | [] => none
  | ds => some (ds, cs.dropWhile Char.isDigit)

/-- The digits after a point, if there is one. -/
def scanPlaces : Scan (Option (List Char))
  | '.' :: rest => (scanDigits rest).map fun (ds, rest) => (some ds, rest)
  | cs => some (none, cs)

/-- A sign, which a plus may spell out. -/
def takeSign : List Char → Bool × List Char
  | '-' :: rest => (true, rest)
  | '+' :: rest => (false, rest)
  | cs => (false, cs)

/-- A power of ten, if there is one. -/
def scanPower : Scan (Option Int)
  | [] => some (none, [])
  | e :: rest =>
    if e = 'e' || e = 'E' then
      let (negative, rest) := takeSign rest
      (scanDigits rest).map fun (ds, rest) =>
        let power : Int := Text.digitsValue 10 ds
        (some (if negative then -power else power), rest)
    else some (none, e :: rest)

/-- A number without leading zeros. -/
def scanNumber : Scan Value := fun cs => do
  let (negative, cs) := match cs with
    | '-' :: rest => (true, rest)
    | _ => (false, cs)
  let (ds, cs) ← scanDigits cs
  if ds.length > 1 ∧ ds.head? = some '0' then none
  else
    let (places, cs) ← scanPlaces cs
    let (power, cs) ← scanPower cs
    some (.number ⟨negative, ds, places, power⟩, cs)

/-- The character of a short escape. -/
def shortEscape? (c : Char) : Option Nat :=
  match c with
  | '"' => some 34
  | '\\' => some 92
  | '/' => some 47
  | 'b' => some 8
  | 'f' => some 12
  | 'n' => some 10
  | 'r' => some 13
  | 't' => some 9
  | _ => none

/-- The code units of a string up to its closing quote. -/
def scanUnits : Scan (List Nat)
  | [] => none
  | '"' :: rest => some ([], rest)
  | '\\' :: 'u' :: a :: b :: c :: d :: rest => do
    let a ← Text.digitValue? a
    let b ← Text.digitValue? b
    let c ← Text.digitValue? c
    let d ← Text.digitValue? d
    let (units, rest) ← scanUnits rest
    some ((((a * 16 + b) * 16 + c) * 16 + d) :: units, rest)
  | '\\' :: c :: rest => do
    let unit ← shortEscape? c
    let (units, rest) ← scanUnits rest
    some (unit :: units, rest)
  | c :: rest =>
    if c.toNat < 32 then none
    else (scanUnits rest).map fun (units, rest) => (c.toNat :: units, rest)

def isHighSurrogate (u : Nat) : Bool := decide (0xD800 ≤ u ∧ u < 0xDC00)

def isLowSurrogate (u : Nat) : Bool := decide (0xDC00 ≤ u ∧ u < 0xE000)

/-- The text of code units, when every surrogate is one of a pair. -/
def textOfUnits? : List Nat → Option (List Char)
  | [] => some []
  | [u] => if isHighSurrogate u || isLowSurrogate u then none else some [Char.ofNat u]
  | u :: v :: rest =>
    if isHighSurrogate u then
      if isLowSurrogate v then
        (textOfUnits? rest).map (Char.ofNat (0x10000 + (u - 0xD800) * 0x400 + (v - 0xDC00)) :: ·)
      else none
    else if isLowSurrogate u then none
    else (textOfUnits? (v :: rest)).map (Char.ofNat u :: ·)

/-- The text of a string, after its opening quote. -/
def scanString : Scan (Option String) := fun cs =>
  (scanUnits cs).map fun (units, rest) => ((textOfUnits? units).map String.ofList, rest)

/-- A fixed word. -/
def scanWord (w : String) (v : Value) : Scan Value := fun cs =>
  if w.toList.isPrefixOf cs then some (v, cs.drop w.length) else none

mutual

/-- A value. Every level of nesting takes one unit of fuel. -/
def scanValue : Nat → Scan Value
  | 0, _ => none
  | fuel + 1, cs =>
    match skipSpace cs with
    | [] => none
    | '[' :: rest =>
      match skipSpace rest with
      | ']' :: rest => some (.array [], rest)
      | _ => (scanItems fuel rest).map fun (items, rest) => (.array items, rest)
    | '\x7b' :: rest =>
      match skipSpace rest with
      | '\x7d' :: rest => some (.object [], rest)
      | _ => (scanMembers fuel rest).map fun (members, rest) => (.object members, rest)
    | '"' :: rest => (scanString rest).map fun (s, rest) => (.string s, rest)
    | 'n' :: rest => scanWord "null" .null ('n' :: rest)
    | 't' :: rest => scanWord "true" (.bool true) ('t' :: rest)
    | 'f' :: rest => scanWord "false" (.bool false) ('f' :: rest)
    | cs => scanNumber cs

/-- One or more items and the closing bracket. -/
def scanItems : Nat → Scan (List Value)
  | 0, _ => none
  | fuel + 1, cs => do
    let (v, cs) ← scanValue fuel cs
    match skipSpace cs with
    | ']' :: rest => some ([v], rest)
    | ',' :: rest => do
      let (items, rest) ← scanItems fuel rest
      some (v :: items, rest)
    | _ => none

/-- One or more members and the closing brace. -/
def scanMembers : Nat → Scan (List (Option String × Value))
  | 0, _ => none
  | fuel + 1, cs =>
    match skipSpace cs with
    | '"' :: rest => do
      let (name, rest) ← scanString rest
      match skipSpace rest with
      | ':' :: rest => do
        let (v, rest) ← scanValue fuel rest
        match skipSpace rest with
        | '\x7d' :: rest => some ([(name, v)], rest)
        | ',' :: rest => do
          let (members, rest) ← scanMembers fuel rest
          some ((name, v) :: members, rest)
        | _ => none
      | _ => none
    | _ => none

end

/-- The value that a text holds. Every unit of fuel spent takes a character, so the length of the
text is enough. -/
def Value.ofText? (text : String) : Option Value :=
  let cs := text.toList
  match scanValue (2 * cs.length + 2) cs with
  | some (v, rest) => if (skipSpace rest).isEmpty then some v else none
  | none => none

end Manycore.Json
