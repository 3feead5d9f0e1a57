/-! # Blank characters

The twenty-five characters with the White_Space property, and the trimming and splitting of text
that go by them.
-/

namespace Manycore.Text

/-- Whether a character is white space. -/
def isBlank (c : Char) : Bool :=
  let n := c.toNat
  (9 ≤ n && n ≤ 13) || n == 0x20 || n == 0x85 || n == 0xA0 || n == 0x1680
    || (0x2000 ≤ n && n ≤ 0x200A) || n == 0x2028 || n == 0x2029 || n == 0x202F || n == 0x205F
    || n == 0x3000

/-- Drop the blanks at both ends. -/
def trim (text : List Char) : List Char :=
  ((text.dropWhile isBlank).reverse.dropWhile isBlank).reverse

/-- The pieces between separators, empty ones included. There is always a first piece. -/
def splitOn (isSeparator : Char → Bool) : List Char → List (List Char)
  | [] => [[]]
  | c :: rest =>
    match splitOn isSeparator rest with
    | [] => [[c]]
    | piece :: pieces => if isSeparator c then [] :: piece :: pieces else (c :: piece) :: pieces

/-- The words of a text, blanks apart. -/
def words (text : List Char) : List (List Char) :=
  (splitOn isBlank text).filter (· ≠ [])

/-- The rest of a text after a given beginning, if it has that beginning. -/
def after? (beginning : List Char) (text : List Char) : Option (List Char) :=
  match beginning, text with
  | [], rest => some rest
  | _ :: _, [] => none
  | b :: bs, c :: cs => if b = c then after? bs cs else none

end Manycore.Text
