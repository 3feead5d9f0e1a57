import Manycore.Toml.Lexeme

/-! # Reading TOML

A document is a list of statements, one to a line: headers of tables, and keys with values.
-/

namespace Manycore.Toml

open Text (Scan)

mutual

/-- A value, whose containers may be nested `depth` deep. -/
def scanValue : Nat → Nat → Scan Value
  | 0, _, _ => none
  | fuel + 1, depth, cs =>
    match cs with
    | '[' :: rest =>
      if depth = 0 then none
      else (scanItems fuel (depth - 1) rest).map fun (items, rest) => (.array items, rest)
    | '\x7b' :: rest =>
      if depth = 0 then none
      else
        match skipSpace rest with
        | '\x7d' :: rest => some (.table [], rest)
        | rest => (scanPairs fuel (depth - 1) (.new .own) rest).map fun (t, rest) => (t.toValue, rest)
    | '"' :: rest => (scanString ('"' :: rest)).map fun (s, rest) => (.string s, rest)
    | '\'' :: rest => (scanString ('\'' :: rest)).map fun (s, rest) => (.string s, rest)
    | 't' :: 'r' :: 'u' :: 'e' :: rest => some (.boolean true, rest)
    | 'f' :: 'a' :: 'l' :: 's' :: 'e' :: rest => some (.boolean false, rest)
    | cs => if beginsWith 4 '-' cs || beginsWith 2 ':' cs then scanDateTime cs else scanNumber cs

/-- The items of an array up to its bracket; a comma may follow the last one. -/
def scanItems : Nat → Nat → Scan (List Value)
  | 0, _, _ => none
  | fuel + 1, depth, cs =>
    match skipFiller fuel cs with
    | ']' :: rest => some ([], rest)
    | cs => do
      let (v, rest) ← scanValue fuel depth cs
      match skipFiller fuel rest with
      | ',' :: rest => do
        let (items, rest) ← scanItems fuel depth rest
        some (v :: items, rest)
      | ']' :: rest => some ([v], rest)
      | _ => none

/-- The keys and values of a table in braces, added to a table. -/
def scanPairs : Nat → Nat → Table → Scan Table
  | 0, _, _, _ => none
  | fuel + 1, depth, t, cs => do
    let ((path, key), rest) ← scanKey cs
    let (_, rest) ← scanMark '=' rest
    let (v, rest) ← scanValue fuel depth (skipSpace rest)
    let t ← t.assign path key v
    match skipSpace rest with
    | ',' :: rest => scanPairs fuel depth t rest
    | '\x7d' :: rest => some (t, rest)
    | _ => none

end

/-- A line of a document. -/
inductive Statement where
  | table (path : List String) (key : String)
  | element (path : List String) (key : String)
  | assign (path : List String) (key : String) (v : Value)

def scanStatement : Scan Statement
  | '[' :: '[' :: rest => do
    let ((path, key), rest) ← scanKey rest
    let (_, rest) ← scanMark ']' rest
    let (_, rest) ← scanMark ']' rest
    some (.element path key, rest)
  | '[' :: rest => do
    let ((path, key), rest) ← scanKey rest
    let (_, rest) ← scanMark ']' rest
    some (.table path key, rest)
  | cs => do
    let ((path, key), rest) ← scanKey cs
    let (_, rest) ← scanMark '=' rest
    let rest := skipSpace rest
    let (v, rest) ← scanValue (rest.length + 1) maxDepth rest
    some (.assign path key v, rest)

/-- The statements of a document, at most `fuel` lines. -/
def scanStatements : Nat → List Char → Option (List Statement)
  | 0, _ => none
  | fuel + 1, cs =>
    match skipComment (skipSpace cs) with
    | [] => some []
    | rest =>
      match afterNewline? rest with
      | some rest => scanStatements fuel rest
      | none => do
        let (s, rest) ← scanStatement (skipSpace cs)
        match skipComment (skipSpace rest) with
        | [] => some [s]
        | rest => do
          let statements ← scanStatements fuel (← afterNewline? rest)
          some (s :: statements)

/-- A document while it is read: all of it, and the path of the table that keys go to. -/
structure Document where
  root : Table
  current : List String

namespace Document

def empty : Document := ⟨.new .own, []⟩

def step (d : Document) : Statement → Option Document
  | .table path key => (d.root.openTable path key).map fun root => ⟨root, path ++ [key]⟩
  | .element path key => (d.root.openElement path key).map fun root => ⟨root, path ++ [key]⟩
  | .assign path key v =>
    (d.root.modifyAt false (Table.assign path key v) d.current).map fun root => { d with root }

end Document

/-- The table that a document describes. A byte order mark in front is skipped. -/
def Value.ofDocument? (text : String) : Option Value := do
  let cs := match text.toList with
    | c :: rest => if c.toNat = 0xFEFF then rest else c :: rest
    | [] => []
  let statements ← scanStatements (cs.length + 1) cs
  let d ← statements.foldlM Document.step .empty
  some d.root.toValue

end Manycore.Toml
