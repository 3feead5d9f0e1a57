import Manycore.Number.Binary64

/-! # TOML values and tables

Values, and the rules by which the statements of a document build up its tables: no key is given
twice, and no table is extended where another statement has closed it.
-/

namespace Manycore.Toml

inductive Value where
  | string (text : String)
  | integer (value : Int)
  | float (value : Binary64)
  | boolean (value : Bool)
  /-- A date, a time or both, checked but not kept. -/
  | dateTime
  | array (items : List Value)
  | table (entries : List (String × Value))

/-- How a table came to be. -/
inductive TableKind where
  /-- By its own header or braces; dotted keys may not reach into it. -/
  | own
  /-- On the way to the table of a header, which may still follow. -/
  | passing
  /-- By a dotted key; further dotted keys may add to it, a header may not. -/
  | dotted
  deriving DecidableEq

/-- What stands under a key while a document is read. -/
inductive Entry where
  | value (v : Value)
  | table (kind : TableKind) (entries : List (String × Entry))
  | tables (elements : List (List (String × Entry)))

mutual

/-- The finished value of an entry. -/
def Entry.toValue : Entry → Value
  | .value v => v
  | .table _ entries => .table (entryValues entries)
  | .tables elements => .array (elementValues elements)

def entryValues : List (String × Entry) → List (String × Value)
  | [] => []
  | (key, e) :: rest => (key, e.toValue) :: entryValues rest

def elementValues : List (List (String × Entry)) → List Value
  | [] => []
  | entries :: rest => .table (entryValues entries) :: elementValues rest

end

/-- A table while a document is read. -/
structure Table where
  kind : TableKind
  entries : List (String × Entry)

namespace Table

/-- A table without entries. -/
def new (kind : TableKind) : Table := ⟨kind, []⟩

def find? (t : Table) (key : String) : Option Entry := t.entries.lookup key

/-- Set the entry of a key; a new key goes to the end. -/
def put (t : Table) (key : String) (e : Entry) : Table :=
  if (t.find? key).isSome then
    { t with entries := t.entries.map fun (k, old) => (k, if k = key then e else old) }
  else { t with entries := t.entries ++ [(key, e)] }

/-- Change the table at the end of a path. Missing tables are made on the way, and of an array of
tables the last one is meant. -/
def modifyAt (viaDots : Bool) (f : Table → Option Table) : List String → Table → Option Table
  | [], t => f t
  | key :: rest, t =>
    match t.find? key with
    | none =>
      (modifyAt viaDots f rest (new (if viaDots then .dotted else .passing))).map fun c =>
        t.put key (.table c.kind c.entries)
    | some (.value _) => none
    | some (.table kind entries) =>
      if viaDots ∧ kind = .own then none
      else (modifyAt viaDots f rest ⟨kind, entries⟩).map fun c => t.put key (.table c.kind c.entries)
    | some (.tables elements) =>
      match elements.getLast? with
      | none => none
      | some last =>
        (modifyAt viaDots f rest ⟨.own, last⟩).map fun c =>
          t.put key (.tables (elements.dropLast ++ [c.entries]))

/-- Give a value to a new key, below the tables that a dotted key names. Such tables must come from
dotted keys too. -/
def assign (path : List String) (key : String) (v : Value) (t : Table) : Option Table :=
  t.modifyAt true (fun t =>
    if (t.find? key).isSome ∨ (path ≠ [] ∧ t.kind ≠ .dotted) then none
    else some (t.put key (.value v))) path

/-- Begin the table of a header. -/
def openTable (path : List String) (key : String) (t : Table) : Option Table :=
  t.modifyAt false (fun t =>
    match t.find? key with
    | none => some (t.put key (.table .own []))
    | some (.table .passing entries) => some (t.put key (.table .own entries))
    | some _ => none) path

/-- Begin the next table of an array of tables. -/
def openElement (path : List String) (key : String) (t : Table) : Option Table :=
  t.modifyAt false (fun t =>
    match t.find? key with
    | none => some (t.put key (.tables [[]]))
    | some (.tables elements) => some (t.put key (.tables (elements ++ [[]])))
    | some _ => none) path

def toValue (t : Table) : Value := .table (entryValues t.entries)

end Table

end Manycore.Toml
