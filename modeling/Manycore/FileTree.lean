import Manycore.Text.Blank

/-! # File trees

Directories and files as a value. Paths are written with slashes. They start at the root if a slash
is in front, and else at the working directory.
-/

namespace Manycore

/-- A place in the tree: the names from the root to it. -/
abbrev Place := List String

/-- Follow a name. Two dots lead upward, but from the root they lead nowhere else. -/
def Place.child (here : Place) (name : String) : Place :=
  if name = ".." then here.dropLast else here ++ [name]

structure FileTree where
  /-- The working directory. -/
  here : Place
  directories : List Place
  files : List (Place × List UInt8)

/-- The bytes of the longest name. -/
def nameLimit : Nat := 255

/-- The bytes of the longest path. -/
def pathLimit : Nat := 4095

/-- Whether a text can be a path: it is not too long, and has no zero in it. -/
def isPath (text : String) : Bool :=
  decide (text.utf8ByteSize ≤ pathLimit) && text.toList.all (· ≠ '\x00')

/-- The path of a name in a directory. An empty directory is the working directory. -/
def joinPath (directory name : String) : String :=
  if directory = "" ∨ directory.toList.getLast? = some '/' then directory ++ name
  else directory ++ "/" ++ name

namespace FileTree

/-- Nothing but the root. -/
def empty : FileTree := ⟨[], [], []⟩

/-- The working directory and those above it are always there. -/
def isDirectory (t : FileTree) (place : Place) : Bool :=
  place.isPrefixOf t.here || t.directories.contains place

/-- The content of the file at a place. -/
def file? (t : FileTree) (place : Place) : Option (List UInt8) := t.files.lookup place

/-- What stands between the slashes of a path. -/
def pieces (path : String) : List String :=
  (Text.splitOn (· == '/') path.toList).map String.ofList

/-- The names of a path, without those that stay where they are. -/
def names (path : String) : List String :=
  (pieces path).filter fun name => name ≠ "" ∧ name ≠ "."

/-- Whether a path starts at the root. -/
def isAbsolute (path : String) : Bool := path.toList.head? == some '/'

/-- The directory from which a path is followed. -/
def start (t : FileTree) (path : String) : Place := if isAbsolute path then [] else t.here

/-- Follow names from a directory, all of which must be directories. -/
def walk (t : FileTree) (here : Place) : List String → Option Place
  | [] => some here
  | name :: rest =>
    if t.isDirectory (here.child name) then walk t (here.child name) rest else none

/-- Whether a path can only be that of a directory. -/
def namesDirectory (path : String) : Bool :=
  ["", ".", ".."].contains ((pieces path).getLastD "")

/-- The place of a file that a path names; its directory must exist. -/
def locate? (t : FileTree) (path : String) : Option Place :=
  if namesDirectory path || !isPath path then none
  else do
    let here ← t.walk (t.start path) (names path).dropLast
    let name ← (names path).getLast?
    if t.isDirectory (here.child name) ∨ nameLimit < name.utf8ByteSize then none
    else some (here.child name)

/-- Put a file at a place, in the stead of one that is there. -/
def put (t : FileTree) (place : Place) (content : List UInt8) : FileTree :=
  { t with files := (place, content) :: t.files.filter fun (other, _) => other ≠ place }

/-- Write a file, unless its directory is missing or a directory is in its place. -/
def write? (t : FileTree) (path : String) (content : List UInt8) : Option FileTree :=
  (t.locate? path).map fun place => t.put place content

def read? (t : FileTree) (path : String) : Option (List UInt8) :=
  (t.locate? path).bind t.file?

/-- The text of a file. -/
def readText? (t : FileTree) (path : String) : Option String :=
  (t.read? path).bind fun bytes => String.fromUTF8? ⟨bytes.toArray⟩

/-- Whether a path leads to something. -/
def hasPath (t : FileTree) (path : String) : Bool :=
  if path = "" ∨ ¬ isPath path then false
  else
    match t.walk (t.start path) (names path).dropLast, (names path).getLast? with
    | none, _ => false
    | some _, none => true
    | some here, some name =>
      t.isDirectory (here.child name)
        || ((t.file? (here.child name)).isSome && !namesDirectory path)

/-- Make the directories that names lead through, until a file is in the way or a name is too long.
Tells whether all names could be followed. -/
def makeFrom (t : FileTree) (here : Place) : List String → Bool × FileTree
  | [] => (true, t)
  | name :: rest =>
    let place := here.child name
    if t.isDirectory place then makeFrom t place rest
    else if (t.file? place).isSome ∨ nameLimit < name.utf8ByteSize then (false, t)
    else makeFrom { t with directories := t.directories ++ [place] } place rest

/-- Whether a path ends at a dot, slashes aside. -/
def endsAtDot (path : String) : Bool :=
  ((pieces path).filter (· ≠ "")).getLast? == some "."

/-- Make a directory and those above it. A dot at the end stands for a directory that is there: the
name before it is followed but not made. -/
def makeDirectories (t : FileTree) (path : String) : Bool × FileTree :=
  if !isPath path then (false, t)
  else if endsAtDot path then
    let (made, t) := t.makeFrom (t.start path) (names path).dropLast
    (made && (t.walk (t.start path) (names path)).isSome, t)
  else t.makeFrom (t.start path) (names path)

/-- The path of a place from the root. -/
def pathOf (place : Place) : String := "/" ++ String.intercalate "/" place

/-- The path of a place from the working directory, if it is below that. -/
def pathBelow? (t : FileTree) (place : Place) : Option String :=
  if t.here.isPrefixOf place && place != t.here then
    some (String.intercalate "/" (place.drop t.here.length))
  else none

/-- Everything below the working directory in the order of the paths: files with their content, and
directories, whose paths end in a slash. -/
def listing (t : FileTree) : List (String × Option (List UInt8)) :=
  let directories := (t.directories.filterMap t.pathBelow?).map fun path => (path ++ "/", none)
  let files := t.files.filterMap fun (place, content) =>
    (t.pathBelow? place).map fun path => (path, some content)
  (directories ++ files).mergeSort fun a b => decide (a.1 ≤ b.1)

end FileTree

end Manycore
