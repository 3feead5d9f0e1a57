import Manycore.FileTree
import Manycore.Proofs.Text

/-! # Files under one directory

Different names in one directory are different places, so a file that is written there is read back
as it was written, whatever is written next to it afterwards.
-/

namespace Manycore

variable {directory name : String}

/-- A name that leads from a directory to a file in it. -/
structure IsFileName (name : String) : Prop where
  noSlash : '/' ∉ name.toList
  notEmpty : name ≠ ""
  notHere : name ≠ "."
  notAbove : name ≠ ".."

theorem joinPath_inj {a b : String} : joinPath directory a = joinPath directory b ↔ a = b := by
  unfold joinPath
  split <;> simp

namespace FileTree

variable {t t' : FileTree} {place other : Place} {path : String} {content : List UInt8}

theorem pieces_eq_singleton (h : '/' ∉ name.toList) : pieces name = [name] := by
  have hslash : ∀ c ∈ name.toList, (c == '/') = false := by
    intro c hc
    rw [beq_eq_false_iff_ne]
    rintro rfl
    exact h hc
  simp [pieces, Text.splitOn_eq_singleton hslash]

theorem pieces_append_slash (front rest : List Char) :
    pieces (String.ofList (front ++ '/' :: rest))
      = pieces (String.ofList front) ++ pieces (String.ofList rest) := by
  have hslash : ('/' == '/') = true := rfl
  simp [pieces, Text.splitOn_append_cons (p := (· == '/')) hslash]

theorem pieces_empty : pieces "" = [""] := pieces_eq_singleton (by simp)

theorem exists_pieces_joinPath (directory : String) (h : '/' ∉ name.toList) :
    ∃ front, pieces (joinPath directory name) = front ++ [name]
      ∧ front.filter (fun name => name ≠ "" ∧ name ≠ ".") = names directory := by
  have hname : pieces (String.ofList name.toList) = [name] := by
    rw [String.ofList_toList, pieces_eq_singleton h]
  unfold joinPath names
  split
  · rename_i hend
    rcases hend with rfl | hslash
    · exact ⟨[], by simp [pieces_eq_singleton h], by simp [pieces_empty]⟩
    · -- The slash at the end of the directory leaves an empty piece, which is no name.
      obtain ⟨front, hfront⟩ := List.getLast?_eq_some_iff.mp hslash
      have hdirectory : directory = String.ofList (front ++ ['/']) := by
        rw [← hfront, String.ofList_toList]
      have hpath : directory ++ name = String.ofList (front ++ '/' :: name.toList) := by
        rw [hdirectory, ← String.toList_inj]
        simp
      refine ⟨pieces (String.ofList front), ?_, ?_⟩
      · rw [hpath, pieces_append_slash, hname]
      · rw [hdirectory, pieces_append_slash]
        simp [pieces_empty]
  · have hpath : directory ++ "/" ++ name
        = String.ofList (directory.toList ++ '/' :: name.toList) := by
      rw [← String.toList_inj]
      simp
    refine ⟨pieces directory, ?_, rfl⟩
    rw [hpath, pieces_append_slash, hname, String.ofList_toList]

theorem names_joinPath (directory : String) (h : IsFileName name) :
    names (joinPath directory name) = names directory ++ [name] := by
  obtain ⟨front, hpieces, hfront⟩ := exists_pieces_joinPath directory h.noSlash
  unfold names
  rw [hpieces, List.filter_append, hfront]
  simp [names, h.notEmpty, h.notHere]

theorem isAbsolute_joinPath (directory : String) (h : IsFileName name) :
    isAbsolute (joinPath directory name) = isAbsolute directory := by
  have hname : isAbsolute name = false := by
    rw [isAbsolute, beq_eq_false_iff_ne]
    intro hhead
    exact h.noSlash (List.mem_of_mem_head? hhead)
  unfold joinPath
  cases hdirectory : directory.toList with
  | nil =>
      obtain rfl := String.toList_eq_nil_iff.mp hdirectory
      simpa [isAbsolute] using hname
  | cons c rest => split <;> simp [isAbsolute, hdirectory]

theorem start_joinPath (t : FileTree) (directory : String) (h : IsFileName name) :
    t.start (joinPath directory name) = t.start directory := by
  rw [start, isAbsolute_joinPath directory h, start]

/-- The place of a file is its name behind the place of its directory. -/
theorem locate?_joinPath (h : IsFileName name)
    (hplace : t.locate? (joinPath directory name) = some place) :
    ∃ here, t.walk (t.start directory) (names directory) = some here ∧ place = here ++ [name] := by
  unfold locate? at hplace
  rw [names_joinPath directory h, List.dropLast_concat, List.getLast?_concat,
    start_joinPath t directory h] at hplace
  split at hplace
  · cases hplace
  · cases hwalk : t.walk (t.start directory) (names directory) with
    | none =>
        rw [hwalk] at hplace
        cases hplace
    | some here =>
        simp only [hwalk, Option.bind_eq_bind, Option.bind_some] at hplace
        split at hplace
        · cases hplace
        · exact ⟨here, rfl, by simpa [Place.child, h.notAbove] using hplace.symm⟩

/-- Two trees with the same directories, in which paths lead to the same places. -/
structure Alike (t t' : FileTree) : Prop where
  here : t'.here = t.here
  directories : t'.directories = t.directories

namespace Alike

variable {mid : FileTree}

theorem trans (h : Alike t mid) (h' : Alike mid t') : Alike t t' where
  here := h'.here.trans h.here
  directories := h'.directories.trans h.directories

theorem isDirectory_eq (h : Alike t t') (place : Place) :
    t'.isDirectory place = t.isDirectory place := by
  unfold isDirectory
  rw [h.here, h.directories]

theorem walk_eq (h : Alike t t') (here : Place) (names : List String) :
    t'.walk here names = t.walk here names := by
  induction names generalizing here with
  | nil => rfl
  | cons name rest ih => simp only [walk, h.isDirectory_eq, ih]

theorem locate?_eq (h : Alike t t') (path : String) : t'.locate? path = t.locate? path := by
  simp only [locate?, start, h.here, h.walk_eq, h.isDirectory_eq]

end Alike

theorem alike_put (t : FileTree) (place : Place) (content : List UInt8) :
    Alike t (t.put place content) where
  here := rfl
  directories := rfl

theorem file?_put (t : FileTree) (place : Place) (content : List UInt8) :
    (t.put place content).file? place = some content := by
  simp [file?, put]

theorem lookup_filter_of_ne (h : other ≠ place) (files : List (Place × List UInt8)) :
    (files.filter fun (here, _) => here ≠ place).lookup other = files.lookup other := by
  induction files with
  | nil => rfl
  | cons file rest ih =>
      by_cases hfile : file.1 = place
      · rw [List.filter_cons_of_neg (by simp [hfile]), ih, List.lookup_cons, hfile,
          beq_false_of_ne h]
      · rw [List.filter_cons_of_pos (by simp [hfile]), List.lookup_cons, List.lookup_cons, ih]

theorem file?_put_of_ne (h : other ≠ place) :
    (t.put place content).file? other = t.file? other := by
  unfold file? put
  rw [List.lookup_cons, beq_false_of_ne h]
  exact lookup_filter_of_ne h t.files

theorem write?_eq_some_iff : t.write? path content = some t' ↔
    ∃ place, t.locate? path = some place ∧ t.put place content = t' := by
  simp [write?]

/-- Write files one after the other. -/
def writeAll? (t : FileTree) : List (String × List UInt8) → Option FileTree
  | [] => some t
  | (path, content) :: rest => (t.write? path content).bind fun t' => t'.writeAll? rest

variable {files : List (String × List UInt8)}

theorem writeAll?_append {files' : List (String × List UInt8)} {mid : FileTree}
    (h : t.writeAll? files = some mid) (h' : mid.writeAll? files' = some t') :
    t.writeAll? (files ++ files') = some t' := by
  induction files generalizing t with
  | nil =>
      cases h
      exact h'
  | cons file rest ih =>
      obtain ⟨next, hwrite, hrest⟩ := Option.bind_eq_some_iff.mp h
      exact Option.bind_eq_some_iff.mpr ⟨next, hwrite, ih hrest⟩

theorem alike_writeAll? (h : t.writeAll? files = some t') : Alike t t' := by
  induction files generalizing t with
  | nil =>
      cases h
      exact ⟨rfl, rfl⟩
  | cons file rest ih =>
      obtain ⟨mid, hwrite, hrest⟩ := Option.bind_eq_some_iff.mp h
      obtain ⟨place, -, rfl⟩ := write?_eq_some_iff.mp hwrite
      exact (alike_put t place file.2).trans (ih hrest)

theorem file?_writeAll?_of_ne (h : t.writeAll? files = some t')
    (hne : ∀ file ∈ files, t.locate? file.1 ≠ some place) : t'.file? place = t.file? place := by
  induction files generalizing t with
  | nil => cases h; rfl
  | cons file rest ih =>
      obtain ⟨mid, hwrite, hrest⟩ := Option.bind_eq_some_iff.mp h
      obtain ⟨other, hother, rfl⟩ := write?_eq_some_iff.mp hwrite
      obtain ⟨hhead, htail⟩ := List.forall_mem_cons.mp hne
      have hput := alike_put t other file.2
      rw [ih hrest fun file hfile => hput.locate?_eq file.1 ▸ htail file hfile]
      refine file?_put_of_ne ?_
      rintro rfl
      exact hhead hother

/-- Files at different places are all read back. -/
theorem read?_writeAll? (h : t.writeAll? files = some t')
    (hapart : files.Pairwise fun a b => ∀ place, t.locate? a.1 = some place →
      t.locate? b.1 ≠ some place) {file : String × List UInt8} (hfile : file ∈ files) :
    t'.read? file.1 = some file.2 := by
  induction files generalizing t with
  | nil => cases hfile
  | cons head rest ih =>
      have hsame := alike_writeAll? h
      obtain ⟨mid, hwrite, hrest⟩ := Option.bind_eq_some_iff.mp h
      obtain ⟨place, hplace, rfl⟩ := write?_eq_some_iff.mp hwrite
      have hput := alike_put t place head.2
      obtain ⟨hhead, htail⟩ := List.pairwise_cons.mp hapart
      rcases List.mem_cons.mp hfile with rfl | hmem
      · unfold read?
        rw [hsame.locate?_eq, hplace, Option.bind_some, file?_writeAll?_of_ne hrest, file?_put]
        intro other hother
        rw [hput.locate?_eq]
        exact hhead other hother place hplace
      · refine ih hrest ?_ hmem
        simpa only [hput.locate?_eq] using htail

end FileTree

end Manycore
