import Manycore.Memory.LoadPlan
import Manycore.Proofs.FileTree
import Manycore.Proofs.Lists
import Manycore.Proofs.Memory.PointerTable
import Manycore.Proofs.Stateful

/-! # The files of slots

Every filled slot of a core goes to a file of its own name, and its words into the file byte by
byte, the lowest first.
-/

namespace Manycore

open Slots Stateful

section

variable {x y p x' y' p' : UInt32} {i i' : Nat}

theorem toList_slotFileName (x y p : UInt32) (i : Nat) : (slotFileName x y p i).toList
    = (Text.zeroPadded 3 x.toNat).toList ++ '_' :: ((Text.zeroPadded 3 y.toNat).toList
      ++ '_' :: ((Text.zeroPadded 2 p.toNat).toList
        ++ '_' :: ((Text.zeroPadded 3 i).toList ++ ['.', 'b', 'i', 'n']))) := by
  simp [slotFileName, String.toList_append]

/-- Bars stand between the numbers of a name, and nowhere else. -/
theorem splitOn_slotFileName (x y p : UInt32) (i : Nat) :
    Text.splitOn (· == '_') (slotFileName x y p i).toList
      = [(Text.zeroPadded 3 x.toNat).toList, (Text.zeroPadded 3 y.toNat).toList,
        (Text.zeroPadded 2 p.toNat).toList,
        (Text.zeroPadded 3 i).toList ++ ['.', 'b', 'i', 'n']] := by
  have hdigits (width n : Nat) : ∀ c ∈ (Text.zeroPadded width n).toList, (c == '_') = false := by
    intro c hc
    have := Text.isDigit_of_mem_zeroPadded hc
    rw [beq_eq_false_iff_ne]
    rintro rfl
    cases this
  have hsuffix : ∀ c ∈ ['.', 'b', 'i', 'n'], (c == '_') = false := by simp
  have hlast : ∀ c ∈ (Text.zeroPadded 3 i).toList ++ ['.', 'b', 'i', 'n'], (c == '_') = false :=
    List.forall_mem_append.mpr ⟨hdigits 3 i, hsuffix⟩
  have hbar (front rest : List Char) : Text.splitOn (· == '_') (front ++ '_' :: rest)
      = Text.splitOn (· == '_') front ++ Text.splitOn (· == '_') rest :=
    Text.splitOn_append_cons rfl front rest
  rw [toList_slotFileName, hbar, hbar, hbar, Text.splitOn_eq_singleton (hdigits _ _),
    Text.splitOn_eq_singleton (hdigits _ _), Text.splitOn_eq_singleton (hdigits _ _),
    Text.splitOn_eq_singleton hlast]
  rfl

theorem slotFileName_inj :
    slotFileName x y p i = slotFileName x' y' p' i' ↔ x = x' ∧ y = y' ∧ p = p' ∧ i = i' := by
  constructor
  · intro h
    have hsplit := splitOn_slotFileName x y p i
    rw [h, splitOn_slotFileName] at hsplit
    simpa [Text.zeroPadded_inj, UInt32.toNat_inj, eq_comm] using hsplit
  · rintro ⟨rfl, rfl, rfl, rfl⟩
    rfl

theorem isFileName_slotFileName (x y p : UInt32) (i : Nat) :
    IsFileName (slotFileName x y p i) := by
  have hbar : '_' ∈ (slotFileName x y p i).toList := by simp [toList_slotFileName]
  have hdigits (width n : Nat) : '/' ∉ (Text.zeroPadded width n).toList := fun h =>
    nomatch Text.isDigit_of_mem_zeroPadded h
  refine ⟨?_, ?_, ?_, ?_⟩
  · simp [toList_slotFileName, hdigits]
  all_goals
    intro h
    rw [h] at hbar
    revert hbar
    decide

end

theorem toNat_wordBytes (w : UInt32) : ∃ a b c d, wordBytes w = [a, b, c, d]
    ∧ w.toNat = a.toNat + 256 * b.toNat + 65536 * c.toNat + 16777216 * d.toNat := by
  refine ⟨_, _, _, _, rfl, ?_⟩
  have := w.toNat_lt
  simp [Nat.shiftRight_eq_div_pow]
  omega

theorem length_bytes (words : List UInt32) :
    (Subregion.filled words).bytes.length = 4 * words.length :=
  length_flatMap_of_length fun _ => rfl

section

variable {t t' : FileTree} {path : String}

theorem succeeds_writeFile_iff {content : List UInt8} {u : Unit} :
    Succeeds (writeFile path content) t u t' ↔ t.write? path content = some t' := by
  simp only [writeFile, succeeds_bind_iff, succeeds_get_iff]
  constructor
  · rintro ⟨_, _, ⟨rfl, rfl⟩, h⟩
    split at h
    · rename_i made hmade
      rw [hmade, succeeds_set_iff.mp h]
    · exact absurd h not_succeeds_throw
  · intro h
    refine ⟨t, t, ⟨rfl, rfl⟩, ?_⟩
    rw [h]
    exact succeeds_set_iff.mpr rfl

end

section

variable (x y p : UInt32) (directory : String) {t t' : FileTree} {address : UInt32} {index : Nat}

/-- What a plan says of a filled slot, and what is in its file. -/
def slotFile (address : UInt32) (index : Nat) (words : List UInt32) : RegionWrite × List UInt8 where
  fst := {
    x
    y
    base := address
    sizeBytes := slotLength (some (.filled words))
    path := joinPath directory (slotFileName x y p index) }
  snd := (Subregion.filled words).bytes

/-- The files of the filled slots from number `index` on, the first slot at `address`. -/
def slotFilesFrom (address : UInt32) (index : Nat) : Slots → List (RegionWrite × List UInt8)
  | [] => []
  | some (.filled words) :: rest => slotFile x y p directory address index words
    :: slotFilesFrom (address + slotLength (some (.filled words))) (index + 1) rest
  | slot :: rest => slotFilesFrom (address + slotLength slot) (index + 1) rest

def contents (files : List (RegionWrite × List UInt8)) : List (String × List UInt8) :=
  files.map fun file => (file.1.path, file.2)

theorem of_succeeds_writeSlotsFrom {slots : Slots} {writes : List RegionWrite}
    (h : Succeeds (writeSlotsFrom x y p directory address index slots) t writes t') :
    writes = (slotFilesFrom x y p directory address index slots).map Prod.fst
      ∧ t.writeAll? (contents (slotFilesFrom x y p directory address index slots)) = some t' := by
  induction slots generalizing address index t writes with
  | nil =>
      obtain ⟨rfl, rfl⟩ := succeeds_pure_iff.mp h
      exact ⟨rfl, rfl⟩
  | cons slot rest ih =>
      rcases slot with _ | words | n
      all_goals
        simp only [writeSlotsFrom, succeeds_bind_iff, succeeds_pure_iff,
          succeeds_writeFile_iff] at h
      · obtain ⟨_, _, ⟨rfl, rfl⟩, others, _, hothers, rfl, rfl⟩ := h
        obtain ⟨rfl, hrest⟩ := ih hothers
        exact ⟨rfl, hrest⟩
      · obtain ⟨_, _, hwrite, _, _, ⟨rfl, rfl⟩, others, _, hothers, rfl, rfl⟩ := h
        obtain ⟨rfl, hrest⟩ := ih hothers
        exact ⟨rfl, Option.bind_eq_some_iff.mpr ⟨_, hwrite, hrest⟩⟩
      · obtain ⟨_, _, ⟨rfl, rfl⟩, others, _, hothers, rfl, rfl⟩ := h
        obtain ⟨rfl, hrest⟩ := ih hothers
        exact ⟨rfl, hrest⟩

variable {x y p directory}

theorem mem_slotFilesFrom_iff {slots : Slots} {file : RegionWrite × List UInt8} :
    file ∈ slotFilesFrom x y p directory address index slots ↔
      ∃ i words, slots[i]? = some (some (.filled words)) ∧ file = slotFile x y p directory
        (address + UInt32.ofNat (slots.bytesBefore i)) (index + i) words := by
  induction slots generalizing address index with
  | nil => simp [slotFilesFrom]
  | cons slot rest ih =>
      have haddress (i : Nat) : address + slotLength slot + UInt32.ofNat (bytesBefore rest i)
          = address + UInt32.ofNat (bytesBefore (slot :: rest) (i + 1)) := by
        rw [bytesBefore_cons_succ, slotLength, UInt32.ofNat_add, UInt32.add_assoc]
      have hindex (i : Nat) : index + 1 + i = index + (i + 1) := Nat.add_right_comm index 1 i
      rw [← Nat.or_exists_add_one]
      rcases slot with _ | words | n
      all_goals simp only [slotFilesFrom, List.mem_cons, ih, haddress, hindex]
      all_goals simp

theorem pairwise_slotFilesFrom (slots : Slots) (address : UInt32) (index : Nat) :
    (slotFilesFrom x y p directory address index slots).Pairwise
      fun a b => a.1.path ≠ b.1.path := by
  induction slots generalizing address index with
  | nil => exact List.Pairwise.nil
  | cons slot rest ih =>
      rcases slot with _ | words | n
      · exact ih _ _
      · refine List.pairwise_cons.mpr ⟨fun file hfile => ?_, ih _ _⟩
        obtain ⟨i, words', -, rfl⟩ := mem_slotFilesFrom_iff.mp hfile
        intro hpath
        have := (slotFileName_inj.mp (joinPath_inj.mp hpath)).2.2.2
        omega
      · exact ih _ _

end

end Manycore
