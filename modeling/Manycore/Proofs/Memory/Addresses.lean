import Manycore.Proofs.Memory.LoadPlan

/-! # True addresses

Addresses and offsets are words, and a block is only kept from starting above the last address. So a
plan tells every address and size up to whole ranges of words. It tells the true ones exactly where
they are within the range, as they are on a node whose memory ends below the last address.
-/

namespace Manycore

open List (Forall₂)
open NodeMemory Stateful Slots

structure FilledSlot where
  block : Block
  index : Nat
  words : List UInt32

namespace FilledSlot

/-- A slot of a block with its number, if it is filled. -/
def ofSlot? (b : Block) : Option Subregion × Nat → Option FilledSlot
  | (some (.filled words), i) => some ⟨b, i, words⟩
  | _ => none

/-- The true address. -/
def address (s : FilledSlot) : Nat := s.block.slotAddress s.index

/-- The true size. -/
def bytes (s : FilledSlot) : Nat := 4 * s.words.length

def path (s : FilledSlot) (directory : String) : String := s.block.path directory s.index

/-- The file of the slot and its entry in the load plan. -/
def file (s : FilledSlot) (directory : String) : RegionWrite × List UInt8 :=
  s.block.file directory s.index s.words

end FilledSlot

namespace Block

variable {b : Block} {directory : String}

/-- The filled slots of a block, in order; the first is the pointer table. -/
def filledSlots (b : Block) : List FilledSlot := b.slots.zipIdx.filterMap (FilledSlot.ofSlot? b)

theorem mem_filledSlots_iff {s : FilledSlot} : s ∈ b.filledSlots ↔
    s.block = b ∧ b.slots[s.index]? = some (some (.filled s.words)) := by
  unfold filledSlots
  rw [List.mem_filterMap]
  constructor
  · rintro ⟨⟨slot, i⟩, hslot, hs⟩
    have hget := List.mem_zipIdx_iff_getElem?.mp hslot
    rcases slot with _ | words | n
    · cases hs
    · cases hs
      exact ⟨rfl, hget⟩
    · cases hs
  · rintro ⟨rfl, hget⟩
    exact ⟨(_, s.index), List.mem_zipIdx_iff_getElem?.mpr hget, rfl⟩

theorem slotFilesFrom_eq (directory : String) (before : Slots) {rest : Slots}
    (h : b.slots = before ++ rest) :
    slotFilesFrom b.core.x b.core.y b.core.p directory (b.base + UInt32.ofNat before.totalBytes)
        before.length rest
      = ((rest.zipIdx before.length).filterMap (FilledSlot.ofSlot? b)).map
        fun s => s.file directory := by
  -- The slots that are done tell the address and the number of the next one.
  induction rest generalizing before with
  | nil => rfl
  | cons slot rest ih =>
      have hrest := ih (before ++ [slot]) (by simpa using h)
      have haddress : b.base + UInt32.ofNat (totalBytes (before ++ [slot]))
          = b.base + UInt32.ofNat before.totalBytes + slotLength slot := by
        simp [totalBytes_append, slotLength, UInt32.ofNat_add, UInt32.add_assoc]
      rw [haddress, List.length_append, List.length_singleton] at hrest
      have hbefore : b.slots.bytesBefore before.length = before.totalBytes := by
        simp [bytesBefore, h]
      rcases slot with _ | words | n
      · exact hrest
      · simp only [slotFilesFrom, hrest, List.zipIdx_cons, List.filterMap_cons, FilledSlot.ofSlot?,
          List.map_cons, FilledSlot.file, file, hbefore]
      · exact hrest

theorem files_eq : b.files directory = b.filledSlots.map fun s => s.file directory := by
  have hfiles := slotFilesFrom_eq directory [] (show b.slots = [] ++ b.slots from rfl)
  simpa [files, filledSlots] using hfiles

/-- The word of the pointer table for a slot of the core. -/
def tableWord? (b : Block) (i : Nat) : Option UInt32 :=
  match b.slots with
  | some (.filled words) :: _ => words[4 + i]?
  | _ => none

end Block

/-- The filled slots of all blocks, in order. -/
def filledSlots (blocks : List Block) : List FilledSlot := blocks.flatMap Block.filledSlots

theorem mem_filledSlots_iff {blocks : List Block} {s : FilledSlot} : s ∈ filledSlots blocks ↔
    s.block ∈ blocks ∧ s.block.slots[s.index]? = some (some (.filled s.words)) := by
  simp only [filledSlots, List.mem_flatMap, Block.mem_filledSlots_iff]
  constructor
  · rintro ⟨b, hb, rfl, hslot⟩
    exact ⟨hb, hslot⟩
  · rintro ⟨hb, hslot⟩
    exact ⟨s.block, hb, rfl, hslot⟩

theorem allFiles_eq (blocks : List Block) (directory : String) :
    allFiles blocks directory = (filledSlots blocks).map fun s => s.file directory := by
  simp only [allFiles, filledSlots, List.map_flatMap, Block.files_eq]

/-- What a plan tells of a filled slot. -/
structure FilledSlot.WrittenBy (directory : String) (s : FilledSlot) (w : RegionWrite) : Prop where
  node : w.x = s.block.core.x ∧ w.y = s.block.core.y
  path : w.path = s.path directory
  base : w.base.toNat = s.address % wordRange
  sizeBytes : w.sizeBytes.toNat = s.bytes % wordRange

theorem FilledSlot.writtenBy_file (s : FilledSlot) (directory : String) :
    s.WrittenBy directory (s.file directory).1 where
  node := ⟨rfl, rfl⟩
  path := rfl
  base := by
    show (s.block.base + UInt32.ofNat (s.block.slots.bytesBefore s.index)).toNat = _
    rw [UInt32.toNat_add, UInt32.toNat_ofNat']
    exact Nat.add_mod_mod _ _ _
  sizeBytes := UInt32.toNat_ofNat'

/-- The word of a slot counts the bytes from the start of the table to the slot. -/
theorem Block.exists_tableWord {b : Block} {header : TableHeader} {i : Nat}
    (hslots : b.slots = b.core.blockSlots header) (hi : i + 1 < b.slots.length) :
    ∃ word, b.tableWord? i = some word
      ∧ word.toNat = b.slots.bytesBefore (i + 1) % wordRange := by
  have hcore : i < b.core.slots.length := by simpa [hslots, PlacedCore.blockSlots] using hi
  refine ⟨UInt32.ofNat (b.core.slots.bytesBefore i) + b.core.slots.tableLength, ?_, ?_⟩
  · unfold tableWord?
    rw [hslots]
    exact getElem?_tableWords header b.core.timerPeriod hcore
  · rw [hslots, PlacedCore.blockSlots, bytesBefore_cons_succ, slotBytes_pointerTable,
      UInt32.toNat_add, UInt32.toNat_ofNat', tableLength, UInt32.toNat_ofNat', ← Nat.add_mod,
      Nat.add_comm]
    rfl

/-- A plan tells true addresses and sizes, no write ends beyond the range of words, and the pointer
tables hold true offsets. -/
structure LoadPlan.Exact (plan : LoadPlan) (blocks : List Block) : Prop where
  regions : Forall₂ (fun s w => w.base.toNat = s.address ∧ w.sizeBytes.toNat = s.bytes
    ∧ s.address + s.bytes ≤ wordRange) (filledSlots blocks) plan.regions
  tables : ∀ b ∈ blocks, ∀ i, i + 1 < b.slots.length →
    ∃ word, b.tableWord? i = some word ∧ word.toNat = b.slots.bytesBefore (i + 1)

/-- Filled slots are within the range of words, and so are the offsets of all slots. -/
structure WithinWords (blocks : List Block) : Prop where
  regions : ∀ s ∈ filledSlots blocks, s.address < wordRange ∧ s.bytes < wordRange
    ∧ s.address + s.bytes ≤ wordRange
  tables : ∀ b ∈ blocks, ∀ i, i + 1 < b.slots.length → b.slots.bytesBefore (i + 1) < wordRange

section

variable {m : NodeMemory} {blocks : List Block} {plan : LoadPlan} {directory : String}

theorem exact_iff_withinWords (hslots : ∀ b ∈ blocks, b.slots = b.core.blockSlots m.header)
    (hregions : Forall₂ (FilledSlot.WrittenBy directory) (filledSlots blocks) plan.regions) :
    plan.Exact blocks ↔ WithinWords blocks := by
  have hrange : 0 < wordRange := by decide
  constructor
  · intro h
    refine ⟨fun s hs => ?_, fun b hb i hi => ?_⟩
    · obtain ⟨w, -, hbase, hsize, hend⟩ := exists_right_of_forall₂ h.regions hs
      exact ⟨hbase ▸ w.base.toNat_lt, hsize ▸ w.sizeBytes.toNat_lt, hend⟩
    · obtain ⟨word, -, hword⟩ := h.tables b hb i hi
      exact hword ▸ word.toNat_lt
  · intro h
    refine ⟨?_, fun b hb i hi => ?_⟩
    · refine (forall₂_and_mem hregions).imp fun s w ⟨hw, hs, _⟩ => ?_
      obtain ⟨haddress, hbytes, hend⟩ := h.regions s hs
      rw [hw.base, hw.sizeBytes, Nat.mod_eq_of_lt haddress, Nat.mod_eq_of_lt hbytes]
      exact ⟨rfl, rfl, hend⟩
    · obtain ⟨word, hget, hword⟩ := Block.exists_tableWord (hslots b hb) hi
      rw [Nat.mod_eq_of_lt (h.tables b hb i hi)] at hword
      exact ⟨word, hget, hword⟩

theorem NodeMemory.Stacked.withinWords (h : Stacked m blocks)
    (hrange : m.base.toNat + m.size < wordRange) : WithinWords blocks where
  regions s hs := by
    obtain ⟨hb, hslot⟩ := mem_filledSlots_iff.mp hs
    have hend := h.end_le hb
    have hle := bytesBefore_add_le hslot
    have hsize : slotBytes (some (.filled s.words)) = s.bytes := rfl
    unfold FilledSlot.address Block.slotAddress
    unfold Block.bytes at hend
    omega
  tables b hb i _ := by
    have hend := h.end_le hb
    have hle := b.slots.bytesBefore_le (i + 1)
    unfold Block.bytes at hend
    omega

end

/-- A plan tells of every filled slot its address and its size, and the pointer tables their offsets,
up to whole ranges of words. They are the true ones exactly where these are within the range of
words, and so on every node whose memory ends below the last address. -/
theorem NodeMemory.generate_exact_iff {m : NodeMemory} {cores : List PlacedCore}
    {register : RegisterMap} {directory : String} {t t' : FileTree} {plan : LoadPlan}
    (h : Succeeds (m.generate cores register directory) t plan t') :
    ∃ blocks, m.allocate cores = .ok blocks ∧ Layout m cores blocks
      ∧ plan.registers = blocks.map (fun b => b.registerWrite register)
      ∧ Forall₂ (FilledSlot.WrittenBy directory) (filledSlots blocks) plan.regions
      ∧ (∀ b ∈ blocks, ∀ i, i + 1 < b.slots.length →
        ∃ word, b.tableWord? i = some word
          ∧ word.toNat = b.slots.bytesBefore (i + 1) % wordRange)
      ∧ (plan.Exact blocks ↔ WithinWords blocks)
      ∧ (m.base.toNat + m.size < wordRange → plan.Exact blocks)
      ∧ (Distinct cores → ∀ s ∈ filledSlots blocks,
        ∃ bytes, t'.read? (s.path directory) = some bytes ∧ LittleEndian s.words bytes) := by
  obtain ⟨blocks, mid, hblocks, hregisters, hregions, hwritten⟩ := of_succeeds_generate h
  obtain ⟨hstacked, horder⟩ := stacked_of_allocate hblocks
  have hslots : ∀ b ∈ blocks, b.slots = b.core.blockSlots m.header := fun _ => hstacked.slots_eq
  have hwrites : Forall₂ (FilledSlot.WrittenBy directory) (filledSlots blocks) plan.regions := by
    rw [hregions, allFiles_eq, List.map_map, List.forall₂_map_right_iff, List.forall₂_same]
    exact fun s _ => s.writtenBy_file directory
  have hexact := exact_iff_withinWords hslots hwrites
  refine ⟨blocks, hblocks, hstacked.layout horder, hregisters, hwrites,
    fun b hb i hi => Block.exists_tableWord (hslots b hb) hi, hexact,
    fun hrange => hexact.mpr (hstacked.withinWords hrange), fun hdistinct s hs => ?_⟩
  have happart : Distinct (blocks.map Block.core) := (horder.perm.map _).nodup_iff.mpr hdistinct
  have hfile : s.file directory ∈ allFiles blocks directory := by
    rw [allFiles_eq]
    exact List.mem_map_of_mem hs
  have hread := read?_allFiles happart hwritten hfile
  exact ⟨(s.file directory).2, hread, littleEndian_bytes s.words⟩

namespace NodeMemory

theorem generate_exact_iff_threeCores : ∃ plan files blocks,
    Succeeds (hundredBytes.generate threeCores (fun _ _ p => p) "out") .empty plan files
      ∧ hundredBytes.allocate threeCores = .ok blocks
      ∧ Forall₂ (FilledSlot.WrittenBy "out") (filledSlots blocks) plan.regions
      ∧ plan.Exact blocks ∧ WithinWords blocks := by
  obtain ⟨plan, files, hgenerated⟩ :=
    exists_succeeds (isOk_generate_threeCores .empty (by simp) "out" (by simp))
  obtain ⟨blocks, hblocks, -, -, hwrites, -, hexact, hrange, -⟩ := generate_exact_iff hgenerated
  have hbelow := hrange (by decide)
  exact ⟨plan, files, blocks, hgenerated, hblocks, hwrites, hbelow, hexact.mp hbelow⟩

/-- Memory of which the last thirty-six bytes have no address. -/
def highNode : NodeMemory := ⟨100, 0xFFFFFFC0, .standard⟩

/-- A core whose block of fifty-two bytes starts sixteen bytes below the last address. -/
def eightWords : PlacedCore := ⟨0, 0, 0, [some (.filled [1, 2, 3, 4, 5, 6, 7, 8])], 1000⟩

theorem allocate_eightWords : highNode.allocate [eightWords]
    = .ok [⟨eightWords, eightWords.blockSlots .standard, 0xFFFFFFF0⟩] := by
  unfold allocate
  rw [List.mergeSort_singleton]
  rfl

/-- A block may start below the last address and end above it. -/
theorem not_forall_exact : ¬ ∀ (m : NodeMemory) (cores : List PlacedCore) (register : RegisterMap)
    (directory : String) (t t' : FileTree) (plan : LoadPlan) (blocks : List Block),
    Succeeds (m.generate cores register directory) t plan t' → m.allocate cores = .ok blocks →
    plan.Exact blocks := by
  intro hall
  have hok : (outcome (highNode.generate [eightWords] (fun _ _ p => p) "out") .empty).1.isOk
      = true := by
    unfold generate
    rw [allocate_eightWords]
    decide +kernel
  obtain ⟨plan, files, hgenerated⟩ := exists_succeeds hok
  have hexact := hall _ _ _ _ _ _ _ _ hgenerated allocate_eightWords
  have hslot : (⟨⟨eightWords, eightWords.blockSlots .standard, 0xFFFFFFF0⟩, 1,
      [1, 2, 3, 4, 5, 6, 7, 8]⟩ : FilledSlot) ∈ filledSlots
        [⟨eightWords, eightWords.blockSlots .standard, 0xFFFFFFF0⟩] :=
    mem_filledSlots_iff.mpr ⟨by simp, rfl⟩
  obtain ⟨w, -, -, -, hend⟩ := exists_right_of_forall₂ hexact.regions hslot
  exact absurd hend (by decide)

end NodeMemory

end Manycore
