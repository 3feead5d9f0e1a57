import Manycore.Proofs.Memory.Allocation
import Manycore.Proofs.Memory.SlotFiles
import Mathlib.Data.List.Nodup
import Mathlib.Data.List.Pairwise

/-! # Load plans and pointer tables

A running core finds its slots by the pointer table, and the loader puts them where the load plan
says. Both count from where the block of the core begins, and both come to the same addresses.
-/

namespace Manycore

open List (Forall₂)
open NodeMemory Stateful Slots

namespace Block

variable {b b' : Block} {directory : String} {i i' : Nat} {words words' : List UInt32}

/-- The address of a slot; the first slot is the pointer table. -/
def slotAddress (b : Block) (i : Nat) : Nat := b.base.toNat + b.slots.bytesBefore i

/-- The path of the file of a slot. -/
def path (b : Block) (directory : String) (i : Nat) : String :=
  joinPath directory (slotFileName b.core.x b.core.y b.core.p i)

/-- The file of a filled slot and its entry in the load plan. -/
def file (b : Block) (directory : String) (i : Nat) (words : List UInt32) :
    RegionWrite × List UInt8 :=
  slotFile b.core.x b.core.y b.core.p directory (b.base + UInt32.ofNat (b.slots.bytesBefore i)) i
    words

/-- The files of all filled slots. -/
def files (b : Block) (directory : String) : List (RegionWrite × List UInt8) :=
  slotFilesFrom b.core.x b.core.y b.core.p directory b.base 0 b.slots

theorem mem_files_iff {f : RegionWrite × List UInt8} : f ∈ b.files directory ↔
    ∃ i words, b.slots[i]? = some (some (.filled words)) ∧ f = b.file directory i words := by
  unfold files
  rw [mem_slotFilesFrom_iff]
  simp [file]

theorem path_inj : b.path directory i = b'.path directory i' ↔
    b.core.x = b'.core.x ∧ b.core.y = b'.core.y ∧ b.core.p = b'.core.p ∧ i = i' := by
  unfold path
  rw [joinPath_inj, slotFileName_inj]

end Block

/-- The addresses that a write fills. -/
def RegionWrite.Covers (w : RegionWrite) (address : Nat) : Prop :=
  w.base.toNat ≤ address ∧ address < w.base.toNat + w.sizeBytes.toNat

/-- Writes to one node have no address in common. -/
def RegionWrite.Apart (w w' : RegionWrite) : Prop := w.x = w'.x → w.y = w'.y →
  ∀ address, ¬ (w.Covers address ∧ w'.Covers address)

namespace Block

section

variable {b : Block} {directory : String} {i : Nat} {words : List UInt32}
  (hend : b.base.toNat + b.bytes ≤ wordRange) (hbytes : b.bytes < wordRange)
  (hslot : b.slots[i]? = some (some (.filled words)))
include hbytes hslot

theorem toNat_sizeBytes : (b.file directory i words).1.sizeBytes.toNat = 4 * words.length := by
  have hle := bytesBefore_add_le hslot
  have hsize : slotBytes (some (.filled words)) = 4 * words.length := rfl
  refine UInt32.toNat_ofNat_of_lt' (show slotBytes (some (.filled words)) < wordRange from ?_)
  unfold bytes at hbytes
  omega

include hend

theorem toNat_base (hwords : words ≠ []) :
    (b.file directory i words).1.base.toNat = b.slotAddress i := by
  have hle := bytesBefore_add_le hslot
  have hsize : slotBytes (some (.filled words)) = 4 * words.length := rfl
  have hpos := List.length_pos_iff.mpr hwords
  unfold bytes at hbytes hend
  have hoffset : b.slots.bytesBefore i < wordRange := by omega
  have haddress : b.base.toNat + b.slots.bytesBefore i < wordRange := by omega
  show (b.base + UInt32.ofNat (b.slots.bytesBefore i)).toNat = b.base.toNat + b.slots.bytesBefore i
  rw [UInt32.toNat_add, UInt32.toNat_ofNat_of_lt' hoffset]
  exact Nat.mod_eq_of_lt haddress

theorem covers_slot {address : Nat} (h : (b.file directory i words).1.Covers address) :
    b.slotAddress i ≤ address
      ∧ address < b.slotAddress i + slotBytes (some (.filled words)) := by
  obtain ⟨hge, hlt⟩ := h
  rw [toNat_sizeBytes hbytes hslot] at hlt
  have hwords : words ≠ [] := by
    rintro rfl
    rw [List.length_nil] at hlt
    omega
  rw [toNat_base hend hbytes hslot hwords] at hge hlt
  exact ⟨hge, hlt⟩

/-- Slots do not share addresses. -/
theorem index_eq_of_covers {i' : Nat} {words' : List UInt32} {address : Nat}
    (hslot' : b.slots[i']? = some (some (.filled words')))
    (h : (b.file directory i words).1.Covers address)
    (h' : (b.file directory i' words').1.Covers address) : i = i' := by
  obtain ⟨hge, hlt⟩ := covers_slot hend hbytes hslot h
  obtain ⟨hge', hlt'⟩ := covers_slot hend hbytes hslot' h'
  unfold slotAddress at hge hlt hge' hlt'
  rcases Nat.lt_trichotomy i i' with hbefore | hsame | hafter
  · have := bytesBefore_add_le_of_lt hslot hbefore
    omega
  · exact hsame
  · have := bytesBefore_add_le_of_lt hslot' hafter
    omega

theorem holds_of_covers {address : Nat} (h : (b.file directory i words).1.Covers address) :
    b.Holds address := by
  have hle := bytesBefore_add_le hslot
  obtain ⟨hge, hlt⟩ := covers_slot hend hbytes hslot h
  unfold slotAddress at hge hlt
  unfold Holds bytes
  omega

end

end Block

section

variable {t t' mid : FileTree} {directory : String} {blocks : List Block} {m : NodeMemory}
  {cores : List PlacedCore} {register : RegisterMap} {plan : LoadPlan}

/-- The files of all cores. -/
def allFiles (blocks : List Block) (directory : String) : List (RegionWrite × List UInt8) :=
  blocks.flatMap fun b => b.files directory

theorem mem_allFiles_iff {f : RegionWrite × List UInt8} : f ∈ allFiles blocks directory ↔
    ∃ b ∈ blocks, ∃ i words, b.slots[i]? = some (some (.filled words))
      ∧ f = b.file directory i words := by
  simp only [allFiles, List.mem_flatMap, Block.mem_files_iff]

theorem of_succeeds_writeBlocks {writes : List (List RegionWrite)}
    (h : Succeeds (blocks.mapM fun b => b.writeFiles directory) t writes t') :
    writes.flatten = (allFiles blocks directory).map Prod.fst
      ∧ t.writeAll? (contents (allFiles blocks directory)) = some t' := by
  induction blocks generalizing t writes with
  | nil =>
      obtain ⟨rfl, rfl⟩ := succeeds_mapM_nil_iff.mp h
      exact ⟨rfl, rfl⟩
  | cons b rest ih =>
      obtain ⟨here, mid, others, hhere, hothers, rfl⟩ := succeeds_mapM_cons_iff.mp h
      obtain ⟨rfl, hwrite⟩ := of_succeeds_writeSlotsFrom _ _ _ _ hhere
      obtain ⟨hflatten, hrest⟩ := ih hothers
      have hfiles : allFiles (b :: rest) directory
          = b.files directory ++ allFiles rest directory := List.flatMap_cons
      rw [hfiles, List.map_append, List.flatten_cons, hflatten, contents, List.map_append]
      exact ⟨rfl, FileTree.writeAll?_append hwrite hrest⟩

/-- What is planned is what is written, once every core has a block. -/
theorem of_succeeds_generate (h : Succeeds (m.generate cores register directory) t plan t') :
    ∃ blocks mid, m.allocate cores = .ok blocks
      ∧ plan.registers = blocks.map (fun b => b.registerWrite register)
      ∧ plan.regions = (allFiles blocks directory).map Prod.fst
      ∧ FileTree.writeAll? mid (contents (allFiles blocks directory)) = some t' := by
  simp only [generate, succeeds_bind_iff, succeeds_ofExcept_iff, succeeds_pure_iff] at h
  obtain ⟨blocks, _, ⟨hblocks, rfl⟩, _, mid, -, writes, _, hwrites, rfl, rfl⟩ := h
  obtain ⟨hflatten, hfiles⟩ := of_succeeds_writeBlocks hwrites
  exact ⟨blocks, mid, hblocks, rfl, hflatten, hfiles⟩

/-- No two cores have the same node and number. -/
def Distinct (cores : List PlacedCore) : Prop := (cores.map fun c => (c.x, c.y, c.p)).Nodup

theorem pairwise_allFiles (hdistinct : Distinct (blocks.map Block.core)) (directory : String) :
    (allFiles blocks directory).Pairwise fun a b => a.1.path ≠ b.1.path := by
  unfold Distinct at hdistinct
  rw [List.map_map] at hdistinct
  refine List.pairwise_flatMap.mpr ⟨fun b _ => pairwise_slotFilesFrom _ _ _, ?_⟩
  refine (List.pairwise_map.mp hdistinct).imp fun {b b'} hne f hf f' hf' hpath => hne ?_
  obtain ⟨i, words, -, rfl⟩ := Block.mem_files_iff.mp hf
  obtain ⟨i', words', -, rfl⟩ := Block.mem_files_iff.mp hf'
  obtain ⟨hx, hy, hp, -⟩ := Block.path_inj.mp hpath
  simp [hx, hy, hp]

/-- Files of slots that are in one place have one path. -/
theorem path_eq_of_locate? {b b' : Block} {i i' : Nat} {place : Place}
    (h : t.locate? (b.path directory i) = some place)
    (h' : t.locate? (b'.path directory i') = some place) :
    b.path directory i = b'.path directory i' := by
  unfold Block.path at h h' ⊢
  obtain ⟨here, hwalk, rfl⟩ := FileTree.locate?_joinPath (isFileName_slotFileName _ _ _ _) h
  obtain ⟨here', hwalk', heq⟩ := FileTree.locate?_joinPath (isFileName_slotFileName _ _ _ _) h'
  obtain rfl := Option.some.inj (hwalk.symm.trans hwalk')
  rw [List.singleton_inj.mp (List.append_cancel_left heq)]

theorem read?_allFiles (hdistinct : Distinct (blocks.map Block.core))
    (h : mid.writeAll? (contents (allFiles blocks directory)) = some t')
    {f : RegionWrite × List UInt8} (hf : f ∈ allFiles blocks directory) :
    t'.read? f.1.path = some f.2 := by
  have hmem : (f.1.path, f.2) ∈ contents (allFiles blocks directory) :=
    List.mem_map_of_mem (f := fun file => (file.1.path, file.2)) hf
  have hpairwise := (pairwise_allFiles hdistinct directory).imp_of_mem
    (S := fun a b => ∀ place, mid.locate? a.1.path = some place → mid.locate? b.1.path ≠ some place)
    fun {a a'} ha ha' hne place hplace hplace' => by
      obtain ⟨b, -, i, words, -, rfl⟩ := mem_allFiles_iff.mp ha
      obtain ⟨b', -, i', words', -, rfl⟩ := mem_allFiles_iff.mp ha'
      exact hne (path_eq_of_locate? hplace hplace')
  have hapart : (contents (allFiles blocks directory)).Pairwise fun a b =>
      ∀ place, mid.locate? a.1 = some place → mid.locate? b.1 ≠ some place :=
    List.pairwise_map.mpr hpairwise
  have hread := FileTree.read?_writeAll? h hapart hmem
  exact hread

end

/-- The bytes are those of the words, the lowest of every word first. -/
structure LittleEndian (words : List UInt32) (bytes : List UInt8) : Prop where
  length : bytes.length = 4 * words.length
  word : ∀ (k : Nat) (w : UInt32), words[k]? = some w → ∃ a b c d : UInt8,
    (bytes.drop (4 * k)).take 4 = [a, b, c, d]
      ∧ w.toNat = a.toNat + 256 * b.toNat + 65536 * c.toNat + 16777216 * d.toNat

theorem littleEndian_bytes (words : List UInt32) :
    LittleEndian words (Subregion.filled words).bytes where
  length := length_bytes words
  word k w hw := by
    obtain ⟨a, b, c, d, hbytes, hvalue⟩ := toNat_wordBytes w
    have hlength : ∀ w, (wordBytes w).length = 4 := fun _ => rfl
    exact ⟨a, b, c, d, (take_drop_flatMap hlength hw).trans hbytes, hvalue⟩

namespace LoadPlan

/-- The entries of a path. -/
def writesTo (plan : LoadPlan) (path : String) : List RegionWrite :=
  plan.regions.filter fun w => w.path = path

/-- A filled slot has one entry, which puts the words of the slot at its address. A slot of no words
at the very end of the memory has an address only up to the range of words. -/
structure Loads (plan : LoadPlan) (files : FileTree) (directory : String) (b : Block) (i : Nat)
    (words : List UInt32) : Prop where
  entry : ∃ w, plan.writesTo (b.path directory i) = [w]
    ∧ w.x = b.core.x ∧ w.y = b.core.y
    ∧ w.base = UInt32.ofNat (b.slotAddress i)
    ∧ (words ≠ [] → w.base.toNat = b.slotAddress i)
    ∧ w.sizeBytes.toNat = 4 * words.length
    ∧ (∃ bytes, files.read? w.path = some bytes ∧ LittleEndian words bytes)
    ∧ ∀ address, w.Covers address → b.Holds address

/-- What the plan and the pointer table say of a core. -/
structure Agrees (plan : LoadPlan) (files : FileTree) (directory : String)
    (register : RegisterMap) (b : Block) (r : RegisterWrite) : Prop where
  node : r.x = b.core.x ∧ r.y = b.core.y
  address : r.address = register b.core.x b.core.y b.core.p
  byteCount : r.byteCount = 4
  /-- The register takes the address to which the pointer table goes. -/
  value : (plan.writesTo (b.path directory 0)).map RegionWrite.base = [r.value]
  table : ∃ words, Loads plan files directory b 0 words ∧ ∀ i < b.core.slots.length,
    ∃ word, words[4 + i]? = some word ∧ r.value.toNat + word.toNat = b.slotAddress (i + 1)
  filled : ∀ i words, b.core.slots[i]? = some (some (.filled words)) →
    Loads plan files directory b (i + 1) words
  other : ∀ i slot, b.core.slots[i]? = some slot → (∀ words, slot ≠ some (.filled words)) →
    plan.writesTo (b.path directory (i + 1)) = []

section

variable {plan : LoadPlan} {t' mid : FileTree} {directory : String} {blocks : List Block}
  {m : NodeMemory} {cores : List PlacedCore} {b b' : Block} {i : Nat} {words : List UInt32}
  (hstacked : Stacked m blocks) (hrange : m.base.toNat + m.size ≤ wordRange)
  (hcountable : ∀ b ∈ blocks, b.bytes < wordRange)
  (hdistinct : Distinct (blocks.map Block.core))
  (hregions : plan.regions = (allFiles blocks directory).map Prod.fst)

include hregions in
theorem mem_regions_iff {w : RegionWrite} : w ∈ plan.regions ↔ ∃ b ∈ blocks, ∃ i words,
    b.slots[i]? = some (some (.filled words)) ∧ w = (b.file directory i words).1 := by
  rw [hregions, List.mem_map]
  constructor
  · rintro ⟨f, hf, rfl⟩
    obtain ⟨b, hb, i, words, hslot, rfl⟩ := mem_allFiles_iff.mp hf
    exact ⟨b, hb, i, words, hslot, rfl⟩
  · rintro ⟨b, hb, i, words, hslot, rfl⟩
    exact ⟨_, mem_allFiles_iff.mpr ⟨b, hb, i, words, hslot, rfl⟩, rfl⟩

include hdistinct

theorem eq_of_path_eq {i' : Nat} (hb : b ∈ blocks) (hb' : b' ∈ blocks)
    (h : b.path directory i = b'.path directory i') : b = b' ∧ i = i' := by
  unfold Distinct at hdistinct
  rw [List.map_map] at hdistinct
  obtain ⟨hx, hy, hp, hindex⟩ := Block.path_inj.mp h
  exact ⟨List.inj_on_of_nodup_map hdistinct hb hb' (by simp [hx, hy, hp]), hindex⟩

include hregions

theorem pairwise_regions : plan.regions.Pairwise fun w w' => w.path ≠ w'.path := by
  rw [hregions]
  exact List.pairwise_map.mpr (pairwise_allFiles hdistinct directory)

theorem writesTo_filled (hb : b ∈ blocks) (hslot : b.slots[i]? = some (some (.filled words))) :
    plan.writesTo (b.path directory i) = [(b.file directory i words).1] :=
  filter_eq_singleton (pairwise_regions hdistinct hregions)
    ((mem_regions_iff hregions).mpr ⟨b, hb, i, words, hslot, rfl⟩)

theorem writesTo_other {slot : Option Subregion} (hb : b ∈ blocks) (hslot : b.slots[i]? = some slot)
    (hother : ∀ words, slot ≠ some (.filled words)) : plan.writesTo (b.path directory i) = [] := by
  refine List.filter_eq_nil_iff.mpr fun w hw hpath => ?_
  obtain ⟨b', hb', i', words, hslot', rfl⟩ := (mem_regions_iff hregions).mp hw
  obtain ⟨rfl, rfl⟩ := eq_of_path_eq hdistinct hb' hb (of_decide_eq_true hpath)
  exact hother words (Option.some.inj (hslot.symm.trans hslot'))

include hstacked hrange hcountable

theorem loads (hwritten : mid.writeAll? (contents (allFiles blocks directory)) = some t')
    (hb : b ∈ blocks) (hslot : b.slots[i]? = some (some (.filled words))) :
    Loads plan t' directory b i words := by
  have hend := Nat.le_trans (hstacked.end_le hb) hrange
  have hbytes := hcountable b hb
  have hfile : b.file directory i words ∈ allFiles blocks directory :=
    mem_allFiles_iff.mpr ⟨b, hb, i, words, hslot, rfl⟩
  have hread := read?_allFiles hdistinct hwritten hfile
  refine ⟨(b.file directory i words).1, writesTo_filled hdistinct hregions hb hslot, rfl, rfl, ?_,
    Block.toNat_base hend hbytes hslot, Block.toNat_sizeBytes hbytes hslot,
    ⟨_, hread, littleEndian_bytes words⟩, fun _ => Block.holds_of_covers hend hbytes hslot⟩
  show b.base + UInt32.ofNat (b.slots.bytesBefore i) = UInt32.ofNat (b.slotAddress i)
  rw [Block.slotAddress, UInt32.ofNat_add, UInt32.ofNat_toNat]

theorem disjoint_regions : plan.regions.Pairwise RegionWrite.Apart := by
  refine (pairwise_regions hdistinct hregions).imp_of_mem ?_
  rintro w w' hw hw' hne hx hy address ⟨hcovers, hcovers'⟩
  obtain ⟨b, hb, i, words, hslot, rfl⟩ := (mem_regions_iff hregions).mp hw
  obtain ⟨b', hb', i', words', hslot', rfl⟩ := (mem_regions_iff hregions).mp hw'
  have hend := Nat.le_trans (hstacked.end_le hb) hrange
  have hend' := Nat.le_trans (hstacked.end_le hb') hrange
  by_cases hsame : b = b'
  · subst hsame
    obtain rfl := Block.index_eq_of_covers hend (hcountable b hb) hslot hslot' hcovers hcovers'
    exact hne rfl
  · have hholds := Block.holds_of_covers hend (hcountable b hb) hslot hcovers
    have hholds' := Block.holds_of_covers hend' (hcountable b' hb') hslot' hcovers'
    exact hstacked.disjoint.forall hb hb' hsame hx hy address ⟨hholds, hholds'⟩

theorem agrees {register : RegisterMap}
    (hwritten : mid.writeAll? (contents (allFiles blocks directory)) = some t') (hb : b ∈ blocks) :
    Agrees plan t' directory register b (b.registerWrite register) := by
  have hslots := hstacked.slots_eq hb
  have hcore (i : Nat) : b.slots[i + 1]? = b.core.slots[i]? := by rw [hslots]; rfl
  have htable : b.slots[0]? = some (some (.filled
      (b.core.slots.tableWords m.header b.core.timerPeriod))) := by rw [hslots]; rfl
  have hsize : b.core.slots.tableBytes + b.core.slots.totalBytes < wordRange := by
    have := hcountable b hb
    rwa [hstacked.bytes_eq hb] at this
  refine ⟨⟨rfl, rfl⟩, rfl, rfl, ?_, ?_, fun i words hslot => ?_, fun i slot hslot hother => ?_⟩
  · rw [writesTo_filled hdistinct hregions hb htable]
    show [b.base + UInt32.ofNat (b.slots.bytesBefore 0)] = [b.base]
    simp
  · refine ⟨_, loads hstacked hrange hcountable hdistinct hregions hwritten hb htable,
      fun i hi => ?_⟩
    obtain ⟨word, hword, hvalue⟩ := exists_tableWord hsize m.header b.core.timerPeriod hi
    refine ⟨word, hword, ?_⟩
    show b.base.toNat + word.toNat = b.base.toNat + b.slots.bytesBefore (i + 1)
    rw [hvalue, hslots, PlacedCore.blockSlots, bytesBefore_cons_succ, slotBytes_pointerTable]
  · exact loads hstacked hrange hcountable hdistinct hregions hwritten hb (hcore i ▸ hslot)
  · exact writesTo_other hdistinct hregions hb (hcore i ▸ hslot) hother

end

end LoadPlan

/-- What is generated puts every slot where the pointer table of its core says it is. -/
theorem NodeMemory.generate_agrees {m : NodeMemory} {cores : List PlacedCore}
    {register : RegisterMap} {directory : String} {t t' : FileTree} {plan : LoadPlan}
    (hrange : m.base.toNat + m.size ≤ wordRange) (hdistinct : Distinct cores)
    (hcountable : ∀ c ∈ cores, c.blockBytes < wordRange)
    (hgenerated : Succeeds (m.generate cores register directory) t plan t') :
    ∃ blocks, m.allocate cores = .ok blocks ∧ Layout m cores blocks
      ∧ Forall₂ (LoadPlan.Agrees plan t' directory register) blocks plan.registers
      ∧ plan.regions.Pairwise RegionWrite.Apart
      ∧ (plan.regions.map RegionWrite.path).Nodup
      ∧ ∀ w ∈ plan.regions, ∃ b ∈ blocks, ∃ i words,
        b.slots[i]? = some (some (.filled words)) ∧ w.path = b.path directory i := by
  obtain ⟨blocks, mid, hblocks, hregisters, hregions, hwritten⟩ := of_succeeds_generate hgenerated
  obtain ⟨hstacked, horder⟩ := stacked_of_allocate hblocks
  have hbytes : ∀ b ∈ blocks, b.bytes < wordRange := by
    intro b hb
    rw [hstacked.bytes_eq hb]
    exact hcountable _ (horder.perm.mem_iff.mp (List.mem_map_of_mem hb))
  have happart : Distinct (blocks.map Block.core) := (horder.perm.map _).nodup_iff.mpr hdistinct
  refine ⟨blocks, hblocks, hstacked.layout horder, ?_,
    LoadPlan.disjoint_regions hstacked hrange hbytes happart hregions, ?_, fun w hw => ?_⟩
  · rw [hregisters, List.forall₂_map_right_iff, List.forall₂_same]
    exact fun b => LoadPlan.agrees hstacked hrange hbytes happart hregions hwritten
  · exact List.pairwise_map.mpr (LoadPlan.pairwise_regions happart hregions)
  · obtain ⟨b, hb, i, words, hslot, rfl⟩ := (LoadPlan.mem_regions_iff hregions).mp hw
    exact ⟨b, hb, i, words, hslot, rfl⟩

namespace NodeMemory

theorem mergeSort_threeCores : threeCores.mergeSort PlacedCore.precedes =
    [⟨0, 0, 0, [some (.filled [7])], 1000⟩,
      ⟨0, 0, 1, [some (.filled [1, 2]), none, some (.reserved 3)], 1000⟩, ⟨1, 0, 0, [], 1000⟩] := by
  simp [threeCores, List.mergeSort, List.MergeSort.Internal.splitInTwo, PlacedCore.precedes]

theorem distinct_threeCores : Distinct threeCores := by
  unfold Distinct
  decide

/-- The directories around a working directory that is not the root. -/
def atWork : FileTree := { FileTree.empty with here := ["home", "work"] }

theorem isOk_generate_threeCores : ∀ t ∈ [FileTree.empty, atWork],
    ∀ directory ∈ ["out", "../out", "/srv/images/out"],
      (outcome (hundredBytes.generate threeCores (fun _ _ p => p) directory) t).1.isOk = true := by
  unfold generate allocate
  rw [mergeSort_threeCores]
  decide +kernel

/-- The files may go below the working directory, beside it, or to a path from the root. -/
theorem generate_agrees_threeCores : hundredBytes.base.toNat + hundredBytes.size ≤ wordRange
    ∧ Distinct threeCores ∧ (∀ c ∈ threeCores, c.blockBytes < wordRange)
    ∧ ∀ directory ∈ ["out", "../out", "/srv/images/out"], ∃ plan files,
      Succeeds (hundredBytes.generate threeCores (fun _ _ p => p) directory) atWork plan files
      ∧ ∃ blocks, hundredBytes.allocate threeCores = .ok blocks
        ∧ Forall₂ (LoadPlan.Agrees plan files directory fun _ _ p => p) blocks plan.registers
        ∧ plan.regions.Pairwise RegionWrite.Apart
        ∧ (plan.regions.map RegionWrite.path).Nodup := by
  have hrange : hundredBytes.base.toNat + hundredBytes.size ≤ wordRange := by decide
  have hcountable : ∀ c ∈ threeCores, c.blockBytes < wordRange := by decide
  refine ⟨hrange, distinct_threeCores, hcountable, fun directory hdirectory => ?_⟩
  obtain ⟨plan, files, hgenerated⟩ :=
    exists_succeeds (isOk_generate_threeCores atWork (by simp) directory hdirectory)
  obtain ⟨blocks, hblocks, -, hagrees, happart, hpaths, -⟩ :=
    generate_agrees hrange distinct_threeCores hcountable hgenerated
  exact ⟨plan, files, hgenerated, blocks, hblocks, hagrees, happart, hpaths⟩

end NodeMemory

end Manycore
