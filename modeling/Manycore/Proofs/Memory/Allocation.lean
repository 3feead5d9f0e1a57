import Manycore.Memory.Allocation
import Manycore.Proofs.Memory.PointerTable
import Manycore.Proofs.Results
import Mathlib.Data.List.Basic

/-! # What allocation gives out

Cores are taken in order, node by node, and every node's memory is given out from its top. A block
ends where the block before it on the same node begins, so the sizes of the blocks alone tell
whether there is room, and where each block is.
-/

namespace Manycore

theorem total_perm {ns ms : List Nat} (h : ns.Perm ms) : total ns = total ms := by
  induction h with
  | nil => rfl
  | cons n _ ih => simp [ih]
  | swap n m rest => simp [Nat.add_left_comm]
  | trans _ _ ih ih' => rw [ih, ih']

namespace PlacedCore

variable {a b c : PlacedCore} {cores sorted : List PlacedCore} {x y p : UInt32}

/-- The bytes of a core's block: its pointer table and its slots. -/
def blockBytes (c : PlacedCore) : Nat := c.slots.tableBytes + c.slots.totalBytes

@[simp] theorem totalBytes_blockSlots (c : PlacedCore) (header : TableHeader) :
    (c.blockSlots header).totalBytes = c.blockBytes := by
  simp [blockSlots, blockBytes]

theorem blockBytes_pos (c : PlacedCore) : 0 < c.blockBytes := by
  unfold blockBytes Slots.tableBytes
  omega

def isOn (x y : UInt32) (c : PlacedCore) : Bool := c.x = x ∧ c.y = y

def isAt (x y p : UInt32) (c : PlacedCore) : Bool := c.x = x ∧ c.y = y ∧ c.p = p

theorem isOn_self (c : PlacedCore) : c.isOn c.x c.y = true := decide_eq_true ⟨rfl, rfl⟩

theorem isAt_self (c : PlacedCore) : isAt c.x c.y c.p c = true := decide_eq_true ⟨rfl, rfl, rfl⟩

/-- The bytes that cores take of a node. -/
def nodeBytes (cores : List PlacedCore) (x y : UInt32) : Nat :=
  total ((cores.filter (isOn x y)).map blockBytes)

theorem nodeBytes_cons (c : PlacedCore) (cores : List PlacedCore) (x y : UInt32) :
    nodeBytes (c :: cores) x y
      = (if isOn x y c then c.blockBytes else 0) + nodeBytes cores x y := by
  unfold nodeBytes
  cases h : isOn x y c <;> simp [h]

theorem nodeBytes_append (cores cores' : List PlacedCore) (x y : UInt32) :
    nodeBytes (cores ++ cores') x y = nodeBytes cores x y + nodeBytes cores' x y := by
  unfold nodeBytes
  rw [List.filter_append, List.map_append, total_append]

theorem nodeBytes_perm (h : sorted.Perm cores) (x y : UInt32) :
    nodeBytes sorted x y = nodeBytes cores x y :=
  total_perm ((h.filter _).map _)

theorem nodeBytes_le (cores : List PlacedCore) (x y : UInt32) :
    nodeBytes cores x y ≤ total (cores.map blockBytes) := by
  induction cores with
  | nil => exact Nat.le_refl _
  | cons c rest ih =>
      rw [nodeBytes_cons, List.map_cons, total_cons]
      split <;> omega

theorem precedes_iff :
    precedes a b = true ↔ a.x < b.x ∨ a.x = b.x ∧ (a.y < b.y ∨ a.y = b.y ∧ a.p ≤ b.p) := by
  unfold precedes
  split
  · rename_i hx
    split <;> simp_all
  · rename_i hx
    simp [hx]

theorem precedes_trans (a b c : PlacedCore) (hab : precedes a b = true)
    (hbc : precedes b c = true) : precedes a c = true := by
  rw [precedes_iff] at *
  grind

theorem precedes_total (a b : PlacedCore) : (precedes a b || precedes b a) = true := by
  rw [Bool.or_eq_true, precedes_iff, precedes_iff]
  grind

theorem isAt_of_precedes (hab : precedes a b = true) (hba : precedes b a = true) :
    isAt a.x a.y a.p b = true := by
  rw [precedes_iff] at hab hba
  refine decide_eq_true ?_
  grind

/-- The cores by node and number, and those of one number as they were given. -/
structure InOrder (cores sorted : List PlacedCore) : Prop where
  perm : sorted.Perm cores
  ascending : sorted.Pairwise fun a b =>
    a.x < b.x ∨ a.x = b.x ∧ (a.y < b.y ∨ a.y = b.y ∧ a.p ≤ b.p)
  ties : ∀ x y p, sorted.filter (isAt x y p) = cores.filter (isAt x y p)

theorem inOrder_mergeSort (cores : List PlacedCore) :
    InOrder cores (cores.mergeSort precedes) := by
  have hperm := List.mergeSort_perm cores precedes
  refine ⟨hperm, ?_, fun x y p => ?_⟩
  · exact (List.pairwise_mergeSort precedes_trans precedes_total cores).imp
      precedes_iff.mp
  · -- The cores of one number are in order already, so sorting keeps them as they are.
    have hequal : (cores.filter (isAt x y p)).Pairwise fun a b => precedes a b = true := by
      rw [List.pairwise_filter]
      refine List.pairwise_of_forall fun a b ha hb => precedes_iff.mpr ?_
      simp only [isAt, decide_eq_true_eq] at ha hb
      grind
    have hsublist := (List.sublist_mergeSort precedes_trans precedes_total hequal
      List.filter_sublist).filter (isAt x y p)
    rw [List.filter_filter] at hsublist
    simp only [Bool.and_self] at hsublist
    exact (hsublist.eq_of_length (hperm.filter _).length_eq.symm).symm

end PlacedCore

namespace Block

def bytes (b : Block) : Nat := b.slots.totalBytes

def isOn (x y : UInt32) (b : Block) : Bool := b.core.isOn x y

def onNode (blocks : List Block) (x y : UInt32) : List Block := blocks.filter (isOn x y)

/-- The bytes that blocks take of a node. -/
def usedBytes (blocks : List Block) (x y : UInt32) : Nat := total ((onNode blocks x y).map bytes)

/-- The address is one of the block's. -/
def Holds (b : Block) (address : Nat) : Prop :=
  b.base.toNat ≤ address ∧ address < b.base.toNat + b.bytes

/-- Blocks of one node have no address in common. -/
def Apart (b b' : Block) : Prop := b.core.x = b'.core.x → b.core.y = b'.core.y →
  ∀ address, ¬ (b.Holds address ∧ b'.Holds address)

instance : Std.Symm Apart where
  symm _ _ h hx hy address hboth := h hx.symm hy.symm address hboth.symm

end Block

namespace NodeMemory

open PlacedCore Block

variable {m : NodeMemory} {blocks blocks' : List Block} {c : PlacedCore} {cores : List PlacedCore}
  {b : Block} {x y : UInt32}

theorem free_eq (m : NodeMemory) (blocks : List Block) (x y : UInt32) :
    m.free blocks x y = m.size - usedBytes blocks x y := rfl

theorem onNode_append (blocks : List Block) (b : Block) (x y : UInt32) :
    onNode (blocks ++ [b]) x y = onNode blocks x y ++ if b.isOn x y then [b] else [] := by
  unfold onNode
  rw [List.filter_append]
  cases h : b.isOn x y <;> simp [h]

theorem usedBytes_append (blocks : List Block) (b : Block) (x y : UInt32) :
    usedBytes (blocks ++ [b]) x y = usedBytes blocks x y + if b.isOn x y then b.bytes else 0 := by
  unfold usedBytes
  rw [onNode_append, List.map_append, total_append]
  cases h : b.isOn x y <;> simp

theorem place_eq_ok_iff : m.place blocks c = .ok b ↔
    c.slots.hasTable = true ∧ c.blockBytes ≤ maxCount
      ∧ usedBytes blocks c.x c.y + c.blockBytes ≤ m.size
      ∧ ∃ address < wordRange, address + (usedBytes blocks c.x c.y + c.blockBytes)
          = m.base.toNat + m.size ∧ b = ⟨c, c.blockSlots m.header, UInt32.ofNat address⟩ := by
  have hpos := c.blockBytes_pos
  simp only [place, totalBytes_blockSlots, free_eq]
  split
  · rename_i hrefused
    grind
  rename_i hcounted
  split
  · grind
  split
  · rename_i hwithin
    rw [Except.ok.injEq]
    constructor
    · rintro rfl
      exact ⟨by grind, by grind, by omega, _, hwithin, by omega, rfl⟩
    · rintro ⟨-, -, hfit, address, haddress, hsum, rfl⟩
      rw [show m.size - usedBytes blocks c.x c.y - c.blockBytes + m.base.toNat = address by omega]
  · grind

theorem place_eq_insufficient (hcountable : c.blockBytes < wordRange)
    (hfull : m.size < usedBytes blocks c.x c.y + c.blockBytes) : m.place blocks c =
      .error (.insufficient c.blockBytes (m.size - usedBytes blocks c.x c.y)) := by
  have htable : c.slots.hasTable = true := Slots.hasTable_of_lt hcountable
  have hcount : wordRange ≤ maxCount := by decide
  have hpos := c.blockBytes_pos
  simp only [place, totalBytes_blockSlots, free_eq, htable]
  rw [if_neg (by simp; omega), if_pos (by omega)]

/-- Each block ends where the blocks before it on its node begin. -/
inductive Stacked (m : NodeMemory) : List Block → Prop
  | nothing : Stacked m []
  | next {blocks : List Block} {b : Block} (before : Stacked m blocks)
      (slots : b.slots = b.core.blockSlots m.header)
      (fits : usedBytes blocks b.core.x b.core.y + b.bytes ≤ m.size)
      (start : b.base.toNat + (usedBytes blocks b.core.x b.core.y + b.bytes)
        = m.base.toNat + m.size) : Stacked m (blocks ++ [b])

theorem Stacked.place (h : Stacked m blocks) (hplace : m.place blocks c = .ok b) :
    Stacked m (blocks ++ [b]) ∧ b.core = c := by
  obtain ⟨-, -, hfits, address, haddress, hstart, rfl⟩ := place_eq_ok_iff.mp hplace
  refine ⟨h.next rfl ?_ ?_, rfl⟩
  · simpa [bytes] using hfits
  · simpa [bytes, UInt32.toNat_ofNat_of_lt' haddress] using hstart

theorem Stacked.placeAll (h : Stacked m blocks) (hall : m.placeAll blocks cores = .ok blocks') :
    Stacked m blocks' ∧ blocks'.map Block.core = blocks.map Block.core ++ cores := by
  induction cores generalizing blocks with
  | nil =>
      cases hall
      exact ⟨h, by simp⟩
  | cons c rest ih =>
      obtain ⟨b, hplace, hrest⟩ := bind_eq_ok_iff.mp hall
      obtain ⟨hnext, rfl⟩ := h.place hplace
      obtain ⟨hstacked, hcores⟩ := ih hnext hrest
      exact ⟨hstacked, by simpa using hcores⟩

theorem Stacked.slots_eq (h : Stacked m blocks) (hb : b ∈ blocks) :
    b.slots = b.core.blockSlots m.header := by
  induction h with
  | nothing => cases hb
  | next _ hslots _ _ ih =>
      rcases List.mem_append.mp hb with hb | hb
      · exact ih hb
      · rw [List.mem_singleton.mp hb, hslots]

theorem Stacked.start_eq (h : Stacked m blocks) {k : Nat}
    (hget : (onNode blocks x y)[k]? = some b) :
    b.base.toNat + total (((onNode blocks x y).take (k + 1)).map bytes)
      = m.base.toNat + m.size := by
  induction h with
  | nothing => cases hget
  | @next blocks newest _ _ _ hstart ih =>
      rw [onNode_append] at hget ⊢
      rcases Nat.lt_or_ge k (onNode blocks x y).length with hlt | hge
      · rw [List.getElem?_append_left hlt] at hget
        rw [List.take_append_of_le_length hlt]
        exact ih hget
      · rw [List.getElem?_append_right hge] at hget
        cases hon : newest.isOn x y with
        | false =>
            rw [hon] at hget
            cases hget
        | true =>
            obtain ⟨rfl, rfl⟩ := of_decide_eq_true hon
            rw [hon, if_pos rfl] at hget
            obtain rfl := List.mem_singleton.mp (List.mem_of_getElem? hget)
            rw [if_pos rfl, List.take_of_length_le (by simp; omega), List.map_append, total_append]
            simpa [usedBytes] using hstart

theorem Stacked.bytes_eq (h : Stacked m blocks) (hb : b ∈ blocks) :
    b.bytes = b.core.blockBytes := by
  unfold bytes
  rw [h.slots_eq hb, totalBytes_blockSlots]

theorem Stacked.usedBytes_eq (h : Stacked m blocks) (x y : UInt32) :
    usedBytes blocks x y = nodeBytes (blocks.map Block.core) x y := by
  unfold usedBytes onNode nodeBytes
  rw [List.filter_map, List.map_map]
  exact congrArg total (List.map_congr_left fun b hb => h.bytes_eq (List.mem_of_mem_filter hb))

theorem Stacked.usedBytes_le (h : Stacked m blocks) (x y : UInt32) :
    usedBytes blocks x y ≤ m.size := by
  induction h with
  | nothing => exact Nat.zero_le _
  | next _ _ hfits _ ih =>
      rw [usedBytes_append]
      split
      · rename_i hon
        obtain ⟨rfl, rfl⟩ := of_decide_eq_true hon
        exact hfits
      · exact ih

theorem Stacked.le_base (h : Stacked m blocks) (hb : b ∈ blocks) (hon : b.isOn x y = true) :
    m.base.toNat + m.size ≤ b.base.toNat + usedBytes blocks x y := by
  induction h with
  | nothing => cases hb
  | next _ _ _ hstart ih =>
      rw [usedBytes_append]
      rcases List.mem_append.mp hb with hb | hb
      · have := ih hb
        omega
      · obtain rfl := List.mem_singleton.mp hb
        obtain ⟨rfl, rfl⟩ := of_decide_eq_true hon
        rw [if_pos hon]
        omega

theorem Stacked.disjoint (h : Stacked m blocks) : blocks.Pairwise Apart := by
  induction h with
  | nothing => exact List.Pairwise.nil
  | @next blocks newest before _ _ hstart ih =>
      refine List.pairwise_append.mpr ⟨ih, List.pairwise_singleton _ _, fun b hb b' hb' => ?_⟩
      obtain rfl := List.mem_singleton.mp hb'
      intro hx hy address hboth
      obtain ⟨⟨hge, -⟩, -, hlt⟩ := hboth
      have hbase := before.le_base hb (decide_eq_true ⟨hx, hy⟩)
      omega

theorem Stacked.inside (h : Stacked m blocks) (hb : b ∈ blocks) {address : Nat}
    (hholds : b.Holds address) : m.base.toNat ≤ address ∧ address < m.base.toNat + m.size := by
  induction h with
  | nothing => cases hb
  | next _ _ hfits hstart ih =>
      rcases List.mem_append.mp hb with hb | hb
      · exact ih hb
      · obtain rfl := List.mem_singleton.mp hb
        obtain ⟨hge, hlt⟩ := hholds
        omega

theorem Stacked.end_le (h : Stacked m blocks) (hb : b ∈ blocks) :
    b.base.toNat + b.bytes ≤ m.base.toNat + m.size := by
  induction h with
  | nothing => cases hb
  | next _ _ _ hstart ih =>
      rcases List.mem_append.mp hb with hb | hb
      · exact ih hb
      · obtain rfl := List.mem_singleton.mp hb
        omega

/-- No address between the lowest block and the top of a node is left out. -/
theorem Stacked.filled (h : Stacked m blocks) {address : Nat}
    (hge : m.base.toNat + m.size ≤ address + usedBytes blocks x y)
    (hlt : address < m.base.toNat + m.size) :
    ∃ b ∈ blocks, b.isOn x y = true ∧ b.Holds address := by
  induction h with
  | nothing =>
      simp only [usedBytes, onNode, List.filter_nil, List.map_nil, total_nil] at hge
      omega
  | @next blocks newest _ _ _ hstart ih =>
      rw [usedBytes_append] at hge
      by_cases hused : m.base.toNat + m.size ≤ address + usedBytes blocks x y
      · obtain ⟨b, hb, hon, hholds⟩ := ih hused
        exact ⟨b, List.mem_append_left _ hb, hon, hholds⟩
      · cases hon : newest.isOn x y with
        | false =>
            simp only [hon, Bool.false_eq_true, if_false, Nat.add_zero] at hge
            omega
        | true =>
            obtain ⟨rfl, rfl⟩ := of_decide_eq_true hon
            rw [hon, if_pos rfl] at hge
            refine ⟨newest, by simp, hon, ?_, ?_⟩ <;> omega

/-- The first core for which there is no room left on its node. -/
inductive Refused (m : NodeMemory) (cores : List PlacedCore) : MemoryError → Prop
  | intro (before : List PlacedCore) (c : PlacedCore) (after : List PlacedCore)
      (split : cores = before ++ c :: after)
      (room : ∀ x y, nodeBytes before x y ≤ m.size)
      (full : m.size < nodeBytes before c.x c.y + c.blockBytes) :
      Refused m cores (.insufficient c.blockBytes (m.size - nodeBytes before c.x c.y))

theorem Refused.not_room {e : MemoryError} (h : Refused m cores e) :
    ¬ ∀ x y, nodeBytes cores x y ≤ m.size := by
  cases h with
  | intro before c after hsplit _ hfull =>
      intro hroom
      have := hroom c.x c.y
      rw [hsplit, nodeBytes_append, nodeBytes_cons, if_pos c.isOn_self] at this
      omega

section

variable (hrange : m.base.toNat + m.size ≤ wordRange)
include hrange

theorem exists_place (hcountable : c.blockBytes < wordRange)
    (hfits : usedBytes blocks c.x c.y + c.blockBytes ≤ m.size) :
    ∃ b, m.place blocks c = .ok b := by
  have hcount : wordRange ≤ maxCount := by decide
  have hpos := c.blockBytes_pos
  refine ⟨_, place_eq_ok_iff.mpr ⟨Slots.hasTable_of_lt hcountable, by omega, hfits,
    m.base.toNat + m.size - (usedBytes blocks c.x c.y + c.blockBytes), by omega, by omega, rfl⟩⟩

/-- Either all cores have room and are placed, or the first that has none is told. -/
theorem Stacked.placeAll_cases (h : Stacked m blocks)
    (hcountable : ∀ c ∈ cores, c.blockBytes < wordRange) :
    (∃ blocks', m.placeAll blocks cores = .ok blocks'
      ∧ ∀ x y, nodeBytes (blocks.map Block.core ++ cores) x y ≤ m.size)
    ∨ ∃ e, m.placeAll blocks cores = .error e
      ∧ Refused m (blocks.map Block.core ++ cores) e := by
  induction cores generalizing blocks with
  | nil =>
      refine .inl ⟨blocks, rfl, fun x y => ?_⟩
      rw [List.append_nil, ← h.usedBytes_eq]
      exact h.usedBytes_le x y
  | cons c rest ih =>
      obtain ⟨hc, hrest⟩ := List.forall_mem_cons.mp hcountable
      rcases Nat.lt_or_ge m.size (usedBytes blocks c.x c.y + c.blockBytes) with hfull | hfits
      · have hplace := place_eq_insufficient hc hfull
        have hroom (x y : UInt32) : nodeBytes (blocks.map Block.core) x y ≤ m.size := by
          rw [← h.usedBytes_eq]
          exact h.usedBytes_le x y
        rw [h.usedBytes_eq] at hfull hplace
        exact .inr ⟨_, by rw [NodeMemory.placeAll, hplace]; rfl, .intro _ c rest rfl hroom hfull⟩
      · obtain ⟨b, hplace⟩ := exists_place hrange hc hfits
        obtain ⟨hnext, rfl⟩ := h.place hplace
        have hall : m.placeAll blocks (b.core :: rest) = m.placeAll (blocks ++ [b]) rest := by
          rw [NodeMemory.placeAll, hplace]
          rfl
        rw [hall, List.append_cons]
        simpa using ih hnext hrest

end

/-- Where the blocks of a layout are. -/
structure Layout (m : NodeMemory) (cores : List PlacedCore) (blocks : List Block) : Prop where
  order : InOrder cores (blocks.map Block.core)
  slots : ∀ b ∈ blocks, b.slots = b.core.blockSlots m.header
  /-- Blocks are counted from the top of their node. -/
  start : ∀ x y k b, (onNode blocks x y)[k]? = some b → b.base.toNat
    + total (((onNode blocks x y).take (k + 1)).map fun b => b.core.blockBytes)
      = m.base.toNat + m.size
  disjoint : blocks.Pairwise Apart
  inside : ∀ b ∈ blocks, ∀ address, b.Holds address →
    m.base.toNat ≤ address ∧ address < m.base.toNat + m.size
  /-- From a block up to the top of its node, every address belongs to some block. -/
  filled : ∀ b ∈ blocks, ∀ address, b.base.toNat ≤ address →
    address < m.base.toNat + m.size → ∃ b' ∈ onNode blocks b.core.x b.core.y, b'.Holds address

theorem Stacked.layout (h : Stacked m blocks) (horder : InOrder cores (blocks.map Block.core)) :
    Layout m cores blocks where
  order := horder
  slots _ := h.slots_eq
  start x y k b hget := by
    have hbytes : ∀ b ∈ (onNode blocks x y).take (k + 1), b.core.blockBytes = b.bytes :=
      fun b hb => (h.bytes_eq (List.mem_of_mem_filter (List.mem_of_mem_take hb))).symm
    rw [List.map_congr_left hbytes]
    exact h.start_eq hget
  disjoint := h.disjoint
  inside _ hb _ := h.inside hb
  filled b hb address hge hlt := by
    have hbase := h.le_base hb b.core.isOn_self
    obtain ⟨b', hb', hon, hholds⟩ := h.filled (x := b.core.x) (y := b.core.y) (by omega) hlt
    exact ⟨b', List.mem_filter.mpr ⟨hb', hon⟩, hholds⟩

theorem stacked_of_allocate (h : m.allocate cores = .ok blocks) :
    Stacked m blocks ∧ InOrder cores (blocks.map Block.core) := by
  obtain ⟨hstacked, hcores⟩ := Stacked.nothing.placeAll h
  rw [List.map_nil, List.nil_append] at hcores
  exact ⟨hstacked, hcores ▸ inOrder_mergeSort cores⟩

theorem allocate_cases (hrange : m.base.toNat + m.size ≤ wordRange)
    (hcountable : ∀ c ∈ cores, c.blockBytes < wordRange) :
    (∃ blocks, m.allocate cores = .ok blocks ∧ ∀ x y, nodeBytes cores x y ≤ m.size)
    ∨ ∃ e sorted, m.allocate cores = .error e ∧ InOrder cores sorted ∧ Refused m sorted e
      ∧ ¬ ∀ x y, nodeBytes cores x y ≤ m.size := by
  have horder := inOrder_mergeSort cores
  have hsorted : ∀ c ∈ cores.mergeSort precedes, c.blockBytes < wordRange :=
    fun c hc => hcountable c (horder.perm.mem_iff.mp hc)
  have hcases := Stacked.nothing.placeAll_cases hrange hsorted
  simp only [List.map_nil, List.nil_append, nodeBytes_perm horder.perm] at hcases
  refine hcases.imp_right ?_
  rintro ⟨e, herror, hrefused⟩
  have hfull := hrefused.not_room
  simp only [nodeBytes_perm horder.perm] at hfull
  exact ⟨e, _, herror, horder, hrefused, hfull⟩

/-- Allocation succeeds exactly when no node gets more bytes than it has; otherwise it names the
first core without room. Blocks lie on their nodes from the top, one right below the other. -/
theorem allocate_stacks (hrange : m.base.toNat + m.size ≤ wordRange)
    (hcountable : ∀ c ∈ cores, c.blockBytes < wordRange) :
    ((∃ blocks, m.allocate cores = .ok blocks) ↔ ∀ x y, nodeBytes cores x y ≤ m.size)
    ∧ (∀ e, m.allocate cores = .error e → ∃ sorted, InOrder cores sorted ∧ Refused m sorted e)
    ∧ ∀ blocks, m.allocate cores = .ok blocks → Layout m cores blocks := by
  refine ⟨⟨?_, fun hroom => ?_⟩, fun e herror => ?_, fun blocks hok => ?_⟩
  · rintro ⟨blocks, hok⟩
    rcases allocate_cases hrange hcountable with ⟨_, -, hroom⟩ | ⟨e, _, herror, -⟩
    · exact hroom
    · cases hok.symm.trans herror
  · rcases allocate_cases hrange hcountable with ⟨blocks, hok, -⟩ | ⟨_, _, -, -, -, hfull⟩
    · exact ⟨blocks, hok⟩
    · exact absurd hroom hfull
  · rcases allocate_cases hrange hcountable with
      ⟨blocks, hok, -⟩ | ⟨e', sorted, herror', horder, hrefused, -⟩
    · cases hok.symm.trans herror
    · obtain rfl := Except.error.inj (herror'.symm.trans herror)
      exact ⟨sorted, horder, hrefused⟩
  · obtain ⟨hstacked, hinOrder⟩ := stacked_of_allocate hok
    exact hstacked.layout hinOrder

/-- Two cores of one node, the later one first, and one of another node. -/
def threeCores : List PlacedCore :=
  [⟨0, 0, 1, [some (.filled [1, 2]), none, some (.reserved 3)], 1000⟩,
    ⟨0, 0, 0, [some (.filled [7])], 1000⟩, ⟨1, 0, 0, [], 1000⟩]

def hundredBytes : NodeMemory := ⟨100, 0x60000000, .standard⟩

theorem allocate_stacks_threeCores : hundredBytes.base.toNat + hundredBytes.size ≤ wordRange
    ∧ (∀ c ∈ threeCores, c.blockBytes < wordRange)
    ∧ ∃ blocks, hundredBytes.allocate threeCores = .ok blocks
      ∧ Layout hundredBytes threeCores blocks := by
  have hrange : hundredBytes.base.toNat + hundredBytes.size ≤ wordRange := by decide
  have hcountable : ∀ c ∈ threeCores, c.blockBytes < wordRange := by decide
  have hroom (x y : UInt32) : nodeBytes threeCores x y ≤ hundredBytes.size :=
    Nat.le_trans (nodeBytes_le threeCores x y) (by decide)
  obtain ⟨hiff, -, hlayout⟩ := allocate_stacks hrange hcountable
  obtain ⟨blocks, hok⟩ := hiff.mpr hroom
  exact ⟨hrange, hcountable, blocks, hok, hlayout blocks hok⟩

end NodeMemory

end Manycore
