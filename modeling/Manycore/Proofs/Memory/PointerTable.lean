import Manycore.Memory.PointerTable

/-! # Where slots begin

The slots of a core lie one behind the other, so each begins where the bytes of those in front of
it end. The pointer table holds these places, counted from its own start, as long as the table and
the slots together have fewer bytes than a word can count.
-/

namespace Manycore

@[simp] theorem total_nil : total [] = 0 := rfl

namespace Slots

variable {slots : Slots} {i : Nat}

@[simp] theorem totalBytes_nil : totalBytes [] = 0 := rfl

@[simp] theorem totalBytes_cons (slot : Option Subregion) (rest : Slots) :
    totalBytes (slot :: rest) = slotBytes slot + totalBytes rest := rfl

theorem totalBytes_append (slots slots' : Slots) :
    totalBytes (slots ++ slots') = slots.totalBytes + slots'.totalBytes := by
  simp [totalBytes, total_append]

/-- The bytes of the slots in front of one. -/
def bytesBefore (slots : Slots) (i : Nat) : Nat := totalBytes (slots.take i)

@[simp] theorem bytesBefore_zero (slots : Slots) : slots.bytesBefore 0 = 0 := by
  simp [bytesBefore]

@[simp] theorem bytesBefore_cons_succ (slot : Option Subregion) (rest : Slots) (i : Nat) :
    bytesBefore (slot :: rest) (i + 1) = slotBytes slot + bytesBefore rest i := rfl

theorem bytesBefore_add_le {slot : Option Subregion} (h : slots[i]? = some slot) :
    slots.bytesBefore i + slotBytes slot ≤ slots.totalBytes := by
  induction slots generalizing i with
  | nil => cases h
  | cons head rest ih =>
      cases i with
      | zero =>
          cases h
          simp
      | succ i =>
          have hrest := ih h
          simp only [bytesBefore_cons_succ, totalBytes_cons]
          omega

theorem bytesBefore_add_le_of_lt {j : Nat} {slot : Option Subregion} (h : slots[i]? = some slot)
    (hlt : i < j) : slots.bytesBefore i + slotBytes slot ≤ slots.bytesBefore j := by
  have htake : (slots.take j)[i]? = some slot := by rw [List.getElem?_take_of_lt hlt, h]
  have hle := bytesBefore_add_le htake
  have hsame : bytesBefore (slots.take j) i = slots.bytesBefore i := by
    unfold bytesBefore
    rw [List.take_take, Nat.min_eq_left (Nat.le_of_lt hlt)]
  rwa [hsame] at hle

theorem bytesBefore_le (slots : Slots) (i : Nat) : slots.bytesBefore i ≤ slots.totalBytes := by
  cases h : slots[i]? with
  | none =>
      have htake : slots.take i = slots :=
        List.take_of_length_le (List.getElem?_eq_none_iff.mp h)
      exact Nat.le_of_eq (congrArg totalBytes htake)
  | some slot =>
      have := bytesBefore_add_le h
      omega

theorem getElem?_startsFrom (start : UInt32) (h : i < slots.length) :
    (startsFrom start slots)[i]? = some (start + UInt32.ofNat (slots.bytesBefore i)) := by
  induction slots generalizing start i with
  | nil => cases h
  | cons slot rest ih =>
      cases i with
      | zero => simp [startsFrom]
      | succ i =>
          have hrest := ih (start + slotLength slot) (Nat.lt_of_succ_lt_succ h)
          rw [startsFrom, List.getElem?_cons_succ, hrest, bytesBefore_cons_succ, slotLength,
            UInt32.ofNat_add, UInt32.add_assoc]

@[simp] theorem length_startsFrom (start : UInt32) (slots : Slots) :
    (startsFrom start slots).length = slots.length := by
  induction slots generalizing start with
  | nil => rfl
  | cons slot rest ih => rw [startsFrom, List.length_cons, ih, List.length_cons]

theorem getElem?_offsets (h : i < slots.length) :
    slots.offsets[i]? = some (UInt32.ofNat (slots.bytesBefore i)) := by
  rw [offsets, getElem?_startsFrom 0 h, UInt32.zero_add]

/-- The bytes of a pointer table. -/
def tableBytes (slots : Slots) : Nat := 4 * (4 + slots.length)

section

variable (hsize : slots.tableBytes + slots.totalBytes < wordRange)
include hsize

theorem toNat_tableLength : slots.tableLength.toNat = slots.tableBytes :=
  UInt32.toNat_ofNat_of_lt' (Nat.lt_of_le_of_lt (Nat.le_add_right _ _) hsize)

theorem toNat_bytesBefore (i : Nat) :
    (UInt32.ofNat (slots.bytesBefore i)).toNat = slots.bytesBefore i := by
  have hle := slots.bytesBefore_le i
  exact UInt32.toNat_ofNat_of_lt' (show slots.bytesBefore i < wordRange by omega)

theorem hasTable_of_lt : slots.hasTable = true := by
  have hlengths : total (slots.map fun slot => (slotLength slot).toNat) ≤ slots.totalBytes := by
    clear hsize
    induction slots with
    | nil => exact Nat.le_refl _
    | cons slot rest ih =>
        have hslot : (slotLength slot).toNat ≤ slotBytes slot := by
          rw [slotLength, UInt32.toNat_ofNat']
          exact Nat.mod_le _ _
        simp only [List.map_cons, total_cons, totalBytes_cons]
        exact Nat.add_le_add hslot ih
  unfold hasTable
  simp only [Bool.and_eq_true, decide_eq_true_eq, List.all_eq_true]
  refine ⟨by omega, fun offset hoffset => ?_⟩
  obtain ⟨i, hi, hget⟩ := List.mem_iff_getElem.mp hoffset
  have hlt : i < slots.length := by simpa [offsets] using hi
  have hget? : slots.offsets[i]? = some offset := by rw [List.getElem?_eq_getElem hi, hget]
  rw [getElem?_offsets hlt, Option.some.injEq] at hget?
  subst hget?
  rw [toNat_bytesBefore hsize, toNat_tableLength hsize]
  have hle := slots.bytesBefore_le i
  omega

theorem countedTable_of_lt (header : TableHeader) (timerPeriod : UInt32) :
    slots.countedTable header timerPeriod = .ok (slots.pointerTable header timerPeriod) := by
  have hcount : wordRange ≤ maxCount := by decide
  have hcountable : slots.isCountable = true := by
    rw [isCountable, hasTable_of_lt hsize, Bool.and_true, decide_eq_true_eq]
    omega
  exact if_pos hcountable

end

/-- The words of a pointer table. -/
def tableWords (slots : Slots) (header : TableHeader) (timerPeriod : UInt32) : List UInt32 :=
  [header.magic, header.version, timerPeriod, 0] ++ slots.offsets.map (· + slots.tableLength)

@[simp] theorem length_tableWords (slots : Slots) (header : TableHeader) (timerPeriod : UInt32) :
    (slots.tableWords header timerPeriod).length = 4 + slots.length := by
  simp only [tableWords, offsets, List.length_append, List.length_map, length_startsFrom]
  rfl

@[simp] theorem slotBytes_pointerTable (slots : Slots) (header : TableHeader)
    (timerPeriod : UInt32) :
    slotBytes (some (slots.pointerTable header timerPeriod)) = slots.tableBytes := by
  show 4 * (slots.tableWords header timerPeriod).length = slots.tableBytes
  rw [length_tableWords, tableBytes]

theorem getElem?_tableWords (header : TableHeader) (timerPeriod : UInt32) (h : i < slots.length) :
    (slots.tableWords header timerPeriod)[4 + i]?
      = some (UInt32.ofNat (slots.bytesBefore i) + slots.tableLength) := by
  unfold tableWords
  rw [List.getElem?_append_right (by simp), show 4 + i - [header.magic, header.version,
    timerPeriod, 0].length = i by simp, List.getElem?_map, getElem?_offsets h]
  rfl

/-- The word of a slot counts the bytes from the start of the table to the slot. -/
theorem exists_tableWord (hsize : slots.tableBytes + slots.totalBytes < wordRange)
    (header : TableHeader) (timerPeriod : UInt32) (h : i < slots.length) :
    ∃ word, (slots.tableWords header timerPeriod)[4 + i]? = some word
      ∧ word.toNat = slots.tableBytes + slots.bytesBefore i := by
  refine ⟨_, getElem?_tableWords header timerPeriod h, ?_⟩
  have hle := slots.bytesBefore_le i
  rw [UInt32.toNat_add, toNat_bytesBefore hsize, toNat_tableLength hsize, Nat.mod_eq_of_lt]
  · omega
  · exact show _ < wordRange by omega

end Slots

end Manycore
