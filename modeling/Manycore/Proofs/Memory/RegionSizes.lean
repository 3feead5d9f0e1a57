import Manycore.Memory.Vertex
import Manycore.Proofs.Keying
import Manycore.Proofs.Lists
import Manycore.Proofs.Memory.SlotFiles

/-! # Sizes of regions

The size that a region states for a slice is that of what it renders for the slice, though each kind
of region counts its words apart from writing them. So the memory that a vertex is budgeted for is
the memory that its slots take.
-/

namespace Manycore

open List (Forall₂)
open Keying

variable {s : Slice} {index : Nat} {p q : Pool}

theorem ValueTable.length_words (t : ValueTable) (s : Slice) : (t.words s).length = t.sizeWords := by
  simp only [words, leading, sizeWords, List.length_append, List.length_map]
  split <;> split <;> rfl

theorem Matrix.length_entries (m : Matrix) : m.entries.length = m.nRows * m.nCols := by
  rw [entries, length_flatten_of_length m.row_length, nRows, Nat.mul_comm]

namespace MatrixTable

theorem shape_cut {t : MatrixTable} {m : Matrix} {format : WordFormat}
    (h : t.content = .filled m format) (s : Slice) : (cut t.axis s m).shape = t.shapeFor s := by
  simp only [shapeFor, h, MatrixContent.shape, cut, Matrix.shape]
  cases t.axis with
  | none => rfl
  | some axis =>
      cases axis with
      | rows => simp [Matrix.rowRange, Matrix.nRows, Slice.overlap]
      | columns => simp [Matrix.columnRange, Matrix.nRows, Slice.overlap]

theorem sizeWords_render (t : MatrixTable) (s : Slice) (index : Nat) :
    (t.render s index).sizeWords = t.sizeWords s := by
  cases hcontent : t.content with
  | reserved shape =>
      simp only [render, hcontent]
      rfl
  | filled m format =>
      have hshape := shape_cut hcontent s
      simp only [render, hcontent, sizeWords, ← hshape, Subregion.sizeWords, List.length_append,
        List.length_map, Matrix.length_entries, Matrix.shape]
      exact Nat.add_comm _ _

theorem isReserved_render (t : MatrixTable) (s : Slice) (index : Nat) :
    (t.render s index).isReserved = (RegionContent.matrix t).isReserved := by
  cases t with
  | mk content axis counts => cases content <;> rfl

end MatrixTable

namespace KeyTable

variable {t : KeyTable} {words : List UInt32}

theorem length_record {k : Keyspace} (h : Yields (t.record k index) p words q) :
    words.length = 1 + t.further.length := by
  simp only [record, yields_bind_iff, yields_pure_iff] at h
  obtain ⟨_, _, -, _, _, -, rest, _, hrest, rfl, -⟩ := h
  rw [List.length_cons, ← (forall₂_of_yields_mapM hrest).length_eq, Nat.add_comm]

theorem length_words (h : Yields (t.words s index) p words q) : words.length = t.sizeWords s := by
  simp only [KeyTable.words, yields_bind_iff, yields_pure_iff] at h
  obtain ⟨records, _, hrecords, rfl, -⟩ := h
  have hrendered := forall₂_of_yields_mapM hrecords
  have hlengths : ∀ record ∈ records, record.length = 1 + t.further.length := by
    intro record hrecord
    obtain ⟨k, _, _, _, hk⟩ := exists_left_of_forall₂ hrendered hrecord
    exact length_record hk
  have hleading : (t.leading s).length = if t.leadingCount then 1 else 0 := by
    rw [leading]
    split <;> rfl
  rw [List.length_append, hleading, length_flatten_of_length hlengths, ← hrendered.length_eq,
    sizeWords, Nat.mul_comm, Nat.add_comm]

end KeyTable

namespace Region

/-- The subregion is as the region says for the slice. -/
structure Sized (r : Region) (s : Slice) (sub : Subregion) : Prop where
  sizeWords : sub.sizeWords = r.sizeWords s
  isReserved : sub.isReserved = r.content.isReserved

theorem sized_of_yields {r : Region} {sub : Subregion} (h : Yields (r.render s index) p sub q) :
    r.Sized s sub := by
  obtain ⟨content, shared⟩ := r
  simp only [render] at h
  cases content with
  | values table =>
      obtain ⟨rfl, -⟩ := yields_pure_iff.mp h
      exact ⟨table.length_words s, rfl⟩
  | matrix table =>
      obtain ⟨rfl, -⟩ := yields_pure_iff.mp h
      exact ⟨table.sizeWords_render s index, table.isReserved_render s index⟩
  | keys table =>
      simp only [RegionContent.render, yields_bind_iff, yields_pure_iff] at h
      obtain ⟨words, _, hwords, rfl, -⟩ := h
      exact ⟨KeyTable.length_words hwords, rfl⟩
  | recording ticks =>
      obtain ⟨rfl, -⟩ := yields_pure_iff.mp h
      exact ⟨rfl, rfl⟩

end Region

theorem Subregion.length_bytes_eq (sub : Subregion) :
    sub.bytes.length = if sub.isReserved then 0 else 4 * sub.sizeWords := by
  cases sub with
  | filled words => exact length_bytes words
  | reserved n => rfl

namespace RegionedVertex

variable {regions : List (Option Region)} {slots : Slots}

/-- The slots of regions for a slice: empty where there is no region, and else as the region says. -/
abbrev Fits (s : Slice) (regions : List (Option Region)) (slots : Slots) : Prop :=
  Forall₂ (Option.Rel fun r sub => r.Sized s sub) regions slots

theorem fits_of_yields {v : RegionedVertex} (h : Yields (v.render s index) p slots q) :
    Fits s v.regions slots := by
  refine (forall₂_of_yields_mapM h).imp fun region slot hslot => ?_
  obtain ⟨p, q, hslot⟩ := hslot
  cases region with
  | none =>
      obtain ⟨rfl, -⟩ := yields_pure_iff.mp hslot
      exact .none
  | some r =>
      simp only [renderSlot, yields_bind_iff, yields_pure_iff] at hslot
      obtain ⟨sub, _, hsub, rfl, -⟩ := hslot
      exact .some (Region.sized_of_yields hsub)

/-- The bytes that the slots of the chosen regions take. -/
def bytesOf (chosen : Region → Bool) (regions : List (Option Region)) (slots : Slots) : Nat :=
  total (((regions.zip slots).filter fun x => x.1.any chosen).map fun x => slotBytes x.2)

theorem Fits.bytesOf_eq (h : Fits s regions slots) (chosen : Region → Bool) :
    bytesOf chosen regions slots = total (((regions.filterMap fun slot => slot).filter chosen).map
      fun r => 4 * r.sizeWords s) := by
  unfold bytesOf
  induction h with
  | nil => rfl
  | @cons region slot _ _ hslot _ ih =>
      cases hslot with
      | none => simpa using ih
      | @some r sub hsized =>
          have hbytes : slotBytes (some sub) = 4 * r.sizeWords s := by rw [← hsized.sizeWords]; rfl
          cases hchosen : chosen r <;> simp [hchosen, hbytes, ih]

theorem Fits.totalBytes_eq (h : Fits s regions slots) :
    slots.totalBytes = bytesOf (fun _ => true) regions slots := by
  unfold bytesOf
  induction h with
  | nil => rfl
  | cons hslot _ ih =>
      cases hslot with
      | none => simpa [slotBytes] using ih
      | some hsized => simp [ih]

theorem Fits.getElem?_none_iff (h : Fits s regions slots) (i : Nat) :
    slots[i]? = some none ↔ regions[i]? = some none := by
  induction h generalizing i with
  | nil => simp
  | cons hslot _ ih =>
      cases i with
      | zero => cases hslot <;> simp
      | succ i => simpa using ih i

end RegionedVertex

/-- A region renders as many words as it states, and all of them are written unless the region only
reserves them. So a vertex takes the memory that it has been budgeted for, in the node and in the
core, and its empty slots stay empty. -/
theorem rendered_as_budgeted :
    (∀ (r : Region) (s : Slice) index p sub q, Yields (r.render s index) p sub q →
      sub.sizeWords = r.sizeWords s ∧ sub.isReserved = r.content.isReserved
      ∧ sub.bytes.length = if sub.isReserved then 0 else 4 * sub.sizeWords)
    ∧ ∀ (v : RegionedVertex) (s : Slice) index p (slots : Slots) q,
      Yields (v.render s index) p slots q →
        slots.length = v.regions.length
        ∧ (∀ i : Nat, slots[i]? = some none ↔ v.regions[i]? = some none)
        ∧ slots.totalBytes = v.usage .sdram s
        ∧ RegionedVertex.bytesOf Region.inCore v.regions slots = v.usage .dtcm s := by
  constructor
  · intro r s index p sub q h
    have hsized := Region.sized_of_yields h
    exact ⟨hsized.sizeWords, hsized.isReserved, sub.length_bytes_eq⟩
  · intro v s index p slots q h
    have hfits := RegionedVertex.fits_of_yields h
    refine ⟨hfits.length_eq.symm, hfits.getElem?_none_iff, ?_, ?_⟩
    · rw [hfits.totalBytes_eq, hfits.bytesOf_eq]
      rfl
    · rw [hfits.bytesOf_eq]
      rfl

/-- A region of each kind and an empty slot. The slice reaches beyond the columns and the keys. -/
def mixedVertex : RegionedVertex := .ofRegions ⟨3⟩ "mixed" 10
  [some ⟨.values ⟨[.one], .standard, true, true⟩, false⟩, none,
    some ⟨.matrix ⟨.reserved ⟨10, 2⟩, some .rows, [.atoms]⟩, true⟩,
    some ⟨.matrix ⟨.filled (.identity 3) .unsigned, some .columns, []⟩, false⟩,
    some ⟨.keys ⟨[⟨0, [("k", 4)]⟩, ⟨0, [("k", 5)]⟩], none, [KeyWord.mask], true, true⟩, false⟩,
    some ⟨.recording 5, false⟩]

/-- The layout of the keys. -/
def fourBits : Pool := ⟨[⟨8, [("k", ⟨some 4, some 0, [], [], 5⟩)], false⟩]⟩

theorem rendered_as_budgeted_mixed : ∃ (slots : Slots) (q : Pool),
    Yields (mixedVertex.render ⟨1, 7, by decide⟩ 2) fourBits slots q
    ∧ slots.length = 6 ∧ slots[1]? = some none ∧ slots.totalBytes = 120
    ∧ RegionedVertex.bytesOf Region.inCore mixedVertex.regions slots = 48 := by
  have hrendered : ∃ (slots : Slots) (q : Pool),
      Yields (mixedVertex.render ⟨1, 7, by decide⟩ 2) fourBits slots q ∧ slots.length = 6 :=
    exists_yields_of_any (by decide +kernel)
  obtain ⟨slots, q, h, hlength⟩ := hrendered
  obtain ⟨-, hempty, hsdram, hdtcm⟩ := rendered_as_budgeted.2 mixedVertex _ 2 fourBits slots q h
  exact ⟨slots, q, h, hlength, (hempty 1).mpr rfl, hsdram, hdtcm⟩

end Manycore
