import Manycore.Proofs.Lists
import Manycore.Proofs.Memory.RegionGrowth

/-! # Sizes that can be counted

The size of a region and the use of a vertex are counted in steps, and every step must stay within a
count. No step makes a number smaller, so the last one decides for all: the count is the exact number,
unless that is too large. Regions whose sizes can be counted grow with their slices, and are rendered
as they are without the checks.
-/

namespace Manycore

theorem MatrixTable.countWords_eq (t : MatrixTable) (s : Slice) :
    t.countWords s = counted (t.sizeWords s) :=
  counted_bind (f := (· + t.counts.length)) (fun _ _ => rfl) (Nat.le_add_right _ _)

theorem KeyTable.countWords_eq (t : KeyTable) (s : Slice) :
    t.countWords s = counted (t.sizeWords s) :=
  counted_bind (f := (· + if t.leadingCount then 1 else 0)) (fun _ _ => rfl)
    (Nat.le_add_right _ _)

theorem Region.countWords_eq (r : Region) (s : Slice) :
    r.countWords s = counted (r.sizeWords s) := by
  obtain ⟨content, shared⟩ := r
  cases content with
  | values table => rfl
  | matrix table => exact table.countWords_eq s
  | keys table => exact table.countWords_eq s
  | recording ticks => rfl

/-- A sum of which every step is counted is counted as a whole. -/
theorem foldlM_counted {α : Type} {step : Nat → α → Except DataError Nat} {size : α → Nat}
    (hstep : ∀ sum a, step sum a = counted (sum + size a)) (as : List α) {sum : Nat}
    (h : sum ≤ maxCount) : as.foldlM step sum = counted (sum + total (as.map size)) := by
  induction as generalizing sum with
  | nil => exact (counted_eq_ok_iff.mpr ⟨h, rfl⟩).symm
  | cons a rest ih =>
      rw [List.foldlM_cons, hstep, List.map_cons, total_cons, ← Nat.add_assoc]
      exact counted_bind (f := (· + total (rest.map size))) (fun _ => ih) (Nat.le_add_right _ _)

namespace RegionedVertex

variable {v : RegionedVertex}

theorem countBytes_eq (v : RegionedVertex) (chosen : Region → Bool) (s : Slice) :
    v.countBytes chosen s = counted (v.regionBytes chosen s) := by
  have hstep (sum : Nat) (r : Region) : (do
      let words ← r.countWords s
      let bytes ← counted (4 * words)
      counted (sum + bytes)) = counted (sum + 4 * r.sizeWords s) := by
    rw [r.countWords_eq]
    refine counted_bind (f := fun words => sum + 4 * words) (fun words _ => ?_) (by omega)
    exact counted_bind (f := (sum + ·)) (fun _ _ => rfl) (Nat.le_add_left _ _)
  rw [countBytes, foldlM_counted hstep _ (Nat.zero_le _), Nat.zero_add]
  rfl

theorem countUsage_eq (v : RegionedVertex) (r : Resource) (s : Slice) :
    v.countUsage r s = counted (v.usage r s) := by
  cases r with
  | cpu => rfl
  | dtcm => exact v.countBytes_eq _ s
  | sdram => exact v.countBytes_eq _ s

theorem sizeWords_le_usage {r : Region} (hr : some r ∈ v.regions) (s : Slice) :
    4 * r.sizeWords s ≤ v.usage .sdram s := by
  have hmem : r ∈ (v.regions.filterMap fun slot => slot).filter fun _ => true :=
    List.mem_filter.mpr ⟨List.mem_filterMap.mpr ⟨some r, hr, rfl⟩, rfl⟩
  exact le_total (List.mem_map_of_mem hmem)

end RegionedVertex

theorem Region.renderCounted_eq_render {r : Region} {s : Slice} {n : Nat}
    (h : r.countWords s = .ok n) (index : Nat) : r.renderCounted s index = r.render s index := by
  rw [renderCounted, h]
  rfl

/-- Where the bytes of all regions can be counted, no check is in the way of a rendering. -/
theorem RegionedVertex.renderCounted_eq_render {v : RegionedVertex} {s : Slice} {n : Nat}
    (h : v.countUsage .sdram s = .ok n) (index : Nat) :
    v.renderCounted s index = v.render s index := by
  rw [countUsage_eq, counted_eq_ok_iff] at h
  refine mapM_congr fun slot hslot => ?_
  cases slot with
  | none => rfl
  | some r =>
      have hle := sizeWords_le_usage hslot s
      have hwords : r.countWords s = .ok (r.sizeWords s) := by
        rw [r.countWords_eq]
        exact counted_eq_ok_iff.mpr ⟨by omega, rfl⟩
      rw [renderSlot, ← Region.renderCounted_eq_render hwords]
      rfl

/-- A size that grows where it can be counted. What lies in a slice that can be counted can be
counted as well. -/
structure GrowsWhereCounted (size : Slice → Except DataError Nat) : Prop where
  mono : ∀ a b n, a.Within b → size b = .ok n → ∃ m ≤ n, size a = .ok m
  join : ∀ a b h n, size (a.join b h) = .ok n →
    ∃ k m, size a = .ok k ∧ size b = .ok m ∧ n ≤ k + m

theorem Slice.within_join_left (a b : Slice) (h : a.stop = b.start) : a.Within (a.join b h) where
  start_le := Nat.le_refl _
  stop_le := h ▸ Nat.le_of_lt b.start_lt_stop

theorem Slice.within_join_right (a b : Slice) (h : a.stop = b.start) : b.Within (a.join b h) where
  start_le := h ▸ Nat.le_of_lt a.start_lt_stop
  stop_le := Nat.le_refl _

theorem Grows.whereCounted {size : Slice → Nat} (h : Grows size) :
    GrowsWhereCounted fun s => counted (size s) where
  mono a b n hwithin hb := by
    obtain ⟨hcount, rfl⟩ := counted_eq_ok_iff.mp hb
    have hle := h.mono a b hwithin
    exact ⟨_, hle, counted_eq_ok_iff.mpr ⟨Nat.le_trans hle hcount, rfl⟩⟩
  join a b hmeet n hjoin := by
    obtain ⟨hcount, rfl⟩ := counted_eq_ok_iff.mp hjoin
    have hleft := Nat.le_trans (h.mono _ _ (a.within_join_left b hmeet)) hcount
    have hright := Nat.le_trans (h.mono _ _ (a.within_join_right b hmeet)) hcount
    exact ⟨_, _, counted_eq_ok_iff.mpr ⟨hleft, rfl⟩, counted_eq_ok_iff.mpr ⟨hright, rfl⟩,
      h.join a b hmeet⟩

theorem Region.growsWhereCounted (r : Region) : GrowsWhereCounted r.countWords := by
  rw [show r.countWords = fun s => counted (r.sizeWords s) from funext r.countWords_eq]
  exact r.grows_sizeWords.whereCounted

end Manycore
