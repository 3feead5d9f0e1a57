import Manycore.Memory.Manifest
import Manycore.Proofs.Lists
import Manycore.Proofs.Memory.Allocation
import Manycore.Proofs.Stateful

/-! # Shortage of memory

Memory can run short only while blocks are given out: what goes wrong later names a file. Cores that
are on nodes of their own run short exactly when one of their blocks is larger than a node.
-/

namespace Manycore

open Stateful

section

variable {t : FileTree} {e : MemoryError} {x y p address : UInt32} {directory path : String}

theorem file_of_fails_writeFile {content : List UInt8} (h : Fails (writeFile path content) t e) :
    e = .file path := by
  unfold writeFile at h
  rcases fails_bind_iff.mp h with hget | ⟨t', _, -, h⟩
  · exact absurd hget not_fails_get
  · split at h
    · exact absurd h not_fails_set
    · exact (fails_throw_iff.mp h).symm

theorem file_of_fails_makeDirectory (h : Fails (makeDirectory path) t e) : e = .file path := by
  simp only [makeDirectory, fails_bind_iff, not_fails_get, not_fails_set, false_or] at h
  obtain ⟨t', _, -, _, _, -, h⟩ := h
  split at h
  · exact absurd h not_fails_pure
  · exact (fails_throw_iff.mp h).symm

theorem exists_file_of_fails_writeSlotsFrom {slots : Slots} {index : Nat}
    (h : Fails (writeSlotsFrom x y p directory address index slots) t e) :
    ∃ path, e = .file path := by
  induction slots generalizing address index t with
  | nil => exact absurd h not_fails_pure
  | cons slot rest ih =>
      rcases slot with _ | words | n
      all_goals
        simp only [writeSlotsFrom, fails_bind_iff, not_fails_pure, and_false, exists_false,
          or_false, false_or] at h
      · obtain ⟨_, _, -, hrest⟩ := h
        exact ih hrest
      · rcases h with hwrite | ⟨_, _, -, _, _, -, hrest⟩
        · exact ⟨_, file_of_fails_writeFile hwrite⟩
        · exact ih hrest
      · obtain ⟨_, _, -, hrest⟩ := h
        exact ih hrest

theorem NodeMemory.fails_generate_cases {m : NodeMemory} {cores : List PlacedCore}
    {register : RegisterMap} (h : Fails (m.generate cores register directory) t e) :
    m.allocate cores = .error e ∨ ∃ path, e = .file path := by
  unfold generate at h
  rcases fails_bind_iff.mp h with hallocate | ⟨blocks, _, -, h⟩
  · exact .inl (fails_ofExcept_iff.mp hallocate)
  rcases fails_bind_iff.mp h with hmake | ⟨_, _, -, h⟩
  · exact .inr ⟨_, file_of_fails_makeDirectory hmake⟩
  rcases fails_bind_iff.mp h with hwrite | ⟨_, _, -, hpure⟩
  · obtain ⟨b, -, _, hblock⟩ := exists_of_fails_mapM hwrite
    exact .inr (exists_file_of_fails_writeSlotsFrom hblock)
  · exact absurd hpure not_fails_pure

theorem NodeMemory.fails_generate_of_allocate {m : NodeMemory} {cores : List PlacedCore}
    {register : RegisterMap} (h : m.allocate cores = .error e) :
    Fails (m.generate cores register directory) t e :=
  fails_bind_iff.mpr (.inl (fails_ofExcept_iff.mpr h))

end

namespace PlacedCore

variable {cores : List PlacedCore} {c : PlacedCore} {size : Nat}

/-- The cores are on different nodes. -/
def Apart (a b : PlacedCore) : Prop := ¬ (a.x = b.x ∧ a.y = b.y)

theorem nodeBytes_of_apart (happart : cores.Pairwise Apart) (hc : c ∈ cores) :
    nodeBytes cores c.x c.y = c.blockBytes := by
  have hnodes : cores.Pairwise fun a b => (a.x, a.y) ≠ (b.x, b.y) :=
    happart.imp fun hab heq => hab (Prod.mk.injEq _ _ _ _ ▸ heq)
  have hfilter : cores.filter (isOn c.x c.y) = [c] := by
    rw [← filter_eq_singleton hnodes hc]
    exact List.filter_congr fun a _ => by simp [isOn]
  rw [nodeBytes, hfilter]
  exact Nat.add_zero _

theorem nodeBytes_le_iff (happart : cores.Pairwise Apart) :
    (∀ x y, nodeBytes cores x y ≤ size) ↔ ∀ c ∈ cores, c.blockBytes ≤ size := by
  constructor
  · intro h c hc
    rw [← nodeBytes_of_apart happart hc]
    exact h c.x c.y
  · intro h x y
    by_cases hon : ∃ c ∈ cores, isOn x y c = true
    · obtain ⟨c, hc, hon⟩ := hon
      obtain ⟨rfl, rfl⟩ := of_decide_eq_true hon
      rw [nodeBytes_of_apart happart hc]
      exact h c hc
    · have hnone : cores.filter (isOn x y) = [] :=
        List.filter_eq_nil_iff.mpr fun c hc hx => hon ⟨c, hc, hx⟩
      rw [nodeBytes, hnone]
      exact Nat.zero_le _

end PlacedCore

namespace NodeMemory

open PlacedCore

variable {m : NodeMemory} {cores : List PlacedCore}

/-- The blocks of the cores cannot be given out for want of memory. -/
def RunsShort (m : NodeMemory) (cores : List PlacedCore) : Prop :=
  ∃ requested available, m.allocate cores = .error (.insufficient requested available)

section

variable (hrange : m.base.toNat + m.size ≤ wordRange) (happart : cores.Pairwise PlacedCore.Apart)
include hrange happart

theorem runsShort_iff (hcountable : ∀ c ∈ cores, c.blockBytes < wordRange) :
    m.RunsShort cores ↔ ∃ c ∈ cores, m.size < c.blockBytes := by
  have hcases := allocate_cases hrange hcountable
  rw [nodeBytes_le_iff happart] at hcases
  rcases hcases with ⟨blocks, hok, hroom⟩ | ⟨e, sorted, herror, -, hrefused, hfull⟩
  · refine iff_of_false ?_ ?_
    · rintro ⟨requested, available, herror⟩
      cases hok.symm.trans herror
    · rintro ⟨c, hc, hlarge⟩
      exact absurd (hroom c hc) (Nat.not_le.mpr hlarge)
  · push Not at hfull
    refine iff_of_true ?_ hfull
    cases hrefused
    exact ⟨_, _, herror⟩

end

end NodeMemory

end Manycore
