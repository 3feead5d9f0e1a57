import Manycore.Proofs.Memory.LoadPlan

/-! # The order of placements

Cores are sorted before anything is given out, and the sort keeps the order of cores of one number.
So a load plan tells only what is placed at each core: placements in another order make the same
plan and the same files, or fail alike, as long as no two of them are for one core.
-/

namespace Manycore

open NodeMemory Stateful

namespace PlacedCore

variable {a b : PlacedCore} {cores cores' sorted sorted' : List PlacedCore}

/-- Every core has the same placements in the same order. -/
def SamePlaces (cores cores' : List PlacedCore) : Prop :=
  ∀ x y p, cores.filter (isAt x y p) = cores'.filter (isAt x y p)

namespace SamePlaces

theorem symm (h : SamePlaces cores cores') : SamePlaces cores' cores :=
  fun x y p => (h x y p).symm

theorem trans (h : SamePlaces cores cores') (h' : SamePlaces cores' sorted) :
    SamePlaces cores sorted :=
  fun x y p => (h x y p).trans (h' x y p)

theorem mem (h : SamePlaces cores cores') (ha : a ∈ cores) : a ∈ cores' := by
  have hat : a ∈ cores.filter (isAt a.x a.y a.p) := List.mem_filter.mpr ⟨ha, a.isAt_self⟩
  rw [h] at hat
  exact List.mem_of_mem_filter hat

theorem tail (h : SamePlaces (a :: cores) (a :: cores')) : SamePlaces cores cores' := by
  intro x y p
  have hwhole := h x y p
  rw [List.filter_cons, List.filter_cons] at hwhole
  split at hwhole
  · exact (List.cons.inj hwhole).2
  · exact hwhole

theorem head (h : SamePlaces (a :: cores) (b :: cores')) (hat : isAt a.x a.y a.p b = true) :
    a = b := by
  have hwhole := h a.x a.y a.p
  rw [List.filter_cons_of_pos a.isAt_self, List.filter_cons_of_pos hat] at hwhole
  exact (List.cons.inj hwhole).1

theorem eq_of_ascending (h : SamePlaces sorted sorted')
    (hsorted : sorted.Pairwise fun a b => precedes a b = true)
    (hsorted' : sorted'.Pairwise fun a b => precedes a b = true) : sorted = sorted' := by
  induction sorted generalizing sorted' with
  | nil => exact (List.eq_nil_iff_forall_not_mem.mpr fun a ha => nomatch h.symm.mem ha).symm
  | cons a rest ih =>
      cases sorted' with
      | nil => cases h.mem List.mem_cons_self
      | cons b rest' =>
          obtain ⟨hfirst, hrest⟩ := List.pairwise_cons.mp hsorted
          obtain ⟨hfirst', hrest'⟩ := List.pairwise_cons.mp hsorted'
          -- Each head is in the other list, so neither of them can stand behind the other.
          have hat : isAt a.x a.y a.p b = true := by
            rcases List.mem_cons.mp (h.mem List.mem_cons_self) with rfl | ha
            · exact a.isAt_self
            rcases List.mem_cons.mp (h.symm.mem List.mem_cons_self) with rfl | hb
            · exact b.isAt_self
            exact isAt_of_precedes (hfirst b hb) (hfirst' a ha)
          obtain rfl := h.head hat
          rw [ih h.tail hrest hrest']

end SamePlaces

theorem samePlaces_mergeSort (cores : List PlacedCore) :
    SamePlaces (cores.mergeSort precedes) cores :=
  (inOrder_mergeSort cores).ties

theorem SamePlaces.mergeSort_eq (h : SamePlaces cores cores') :
    cores.mergeSort precedes = cores'.mergeSort precedes := by
  have hsame := (samePlaces_mergeSort cores).trans (h.trans (samePlaces_mergeSort cores').symm)
  exact hsame.eq_of_ascending (List.pairwise_mergeSort precedes_trans precedes_total _)
    (List.pairwise_mergeSort precedes_trans precedes_total _)

theorem samePlaces_of_perm (hdistinct : Distinct cores) (hperm : cores'.Perm cores) :
    SamePlaces cores' cores := by
  intro x y p
  -- All placements at a core are one and the same, so they are in any order.
  refine List.Perm.eq_of_pairwise (fun a b ha hb _ _ => ?_)
    (List.pairwise_of_forall fun _ _ => trivial) (List.pairwise_of_forall fun _ _ => trivial)
    (hperm.filter (isAt x y p))
  obtain ⟨ha, hata⟩ := List.mem_filter.mp ha
  obtain ⟨hb, hatb⟩ := List.mem_filter.mp hb
  refine List.inj_on_of_nodup_map hdistinct (hperm.mem_iff.mp ha) hb ?_
  simp only [isAt, decide_eq_true_eq] at hata hatb
  simp [hata, hatb]

end PlacedCore

namespace NodeMemory

variable {cores cores' : List PlacedCore}

/-- Placements are written alike when every core has the same ones in the same order. -/
theorem generate_of_samePlaces (h : PlacedCore.SamePlaces cores' cores) (m : NodeMemory)
    (register : RegisterMap) (directory : String) :
    m.generate cores' register directory = m.generate cores register directory := by
  have hallocate : m.allocate cores' = m.allocate cores := by
    unfold allocate
    rw [h.mergeSort_eq]
  unfold generate
  rw [hallocate]

/-- Placements on distinct cores make the same load plan and the same files in every order, or fail
with the same error. -/
theorem generate_of_perm (hdistinct : Distinct cores) (hperm : cores'.Perm cores)
    (m : NodeMemory) (register : RegisterMap) (directory : String) (t : FileTree) :
    outcome (m.generate cores' register directory) t
      = outcome (m.generate cores register directory) t := by
  rw [generate_of_samePlaces (PlacedCore.samePlaces_of_perm hdistinct hperm)]

theorem generate_of_perm_threeCores : Distinct threeCores ∧ threeCores.reverse.Perm threeCores
    ∧ ∃ plan files,
      Succeeds (hundredBytes.generate threeCores (fun _ _ p => p) "out") .empty plan files
      ∧ Succeeds (hundredBytes.generate threeCores.reverse (fun _ _ p => p) "out") .empty plan
        files := by
  have hperm : threeCores.reverse.Perm threeCores := List.reverse_perm _
  obtain ⟨plan, files, hgenerated⟩ :=
    exists_succeeds (isOk_generate_threeCores .empty (by simp) "out" (by simp))
  exact ⟨distinct_threeCores, hperm, plan, files, hgenerated,
    (generate_of_perm distinct_threeCores hperm _ _ _ _).trans hgenerated⟩

end NodeMemory

end Manycore
