import Manycore.Proofs.Compiler.Network
import Manycore.Proofs.Partition.Split

/-! # Known partitions

A compilation numbers the slices of a vertex. A search that takes all atoms as one slice, or each by
itself because as many pieces are called for, can be foretold; a compilation then does the same as
one that is given such partitions beforehand.
-/

namespace Manycore

open List (Forall₂)
open Keying

namespace Compiler

variable {c : Compiler} {objects : ObjectTable} {connections : List Connection} {p q : Pool}
  {n : Network} {x : SplitVertex}

theorem mem_splitVertices_of_index? {index : Nat} (h : n.index? x = some index) :
    x ∈ n.splitVertices := by
  obtain ⟨splits, hsplits, hindex⟩ := Option.bind_eq_some_iff.mp h
  obtain ⟨id, hmem, -⟩ := Groups.exists_of_find? hsplits
  obtain ⟨hlt, hget, -⟩ := List.findIdx?_eq_some_iff_getElem.mp hindex
  refine List.mem_flatMap.mpr ⟨_, hmem, ?_⟩
  rw [← of_decide_eq_true hget]
  exact List.getElem_mem hlt

section

variable (hcompile : Yields (c.compile objects connections) p n q)
include hcompile

theorem mem_splitVertices_iff : x ∈ n.splitVertices
    ↔ ∃ slices, n.partitions.slices? x.vertex = some slices ∧ x.slice ∈ slices := by
  obtain ⟨_, _, -, -, -, hps, hsplits, -⟩ := yields_compile_iff.mp hcompile
  rw [Network.splitVertices, hsplits, Manycore.mem_splitVertices_iff (nodup_vertices hps)]

theorem exists_index? (hx : x ∈ n.splitVertices) : ∃ index, n.index? x = some index := by
  obtain ⟨slices, hslices, hslice⟩ := (mem_splitVertices_iff hcompile).mp hx
  obtain ⟨_, _, -, -, -, -, hsplits, -⟩ := yields_compile_iff.mp hcompile
  have hfind : n.splits.ofVertex? x.vertex = some (slices.map (SplitVertex.mk x.vertex)) := by
    rw [hsplits, ofVertex?_splitVertices, hslices]
    rfl
  have hsome : ((slices.map (SplitVertex.mk x.vertex)).findIdx? (· = x)).isSome = true := by
    rw [List.findIdx?_isSome, List.any_eq_true]
    exact ⟨x, List.mem_map.mpr ⟨x.slice, hslice, rfl⟩, decide_eq_true rfl⟩
  obtain ⟨index, hindex⟩ := Option.isSome_iff_exists.mp hsome
  refine ⟨index, ?_⟩
  rw [Network.index?, hfind]
  exact hindex

theorem exists_vertex? (hx : x ∈ n.splitVertices) (hids : ∀ v ∈ n.vertices, v.2.id = v.1) :
    ∃ v, n.vertex? x.vertex = some v := by
  obtain ⟨slices, hslices, -⟩ := (mem_splitVertices_iff hcompile).mp hx
  obtain ⟨_, _, -, -, -, hps, -, -⟩ := yields_compile_iff.mp hcompile
  obtain ⟨w, hw, hid, -⟩ := exists_workload_of_slices hps hslices
  obtain ⟨y, hy, rfl⟩ := List.mem_map.mp hw
  apply Option.isSome_iff_exists.mp
  rw [Network.vertex?, Groups.isSome_find?, List.any_eq_true]
  exact ⟨y, hy, decide_eq_true ((hids y hy).symm.trans hid)⟩

end

end Compiler

namespace Workload

variable {w : Workload} {constraints : List Constraint} {slices : List Slice}

/-- The slices meet every constraint, and are all atoms in one, or every atom by itself if as many
pieces are called for then. -/
def TakenEarly (w : Workload) (constraints : List Constraint) (slices : List Slice) : Prop :=
  (∀ c ∈ constraints, ∀ s ∈ slices, c.required w s ≤ 1) ∧ ∃ hatoms : 0 < w.atomCount,
    slices = [w.whole hatoms]
      ∨ 1 < w.atomCount ∧ w.requirement constraints [w.whole hatoms] = w.atomCount
        ∧ slices = (List.range' 0 w.atomCount).map Slice.atom

instance : Decidable (w.TakenEarly constraints slices) := inferInstanceAs (Decidable (_ ∧ _))

theorem partition_of_takenEarly (h : w.TakenEarly constraints slices) :
    w.partition constraints = .ok slices := by
  obtain ⟨hmet, hatoms, rfl | ⟨hmany, hrequired, rfl⟩⟩ := h
  · exact partition_of_tried hatoms .first (splitInto_one hatoms) hmet
  · have hsize : (w.whole hatoms).size = w.atomCount := rfl
    have hmost := mostRequired_requirement (hrequired ▸ hmany)
    have hretry : w.Tried constraints (w.whole hatoms) _ 1 :=
      .retry .first (splitInto_one hatoms) hmost (by omega) (by omega) (by omega)
    rw [hrequired, hsize, Nat.max_eq_left (by omega), Nat.min_self] at hretry
    exact partition_of_tried hatoms hretry (splitInto_atoms hatoms) hmet

end Workload

namespace Compiler

variable {c : Compiler} {objects : ObjectTable} {connections : List Connection} {p q : Pool}
  {n : Network} {results : List (ObjectId × List Slice)}

/-- A compilation whose partitions are known beforehand. -/
def compileAs (c : Compiler) (results : List (ObjectId × List Slice)) (objects : ObjectTable)
    (connections : List Connection) : Keying CompileError Network := do
  let tree ← c.buildTree objects connections
  let format ← Keying.ofExcept (c.wordFormat.mapError .data)
  let vertices ← c.assembleAll { tree, config := c.config, format } objects
  let partitions := Groups.replaceAll results []
  let splits := Partitions.splitVertices partitions
  let edges ← Keying.ofExcept
    ((splits.splitEdges (edgesBetween vertices tree)).mapError .partition)
  pure { tree, vertices, partitions, splits, edges }

/-- The partitions are those that the search for them ends with. -/
def Foretells (c : Compiler) (results : List (ObjectId × List Slice)) (n : Network) : Prop :=
  Forall₂ (fun v r => v.2.workload.isSearchable c.allConstraints = true ∧ r.1 = v.2.id
    ∧ v.2.workload.TakenEarly c.allConstraints r.2) n.vertices results

instance : Decidable (c.Foretells results n) := inferInstanceAs (Decidable (Forall₂ _ _ _))

theorem yields_compile_of_compileAs (h : Yields (c.compileAs results objects connections) p n q)
    (hresults : c.Foretells results n) : Yields (c.compile objects connections) p n q := by
  have hps : partitionSearchable c.allConstraints (n.vertices.map (·.2.workload))
      = .ok (Groups.replaceAll results []) := by
    apply partitionSearchable_of_forall₂
    · intro w hw
      obtain ⟨v, hv, rfl⟩ := List.mem_map.mp hw
      obtain ⟨r, -, hsearchable, -⟩ := exists_right_of_forall₂ hresults hv
      exact hsearchable
    · rw [List.forall₂_map_left_iff]
      exact hresults.imp fun v r hr => ⟨hr.2.1, Workload.partition_of_takenEarly hr.2.2⟩
  simp only [compileAs, yields_bind_iff, yields_ofExcept_iff, mapError_eq_ok_iff,
    yields_pure_iff] at h
  obtain ⟨tree, mid, htree, format, _, ⟨hformat, rfl⟩, vertices, _, hvertices, edges, _,
    ⟨hedges, rfl⟩, rfl, rfl⟩ := h
  exact yields_compile_iff.mpr ⟨mid, format, htree, hformat, hvertices, hps, rfl, hedges⟩

end Compiler

end Manycore
