import Manycore.Partition.Split
import Manycore.Proofs.Groups
import Manycore.Proofs.Partition.Search
import Mathlib.Data.List.Nodup
import Mathlib.Data.List.ProdSigma

/-! # Split edges

A network that has been partitioned has slices for each of its vertices, and an edge between two of
them falls into one split edge for each pair of their slices.
-/

namespace Manycore

open List (Forall₂)
open Groups (find? sameKey)

variable {constraints : List Constraint} {ws : List Workload} {ps : Partitions} {id : ObjectId}

/-- The slices of a vertex. -/
def Partitions.slices? (ps : Partitions) (id : ObjectId) : Option (List Slice) :=
  find? sameKey id ps

theorem partitionAll_eq_ok (h : partitionAll constraints ws = .ok ps) :
    ∃ results, Forall₂ (fun w r => r.1 = w.id ∧ w.partition constraints = .ok r.2) ws results
      ∧ ps = Groups.replaceAll results [] := by
  rw [partitionAll, bind_eq_ok_iff] at h
  obtain ⟨results, hresults, hps⟩ := h
  cases hps
  refine ⟨results, (forall₂_of_mapM_ok hresults).imp fun w r hr => ?_, rfl⟩
  obtain ⟨slices, hslices, hpair⟩ := bind_eq_ok_iff.mp hr
  cases hpair
  exact ⟨rfl, hslices⟩

theorem partitionSearchable_eq_ok (h : partitionSearchable constraints ws = .ok ps) :
    partitionAll constraints ws = .ok ps := by
  rw [partitionSearchable, bind_eq_ok_iff] at h
  obtain ⟨_, hall, h⟩ := h
  split at h
  · cases h
  · rename_i hlength
    cases h
    have hwhole : ws.takeWhile (Workload.isSearchable constraints) = ws :=
      (List.takeWhile_sublist _).eq_of_length_le (Nat.not_lt.mp hlength)
    rwa [hwhole] at hall

theorem partitionSearchable_of_forall₂ {results : List (ObjectId × List Slice)}
    (hsearchable : ∀ w ∈ ws, w.isSearchable constraints = true)
    (hresults : Forall₂ (fun w r => r.1 = w.id ∧ w.partition constraints = .ok r.2) ws results) :
    partitionSearchable constraints ws = .ok (Groups.replaceAll results []) := by
  have hwhole : ws.takeWhile (Workload.isSearchable constraints) = ws :=
    List.takeWhile_eq_self_iff.mpr hsearchable
  have hall : (ws.mapM fun w => do
      let slices ← w.partition constraints
      pure (w.id, slices)) = .ok results := by
    clear hsearchable hwhole
    induction hresults with
    | nil => rfl
    | cons hr _ ih =>
        obtain ⟨hid, hslices⟩ := hr
        rw [List.mapM_cons, hslices, ih, ← hid]
        rfl
  rw [partitionSearchable, hwhole, partitionAll, hall]
  exact if_neg (Nat.lt_irrefl _)

theorem isSome_slices? (h : partitionSearchable constraints ws = .ok ps) {w : Workload}
    (hw : w ∈ ws) : (ps.slices? w.id).isSome := by
  obtain ⟨results, hresults, rfl⟩ := partitionAll_eq_ok (partitionSearchable_eq_ok h)
  obtain ⟨r, hr, hid, -⟩ := exists_right_of_forall₂ hresults hw
  exact Groups.isSome_find?_replaceAll (Or.inr ⟨r, hr, hid⟩)

theorem nodup_vertices (h : partitionSearchable constraints ws = .ok ps) :
    (ps.map (·.1)).Nodup := by
  obtain ⟨results, -, rfl⟩ := partitionAll_eq_ok (partitionSearchable_eq_ok h)
  apply Groups.nodup_keys_replaceAll
  exact List.nodup_nil

theorem exists_workload_of_slices (h : partitionSearchable constraints ws = .ok ps)
    {slices : List Slice} (hslices : ps.slices? id = some slices) :
    ∃ w ∈ ws, w.id = id ∧ w.partition constraints = .ok slices := by
  obtain ⟨results, hresults, rfl⟩ := partitionAll_eq_ok (partitionSearchable_eq_ok h)
  rcases Groups.mem_of_find?_replaceAll hslices with hnone | hmem
  · cases hnone
  · obtain ⟨w, hw, hid, hpartition⟩ := exists_left_of_forall₂ hresults hmem
    exact ⟨w, hw, hid.symm, hpartition⟩

theorem nodup_slices (h : partitionSearchable constraints ws = .ok ps) {slices : List Slice}
    (hslices : ps.slices? id = some slices) : slices.Nodup := by
  obtain ⟨w, -, -, hpartition⟩ := exists_workload_of_slices h hslices
  exact (Workload.tiles_of_partition hpartition).nodup

theorem partitionSearchable_ne_unknownVertex (id : ObjectId) :
    partitionSearchable constraints ws ≠ .error (.unknownVertex id) := by
  intro h
  rcases bind_eq_error_iff.mp h with hall | ⟨ps, -, hlength⟩
  · rcases bind_eq_error_iff.mp hall with hresults | ⟨results, -, hpure⟩
    · obtain ⟨w, -, hw⟩ := exists_of_mapM_error hresults
      rcases bind_eq_error_iff.mp hw with hpartition | ⟨slices, -, hpure⟩
      · exact Workload.partition_ne_unknownVertex id hpartition
      · cases hpure
    · cases hpure
  · split at hlength <;> cases hlength

theorem mem_splitVertices_iff (hnodup : (ps.map (·.1)).Nodup) {x : SplitVertex} :
    x ∈ ps.splitVertices.flatMap (·.2)
      ↔ ∃ slices, ps.slices? x.vertex = some slices ∧ x.slice ∈ slices := by
  simp only [Partitions.splitVertices, List.mem_flatMap, List.mem_map]
  constructor
  · rintro ⟨_, ⟨⟨vertex, slices⟩, hmem, rfl⟩, hx⟩
    obtain ⟨slice, hslice, rfl⟩ := List.mem_map.mp hx
    exact ⟨slices, Groups.find?_of_mem hnodup hmem, hslice⟩
  · rintro ⟨slices, hslices, hslice⟩
    obtain ⟨vertex, hmem, hsame⟩ := Groups.exists_of_find? hslices
    obtain rfl : vertex = x.vertex := of_decide_eq_true hsame
    exact ⟨_, ⟨_, hmem, rfl⟩, List.mem_map_of_mem hslice⟩

/-- Every pair of slices of the ends, once each and under the keyspace of the edge. -/
structure SplitsInto (ps : Partitions) (e : Edge) (splits : List SplitEdge) : Prop where
  nodup : splits.Nodup
  pairs : ∃ pres posts, ps.slices? e.pre = some pres ∧ ps.slices? e.post = some posts
    ∧ ∀ split, split ∈ splits ↔ ∃ pre ∈ pres, ∃ post ∈ posts,
      split = ⟨⟨e.pre, pre⟩, ⟨e.post, post⟩, e.keyspace⟩

theorem ofVertex?_splitVertices (ps : Partitions) (id : ObjectId) :
    ps.splitVertices.ofVertex? id = (ps.slices? id).map fun slices => slices.map (⟨id, ·⟩) :=
  Groups.find?_map id (fun id (slices : List Slice) => slices.map (SplitVertex.mk id)) ps

theorem ofVertex_eq_ok_iff {splits : List SplitVertex} :
    ps.splitVertices.ofVertex id = .ok splits ↔
      ∃ slices, ps.slices? id = some slices ∧ slices.map (⟨id, ·⟩) = splits := by
  unfold SplitVertices.ofVertex
  rw [ofVertex?_splitVertices]
  cases ps.slices? id <;> simp

theorem splitEdge_eq_ok_iff {e : Edge} {splits : List SplitEdge} :
    ps.splitVertices.splitEdge e = .ok splits ↔
      ∃ pres posts, ps.slices? e.pre = some pres ∧ ps.slices? e.post = some posts
        ∧ (pres ×ˢ posts).map (fun x => ⟨⟨e.pre, x.1⟩, ⟨e.post, x.2⟩, e.keyspace⟩) = splits := by
  have hpairs (pres posts : List Slice) :
      ((pres.map (SplitVertex.mk e.pre)).flatMap fun pre =>
        (posts.map (SplitVertex.mk e.post)).map fun post => SplitEdge.mk pre post e.keyspace)
      = (pres ×ˢ posts).map fun x => ⟨⟨e.pre, x.1⟩, ⟨e.post, x.2⟩, e.keyspace⟩ := by
    simp only [SProd.sprod, List.product, List.flatMap_map, List.map_flatMap, List.map_map]
    rfl
  simp only [SplitVertices.splitEdge, bind_eq_ok_iff, ofVertex_eq_ok_iff]
  constructor
  · rintro ⟨_, ⟨pres, hpres, rfl⟩, _, ⟨posts, hposts, rfl⟩, h⟩
    cases h
    exact ⟨pres, posts, hpres, hposts, (hpairs pres posts).symm⟩
  · rintro ⟨pres, posts, hpres, hposts, rfl⟩
    exact ⟨_, ⟨pres, hpres, rfl⟩, _, ⟨posts, hposts, rfl⟩, congrArg Except.ok (hpairs pres posts)⟩

theorem splitsInto_of_splitEdge {e : Edge} {splits : List SplitEdge}
    (hps : partitionSearchable constraints ws = .ok ps)
    (h : ps.splitVertices.splitEdge e = .ok splits) : SplitsInto ps e splits := by
  obtain ⟨pres, posts, hpres, hposts, rfl⟩ := splitEdge_eq_ok_iff.mp h
  refine ⟨?_, pres, posts, hpres, hposts, fun split => ?_⟩
  · have hpairs := List.Nodup.product (nodup_slices hps hpres) (nodup_slices hps hposts)
    refine hpairs.map fun x y hxy => ?_
    simp only [SplitEdge.mk.injEq, SplitVertex.mk.injEq] at hxy
    exact Prod.ext hxy.1.2 hxy.2.1.2
  · rw [List.mem_map]
    constructor
    · rintro ⟨⟨pre, post⟩, hmem, rfl⟩
      obtain ⟨hpre, hpost⟩ := List.mem_product.mp hmem
      exact ⟨pre, hpre, post, hpost, rfl⟩
    · rintro ⟨pre, hpre, post, hpost, rfl⟩
      exact ⟨(pre, post), List.mem_product.mpr ⟨hpre, hpost⟩, rfl⟩

theorem splitEdges_eq_ok {vs : SplitVertices} {es : List Edge}
    {edges : List (Edge × List SplitEdge)} (h : vs.splitEdges es = .ok edges) :
    edges.map (·.1) = es ∧ ∀ x ∈ edges, vs.splitEdge x.1 = .ok x.2 := by
  have hall : Forall₂ (fun e x => x.1 = e ∧ vs.splitEdge x.1 = .ok x.2) es edges := by
    refine (forall₂_of_mapM_ok h).imp fun e x hx => ?_
    obtain ⟨splits, hsplits, hpair⟩ := bind_eq_ok_iff.mp hx
    cases hpair
    exact ⟨rfl, hsplits⟩
  constructor
  · rw [map_eq_map_of_forall₂ hall fun _ _ hx => hx.1, List.map_id']
  · intro x hx
    obtain ⟨e, -, -, hsplit⟩ := exists_left_of_forall₂ hall hx
    exact hsplit

theorem splitEdges_ne_error {es : List Edge} {e : PartitionError}
    (h : ∀ x ∈ es, (ps.slices? x.pre).isSome ∧ (ps.slices? x.post).isSome) :
    ps.splitVertices.splitEdges es ≠ .error e := by
  intro herror
  obtain ⟨x, hx, hstep⟩ := exists_of_mapM_error herror
  obtain ⟨hpre, hpost⟩ := h x hx
  obtain ⟨pres, hpres⟩ := Option.isSome_iff_exists.mp hpre
  obtain ⟨posts, hposts⟩ := Option.isSome_iff_exists.mp hpost
  rw [splitEdge_eq_ok_iff.mpr ⟨pres, posts, hpres, hposts, rfl⟩] at hstep
  cases hstep

end Manycore
