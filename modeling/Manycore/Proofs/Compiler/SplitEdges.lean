import Manycore.Proofs.Compiler.FilterRouting
import Manycore.Proofs.Compiler.OwnVertices
import Manycore.Proofs.Connection.Edges
import Manycore.Proofs.Partition.Split
import Mathlib.Data.List.Perm.Basic

/-! # Connections and split edges

A compilation passes connections through expansions, a tree, keyspaces, vertices and partitions. Of
all this a connection keeps its two ends, its own keyspace, and which others it shares one with.
-/

namespace Manycore

open List (Forall₂)
open Keying Keyspace

namespace StreamTree

variable {t : StreamTree} {leaf leaf' : Leaf} {layout : Nat}

theorem placeOf_eq_iff (hleaf : leaf ∈ t.placedLeaves) {origin : ObjectId} :
    t.placeOf leaf.origin = t.placeOf origin ↔ leaf.origin = origin := by
  obtain ⟨out, -, hout, -⟩ := mem_placedLeaves.mp hleaf
  exact List.idxOf_inj (List.mem_map_of_mem (f := fun x => x.1) hout)

/-- Streams without a keyspace of their own share one when they are merged, and only then. -/
theorem Separate.keyspaceAt_eq_iff (ht : t.Separate) (hleaf : leaf ∈ t.placedLeaves)
    (hleaf' : leaf' ∈ t.placedLeaves) (hnone : leaf.stream.keyspace = none)
    (hnone' : leaf'.stream.keyspace = none) :
    keyspaceAt layout (t.placeOf leaf.origin) leaf.place leaf.stream
        = keyspaceAt layout (t.placeOf leaf'.origin) leaf'.place leaf'.stream
      ↔ leaf.origin = leaf'.origin ∧ leaf.stream.same leaf'.stream = true := by
  have hplaces : keyspaceAt layout (t.placeOf leaf.origin) leaf.place leaf.stream
        = keyspaceAt layout (t.placeOf leaf'.origin) leaf'.place leaf'.stream
      ↔ t.placeOf leaf.origin = t.placeOf leaf'.origin ∧ leaf.place = leaf'.place := by
    simp [keyspaceAt, hnone, hnone', forStream, and_comm]
  rw [hplaces, placeOf_eq_iff hleaf]
  exact and_congr_right fun horigin => ht.place_eq_iff hleaf hleaf' horigin

end StreamTree

namespace Compiler

variable {c : Compiler} {objects : ObjectTable} {connections : List Connection} {p q : Pool}
  {layout : Nat} {t tree : StreamTree} {x y : Connection} {e e' : Edge}

/-- What a connection is reduced to at its sender. -/
def reduced (objects : ObjectTable) (x : Connection) : Except ConnectionError Stream := do
  let expansion ← expand objects x
  expansion.stream

/-- The connections are reduced to streams that are the same. -/
def SameReduced (objects : ObjectTable) (x y : Connection) : Prop :=
  ∃ s s', reduced objects x = .ok s ∧ reduced objects y = .ok s' ∧ s.same s' = true

/-- A receiver that stands for a connection. -/
structure Stands (objects : ObjectTable) (x : Connection) (leaf : Leaf) : Prop where
  pre : leaf.origin = x.pre
  post : leaf.receiver.object = x.post
  stream : ∃ s, reduced objects x = .ok s ∧ leaf.stream.same s = true
  keyspace : leaf.stream.keyspace = x.keyspace

theorem stands_of_makes {expansion : Expansion} {leaf : Leaf}
    (hexpand : expand objects x = .ok expansion) (hmakes : StreamTree.Makes expansion leaf) :
    Stands objects x leaf := by
  have hkeeps := keeps_of_expand hexpand
  obtain ⟨s, hs, hsame⟩ := hmakes.stream
  have hreceiver := hmakes.receiver
  refine ⟨hmakes.origin.trans hkeeps.pre, ?_, ⟨s, ?_, hsame⟩, ?_⟩
  · simp only [Expansion.receiver, bind_eq_ok_iff] at hreceiver
    obtain ⟨slice, -, filter, -, hpure⟩ := hreceiver
    rw [← Except.ok.inj hpure]
    exact hkeeps.post
  · exact bind_eq_ok_iff.mpr ⟨expansion, hexpand, hs⟩
  · rw [Stream.keyspace_eq_of_same hsame, Expansion.keyspace_of_stream hs, hkeeps.keyspace]

theorem Stands.sameReduced_iff {leaf leaf' : Leaf} (h : Stands objects x leaf)
    (h' : Stands objects y leaf') :
    SameReduced objects x y ↔ leaf.stream.same leaf'.stream = true := by
  obtain ⟨s, hs, hsame⟩ := h.stream
  obtain ⟨s', hs', hsame'⟩ := h'.stream
  simp only [SameReduced, hs, hs', Stream.same_iff, Except.ok.injEq] at *
  grind

/-- The edge to a receiver that stands for the connection. -/
def Feeds (objects : ObjectTable) (t : StreamTree) (layout : Nat) (x : Connection) (e : Edge) :
    Prop :=
  ∃ leaf ∈ t.placedLeaves, Stands objects x leaf
    ∧ leaf.keyedEdge layout (t.placeOf leaf.origin) = e

theorem Feeds.pre (h : Feeds objects t layout x e) : e.pre = x.pre := by
  obtain ⟨leaf, -, hstands, rfl⟩ := h
  exact hstands.pre

theorem Feeds.post (h : Feeds objects t layout x e) : e.post = x.post := by
  obtain ⟨leaf, -, hstands, rfl⟩ := h
  exact hstands.post

theorem Feeds.keyspace (h : Feeds objects t layout x e) :
    ∃ k, e.keyspace = some k ∧ ∀ own, x.keyspace = some own → k = own := by
  obtain ⟨leaf, -, hstands, rfl⟩ := h
  refine ⟨_, rfl, fun own hown => ?_⟩
  rw [hstands.keyspace, hown, Option.getD_some]

theorem Feeds.keyspace_eq_iff (ht : t.Separate) (h : Feeds objects t layout x e)
    (h' : Feeds objects t layout y e') (hx : x.keyspace = none) (hy : y.keyspace = none) :
    e.keyspace = e'.keyspace ↔ x.pre = y.pre ∧ SameReduced objects x y := by
  obtain ⟨leaf, hleaf, hstands, rfl⟩ := h
  obtain ⟨leaf', hleaf', hstands', rfl⟩ := h'
  rw [hstands.sameReduced_iff hstands', ← hstands.pre, ← hstands'.pre]
  exact ht.keyspaceAt_eq_iff hleaf hleaf' (hstands.keyspace.trans hx) (hstands'.keyspace.trans hy)

theorem in_append (p : Pool) (l : Layout) :
    (⟨p.layouts.length, []⟩ : Keyspace).In ⟨p.layouts ++ [l]⟩ := by
  simp [Keyspace.In]

/-- Every connection becomes an edge of the tree, and there are no others. -/
theorem exists_feeds (htransforms : c.transforms = [])
    (h : Yields (c.buildTree objects connections) p tree q) :
    ∃ layout t xs, t.Separate ∧ xs.Perm connections
      ∧ Forall₂ (Feeds objects t layout) xs tree.edges := by
  simp only [buildTree, htransforms, yields_bind_iff, yields_ofExcept_iff, mapError_eq_ok_iff,
    yields_mapError_iff, yields_foldlM_nil_iff] at h
  obtain ⟨es, _, ⟨hes, rfl⟩, t, _, ⟨ht, rfl⟩, _, _, ⟨rfl, rfl⟩, default, mid, hdefault, happly⟩ := h
  obtain ⟨-, rfl, rfl⟩ := yields_forStreams hdefault
  have hseparate := StreamTree.separate_of_ofExpansions ht
  have hedges := StreamTree.edges_of_applyKeyspace (in_append p _) hseparate happly
  obtain ⟨es', hes', hmakes⟩ := StreamTree.exists_order_of_ofExpansions ht
  -- The receivers are in an order of their own, and so are the edges once there are keyspaces.
  obtain ⟨xs, hexpanded, hxs⟩ := List.perm_comp_forall₂ hes' (forall₂_of_mapM_ok hes).flip
  have hstands := forall₂_comp hexpanded.flip hmakes
  have hfeeds : Forall₂ (Feeds objects t p.layouts.length) xs
      (t.placedLeaves.map fun x => x.keyedEdge p.layouts.length (t.placeOf x.origin)) := by
    rw [List.forall₂_map_right_iff]
    refine (forall₂_and_mem hstands).imp fun x leaf hboth => ?_
    obtain ⟨⟨expansion, hexpand, hmake⟩, -, hleaf⟩ := hboth
    exact ⟨leaf, hleaf, stands_of_makes hexpand hmake, rfl⟩
  obtain ⟨ys, hys, hperm⟩ := List.perm_comp_forall₂ hedges hfeeds.flip
  exact ⟨p.layouts.length, t, ys, hseparate, hperm.trans hxs, hys.flip⟩

/-- What a network is made of. -/
structure Stages (c : Compiler) (objects : ObjectTable) (connections : List Connection) (p : Pool)
    (n : Network) : Prop where
  tree : ∃ q, Yields (c.buildTree objects connections) p n.tree q
  vertices : ∃ context p q, Yields (c.assembleAll context objects) p n.vertices q
  partitions : partitionSearchable c.allConstraints (n.vertices.map (·.2.workload))
    = .ok n.partitions
  edges : n.partitions.splitVertices.splitEdges (edgesBetween n.vertices n.tree) = .ok n.edges

theorem stages_of_compile {n : Network} (h : Yields (c.compile objects connections) p n q) :
    Stages c objects connections p n := by
  obtain ⟨mid, format, htree, -, hvertices, hps, hsplits, hedges⟩ := yields_compile_iff.mp h
  rw [hsplits] at hedges
  exact ⟨⟨_, htree⟩, ⟨_, _, _, hvertices⟩, hps, hedges⟩

theorem isSome_slices?_of_vertex {vertices : Groups ObjectId RegionedVertex} {ps : Partitions}
    {id : ObjectId} (hids : ∀ v ∈ vertices, v.2.id = v.1)
    (hps : partitionSearchable c.allConstraints (vertices.map (·.2.workload)) = .ok ps)
    (h : vertices.any (fun v => decide (v.1 = id)) = true) : (ps.slices? id).isSome := by
  obtain ⟨v, hv, hid⟩ := List.any_eq_true.mp h
  have hslices := isSome_slices? hps (List.mem_map_of_mem (f := fun x => x.2.workload) hv)
  have hworkload : v.2.workload.id = id := (hids v hv).trans (of_decide_eq_true hid)
  rwa [hworkload] at hslices

theorem splitEdges_edgesBetween_ne_error {vertices : Groups ObjectId RegionedVertex}
    {ps : Partitions} {e : PartitionError} (hids : ∀ v ∈ vertices, v.2.id = v.1)
    (hps : partitionSearchable c.allConstraints (vertices.map (·.2.workload)) = .ok ps) :
    ps.splitVertices.splitEdges (edgesBetween vertices tree) ≠ .error e := by
  apply splitEdges_ne_error
  intro x hx
  have hends := (List.mem_filter.mp hx).2
  rw [Bool.and_eq_true] at hends
  exact ⟨isSome_slices?_of_vertex hids hps hends.1, isSome_slices?_of_vertex hids hps hends.2⟩

theorem not_fails_buildTree (htransforms : c.transforms = []) (cause : PartitionError) :
    ¬ Fails (c.buildTree objects connections) p (.partition cause) := by
  simp [buildTree, htransforms, fails_bind_iff, fails_ofExcept_iff, fails_mapError_iff,
    mapError_eq_error_iff]

theorem not_fails_compile (htransforms : c.transforms = []) (hown : c.AssemblesOwn objects)
    (id : ObjectId) :
    ¬ Fails (c.compile objects connections) p (.partition (.unknownVertex id)) := by
  intro h
  unfold compile at h
  rcases fails_bind_iff.mp h with htree | ⟨tree, _, -, h⟩
  · exact not_fails_buildTree htransforms _ htree
  rcases fails_bind_iff.mp h with hformat | ⟨format, _, -, h⟩
  · obtain ⟨cause, -, hcause⟩ := fails_ofExcept_mapError_iff.mp hformat
    cases hcause
  rcases fails_bind_iff.mp h with hvertices | ⟨vertices, _, hvertices, h⟩
  · exact not_fails_assembleAll hown id hvertices
  rcases fails_bind_iff.mp h with hps | ⟨ps, _, hps, h⟩
  · obtain ⟨cause, hps, hcause⟩ := fails_ofExcept_mapError_iff.mp hps
    cases hcause
    exact partitionSearchable_ne_unknownVertex id hps
  rcases fails_bind_iff.mp h with hedges | ⟨edges, _, -, hpure⟩
  · obtain ⟨cause, hedges, -⟩ := fails_ofExcept_mapError_iff.mp hedges
    have hpartitioned := mapError_eq_ok_iff.mp (yields_ofExcept_iff.mp hps).1
    have hids := id_of_assembleAll hown hvertices
    exact splitEdges_edgesBetween_ne_error hids hpartitioned hedges
  · exact not_fails_pure hpure

end Compiler

/-- Both objects have a vertex. -/
def Network.joins (n : Network) (pre post : ObjectId) : Bool :=
  (n.vertex? pre).isSome && (n.vertex? post).isSome

theorem Compiler.edgesBetween_eq (n : Network) :
    edgesBetween n.vertices n.tree = n.tree.edges.filter fun e => n.joins e.pre e.post := by
  simp only [edgesBetween, Network.joins, Network.vertex?, Groups.isSome_find?]

/-- An edge has the ends of a connection, and its keyspace if it has one. -/
structure Connection.Becomes (x : Connection) (e : Edge) : Prop where
  pre : e.pre = x.pre
  post : e.post = x.post
  keyspace : ∃ k, e.keyspace = some k ∧ ∀ own, x.keyspace = some own → k = own

/-- A network conveys the connections between objects with vertices, and nothing else. -/
structure Network.Conveys (n : Network) (objects : ObjectTable) (connections : List Connection) :
    Prop where
  count : ∀ pre post, n.edges.countP (fun x => x.1.pre = pre ∧ x.1.post = post)
    = if n.joins pre post then connections.countP fun x => x.pre = pre ∧ x.post = post else 0
  splits : ∀ x ∈ n.edges, x.1.keyspace.isSome ∧ SplitsInto n.partitions x.1 x.2
  shared : ∃ kept, kept.Perm (connections.filter fun x => n.joins x.pre x.post)
    ∧ Forall₂ (fun x y => x.Becomes y.1) kept n.edges
    ∧ ∀ x ∈ kept.zip n.edges, ∀ y ∈ kept.zip n.edges, x.1.keyspace = none → y.1.keyspace = none →
      (x.2.1.keyspace = y.2.1.keyspace
        ↔ x.1.pre = y.1.pre ∧ Compiler.SameReduced objects x.1 y.1)

namespace Compiler

variable {c : Compiler} {objects : ObjectTable} {connections : List Connection} {p : Pool}
  {n : Network}

theorem becomes_of_feeds {t : StreamTree} {layout : Nat} {x : Connection} {e : Edge}
    (h : Feeds objects t layout x e) : x.Becomes e :=
  ⟨h.pre, h.post, h.keyspace⟩

theorem Stages.exists_kept (htransforms : c.transforms = [])
    (h : Stages c objects connections p n) : ∃ layout t kept, t.Separate
      ∧ kept.Perm (connections.filter fun x => n.joins x.pre x.post)
      ∧ Forall₂ (fun x y => Feeds objects t layout x y.1) kept n.edges := by
  obtain ⟨q, htree⟩ := h.tree
  obtain ⟨layout, t, xs, hseparate, hperm, hfeeds⟩ := exists_feeds htransforms htree
  refine ⟨layout, t, xs.filter fun x => n.joins x.pre x.post, hseparate, hperm.filter _, ?_⟩
  have hkept := forall₂_filter (p := fun x => n.joins x.pre x.post)
    (q := fun e => n.joins e.pre e.post) hfeeds fun x e hx => by rw [hx.pre, hx.post]
  rw [← edgesBetween_eq, ← (splitEdges_eq_ok h.edges).1] at hkept
  exact List.forall₂_map_right_iff.mp hkept

theorem count_of_becomes {kept : List Connection} {es : List (Edge × List SplitEdge)}
    (hkept : kept.Perm (connections.filter fun x => n.joins x.pre x.post))
    (hall : Forall₂ (fun x y => x.Becomes y.1) kept es) (pre post : ObjectId) :
    es.countP (fun x => x.1.pre = pre ∧ x.1.post = post) = if n.joins pre post
      then connections.countP fun x => x.pre = pre ∧ x.post = post else 0 := by
  have hcount : kept.countP (fun x => x.pre = pre ∧ x.post = post)
      = es.countP fun x => x.1.pre = pre ∧ x.1.post = post :=
    countP_eq_of_forall₂ hall fun x y hx => by rw [hx.pre, hx.post]
  rw [← hcount, hkept.countP_eq, List.countP_filter]
  split
  · rename_i hjoins
    apply List.countP_congr
    intro x hx
    simp only [Bool.and_eq_true, decide_eq_true_eq]
    constructor
    · exact And.left
    · rintro ⟨rfl, rfl⟩
      exact ⟨⟨rfl, rfl⟩, hjoins⟩
  · rename_i hjoins
    rw [List.countP_eq_zero]
    intro x hx
    simp only [Bool.and_eq_true, decide_eq_true_eq]
    rintro ⟨⟨rfl, rfl⟩, hboth⟩
    exact hjoins hboth

/-- Without changes of the tree, a compiled network has one edge for each connection between objects
with vertices, which is split between all slices of its ends; and no compilation misses a vertex. -/
theorem compile_conveys (htransforms : c.transforms = []) (hown : c.AssemblesOwn objects) :
    (∀ id, ¬ Fails (c.compile objects connections) p (.partition (.unknownVertex id)))
      ∧ ∀ n q, Yields (c.compile objects connections) p n q → n.Conveys objects connections := by
  refine ⟨not_fails_compile htransforms hown, fun n q h => ?_⟩
  have hstages := stages_of_compile h
  obtain ⟨layout, t, kept, hseparate, hperm, hfeeds⟩ := hstages.exists_kept htransforms
  have hbecomes := hfeeds.imp fun _ _ => becomes_of_feeds
  constructor
  case count => exact count_of_becomes hperm hbecomes
  case splits =>
    intro x hx
    obtain ⟨y, -, hy⟩ := exists_left_of_forall₂ hbecomes hx
    obtain ⟨k, hk, -⟩ := hy.keyspace
    have hsplit := (splitEdges_eq_ok hstages.edges).2 x hx
    exact ⟨by rw [hk, Option.isSome_some], splitsInto_of_splitEdge hstages.partitions hsplit⟩
  case shared =>
    refine ⟨kept, hperm, hbecomes, fun x hx y hy hnone hnone' => ?_⟩
    have hx' := List.forall₂_zip hfeeds hx
    have hy' := List.forall₂_zip hfeeds hy
    exact hx'.keyspace_eq_iff hseparate hy' hnone hnone'

end Compiler

/-- Both connections from the first filter to the second have an edge of their own. -/
theorem ThreeFilters.conveyed : ∃ n q,
    Yields (compiler.compile objects connections) Pool.empty n q ∧ n.Conveys objects connections
      ∧ n.edges.countP (fun x => x.1.pre = ⟨0⟩ ∧ x.1.post = ⟨1⟩) = 2 := by
  obtain ⟨n, q, slots, q', h, -, -⟩ := exists_compile
  have hown : compiler.AssemblesOwn objects :=
    Compiler.assemblesOwn_of_filters (List.forall_mem_singleton.mpr ⟨.standard, rfl⟩)
  have hconveys := (Compiler.compile_conveys rfl hown).2 n q h
  refine ⟨n, q, h, hconveys, ?_⟩
  obtain ⟨_, _, _, _, _, _, _, hnetwork⟩ :=
    Compiler.yields_compile rfl rfl (by decide +kernel) (by decide +kernel) h
  have hids : n.vertices.map (·.1) = objects.objects.map (·.id) :=
    map_eq_map_of_forall₂ hnetwork.vertices fun _ _ hx => hx.1
  have hvertex (id : ObjectId) :
      (n.vertex? id).isSome = (objects.objects.map (·.id)).any fun x => decide (x = id) := by
    rw [← hids, List.any_map]
    exact Groups.isSome_find? _ id n.vertices
  rw [hconveys.count, Network.joins, hvertex, hvertex]
  decide +kernel

end Manycore
