import Manycore.Proofs.Compiler.Assembly
import Manycore.Proofs.Connection.Keyed
import Manycore.Proofs.Partition

/-! # Compiled filter networks

What a network of filters is made of when it has been compiled: a keyed tree, a vertex for each
object, and words that fit into the memory of a node.
-/

namespace Manycore

open List (Forall₂)
open Keying Keyspace

section

variable {p q : Pool} {layout w sb db : Nat}

theorem StreamTree.keyedBy_keyedOn (layout : Nat) (t : StreamTree) :
    (t.keyedOn layout).KeyedBy layout := by
  intro x hx y hy
  obtain ⟨z, -, rfl⟩ := List.mem_map.mp hx
  obtain ⟨z', -, rfl⟩ := List.mem_map.mp hy
  exact ⟨_, _, rfl⟩

theorem StreamTree.Noted.place {most : String → Nat} {object connection : Nat}
    (h : StreamTree.Noted layout p object connection)
    (hlayout : p.layoutOf ⟨layout, []⟩ = openStreams w sb db most) :
    StreamPlace most object connection := by
  have hnotes : (openStreams w sb db most).Notes (forStream layout object connection).bindings :=
    hlayout ▸ h
  obtain ⟨f, hf, hobject⟩ := hnotes objectField object rfl
  obtain ⟨g, hg, hconnection⟩ := hnotes connectionField connection rfl
  cases hf
  cases hg
  exact ⟨hobject, hconnection⟩

/-- A tree of connections without keyspaces, before and after it gets them. -/
structure TreeBuilt (w sb db layout : Nat) (most : String → Nat) (t : StreamTree)
    (q : Pool) : Prop where
  unkeyed : t.Unkeyed
  pool : StreamPool w sb db most layout q
  place : ∀ o i, t.HasPlace o i → StreamPlace most o i

theorem TreeBuilt.place_of_sends {t : StreamTree} {most : String → Nat} {origin : ObjectId}
    {place object : Nat} {keyspace : Option Keyspace}
    (h : TreeBuilt w sb db layout most t q) (hsends : t.Sends layout origin place object keyspace) :
    StreamPlace most object place := h.place object place hsends.hasPlace

/-- A tree of connections without keyspaces gets them on a layout that has just been opened. -/
structure TreeKeyed (w sb db layout : Nat) (t : StreamTree) (start q : Pool) : Prop where
  unkeyed : t.Unkeyed
  bounds : StreamBounds w sb db
  inPool : (⟨layout, []⟩ : Keyspace).In start
  opened : start.layoutOf ⟨layout, []⟩ = openStreams w sb db fun _ => 1
  run : Pool.Run (StreamTree.placing t.HasPlace) start q
  noted : ∀ o i, t.HasPlace o i → StreamTree.Noted layout q o i

theorem TreeKeyed.exists_built {t : StreamTree} {start : Pool}
    (h : TreeKeyed w sb db layout t start q) : ∃ most, TreeBuilt w sb db layout most t q := by
  have hbinding : Pool.Run Pool.binding start q := h.run.imp fun _ _ _ hrule => hrule.1
  obtain ⟨most, hlayout⟩ := exists_openStreams_run ⟨_, h.opened⟩ h.inPool hbinding
  refine ⟨most, h.unkeyed, ⟨h.inPool.run h.run, ?_⟩, ?_⟩
  · exact .opened h.bounds hlayout fun _ => Nat.le_refl _
  · exact fun o i hplace => (h.noted o i hplace).place hlayout

end

/-- No keyspaces come from the change. -/
def NetworkTransform.KeepsUnkeyed (t : NetworkTransform) (objects : ObjectTable) : Prop :=
  ∀ tree p tree' q, tree.Unkeyed → Yields (t.apply tree objects) p tree' q → tree'.Unkeyed

theorem NetworkTransform.keepsUnkeyed_replaceObjects (name : String) (rename : ObjectId → ObjectId)
    (originating terminating : Bool) (objects : ObjectTable) :
    (replaceObjects name rename originating terminating).KeepsUnkeyed objects := by
  intro tree p tree' q htree h
  obtain ⟨rfl, -⟩ := yields_pure_iff.mp h
  exact htree.replaceObjects rename originating terminating

namespace Compiler

variable {c : Compiler} {objects : ObjectTable} {connections : List Connection} {p q : Pool}
  {tree : StreamTree}

/-- The tree of the connections, changed as asked. -/
def changedTree (c : Compiler) (objects : ObjectTable) (connections : List Connection) :
    Keying CompileError StreamTree := do
  let expansions ← Keying.ofExcept ((connections.mapM (expand objects)).mapError .connection)
  let tree ← Keying.ofExcept ((StreamTree.ofExpansions expansions).mapError .connection)
  c.transforms.foldlM (fun tree t => t.apply tree objects) tree

theorem yields_buildTree_iff : Yields (c.buildTree objects connections) p tree q ↔
    ∃ t mid default mid', Yields (c.changedTree objects connections) p t mid
      ∧ Yields c.defaultKeyspace mid default mid' ∧ Yields (t.applyKeyspace default) mid' tree q := by
  simp only [buildTree, changedTree, yields_bind_iff, yields_mapError_iff]
  constructor
  · rintro ⟨es, _, hes, t, _, ht, t', mid, htransforms, default, mid', hdefault, happly⟩
    exact ⟨t', mid, default, mid', ⟨es, _, hes, t, _, ht, htransforms⟩, hdefault, happly⟩
  · rintro ⟨t', mid, default, mid', ⟨es, _, hes, t, _, ht, htransforms⟩, hdefault, happly⟩
    exact ⟨es, _, hes, t, _, ht, t', mid, htransforms, default, mid', hdefault, happly⟩

/-- No connection has a keyspace of its own, neither from the start nor by a change of the tree. -/
def LeavesUnkeyed (c : Compiler) (objects : ObjectTable) (connections : List Connection)
    (p : Pool) : Prop :=
  ∀ t q, Yields (c.changedTree objects connections) p t q → t.Unkeyed

theorem leavesUnkeyed (hkeyspaces : ∀ x ∈ connections, x.keyspace = none)
    (htransforms : ∀ x ∈ c.transforms, x.KeepsUnkeyed objects) (p : Pool) :
    c.LeavesUnkeyed objects connections p := by
  intro t' q h
  simp only [changedTree, yields_bind_iff, yields_ofExcept_iff, mapError_eq_ok_iff] at h
  obtain ⟨es, _, ⟨hes, rfl⟩, t, _, ⟨ht, rfl⟩, hchanged⟩ := h
  refine yields_foldlM_induct hchanged (StreamTree.unkeyed_of_ofExpansions ht fun e he => ?_)
    fun x hx tree p tree' q htree hstep => htransforms x hx tree p tree' q htree hstep
  obtain ⟨x, hx, hexpand⟩ := exists_left_of_forall₂ (forall₂_of_mapM_ok hes) he
  exact (keeps_of_expand hexpand).keyspace.trans (hkeyspaces x hx)

theorem exists_treeKeyed (hunkeyed : c.LeavesUnkeyed objects connections p)
    (h : Yields (c.buildTree objects connections) p tree q) :
    ∃ layout t start, TreeKeyed c.config.keys.width.toNat c.config.keys.subvertexBits.toNat
      c.config.keys.dimensionBits.toNat layout t start q ∧ tree = t.keyedOn layout := by
  obtain ⟨t, mid, default, mid', hchanged, hdefault, happly⟩ := yields_buildTree_iff.mp h
  obtain ⟨hbounds, rfl, rfl⟩ := yields_forStreams hdefault
  have ht := hunkeyed t mid hchanged
  let keys := c.config.keys
  let opened := openStreams keys.width.toNat keys.subvertexBits.toNat keys.dimensionBits.toNat
    fun _ => 1
  have hin : (⟨mid.layouts.length, []⟩ : Keyspace).In ⟨mid.layouts ++ [opened]⟩ := by
    simp [Keyspace.In]
  obtain ⟨rfl, hrun, hnoted⟩ := StreamTree.yields_applyKeyspace hin ht happly
  exact ⟨mid.layouts.length, t, ⟨mid.layouts ++ [opened]⟩,
    ⟨ht, hbounds, hin, Pool.layoutOf_append mid _ _, hrun, hnoted⟩, rfl⟩

theorem yields_buildTree (htransforms : c.transforms = [])
    (hkeyspaces : ∀ x ∈ connections, x.keyspace = none)
    (h : Yields (c.buildTree objects connections) p tree q) :
    ∃ w sb db layout most t, TreeBuilt w sb db layout most t q ∧ tree = t.keyedOn layout := by
  have hkeeps : ∀ x ∈ c.transforms, x.KeepsUnkeyed objects := by
    rw [htransforms]
    exact fun x hx => nomatch hx
  obtain ⟨layout, t, start, hkeyed, rfl⟩ :=
    exists_treeKeyed (leavesUnkeyed hkeyspaces hkeeps p) h
  obtain ⟨most, hbuilt⟩ := hkeyed.exists_built
  exact ⟨_, _, _, layout, most, t, hbuilt, rfl⟩

end Compiler

theorem Compiler.yields_compile_iff {c : Compiler} {objects : ObjectTable}
    {connections : List Connection} {p q : Pool} {n : Network} :
    Yields (c.compile objects connections) p n q ↔ ∃ mid format,
      Yields (c.buildTree objects connections) p n.tree mid ∧ c.wordFormat = .ok format
        ∧ Yields (c.assembleAll ⟨n.tree, c.config, format⟩ objects) mid n.vertices q
        ∧ partitionSearchable c.allConstraints (n.vertices.map (·.2.workload)) = .ok n.partitions
        ∧ n.splits = n.partitions.splitVertices
        ∧ n.splits.splitEdges (edgesBetween n.vertices n.tree) = .ok n.edges := by
  simp only [compile, yields_bind_iff, yields_ofExcept_iff, mapError_eq_ok_iff, yields_pure_iff]
  constructor
  · rintro ⟨tree, mid, htree, format, _, ⟨hformat, rfl⟩, vertices, _, hvertices, ps, _, ⟨hps, rfl⟩,
      edges, _, ⟨hedges, rfl⟩, rfl, rfl⟩
    exact ⟨mid, format, htree, hformat, hvertices, hps, rfl, hedges⟩
  · obtain ⟨tree, vertices, ps, splits, edges⟩ := n
    rintro ⟨mid, format, htree, hformat, hvertices, hps, hsplits, hedges⟩
    obtain rfl : splits = ps.splitVertices := hsplits
    exact ⟨tree, mid, htree, format, mid, ⟨hformat, rfl⟩, vertices, q, hvertices, ps, q, ⟨hps, rfl⟩,
      edges, q, ⟨hedges, rfl⟩, rfl, rfl⟩

/-- All that is known of a compiled network of filters. -/
structure FilterNetwork (c : Compiler) (f : ValueFilter) (objects : ObjectTable)
    (format : WordFormat) (w sb db layout : Nat) (most : String → Nat) (t : StreamTree)
    (n : Network) (q : Pool) : Prop where
  built : TreeBuilt w sb db layout most t q
  tree_eq : n.tree = t.keyedOn layout
  format_eq : c.wordFormat = .ok format
  vertices : Forall₂ (fun o x => x.1 = o.id
    ∧ FilterVertex layout db f o ⟨n.tree, c.config, format⟩ q x.2) objects.objects n.vertices
  partitioned : ∃ ps, partitionSearchable c.allConstraints (n.vertices.map (·.2.workload)) = .ok ps

theorem Compiler.exists_of_yields_assembleAll {c : Compiler} {objects : ObjectTable}
    {context : AssemblyContext} {vertices : Groups ObjectId RegionedVertex} {p q : Pool}
    {rule : Pool.Rule} (hruns : ∀ o ∈ objects.objects, Runs rule (c.assembleObject context o))
    (h : Yields (c.assembleAll context objects) p vertices q) :
    Pool.Run rule p q ∧ ∀ x ∈ vertices, ∃ o ∈ objects.objects, o.id = x.1 ∧ ∃ p' q',
      Pool.Run rule p p' ∧ Yields (c.assembleObject context o) p' (some x.2) q'
        ∧ Pool.Run rule q' q := by
  simp only [assembleAll, yields_bind_iff, yields_pure_iff] at h
  obtain ⟨results, _, hresults, rfl, rfl⟩ := h
  have hsteps : ∀ o ∈ objects.objects, Runs rule (do
      let vertex ← c.assembleObject context o
      pure (vertex.map fun v => (o.id, v))) :=
    fun o ho => (hruns o ho).bind fun vertex => runs_pure _
  refine ⟨runs_mapM hsteps _ _ _ hresults, fun x hx => ?_⟩
  obtain ⟨result, hresult, rfl⟩ := List.mem_filterMap.mp hx
  obtain ⟨i, hi, hget⟩ := List.mem_iff_getElem.mp hresult
  have hlength := (forall₂_of_yields_mapM hresults).length_eq
  obtain ⟨p', y, q', hbefore, hstep, hafter, hy⟩ :=
    yields_mapM_getElem? hsteps hresults (List.getElem?_eq_getElem (hlength ▸ hi))
  rw [List.getElem?_eq_getElem hi, hget] at hy
  obtain rfl := Option.some.inj hy
  obtain ⟨vertex, _, hvertex, hpure⟩ := yields_bind_iff.mp hstep
  obtain ⟨hsome, rfl⟩ := yields_pure_iff.mp hpure
  obtain ⟨v, rfl, rfl⟩ := Option.map_eq_some_iff.mp hsome
  exact ⟨_, List.getElem_mem _, rfl, p', _, hbefore, hvertex, hafter⟩

theorem Compiler.yields_assembleAll {c : Compiler} {f : ValueFilter} {objects : ObjectTable}
    {context : AssemblyContext} {vertices : Groups ObjectId RegionedVertex} {p q : Pool}
    {w sb db layout : Nat} {most : String → Nat}
    (hassembler : Groups.find? (fun a b => decide (a = b)) .filter c.assemblers = some f.assemble)
    (hkinds : ∀ o ∈ objects.objects, o.kind = .filter) (hp : StreamPool w sb db most layout p)
    (hkeyed : context.tree.KeyedBy layout)
    (h : Yields (c.assembleAll context objects) p vertices q) :
    Pool.Run Pool.granted p q ∧ Forall₂ (fun o x => x.1 = o.id
      ∧ FilterVertex layout db f o context q x.2) objects.objects vertices := by
  simp only [assembleAll, yields_bind_iff, yields_pure_iff] at h
  obtain ⟨results, _, hresults, rfl, rfl⟩ := h
  have hstep : ∀ o ∈ objects.objects, ∀ p x q, StreamPool w sb db most layout p →
      Yields (do
        let vertex ← c.assembleObject context o
        pure (vertex.map fun v => (o.id, v))) p x q →
      Pool.Run Pool.granted p q
        ∧ ∃ v, x = some (o.id, v) ∧ FilterVertex layout db f o context q v := by
    intro o ho p x q hp h
    simp only [assembleObject, hkinds o ho, hassembler, yields_bind_iff, yields_pure_iff] at h
    obtain ⟨vertex, _, hvertex, rfl, rfl⟩ := h
    obtain ⟨hrun, v, rfl, hv⟩ := yields_assemble hp hkeyed hvertex
    exact ⟨hrun, v, rfl, hv⟩
  obtain ⟨hrun, hall⟩ := yields_mapM_forall₂ (P := StreamPool w sb db most layout)
    (R := fun q o x => ∃ v, x = some (o.id, v) ∧ FilterVertex layout db f o context q v)
    (fun _ _ hp hrun => hp.run hrun)
    (fun _ _ _ _ hp hrun h => h.imp fun _ hv => ⟨hv.1, hv.2.run hp.inPool hrun⟩) hstep hp hresults
  refine ⟨hrun, forall₂_filterMap_of_some (hall.imp fun o x hx => ?_)⟩
  obtain ⟨v, rfl, hv⟩ := hx
  exact ⟨_, rfl, rfl, hv⟩

theorem Compiler.yields_compile {c : Compiler} {f : ValueFilter} {objects : ObjectTable}
    {connections : List Connection} {p q : Pool} {n : Network} (htransforms : c.transforms = [])
    (hassembler : Groups.find? (fun a b => decide (a = b)) .filter c.assemblers = some f.assemble)
    (hkinds : ∀ o ∈ objects.objects, o.kind = .filter)
    (hkeyspaces : ∀ x ∈ connections, x.keyspace = none)
    (h : Yields (c.compile objects connections) p n q) :
    ∃ format w sb db layout most t, FilterNetwork c f objects format w sb db layout most t n q := by
  obtain ⟨mid, format, htree, hformat, hvertices, hps, -, -⟩ := yields_compile_iff.mp h
  obtain ⟨w, sb, db, layout, most, t, hbuilt, htree_eq⟩ :=
    yields_buildTree htransforms hkeyspaces htree
  have hkeyed : n.tree.KeyedBy layout := htree_eq ▸ StreamTree.keyedBy_keyedOn layout t
  obtain ⟨hrun, hall⟩ := yields_assembleAll hassembler hkinds hbuilt.pool hkeyed hvertices
  exact ⟨format, w, sb, db, layout, most, t, ⟨hbuilt.unkeyed, hbuilt.pool.run hrun, hbuilt.place⟩,
    htree_eq, hformat, hall, n.partitions, hps⟩

end Manycore
