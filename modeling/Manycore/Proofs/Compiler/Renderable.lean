import Manycore.Proofs.Compiler.KeyRoom
import Manycore.Proofs.Compiler.KnownPartitions
import Manycore.Proofs.Compiler.UniqueKeys
import Manycore.Proofs.Compiler.VertexRoom

/-! # Networks that can be rendered

A compilation gives every stream its keyspace, but keys are made only when split vertices are
rendered. Whether they can be made is settled by then: it depends on the number of the split vertex,
on the places of senders and streams, and on the bits of the configuration, and on nothing that is
rendered before.
-/

namespace Manycore

open Keying Keyspace

/-- What an object is made into. Keyspaces see only requests that are granted and bind no places
beyond the last, and the tables of a vertex are of the keys of all values that the object sends. -/
structure WritesOutgoing (connection object : Nat) (x : Keying CompileError (Option RegionedVertex))
    (id : ObjectId) (ss : List Stream) : Prop where
  runs : Runs (Pool.within connection object) x
  tables : ∀ p v q, Yields x p (some v) q → ∀ table ∈ v.keyTables, ∃ p' keys q',
    Pool.Run (Pool.within connection object) p p'
      ∧ Yields (keyspacesWithDimensions id ss) p' keys q' ∧ table = filledTable keys

/-- Every object is made into a vertex that writes keys for what the object sends, or into none. -/
def Compiler.AssemblesOutgoing (c : Compiler) (objects : ObjectTable) (t : StreamTree) : Prop :=
  ∀ o ∈ objects.objects, ∀ format, c.wordFormat = .ok format →
    WritesOutgoing t.lastStream t.lastSender (c.assembleObject ⟨t, c.config, format⟩ o) o.id
      (t.streams o.id)

section

variable {w sb db connection object layout : Nat} {p q : Pool}

theorem WritesOutgoing.writesValues {x : Keying CompileError (Option RegionedVertex)}
    {id : ObjectId} {ss : List Stream} {v : RegionedVertex}
    (h : WritesOutgoing connection object x id ss)
    (hp : AllottedPool w sb db connection object layout p)
    (hss : ∀ s ∈ ss, IsStreamKey layout s.keyspace) (hx : Yields x p (some v) q) :
    v.WritesValues layout db ss := by
  intro table htable
  obtain ⟨p', keys, q', hrun, hkeys, rfl⟩ := h.tables p v q hx table htable
  obtain ⟨most, hpool⟩ := (hp.run hrun).exists_streamPool
  obtain ⟨-, kss, rfl, hvalues⟩ := yields_keyspacesWithDimensions hpool hss hkeys
  exact ⟨kss, rfl, hvalues⟩

theorem runs_within_keyspaces (id : ObjectId) (ss : List Stream) :
    Runs (Pool.within connection object) (keyspacesWithDimensions id ss) :=
  runs_keyspacesWithDimensions (fun _ _ _ => within_of_binding (by decide) (by decide)) id ss

theorem ValueFilter.writesOutgoing (f : ValueFilter) (o : NetworkObject) (c : AssemblyContext) :
    WritesOutgoing connection object (f.assemble o c) o.id (c.tree.streams o.id) where
  runs := f.runs_assemble (fun _ _ _ _ hgranted => ⟨hgranted, fun _ => Request.noConfusion⟩)
    (fun _ _ _ => within_of_binding (by decide) (by decide)) o c
  tables p v q h table htable := by
    obtain ⟨keys, mid, _, _, _, _, hkeys, -, -, -, -, hvertex⟩ := exists_of_yields_assemble h
    cases hvertex
    obtain rfl : table = filledTable keys := List.mem_singleton.mp htable
    exact ⟨p, keys, mid, .refl, hkeys, rfl⟩

end

/-- All values that the object sends have what their keys need from the split vertex at the
place. -/
def Compiler.KeysFit (c : Compiler) (n : Network) (id : ObjectId) (index : Nat) : Prop :=
  ∀ x ∈ (n.tree.streams id).zipIdx, ∀ dimension < x.1.width,
    KeyFits c.config.keys.width.toNat c.config.keys.subvertexBits.toNat
      c.config.keys.dimensionBits.toNat n.tree.lastStream n.tree.lastSender (n.tree.senderPlace id)
      x.2 dimension index

instance (c : Compiler) (n : Network) (id : ObjectId) (index : Nat) :
    Decidable (c.KeysFit n id index) :=
  inferInstanceAs (Decidable (∀ x ∈ (n.tree.streams id).zipIdx, ∀ dimension < x.1.width, _))

/-- The keys that a split vertex writes have what they need. -/
def Compiler.Renderable (c : Compiler) (n : Network) (x : SplitVertex) : Prop :=
  ∀ v ∈ n.vertex? x.vertex, v.keyTables ≠ [] →
    ∀ index ∈ n.index? x, c.KeysFit n x.vertex index

instance (c : Compiler) (n : Network) (x : SplitVertex) : Decidable (c.Renderable n x) :=
  inferInstanceAs (Decidable (∀ v ∈ n.vertex? x.vertex, _))

/-- A network whose layout is allotted and whose vertices write keys for what they send. -/
structure SendingNetwork (c : Compiler) (layout : Nat) (t : StreamTree) (n : Network)
    (p : Pool) : Prop where
  senders : (t.origins.map (·.1)).Nodup
  tree_eq : n.tree = t.keyedOn layout
  pool : AllottedPool c.config.keys.width.toNat c.config.keys.subvertexBits.toNat
    c.config.keys.dimensionBits.toNat n.tree.lastStream n.tree.lastSender layout p
  vertices : ∀ x ∈ n.vertices, x.2.WritesValues layout c.config.keys.dimensionBits.toNat
    (n.tree.streams x.1)

/-- What may be asked of keyspaces once a network is compiled. -/
abbrev Network.Run (n : Network) : Pool → Pool → Prop :=
  Pool.Run (Pool.within n.tree.lastStream n.tree.lastSender)

namespace SendingNetwork

variable {c : Compiler} {layout : Nat} {t : StreamTree} {n : Network} {p q : Pool}

theorem run (h : SendingNetwork c layout t n p) (hrun : n.Run p q) :
    SendingNetwork c layout t n q :=
  ⟨h.senders, h.tree_eq, h.pool.run hrun, h.vertices⟩

theorem places (h : SendingNetwork c layout t n p) (id : ObjectId) :
    StreamsPlacedUpTo layout n.tree.lastStream (n.tree.senderPlace id) (n.tree.streams id) := by
  intro place s hs
  rw [h.tree_eq] at hs ⊢
  obtain ⟨object, hsends⟩ := StreamTree.sends_of_streams hs
  rw [StreamTree.lastStream_keyedOn, hsends.senderPlace_eq h.senders]
  exact ⟨hsends.hasPlace.le_last.1, hsends.keyspace_eq⟩

theorem keysFit_iff {id : ObjectId} {index : Nat} :
    c.KeysFit n id index ↔ ∀ place s, (n.tree.streams id)[place]? = some s →
      ∀ dimension < s.width, KeyFits c.config.keys.width.toNat c.config.keys.subvertexBits.toNat
        c.config.keys.dimensionBits.toNat n.tree.lastStream n.tree.lastSender
        (n.tree.senderPlace id) place dimension index := by
  constructor
  · exact fun h place s hs => h (s, place) (List.mem_zipIdx_iff_getElem?.mpr hs)
  · exact fun h x hx => h x.2 x.1 (List.mem_zipIdx_iff_getElem?.mp hx)

theorem writesValues (h : SendingNetwork c layout t n p) {id : ObjectId} {v : RegionedVertex}
    (hv : n.vertex? id = some v) :
    v.WritesValues layout c.config.keys.dimensionBits.toNat (n.tree.streams id) := by
  obtain ⟨id', hmem, hid⟩ := Groups.exists_of_find? hv
  obtain rfl : id' = id := of_decide_eq_true hid
  exact h.vertices _ hmem

/-- A split vertex can be rendered exactly when its keys have what they need, whatever was rendered
before. -/
theorem exists_render_iff (h : SendingNetwork c layout t n p) {x : SplitVertex} {v : RegionedVertex}
    {index : Nat} (hv : n.vertex? x.vertex = some v) (hindex : n.index? x = some index) :
    (∃ slots q, Yields (v.render x.slice index) p slots q) ↔ c.Renderable n x := by
  rw [(h.writesValues hv).exists_render_iff h.pool (h.places x.vertex) x.slice index, ← keysFit_iff]
  constructor
  · intro hfits v' hv' htables index' hindex'
    cases hv.symm.trans hv'
    cases hindex.symm.trans hindex'
    exact hfits htables
  · exact fun hfits htables => hfits v hv htables index hindex

theorem not_fails_renderPlacement (h : SendingNetwork c layout t n p) {a : Placement}
    (hfits : c.Renderable n a.split) (cause : MemoryError) :
    ¬ Fails (c.renderPlacement n a) p (.memory cause) := by
  unfold Compiler.renderPlacement
  split
  · rw [fails_throw_iff]
    exact nofun
  · rename_i v hv
    split
    · rw [fails_throw_iff]
      exact nofun
    · rename_i index hindex
      obtain ⟨slots, q, hslots⟩ := (h.exists_render_iff hv hindex).mpr hfits
      rw [fails_bind_iff, fails_mapError_iff]
      rintro (⟨e, hrender, -⟩ | ⟨_, _, -, hpure⟩)
      · exact not_fails_of_yields hslots e hrender
      · exact not_fails_pure hpure

theorem runs_renderPlacement (h : SendingNetwork c layout t n p) {a : Placement} :
    Runs (Pool.within n.tree.lastStream n.tree.lastSender) (c.renderPlacement n a) := by
  intro p core q hcore
  obtain ⟨v, index, slots, hv, -, hslots, -⟩ := Compiler.yields_renderPlacement_iff.mp hcore
  exact (h.writesValues hv).runs_render a.split.slice index p slots q hslots

theorem not_fails_renderFrom (h : SendingNetwork c layout t n p) {ps earlier : List Placement}
    (hfits : ∀ a ∈ ps, c.Renderable n a.split) (cause : MemoryError) :
    ¬ Fails (c.renderFrom n earlier ps) p (.memory cause) := by
  induction ps generalizing earlier p with
  | nil => exact not_fails_pure
  | cons a rest ih =>
      obtain ⟨hfirst, hrest⟩ := List.forall_mem_cons.mp hfits
      rw [Compiler.renderFrom, fails_bind_iff, fails_ofExcept_mapError_iff]
      rintro (⟨_, -, hplacement⟩ | ⟨_, _, hcheck, hfails⟩)
      · cases hplacement
      · obtain ⟨-, rfl⟩ := yields_ofExcept_iff.mp hcheck
        rcases fails_bind_iff.mp hfails with hplacement | ⟨core, mid, hcore, hfails⟩
        · exact h.not_fails_renderPlacement hfirst cause hplacement
        · have hrun := h.runs_renderPlacement _ _ _ hcore
          rcases fails_bind_iff.mp hfails with hothers | ⟨_, _, -, hpure⟩
          · exact ih (h.run hrun) hrest hothers
          · exact not_fails_pure hpure

end SendingNetwork

namespace Compiler

variable {c : Compiler} {objects : ObjectTable} {connections : List Connection} {n : Network}
  {t : StreamTree} {p q : Pool}

theorem assemblesOutgoing_of_assemblers (h : ∀ x ∈ c.assemblers, ∀ o context,
    WritesOutgoing context.tree.lastStream context.tree.lastSender (x.2 o context) o.id
      (context.tree.streams o.id)) : c.AssemblesOutgoing objects t := by
  intro o _ format _
  unfold assembleObject
  split
  · rename_i assemble hfind
    obtain ⟨kind, hmem, -⟩ := Groups.exists_of_find? hfind
    exact h _ hmem o ⟨t, c.config, format⟩
  · exact ⟨runs_throw _, fun _ _ _ h => absurd h not_yields_throw⟩

theorem exists_sendingNetwork (hunkeyed : c.LeavesUnkeyed objects connections p)
    (hassembles : c.AssemblesOutgoing objects n.tree)
    (h : Yields (c.compile objects connections) p n q) :
    ∃ layout t, SendingNetwork c layout t n q := by
  obtain ⟨mid, format, htree, hformat, hvertices, -⟩ := yields_compile_iff.mp h
  obtain ⟨layout, t, start, hkeyed, htree_eq⟩ := exists_treeKeyed hunkeyed htree
  have hallotted := hkeyed.allotted
  rw [← StreamTree.lastStream_keyedOn layout, ← StreamTree.lastSender_keyedOn layout,
    ← htree_eq] at hallotted
  have hstreams : n.tree.KeyedBy layout := htree_eq ▸ StreamTree.keyedBy_keyedOn layout t
  obtain ⟨hrun, hmade⟩ := exists_of_yields_assembleAll
    (fun o ho => (hassembles o ho format hformat).runs) hvertices
  refine ⟨layout, t, hkeyed.unkeyed.senders, htree_eq, hallotted.run hrun, fun x hx => ?_⟩
  obtain ⟨o, ho, hid, p', q', hbefore, hvertex, -⟩ := hmade x hx
  rw [← hid]
  exact (hassembles o ho format hformat).writesValues (hallotted.run hbefore)
    (fun s hs => hstreams.streams hs) hvertex

/-- A compiled network can be rendered, no matter what was rendered before: every split vertex has a
place, and rendering it succeeds exactly if its keys have what they need there. Placed split vertices
whose keys have what they need are refused for nothing that has to do with their regions. -/
theorem compiled_renders (hunkeyed : c.LeavesUnkeyed objects connections p)
    (hassembles : c.AssemblesOutgoing objects n.tree)
    (hcompile : Yields (c.compile objects connections) p n q) :
    (∀ x ∈ n.splitVertices, ∃ index, n.index? x = some index
      ∧ ((∀ v ∈ n.vertices, v.2.id = v.1) → ∃ v, n.vertex? x.vertex = some v)
      ∧ ∀ v, n.vertex? x.vertex = some v → ∀ q', n.Run q q' →
        (c.Renderable n x → ∃ slots r, Yields (v.render x.slice index) q' slots r ∧ n.Run q' r)
        ∧ ∀ slots r, Yields (v.render x.slice index) q' slots r → c.Renderable n x)
    ∧ ∀ ps q', n.Run q q' → (∀ a ∈ ps, c.Renderable n a.split) →
      ∀ cause, ¬ Fails (c.renderPlacements n ps) q' (.memory cause) := by
  obtain ⟨layout, t, hnetwork⟩ := exists_sendingNetwork hunkeyed hassembles hcompile
  refine ⟨fun x hx => ?_, fun ps q' hrun hfits cause => ?_⟩
  · obtain ⟨index, hindex⟩ := exists_index? hcompile hx
    refine ⟨index, hindex, exists_vertex? hcompile hx, fun v hv q' hrun => ?_⟩
    have hlater := hnetwork.run hrun
    have hiff := hlater.exists_render_iff hv hindex
    refine ⟨fun hfits => ?_, fun slots r hslots => hiff.mp ⟨slots, r, hslots⟩⟩
    obtain ⟨slots, r, hslots⟩ := hiff.mpr hfits
    exact ⟨slots, r, hslots, (hlater.writesValues hv).runs_render x.slice index _ _ _ hslots⟩
  · exact (hnetwork.run hrun).not_fails_renderFrom hfits cause

end Compiler

namespace SendingNodes

/-- A vertex of so many atoms that writes the keys of all values that the object sends. -/
def outgoingKeys (atoms : Nat) : Assembler := fun o context => do
  let keys ← keyspacesWithDimensions o.id (context.tree.streams o.id)
  pure (some (.ofRegions o.id o.label atoms [ValueFilter.keyRegion keys]))

theorem writesOutgoing {connection object atoms : Nat} (o : NetworkObject)
    (context : AssemblyContext) :
    WritesOutgoing connection object (outgoingKeys atoms o context) o.id
      (context.tree.streams o.id) where
  runs := (runs_within_keyspaces _ _).bind fun _ => runs_pure _
  tables p v q h table htable := by
    obtain ⟨keys, mid, hkeys, hvertex⟩ := yields_bind_iff.mp h
    obtain ⟨hvertex, rfl⟩ := yields_pure_iff.mp hvertex
    cases hvertex
    exact ⟨p, keys, _, .refl, hkeys, List.mem_singleton.mp htable⟩

/-- Vertices of so many atoms, every atom by itself. -/
def compiler (width subvertexBits dimensionBits : UInt32) (atoms : Nat) : Compiler :=
  { Compiler.ofKeyBits width subvertexBits dimensionBits with
    assemblers := [(.node, outgoingKeys atoms)]
    constraints := [.atomLimit 1] }

def objects (count : Nat) : ObjectTable :=
  ⟨(List.range count).map fun i => ⟨⟨.ofNat i⟩, "node", .node, 1, 1, none⟩⟩

def connections (ends : List (UInt32 × UInt32)) : List Connection :=
  ends.map fun x => .between ⟨x.1⟩ ⟨x.2⟩

/-- The slices of all vertices. -/
def results (count atoms : Nat) : List (ObjectId × List Slice) :=
  (objects count).objects.map fun o => (o.id, (List.range' 0 atoms).map Slice.atom)

section

variable {width subvertexBits dimensionBits : UInt32} {atoms count : Nat}
  {ends : List (UInt32 × UInt32)}

theorem leavesUnkeyed : (compiler width subvertexBits dimensionBits atoms).LeavesUnkeyed
    (objects count) (connections ends) Pool.empty := by
  refine Compiler.leavesUnkeyed (fun x hx => ?_) (List.forall_mem_nil _) Pool.empty
  obtain ⟨y, -, rfl⟩ := List.mem_map.mp hx
  rfl

theorem assemblesOutgoing {t : StreamTree} :
    (compiler width subvertexBits dimensionBits atoms).AssemblesOutgoing (objects count) t :=
  Compiler.assemblesOutgoing_of_assemblers (List.forall_mem_singleton.mpr fun o context =>
    writesOutgoing o context)

theorem exists_compile {P : Network → Pool → Prop} [∀ n q, Decidable (P n q)]
    (h : (outcome (do
        let n ← (compiler width subvertexBits dimensionBits atoms).compileAs (results count atoms)
          (objects count) (connections ends)
        let q ← get
        pure (n, q)) Pool.empty).1.toOption.any
      (fun y => decide ((compiler width subvertexBits dimensionBits atoms).Foretells
        (results count atoms) y.1 ∧ P y.1 y.2)) = true) :
    ∃ n q, Yields ((compiler width subvertexBits dimensionBits atoms).compile (objects count)
      (connections ends)) Pool.empty n q ∧ P n q := by
  obtain ⟨⟨n, q⟩, q', hcompile, hresults, hP⟩ := exists_yields_of_any h
  obtain ⟨_, mid, hcompile, hpool⟩ := yields_bind_iff.mp hcompile
  obtain ⟨_, _, hget, hpure⟩ := yields_bind_iff.mp hpool
  obtain ⟨rfl, rfl⟩ := Stateful.succeeds_get_iff.mp hget
  cases (yields_pure_iff.mp hpure).1
  exact ⟨n, q, Compiler.yields_compile_of_compileAs hcompile hresults, hP⟩

/-- The split vertex is compiled, but rendering it fails. -/
def Refuses (x : SplitVertex) (cause : MemoryError) (n : Network) (q : Pool) : Prop :=
  x ∈ n.splitVertices ∧ ∃ v ∈ n.vertex? x.vertex, ∃ index ∈ n.index? x,
    Fails (v.render x.slice index) q cause

instance (x : SplitVertex) (cause : MemoryError) (n : Network) (q : Pool) :
    Decidable (Refuses x cause n q) := inferInstanceAs (Decidable (_ ∧ ∃ v ∈ n.vertex? x.vertex, _))

/-- The configuration is valid and the network compiles, but a split vertex cannot be rendered. -/
def Unrenderable (c : Compiler) (objects : ObjectTable) (connections : List Connection)
    (cause : MemoryError) : Prop :=
  c.config.validate = .ok () ∧ c.LeavesUnkeyed objects connections Pool.empty
    ∧ ∃ n q x, Yields (c.compile objects connections) Pool.empty n q
      ∧ c.AssemblesOutgoing objects n.tree ∧ Refuses x cause n q

theorem unrenderable (x : SplitVertex) {cause : MemoryError}
    (hproblems : (compiler width subvertexBits dimensionBits atoms).config.problems.isEmpty = true)
    (h : ∃ n q, Yields ((compiler width subvertexBits dimensionBits atoms).compile (objects count)
      (connections ends)) Pool.empty n q ∧ Refuses x cause n q) :
    Unrenderable (compiler width subvertexBits dimensionBits atoms) (objects count)
      (connections ends) cause := by
  obtain ⟨n, q, hcompile, hrefuses⟩ := h
  exact ⟨Config.validate_of_isEmpty hproblems, leavesUnkeyed, n, q, x, hcompile, assemblesOutgoing,
    hrefuses⟩

end

def atom (number start : Nat) : SplitVertex := ⟨⟨.ofNat number⟩, Slice.atom start⟩

/-- Keys are refused although a network compiles when there are more split vertices of one vertex
than the field has room for, when they are no words, and when the fields leave too little of the key
for the senders. -/
theorem not_compiled_renders :
    Unrenderable (compiler 16 1 1 3) (objects 2) (connections [(0, 1)])
        (.key (.binding (.tooLarge 2 1 subvertexField)))
      ∧ Unrenderable (compiler 64 16 16 1) (objects 3) (connections [(0, 2), (1, 2)])
        (.keyTooWide (twoTo 33) "<64-bit Keyspace 'd':0, 's':?, 'i':0, 'o':1>")
      ∧ Unrenderable (compiler 16 8 6 1) (objects 3) (connections [(0, 1), (1, 2), (2, 0)])
        (.key (.conflict (.noRoom objectField 2 16))) :=
  ⟨unrenderable (atom 0 2) (by decide +kernel) (exists_compile (by decide +kernel)),
    unrenderable (atom 1 0) (by decide +kernel) (exists_compile (by decide +kernel)),
    unrenderable (atom 0 0) (by decide +kernel) (exists_compile (by decide +kernel))⟩

/-- Both atoms of a sender and both of its receiver can be rendered, in any order and again. -/
theorem compiled_renders_atoms : ∃ n q,
    (compiler 16 1 1 2).LeavesUnkeyed (objects 2) (connections [(0, 1)]) Pool.empty
      ∧ (compiler 16 1 1 2).AssemblesOutgoing (objects 2) n.tree
      ∧ Yields ((compiler 16 1 1 2).compile (objects 2) (connections [(0, 1)])) Pool.empty n q
      ∧ n.splitVertices = [atom 0 0, atom 0 1, atom 1 0, atom 1 1]
      ∧ (∀ x ∈ n.splitVertices, ∃ index v, n.index? x = some index
        ∧ n.vertex? x.vertex = some v ∧ ∀ q', n.Run q q' →
          ∃ slots r, Yields (v.render x.slice index) q' slots r ∧ n.Run q' r)
      ∧ ∀ cause, ¬ Fails ((compiler 16 1 1 2).renderPlacements n
        [⟨0, 0, 1, atom 0 1⟩, ⟨0, 0, 2, atom 1 0⟩]) q (.memory cause) := by
  obtain ⟨n, q, hcompile, hsplits, hids, hrenderable⟩ : ∃ n q,
      Yields ((compiler 16 1 1 2).compile (objects 2) (connections [(0, 1)])) Pool.empty n q
        ∧ n.splitVertices = [atom 0 0, atom 0 1, atom 1 0, atom 1 1]
        ∧ (∀ v ∈ n.vertices, v.2.id = v.1)
        ∧ ∀ x ∈ n.splitVertices, (compiler 16 1 1 2).Renderable n x :=
    exists_compile (by decide +kernel)
  obtain ⟨hrender, hplaced⟩ :=
    Compiler.compiled_renders leavesUnkeyed assemblesOutgoing hcompile
  refine ⟨n, q, leavesUnkeyed, assemblesOutgoing, hcompile, hsplits, fun x hx => ?_, ?_⟩
  · obtain ⟨index, hindex, hvertex, hrenders⟩ := hrender x hx
    obtain ⟨v, hv⟩ := hvertex hids
    exact ⟨index, v, hindex, hv, fun q' hrun => (hrenders v hv q' hrun).1 (hrenderable x hx)⟩
  · refine hplaced _ q .refl fun a ha => hrenderable a.split ?_
    rw [hsplits]
    simp only [List.mem_cons, List.not_mem_nil, or_false] at ha
    rcases ha with rfl | rfl
    · exact List.mem_cons_of_mem _ List.mem_cons_self
    · exact List.mem_cons_of_mem _ (List.mem_cons_of_mem _ List.mem_cons_self)

end SendingNodes

end Manycore
