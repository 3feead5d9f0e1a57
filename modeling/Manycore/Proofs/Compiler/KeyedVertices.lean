import Manycore.Proofs.Compiler.FilterRouting
import Manycore.Proofs.Keyspace.UniqueKeys

/-! # Vertices with keys

Assemblers may do as they like, as long as the vertex of an object gets the keyspaces of all values
that the object sends. When no connection has a keyspace of its own, these are all on one layout,
and what a vertex writes for them are keys with the index of its slice filled in.
-/

namespace Manycore

open List (Forall₂)
open Keying Keyspace

/-- The keyspace with the index of the slice filled in. -/
def Keyspace.filled (k : Keyspace) (index : Nat) : Keyspace :=
  { k with bindings := k.bindings.insert subvertexField index }

section

variable {p q : Pool} {index : Nat} {keys : List Keyspace} {k : Keyspace}

theorem hasKey_of_yields_record {ws : List UInt32} (hk : k.Known p)
    (h : Yields ((filledTable keys).record k index) p ws q) :
    ∃ w, ws = [w] ∧ (k.filled index).HasKey q w.toNat := by
  obtain ⟨filled, mid, w, hbind, hrender, rfl⟩ := yields_record_iff.mp h
  rw [renderKey_eq] at hrender
  have hkeyspace : filled = k.filled index := (bindsOne_of_yields hk.inPool hbind).keyspace
  have hknown := hk.bind hbind
  have hrun := runs_renders filled .key .all mid w.toNat q hrender
  rw [← hkeyspace]
  exact ⟨w, rfl, hknown.run hrun, shows_of_yields hknown.inPool hrender⟩

theorem hasKey_of_yields_words {s : Slice} {words : List UInt32} (hkeys : ∀ k ∈ keys, k.Known p)
    (h : Yields ((filledTable keys).words s index) p words q) :
    Forall₂ (fun k w => (k.filled index).HasKey q w.toNat) keys words := by
  have hkeysFor : (filledTable keys).keysFor s = keys := rfl
  have hleading : (filledTable keys).leading s = [] := rfl
  simp only [KeyTable.words, hkeysFor, hleading, List.nil_append, yields_bind_iff,
    yields_pure_iff] at h
  obtain ⟨records, _, hrecords, rfl, rfl⟩ := h
  have hall := yields_mapM_forall₂ (P := fun p => ∀ k ∈ keys, k.Known p)
    (R := fun q k ws => ∃ w, ws = [w] ∧ (k.filled index).HasKey q w.toNat)
    (fun _ _ hp hrun k hk => (hp k hk).run hrun)
    (fun _ _ _ _ _ hrun h => h.imp fun _ hw => ⟨hw.1, hw.2.run hrun⟩)
    (fun k hk p ws q hp h => ⟨(yields_record .refl h).1, hasKey_of_yields_record (hp k hk) h⟩)
    hkeys hrecords
  exact forall₂_flatten_of_singletons hall.2

end

section

variable {p q : Pool} {layout index : Nat} {s : Stream} {ss : List Stream}

/-- The stream has a keyspace of its place, and the layout has been told of it. -/
def KnownStream (layout : Nat) (p : Pool) (s : Stream) : Prop :=
  ∃ object place, s.keyspace = some (forStream layout object place)
    ∧ (forStream layout object place).Known p

/-- Keyspaces for all values of a stream, each of them told of to the layout. -/
def KnownValues (layout : Nat) (p : Pool) (s : Stream) (ks : List Keyspace) : Prop :=
  ∃ object place, s.keyspace = some (forStream layout object place)
    ∧ Forall₂ (fun d k => k = forValue layout object place d ∧ k.Known p) (List.range s.width) ks

/-- Key words for all values of a stream, with the index filled in. -/
def KeyedWords (layout : Nat) (p : Pool) (index : Nat) (s : Stream) (ws : List UInt32) : Prop :=
  ∃ object place, s.keyspace = some (forStream layout object place)
    ∧ Forall₂ (fun d w => (filledValue layout object place d index).HasKey p w.toNat)
      (List.range s.width) ws

theorem KnownStream.run {rule : Pool.Rule} (h : KnownStream layout p s)
    (hrun : Pool.Run rule p q) : KnownStream layout q s := by
  obtain ⟨object, place, hkey, hknown⟩ := h
  exact ⟨object, place, hkey, hknown.run hrun⟩

theorem KnownValues.run {rule : Pool.Rule} {ks : List Keyspace} (h : KnownValues layout p s ks)
    (hrun : Pool.Run rule p q) : KnownValues layout q s ks := by
  obtain ⟨object, place, hkey, hks⟩ := h
  exact ⟨object, place, hkey, hks.imp fun _ _ hk => ⟨hk.1, hk.2.run hrun⟩⟩

theorem KeyedWords.run {rule : Pool.Rule} {ws : List UInt32} (h : KeyedWords layout p index s ws)
    (hrun : Pool.Run rule p q) : KeyedWords layout q index s ws := by
  obtain ⟨object, place, hkey, hws⟩ := h
  exact ⟨object, place, hkey, hws.imp fun _ _ hw => hw.run hrun⟩

theorem KnownValues.length_eq {ks : List Keyspace} (h : KnownValues layout p s ks) :
    ks.length = s.width := by
  obtain ⟨_, _, -, hks⟩ := h
  rw [← hks.length_eq, List.length_range]

theorem KnownValues.known {ks : List Keyspace} (h : KnownValues layout p s ks) :
    ∀ k ∈ ks, k.Known p := by
  obtain ⟨_, _, -, hks⟩ := h
  intro k hk
  obtain ⟨_, -, -, hknown⟩ := exists_left_of_forall₂ hks hk
  exact hknown

theorem KnownValues.keyedWords {ks : List Keyspace} {ws : List UInt32}
    (h : KnownValues layout p s ks)
    (hws : Forall₂ (fun k w => (k.filled index).HasKey q w.toNat) ks ws) :
    KeyedWords layout q index s ws := by
  obtain ⟨object, place, hkey, hks⟩ := h
  refine ⟨object, place, hkey, (forall₂_comp hks hws).imp ?_⟩
  rintro d w ⟨k, ⟨rfl, -⟩, hw⟩
  exact hw

section

variable {rule : Pool.Rule} (hrule : ∀ p k d, Pool.binding p k (.bind [(dimensionField, d)]) →
  rule p k (.bind [(dimensionField, d)]))
include hrule

theorem runs_keyspaces (origin : ObjectId) (s : Stream) : Runs rule (s.keyspaces origin) := by
  unfold Stream.keyspaces
  split
  · exact runs_throw _
  · rename_i k _
    refine runs_mapM fun d _ => Runs.mapError ?_ _
    exact fun _ _ _ h => run_of_yields_bind (hrule _ k d) h

theorem runs_keyspacesWithDimensions (origin : ObjectId) (ss : List Stream) :
    Runs rule (keyspacesWithDimensions origin ss) :=
  (runs_mapM fun s _ => runs_keyspaces hrule origin s).bind fun _ => runs_pure _

end

theorem knownValues_of_yields {origin : ObjectId} {ks : List Keyspace}
    (hs : KnownStream layout p s) (h : Yields (s.keyspaces origin) p ks q) :
    KnownValues layout q s ks := by
  obtain ⟨object, place, hkey, hknown⟩ := hs
  simp only [Stream.keyspaces, hkey] at h
  have hstep : ∀ d ∈ List.range s.width, ∀ p k q, (forStream layout object place).Known p →
      Yields (((forStream layout object place).bind [(dimensionField, d)]).mapError
        CompileError.key) p k q →
      Pool.Later p q ∧ k = forValue layout object place d ∧ k.Known q := by
    intro d _ p k q hp hbind
    rw [yields_mapError_iff] at hbind
    exact ⟨(runs_bindAll _ _ _ _ _ hbind).later, bind_forStream hp.inPool hbind, hp.bind hbind⟩
  obtain ⟨-, hks⟩ := yields_mapM_forall₂ (P := fun p => (forStream layout object place).Known p)
    (R := fun q d k => k = forValue layout object place d ∧ k.Known q)
    (fun _ _ hp hrun => hp.run hrun) (fun _ _ _ _ _ hrun h => ⟨h.1, h.2.run hrun⟩) hstep hknown h
  exact ⟨object, place, hkey, hks⟩

theorem exists_knownValues {origin : ObjectId} {keys : List Keyspace}
    (hss : ∀ s ∈ ss, KnownStream layout p s)
    (h : Yields (keyspacesWithDimensions origin ss) p keys q) :
    ∃ kss, keys = kss.flatten ∧ Forall₂ (KnownValues layout q) ss kss := by
  simp only [keyspacesWithDimensions, yields_bind_iff, yields_pure_iff] at h
  obtain ⟨kss, _, hkss, rfl, rfl⟩ := h
  refine ⟨kss, rfl, ?_⟩
  exact (yields_mapM_forall₂ (P := fun p => ∀ s ∈ ss, KnownStream layout p s)
    (R := fun q => KnownValues layout q) (fun _ _ hp hrun s hs => (hp s hs).run hrun)
    (fun _ _ _ _ _ hrun h => h.run hrun)
    (fun s hs p ks q hp h =>
      ⟨(runs_keyspaces (fun _ _ _ => id) origin s p ks q h).later,
        knownValues_of_yields (hp s hs) h⟩) hss hkss).2

end

/-- Rendering the vertex does no more to keyspaces than requests can do. -/
def RegionedVertex.RendersLater (v : RegionedVertex) : Prop :=
  ∀ x ∈ v.regions, ∀ s index, RunsLater (RegionedVertex.renderSlot x s index)

/-- What an object is made into. A vertex has the keys of all values that the object sends in the
slot; whatever else is done on the way, keyspaces see requests only. -/
structure GivesKeys (x : Keying CompileError (Option RegionedVertex)) (id : ObjectId)
    (ss : List Stream) (slot : Nat) : Prop where
  runs : RunsLater x
  renders : ∀ p v q, Yields x p (some v) q → v.RendersLater
  keys : ss ≠ [] → ∀ p v q, Yields x p (some v) q → ∃ p' keys q', Pool.Later p p'
    ∧ Yields (keyspacesWithDimensions id ss) p' keys q' ∧ Pool.Later q' q ∧ v.HasKeys slot keys

/-- Every object is made into a vertex with keys, or into none. -/
def Compiler.AssemblesKeys (c : Compiler) (objects : ObjectTable) (t : StreamTree)
    (slot : ObjectId → Nat) : Prop :=
  ∀ o ∈ objects.objects, ∀ format, c.wordFormat = .ok format →
    GivesKeys (c.assembleObject ⟨t, c.config, format⟩ o) o.id (t.streams o.id) (slot o.id)

/-- A vertex whose keys are of streams on one layout. -/
structure KeyedVertex (layout slot : Nat) (ss : List Stream) (p : Pool) (v : RegionedVertex) :
    Prop where
  renders : v.RendersLater
  keys : ss ≠ [] → ∃ kss, v.HasKeys slot kss.flatten ∧ Forall₂ (KnownValues layout p) ss kss

section

variable {p q : Pool} {layout slot index : Nat} {ss : List Stream} {v : RegionedVertex} {s : Slice}
  {slots : Slots}

theorem KeyedVertex.run {rule : Pool.Rule} (h : KeyedVertex layout slot ss p v)
    (hrun : Pool.Run rule p q) : KeyedVertex layout slot ss q v where
  renders := h.renders
  keys hss := by
    obtain ⟨kss, hslot, hvalues⟩ := h.keys hss
    exact ⟨kss, hslot, hvalues.imp fun _ _ hks => hks.run hrun⟩

theorem GivesKeys.keyedVertex {x : Keying CompileError (Option RegionedVertex)} {id : ObjectId}
    (h : GivesKeys x id ss slot) (hss : ∀ s ∈ ss, KnownStream layout p s)
    (hx : Yields x p (some v) q) : KeyedVertex layout slot ss q v where
  renders := h.renders p v q hx
  keys hne := by
    obtain ⟨p', keys, q', hbefore, hkeys, hafter, hslot⟩ := h.keys hne p v q hx
    obtain ⟨kss, rfl, hvalues⟩ :=
      exists_knownValues (fun s hs => (hss s hs).run hbefore) hkeys
    exact ⟨kss, hslot, hvalues.imp fun _ _ hks => hks.run hafter⟩

theorem RegionedVertex.RendersLater.runs (h : v.RendersLater) (s : Slice) (index : Nat) :
    RunsLater (v.render s index) := runs_mapM fun x hx => h x hx s index

theorem KeyedVertex.exists_words {t : StreamTree} {origin : ObjectId}
    (h : KeyedVertex layout slot (t.streams origin) p v) (hss : t.streams origin ≠ [])
    (hrender : Yields (v.render s index) p slots q) :
    ∃ words, slots[slot]? = some (some (.filled words))
      ∧ Forall₂ (KeyedWords layout q index) (t.streams origin) (t.streamWords origin words) := by
  obtain ⟨kss, ⟨shared, hregion⟩, hvalues⟩ := h.keys hss
  obtain ⟨p', subregion, q', hbefore, hslot, hafter, hget⟩ :=
    yields_mapM_getElem? (fun x hx => h.renders x hx s index) hrender hregion
  obtain ⟨words, rfl, hwords⟩ := yields_tableSlot_iff.mp hslot
  have hknown : ∀ k ∈ kss.flatten, k.Known p' := by
    intro k hk
    obtain ⟨ks, hks, hmem⟩ := List.mem_flatten.mp hk
    obtain ⟨s, -, hstream⟩ := exists_left_of_forall₂ hvalues hks
    exact (hstream.known k hmem).run hbefore
  obtain ⟨-, hparts⟩ := streamWords_of_keys (hvalues.imp fun _ _ hks => hks.length_eq)
    (hasKey_of_yields_words hknown hwords)
  refine ⟨words, hget, (forall₂_comp hvalues hparts).imp fun s ws hboth => ?_⟩
  obtain ⟨ks, hks, hws⟩ := hboth
  exact (hks.keyedWords hws).run hafter

end

theorem ValueFilter.rendersLater {id : ObjectId} {label : String}
    {system filters taken : List UInt32} {keys : List Keyspace} {m : Matrix} {format : WordFormat} :
    (RegionedVertex.ofRegions id label 1 [wordRegion system, keyRegion keys, wordRegion filters,
      wordRegion taken, transformRegion m format]).RendersLater := by
  have hwords (words : List UInt32) (s : Slice) (index : Nat) :
      RunsLater (RegionedVertex.renderSlot (wordRegion words) s index) := by
    intro p slot q h
    obtain ⟨rfl, -⟩ := yields_wordSlot h
    exact .refl
  intro x hx s index
  simp only [RegionedVertex.ofRegions, List.mem_cons, List.not_mem_nil, or_false] at hx
  rcases hx with rfl | rfl | rfl | rfl | rfl
  · exact hwords system s index
  · exact fun p slot q h => (yields_keySlot .refl h).1
  · exact hwords filters s index
  · exact hwords taken s index
  · intro p slot q h
    obtain rfl := yields_transformSlot h
    exact .refl

section

variable {rule : Pool.Rule} (hrule : ∀ p k output selector,
  Pool.granted p k (.render output selector) → rule p k (.render output selector))
include hrule

theorem ValueFilter.runs_route (object : ObjectId) (filter : Nat) (keyspace : Option Keyspace) :
    Runs rule (route object filter keyspace) := by
  have hrenders : ∀ (k : Keyspace) output selector, Runs rule (k.renders output selector) :=
    fun k _ _ _ _ _ h => run_of_yields_renders (hrule _ k _ _) h
  unfold route
  split
  · exact runs_throw _
  · refine Runs.bind ((hrenders _ .key _).mapError _) fun key => ?_
    exact Runs.bind ((hrenders _ .mask _).mapError _) fun mask => runs_pure _

theorem ValueFilter.runs_routes (object : ObjectId)
    (streams : Groups Filter (List (Option Keyspace))) : Runs rule (routes object streams) :=
  (runs_mapM fun x _ => runs_mapM fun k _ => runs_route hrule object x.2 k).bind fun _ => runs_pure _

/-- All that a filter asks for is to bind the dimensions of its values and to render its routes. -/
theorem ValueFilter.runs_assemble (hbind : ∀ p k d, Pool.binding p k (.bind [(dimensionField, d)]) →
    rule p k (.bind [(dimensionField, d)])) (f : ValueFilter) (o : NetworkObject)
    (c : AssemblyContext) : Runs rule (f.assemble o c) := by
  intro p vertex q h
  obtain ⟨keys, mid, _, arriving, taken, _, hkeys, -, -, htaken, -⟩ :=
    exists_of_yields_assemble h
  exact (runs_keyspacesWithDimensions hbind _ _ p keys mid hkeys).trans
    (runs_routes hrule _ _ mid taken q htaken)

end

theorem ValueFilter.givesKeys (f : ValueFilter) (o : NetworkObject) (c : AssemblyContext) :
    GivesKeys (f.assemble o c) o.id (c.tree.streams o.id) 1 where
  runs := f.runs_assemble (fun _ _ _ _ _ => trivial) (fun _ _ _ _ => trivial) o c
  renders p v q h := by
    obtain ⟨_, _, _, _, _, _, -, -, -, -, -, hvertex⟩ := exists_of_yields_assemble h
    cases hvertex
    exact rendersLater
  keys _ p v q h := by
    obtain ⟨keys, mid, _, arriving, taken, _, hkeys, -, -, htaken, -, hvertex⟩ :=
      exists_of_yields_assemble h
    cases hvertex
    have hafter := runs_routes (fun _ _ _ _ => id) _ _ mid taken q htaken
    exact ⟨p, keys, mid, .refl, hkeys, hafter.later, false, rfl⟩

namespace Compiler

variable {c : Compiler} {objects : ObjectTable} {t tree : StreamTree} {p q : Pool}
  {slot : ObjectId → Nat} {layout : Nat}

theorem assemblesKeys_of_filters (h : ∀ x ∈ c.assemblers, ∃ f, x.2 = ValueFilter.assemble f) :
    c.AssemblesKeys objects t fun _ => 1 := by
  intro o _ format _
  unfold assembleObject
  split
  · rename_i assemble hfind
    obtain ⟨kind, hmem, -⟩ := Groups.exists_of_find? hfind
    obtain ⟨f, hf⟩ := h _ hmem
    rw [show assemble = f.assemble from hf]
    exact f.givesKeys o ⟨t, c.config, format⟩
  · exact ⟨runs_throw _, fun _ _ _ h => absurd h not_yields_throw,
      fun _ _ _ _ h => absurd h not_yields_throw⟩

theorem keyedVertices {format : WordFormat} {vertices : Groups ObjectId RegionedVertex}
    (hassembles : c.AssemblesKeys objects tree slot) (hformat : c.wordFormat = .ok format)
    (hknown : ∀ id, ∀ s ∈ tree.streams id, KnownStream layout p s)
    (h : Yields (c.assembleAll ⟨tree, c.config, format⟩ objects) p vertices q) :
    Pool.Later p q
      ∧ ∀ x ∈ vertices, KeyedVertex layout (slot x.1) (tree.streams x.1) q x.2 := by
  obtain ⟨hrun, hmade⟩ :=
    exists_of_yields_assembleAll (fun o ho => (hassembles o ho format hformat).runs) h
  refine ⟨hrun, fun x hx => ?_⟩
  obtain ⟨o, ho, hid, p', q', hbefore, hvertex, hafter⟩ := hmade x hx
  have hgives := hassembles o ho format hformat
  rw [← hid]
  exact (hgives.keyedVertex (fun s hs => (hknown o.id s hs).run hbefore) hvertex).run hafter

end Compiler

/-- A network whose vertices have keys of streams on one layout. -/
structure KeyedNetwork (w sb db layout : Nat) (slot : ObjectId → Nat) (t : StreamTree)
    (n : Network) (p : Pool) : Prop where
  senders : (t.origins.map (·.1)).Nodup
  tree_eq : n.tree = t.keyedOn layout
  inPool : (⟨layout, []⟩ : Keyspace).In p
  based : StreamBased w sb db (p.layoutOf ⟨layout, []⟩)
  vertices : ∀ x ∈ n.vertices, KeyedVertex layout (slot x.1) (n.tree.streams x.1) p x.2

section

variable {w sb db layout : Nat} {slot : ObjectId → Nat} {t : StreamTree} {n : Network} {p q : Pool}

theorem KeyedNetwork.run {rule : Pool.Rule} (h : KeyedNetwork w sb db layout slot t n p)
    (hrun : Pool.Run rule p q) : KeyedNetwork w sb db layout slot t n q where
  senders := h.senders
  tree_eq := h.tree_eq
  inPool := h.inPool.run hrun
  based := h.based.run h.inPool hrun
  vertices x hx := (h.vertices x hx).run hrun

theorem TreeKeyed.knownStream {start : Pool} (h : TreeKeyed w sb db layout t start p)
    (id : ObjectId) : ∀ s ∈ (t.keyedOn layout).streams id, KnownStream layout p s := by
  intro s hs
  obtain ⟨place, hlt, hget⟩ := List.mem_iff_getElem.mp hs
  obtain ⟨object, hsends⟩ :=
    StreamTree.sends_of_streams (List.getElem?_eq_some_iff.mpr ⟨hlt, hget⟩)
  have hkey := hsends.keyspace_eq
  exact ⟨object, place, hkey, h.inPool.run h.run, h.noted object place hsends.hasPlace⟩

theorem TreeKeyed.based {start : Pool} (h : TreeKeyed w sb db layout t start p) :
    StreamBased w sb db (p.layoutOf ⟨layout, []⟩) := by
  apply StreamBased.run (p := start) _ h.inPool h.run
  rw [h.opened]
  exact .of_openStreams h.bounds

theorem Compiler.exists_keyedNetwork {c : Compiler} {objects : ObjectTable}
    {connections : List Connection} (hunkeyed : c.LeavesUnkeyed objects connections p)
    (hassembles : c.AssemblesKeys objects n.tree slot)
    (h : Yields (c.compile objects connections) p n q) :
    ∃ w sb db layout t, KeyedNetwork w sb db layout slot t n q := by
  obtain ⟨mid, format, htree, hformat, hvertices, -⟩ := yields_compile_iff.mp h
  obtain ⟨layout, t, start, hkeyed, htree_eq⟩ := exists_treeKeyed hunkeyed htree
  obtain ⟨hlater, hall⟩ :=
    keyedVertices hassembles hformat (htree_eq ▸ hkeyed.knownStream) hvertices
  have hin := hkeyed.inPool.run hkeyed.run
  exact ⟨_, _, _, layout, t, hkeyed.unkeyed.senders, htree_eq, hin.run hlater,
    hkeyed.based.run hin hlater, hall⟩

end

end Manycore
