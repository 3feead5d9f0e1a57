import Manycore.Proofs.Compiler.Capacity
import Manycore.Proofs.Compiler.Network
import Manycore.Proofs.Compiler.Receivers
import Manycore.Proofs.Memory.Regions

/-! # Exact routing between filters

The records that a filter renders tell the keys of every stream from all keys that any filter of
the network ever writes. One record stands for each receiver, and leads to the words of its filter.
-/

namespace Manycore

open List (Forall₂)
open Keying Keyspace

/-- The words of the keys of an object, stream by stream. -/
def StreamTree.streamWords (t : StreamTree) (origin : ObjectId) (words : List UInt32) :
    List (List UInt32) :=
  ((t.streams origin).map (·.width)).splitLengths words

section

variable {p q : Pool} {layout w sb db index : Nat} {most : String → Nat} {t : StreamTree}
  {origin : ObjectId} {words : List UInt32}

/-- Every word is a key of some value of the stream. -/
def StreamWritten (layout db : Nat) (q : Pool) (index : Nat) (s : Stream) (ws : List UInt32) :
    Prop :=
  ∃ object place, s.keyspace = some (forStream layout object place)
    ∧ ∀ w ∈ ws, ∃ d < twoTo db, Written q index (forValue layout object place d) w

theorem StreamValues.written {s : Stream} {ks : List Keyspace} {ws : List UInt32}
    (h : StreamValues layout db s ks) (hws : Forall₂ (Written q index) ks ws) :
    StreamWritten layout db q index s ws := by
  obtain ⟨object, place, hkey, hks⟩ := h
  refine ⟨object, place, hkey, fun w hw => ?_⟩
  obtain ⟨k, hk, hwritten⟩ := exists_left_of_forall₂ hws hw
  obtain ⟨d, -, hd, rfl⟩ := exists_left_of_forall₂ hks hk
  exact ⟨d, hd, hwritten⟩

theorem streamWords_of_keys {kss : List (List Keyspace)} {R : Keyspace → UInt32 → Prop}
    (hwidths : Forall₂ (fun s ks => ks.length = s.width) (t.streams origin) kss)
    (hwords : Forall₂ R kss.flatten words) :
    (t.streamWords origin words).flatten = words
      ∧ Forall₂ (Forall₂ R) kss (t.streamWords origin words) := by
  obtain ⟨wss, rfl, hwss⟩ := exists_parts_of_forall₂_flatten hwords
  have hlengths : wss.map List.length = (t.streams origin).map (·.width) := by
    refine map_eq_map_of_forall₂ (forall₂_comp hwidths hwss) fun s ws h => ?_
    obtain ⟨ks, hwidth, hws⟩ := h
    rw [← hwidth, hws.length_eq]
  have hsplit : t.streamWords origin wss.flatten = wss := by
    rw [StreamTree.streamWords, ← hlengths, splitLengths_flatten]
  rw [hsplit]
  exact ⟨rfl, hwss⟩

theorem StreamValues.length_eq {s : Stream} {ks : List Keyspace} (h : StreamValues layout db s ks) :
    ks.length = s.width := by
  obtain ⟨_, _, -, hks⟩ := h
  rw [← hks.length_eq, List.length_range]

theorem streamWords_of_values {kss : List (List Keyspace)}
    (hvalues : Forall₂ (StreamValues layout db) (t.streams origin) kss)
    (hwords : Forall₂ (Written q index) kss.flatten words) :
    (t.streamWords origin words).flatten = words
      ∧ (t.streamWords origin words).map List.length = (t.streams origin).map (·.width)
      ∧ Forall₂ (StreamWritten layout db q index) (t.streams origin)
        (t.streamWords origin words) := by
  obtain ⟨hflatten, hparts⟩ := streamWords_of_keys (hvalues.imp fun _ _ h => h.length_eq) hwords
  have hboth := forall₂_comp hvalues hparts
  refine ⟨hflatten, map_eq_map_of_forall₂ hboth fun s ws h => ?_, hboth.imp fun s ws h => ?_⟩
  · obtain ⟨ks, hks, hws⟩ := h
    rw [← hks.length_eq, hws.length_eq]
  · obtain ⟨ks, hks, hws⟩ := h
    exact hks.written hws

/-- A key that some filter writes is recognised by a record when it is of the stream that the
record is for, and not otherwise. -/
theorem TreeBuilt.recognised_iff (hbuilt : TreeBuilt w sb db layout most t q) {x : Leaf}
    (hx : x ∈ (t.keyedOn layout).placedLeaves) {r : ValueFilter.Route} {record : RouteRecord}
    (hr : Routed layout q x.stream.keyspace r) (hrecord : ValueFilter.Recorded r record)
    (hwords : Forall₂ (StreamWritten layout db q index) ((t.keyedOn layout).streams origin)
      ((t.keyedOn layout).streamWords origin words))
    {place : Nat} {word : UInt32}
    (hword : word ∈ ((t.keyedOn layout).streamWords origin words).getD place []) :
    word &&& record.mask = record.key ↔ origin = x.origin ∧ place = x.place := by
  obtain ⟨out, rs, horigin, hstream, -⟩ := StreamTree.mem_placedLeaves.mp hx
  obtain ⟨object, hsends⟩ := StreamTree.sends_of_mem_keyedOn horigin hstream
  obtain ⟨o, i, hkeyspace, hkey, hmask⟩ := hr
  rw [hkeyspace] at hsends
  obtain ⟨rfl, rfl⟩ := hsends.places_eq
  obtain ⟨ws, hws, hmem⟩ := exists_of_mem_getD hword
  obtain ⟨s, hs, o', i', hkeyspace', hwritten⟩ := forall₂_getElem? hwords hws
  obtain ⟨object', hsends'⟩ := StreamTree.sends_of_streams hs
  rw [hkeyspace'] at hsends'
  obtain ⟨rfl, rfl⟩ := hsends'.places_eq
  obtain ⟨d, hd, p, filled, p', v, p'', hlater, hbind, hrender, hv⟩ := hwritten word hmem
  rw [← UInt32.toNat_inj, UInt32.toNat_and, hrecord.key, hrecord.mask, hv,
    masked_eq_iff hbuilt.pool (hbuilt.place_of_sends hsends) (hbuilt.place_of_sends hsends') hkey
      hmask hd hlater hbind hrender,
    hsends.object_eq_iff hsends' hbuilt.unkeyed.senders]

end

/-- The vertex may write these keys, for some slice and at some time after the compilation. -/
def RegionedVertex.WritesKeys (q : Pool) (v : RegionedVertex) (words : List UInt32) : Prop :=
  ∃ p s index slots p', Pool.Later q p ∧ Yields (v.render s index) p slots p'
    ∧ slots[1]? = some (some (.filled words))

/-- A record delivers to a receiver: of all keys that are ever written, it recognises those of the
receiver's stream, and its filter has the words of the receiver's filter. -/
structure Delivers (n : Network) (q : Pool) (filterWords : Filter → List UInt32)
    (filters : List UInt32) (x : Leaf) (r : RouteRecord) : Prop where
  filter : wordsAt 4 r.filter.toNat filters = filterWords x.receiver.filter
  recognised_iff : ∀ y ∈ n.vertices, ∀ words, y.2.WritesKeys q words → ∀ place,
    ∀ w ∈ (n.tree.streamWords y.1 words).getD place [],
      w &&& r.mask = r.key ↔ y.1 = x.origin ∧ place = x.place

/-- What a filter renders: one key for each value of its streams, and one record for each receiver
at its object. -/
structure FilterRendering (n : Network) (q : Pool) (filterWords : Filter → List UInt32)
    (object : ObjectId) (slots : Slots) : Prop where
  keys : ∃ words, slots[1]? = some (some (.filled words))
    ∧ (n.tree.streamWords object words).flatten = words
    ∧ (n.tree.streamWords object words).map List.length = (n.tree.streams object).map (·.width)
  records : ∃ filters records receivers, slots[2]? = some (some (.filled filters))
    ∧ slots[3]? = some (some (.filled (RouteRecord.table records))) ∧ records.length < wordRange
    ∧ receivers.Perm (n.tree.arrivalsAt object)
    ∧ Forall₂ (Delivers n q filterWords filters) receivers records

/-- Every object has a vertex, which renders the filter of the object whenever it is asked to, for
whatever slice, and leaves the others able to do so. -/
def Network.RendersFilters (n : Network) (q : Pool) (objects : ObjectTable)
    (c : AssemblyContext) : Prop :=
  Forall₂ (fun o x => x.1 = o.id ∧ ∀ s index p slots p', Pool.Later q p →
    Yields (x.2.render s index) p slots p' → Pool.Later q p'
      ∧ FilterRendering n q (ValueFilter.filterWords (ValueFilter.coefficientFormat c.format)
        c.timestep o.sizeIn) o.id slots) objects.objects n.vertices

section

variable {p q : Pool} {layout w sb db : Nat} {most : String → Nat} {t : StreamTree}
  {f : ValueFilter} {o : NetworkObject} {c : AssemblyContext} {v : RegionedVertex}
  {words : List UInt32}

theorem FilterVertex.exists_written (h : FilterVertex layout db f o c q v)
    (hwrites : v.WritesKeys q words) :
    ∃ index, Forall₂ (StreamWritten layout db q index) (c.tree.streams o.id)
      (c.tree.streamWords o.id words) := by
  obtain ⟨p, s, index, slots, p', hlater, hrender, hslot⟩ := hwrites
  cases h with
  | regions hvalues _ _ _ =>
      obtain ⟨-, -, -, words', hslot', hwords'⟩ := yields_render hlater hrender
      cases hslot.symm.trans hslot'
      exact ⟨index, (streamWords_of_values hvalues hwords').2.2⟩

end

namespace FilterNetwork

variable {c : Compiler} {f : ValueFilter} {objects : ObjectTable} {format : WordFormat}
  {layout w sb db : Nat} {most : String → Nat} {t : StreamTree} {n : Network} {p q : Pool}

theorem delivers (h : FilterNetwork c f objects format w sb db layout most t n q)
    {arriving : Groups Filter (List (Option Keyspace))} {timestep : Binary64} {width : Nat}
    (hfilters : arriving.length < wordRange) {x : Leaf} (hx : x ∈ n.tree.placedLeaves)
    {r : ValueFilter.Route} {record : RouteRecord} (hanswers : Answers layout q arriving x r)
    (hrecord : ValueFilter.Recorded r record) :
    Delivers n q (ValueFilter.filterWords (ValueFilter.coefficientFormat format) timestep width)
      (ValueFilter.filterTable format timestep width (arriving.map (·.1))) x record where
  filter := by
    obtain ⟨y, hy, hsame⟩ := hanswers.filter
    obtain ⟨hlt, -⟩ := List.getElem?_eq_some_iff.mp hy
    have hplace : record.filter.toNat = r.filter := by
      rw [hrecord.filter]
      exact UInt32.toNat_ofNat_of_lt' (Nat.lt_trans hlt hfilters)
    have hfilter : (arriving.map (·.1))[record.filter.toNat]? = some y.1 := by
      rw [hplace, List.getElem?_map, hy, Option.map_some]
    rw [ValueFilter.wordsAt_filterTable hfilter, ValueFilter.filterWords_eq_of_same hsame]
  recognised_iff := by
    intro y hy words hwrites place word hword
    obtain ⟨o, -, hid, hvertex⟩ := exists_left_of_forall₂ h.vertices hy
    obtain ⟨index, hwritten⟩ := hvertex.exists_written hwrites
    rw [hid] at hword ⊢
    rw [h.tree_eq] at hword hx hwritten
    exact h.built.recognised_iff hx hanswers.routed hrecord hwritten hword

/-- Every filter renders as it should, and leaves the others to do so. -/
theorem rendering (h : FilterNetwork c f objects format w sb db layout most t n q)
    (hvalid : c.config.validate = .ok ()) {o : NetworkObject} {x : ObjectId × RegionedVertex}
    (hx : x ∈ n.vertices) (hvertex : FilterVertex layout db f o ⟨n.tree, c.config, format⟩ q x.2)
    {s : Slice} {index : Nat} {slots : Slots} {p' : Pool} (hlater : Pool.Later q p)
    (hrender : Yields (x.2.render s index) p slots p') :
    Pool.Later q p'
      ∧ FilterRendering n q (ValueFilter.filterWords (ValueFilter.coefficientFormat format)
        (AssemblyContext.timestep ⟨n.tree, c.config, format⟩) o.sizeIn) o.id slots := by
  obtain ⟨id, v⟩ := x
  obtain ⟨ps, hps⟩ := h.partitioned
  cases hvertex with
  | @regions kss arriving rss table transform hvalues harriving hroutes htable =>
      obtain ⟨hrun, hfilters, hrecords, words, hkeys, hwords⟩ := yields_render hlater hrender
      obtain ⟨hflatten, hlengths, -⟩ := streamWords_of_values hvalues hwords
      obtain ⟨records, rfl, hrecorded⟩ := ValueFilter.routeTable_eq_ok htable
      obtain ⟨receivers, hperm, hanswers⟩ :=
        exists_receivers (ValueFilter.standardInput_eq harriving) hroutes
      -- Both tables are regions of an accepted vertex, so words count their records exactly.
      have hfilterWords := Compiler.length_lt hvalid hps hx rfl
        (List.mem_cons_of_mem _ (List.mem_cons_of_mem _ List.mem_cons_self))
      have hrecordWords := Compiler.length_lt hvalid hps hx rfl (List.mem_cons_of_mem _
        (List.mem_cons_of_mem _ (List.mem_cons_of_mem _ List.mem_cons_self)))
      rw [ValueFilter.length_filterTable, List.length_map] at hfilterWords
      rw [RouteRecord.length_table] at hrecordWords
      refine ⟨hlater.trans hrun, ⟨words, hkeys, hflatten, hlengths⟩, _, records, receivers,
        hfilters, hrecords, by omega, hperm,
        (forall₂_and_mem (forall₂_comp hanswers hrecorded)).imp fun y record hboth => ?_⟩
      obtain ⟨⟨r, hanswer, hrecord⟩, hy, -⟩ := hboth
      have hleaf : y ∈ n.tree.placedLeaves := (List.mem_filter.mp (hperm.mem_iff.mp hy)).1
      exact h.delivers (by omega) hleaf hanswer hrecord

end FilterNetwork

/-- Between filters, packets are told apart exactly: whatever is rendered after the compilation, and
whatever is done to keyspaces in between, every filter has one record for each receiver at its
object, and the record recognises the keys of the receiver's stream and no others. -/
theorem Compiler.filters_routed_exactly {c : Compiler} {f : ValueFilter} {objects : ObjectTable}
    {connections : List Connection} {p q : Pool} {n : Network}
    (hvalid : c.config.validate = .ok ()) (htransforms : c.transforms = [])
    (hassembler : Groups.find? (fun a b => decide (a = b)) .filter c.assemblers = some f.assemble)
    (hkinds : ∀ o ∈ objects.objects, o.kind = .filter)
    (hkeyspaces : ∀ x ∈ connections, x.keyspace = none)
    (h : Yields (c.compile objects connections) p n q) :
    ∃ format, c.wordFormat = .ok format
      ∧ n.RendersFilters q objects ⟨n.tree, c.config, format⟩ := by
  obtain ⟨format, w, sb, db, layout, most, t, hnetwork⟩ :=
    yields_compile htransforms hassembler hkinds hkeyspaces h
  refine ⟨format, hnetwork.format_eq, (forall₂_and_mem hnetwork.vertices).imp fun o x hboth => ?_⟩
  obtain ⟨⟨hid, hvertex⟩, -, hx⟩ := hboth
  exact ⟨hid, fun s index p slots p' hlater hrender =>
    hnetwork.rendering hvalid hx hvertex hlater hrender⟩

namespace ThreeFilters

def object (number : UInt32) : NetworkObject := ⟨⟨number⟩, "filter", .filter, 2, 2, none⟩

def objects : ObjectTable := ⟨[object 0, object 1, object 2]⟩

/-- A connection without a synapse. -/
def unfiltered (pre post : UInt32) : Connection :=
  { Connection.between ⟨pre⟩ ⟨post⟩ with synapse := none }

/-- The first filter sends two streams, one of them to two receivers. -/
def connections : List Connection :=
  [unfiltered 0 2, unfiltered 1 2, { unfiltered 0 1 with transform := .scalar (.zero false) },
    unfiltered 0 1]

def compiler : Compiler := ⟨.standard, [], [(.filter, ValueFilter.standard.assemble)], []⟩

/-- Every vertex rendered, one after the other. -/
def render (vertices : Groups ObjectId RegionedVertex) : Keying CompileError (List Slots) :=
  vertices.mapM fun x => (x.2.render Workload.onlySlice 0).mapError .memory

/-- The tree and the vertices before they are partitioned, and what they render. -/
def assembled : Keying CompileError (StreamTree × Groups ObjectId RegionedVertex × List Slots) := do
  let tree ← compiler.buildTree objects connections
  let format ← Keying.ofExcept (compiler.wordFormat.mapError .data)
  let vertices ← compiler.assembleAll { tree, config := compiler.config, format } objects
  let slots ← render vertices
  pure (tree, vertices, slots)

/-- Every vertex is one atom that is within the budgets, and every edge has its ends. -/
def Fits (x : StreamTree × Groups ObjectId RegionedVertex × List Slots) : Prop :=
  (∀ w ∈ x.2.1.map (·.2.workload), w.atomCount = 1)
    ∧ (∀ w ∈ x.2.1.map (·.2.workload), w.isSearchable compiler.allConstraints = true)
    ∧ (∀ w ∈ x.2.1.map (·.2.workload),
      w.requirement compiler.allConstraints [Workload.onlySlice] ≤ 1)
    ∧ ((Partitions.whole (x.2.1.map (·.2.workload))).splitVertices.splitEdges
      (Compiler.edgesBetween x.2.1 x.1)).isOk = true
    ∧ (x.1.arrivalsAt ⟨2⟩).length = 2

instance : DecidablePred Fits := fun _ => inferInstanceAs (Decidable (_ ∧ _))

theorem exists_compile : ∃ n q slots q',
    Yields (compiler.compile objects connections) Pool.empty n q
      ∧ Yields (render n.vertices) q slots q' ∧ (n.tree.arrivalsAt ⟨2⟩).length = 2 := by
  obtain ⟨⟨tree, vertices, slots⟩, q', h, hatoms, hsearchable, hmet, hedges, harrivals⟩ :
      ∃ x q, Yields assembled Pool.empty x q ∧ Fits x :=
    exists_yields_of_any (by decide +kernel)
  simp only [assembled, yields_bind_iff, yields_pure_iff] at h
  obtain ⟨_, mid, htree, format, _, hformat, _, q, hvertices, _, _, hslots, hx, hq⟩ := h
  cases hx
  cases hq
  let ps := Partitions.whole (vertices.map (·.2.workload))
  cases hsplit : ps.splitVertices.splitEdges (Compiler.edgesBetween vertices tree) with
  | error e =>
      rw [hsplit] at hedges
      cases hedges
  | ok edges =>
      refine ⟨⟨tree, vertices, ps, ps.splitVertices, edges⟩, q, slots, q', ?_, hslots, harrivals⟩
      obtain ⟨hword, rfl⟩ := yields_ofExcept_iff.mp hformat
      exact Compiler.yields_compile_iff.mpr ⟨mid, format, htree, mapError_eq_ok_iff.mp hword,
        hvertices, partitionSearchable_of_single hatoms hsearchable hmet, rfl, hsplit⟩

theorem routed_exactly : ∃ n q slots q',
    Yields (compiler.compile objects connections) Pool.empty n q
      ∧ Yields (render n.vertices) q slots q' ∧ (n.tree.arrivalsAt ⟨2⟩).length = 2
      ∧ ∃ format, compiler.wordFormat = .ok format
        ∧ n.RendersFilters q objects ⟨n.tree, compiler.config, format⟩ := by
  have hproblems : compiler.config.problems = [] := List.isEmpty_iff.mp (by decide +kernel)
  have hvalid : compiler.config.validate = .ok () := by rw [Config.validate, hproblems]
  obtain ⟨n, q, slots, q', h, hslots, harrivals⟩ := exists_compile
  exact ⟨n, q, slots, q', h, hslots, harrivals, Compiler.filters_routed_exactly hvalid rfl rfl
    (by decide +kernel) (by decide +kernel) h⟩

end ThreeFilters

end Manycore
