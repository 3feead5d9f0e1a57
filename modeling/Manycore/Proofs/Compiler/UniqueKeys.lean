import Manycore.Compiler.Placement
import Manycore.Proofs.Compiler.KeyedVertices

/-! # Keys of placed networks

Every core writes a key for each value that its vertex sends, with its own index filled in. The
keyspaces of all of them are on one layout, so no two values of the machine ever have the same key.
-/

namespace Manycore

open List (Forall₂)
open Keying Keyspace

theorem Network.eq_of_index? {n : Network} {x y : SplitVertex} {index : Nat}
    (hx : n.index? x = some index) (hy : n.index? y = some index) (hvertex : x.vertex = y.vertex) :
    x = y := by
  obtain ⟨splits, hsplits, hx⟩ := Option.bind_eq_some_iff.mp hx
  obtain ⟨splits', hsplits', hy⟩ := Option.bind_eq_some_iff.mp hy
  rw [hvertex] at hsplits
  cases hsplits.symm.trans hsplits'
  obtain ⟨_, hget, -⟩ := List.findIdx?_eq_some_iff_getElem.mp hx
  obtain ⟨_, hget', -⟩ := List.findIdx?_eq_some_iff_getElem.mp hy
  exact (of_decide_eq_true hget).symm.trans (of_decide_eq_true hget')

namespace Compiler

variable {c : Compiler} {n : Network} {ps earlier : List Placement} {cores : List PlacedCore}
  {p q : Pool}

theorem split_ne_of_checkPlacement {x : Placement} (h : checkPlacement earlier x = .ok ()) :
    ∀ e ∈ earlier, e.split ≠ x.split := by
  unfold checkPlacement at h
  split at h
  · cases h
  · split at h
    · cases h
    · rename_i hany
      intro e he heq
      exact hany (List.any_eq_true.mpr ⟨e, he, decide_eq_true heq⟩)

theorem yields_renderPlacement_iff {x : Placement} {core : PlacedCore} :
    Yields (c.renderPlacement n x) p core q ↔
      ∃ v index slots, n.vertex? x.split.vertex = some v ∧ n.index? x.split = some index
        ∧ Yields (v.render x.split.slice index) p slots q
        ∧ core = ⟨x.x, x.y, x.p, slots, c.config.application.timerPeriod⟩ := by
  unfold renderPlacement
  cases n.vertex? x.split.vertex with
  | none => simp [not_yields_throw]
  | some v =>
      cases n.index? x.split with
      | none => simp [not_yields_throw]
      | some index =>
          simp only [yields_bind_iff, yields_mapError_iff, yields_pure_iff, Option.some.injEq]
          constructor
          · rintro ⟨slots, _, hslots, rfl, rfl⟩
            exact ⟨v, index, slots, rfl, rfl, hslots, rfl⟩
          · rintro ⟨_, _, slots, rfl, rfl, hslots, rfl⟩
            exact ⟨slots, q, hslots, rfl, rfl⟩

theorem yields_renderFrom_cons_iff {x : Placement} {rest : List Placement} :
    Yields (c.renderFrom n earlier (x :: rest)) p cores q ↔ checkPlacement earlier x = .ok ()
      ∧ ∃ core mid others, Yields (c.renderPlacement n x) p core mid
        ∧ Yields (c.renderFrom n (x :: earlier) rest) mid others q ∧ core :: others = cores := by
  simp only [renderFrom, yields_bind_iff, yields_ofExcept_iff, mapError_eq_ok_iff, yields_pure_iff]
  constructor
  · rintro ⟨_, _, ⟨hcheck, rfl⟩, core, mid, hcore, others, _, hothers, rfl, rfl⟩
    exact ⟨hcheck, core, mid, others, hcore, hothers, rfl⟩
  · rintro ⟨hcheck, core, mid, others, hcore, hothers, rfl⟩
    exact ⟨(), p, ⟨hcheck, rfl⟩, core, mid, hcore, others, q, hothers, rfl, rfl⟩

/-- No split vertex is placed twice. -/
theorem nodup_of_renderFrom (h : Yields (c.renderFrom n earlier ps) p cores q) :
    (ps.map (·.split)).Nodup ∧ ∀ e ∈ earlier, ∀ x ∈ ps, e.split ≠ x.split := by
  induction ps generalizing earlier p cores with
  | nil => exact ⟨List.nodup_nil, fun _ _ x hx => nomatch hx⟩
  | cons x rest ih =>
      obtain ⟨hcheck, core, mid, others, -, hothers, rfl⟩ := yields_renderFrom_cons_iff.mp h
      obtain ⟨hnodup, happart⟩ := ih hothers
      obtain ⟨hx, hearlier⟩ := List.forall_mem_cons.mp happart
      constructor
      · refine List.nodup_cons.mpr ⟨fun hmem => ?_, hnodup⟩
        obtain ⟨y, hy, heq⟩ := List.mem_map.mp hmem
        exact hx y hy heq.symm
      · intro e he
        exact List.forall_mem_cons.mpr
          ⟨split_ne_of_checkPlacement hcheck e he, hearlier e he⟩

end Compiler

/-- The key word of a placed core for one of the values of a stream. -/
def Network.keyWord? (n : Network) (slot : ObjectId → Nat) (x : Placement × PlacedCore)
    (place dimension : Nat) : Option UInt32 :=
  match x.2.slots[slot x.1.split.vertex]? with
  | some (some (.filled words)) =>
    ((n.tree.streamWords x.1.split.vertex words)[place]?).bind (·[dimension]?)
  | _ => none

theorem Network.keyWord?_eq_some_iff {n : Network} {slot : ObjectId → Nat} {x : Placement}
    {core : PlacedCore} {place dimension : Nat} {word : UInt32} :
    n.keyWord? slot (x, core) place dimension = some word ↔ ∃ words ws,
      core.slots[slot x.split.vertex]? = some (some (.filled words))
        ∧ (n.tree.streamWords x.split.vertex words)[place]? = some ws
        ∧ ws[dimension]? = some word := by
  simp only [keyWord?]
  split
  · rename_i words hslot
    simp [hslot, Option.bind_eq_some_iff]
  · rename_i hslot
    constructor
    · intro h
      cases h
    · rintro ⟨words, _, hwords, -⟩
      exact absurd hwords (hslot words)

/-- A core has the keys of its vertex, with the place of its split vertex filled in. -/
def CoreKeys (layout : Nat) (slot : ObjectId → Nat) (n : Network) (p : Pool) (x : Placement)
    (core : PlacedCore) : Prop :=
  let vertex := x.split.vertex
  ∃ index, n.index? x.split = some index ∧ (n.tree.streams vertex ≠ [] →
    ∃ words, core.slots[slot vertex]? = some (some (.filled words))
      ∧ Forall₂ (KeyedWords layout p index) (n.tree.streams vertex)
        (n.tree.streamWords vertex words))

section

variable {w sb db layout : Nat} {slot : ObjectId → Nat} {t : StreamTree} {n : Network} {p q : Pool}
  {c : Compiler} {x y : Placement} {core core' : PlacedCore}

theorem CoreKeys.run {rule : Pool.Rule} (h : CoreKeys layout slot n p x core)
    (hrun : Pool.Run rule p q) : CoreKeys layout slot n q x core := by
  obtain ⟨index, hindex, hkeys⟩ := h
  refine ⟨index, hindex, fun hstreams => ?_⟩
  obtain ⟨words, hslot, hwords⟩ := hkeys hstreams
  exact ⟨words, hslot, hwords.imp fun _ _ hws => hws.run hrun⟩

theorem KeyedNetwork.renderPlacement (h : KeyedNetwork w sb db layout slot t n p)
    (hrender : Yields (c.renderPlacement n x) p core q) :
    Pool.Later p q ∧ CoreKeys layout slot n q x core := by
  obtain ⟨v, index, slots, hfind, hindex, hslots, rfl⟩ :=
    Compiler.yields_renderPlacement_iff.mp hrender
  obtain ⟨id, hmem, hid⟩ := Groups.exists_of_find? hfind
  obtain rfl : id = x.split.vertex := of_decide_eq_true hid
  have hv := h.vertices _ hmem
  exact ⟨hv.renders.runs _ _ _ _ _ hslots, index, hindex,
    fun hstreams => hv.exists_words hstreams hslots⟩

theorem KeyedNetwork.renderFrom {ps earlier : List Placement} {cores : List PlacedCore}
    (h : KeyedNetwork w sb db layout slot t n p)
    (hrender : Yields (c.renderFrom n earlier ps) p cores q) :
    Pool.Later p q ∧ Forall₂ (CoreKeys layout slot n q) ps cores := by
  induction ps generalizing earlier p cores with
  | nil =>
      obtain ⟨rfl, rfl⟩ := yields_pure_iff.mp hrender
      exact ⟨.refl, .nil⟩
  | cons x rest ih =>
      obtain ⟨-, core, mid, others, hcore, hothers, rfl⟩ :=
        Compiler.yields_renderFrom_cons_iff.mp hrender
      obtain ⟨hrun, hkeys⟩ := h.renderPlacement hcore
      obtain ⟨hrun', hrest⟩ := ih (h.run hrun) hothers
      exact ⟨hrun.trans hrun', .cons (hkeys.run hrun') hrest⟩

variable {place place' d d' : Nat} {word : UInt32}

theorem CoreKeys.exists_keyWord (h : CoreKeys layout slot n p x core) {s : Stream}
    (hs : (n.tree.streams x.split.vertex)[place]? = some s) (hd : d < s.width) :
    ∃ word, n.keyWord? slot (x, core) place d = some word := by
  obtain ⟨index, -, hkeys⟩ := h
  obtain ⟨words, hslot, hwords⟩ := hkeys fun hnil => by simp [hnil] at hs
  obtain ⟨ws, hws, _, _, -, hvalues⟩ := forall₂_getElem? hwords.flip hs
  obtain ⟨word, hword, -⟩ := forall₂_getElem? hvalues.flip (List.getElem?_range hd)
  exact ⟨word, Network.keyWord?_eq_some_iff.mpr ⟨words, ws, hslot, hws, hword⟩⟩

/-- A key word is of the stream of the sender that it is found for. -/
theorem CoreKeys.of_keyWord (hn : KeyedNetwork w sb db layout slot t n p)
    (h : CoreKeys layout slot n p x core) (hword : n.keyWord? slot (x, core) place d = some word) :
    ∃ index object keyspace, n.index? x.split = some index
      ∧ t.Sends layout x.split.vertex place object keyspace
      ∧ (filledValue layout object place d index).HasKey p word.toNat := by
  obtain ⟨index, hindex, hkeys⟩ := h
  obtain ⟨words, ws, hslot, hws, hword⟩ := Network.keyWord?_eq_some_iff.mp hword
  have hstreams : n.tree.streams x.split.vertex ≠ [] := by
    intro hnil
    simp [StreamTree.streamWords, hnil] at hws
  obtain ⟨words', hslot', hwords⟩ := hkeys hstreams
  cases hslot.symm.trans hslot'
  obtain ⟨s, hs, o, i, hkey, hvalues⟩ := forall₂_getElem? hwords hws
  obtain ⟨value, hvalue, hkey'⟩ := forall₂_getElem? hvalues hword
  rw [hn.tree_eq] at hs
  obtain ⟨object, hsends⟩ := StreamTree.sends_of_streams hs
  rw [hkey] at hsends
  obtain ⟨rfl, rfl⟩ := hsends.places_eq
  obtain ⟨_, hd⟩ := List.getElem?_eq_some_iff.mp hvalue
  obtain rfl : d = value := by rwa [List.getElem_range] at hd
  exact ⟨index, o, _, hindex, hsends, hkey'⟩

theorem KeyedNetwork.keyWord_inj (hn : KeyedNetwork w sb db layout slot t n p)
    (hx : CoreKeys layout slot n p x core) (hy : CoreKeys layout slot n p y core')
    (hword : n.keyWord? slot (x, core) place d = some word)
    (hword' : n.keyWord? slot (y, core') place' d' = some word) :
    x.split = y.split ∧ place = place' ∧ d = d' := by
  obtain ⟨index, object, keyspace, hindex, hsends, hkey⟩ := hx.of_keyWord hn hword
  obtain ⟨index', object', keyspace', hindex', hsends', hkey'⟩ := hy.of_keyWord hn hword'
  obtain ⟨rfl, rfl, rfl, rfl⟩ := filledValue_inj hn.based hkey hkey'
  have hvertex : y.split.vertex = x.split.vertex :=
    (hsends.object_eq_iff hsends' hn.senders).mp rfl
  exact ⟨Network.eq_of_index? hindex hindex' hvertex.symm, rfl, rfl⟩

end

/-- Every value that is sent has a key word, and no two have the same. -/
structure Network.KeysUnique (n : Network) (slot : ObjectId → Nat) (ps : List Placement)
    (cores : List PlacedCore) : Prop where
  count : cores.length = ps.length
  splits : (ps.map (·.split)).Nodup
  written : ∀ x ∈ ps.zip cores, ∀ place s, (n.tree.streams x.1.split.vertex)[place]? = some s →
    ∀ d < s.width, ∃ word, n.keyWord? slot x place d = some word
  unique : ∀ x ∈ ps.zip cores, ∀ y ∈ ps.zip cores, ∀ place d place' d' word,
    n.keyWord? slot x place d = some word → n.keyWord? slot y place' d' = some word →
    x.1.split = y.1.split ∧ place = place' ∧ d = d'

namespace Compiler

variable {c : Compiler} {objects : ObjectTable} {connections : List Connection} {n : Network}
  {ps : List Placement} {register : RegisterMap} {directory : String} {p q q' q'' : Pool}
  {files files' : FileTree} {plan : LoadPlan} {slot : ObjectId → Nat}

theorem outcome_generate (c : Compiler) (n : Network) (ps : List Placement) (register : RegisterMap)
    (directory : String) (p : Pool) (files : FileTree) :
    Stateful.outcome (c.generate n ps register directory) (p, files)
      = match outcome (c.renderPlacements n ps) p with
        | (.error e, q) => (.error e, (q, files))
        | (.ok cores, q) =>
          let written := Stateful.outcome (c.writeCores cores register directory) files
          (written.1.mapError .memory, (q, written.2)) := by
  unfold generate Stateful.outcome outcome
  simp only [ExceptT.run, StateT.run, ExceptT.mk, Bind.bind, StateT.bind, MonadState.get, getThe,
    MonadStateOf.get, StateT.get, Pure.pure]
  rcases (c.renderPlacements n ps) p with ⟨result, mid⟩
  cases result <;> rfl

theorem succeeds_generate_iff :
    Stateful.Succeeds (c.generate n ps register directory) (p, files) plan (q, files') ↔
      ∃ cores, Yields (c.renderPlacements n ps) p cores q
        ∧ Stateful.Succeeds (c.writeCores cores register directory) files plan files' := by
  unfold Stateful.Succeeds Yields
  rw [outcome_generate]
  rcases outcome (c.renderPlacements n ps) p with ⟨e | cores, mid⟩
  · simp
  · rw [Prod.mk.injEq, Prod.mk.injEq, mapError_eq_ok_iff]
    constructor
    · rintro ⟨hplan, rfl, rfl⟩
      exact ⟨cores, rfl, Prod.ext hplan rfl⟩
    · rintro ⟨cores', hcores, hwrite⟩
      cases hcores
      rw [hwrite]
      exact ⟨rfl, rfl, rfl⟩

/-- Whatever is done with keyspaces after the compilation: no two values that placed split vertices
send have the same key, when no connection has a keyspace of its own. -/
theorem placed_keys_unique (hunkeyed : c.LeavesUnkeyed objects connections p)
    (hassembles : c.AssemblesKeys objects n.tree slot)
    (hcompile : Yields (c.compile objects connections) p n q) (hlater : Pool.Later q q')
    (hgenerate : Stateful.Succeeds (c.generate n ps register directory) (q', files) plan
      (q'', files')) :
    ∃ cores, Yields (c.renderPlacements n ps) q' cores q''
      ∧ Stateful.Succeeds (c.writeCores cores register directory) files plan files'
      ∧ n.KeysUnique slot ps cores := by
  obtain ⟨w, sb, db, layout, t, hnetwork⟩ := exists_keyedNetwork hunkeyed hassembles hcompile
  obtain ⟨cores, hrender, hwrite⟩ := succeeds_generate_iff.mp hgenerate
  obtain ⟨hrun, hkeys⟩ := (hnetwork.run hlater).renderFrom hrender
  have hfinal := (hnetwork.run hlater).run hrun
  have hzip : ∀ x ∈ ps.zip cores, CoreKeys layout slot n q'' x.1 x.2 :=
    fun x hx => List.forall₂_zip hkeys hx
  refine ⟨cores, hrender, hwrite, hkeys.length_eq.symm, (nodup_of_renderFrom hrender).1, ?_, ?_⟩
  · intro x hx place s hs d hd
    exact (hzip x hx).exists_keyWord hs hd
  · intro x hx y hy place d place' d' word hword hword'
    exact hfinal.keyWord_inj (hzip x hx) (hzip y hy) hword hword'

end Compiler

namespace ThreeFilters

/-- The first two filters change places as senders. -/
def swapping : Compiler :=
  let swap (id : ObjectId) : ObjectId := if id = ⟨0⟩ then ⟨1⟩ else if id = ⟨1⟩ then ⟨0⟩ else id
  compiler.withTransform (.replaceObjects "swap" swap true false)

/-- Every filter on a core of its own. -/
def placements : List Placement :=
  [⟨0, 0, 1, ⟨⟨0⟩, Workload.onlySlice⟩⟩, ⟨0, 0, 2, ⟨⟨1⟩, Workload.onlySlice⟩⟩,
    ⟨1, 0, 1, ⟨⟨2⟩, Workload.onlySlice⟩⟩]

def register : RegisterMap := fun _ _ p => p

/-- The stages of a compilation in which every vertex is one atom, and the cores after it. -/
def placed : Keying CompileError (Network × List PlacedCore) := do
  let tree ← swapping.buildTree objects connections
  let format ← Keying.ofExcept (swapping.wordFormat.mapError .data)
  let vertices ← swapping.assembleAll { tree, config := swapping.config, format } objects
  let partitions := Partitions.whole (vertices.map (·.2.workload))
  let edges ← Keying.ofExcept
    ((partitions.splitVertices.splitEdges (Compiler.edgesBetween vertices tree)).mapError .partition)
  let n : Network := { tree, vertices, partitions, splits := partitions.splitVertices, edges }
  let cores ← swapping.renderPlacements n placements
  pure (n, cores)

/-- Cores that are in order are laid out as they come. -/
def writeSorted (cores : List PlacedCore) : Writing LoadPlan := do
  let plan ← (do
    let blocks ← (ExceptT.mk (pure (swapping.nodeMemory.placeAll [] cores)) : Writing (List Block))
    makeDirectory "out"
    let regions ← blocks.mapM fun b => b.writeFiles "out"
    pure { registers := blocks.map fun b => b.registerWrite register, regions := regions.flatten })
  if swapping.config.output.writeManifest then
    plan.saveManifest (joinPath "out" manifestName)
  pure plan

theorem writeCores_eq {cores : List PlacedCore}
    (h : cores.Pairwise fun a b => PlacedCore.precedes a b = true) :
    swapping.writeCores cores register "out" = writeSorted cores := by
  rw [Compiler.writeCores, NodeMemory.generate, NodeMemory.allocate, List.mergeSort_of_pairwise h]
  rfl

/-- The vertices fit, two of them send, and the cores can be written as they are. -/
def IsPlaced (x : Network × List PlacedCore) : Prop :=
  Fits (x.1.tree, x.1.vertices, x.2.map (·.slots))
    ∧ (x.2.Pairwise fun a b => PlacedCore.precedes a b = true)
    ∧ (Stateful.outcome (writeSorted x.2) .empty).1.isOk = true
    ∧ ([⟨0⟩, ⟨1⟩, ⟨2⟩].map fun id => ((x.1.tree.streams id).map (·.width))) = [[2], [2, 2], []]

instance : DecidablePred IsPlaced := fun _ => inferInstanceAs (Decidable (_ ∧ _))

theorem exists_generate : ∃ n q plan q' files,
    Yields (swapping.compile objects connections) Pool.empty n q
      ∧ Stateful.Succeeds (swapping.generate n placements register "out") (q, .empty) plan
        (q', files)
      ∧ ([⟨0⟩, ⟨1⟩, ⟨2⟩].map fun id => ((n.tree.streams id).map (·.width))) = [[2], [2, 2], []] := by
  obtain ⟨x, q', h, ⟨hatoms, hsearchable, hmet, -, -⟩, hsorted, hwritten, hwidths⟩ :
      ∃ x q, Yields placed Pool.empty x q ∧ IsPlaced x :=
    exists_yields_of_any (by decide +kernel)
  simp only [placed, yields_bind_iff, yields_ofExcept_iff, mapError_eq_ok_iff, yields_pure_iff] at h
  obtain ⟨tree, mid, htree, format, _, ⟨hformat, rfl⟩, vertices, q, hvertices, edges, _,
    ⟨hedges, rfl⟩, cores, _, hcores, rfl, rfl⟩ := h
  obtain ⟨plan, files, hwrite⟩ := Stateful.exists_succeeds hwritten
  rw [← writeCores_eq hsorted] at hwrite
  refine ⟨_, q, plan, _, files, ?_, Compiler.succeeds_generate_iff.mpr ⟨cores, hcores, hwrite⟩,
    hwidths⟩
  exact Compiler.yields_compile_iff.mpr ⟨mid, format, htree, hformat, hvertices,
    partitionSearchable_of_single hatoms hsearchable hmet, rfl, hedges⟩

theorem keys_unique : ∃ n q plan q' files cores,
    Yields (swapping.compile objects connections) Pool.empty n q
      ∧ Stateful.Succeeds (swapping.generate n placements register "out") (q, .empty) plan
        (q', files)
      ∧ ([⟨0⟩, ⟨1⟩, ⟨2⟩].map fun id => ((n.tree.streams id).map (·.width))) = [[2], [2, 2], []]
      ∧ Yields (swapping.renderPlacements n placements) q cores q'
      ∧ n.KeysUnique (fun _ => 1) placements cores := by
  obtain ⟨n, q, plan, q', files, hcompile, hgenerate, hwidths⟩ := exists_generate
  have hunkeyed : swapping.LeavesUnkeyed objects connections Pool.empty := by
    refine Compiler.leavesUnkeyed (by decide +kernel) (List.forall_mem_singleton.mpr ?_) Pool.empty
    exact NetworkTransform.keepsUnkeyed_replaceObjects _ _ _ _ _
  have hassembles : swapping.AssemblesKeys objects n.tree fun _ => 1 :=
    Compiler.assemblesKeys_of_filters (List.forall_mem_singleton.mpr ⟨.standard, rfl⟩)
  obtain ⟨cores, hcores, -, hunique⟩ :=
    Compiler.placed_keys_unique hunkeyed hassembles hcompile .refl hgenerate
  exact ⟨n, q, plan, q', files, cores, hcompile, hgenerate, hwidths, hcores, hunique⟩

end ThreeFilters

end Manycore
