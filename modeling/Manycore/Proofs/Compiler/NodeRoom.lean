import Manycore.Compiler.Placement
import Manycore.Proofs.Compiler.Capacity
import Manycore.Proofs.Compiler.KnownPartitions
import Manycore.Proofs.Compiler.UniqueKeys
import Manycore.Proofs.Memory.RegionSizes
import Manycore.Proofs.Memory.Shortage

/-! # Room on a node

The slices of a vertex are cut so that their regions keep within the budget of a node. A core also
gets a pointer table, which no budget counts. So a core that has a node for itself runs short of
memory exactly when the table does not fit in what the budget leaves.
-/

namespace Manycore

open List (Forall₂)
open Binary64 Keying

namespace Network

/-- The bytes of the regions of a split vertex. -/
def regionBytes (n : Network) (x : SplitVertex) : Nat :=
  (n.vertex? x.vertex).elim 0 fun v => v.usage .sdram x.slice

/-- The bytes of the pointer table of a split vertex: four words, and one for each slot. -/
def tableBytes (n : Network) (x : SplitVertex) : Nat :=
  (n.vertex? x.vertex).elim 0 fun v => 4 * (4 + v.regions.length)

/-- Every vertex is the one that is found under its number. -/
def FindsOwn (n : Network) : Prop := ∀ x ∈ n.vertices, n.vertex? x.2.id = some x.2

end Network

namespace Compiler

/-- The bytes of a node that may be planned for. -/
def sdramBudget (c : Compiler) : Binary64 :=
  .ofNat c.config.machine.sdramPerNode.toNat * c.config.machine.usageFraction

variable {c : Compiler} {n : Network}

theorem isNaN_sdramBudget (hvalid : c.config.validate = .ok ()) : c.sdramBudget.isNaN = false := by
  have haccepted := Config.validate_eq_ok_iff.mp hvalid
  have hsmall : c.config.machine.sdramPerNode.toNat < twoTo 32 := UInt32.toNat_lt _
  have hcount := isBelow_ofNat (k := 32) (by omega) (Nat.le_of_lt hsmall)
  exact (isBelow_mul (by omega) hcount
    (isPart_of_lt_of_le haccepted.fraction_pos haccepted.fraction_le)).isNaN

/-- No more is planned for than there is. -/
theorem sdramBudget_le (hvalid : c.config.validate = .ok ()) :
    c.sdramBudget.signedUnits ≤ (c.nodeMemory.size * unitsPerOne : Nat) := by
  have haccepted := Config.validate_eq_ok_iff.mp hvalid
  have hsmall : c.config.machine.sdramPerNode.toNat < twoTo 32 := UInt32.toNat_lt _
  have hexact := exact_of_lt (Nat.lt_of_lt_of_le hsmall (twoTo_le_twoTo (by omega)))
  exact hexact.signedUnits_mul_le
    (isPart_of_lt_of_le haccepted.fraction_pos haccepted.fraction_le)

theorem usage_le_budget (hvalid : c.config.validate = .ok ()) {v : RegionedVertex} {s : Slice}
    (hrequired : c.sdramLimit.required v.workload s ≤ 1) :
    ((v.usage .sdram s * unitsPerOne : Nat) : Int) ≤ c.sdramBudget.signedUnits := by
  have hlt := usage_lt_of_required hvalid hrequired
  have hexact := exact_of_lt (Nat.lt_of_lt_of_le hlt (twoTo_le_twoTo (by omega)))
  rw [sdramLimit, Constraint.required_usageLimit] at hrequired
  rw [← hexact.signedUnits]
  exact (Constraint.slicesWithin_le_one_iff (isNaN_sdramBudget hvalid)).mp hrequired

section

variable {objects : ObjectTable} {connections : List Connection} {p q : Pool}

/-- Every split vertex keeps within the budget. -/
theorem regionBytes_le_budget (hvalid : c.config.validate = .ok ())
    (hcompile : Yields (c.compile objects connections) p n q) (hown : n.FindsOwn)
    {x : SplitVertex} (hx : x ∈ n.splitVertices) :
    ((n.regionBytes x * unitsPerOne : Nat) : Int) ≤ c.sdramBudget.signedUnits := by
  obtain ⟨slices, hslices, hslice⟩ := (mem_splitVertices_iff hcompile).mp hx
  obtain ⟨_, _, -, -, -, hps, -, -⟩ := yields_compile_iff.mp hcompile
  obtain ⟨w, hw, hid, hpartition⟩ := exists_workload_of_slices hps hslices
  obtain ⟨y, hy, rfl⟩ := List.mem_map.mp hw
  have hvertex : n.vertex? x.vertex = some y.2 := hid ▸ hown y hy
  have hrequired := Workload.required_le_one_of_mem hpartition c.sdramLimit_mem hslice
  rw [Network.regionBytes, hvertex]
  exact usage_le_budget hvalid hrequired

end

section

variable {a : Placement} {ps earlier : List Placement} {core : PlacedCore}
  {cores : List PlacedCore} {p q : Pool}

/-- A core is on the node that was chosen, and its block has the bytes of its regions and table. -/
structure Rendered (n : Network) (a : Placement) (core : PlacedCore) : Prop where
  x_eq : core.x = a.x
  y_eq : core.y = a.y
  mem : a.split ∈ n.splitVertices
  blockBytes : core.blockBytes = n.regionBytes a.split + n.tableBytes a.split

theorem rendered_of_renderPlacement (h : Yields (c.renderPlacement n a) p core q) :
    Rendered n a core := by
  obtain ⟨v, index, slots, hvertex, hindex, hslots, rfl⟩ := yields_renderPlacement_iff.mp h
  have hfits := RegionedVertex.fits_of_yields hslots
  have hbytes : slots.totalBytes = v.usage .sdram a.split.slice := by
    rw [hfits.totalBytes_eq, hfits.bytesOf_eq]
    rfl
  refine ⟨rfl, rfl, mem_splitVertices_of_index? hindex, ?_⟩
  simp only [PlacedCore.blockBytes, Slots.tableBytes, Network.regionBytes, Network.tableBytes,
    hvertex, Option.elim, hbytes, hfits.length_eq]
  exact Nat.add_comm _ _

theorem rendered_of_renderFrom (h : Yields (c.renderFrom n earlier ps) p cores q) :
    Forall₂ (Rendered n) ps cores := by
  induction ps generalizing earlier p cores with
  | nil =>
      obtain ⟨rfl, -⟩ := yields_pure_iff.mp h
      exact .nil
  | cons a rest ih =>
      obtain ⟨-, core, mid, others, hcore, hothers, rfl⟩ := yields_renderFrom_cons_iff.mp h
      exact .cons (rendered_of_renderPlacement hcore) (ih hothers)

end

end Compiler

/-- The placements are on different nodes. -/
def Placement.Apart (a b : Placement) : Prop := ¬ (a.x = b.x ∧ a.y = b.y)

namespace Compiler

section

variable {c : Compiler} {n : Network} {ps : List Placement} {cores : List PlacedCore}
  {pool pool' : Pool} {files : FileTree} {register : RegisterMap} {directory : String}

/-- Generating a placed network fails for want of memory. -/
def RunsShort (c : Compiler) (n : Network) (ps : List Placement) (register : RegisterMap)
    (directory : String) (pool : Pool) (files : FileTree) : Prop :=
  ∃ requested available, Stateful.Fails (c.generate n ps register directory) (pool, files)
    (.memory (.insufficient requested available))

theorem fails_writeCores_iff {requested available : Nat} :
    Stateful.Fails (c.writeCores cores register directory) files (.insufficient requested available)
      ↔ c.nodeMemory.allocate cores = .error (.insufficient requested available) := by
  unfold writeCores
  rw [Stateful.fails_bind_iff]
  constructor
  · rintro (hgenerate | ⟨plan, mid, -, h⟩)
    · rcases NodeMemory.fails_generate_cases hgenerate with hallocate | ⟨path, hpath⟩
      · exact hallocate
      · cases hpath
    · split at h
      · rcases Stateful.fails_bind_iff.mp h with hsave | ⟨_, _, -, hpure⟩
        · cases file_of_fails_writeFile hsave
        · exact absurd hpure Stateful.not_fails_pure
      · exact absurd h Stateful.not_fails_pure
  · exact fun hallocate => .inl (NodeMemory.fails_generate_of_allocate hallocate)

theorem fails_generate_iff (hrender : Yields (c.renderPlacements n ps) pool cores pool')
    {e : MemoryError} : Stateful.Fails (c.generate n ps register directory) (pool, files) (.memory e)
      ↔ Stateful.Fails (c.writeCores cores register directory) files e := by
  unfold Stateful.Fails
  rw [outcome_generate, hrender]
  simp only [mapError_eq_error_iff]
  constructor
  · rintro ⟨_, herror, hcause⟩
    cases hcause
    exact herror
  · exact fun herror => ⟨e, herror, rfl⟩

/-- Memory runs short exactly when blocks cannot be given out. -/
theorem runsShort_iff (hrender : Yields (c.renderPlacements n ps) pool cores pool') :
    c.RunsShort n ps register directory pool files ↔ c.nodeMemory.RunsShort cores := by
  simp only [RunsShort, NodeMemory.RunsShort, fails_generate_iff hrender, fails_writeCores_iff]

theorem range_nodeMemory (hvalid : c.config.validate = .ok ()) :
    c.nodeMemory.base.toNat + c.nodeMemory.size < wordRange :=
  (Config.validate_eq_ok_iff.mp hvalid).memory_lt

variable (hvalid : c.config.validate = .ok ()) (happart : ps.Pairwise Placement.Apart)
  (hrender : Yields (c.renderPlacements n ps) pool cores pool')
include hvalid happart hrender

theorem runsShort_iff_exists (hcountable : ∀ a ∈ ps,
    n.regionBytes a.split + n.tableBytes a.split < wordRange) :
    c.RunsShort n ps register directory pool files
      ↔ ∃ a ∈ ps, c.nodeMemory.size < n.regionBytes a.split + n.tableBytes a.split := by
  have hcores := rendered_of_renderFrom hrender
  have hnodes : cores.Pairwise PlacedCore.Apart :=
    pairwise_of_forall₂ hcores happart fun a b core core' ha hb hab hsame =>
      hab ⟨ha.x_eq.symm.trans (hsame.1.trans hb.x_eq), ha.y_eq.symm.trans (hsame.2.trans hb.y_eq)⟩
  have hblocks : ∀ core ∈ cores, core.blockBytes < wordRange := by
    intro core hcore
    obtain ⟨a, ha, hbytes⟩ := exists_left_of_forall₂ hcores hcore
    exact hbytes.blockBytes ▸ hcountable a ha
  rw [runsShort_iff hrender, NodeMemory.runsShort_iff (Nat.le_of_lt (range_nodeMemory hvalid))
    hnodes hblocks]
  constructor
  · rintro ⟨core, hcore, hlarge⟩
    obtain ⟨a, ha, hbytes⟩ := exists_left_of_forall₂ hcores hcore
    exact ⟨a, ha, hbytes.blockBytes ▸ hlarge⟩
  · rintro ⟨a, ha, hlarge⟩
    obtain ⟨core, hcore, hbytes⟩ := exists_right_of_forall₂ hcores ha
    exact ⟨core, hcore, hbytes.blockBytes ▸ hlarge⟩

theorem not_runsShort (hfits : ∀ a ∈ ps,
    n.regionBytes a.split + n.tableBytes a.split ≤ c.nodeMemory.size) :
    ¬ c.RunsShort n ps register directory pool files := by
  have hrange := range_nodeMemory hvalid
  rw [runsShort_iff_exists hvalid happart hrender fun a ha => by
    have := hfits a ha
    omega]
  rintro ⟨a, ha, hlarge⟩
  exact absurd (hfits a ha) (Nat.not_le.mpr hlarge)

end

section

variable {c : Compiler} {objects : ObjectTable} {connections : List Connection} {n : Network}
  {p q : Pool}

/-- The budget leaves room for the pointer table of a split vertex. -/
def LeavesTable (c : Compiler) (n : Network) (x : SplitVertex) : Prop :=
  c.sdramBudget.signedUnits + (n.tableBytes x * unitsPerOne : Nat)
    ≤ (c.nodeMemory.size * unitsPerOne : Nat)

instance (c : Compiler) (n : Network) (x : SplitVertex) : Decidable (c.LeavesTable n x) :=
  inferInstanceAs (Decidable (_ ≤ _))

theorem LeavesTable.fits {x : SplitVertex} (h : c.LeavesTable n x)
    (hbudget : ((n.regionBytes x * unitsPerOne : Nat) : Int) ≤ c.sdramBudget.signedUnits) :
    n.regionBytes x + n.tableBytes x ≤ c.nodeMemory.size := by
  unfold LeavesTable at h
  refine Nat.le_of_mul_le_mul_right ?_ unitsPerOne_pos
  rw [Nat.add_mul]
  omega

/-- What the partition accepts keeps within the budget of a node, which is no larger than the node.
So split vertices on nodes of their own never run short of memory when the budget leaves room for
their pointer tables; else they run short exactly when regions and table exceed a node. -/
theorem accepted_fits_node (hvalid : c.config.validate = .ok ())
    (hcompile : Yields (c.compile objects connections) p n q) (hown : n.FindsOwn) :
    (∀ x ∈ n.splitVertices,
      ((n.regionBytes x * unitsPerOne : Nat) : Int) ≤ c.sdramBudget.signedUnits)
    ∧ c.sdramBudget.signedUnits ≤ (c.nodeMemory.size * unitsPerOne : Nat)
    ∧ ∀ ps pool cores pool', ps.Pairwise Placement.Apart →
      Yields (c.renderPlacements n ps) pool cores pool' → ∀ register directory files,
        ((∀ a ∈ ps, c.LeavesTable n a.split) → ¬ c.RunsShort n ps register directory pool files)
        ∧ ((∀ a ∈ ps, n.regionBytes a.split + n.tableBytes a.split < wordRange) →
          (c.RunsShort n ps register directory pool files
            ↔ ∃ a ∈ ps, c.nodeMemory.size < n.regionBytes a.split + n.tableBytes a.split)) := by
  have hbudget : ∀ x ∈ n.splitVertices,
      ((n.regionBytes x * unitsPerOne : Nat) : Int) ≤ c.sdramBudget.signedUnits :=
    fun x hx => regionBytes_le_budget hvalid hcompile hown hx
  refine ⟨hbudget, sdramBudget_le hvalid, fun ps pool cores pool' happart hrender register
    directory files => ⟨fun hleaves => ?_, runsShort_iff_exists hvalid happart hrender⟩⟩
  refine not_runsShort hvalid happart hrender fun a ha => ?_
  obtain ⟨core, -, hcore⟩ := exists_right_of_forall₂ (rendered_of_renderFrom hrender) ha
  exact (hleaves a ha).fits (hbudget a.split hcore.mem)

end

end Compiler

theorem Network.findsOwn_of_ids {n : Network} (hnodup : (n.vertices.map (·.1)).Nodup)
    (hids : ∀ x ∈ n.vertices, x.2.id = x.1) : n.FindsOwn := by
  intro x hx
  rw [hids x hx]
  exact Groups.find?_of_mem hnodup hx

namespace SmallNode

def object (number : UInt32) : NetworkObject := ⟨⟨number⟩, "node", .node, 0, 0, none⟩

/-- A node of 1024 bytes. -/
def compiler (fraction : Binary64) (vertexOf : NetworkObject → RegionedVertex) : Compiler where
  config := { Config.standard with machine := { Config.Machine.standard with
    sdramPerNode := 1024
    usageFraction := fraction } }
  transforms := []
  assemblers := [(.node, fun o _ => pure (some (vertexOf o)))]
  constraints := []

/-- A matrix to be filled by the running application. -/
def space (shape : Shape) (axis : Option MatrixAxis) : Option Region :=
  some ⟨.matrix ⟨.reserved shape, axis, []⟩, true⟩

/-- A vertex of one atom and so many words. -/
def filling (words : Nat) (o : NetworkObject) : RegionedVertex :=
  .ofRegions o.id o.label 1 [space ⟨words, 1⟩ none]

/-- Two vertices with each other's numbers, one of two atoms and one with 600 bytes for an atom. -/
def crossed (o : NetworkObject) : RegionedVertex :=
  if o.id = ⟨0⟩ then .ofRegions ⟨1⟩ o.label 2 []
  else .ofRegions ⟨0⟩ o.label 1 [space ⟨2, 150⟩ (some .rows)]

def pair : Slice := ⟨0, 2, by decide⟩

/-- The only split vertex of a vertex of one atom. -/
def only : SplitVertex := ⟨⟨0⟩, Workload.onlySlice⟩

def alone (x : SplitVertex) : List Placement := [⟨0, 0, 1, x⟩]

theorem apart_alone (x : SplitVertex) : (alone x).Pairwise Placement.Apart :=
  List.pairwise_singleton _ _

/-- A compilation, and then one split vertex on a core. -/
def placed (c : Compiler) (results : List (ObjectId × List Slice)) (objects : ObjectTable)
    (x : SplitVertex) : Keying CompileError (Network × List PlacedCore) := do
  let n ← c.compileAs results objects []
  let cores ← c.renderPlacements n (alone x)
  pure (n, cores)

theorem exists_compile {c : Compiler} (results : List (ObjectId × List Slice))
    {objects : ObjectTable} {x : SplitVertex} {P : Network → Prop} [DecidablePred P]
    (h : (outcome (placed c results objects x) Pool.empty).1.toOption.any
      (fun y => decide (c.Foretells results y.1 ∧ P y.1)) = true) :
    ∃ n q cores q', Yields (c.compile objects []) Pool.empty n q
      ∧ Yields (c.renderPlacements n (alone x)) q cores q' ∧ P n := by
  obtain ⟨⟨n, cores⟩, q', hplaced, hresults, hP⟩ :
      ∃ y q, Yields (placed c results objects x) Pool.empty y q
        ∧ (c.Foretells results y.1 ∧ P y.1) := exists_yields_of_any h
  simp only [placed, yields_bind_iff, yields_pure_iff] at hplaced
  obtain ⟨_, q, hcompile, _, _, hcores, heq, rfl⟩ := hplaced
  cases heq
  exact ⟨n, q, cores, _, Compiler.yields_compile_of_compileAs hcompile hresults, hcores, hP⟩

/-- Every vertex has the number of its object, and the split vertex takes so many bytes. -/
def Takes (x : SplitVertex) (regionBytes tableBytes : Nat) (n : Network) : Prop :=
  (n.vertices.map (·.1)).Nodup ∧ (∀ v ∈ n.vertices, v.2.id = v.1)
    ∧ n.regionBytes x = regionBytes ∧ n.tableBytes x = tableBytes

instance (x : SplitVertex) (regionBytes tableBytes : Nat) :
    DecidablePred (Takes x regionBytes tableBytes) :=
  fun _ => inferInstanceAs (Decidable (_ ∧ _))

/-- A whole node is planned for, and the regions take all of it. -/
def tight : Compiler := compiler .one (filling 256)

/-- Nine tenths of a node are planned for. -/
def roomy : Compiler := compiler (.ofRatio false 9 10) (filling 230)

theorem exists_tight : ∃ n q cores q', Yields (tight.compile ⟨[object 0]⟩ []) Pool.empty n q
    ∧ Yields (tight.renderPlacements n (alone only)) q cores q' ∧ Takes only 1024 20 n :=
  exists_compile [(⟨0⟩, [Workload.onlySlice])] (by decide +kernel)

/-- Regions that just keep within the budget leave no room for a table on a node that is planned for
as a whole. Of vertices with each other's numbers, one is cut as the other one fits. -/
theorem not_accepted_fits_node :
    (∃ (c : Compiler) (objects : ObjectTable) (n : Network) (q q' : Pool) (cores : List PlacedCore),
      c.config.validate = .ok () ∧ Yields (c.compile objects []) Pool.empty n q ∧ n.FindsOwn
        ∧ Yields (c.renderPlacements n (alone only)) q cores q'
        ∧ c.RunsShort n (alone only) (fun _ _ p => p) "out" q .empty)
    ∧ ∃ (c : Compiler) (objects : ObjectTable) (n : Network) (q q' : Pool) (x : SplitVertex)
      (cores : List PlacedCore),
      c.config.validate = .ok () ∧ Yields (c.compile objects []) Pool.empty n q
        ∧ c.LeavesTable n x ∧ Yields (c.renderPlacements n (alone x)) q cores q'
        ∧ c.RunsShort n (alone x) (fun _ _ p => p) "out" q .empty := by
  constructor
  · have hvalid : tight.config.validate = .ok () := Config.validate_of_isEmpty (by decide +kernel)
    obtain ⟨n, q, cores, q', hcompile, hrender, hnodup, hids, hregions, htable⟩ := exists_tight
    refine ⟨tight, _, n, q, q', cores, hvalid, hcompile, Network.findsOwn_of_ids hnodup hids,
      hrender, ?_⟩
    rw [Compiler.runsShort_iff_exists hvalid (apart_alone only) hrender
      (List.forall_mem_singleton.mpr (by rw [hregions, htable]; decide))]
    exact ⟨_, List.mem_singleton.mpr rfl, by rw [hregions, htable]; decide⟩
  · let c := compiler (.ofRatio false 9 10) crossed
    let x : SplitVertex := ⟨⟨1⟩, pair⟩
    have hvalid : c.config.validate = .ok () := Config.validate_of_isEmpty (by decide +kernel)
    obtain ⟨n, q, cores, q', hcompile, hrender, hleaves, hregions, htable⟩ :
        ∃ n q cores q', Yields (c.compile ⟨[object 0, object 1]⟩ []) Pool.empty n q
          ∧ Yields (c.renderPlacements n (alone x)) q cores q'
          ∧ c.LeavesTable n x ∧ n.regionBytes x = 1200 ∧ n.tableBytes x = 20 :=
      exists_compile [(⟨1⟩, [pair]), (⟨0⟩, [Workload.onlySlice])] (by decide +kernel)
    refine ⟨c, _, n, q, q', x, cores, hvalid, hcompile, hleaves, hrender, ?_⟩
    rw [Compiler.runsShort_iff_exists hvalid (apart_alone x) hrender
      (List.forall_mem_singleton.mpr (by rw [hregions, htable]; decide))]
    exact ⟨_, List.mem_singleton.mpr rfl, by rw [hregions, htable]; decide⟩

/-- Nine tenths of a node leave room for a table, and a whole node does not. -/
theorem accepted_fits_node_filling :
    (∃ (n : Network) (q q' : Pool) (cores : List PlacedCore),
      roomy.config.validate = .ok () ∧ Yields (roomy.compile ⟨[object 0]⟩ []) Pool.empty n q
        ∧ n.FindsOwn ∧ Yields (roomy.renderPlacements n (alone only)) q cores q'
        ∧ roomy.LeavesTable n only
        ∧ ¬ roomy.RunsShort n (alone only) (fun _ _ p => p) "out" q .empty)
    ∧ ∃ (n : Network) (q q' : Pool) (cores : List PlacedCore),
      tight.config.validate = .ok () ∧ Yields (tight.compile ⟨[object 0]⟩ []) Pool.empty n q
        ∧ n.FindsOwn ∧ Yields (tight.renderPlacements n (alone only)) q cores q'
        ∧ n.regionBytes only + n.tableBytes only < wordRange
        ∧ tight.RunsShort n (alone only) (fun _ _ p => p) "out" q .empty := by
  constructor
  · have hvalid : roomy.config.validate = .ok () := Config.validate_of_isEmpty (by decide +kernel)
    obtain ⟨n, q, cores, q', hcompile, hrender, hleaves, hnodup, hids, -, -⟩ :
        ∃ n q cores q', Yields (roomy.compile ⟨[object 0]⟩ []) Pool.empty n q
          ∧ Yields (roomy.renderPlacements n (alone only)) q cores q'
          ∧ roomy.LeavesTable n only ∧ Takes only 920 20 n :=
      exists_compile [(⟨0⟩, [Workload.onlySlice])] (by decide +kernel)
    have hown := Network.findsOwn_of_ids hnodup hids
    obtain ⟨-, -, hplaced⟩ := Compiler.accepted_fits_node hvalid hcompile hown
    refine ⟨n, q, q', cores, hvalid, hcompile, hown, hrender, hleaves, ?_⟩
    exact (hplaced _ _ _ _ (apart_alone only) hrender _ _ _).1
      (List.forall_mem_singleton.mpr hleaves)
  · have hvalid : tight.config.validate = .ok () := Config.validate_of_isEmpty (by decide +kernel)
    obtain ⟨n, q, cores, q', hcompile, hrender, hnodup, hids, hregions, htable⟩ := exists_tight
    have hown := Network.findsOwn_of_ids hnodup hids
    have hcountable : n.regionBytes only + n.tableBytes only < wordRange := by
      rw [hregions, htable]
      decide
    obtain ⟨-, -, hplaced⟩ := Compiler.accepted_fits_node hvalid hcompile hown
    refine ⟨n, q, q', cores, hvalid, hcompile, hown, hrender, hcountable, ?_⟩
    have hiff := (hplaced _ _ _ _ (apart_alone only) hrender (fun _ _ p => p) "out" .empty).2
      (List.forall_mem_singleton.mpr hcountable)
    exact hiff.mpr ⟨_, List.mem_singleton.mpr rfl, by rw [hregions, htable]; decide⟩

end SmallNode

end Manycore
