import Manycore.Compiler.Network
import Manycore.Memory.Manifest

/-! # Placed networks

Once every split vertex has a core, its regions are rendered, laid out in the memory of the nodes,
and written to files with the plan for the loader.
-/

namespace Manycore

/-- The core chosen for a split vertex. -/
structure Placement where
  x : UInt32
  y : UInt32
  p : UInt32
  split : SplitVertex
  deriving DecidableEq

/-- The file of the plan beside the files of the regions. -/
def manifestName : String := "load_manifest.json"

namespace Compiler

/-- Whether a placement uses a core or a split vertex that an earlier one has used. -/
def checkPlacement (earlier : List Placement) (p : Placement) : Except InvalidPlacement Unit :=
  if earlier.any fun e => e.x = p.x ∧ e.y = p.y ∧ e.p = p.p then .error (.usedCore p.x p.y p.p)
  else if earlier.any fun e => e.split = p.split then .error (.placedTwice p.split)
  else .ok ()

/-- Render the regions of a placed split vertex. -/
def renderPlacement (c : Compiler) (n : Network) (p : Placement) :
    Keying CompileError PlacedCore :=
  match n.vertex? p.split.vertex with
  | none => throw (.partition (.unknownVertex p.split.vertex))
  | some v =>
    match n.index? p.split with
    | none => throw (.placement (.notAPartition p.split))
    | some index => do
      let slots ← (v.render p.split.slice index).mapError .memory
      pure {
        x := p.x
        y := p.y
        p := p.p
        slots
        timerPeriod := c.config.application.timerPeriod }

/-- Check and render placements one after the other. -/
def renderFrom (c : Compiler) (n : Network) (earlier : List Placement) :
    List Placement → Keying CompileError (List PlacedCore)
  | [] => pure []
  | p :: rest => do
    Keying.ofExcept ((checkPlacement earlier p).mapError .placement)
    let core ← c.renderPlacement n p
    let cores ← c.renderFrom n (p :: earlier) rest
    pure (core :: cores)

def renderPlacements (c : Compiler) (n : Network) (ps : List Placement) :
    Keying CompileError (List PlacedCore) := c.renderFrom n [] ps

/-- The memory of every node. -/
def nodeMemory (c : Compiler) : NodeMemory where
  size := c.config.machine.sdramPerNode.toNat
  base := c.config.machine.sdramBase
  header := c.tableHeader

/-- Lay cores out and write their files, and the plan too if the configuration wants it. -/
def writeCores (c : Compiler) (cores : List PlacedCore) (register : RegisterMap)
    (directory : String) : Writing LoadPlan := do
  let plan ← c.nodeMemory.generate cores register directory
  if c.config.output.writeManifest then
    plan.saveManifest (joinPath directory manifestName)
  pure plan

/-- Generate a placed network into a directory. -/
def generate (c : Compiler) (n : Network) (ps : List Placement) (register : RegisterMap)
    (directory : String) : ExceptT CompileError (StateM (Pool × FileTree)) LoadPlan :=
  ExceptT.mk do
    let (pool, files) ← get
    let (cores, pool) := (c.renderPlacements n ps).run.run pool
    match cores with
    | .error e =>
      set (pool, files)
      pure (.error e)
    | .ok cores =>
      let (plan, files) := (c.writeCores cores register directory).run.run files
      set (pool, files)
      pure (plan.mapError .memory)

end Compiler

end Manycore
