import Manycore.Compiler.Assembly
import Manycore.Memory.PointerTable

/-! # Compiling networks

A compilation expands the connections, groups them into a tree, changes the tree as asked, gives
every stream a keyspace, assembles the vertices, partitions them, and splits the edges between them.
-/

namespace Manycore

/-- A change of the tree before keyspaces are given. -/
structure NetworkTransform where
  name : String
  apply : StreamTree → ObjectTable → Keying CompileError StreamTree

namespace NetworkTransform

def text (t : NetworkTransform) : String := s!"NetworkTransform({t.name})"

/-- Rename objects at the sending end, the receiving end, or both. -/
def replaceObjects (name : String) (rename : ObjectId → ObjectId)
    (originating terminating : Bool) : NetworkTransform where
  name
  apply t _ := pure (t.replaceObjects rename originating terminating)

end NetworkTransform

/-- A configuration, and what is added to it for a compilation. -/
structure Compiler where
  config : Config
  /-- In the order in which they run. -/
  transforms : List NetworkTransform
  /-- At most one for each kind. -/
  assemblers : Groups ObjectKind Assembler
  /-- In addition to the budgets of the machine. -/
  constraints : List Constraint

/-- What a compilation yields. -/
structure Network where
  tree : StreamTree
  vertices : Groups ObjectId RegionedVertex
  partitions : Partitions
  splits : SplitVertices
  edges : List (Edge × List SplitEdge)

namespace Network

def vertex? (n : Network) (id : ObjectId) : Option RegionedVertex :=
  Groups.find? (fun a b => decide (a = b)) id n.vertices

/-- The place of a split vertex among those of its vertex. -/
def index? (n : Network) (split : SplitVertex) : Option Nat :=
  (n.splits.ofVertex? split.vertex).bind fun splits => splits.findIdx? (· = split)

def splitVertices (n : Network) : List SplitVertex := n.splits.flatMap (·.2)

end Network

namespace Compiler

/-- A compiler without additions; the configuration is checked. -/
def ofConfig (config : Config) : Except ConfigError Compiler := do
  config.validate
  pure { config, transforms := [], assemblers := [], constraints := [] }

def withTransform (c : Compiler) (t : NetworkTransform) : Compiler :=
  { c with transforms := c.transforms ++ [t] }

/-- Register an assembler; an earlier one for the kind gives way. -/
def withAssembler (c : Compiler) (kind : ObjectKind) (a : Assembler) : Compiler :=
  { c with assemblers := Groups.update (fun a b => decide (a = b)) kind (fun _ => a) c.assemblers }

def withConstraint (c : Compiler) (constraint : Constraint) : Compiler :=
  { c with constraints := c.constraints ++ [constraint] }

/-- The format of words that name none. -/
def wordFormat (c : Compiler) : Except DataError WordFormat :=
  let fixed := c.config.fixed
  (FixedPoint.ofFields fixed.bits.toNat fixed.fraction fixed.signed).map .fixed

/-- The keyspace from which streams without one get theirs, on a layout of its own. -/
def defaultKeyspace (c : Compiler) : Keying Keyspace.KeyError Keyspace :=
  let keys := c.config.keys
  Keyspace.forStreams keys.width.toNat keys.subvertexBits.toNat keys.dimensionBits.toNat

def tableHeader (c : Compiler) : TableHeader :=
  ⟨c.config.application.magic, c.config.application.version⟩

/-- The budgets of the machine, then what was added. -/
def allConstraints (c : Compiler) : List Constraint :=
  let machine := c.config.machine
  [.usageLimit .cpu machine.cyclesPerTick.toNat machine.usageFraction,
    .usageLimit .dtcm machine.dtcmPerCore.toNat machine.usageFraction,
    .usageLimit .sdram machine.sdramPerNode.toNat machine.usageFraction] ++ c.constraints

/-- Expand a connection; one to a global inhibition inlet is collapsed to a single row. -/
def expand (objects : ObjectTable) (c : Connection) : Except ConnectionError Expansion := do
  let e ← Expansion.ofConnection c objects
  if e.inlet = .globalInhibition then e.toGlobalInhibition else pure e

/-- The vertex of an object, if it has one. -/
def assembleObject (c : Compiler) (context : AssemblyContext) (o : NetworkObject) :
    Keying CompileError (Option RegionedVertex) :=
  match Groups.find? (fun a b => decide (a = b)) o.kind c.assemblers with
  | some assemble => assemble o context
  | none => throw (.unsupportedKind o.kind o.label)

/-- The vertices of the objects that have one. -/
def assembleAll (c : Compiler) (context : AssemblyContext) (objects : ObjectTable) :
    Keying CompileError (Groups ObjectId RegionedVertex) := do
  let vertices ← objects.objects.mapM fun o => do
    let vertex ← c.assembleObject context o
    pure (vertex.map fun v => (o.id, v))
  pure (vertices.filterMap fun v => v)

/-- The tree of connections, changed as asked and keyed. -/
def buildTree (c : Compiler) (objects : ObjectTable) (connections : List Connection) :
    Keying CompileError StreamTree := do
  let expansions ← Keying.ofExcept ((connections.mapM (expand objects)).mapError .connection)
  let tree ← Keying.ofExcept ((StreamTree.ofExpansions expansions).mapError .connection)
  let tree ← c.transforms.foldlM (fun tree t => t.apply tree objects) tree
  let default ← c.defaultKeyspace.mapError .key
  (tree.applyKeyspace default).mapError .key

/-- The edges of a tree both of whose ends have a vertex. -/
def edgesBetween (vertices : Groups ObjectId RegionedVertex) (t : StreamTree) : List Edge :=
  let present (id : ObjectId) : Bool := vertices.any fun (v, _) => decide (v = id)
  t.edges.filter fun e => present e.pre && present e.post

/-- Compile a network. -/
def compile (c : Compiler) (objects : ObjectTable) (connections : List Connection) :
    Keying CompileError Network := do
  let tree ← c.buildTree objects connections
  let format ← Keying.ofExcept (c.wordFormat.mapError .data)
  let vertices ← c.assembleAll { tree, config := c.config, format } objects
  let partitions ← Keying.ofExcept
    ((partitionSearchable c.allConstraints (vertices.map (·.2.workload))).mapError .partition)
  let splits := partitions.splitVertices
  let edges ← Keying.ofExcept
    ((splits.splitEdges (edgesBetween vertices tree)).mapError .partition)
  pure { tree, vertices, partitions, splits, edges }

end Compiler

end Manycore
