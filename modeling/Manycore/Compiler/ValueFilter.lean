import Manycore.Compiler.Assembly

/-! # Value filters

Vertices that filter and transform values and compute nothing else. One takes a single core, with
five regions: the system words, one key for each transmitted value, the filters, the keys by which
arriving streams are told apart, and the transforms of all outgoing streams, one below the other.
-/

namespace Manycore

structure ValueFilter where
  /-- Steps between the transmissions of two streams. -/
  transmissionDelay : UInt32
  /-- Microseconds between two packets. -/
  interpacketPause : UInt32
  deriving DecidableEq

namespace ValueFilter

def standard : ValueFilter := ⟨1, 1⟩

/-- The transforms of streams one below the other. Streams with a function and transforms of
another width are refused. -/
def stack (label : String) (width : Nat) :
    List Stream → Except ConnectionError { m : Matrix // m.nCols = width }
  | [] => .ok ⟨.fill 0 width (.zero false), rfl⟩
  | s :: rest =>
    if s.source.function?.isSome then .error (.unsupported (.functionFromFilter label))
    else if h : s.transform.nCols = width then
      match stack label width rest with
      | .error e => .error e
      | .ok ⟨below, hbelow⟩ => .ok ⟨s.transform.above below (by omega), h⟩
    else .error (.invalid (.filterColumns label s.transform.nCols width))

/-- The streams that arrive at the standard input; another inlet is refused. -/
def standardInput (label : String) (incoming : Incoming) :
    Except ConnectionError (Groups Filter (List (Option Keyspace))) :=
  match List.find? (fun (inlet, _) => inlet ≠ .standardInput) incoming with
  | some (inlet, _) => .error (.unsupported (.inletOfFilter label inlet))
  | none => .ok ((Groups.find? (fun a b => decide (a = b)) .standardInput incoming).getD [])

/-- How much of a value a filter keeps in one step. -/
def decay (timestep tau : Binary64) : Binary64 :=
  if (Binary64.zero false).lt tau then (timestep.neg / tau).exp else .zero false

/-- The format of filter coefficients: that of the context if it is fixed-point. -/
def coefficientFormat : WordFormat → WordFormat
  | .fixed format => .fixed format
  | _ => .standard

/-- The four words of a filter. -/
def filterWords (format : WordFormat) (timestep : Binary64) (width : Nat) (f : Filter) :
    List UInt32 :=
  let kept := decay timestep f.tau
  [format.encode kept, format.encode (Binary64.one - kept),
    if f.accumulatory then 0xFFFFFFFF else 0, countWord width]

/-- The number of filters, then their words. -/
def filterTable (format : WordFormat) (timestep : Binary64) (width : Nat) (fs : List Filter) :
    List UInt32 :=
  countWord fs.length :: fs.flatMap (filterWords (coefficientFormat format) timestep width)

/-- How a receiver recognises a stream: by its key under a mask. -/
structure Route where
  key : Nat
  mask : Nat
  /-- The place of the stream's filter. -/
  filter : Nat
  deriving DecidableEq

/-- The route of a stream to a filter of an object. -/
def route (object : ObjectId) (filter : Nat) (keyspace : Option Keyspace) :
    Keying CompileError Route :=
  match keyspace with
  | none => throw (.unkeyed object)
  | some k => do
    let key ← (k.renderKey (.tag Keyspace.filterRoutingTag)).mapError .key
    let mask ← (k.renderMask (.tag Keyspace.filterRoutingTag)).mapError .key
    pure { key, mask, filter }

/-- The routes of all streams, filter by filter. -/
def routes (object : ObjectId) (streams : Groups Filter (List (Option Keyspace))) :
    Keying CompileError (List Route) := do
  let routes ← streams.zipIdx.mapM fun ((_, keyspaces), i) => keyspaces.mapM (route object i)
  pure routes.flatten

/-- A key or a mask as a word. -/
def routeWord (object : ObjectId) (value : Nat) : Except MemoryError UInt32 :=
  if value < wordRange then .ok (UInt32.ofNat value)
  else .error (.keyTooWide value s!"filter routing of {object.text}")

/-- The three words of a route. -/
def Route.words (object : ObjectId) (r : Route) : Except MemoryError (List UInt32) := do
  let key ← routeWord object r.key
  let mask ← routeWord object r.mask
  pure [key, mask, countWord r.filter]

/-- The number of routes, then their words. -/
def routeTable (object : ObjectId) (rs : List Route) : Except MemoryError (List UInt32) := do
  let words ← rs.mapM (Route.words object)
  pure (countWord rs.length :: words.flatten)

/-- A region of given words. -/
def wordRegion (words : List UInt32) : Option Region :=
  some ⟨.values (.ofWords words), false⟩

/-- The keys of all values, the slice filled in. -/
def keyRegion (keys : List Keyspace) : Option Region :=
  some ⟨.keys { KeyTable.ofKeys keys with fill := some Keyspace.subvertexField }, false⟩

/-- A matrix after its numbers of rows and columns. -/
def transformRegion (m : Matrix) (format : WordFormat) : Option Region :=
  some ⟨.matrix ⟨.filled m format, none, [.rows, .columns]⟩, false⟩

/-- The first words of a filter's core. -/
def systemWords (f : ValueFilter) (sizeIn keyCount : Nat) (timerPeriod : UInt32) : List UInt32 :=
  [countWord sizeIn, countWord keyCount, timerPeriod, f.transmissionDelay, f.interpacketPause]

/-- The vertex of a filter. -/
def assemble (f : ValueFilter) : Assembler := fun o c => do
  let streams := c.tree.streams o.id
  let keys ← keyspacesWithDimensions o.id streams
  if streams.isEmpty && !Shape.isHoldable ⟨0, o.sizeIn⟩ then throw (.data .tooLarge)
  let transform ← Keying.ofExcept ((stack o.label o.sizeIn streams).mapError .connection)
  let arriving ← Keying.ofExcept
    ((standardInput o.label (c.tree.incoming o.id)).mapError .connection)
  let routes ← routes o.id arriving
  let routeWords ← Keying.ofExcept ((routeTable o.id routes).mapError .memory)
  let filters := filterTable c.format c.timestep o.sizeIn (arriving.map (·.1))
  let system := f.systemWords o.sizeIn keys.length c.config.application.timerPeriod
  pure (some (.ofRegions o.id o.label 1
    [wordRegion system, keyRegion keys, wordRegion filters, wordRegion routeWords,
      transformRegion transform.val c.format]))

end ValueFilter

end Manycore
