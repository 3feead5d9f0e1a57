import Manycore.Proofs.Connection.Arrivals
import Manycore.Proofs.Keyspace.StreamRoutes
import Manycore.Proofs.Results

/-! # Assembled filters

What the vertex of a filter is made of when it has been assembled, and what that did to the pool.
-/

namespace Manycore

open List (Forall₂)
open Keying Keyspace
open ValueFilter (Route)

section

variable {p q : Pool} {layout w sb db : Nat} {most : String → Nat}

/-- The keyspace is that of some stream. -/
def IsStreamKey (layout : Nat) (keyspace : Option Keyspace) : Prop :=
  ∃ object place, keyspace = some (forStream layout object place)

/-- Keyspaces for all values of a stream. -/
def StreamValues (layout db : Nat) (s : Stream) (ks : List Keyspace) : Prop :=
  ∃ object place, s.keyspace = some (forStream layout object place)
    ∧ Forall₂ (fun d k => d < twoTo db ∧ k = forValue layout object place d) (List.range s.width) ks

theorem yields_keyspaces {origin : ObjectId} {s : Stream} {ks : List Keyspace}
    (hp : StreamPool w sb db most layout p) (hs : IsStreamKey layout s.keyspace)
    (h : Yields (s.keyspaces origin) p ks q) :
    Pool.Run Pool.granted p q ∧ StreamValues layout db s ks := by
  obtain ⟨object, place, hkey⟩ := hs
  simp only [Stream.keyspaces, hkey] at h
  have hstep : ∀ d ∈ List.range s.width, ∀ p k q, StreamPool w sb db most layout p →
      Yields (((forStream layout object place).bind [(dimensionField, d)]).mapError
        CompileError.key) p k q →
      Pool.Run Pool.granted p q ∧ d < twoTo db ∧ k = forValue layout object place d := by
    intro d _ p k q hp hbind
    rw [yields_mapError_iff] at hbind
    have hin : (forStream layout object place).In p := hp.inPool
    have hstreaming : Streaming w sb db most (p.layoutOf (forStream layout object place)) :=
      hp.streaming
    exact ⟨(runs_bindAll _ _ _ _ _ hbind).granted,
      lt_of_yields_bind hin hstreaming.low_lengths.1 hbind, bind_forStream hin hbind⟩
  obtain ⟨hrun, hks⟩ := yields_mapM_forall₂ (P := StreamPool w sb db most layout)
    (R := fun _ d k => d < twoTo db ∧ k = forValue layout object place d)
    (fun _ _ hp hrun => hp.run hrun) (fun _ _ _ _ _ _ h => h) hstep hp h
  exact ⟨hrun, object, place, hkey, hks⟩

theorem yields_keyspacesWithDimensions {origin : ObjectId} {ss : List Stream} {keys : List Keyspace}
    (hp : StreamPool w sb db most layout p) (hss : ∀ s ∈ ss, IsStreamKey layout s.keyspace)
    (h : Yields (keyspacesWithDimensions origin ss) p keys q) :
    Pool.Run Pool.granted p q
      ∧ ∃ kss, keys = kss.flatten ∧ Forall₂ (StreamValues layout db) ss kss := by
  simp only [keyspacesWithDimensions, yields_bind_iff, yields_pure_iff] at h
  obtain ⟨kss, _, hkss, rfl, rfl⟩ := h
  obtain ⟨hrun, hvalues⟩ := yields_mapM_forall₂ (P := StreamPool w sb db most layout)
    (R := fun _ => StreamValues layout db) (fun _ _ hp hrun => hp.run hrun)
    (fun _ _ _ _ _ _ h => h) (fun s hs p ks q hp h => yields_keyspaces hp (hss s hs) h) hp hkss
  exact ⟨hrun, kss, rfl, hvalues⟩

/-- The route shows what the keyspace of a stream shows. -/
def Routed (layout : Nat) (q : Pool) (keyspace : Option Keyspace) (r : Route) : Prop :=
  ∃ object place, keyspace = some (forStream layout object place)
    ∧ (forStream layout object place).Shows q .key (.tag filterRoutingTag) r.key
    ∧ (forStream layout object place).Shows q .mask (.tag filterRoutingTag) r.mask

theorem Routed.run {keyspace : Option Keyspace} {r : Route} {rule : Pool.Rule}
    (h : Routed layout p keyspace r) (hin : (⟨layout, []⟩ : Keyspace).In p)
    (hrun : Pool.Run rule p q) : Routed layout q keyspace r := by
  obtain ⟨object, place, hkey, hshows, hshows'⟩ := h
  exact ⟨object, place, hkey, hshows.run hin hrun, hshows'.run hin hrun⟩

theorem yields_route {object : ObjectId} {filter : Nat} {keyspace : Option Keyspace} {r : Route}
    (hp : StreamPool w sb db most layout p) (hkeyspace : IsStreamKey layout keyspace)
    (h : Yields (ValueFilter.route object filter keyspace) p r q) :
    Pool.Run Pool.granted p q ∧ Routed layout q keyspace r ∧ r.filter = filter := by
  obtain ⟨o, i, rfl⟩ := hkeyspace
  simp only [ValueFilter.route, renderKey_eq, renderMask_eq, yields_bind_iff, yields_mapError_iff,
    yields_pure_iff] at h
  obtain ⟨key, mid, hkey, mask, _, hmask, rfl, rfl⟩ := h
  have hin : (forStream layout o i).In p := hp.inPool
  have hrun := runs_renders _ _ _ _ _ _ hkey
  have hrun' := runs_renders _ _ _ _ _ _ hmask
  have hin' : (forStream layout o i).In mid := hin.run hrun
  exact ⟨hrun.trans hrun', ⟨o, i, rfl, (shows_of_yields hin hkey).run hin' hrun',
    shows_of_yields hin' hmask⟩, rfl⟩

/-- The routes are those of the streams under one filter. -/
def RoutedBy (layout : Nat) (q : Pool) (x : (Filter × List (Option Keyspace)) × Nat)
    (rs : List Route) : Prop :=
  Forall₂ (fun keyspace r => Routed layout q keyspace r ∧ r.filter = x.2) x.1.2 rs

theorem RoutedBy.run {x : (Filter × List (Option Keyspace)) × Nat} {rs : List Route}
    {rule : Pool.Rule} (h : RoutedBy layout p x rs) (hin : (⟨layout, []⟩ : Keyspace).In p)
    (hrun : Pool.Run rule p q) : RoutedBy layout q x rs :=
  h.imp fun _ _ hr => ⟨hr.1.run hin hrun, hr.2⟩

theorem yields_routes {object : ObjectId} {streams : Groups Filter (List (Option Keyspace))}
    {rs : List Route} (hp : StreamPool w sb db most layout p)
    (hstreams : ∀ x ∈ streams, ∀ keyspace ∈ x.2, IsStreamKey layout keyspace)
    (h : Yields (ValueFilter.routes object streams) p rs q) :
    Pool.Run Pool.granted p q
      ∧ ∃ rss, rs = rss.flatten ∧ Forall₂ (RoutedBy layout q) streams.zipIdx rss := by
  simp only [ValueFilter.routes, yields_bind_iff, yields_pure_iff] at h
  obtain ⟨rss, _, hrss, rfl, rfl⟩ := h
  have hstep : ∀ x ∈ streams.zipIdx, ∀ p rs q, StreamPool w sb db most layout p →
      Yields (x.1.2.mapM (ValueFilter.route object x.2)) p rs q →
      Pool.Run Pool.granted p q ∧ RoutedBy layout q x rs := by
    intro x hx p rs q hp h
    have hmem : x.1 ∈ streams := (List.mem_zipIdx' hx).2 ▸ List.getElem_mem _
    exact yields_mapM_forall₂ (P := StreamPool w sb db most layout)
      (R := fun q keyspace r => Routed layout q keyspace r ∧ r.filter = x.2)
      (fun _ _ hp hrun => hp.run hrun)
      (fun _ _ _ _ hp hrun hr => ⟨hr.1.run hp.inPool hrun, hr.2⟩)
      (fun keyspace hkeyspace p r q hp h => yields_route hp (hstreams x.1 hmem keyspace hkeyspace) h)
      hp h
  obtain ⟨hrun, hroutes⟩ := yields_mapM_forall₂ (P := StreamPool w sb db most layout)
    (fun _ _ hp hrun => hp.run hrun) (fun _ _ _ _ hp hrun h => h.run hp.inPool hrun) hstep hp hrss
  exact ⟨hrun, rss, rfl, hroutes⟩

/-- All streams of the tree have keyspaces on one layout. -/
def StreamTree.KeyedBy (layout : Nat) (t : StreamTree) : Prop :=
  ∀ x ∈ t.origins, ∀ y ∈ x.2, IsStreamKey layout y.1.keyspace

theorem StreamTree.KeyedBy.streams {t : StreamTree} (h : t.KeyedBy layout) {id : ObjectId}
    {s : Stream} (hs : s ∈ t.streams id) : IsStreamKey layout s.keyspace := by
  obtain ⟨x, hx, y, hy, rfl⟩ := exists_of_mem_streams hs
  exact h x hx y hy

theorem StreamTree.KeyedBy.arrivals {t : StreamTree} (h : t.KeyedBy layout) {id : ObjectId}
    {x : Stream × Receiver} (hx : x ∈ t.arrivals id) : IsStreamKey layout x.1.keyspace := by
  rw [arrivals_eq] at hx
  obtain ⟨leaf, hleaf, rfl⟩ := List.mem_map.mp hx
  obtain ⟨out, rs, horigin, hstream, -⟩ := mem_placedLeaves.mp (List.mem_filter.mp hleaf).1
  exact h _ horigin _ (List.mem_of_getElem? hstream)

/-- The vertex of a filter, made from its keyspaces, its filters and its routes. -/
inductive FilterVertex (layout db : Nat) (f : ValueFilter) (o : NetworkObject)
    (c : AssemblyContext) (q : Pool) : RegionedVertex → Prop where
  | regions {kss arriving rss words transform} :
    Forall₂ (StreamValues layout db) (c.tree.streams o.id) kss →
    ValueFilter.standardInput o.label (c.tree.incoming o.id) = .ok arriving →
    Forall₂ (RoutedBy layout q) arriving.zipIdx rss →
    ValueFilter.routeTable o.id rss.flatten = .ok words →
    FilterVertex layout db f o c q (.ofRegions o.id o.label 1
      [ValueFilter.wordRegion (f.systemWords o.sizeIn kss.flatten.length
          c.config.application.timerPeriod),
        ValueFilter.keyRegion kss.flatten,
        ValueFilter.wordRegion (ValueFilter.filterTable c.format c.timestep o.sizeIn
          (arriving.map (·.1))),
        ValueFilter.wordRegion words, ValueFilter.transformRegion transform c.format])

theorem FilterVertex.run {f : ValueFilter} {o : NetworkObject} {c : AssemblyContext}
    {v : RegionedVertex} {rule : Pool.Rule} (h : FilterVertex layout db f o c p v)
    (hin : (⟨layout, []⟩ : Keyspace).In p) (hrun : Pool.Run rule p q) :
    FilterVertex layout db f o c q v := by
  cases h with
  | regions hkeys harriving hroutes hwords =>
      exact .regions hkeys harriving (hroutes.imp fun _ _ h => h.run hin hrun) hwords

theorem ValueFilter.exists_of_yields_assemble {f : ValueFilter} {o : NetworkObject}
    {c : AssemblyContext} {vertex : Option RegionedVertex} (h : Yields (f.assemble o c) p vertex q) :
    ∃ keys mid transform arriving taken words,
      Yields (keyspacesWithDimensions o.id (c.tree.streams o.id)) p keys mid
        ∧ stack o.label o.sizeIn (c.tree.streams o.id) = .ok transform
        ∧ standardInput o.label (c.tree.incoming o.id) = .ok arriving
        ∧ Yields (routes o.id arriving) mid taken q ∧ routeTable o.id taken = .ok words
        ∧ vertex = some (.ofRegions o.id o.label 1
          [wordRegion (f.systemWords o.sizeIn keys.length c.config.application.timerPeriod),
            keyRegion keys,
            wordRegion (filterTable c.format c.timestep o.sizeIn (arriving.map (·.1))),
            wordRegion words, transformRegion transform.val c.format]) := by
  simp only [assemble, yields_bind_iff] at h
  obtain ⟨keys, mid, hkeys, h⟩ := h
  split at h
  · exact absurd h not_yields_throw
  · simp only [yields_bind_iff, yields_ofExcept_iff, mapError_eq_ok_iff, yields_pure_iff] at h
    obtain ⟨transform, _, ⟨htransform, rfl⟩, arriving, _, ⟨harriving, rfl⟩, taken, _, htaken, words, _,
      ⟨hwords, rfl⟩, rfl, rfl⟩ := h
    exact ⟨keys, mid, transform, arriving, taken, words, hkeys, htransform, harriving, htaken, hwords,
      rfl⟩

theorem yields_assemble {f : ValueFilter} {o : NetworkObject} {c : AssemblyContext}
    {vertex : Option RegionedVertex} (hp : StreamPool w sb db most layout p)
    (hkeyed : c.tree.KeyedBy layout) (h : Yields (f.assemble o c) p vertex q) :
    Pool.Run Pool.granted p q ∧ ∃ v, vertex = some v ∧ FilterVertex layout db f o c q v := by
  obtain ⟨keys, mid, transform, arriving, taken, words, hkeys, -, harriving, htaken, hwords, rfl⟩ :=
    ValueFilter.exists_of_yields_assemble h
  obtain ⟨hrun, kss, rfl, hvalues⟩ :=
    yields_keyspacesWithDimensions hp (fun s hs => hkeyed.streams hs) hkeys
  have hstreams : ∀ x ∈ arriving, ∀ keyspace ∈ x.2, IsStreamKey layout keyspace := by
    intro x hx keyspace hkeyspace
    rw [ValueFilter.standardInput_eq harriving] at hx
    obtain ⟨y, hy, rfl⟩ := StreamTree.exists_of_mem_byFilter hx hkeyspace
    exact hkeyed.arrivals hy
  obtain ⟨hrun', rss, rfl, hroutes⟩ := yields_routes (hp.run hrun) hstreams htaken
  exact ⟨hrun.trans hrun', _, rfl, .regions hvalues harriving hroutes hwords⟩

end

end Manycore
