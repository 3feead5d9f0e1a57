import Manycore.Proofs.Keyspace.Run
import Manycore.Proofs.Keyspace.Streams

/-! # Routes of streams

A receiver knows a stream by the key and the mask of two of the fields, which it is given when the
network is compiled. Whenever the keys of streams are rendered afterwards, the mask turns each into
the key that the receiver has for the stream, and into no other.
-/

namespace Manycore.Keyspace

open Keying

variable {w sb db : Nat} {most : String → Nat} {l : Layout}

/-- A rendering that succeeds places the open fields, for the largest values bound to them. -/
theorem placed_of_render_openStreams (hbounds : StreamBounds w sb db) {b : Bindings}
    {output : Output} {selector : Selector} {v : Nat}
    (hok : ((openStreams w sb db most).render b output selector).1 = .ok v) :
    StreamsPlaced w sb db (bitLength (most connectionField)) (bitLength (most objectField))
      ((openStreams w sb db most).render b output selector).2 := by
  by_cases hassigns : ∃ selected, (openStreams w sb db most).Assigns b output selector selected
  · obtain ⟨selected, hassigns⟩ := hassigns
    rcases render_openStreams hbounds hassigns with ⟨hroom, _, hrender⟩ | ⟨-, cause, hrender⟩
    · rw [hrender]
      exact ⟨⟨most, .refl _⟩, hbounds.width, hroom⟩
    · rw [hrender] at hok
      cases hok
  · obtain ⟨e, -, hrender⟩ := Layout.render_eq_of_not_assigns (not_exists.mp hassigns)
    rw [hrender] at hok
    cases hok

/-- The layout of streams, placed or not, with room for all values up to some. -/
inductive Streaming (w sb db : Nat) (most : String → Nat) (l : Layout) : Prop where
  | opened {more} : StreamBounds w sb db → l = openStreams w sb db more →
    (∀ name, most name ≤ more name) → Streaming w sb db most l
  | placed {ib ob} : StreamsPlaced w sb db ib ob l → most connectionField < twoTo ib →
    most objectField < twoTo ob → Streaming w sb db most l

namespace Streaming

theorem render (h : Streaming w sb db most l) {b : Bindings} {output : Output}
    {selector : Selector} {v : Nat} (hok : (l.render b output selector).1 = .ok v) :
    ∃ ib ob, StreamsPlaced w sb db ib ob (l.render b output selector).2
      ∧ most connectionField < twoTo ib ∧ most objectField < twoTo ob := by
  cases h with
  | placed hplaced hconnection hobject =>
      exact ⟨_, _, hplaced.of_growsTo (Layout.render_rendering _ _ _ _).growsTo, hconnection,
        hobject⟩
  | @opened more hbounds hl hmost =>
      subst hl
      exact ⟨_, _, placed_of_render_openStreams hbounds hok, lt_twoTo_bitLength (hmost _),
        lt_twoTo_bitLength (hmost _)⟩

theorem bind (h : Streaming w sb db most l) (b : Bindings) (pairs : List (String × Nat)) :
    Streaming w sb db most (l.after b (.bind pairs)) := by
  have hstep := Layout.after_step l b (.bind pairs)
  generalize l.after b (.bind pairs) = l' at hstep ⊢
  generalize l.derived b (.bind pairs) = derived at hstep
  cases h with
  | placed hplaced hconnection hobject =>
      exact .placed (hplaced.of_growsTo hstep.growsTo) hconnection hobject
  | opened hbounds hl hmost =>
      subst hl
      cases hstep with
      | kept => exact .opened hbounds rfl hmost
      | bound =>
          refine .opened hbounds (noteValues_streams _ _ _ _ _) fun name => ?_
          exact Nat.le_trans (hmost name) (Nat.le_max_left _ _)

end Streaming

theorem exists_of_granted_render {p : Pool} {k : Keyspace} {output : Output} {selector : Selector}
    (h : Pool.granted p k (.render output selector)) :
    ∃ v, ((p.layoutOf k).render k.bindings output selector).1 = .ok v := by
  obtain ⟨-, u, hok⟩ := h
  simp only [perform, outcome_bind, renders, outcome_onLayout] at hok
  cases hrender : ((p.layoutOf k).render k.bindings output selector).1 with
  | ok v => exact ⟨v, rfl⟩
  | error e =>
      rw [hrender] at hok
      cases hok

section

variable {p q : Pool} {k : Keyspace}

theorem Streaming.run (h : Streaming w sb db most (p.layoutOf k)) (hk : k.In p)
    (hrun : Pool.Run Pool.granted p q) : Streaming w sb db most (q.layoutOf k) := by
  refine hrun.layoutOf (Streaming w sb db most) hk h fun q k' request hrule hsame ih => ?_
  have hlayout : q.layoutOf k' = q.layoutOf k := by simp only [Pool.layoutOf, hsame]
  cases request with
  | add spec => exact absurd rfl (hrule.1 spec)
  | bind pairs => exact ih.bind _ pairs
  | get name => exact ih
  | render output selector =>
      obtain ⟨v, hok⟩ := exists_of_granted_render hrule
      rw [hlayout] at hok
      obtain ⟨ib, ob, hplaced, hconnection, hobject⟩ := ih.render hok
      exact .placed hplaced hconnection hobject

theorem Streaming.placed_of_shows {output : Output} {selector : Selector} {v : Nat}
    (h : Streaming w sb db most (p.layoutOf k)) (hshows : k.Shows p output selector v) :
    ∃ ib ob, StreamsPlaced w sb db ib ob (p.layoutOf k) ∧ most connectionField < twoTo ib
      ∧ most objectField < twoTo ob := by
  have hrender : (p.layoutOf k).render k.bindings output selector = (.ok v, p.layoutOf k) := hshows
  have hplaced := h.render (congrArg Prod.fst hrender)
  rwa [hrender] at hplaced

theorem exists_openStreams_run (h : ∃ most, p.layoutOf k = openStreams w sb db most) (hk : k.In p)
    (hrun : Pool.Run Pool.binding p q) : ∃ most, q.layoutOf k = openStreams w sb db most := by
  refine hrun.layoutOf (fun l => ∃ most, l = openStreams w sb db most) hk h
    fun q k' request hrule _ ih => ?_
  obtain ⟨-, pairs, rfl⟩ := hrule
  obtain ⟨most, hl⟩ := ih
  have hstep := Layout.after_step (q.layoutOf k) k'.bindings (.bind pairs)
  generalize (q.layoutOf k).after k'.bindings (.bind pairs) = l' at hstep ⊢
  generalize (q.layoutOf k).derived k'.bindings (.bind pairs) = derived at hstep
  cases hstep with
  | kept => exact ⟨most, hl⟩
  | bound =>
      rw [hl]
      exact ⟨_, noteValues_streams _ _ _ _ _⟩

end

/-- The named fields are bound to values that they have room for. -/
def Layout.HasRoom (l : Layout) (b : Bindings) (names : List String) : Prop :=
  ∀ name ∈ names, ∃ v, b.get? name = some v
    ∧ ∀ f length, l.find? name = some f → f.length = some length → v < twoTo length

namespace StreamsPlaced

variable {ib ob : Nat} {b b' : Bindings} {names : List String}

theorem readable_of_hasRoom (h : StreamsPlaced w sb db ib ob l)
    (hnames : ∀ name ∈ names, name ∈ streamNames) (hroom : l.HasRoom b names) :
    l.Readable b names := by
  refine (h.laidOut b).readable (h.width_eq ▸ h.width) fun name hname => ?_
  obtain ⟨v, hget, hlt⟩ := hroom name hname
  have henabled := hnames name hname
  rw [← h.enabled_names b] at henabled
  obtain ⟨x, hx, rfl⟩ := List.mem_map.mp henabled
  obtain ⟨hmem, henabled⟩ := List.mem_filter.mp hx
  have hnodup : (l.fields.map (·.1)).Nodup := by
    rw [h.names_eq]
    decide
  have hfind := Layout.find?_of_mem hnodup hmem
  obtain ⟨length, start, hlength, hstart, hinside⟩ := Layout.fits_iff.mp (h.fits x hmem)
  exact ⟨x.2, length, start, v,
    ⟨hfind, hlength, hstart, hinside, hget, hlt x.2 length hfind hlength⟩, henabled⟩

theorem missing_of_hasRoom (hroom : l.HasRoom b names) (output : Output) :
    output.missing b names = [] := by
  cases output with
  | mask => rfl
  | key =>
      refine List.filter_eq_nil_iff.mpr fun name hname => ?_
      obtain ⟨v, hget, -⟩ := hroom name hname
      simp [hget]

/-- Under the mask of a route, the key of a stream becomes the key of the route if both are of the
same stream of the same object. -/
theorem route_iff (h : StreamsPlaced w sb db ib ob l) {key mask word : Nat}
    (hkey : (l.render b .key (.tag filterRoutingTag)).1 = .ok key)
    (hmask : (l.render b .mask (.tag filterRoutingTag)).1 = .ok mask)
    (hword : (l.render b' .key .all).1 = .ok word) (hroom : l.HasRoom b filteredNames)
    (hroom' : l.HasRoom b' streamNames) :
    word &&& mask = key ↔ ∀ name ∈ filteredNames, b'.get? name = b.get? name := by
  rw [h.render_eq (h.select_filterRouting b) (missing_of_hasRoom hroom .key)] at hkey
  rw [h.render_eq (h.select_filterRouting b) rfl] at hmask
  rw [h.render_eq (h.select_all b') (missing_of_hasRoom hroom' .key)] at hword
  cases hkey
  cases hmask
  cases hword
  have hreadable := h.readable_of_hasRoom subset_filteredNames hroom
  have hreadable' := h.readable_of_hasRoom (fun _ => id) hroom'
  have hmasked : l.keyBits b' streamNames &&& l.maskBits filteredNames
      = l.keyBits b' filteredNames := hreadable'.keyBits_and_maskBits subset_filteredNames
  change l.keyBits b' streamNames &&& l.maskBits filteredNames = l.keyBits b filteredNames ↔ _
  rw [hmasked]
  exact (hreadable'.subset subset_filteredNames).keyBits_eq_iff hreadable

end StreamsPlaced

/-- The keyspace of the stream at a place of the object at a place. -/
def forStream (layout object connection : Nat) : Keyspace :=
  ⟨layout, [(connectionField, connection), (objectField, object)]⟩

/-- The keyspace of one of the values of a stream. -/
def forValue (layout object connection dimension : Nat) : Keyspace :=
  ⟨layout, [(dimensionField, dimension), (connectionField, connection), (objectField, object)]⟩

/-- The keyspace of one of the values as one of the sub-vertices sends it. -/
def filledValue (layout object connection dimension index : Nat) : Keyspace :=
  ⟨layout, [(dimensionField, dimension), (connectionField, connection), (objectField, object),
    (subvertexField, index)]⟩

section

variable {object connection dimension index : Nat}

variable {ib ob : Nat}

theorem StreamsPlaced.hasRoom_forStream (layout : Nat) (h : StreamsPlaced w sb db ib ob l)
    (hconnection : connection < twoTo ib) (hobject : object < twoTo ob) :
    l.HasRoom (forStream layout object connection).bindings filteredNames := by
  obtain ⟨-, -, ⟨f, hf, hlength, -⟩, g, hg, hlength', -⟩ := h.hasSpan
  simp only [Layout.HasRoom, filteredNames, List.forall_mem_cons]
  refine ⟨⟨connection, rfl, fun f' n hf' hn => ?_⟩, ⟨object, rfl, fun g' n hg' hn => ?_⟩,
    fun name hname => nomatch hname⟩
  · cases hf.symm.trans hf'
    cases hlength.symm.trans hn
    exact hconnection
  · cases hg.symm.trans hg'
    cases hlength'.symm.trans hn
    exact hobject

theorem StreamsPlaced.hasRoom_filledValue (layout : Nat) (h : StreamsPlaced w sb db ib ob l)
    (hconnection : connection < twoTo ib) (hobject : object < twoTo ob)
    (hdimension : dimension < twoTo db) (hindex : index < twoTo sb) :
    l.HasRoom (filledValue layout object connection dimension index).bindings streamNames := by
  obtain ⟨⟨fd, hd, hdlength, -⟩, ⟨fs, hs, hslength, -⟩, ⟨fi, hi, hilength, -⟩, fo, ho, holength,
    -⟩ := h.hasSpan
  have hspan : ∀ {name f length v}, l.find? name = some f → f.length = some length →
      v < twoTo length → ∀ f' n, l.find? name = some f' → f'.length = some n → v < twoTo n := by
    intro name f length v hf hlength hv f' n hf' hn
    cases hf.symm.trans hf'
    cases hlength.symm.trans hn
    exact hv
  simp only [Layout.HasRoom, streamNames, List.forall_mem_cons]
  exact ⟨⟨dimension, rfl, hspan hd hdlength hdimension⟩, ⟨index, rfl, hspan hs hslength hindex⟩,
    ⟨connection, rfl, hspan hi hilength hconnection⟩, ⟨object, rfl, hspan ho holength hobject⟩,
    fun name hname => nomatch hname⟩

end

theorem bind_forStream {layout object connection dimension : Nat} {p q : Pool} {k : Keyspace}
    (hin : (forStream layout object connection).In p)
    (h : Yields ((forStream layout object connection).bind [(dimensionField, dimension)]) p k q) :
    k = forValue layout object connection dimension := (bindsOne_of_yields hin h).keyspace

theorem bind_forValue {layout object connection dimension index : Nat} {p q : Pool} {k : Keyspace}
    (hin : (forValue layout object connection dimension).In p)
    (h : Yields ((forValue layout object connection dimension).bind [(subvertexField, index)])
      p k q) :
    k = filledValue layout object connection dimension index := (bindsOne_of_yields hin h).keyspace

theorem Streaming.low_lengths (h : Streaming w sb db most l) :
    (∀ f, l.find? dimensionField = some f → f.length = some db)
      ∧ ∀ f, l.find? subvertexField = some f → f.length = some sb := by
  cases h with
  | opened _ hl _ =>
      subst hl
      exact ⟨fun f hf => Option.some.inj hf ▸ rfl, fun f hf => Option.some.inj hf ▸ rfl⟩
  | placed hplaced _ _ =>
      obtain ⟨⟨fd, hd, hdlength, -⟩, ⟨fs, hs, hslength, -⟩, -⟩ := hplaced.hasSpan
      exact ⟨fun f hf => Option.some.inj (hd.symm.trans hf) ▸ hdlength,
        fun f hf => Option.some.inj (hs.symm.trans hf) ▸ hslength⟩

section

variable {p q r : Pool} {k k' : Keyspace} {v : Nat}

theorem lt_of_yields_bind {name : String} {length : Nat} (hk : k.In p)
    (hlength : ∀ f, (p.layoutOf k).find? name = some f → f.length = some length)
    (hbind : Yields (k.bind [(name, v)]) p k' q) : v < twoTo length := by
  obtain ⟨f, hf, hle⟩ := (bindsOne_of_yields hk hbind).room
  exact Nat.lt_of_le_of_lt (hle length (hlength f hf)) (ones_lt length)

/-- The layout is in the pool, and is one of streams. -/
structure StreamPool (w sb db : Nat) (most : String → Nat) (layout : Nat) (p : Pool) : Prop where
  inPool : (⟨layout, []⟩ : Keyspace).In p
  streaming : Streaming w sb db most (p.layoutOf ⟨layout, []⟩)

theorem StreamPool.run {layout : Nat} (h : StreamPool w sb db most layout p)
    (hrun : Pool.Run Pool.granted p q) : StreamPool w sb db most layout q :=
  ⟨h.inPool.run hrun, h.streaming.run h.inPool hrun⟩

/-- The place of an object and of a stream, within what the layout has room for. -/
structure StreamPlace (most : String → Nat) (object connection : Nat) : Prop where
  object_le : object ≤ most objectField
  connection_le : connection ≤ most connectionField

theorem masked_eq_iff {layout object connection object' connection' dimension index : Nat}
    {key mask word : Nat} (hpool : StreamPool w sb db most layout p)
    (hplace : StreamPlace most object connection) (hplace' : StreamPlace most object' connection')
    (hkey : (forStream layout object connection).Shows p .key (.tag filterRoutingTag) key)
    (hmask : (forStream layout object connection).Shows p .mask (.tag filterRoutingTag) mask)
    (hdimension : dimension < twoTo db) (hlater : Pool.Later p q) {filled : Keyspace} {q' : Pool}
    (hbind : Yields ((forValue layout object' connection' dimension).bind [(subvertexField, index)])
      q filled q')
    (hrender : Yields (filled.renderKey .all) q' word r) :
    word &&& mask = key ↔ object' = object ∧ connection' = connection := by
  have hin : (forStream layout object connection).In p := hpool.inPool
  have hstreaming : Streaming w sb db most (p.layoutOf (forStream layout object connection)) :=
    hpool.streaming
  -- The route could only be shown with all fields placed, so later keys have the same ranges.
  obtain ⟨ib, ob, hplaced, hconnection, hobject⟩ := hstreaming.placed_of_shows hkey
  rw [renderKey_eq] at hrender
  have hinq : (forValue layout object' connection' dimension).In q := hin.run hlater
  have hlayout : Streaming w sb db most
      (q.layoutOf (forValue layout object' connection' dimension)) :=
    .placed (hplaced.of_growsTo (hlater.growsTo hin)) hconnection hobject
  have hindex : index < twoTo sb := lt_of_yields_bind hinq hlayout.low_lengths.2 hbind
  obtain rfl := bind_forValue hinq hbind
  have hbound := runs_bindAll _ _ _ _ _ hbind
  have hinq' : (filledValue layout object' connection' dimension index).In q' := hinq.run hbound
  have hword := shows_of_yields hinq' hrender
  have hafter : Pool.Later p r :=
    (hlater.trans hbound.later).trans (runs_renders _ _ _ _ _ _ hrender).later
  have hfinal : StreamsPlaced w sb db ib ob (r.layoutOf (forStream layout object connection)) :=
    hplaced.of_growsTo (hafter.growsTo hin)
  have hroom := hfinal.hasRoom_forStream layout
    (Nat.lt_of_le_of_lt hplace.connection_le hconnection)
    (Nat.lt_of_le_of_lt hplace.object_le hobject)
  have hroom' := hfinal.hasRoom_filledValue layout
    (Nat.lt_of_le_of_lt hplace'.connection_le hconnection)
    (Nat.lt_of_le_of_lt hplace'.object_le hobject) hdimension hindex
  rw [hfinal.route_iff (congrArg Prod.fst (hkey.run hin hafter))
    (congrArg Prod.fst (hmask.run hin hafter)) (congrArg Prod.fst hword) hroom hroom']
  simp only [filteredNames, List.forall_mem_cons]
  constructor
  · rintro ⟨hsame, hsame', -⟩
    exact ⟨Option.some.inj hsame', Option.some.inj hsame⟩
  · rintro ⟨rfl, rfl⟩
    exact ⟨rfl, rfl, fun name hname => nomatch hname⟩

end

end Manycore.Keyspace
