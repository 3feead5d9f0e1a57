import Manycore.Proofs.Compiler.KeyedVertices
import Manycore.Proofs.Keyspace.StreamRoom

/-! # Room for the keys of vertices

Once a tree has its keyspaces, the last places of its senders and streams are known, and with them
what the keys of a value need. A vertex that writes the keys of all values of its streams can be
rendered when each of them has that, and only then.
-/

namespace Manycore

open List (Forall₂)
open Keying Keyspace

namespace StreamTree

variable {t : StreamTree} {layout : Nat}

/-- The place of the last sender. -/
def lastSender (t : StreamTree) : Nat := t.origins.length - 1

/-- The last place that a stream has among those of its sender. -/
def lastStream (t : StreamTree) : Nat := (t.origins.map (·.2.length)).max?.getD 0 - 1

/-- The place of an object among the senders. -/
def senderPlace (t : StreamTree) (id : ObjectId) : Nat := t.originating.idxOf id

theorem HasPlace.le_last {object place : Nat} (h : t.HasPlace object place) :
    place ≤ t.lastStream ∧ object ≤ t.lastSender := by
  obtain ⟨x, hx, hplace⟩ := h
  obtain ⟨hobject, hget⟩ := List.getElem?_eq_some_iff.mp hx
  refine ⟨?_, Nat.le_sub_one_of_lt hobject⟩
  have hlength : x.2.length ∈ t.origins.map (·.2.length) :=
    List.mem_map_of_mem (List.mem_of_getElem? hx)
  rw [lastStream]
  cases hmax : (t.origins.map (·.2.length)).max? with
  | none =>
      rw [List.max?_eq_none_iff.mp hmax] at hlength
      cases hlength
  | some most =>
      have hle := (List.max?_eq_some_iff.mp hmax).2 _ hlength
      rw [Option.getD_some]
      omega

theorem lastStream_eq_zero_or (t : StreamTree) :
    t.lastStream = 0 ∨ ∃ object, t.HasPlace object t.lastStream := by
  rw [lastStream]
  cases hmax : (t.origins.map (·.2.length)).max? with
  | none => exact Or.inl rfl
  | some most =>
      obtain ⟨x, hx, rfl⟩ := List.mem_map.mp (List.max?_eq_some_iff.mp hmax).1
      obtain ⟨object, hobject⟩ := List.getElem?_of_mem hx
      rw [Option.getD_some]
      rcases Nat.eq_zero_or_pos (x.2.length - 1) with hzero | hpos
      · exact Or.inl hzero
      · exact Or.inr ⟨object, x, hobject, by omega⟩

theorem Unkeyed.lastSender_eq_zero_or (h : t.Unkeyed) :
    t.lastSender = 0 ∨ ∃ place, t.HasPlace t.lastSender place := by
  rw [lastSender]
  refine or_iff_not_imp_left.mpr fun hmany => ?_
  have hlt : t.origins.length - 1 < t.origins.length := by omega
  exact ⟨0, _, List.getElem?_eq_getElem hlt,
    List.length_pos_of_ne_nil (h.sending _ (List.getElem_mem hlt))⟩

theorem lengths_keyedOn (layout : Nat) (t : StreamTree) :
    (t.keyedOn layout).origins.map (·.2.length) = t.origins.map (·.2.length) := by
  conv_rhs => rw [← List.zipIdx_map_fst 0 t.origins, List.map_map]
  simp only [keyedOn, keyedStreams, List.map_map, Function.comp_def, List.length_map,
    List.length_zipIdx]

theorem originating_keyedOn (layout : Nat) (t : StreamTree) :
    (t.keyedOn layout).originating = t.originating := by
  conv_rhs => rw [originating, ← List.zipIdx_map_fst 0 t.origins, List.map_map]
  rw [originating, keyedOn, List.map_map]
  rfl

theorem lastStream_keyedOn (layout : Nat) (t : StreamTree) :
    (t.keyedOn layout).lastStream = t.lastStream := by
  rw [lastStream, lengths_keyedOn, lastStream]

theorem lastSender_keyedOn (layout : Nat) (t : StreamTree) :
    (t.keyedOn layout).lastSender = t.lastSender := by
  have hlength := congrArg List.length (lengths_keyedOn layout t)
  rw [List.length_map, List.length_map] at hlength
  rw [lastSender, hlength, lastSender]

theorem Sends.senderPlace_eq {place object : Nat} {origin : ObjectId} {keyspace : Option Keyspace}
    (h : t.Sends layout origin place object keyspace) (hsenders : (t.origins.map (·.1)).Nodup) :
    (t.keyedOn layout).senderPlace origin = object := by
  obtain ⟨out, hout, -, -⟩ := h
  obtain ⟨hlt, hget⟩ := List.getElem?_eq_some_iff.mp hout
  have hlt : object < t.originating.length := by rwa [originating, List.length_map]
  have hat : t.originating[object] = origin := by simp [originating, hget]
  rw [senderPlace, originating_keyedOn, ← hat]
  exact List.Nodup.idxOf_getElem hsenders _ _

end StreamTree

/-- Trees are keyed by requests that bind no place beyond the last. -/
theorem StreamTree.exists_pairs_of_placing {t : StreamTree} {p : Pool} {k : Keyspace}
    {request : Request} (h : placing t.HasPlace p k request) :
    ∃ pairs, request = .bind pairs ∧ ∀ x ∈ pairs,
      (x.1 = connectionField → x.2 ≤ t.lastStream) ∧ (x.1 = objectField → x.2 ≤ t.lastSender) := by
  obtain ⟨-, object, place, hplace, hrequest⟩ := h
  obtain ⟨hstream, hsender⟩ := hplace.le_last
  rcases hrequest with rfl | rfl
  · exact ⟨_, rfl, by simpa [connectionField, objectField] using hsender⟩
  · exact ⟨_, rfl, by simpa [connectionField, objectField] using hstream⟩

section

variable {w sb db layout : Nat} {t : StreamTree} {start q : Pool}

theorem TreeKeyed.openedUpTo (h : TreeKeyed w sb db layout t start q) :
    OpenedUpTo w sb db t.lastStream t.lastSender (q.layoutOf ⟨layout, []⟩) := by
  refine h.run.layoutOf (OpenedUpTo w sb db t.lastStream t.lastSender) h.inPool ?_
    fun q' k request hrule _ ih => ?_
  · exact ⟨_, h.opened, ⟨Nat.le_refl _, Nat.le_max_right _ _⟩, Nat.le_refl _, Nat.le_max_right _ _⟩
  · obtain ⟨pairs, rfl, hpairs⟩ := StreamTree.exists_pairs_of_placing hrule
    exact ih.bind hpairs

/-- When a tree has got its keyspaces, the layout knows the last places and none beyond them. -/
theorem TreeKeyed.allotted (h : TreeKeyed w sb db layout t start q) :
    AllottedPool w sb db t.lastStream t.lastSender layout q := by
  obtain ⟨most, hlayout, ⟨hconnection, hconnection'⟩, hobject, hobject'⟩ := h.openedUpTo
  refine ⟨h.inPool.run h.run, .opened h.bounds hlayout ?_ ?_⟩
  · rcases t.lastStream_eq_zero_or with hzero | ⟨object, hplace⟩
    · omega
    · have hle := ((h.noted object _ hplace).place hlayout).connection_le
      omega
  · rcases h.unkeyed.lastSender_eq_zero_or with hzero | ⟨place, hplace⟩
    · omega
    · have hle := ((h.noted _ place hplace).place hlayout).object_le
      omega

end

section

variable {w sb db connection object layout index : Nat} {p q : Pool} {keys : List Keyspace}
  {k : Keyspace} {s : Slice}

/-- The keyspace is of a value, at a place up to the last. -/
def IsValueKey (layout db connection : Nat) (k : Keyspace) : Prop :=
  ∃ sender place dimension, place ≤ connection ∧ dimension < twoTo db
    ∧ k = forValue layout sender place dimension

/-- The key of the keyspace has what it needs. -/
def ValueFits (w sb db connection object layout index : Nat) (k : Keyspace) : Prop :=
  ∃ sender place dimension, k = forValue layout sender place dimension
    ∧ KeyFits w sb db connection object sender place dimension index

theorem valueFits_iff {sender place dimension : Nat} :
    ValueFits w sb db connection object layout index (forValue layout sender place dimension)
      ↔ KeyFits w sb db connection object sender place dimension index := by
  constructor
  · rintro ⟨_, _, _, heq, hfits⟩
    cases heq
    exact hfits
  · exact fun hfits => ⟨sender, place, dimension, rfl, hfits⟩

theorem runs_record :
    Runs (Pool.within connection object) ((filledTable keys).record k index) := by
  intro p ws q h
  obtain ⟨filled, mid, word, hbind, hrender, -⟩ := yields_record_iff.mp h
  rw [renderKey_eq] at hrender
  exact (run_within_of_bind (by decide) (by decide) hbind).trans (run_within_of_renders hrender)

theorem exists_record_iff (hp : AllottedPool w sb db connection object layout p)
    (hk : IsValueKey layout db connection k) :
    (∃ ws q, Yields ((filledTable keys).record k index) p ws q)
      ↔ ValueFits w sb db connection object layout index k := by
  obtain ⟨sender, place, dimension, hplace, hdimension, rfl⟩ := hk
  rw [valueFits_iff, ← hp.exists_word_iff hplace hdimension]
  constructor
  · rintro ⟨ws, q, h⟩
    obtain ⟨filled, mid, word, hbind, hrender, -⟩ := yields_record_iff.mp h
    exact ⟨filled, mid, word, q, hbind, hrender⟩
  · rintro ⟨filled, mid, word, q, hbind, hrender⟩
    exact ⟨_, q, yields_record_iff.mpr ⟨filled, mid, word, hbind, hrender, rfl⟩⟩

theorem words_filledTable (keys : List Keyspace) (s : Slice) (index : Nat) :
    (filledTable keys).words s index = (do
      let records ← keys.mapM fun k => (filledTable keys).record k index
      pure records.flatten) := rfl

theorem runs_words : Runs (Pool.within connection object) ((filledTable keys).words s index) := by
  rw [words_filledTable]
  exact (runs_mapM fun k _ => runs_record).bind fun _ => runs_pure _

theorem exists_words_iff (hp : AllottedPool w sb db connection object layout p)
    (hkeys : ∀ k ∈ keys, IsValueKey layout db connection k) :
    (∃ words q, Yields ((filledTable keys).words s index) p words q)
      ↔ ∀ k ∈ keys, ValueFits w sb db connection object layout index k := by
  rw [words_filledTable, ← exists_yields_mapM_iff (fun _ _ hp hrun => hp.run hrun)
    (fun k _ => runs_record) (fun k hk p hp => exists_record_iff hp (hkeys k hk)) hp]
  simp only [yields_bind_iff, yields_pure_iff]
  constructor
  · rintro ⟨_, q, records, _, hrecords, -, -⟩
    exact ⟨records, _, hrecords⟩
  · rintro ⟨records, q, hrecords⟩
    exact ⟨_, q, records, q, hrecords, rfl, rfl⟩

/-- The table of the keys that a slot writes. -/
def slotTable? (slot : Option Region) : Option KeyTable :=
  slot.bind fun r => match r.content with
    | .keys table => some table
    | _ => none

/-- The tables of all keys that a vertex writes. -/
def RegionedVertex.keyTables (v : RegionedVertex) : List KeyTable := v.regions.filterMap slotTable?

theorem exists_of_slotTable? {slot : Option Region} {table : KeyTable}
    (h : slotTable? slot = some table) : ∃ shared, slot = some ⟨.keys table, shared⟩ := by
  obtain ⟨⟨content, shared⟩, rfl, htable⟩ := Option.bind_eq_some_iff.mp h
  cases content <;> cases htable
  exact ⟨shared, rfl⟩

theorem exists_renderSlot_eq {slot : Option Region} (h : slotTable? slot = none) :
    ∃ y, RegionedVertex.renderSlot slot s index = pure y := by
  cases slot with
  | none => exact ⟨none, rfl⟩
  | some r =>
      obtain ⟨content, shared⟩ := r
      cases content with
      | keys table => cases h
      | values table => exact ⟨_, rfl⟩
      | matrix table => exact ⟨_, rfl⟩
      | recording ticks => exact ⟨_, rfl⟩

theorem runs_renderSlot {slot : Option Region}
    (h : ∀ table, slotTable? slot = some table → ∃ keys, table = filledTable keys) :
    Runs (Pool.within connection object) (RegionedVertex.renderSlot slot s index) := by
  intro p y q hslot
  cases htable : slotTable? slot with
  | none =>
      obtain ⟨y', hpure⟩ := exists_renderSlot_eq htable
      rw [hpure] at hslot
      exact runs_pure y' p y q hslot
  | some table =>
      obtain ⟨shared, rfl⟩ := exists_of_slotTable? htable
      obtain ⟨keys, rfl⟩ := h table htable
      obtain ⟨words, -, hwords⟩ := yields_tableSlot_iff.mp hslot
      exact runs_words p words q hwords

theorem exists_renderSlot_iff {slot : Option Region}
    (hp : AllottedPool w sb db connection object layout p)
    (h : ∀ table, slotTable? slot = some table → ∃ keys, table = filledTable keys
      ∧ ∀ k ∈ keys, IsValueKey layout db connection k) :
    (∃ y q, Yields (RegionedVertex.renderSlot slot s index) p y q) ↔
      ∀ table, slotTable? slot = some table → ∀ k ∈ table.keys,
        ValueFits w sb db connection object layout index k := by
  cases htable : slotTable? slot with
  | none =>
      obtain ⟨y, hpure⟩ := exists_renderSlot_eq htable
      rw [hpure]
      exact ⟨fun _ _ hsome => (nomatch hsome), fun _ => ⟨y, p, yields_pure_iff.mpr ⟨rfl, rfl⟩⟩⟩
  | some table =>
      obtain ⟨shared, rfl⟩ := exists_of_slotTable? htable
      obtain ⟨keys, rfl, hkeys⟩ := h table htable
      constructor
      · rintro ⟨y, q, hslot⟩ _ ⟨⟩
        obtain ⟨words, -, hyields⟩ := yields_tableSlot_iff.mp hslot
        exact (exists_words_iff hp hkeys).mp ⟨words, q, hyields⟩
      · intro hfits
        obtain ⟨words, q, hyields⟩ := (exists_words_iff hp hkeys).mpr (hfits _ rfl)
        exact ⟨_, q, yields_tableSlot_iff.mpr ⟨words, rfl, hyields⟩⟩

variable {sender : Nat} {ss : List Stream} {kss : List (List Keyspace)} {v : RegionedVertex}

/-- The tables of a vertex are of the keys of all values of the streams. -/
def RegionedVertex.WritesValues (layout db : Nat) (ss : List Stream) (v : RegionedVertex) : Prop :=
  ∀ table ∈ v.keyTables, ∃ kss, table = filledTable kss.flatten
    ∧ Forall₂ (StreamValues layout db) ss kss

/-- The streams have the keyspaces of their places, which go up to the last. -/
def StreamsPlacedUpTo (layout connection sender : Nat) (ss : List Stream) : Prop :=
  ∀ place s, ss[place]? = some s →
    place ≤ connection ∧ s.keyspace = some (forStream layout sender place)

theorem StreamValues.forall_iff {s : Stream} {ks : List Keyspace} {place : Nat}
    {P : Keyspace → Prop} (h : StreamValues layout db s ks)
    (hkey : s.keyspace = some (forStream layout sender place)) :
    (∀ k ∈ ks, P k) ↔ ∀ dimension < s.width, P (forValue layout sender place dimension) := by
  obtain ⟨_, _, hkey', hks⟩ := h
  cases hkey.symm.trans hkey'
  constructor
  · intro hall dimension hdimension
    obtain ⟨k, hk, -, rfl⟩ := exists_right_of_forall₂ hks (List.mem_range.mpr hdimension)
    exact hall _ hk
  · intro hall k hk
    obtain ⟨dimension, hdimension, -, rfl⟩ := exists_left_of_forall₂ hks hk
    exact hall dimension (List.mem_range.mp hdimension)

theorem forall_values_iff {P : Keyspace → Prop} (hvalues : Forall₂ (StreamValues layout db) ss kss)
    (hplaces : StreamsPlacedUpTo layout connection sender ss) :
    (∀ k ∈ kss.flatten, P k) ↔ ∀ place s, ss[place]? = some s →
      ∀ dimension < s.width, P (forValue layout sender place dimension) := by
  constructor
  · intro hall place s hs
    obtain ⟨ks, hks, hvalue⟩ := forall₂_getElem? hvalues.flip hs
    refine (StreamValues.forall_iff hvalue (hplaces place s hs).2).mp fun k hk => hall k ?_
    exact List.mem_flatten.mpr ⟨ks, List.mem_of_getElem? hks, hk⟩
  · intro hall k hk
    obtain ⟨ks, hks, hk⟩ := List.mem_flatten.mp hk
    obtain ⟨place, hplace⟩ := List.getElem?_of_mem hks
    obtain ⟨s, hs, hvalue⟩ := forall₂_getElem? hvalues hplace
    exact (hvalue.forall_iff (hplaces place s hs).2).mpr (hall place s hs) k hk

theorem isValueKey_of_values (hvalues : Forall₂ (StreamValues layout db) ss kss)
    (hplaces : StreamsPlacedUpTo layout connection sender ss) :
    ∀ k ∈ kss.flatten, IsValueKey layout db connection k := by
  intro k hk
  obtain ⟨ks, hks, hk⟩ := List.mem_flatten.mp hk
  obtain ⟨place, hplace⟩ := List.getElem?_of_mem hks
  obtain ⟨s, hs, _, _, hkey, hvalue⟩ := forall₂_getElem? hvalues hplace
  obtain ⟨hle, hkey'⟩ := hplaces place s hs
  cases hkey.symm.trans hkey'
  obtain ⟨dimension, -, hdimension, rfl⟩ := exists_left_of_forall₂ hvalue hk
  exact ⟨sender, place, dimension, hle, hdimension, rfl⟩

namespace RegionedVertex

theorem mem_keyTables_iff {table : KeyTable} :
    table ∈ v.keyTables ↔ ∃ slot ∈ v.regions, slotTable? slot = some table := List.mem_filterMap

theorem WritesValues.runs_render (hv : v.WritesValues layout db ss) (s : Slice) (index : Nat) :
    Runs (Pool.within connection object) (v.render s index) := by
  refine runs_mapM fun slot hslot => runs_renderSlot fun table htable => ?_
  obtain ⟨kss, heq, -⟩ := hv table (mem_keyTables_iff.mpr ⟨slot, hslot, htable⟩)
  exact ⟨kss.flatten, heq⟩

/-- A vertex can be rendered when all keys that it writes have what they need, and only then. -/
theorem WritesValues.exists_render_iff (hv : v.WritesValues layout db ss)
    (hp : AllottedPool w sb db connection object layout p)
    (hplaces : StreamsPlacedUpTo layout connection sender ss) (s : Slice) (index : Nat) :
    (∃ slots q, Yields (v.render s index) p slots q) ↔ (v.keyTables ≠ [] →
      ∀ place st, ss[place]? = some st → ∀ dimension < st.width,
        KeyFits w sb db connection object sender place dimension index) := by
  have htables : ∀ slot ∈ v.regions, ∀ table, slotTable? slot = some table →
      ∃ keys, table = filledTable keys ∧ ∀ k ∈ keys, IsValueKey layout db connection k := by
    intro slot hslot table htable
    obtain ⟨kss, heq, hvalues⟩ := hv table (mem_keyTables_iff.mpr ⟨slot, hslot, htable⟩)
    exact ⟨kss.flatten, heq, isValueKey_of_values hvalues hplaces⟩
  have hruns : ∀ slot ∈ v.regions,
      Runs (Pool.within connection object) (renderSlot slot s index) :=
    fun slot hslot => runs_renderSlot fun table htable =>
      (htables slot hslot table htable).imp fun _ hkeys => hkeys.1
  have hfits : ∀ table ∈ v.keyTables, (∀ k ∈ table.keys,
      ValueFits w sb db connection object layout index k) ↔ ∀ place st, ss[place]? = some st →
        ∀ dimension < st.width, KeyFits w sb db connection object sender place dimension index := by
    intro table htable
    obtain ⟨kss, rfl, hvalues⟩ := hv table htable
    refine (forall_values_iff hvalues hplaces).trans ?_
    simp only [valueFits_iff]
  rw [render, exists_yields_mapM_iff (fun _ _ hp hrun => hp.run hrun) hruns
    (fun slot hslot p hp => exists_renderSlot_iff hp (htables slot hslot)) hp]
  constructor
  · intro hall hne
    obtain ⟨table, htable⟩ := List.exists_mem_of_ne_nil _ hne
    obtain ⟨slot, hslot, hsome⟩ := mem_keyTables_iff.mp htable
    exact (hfits table htable).mp (hall slot hslot table hsome)
  · intro hall slot hslot table hsome
    have htable := mem_keyTables_iff.mpr ⟨slot, hslot, hsome⟩
    exact (hfits table htable).mpr (hall (List.ne_nil_of_mem htable))

end RegionedVertex

end

end Manycore
