import Manycore.Proofs.Compiler.Network
import Manycore.Proofs.Connection.Acceptance
import Manycore.Proofs.Connection.Renaming
import Manycore.Proofs.Memory.Regions

/-! # Keys and rows of a filter

A filter has a key for each value that it transmits, and its transforms have a row for each. Keys are
counted by the widths of streams and rows by the matrices, and both go through the streams in one
order. As every stream of a tree of connections has as many values as rows, the two line up.
-/

namespace Manycore

open List (Forall₂)
open Keying

/-- The expansions of connections, also when they are collapsed. -/
inductive Expansion.Accepted : Expansion → Prop where
  | ofConnection {c : Connection} {objects : ObjectTable} {e : Expansion} :
    Expansion.ofConnection c objects = .ok e → Accepted e
  | collapse {e g : Expansion} : Accepted e → e.toGlobalInhibition = .ok g → Accepted g

theorem Expansion.Accepted.checked {e : Expansion} (h : e.Accepted) : e.Checked := by
  induction h with
  | ofConnection h => exact checked_of_ofConnection h
  | collapse _ h ih => exact (ih.collapse h).2

theorem Compiler.accepted_of_expand {c : Connection} {objects : ObjectTable} {e : Expansion}
    (h : expand objects c = .ok e) : e.Accepted := by
  obtain ⟨e', he', h⟩ := bind_eq_ok_iff.mp h
  split at h
  · exact .collapse (.ofConnection he') h
  · cases h
    exact .ofConnection he'

/-- The stream has a value for each row of its transform. -/
def Stream.Rowed (s : Stream) : Prop := s.width = s.transform.nRows

theorem Expansion.Checked.rowed {e : Expansion} {s : Stream} (he : e.Checked)
    (h : e.stream = .ok s) : s.Rowed := by
  rw [Expansion.stream] at h
  cases hsource : e.source with
  | error cause =>
      rw [hsource] at h
      cases h
  | ok source =>
      rw [hsource] at h
      cases h
      exact he.width

namespace StreamTree

variable {t tree : StreamTree} {default : Keyspace} {p q : Pool}

/-- The trees of connections, with objects renamed and keyspaces given any number of times. -/
inductive OfConnections : StreamTree → Prop where
  | ofExpansions {es : List Expansion} {t : StreamTree} :
    (∀ e ∈ es, e.Accepted) → ofExpansions es = .ok t → OfConnections t
  | replaceObjects {t : StreamTree} (rename : ObjectId → ObjectId) (originating terminating : Bool) :
    OfConnections t → OfConnections (t.replaceObjects rename originating terminating)
  | applyKeyspace {t tree : StreamTree} {default : Keyspace} {p q : Pool} :
    OfConnections t → Yields (t.applyKeyspace default) p tree q → OfConnections tree

/-- Every stream has a value for each row of its transform. -/
def Rowed (t : StreamTree) : Prop := ∀ x ∈ t.origins, ∀ y ∈ x.2, y.1.Rowed

theorem rowed_empty : empty.Rowed := fun _ hx => nomatch hx

theorem Rowed.insert (h : t.Rowed) (origin : ObjectId) {s : Stream} (hs : s.Rowed) (r : Receiver) :
    (t.insert origin s r).Rowed :=
  forall_streams_insert h origin (fun _ _ hrowed => hrowed) hs

theorem Rowed.insertAll (h : t.Rowed) (origin : ObjectId) {s : Stream} (hs : s.Rowed)
    (rs : List Receiver) : (t.insertAll origin s rs).Rowed := by
  refine List.foldlRecOn rs _ h ?_
  intro t ht r _
  exact ht.insert origin hs r

theorem Rowed.leaves (h : t.Rowed) {x : ObjectId × Stream × Receiver} (hx : x ∈ t.leaves) :
    x.2.1.Rowed := by
  obtain ⟨origin, horigin, y, hy, -, hstream, -⟩ := mem_leaves_iff.mp hx
  rw [← hstream]
  exact h origin horigin y hy

theorem Rowed.streams (h : t.Rowed) {id : ObjectId} {s : Stream} (hs : s ∈ t.streams id) :
    s.Rowed := by
  obtain ⟨x, hx, y, hy, rfl⟩ := exists_of_mem_streams hs
  exact h x hx y hy

theorem rowed_of_ofExpansions {es : List Expansion} (hes : ∀ e ∈ es, e.Accepted)
    (h : ofExpansions es = .ok t) : t.Rowed := by
  refine foldlM_ok_induct h rowed_empty fun e he t t' ht hstep => ?_
  simp only [bind_eq_ok_iff] at hstep
  obtain ⟨s, hs, r, -, hinsert⟩ := hstep
  cases hinsert
  exact ht.insert e.pre ((hes e he).checked.rowed hs) r

theorem Rowed.replaceObjects (h : t.Rowed) (rename : ObjectId → ObjectId)
    (originating terminating : Bool) : (t.replaceObjects rename originating terminating).Rowed := by
  refine List.foldlRecOn t.leaves _ rowed_empty ?_
  intro t' ht' x hx
  exact ht'.insert _ (h.leaves hx) _

theorem Rowed.applyKeyspace (h : t.Rowed) (hyields : Yields (t.applyKeyspace default) p tree q) :
    tree.Rowed := by
  rw [eq_foldl_of_yields_applyKeyspace hyields]
  refine List.foldlRecOn _ _ rowed_empty fun t' ht' x hx => ?_
  refine List.foldlRecOn _ _ ht' fun t' ht' y hy => ?_
  obtain ⟨⟨origin, out⟩, o⟩ := x
  obtain ⟨⟨s, rs⟩, i⟩ := y
  have hrowed : (keyedAt default o i s).Rowed :=
    h _ (List.fst_mem_of_mem_zipIdx hx) _ (List.fst_mem_of_mem_zipIdx hy)
  exact ht'.insertAll origin hrowed rs

theorem OfConnections.rowed (h : t.OfConnections) : t.Rowed := by
  induction h with
  | ofExpansions hes h => exact rowed_of_ofExpansions hes h
  | replaceObjects rename originating terminating _ ih =>
      exact ih.replaceObjects rename originating terminating
  | applyKeyspace _ hyields ih => exact ih.applyKeyspace hyields

end StreamTree

/-- The transformation renames objects. -/
def NetworkTransform.IsRenaming (t : NetworkTransform) : Prop :=
  ∃ name rename originating terminating, t = replaceObjects name rename originating terminating

theorem Compiler.ofConnections_of_buildTree {c : Compiler} {objects : ObjectTable}
    {connections : List Connection} {p q : Pool} {tree : StreamTree}
    (htransforms : ∀ x ∈ c.transforms, x.IsRenaming)
    (h : Yields (c.buildTree objects connections) p tree q) : tree.OfConnections := by
  obtain ⟨t, mid, default, mid', hchanged, -, happly⟩ := yields_buildTree_iff.mp h
  simp only [changedTree, yields_bind_iff, yields_ofExcept_iff, mapError_eq_ok_iff] at hchanged
  obtain ⟨es, _, ⟨hes, rfl⟩, t', _, ⟨ht', rfl⟩, hchanged⟩ := hchanged
  have haccepted : ∀ e ∈ es, e.Accepted := by
    intro e he
    obtain ⟨x, -, hexpand⟩ := exists_left_of_forall₂ (forall₂_of_mapM_ok hes) he
    exact accepted_of_expand hexpand
  refine .applyKeyspace (yields_foldlM_induct hchanged (.ofExpansions haccepted ht') ?_) happly
  intro x hx tree p tree' q htree hstep
  obtain ⟨name, rename, originating, terminating, rfl⟩ := htransforms x hx
  obtain ⟨rfl, -⟩ := yields_pure_iff.mp hstep
  exact .replaceObjects rename originating terminating htree

/-- The values of streams, stream by stream, each with its number in its stream. -/
def valuesOf (ss : List Stream) : List (Stream × Nat) :=
  ss.flatMap fun s => (List.range s.width).map fun d => (s, d)

theorem length_valuesOf (ss : List Stream) : (valuesOf ss).length = total (ss.map (·.width)) := by
  induction ss with
  | nil => rfl
  | cons s rest ih =>
      rw [valuesOf] at ih
      simp [valuesOf, ih]

/-- The key is that of the value: the keyspace of the stream with the number of the value. -/
def IsKeyOf (x : Stream × Nat) (key : Keyspace) : Prop :=
  ∃ k, x.1.keyspace = some k
    ∧ key = { k with bindings := k.bindings.insert Keyspace.dimensionField x.2 }

section

variable {origin : ObjectId} {s : Stream} {ss : List Stream} {keys : List Keyspace} {p q : Pool}

theorem isKeyOf_of_yields (h : Yields (s.keyspaces origin) p keys q) :
    Forall₂ IsKeyOf ((List.range s.width).map fun d => (s, d)) keys := by
  rw [List.forall₂_map_left_iff]
  cases hkeyspace : s.keyspace with
  | none =>
      simp only [Stream.keyspaces, hkeyspace] at h
      exact absurd h not_yields_throw
  | some k =>
      simp only [Stream.keyspaces, hkeyspace] at h
      refine (forall₂_of_yields_mapM h).imp fun d key hkey => ?_
      obtain ⟨p, q, hbind⟩ := hkey
      rw [yields_mapError_iff, Keyspace.yields_bindAll_iff] at hbind
      obtain ⟨b, l, hbind, rfl, -⟩ := hbind
      obtain ⟨rfl, -⟩ := Keyspace.Layout.bind_one hbind
      exact ⟨k, hkeyspace, rfl⟩

theorem forall₂_keys (h : Yields (keyspacesWithDimensions origin ss) p keys q) :
    Forall₂ IsKeyOf (valuesOf ss) keys := by
  simp only [keyspacesWithDimensions, yields_bind_iff, yields_pure_iff] at h
  obtain ⟨kss, _, hkss, rfl, -⟩ := h
  rw [valuesOf, List.flatMap_def]
  apply List.rel_flatten
  rw [List.forall₂_map_left_iff]
  refine (forall₂_of_yields_mapM hkss).imp fun s ks hks => ?_
  obtain ⟨p, q, hks⟩ := hks
  exact isKeyOf_of_yields hks

theorem forall₂_rows (hss : ∀ s ∈ ss, s.Rowed) :
    Forall₂ (fun x row => x.1.transform.rows[x.2]? = some row) (valuesOf ss)
      (ss.flatMap fun s => s.transform.rows) := by
  rw [valuesOf, List.flatMap_def, List.flatMap_def]
  apply List.rel_flatten
  rw [List.forall₂_map_left_iff, List.forall₂_map_right_iff, List.forall₂_same]
  intro s hs
  have hwidth : s.width = s.transform.rows.length := hss s hs
  refine List.forall₂_iff_get.mpr ⟨by simp [hwidth], fun i hi hi' => ?_⟩
  simp

end

/-- The region in the slot is rendered to these words for every slice. -/
def RegionedVertex.HasWords (v : RegionedVertex) (slot : Nat) (words : List UInt32) : Prop :=
  ∃ r, v.regions[slot]? = some (some r)
    ∧ ∀ s index p, Yields (r.render s index) p (.filled words) p

namespace ValueFilter

variable {f : ValueFilter} {o : NetworkObject} {c : AssemblyContext} {p q : Pool}
  {vertex : Option RegionedVertex} {label : String} {width : Nat} {ss : List Stream}

theorem rows_stack {m : { m : Matrix // m.nCols = width }} (h : stack label width ss = .ok m) :
    m.val.rows = ss.flatMap fun s => s.transform.rows := by
  induction ss generalizing m with
  | nil =>
      cases h
      rfl
  | cons s rest ih =>
      rw [stack] at h
      split at h
      · cases h
      · split at h
        · split at h
          · cases h
          · rename_i below hbelow hstack
            cases h
            rw [List.flatMap_cons, ← ih hstack]
            rfl
        · cases h

theorem hasWords_of_wordRegion {v : RegionedVertex} {slot : Nat} {words : List UInt32}
    (h : v.regions[slot]? = some (wordRegion words)) : v.HasWords slot words := by
  refine ⟨_, h, fun s index p => ?_⟩
  rw [Region.render, RegionContent.render, ValueTable.words_ofWords, yields_pure_iff]
  exact ⟨rfl, rfl⟩

/-- The words of a matrix after its numbers of rows and columns. -/
def transformWords (m : Matrix) (format : WordFormat) : List UInt32 :=
  countWord m.nRows :: countWord m.nCols :: m.entries.map format.encode

theorem hasWords_of_transformRegion {v : RegionedVertex} {slot : Nat} {m : Matrix}
    {format : WordFormat} (h : v.regions[slot]? = some (transformRegion m format)) :
    v.HasWords slot (transformWords m format) := by
  refine ⟨_, h, fun s index p => ?_⟩
  rw [Region.render, RegionContent.render, yields_pure_iff]
  exact ⟨rfl, rfl⟩

theorem take_drop_transformWords {m : Matrix} (format : WordFormat) {r : Nat} {row : List Binary64}
    (hrow : m.rows[r]? = some row) :
    ((transformWords m format).drop (2 + m.nCols * r)).take m.nCols = row.map format.encode := by
  rw [transformWords, Nat.add_comm, List.drop_succ_cons, List.drop_succ_cons, ← List.map_drop,
    ← List.map_take, Matrix.entries, take_drop_flatten m.row_length hrow]

/-- Three regions of a filter agree on the values that it transmits: the words of the system and of
the transforms count them, and at each place are the key and the row of one value. -/
structure LinedUp (ss : List Stream) (width : Nat) (format : WordFormat) (system : List UInt32)
    (keys : List Keyspace) (transforms : List UInt32) : Prop where
  system_count : system[1]? = some (countWord (total (ss.map (·.width))))
  length_keys : keys.length = total (ss.map (·.width))
  transform_count : transforms[0]? = some (countWord (total (ss.map (·.width))))
  rows : ∀ (r : Nat) key, keys[r]? = some key → ∃ s d row, (valuesOf ss)[r]? = some (s, d)
    ∧ IsKeyOf (s, d) key ∧ s.transform.rows[d]? = some row
    ∧ (transforms.drop (2 + width * r)).take width = row.map format.encode

theorem linedUp_of_rowed {keys : List Keyspace} {m : { m : Matrix // m.nCols = width }}
    {format : WordFormat} (f : ValueFilter) (hss : ∀ s ∈ ss, s.Rowed)
    (hkeys : Forall₂ IsKeyOf (valuesOf ss) keys) (hm : stack label width ss = .ok m)
    (sizeIn : Nat) (timerPeriod : UInt32) :
    LinedUp ss width format (f.systemWords sizeIn keys.length timerPeriod) keys
      (transformWords m.val format) := by
  have hrows := forall₂_rows hss
  rw [← rows_stack hm] at hrows
  have hcount : keys.length = total (ss.map (·.width)) := by
    rw [← hkeys.length_eq, length_valuesOf]
  have hnRows : m.val.nRows = total (ss.map (·.width)) := by
    rw [Matrix.nRows, ← hrows.length_eq, length_valuesOf]
  refine ⟨congrArg (some ∘ countWord) hcount, hcount, congrArg (some ∘ countWord) hnRows,
    fun r key hkey => ?_⟩
  obtain ⟨⟨s, d⟩, hvalue, hkeyOf⟩ := forall₂_getElem? hkeys hkey
  obtain ⟨row, hrow, hof⟩ := forall₂_getElem? hrows.flip hvalue
  refine ⟨s, d, row, hvalue, hkeyOf, hof, ?_⟩
  have hwords := take_drop_transformWords format hrow
  rwa [m.property] at hwords

/-- In the vertex of a filter the count in the system region, the number of keys and the count of the
transform region are all the number of values that the filter transmits, and at every place the key
and the row are those of one value. -/
theorem keys_line_up_with_rows (ht : c.tree.OfConnections)
    (h : Yields (f.assemble o c) p vertex q) :
    ∃ v system keys transforms, vertex = some v ∧ v.HasWords 0 system ∧ v.HasKeys 1 keys
      ∧ v.HasWords 4 transforms
      ∧ LinedUp (c.tree.streams o.id) o.sizeIn c.format system keys transforms := by
  obtain ⟨keys, mid, m, arriving, taken, words, hkeys, hm, -, -, -, rfl⟩ :=
    exists_of_yields_assemble h
  exact ⟨_, _, keys, _, rfl, hasWords_of_wordRegion rfl, ⟨_, rfl⟩,
    hasWords_of_transformRegion rfl,
    linedUp_of_rowed f (fun s hs => ht.rowed.streams hs) (forall₂_keys hkeys) hm o.sizeIn
      c.config.application.timerPeriod⟩

/-- A filter of two values that sends to one of three and to one of one. -/
def unevenObjects : ObjectTable :=
  ⟨[(0, 2), (1, 3), (2, 1)].map fun (id, size) => ⟨⟨id⟩, "filter", .filter, size, size, none⟩⟩

def unevenConnections : List Connection :=
  [{ Connection.between ⟨0⟩ ⟨1⟩ with transform := .dense (.fill 3 2 .one) },
    { Connection.between ⟨0⟩ ⟨2⟩ with transform := .dense (.fill 1 2 .one) }]

def unevenCompiler : Compiler :=
  ⟨.standard, [.replaceObjects "same" id true true], [(.filter, standard.assemble)], []⟩

theorem keys_line_up_with_rows_uneven :
    ∃ (c : AssemblyContext) (p : Pool) (v : RegionedVertex) (q : Pool), c.tree.OfConnections
      ∧ (c.tree.streams ⟨0⟩).map (·.width) = [3, 1]
      ∧ Yields (standard.assemble ⟨⟨0⟩, "filter", .filter, 2, 2, none⟩ c) p (some v) q
      ∧ ∃ system keys transforms, v.HasWords 0 system ∧ v.HasKeys 1 keys ∧ v.HasWords 4 transforms
        ∧ keys.length = 4 ∧ transforms[0]? = some 4
        ∧ LinedUp (c.tree.streams ⟨0⟩) 2 c.format system keys transforms := by
  let o : NetworkObject := ⟨⟨0⟩, "filter", .filter, 2, 2, none⟩
  have hassembled : ∃ (x : StreamTree × Option RegionedVertex) (q : Pool), Yields (do
      let tree ← unevenCompiler.buildTree unevenObjects unevenConnections
      let vertex ← standard.assemble o ⟨tree, unevenCompiler.config, .unsigned⟩
      pure (tree, vertex)) Pool.empty x q
      ∧ (x.1.streams ⟨0⟩).map (·.width) = [3, 1] ∧ x.2.isSome = true :=
    exists_yields_of_any (by decide +kernel)
  obtain ⟨⟨tree, vertex⟩, q, h, hwidths, hvertex⟩ := hassembled
  simp only [yields_bind_iff, yields_pure_iff] at h
  obtain ⟨_, mid, htree, _, _, hassemble, hx, rfl⟩ := h
  cases hx
  have hrenaming : ∀ x ∈ unevenCompiler.transforms, x.IsRenaming := by
    intro x hx
    exact ⟨"same", id, true, true, List.mem_singleton.mp hx⟩
  have ht : tree.OfConnections := Compiler.ofConnections_of_buildTree hrenaming htree
  obtain ⟨v, system, keys, transforms, rfl, hsystem, hkeys, htransforms, hlined⟩ :=
    keys_line_up_with_rows (c := ⟨tree, unevenCompiler.config, .unsigned⟩) ht hassemble
  have hlength := hlined.length_keys
  have hcount := hlined.transform_count
  rw [hwidths] at hlength hcount
  exact ⟨⟨tree, unevenCompiler.config, .unsigned⟩, mid, v, _, ht, hwidths, hassemble, system, keys,
    transforms, hsystem, hkeys, htransforms, hlength, hcount, hlined⟩

end ValueFilter

end Manycore
