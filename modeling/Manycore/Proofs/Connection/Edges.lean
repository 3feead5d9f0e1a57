import Manycore.Proofs.Connection.Grouping

/-! # Edges of keyed trees

Giving keyspaces neither drops nor makes an edge: every receiver keeps its sender and its object,
and gets the keyspace of the connection or else that of the places of sender and stream.
-/

namespace Manycore

open Keying Keyspace

/-- The edge to a receiver. -/
def Leaf.edge (x : Leaf) : Edge := ⟨x.origin, x.receiver.object, x.stream.keyspace⟩

/-- The keyspace that a stream has or is given at its places. -/
def keyspaceAt (layout object place : Nat) (s : Stream) : Option Keyspace :=
  some (s.keyspace.getD (forStream layout object place))

/-- The edge to a receiver once its stream has a keyspace. -/
def Leaf.keyedEdge (layout object : Nat) (x : Leaf) : Edge :=
  ⟨x.origin, x.receiver.object, keyspaceAt layout object x.place x.stream⟩

namespace StreamTree

variable {t tree : StreamTree} {origin : ObjectId} {s : Stream} {p q : Pool} {layout object : Nat}

theorem edges_eq (t : StreamTree) : t.edges = t.placedLeaves.map Leaf.edge := by
  rw [edges, ← map_placedLeaves, List.map_map]
  rfl

theorem edges_insert (t : StreamTree) (origin : ObjectId) (s : Stream) (r : Receiver) :
    (t.insert origin s r).edges.Perm (t.edges ++ [⟨origin, r.object, s.keyspace⟩]) := by
  obtain ⟨before, x, after, hold, hnew, rfl, rfl, hsame⟩ := gains_insert t origin s r
  rw [edges_eq, edges_eq, hnew, hold, List.map_append, List.map_cons, List.map_append, Leaf.edge,
    Stream.keyspace_eq_of_same hsame]
  rw [List.append_assoc]
  exact (List.perm_append_singleton _ _).symm.append_left _

theorem edges_insertAll (t : StreamTree) (origin : ObjectId) (s : Stream) (rs : List Receiver) :
    (t.insertAll origin s rs).edges.Perm
      (t.edges ++ rs.map fun r => ⟨origin, r.object, s.keyspace⟩) := by
  unfold insertAll
  induction rs generalizing t with
  | nil => simp
  | cons r rest ih =>
      rw [List.foldl_cons, List.map_cons]
      refine (ih (t.insert origin s r)).trans ?_
      simpa using (edges_insert t origin s r).append_right _

theorem yields_keyed_of_any {place : Nat} {s' : Stream} (hin : (⟨layout, []⟩ : Keyspace).In p)
    (h : Yields (keyed ⟨layout, []⟩ object place s) p s' q) :
    s'.keyspace = keyspaceAt layout object place s ∧ (⟨layout, []⟩ : Keyspace).In q := by
  unfold keyspaceAt
  cases hs : s.keyspace with
  | none =>
      obtain ⟨rfl, hrun, -⟩ := yields_keyed hin hs h
      exact ⟨rfl, hin.run hrun⟩
  | some k =>
      simp only [keyed, hs] at h
      obtain ⟨rfl, rfl⟩ := yields_pure_iff.mp h
      exact ⟨hs, hin⟩

theorem edges_of_keyOrigin {place : Nat} {out : Outgoing} (hin : (⟨layout, []⟩ : Keyspace).In p)
    (h : Yields ((out.zipIdx place).foldlM (fun tree ((s, rs), i) => do
      let s ← keyed ⟨layout, []⟩ object i s
      pure (tree.insertAll origin s rs)) t) p tree q) :
    tree.edges.Perm (t.edges ++ (leavesFrom origin place out).map (Leaf.keyedEdge layout object))
      ∧ (⟨layout, []⟩ : Keyspace).In q := by
  induction out generalizing t p place with
  | nil =>
      obtain ⟨rfl, rfl⟩ := yields_foldlM_nil_iff.mp h
      exact ⟨by simp [leavesFrom], hin⟩
  | cons x rest ih =>
      obtain ⟨s, rs⟩ := x
      rw [List.zipIdx_cons] at h
      obtain ⟨mid, _, hfirst, hrest⟩ := yields_foldlM_cons_iff.mp h
      simp only [yields_bind_iff, yields_pure_iff] at hfirst
      obtain ⟨s', _, hkeyed, rfl, rfl⟩ := hfirst
      obtain ⟨hkeyspace, hin'⟩ := yields_keyed_of_any hin hkeyed
      obtain ⟨hperm, hin''⟩ := ih hin' hrest
      refine ⟨hperm.trans ?_, hin''⟩
      have hall := (edges_insertAll t origin s' rs).append_right
        ((leavesFrom origin (place + 1) rest).map (Leaf.keyedEdge layout object))
      rw [hkeyspace] at hall
      simpa [leavesFrom_cons, Leaf.keyedEdge, Function.comp_def] using hall

theorem edges_of_keyOrigins {origins : Groups ObjectId Outgoing}
    (hin : (⟨layout, []⟩ : Keyspace).In p)
    (h : Yields ((origins.zipIdx object).foldlM (fun tree ((origin, out), o) =>
      out.zipIdx.foldlM (fun tree ((s, rs), i) => do
        let s ← keyed ⟨layout, []⟩ o i s
        pure (tree.insertAll origin s rs)) tree) t) p tree q) :
    tree.edges.Perm (t.edges ++ (origins.zipIdx object).flatMap fun x =>
      (leavesFrom x.1.1 0 x.1.2).map (Leaf.keyedEdge layout x.2)) := by
  induction origins generalizing t p object with
  | nil =>
      obtain ⟨rfl, rfl⟩ := yields_foldlM_nil_iff.mp h
      simp
  | cons x rest ih =>
      obtain ⟨origin, out⟩ := x
      rw [List.zipIdx_cons] at h
      obtain ⟨mid, _, hfirst, hrest⟩ := yields_foldlM_cons_iff.mp h
      obtain ⟨hperm, hin'⟩ := edges_of_keyOrigin hin hfirst
      refine (ih hin' hrest).trans ?_
      simpa [List.zipIdx_cons] using hperm.append_right _

/-- The place of a sender. -/
def placeOf (t : StreamTree) (origin : ObjectId) : Nat := t.originating.idxOf origin

theorem placeOf_eq (ht : t.Separate) {x : (ObjectId × Outgoing) × Nat}
    (hx : x ∈ t.origins.zipIdx) : t.placeOf x.1.1 = x.2 := by
  have hget := List.mem_zipIdx_iff_getElem?.mp hx
  have horigin : t.originating[x.2]? = some x.1.1 := by simp [originating, hget]
  obtain ⟨hlt, heq⟩ := List.getElem?_eq_some_iff.mp horigin
  rw [placeOf, ← heq]
  exact ht.senders.idxOf_getElem x.2 hlt

theorem origin_of_mem_leavesFrom {place : Nat} {out : Outgoing} {x : Leaf}
    (h : x ∈ leavesFrom origin place out) : x.origin = origin := by
  simp only [leavesFrom, List.mem_flatMap, List.mem_map] at h
  obtain ⟨_, -, r, -, rfl⟩ := h
  rfl

/-- The edges of a keyed tree are those to the receivers of the tree. -/
theorem edges_of_applyKeyspace (hin : (⟨layout, []⟩ : Keyspace).In p) (ht : t.Separate)
    (h : Yields (t.applyKeyspace ⟨layout, []⟩) p tree q) :
    tree.edges.Perm (t.placedLeaves.map fun x => x.keyedEdge layout (t.placeOf x.origin)) := by
  have hperm := edges_of_keyOrigins hin h
  have hleaves : t.placedLeaves = t.origins.zipIdx.flatMap fun x => leavesFrom x.1.1 0 x.1.2 := by
    rw [placedLeaves_eq]
    conv_lhs => rw [← List.zipIdx_map_fst 0 t.origins, List.flatMap_map]
  rw [hleaves, List.map_flatMap]
  refine hperm.trans (List.Perm.of_eq (List.flatMap_congr fun x hx => List.map_congr_left ?_))
  intro y hy
  rw [origin_of_mem_leavesFrom hy, placeOf_eq ht hx]

end StreamTree

end Manycore
