import Manycore.Connection.StreamTree
import Manycore.Proofs.Groups
import Manycore.Proofs.Keyspace.Operations
import Manycore.Proofs.Keying

/-! # Filling trees with keyspaces

Keyspaces are given to a tree by inserting everything again, each stream under what it is with its
keyspace. When this makes no two streams of a sender the same, the tree that comes out is the one
that went in, with keyspaces where there were none.
-/

namespace Manycore

open Keying

theorem Source.same_refl (source : Source) : source.same source = true := by
  cases source with
  | plain function => exact decide_eq_true rfl
  | decoded points solver samples rule function =>
      simp only [same, Bool.and_eq_true, Matrix.same_iff.mpr rfl, Solver.same, decide_true,
        and_self]

theorem Stream.same_refl (s : Stream) : s.same s = true := by
  simp only [same, Bool.and_eq_true, Matrix.same_iff.mpr rfl, Source.same_refl, decide_true,
    and_self]

theorem Stream.same_of_keyspace_ne {s s' : Stream} (h : s.keyspace ≠ s'.keyspace) :
    s.same s' = false := by
  simp only [same, decide_eq_false h, Bool.and_false, Bool.false_and]

namespace StreamTree

theorem sameId_refl (id : ObjectId) : sameId id id = true := decide_eq_true rfl

section

variable {t : StreamTree}

theorem sending_insert (h : ∀ x ∈ t.origins, x.2 ≠ []) (origin : ObjectId) (s : Stream)
    (r : Receiver) : ∀ x ∈ (t.insert origin s r).origins, x.2 ≠ [] := by
  apply Groups.forall_mem_update h
  · intro _ _ _ _
    exact Groups.update_ne_nil _ _ _ _
  · exact Groups.update_ne_nil _ _ _ _

/-- What holds of all streams with their receivers holds after an insertion if one more receiver
does not matter. -/
theorem forall_streams_insert {P : Stream × List Receiver → Prop}
    (h : ∀ x ∈ t.origins, ∀ y ∈ x.2, P y) (origin : ObjectId) {s : Stream} {r : Receiver}
    (hmore : ∀ s' rs, P (s', rs) → P (s', rs ++ [r])) (hnew : P (s, [r])) :
    ∀ x ∈ (t.insert origin s r).origins, ∀ y ∈ x.2, P y := by
  have hpush : ∀ out : Outgoing, (∀ y ∈ out, P y) → ∀ y ∈ Groups.push Stream.same s r out, P y := by
    intro out hout
    apply Groups.forall_mem_update hout
    · intro s' rs hmem _
      exact hmore s' rs (hout _ hmem)
    · exact hnew
  apply Groups.forall_mem_update h
  · intro _ out hmem _
    exact hpush out (h _ hmem)
  · exact hpush [] (List.forall_mem_nil _)

end

/-- Every sender is there once, and no two of its streams are the same. -/
structure Separate (t : StreamTree) : Prop where
  senders : (t.origins.map (·.1)).Nodup
  streams : ∀ x ∈ t.origins, (x.2.map (·.1)).Pairwise fun a b => a.same b = false

theorem separate_empty : empty.Separate := ⟨List.nodup_nil, fun _ hx => nomatch hx⟩

theorem Separate.insert {t : StreamTree} (h : t.Separate) (origin : ObjectId) (s : Stream)
    (r : Receiver) : (t.insert origin s r).Separate := by
  refine ⟨Groups.nodup_keys_update sameId_refl h.senders, ?_⟩
  refine Groups.forall_mem_update h.streams (fun k out hmem _ => ?_) ?_
  · exact Groups.pairwise_keys_update (h.streams _ hmem)
  · exact Groups.pairwise_keys_update List.Pairwise.nil

/-- Moreover every sender has a stream, and every stream a receiver. -/
structure Grouped (t : StreamTree) : Prop extends t.Separate where
  sending : ∀ x ∈ t.origins, x.2 ≠ []
  received : ∀ x ∈ t.origins, ∀ y ∈ x.2, y.2 ≠ []

theorem grouped_empty : empty.Grouped :=
  ⟨separate_empty, fun _ hx => (nomatch hx), fun _ hx => nomatch hx⟩

theorem Grouped.insert {t : StreamTree} (h : t.Grouped) (origin : ObjectId) (s : Stream)
    (r : Receiver) : (t.insert origin s r).Grouped := by
  constructor
  · exact h.toSeparate.insert origin s r
  · exact sending_insert h.sending origin s r
  · exact forall_streams_insert h.received origin (fun _ _ _ => by simp) (by simp)

section

variable {done : Groups ObjectId Outgoing} {origin : ObjectId} {out : Outgoing} {s : Stream}

theorem insert_received (hdone : ∀ x ∈ done, sameId x.1 origin = false)
    (hout : ∀ y ∈ out, y.1.same s = false) (rs : List Receiver) (r : Receiver) :
    (StreamTree.mk (done ++ [(origin, out ++ [(s, rs)])])).insert origin s r
      = ⟨done ++ [(origin, out ++ [(s, rs ++ [r])])]⟩ := by
  rw [insert, Groups.update_last _ hdone (sameId_refl origin), Option.getD_some, Groups.push,
    Groups.update_last _ hout s.same_refl, Option.getD_some]

theorem insertAll_received (hdone : ∀ x ∈ done, sameId x.1 origin = false)
    (hout : ∀ y ∈ out, y.1.same s = false) (rs rs' : List Receiver) :
    (StreamTree.mk (done ++ [(origin, out ++ [(s, rs)])])).insertAll origin s rs'
      = ⟨done ++ [(origin, out ++ [(s, rs ++ rs')])]⟩ := by
  induction rs' generalizing rs with
  | nil => simp [insertAll]
  | cons r rest ih =>
      have hstep := ih (rs ++ [r])
      rw [insertAll] at hstep
      rw [insertAll, List.foldl_cons, insert_received hdone hout, hstep, List.append_assoc]
      rfl

/-- Once its first receiver has made a stream the last one, all its receivers go there. -/
theorem insertAll_of_first {t : StreamTree} (hdone : ∀ x ∈ done, sameId x.1 origin = false)
    (hout : ∀ y ∈ out, y.1.same s = false) {rs : List Receiver} (hrs : rs ≠ [])
    (hfirst : ∀ r, t.insert origin s r = ⟨done ++ [(origin, out ++ [(s, [r])])]⟩) :
    t.insertAll origin s rs = ⟨done ++ [(origin, out ++ [(s, rs)])]⟩ := by
  cases rs with
  | nil => exact absurd rfl hrs
  | cons r rest =>
      have hrest := insertAll_received hdone hout [r] rest
      rw [insertAll] at hrest
      rw [insertAll, List.foldl_cons, hfirst, hrest]
      rfl

theorem insertAll_of_last (hdone : ∀ x ∈ done, sameId x.1 origin = false)
    (hout : ∀ y ∈ out, y.1.same s = false) {rs : List Receiver} (hrs : rs ≠ []) :
    (StreamTree.mk (done ++ [(origin, out)])).insertAll origin s rs
      = ⟨done ++ [(origin, out ++ [(s, rs)])]⟩ := by
  apply insertAll_of_first hdone hout hrs
  intro r
  rw [insert, Groups.update_last _ hdone (sameId_refl origin), Option.getD_some, Groups.push,
    Groups.update_of_new _ hout]
  rfl

theorem insertAll_of_new (hdone : ∀ x ∈ done, sameId x.1 origin = false) {rs : List Receiver}
    (hrs : rs ≠ []) :
    (StreamTree.mk done).insertAll origin s rs = ⟨done ++ [(origin, [(s, rs)])]⟩ := by
  apply insertAll_of_first hdone (List.forall_mem_nil _) hrs
  intro r
  rw [insert, Groups.update_of_new _ hdone]
  rfl

end

section

variable {done rest : Groups ObjectId Outgoing} {origin : ObjectId} {out more : Outgoing}

/-- The streams of one sender, one after the other. -/
def insertOutgoing (t : StreamTree) (origin : ObjectId) (out : Outgoing) : StreamTree :=
  out.foldl (fun t y => t.insertAll origin y.1 y.2) t

theorem insertOutgoing_of_last (hdone : ∀ x ∈ done, sameId x.1 origin = false)
    (happart : ((out ++ more).map (·.1)).Pairwise fun a b => a.same b = false)
    (hreceived : ∀ y ∈ more, y.2 ≠ []) :
    (StreamTree.mk (done ++ [(origin, out)])).insertOutgoing origin more
      = ⟨done ++ [(origin, out ++ more)]⟩ := by
  unfold insertOutgoing
  induction more generalizing out with
  | nil => simp
  | cons y rest ih =>
      obtain ⟨hy, hrest⟩ := List.forall_mem_cons.mp hreceived
      have hnew : ∀ x ∈ out, x.1.same y.1 = false := by
        rw [List.map_append, List.pairwise_append] at happart
        intro x hx
        exact happart.2.2 x.1 (List.mem_map_of_mem hx) y.1 (by simp)
      have hmoved : out ++ [y] ++ rest = out ++ y :: rest := List.append_cons .. |>.symm
      rw [List.foldl_cons, insertAll_of_last hdone hnew hy, ← hmoved]
      exact ih (by rwa [hmoved]) hrest

theorem insertOutgoing_of_new (hdone : ∀ x ∈ done, sameId x.1 origin = false)
    (happart : (out.map (·.1)).Pairwise fun a b => a.same b = false) (hsending : out ≠ [])
    (hreceived : ∀ y ∈ out, y.2 ≠ []) :
    (StreamTree.mk done).insertOutgoing origin out = ⟨done ++ [(origin, out)]⟩ := by
  cases out with
  | nil => exact absurd rfl hsending
  | cons y rest =>
      obtain ⟨hy, hrest⟩ := List.forall_mem_cons.mp hreceived
      have hothers : (StreamTree.mk (done ++ [(origin, [y])])).insertOutgoing origin rest
          = ⟨done ++ [(origin, [y] ++ rest)]⟩ := insertOutgoing_of_last hdone happart hrest
      rw [insertOutgoing] at hothers
      rw [insertOutgoing, List.foldl_cons, insertAll_of_new hdone hy, hothers]
      rfl

theorem foldl_insertOutgoing (h : Grouped ⟨done ++ rest⟩) :
    rest.foldl (fun t x => insertOutgoing t x.1 x.2) ⟨done⟩ = ⟨done ++ rest⟩ := by
  induction rest generalizing done with
  | nil => simp
  | cons x rest ih =>
      have hx : x ∈ done ++ x :: rest := by simp
      have hnew : ∀ y ∈ done, sameId y.1 x.1 = false := by
        have hsenders := h.senders
        rw [List.map_append, List.nodup_append] at hsenders
        intro y hy
        exact decide_eq_false (hsenders.2.2 y.1 (List.mem_map_of_mem hy) x.1 (by simp))
      rw [List.foldl_cons,
        insertOutgoing_of_new hnew (h.streams x hx) (h.sending x hx) (h.received x hx)]
      have hmoved : done ++ [x] ++ rest = done ++ x :: rest := List.append_cons .. |>.symm
      rw [← hmoved] at h ⊢
      exact ih h

/-- A grouped tree is what it was when all of it is inserted again. -/
theorem Grouped.rebuild {t : StreamTree} (h : t.Grouped) :
    t.origins.foldl (fun t x => insertOutgoing t x.1 x.2) empty = t := by
  have hwhole : Grouped ⟨[] ++ t.origins⟩ := h
  exact foldl_insertOutgoing hwhole

end

end StreamTree

/-- The keyspace with the places of an object and of one of its streams. -/
def Keyspace.forPlaces (k : Keyspace) (object place : Nat) : Keyspace :=
  { k with bindings := (k.bindings.insert objectField object).insert connectionField place }

theorem Keyspace.place_of_forPlaces {k : Keyspace} {object object' place place' : Nat}
    (h : k.forPlaces object place = k.forPlaces object' place') : place = place' := by
  have hget := congrArg (fun k : Keyspace => k.bindings.get? connectionField) h
  simpa [forPlaces, Bindings.get?_insert] using hget

namespace StreamTree

variable {default : Keyspace} {object place : Nat} {s s' : Stream} {t tree : StreamTree} {p q : Pool}

/-- The stream with a keyspace, which is its own if it has one. -/
def keyedAt (default : Keyspace) (object place : Nat) (s : Stream) : Stream :=
  s.withKeyspace (s.keyspace.getD (default.forPlaces object place))

theorem keyedAt_of_some (h : s.keyspace.isSome = true) : keyedAt default object place s = s := by
  obtain ⟨k, hk⟩ := Option.isSome_iff_exists.mp h
  rw [keyedAt, hk, Option.getD_some, Stream.withKeyspace, ← hk]

theorem keyedAt_of_none (h : s.keyspace = none) :
    keyedAt default object place s = s.withKeyspace (default.forPlaces object place) := by
  rw [keyedAt, h, Option.getD_none]

theorem eq_keyedAt_of_yields (h : Yields (keyed default object place s) p s' q) :
    s' = keyedAt default object place s := by
  cases hs : s.keyspace with
  | some k =>
      simp only [keyed, hs, yields_pure_iff] at h
      rw [keyedAt_of_some (by simp [hs]), h.1]
  | none =>
      simp only [keyed, hs, yields_bind_iff, yields_pure_iff, Keyspace.yields_bindAll_iff] at h
      obtain ⟨k, _, ⟨b, l, hobject, rfl, -⟩, k', _, ⟨b', l', hplace, rfl, -⟩, rfl, -⟩ := h
      obtain ⟨rfl, -⟩ := Keyspace.Layout.bind_one hobject
      obtain ⟨rfl, -⟩ := Keyspace.Layout.bind_one hplace
      rw [keyedAt_of_none hs]
      rfl

theorem yields_keyed_of_some (h : s.keyspace.isSome = true) (default : Keyspace) (p : Pool) :
    Yields (keyed default object place s) p (keyedAt default object place s) p := by
  obtain ⟨k, hk⟩ := Option.isSome_iff_exists.mp h
  rw [keyedAt_of_some h]
  simp only [keyed, hk, yields_pure_iff, and_self]

/-- The stream has no keyspace of the default's layout. -/
def Fresh (default : Keyspace) (s : Stream) : Prop :=
  ∀ k ∈ s.keyspace, k.layout ≠ default.layout

theorem keyedAt_apart {place' : Nat} (hs : Fresh default s) (hs' : Fresh default s')
    (hplace : place ≠ place') (happart : s.keyspace.isSome = true → s.same s' = false) :
    (keyedAt default object place s).same (keyedAt default object place' s') = false := by
  cases hk : s.keyspace with
  | none =>
      apply Stream.same_of_keyspace_ne
      cases hk' : s'.keyspace with
      | none =>
          rw [keyedAt_of_none hk, keyedAt_of_none hk']
          intro heq
          exact hplace (Keyspace.place_of_forPlaces (Option.some.inj heq))
      | some k' =>
          rw [keyedAt_of_none hk, keyedAt_of_some (by simp [hk']), hk']
          intro heq
          exact hs' k' hk' (congrArg Keyspace.layout (Option.some.inj heq)).symm
  | some k =>
      rw [keyedAt_of_some (by simp [hk])]
      cases hk' : s'.keyspace with
      | none =>
          apply Stream.same_of_keyspace_ne
          rw [keyedAt_of_none hk', hk]
          intro heq
          have hplaces : k = default.forPlaces object place' := Option.some.inj heq
          apply hs k hk
          rw [hplaces]
          rfl
      | some k' =>
          rw [keyedAt_of_some (by simp [hk'])]
          exact happart (by simp [hk])

/-- The streams of the object at a place, with keyspaces. -/
def filledStreams (default : Keyspace) (object : Nat) (out : Outgoing) : Outgoing :=
  out.zipIdx.map fun ((s, rs), i) => (keyedAt default object i s, rs)

/-- The tree with keyspaces where there are none. -/
def filled (default : Keyspace) (t : StreamTree) : StreamTree :=
  ⟨t.origins.zipIdx.map fun ((origin, out), o) => (origin, filledStreams default o out)⟩

theorem getElem?_filledStreams (default : Keyspace) (object : Nat) (out : Outgoing) (i : Nat) :
    (filledStreams default object out)[i]?
      = out[i]?.map fun y => (keyedAt default object i y.1, y.2) := by
  rw [filledStreams, List.getElem?_map, List.getElem?_zipIdx, Option.map_map, Nat.zero_add]
  rfl

theorem getElem?_origins_filled (default : Keyspace) (t : StreamTree) (o : Nat) :
    (t.filled default).origins[o]?
      = t.origins[o]?.map fun x => (x.1, filledStreams default o x.2) := by
  rw [filled, List.getElem?_map, List.getElem?_zipIdx, Option.map_map, Nat.zero_add]
  rfl

theorem receivers_filledStreams (default : Keyspace) (object : Nat) (out : Outgoing) :
    (filledStreams default object out).map (·.2) = out.map (·.2) := by
  conv_rhs => rw [← List.zipIdx_map_fst 0 out, List.map_map]
  rw [filledStreams, List.map_map]
  rfl

theorem originating_filled (default : Keyspace) (t : StreamTree) :
    (t.filled default).originating = t.originating := by
  conv_rhs => rw [originating, ← List.zipIdx_map_fst 0 t.origins, List.map_map]
  rw [originating, filled, List.map_map]
  rfl

/-- What it takes for a tree to be kept when its keyspaces are filled in. -/
structure Fillable (default : Keyspace) (t : StreamTree) : Prop where
  senders : (t.origins.map (·.1)).Nodup
  sending : ∀ x ∈ t.origins, x.2 ≠ []
  received : ∀ x ∈ t.origins, ∀ y ∈ x.2, y.2 ≠ []
  streams : ∀ x ∈ t.origins, (x.2.map (·.1)).Pairwise fun a b =>
    a.keyspace.isSome = true → a.same b = false
  fresh : ∀ x ∈ t.origins, ∀ y ∈ x.2, Fresh default y.1

theorem Grouped.fillable (h : t.Grouped) (hfresh : ∀ x ∈ t.origins, ∀ y ∈ x.2, Fresh default y.1) :
    t.Fillable default where
  senders := h.senders
  sending := h.sending
  received := h.received
  streams x hx := (h.streams x hx).imp_of_mem fun _ _ happart _ => happart
  fresh := hfresh

theorem pairwise_filledStreams {out : Outgoing} (hfresh : ∀ y ∈ out, Fresh default y.1)
    (happart : (out.map (·.1)).Pairwise fun a b => a.keyspace.isSome = true → a.same b = false) :
    ((filledStreams default object out).map (·.1)).Pairwise fun a b => a.same b = false := by
  rw [List.pairwise_iff_getElem] at happart ⊢
  intro i j hi hj hij
  simp only [filledStreams, List.length_map, List.length_zipIdx] at hi hj
  simp only [filledStreams, List.getElem_map, List.getElem_zipIdx, Nat.zero_add]
  apply keyedAt_apart
  · exact hfresh _ (List.getElem_mem hi)
  · exact hfresh _ (List.getElem_mem hj)
  · exact Nat.ne_of_lt hij
  · have hpair := happart i j (by simpa using hi) (by simpa using hj) hij
    simpa only [List.getElem_map] using hpair

theorem Fillable.grouped (h : t.Fillable default) : (t.filled default).Grouped := by
  have hfilled : ∀ x ∈ (t.filled default).origins, ∃ o out, (x.1, out) ∈ t.origins
      ∧ x.2 = filledStreams default o out := by
    intro x hx
    obtain ⟨⟨⟨origin, out⟩, o⟩, hmem, rfl⟩ := List.mem_map.mp hx
    exact ⟨o, out, List.fst_mem_of_mem_zipIdx hmem, rfl⟩
  refine ⟨⟨?_, ?_⟩, ?_, ?_⟩
  · have hsenders := originating_filled default t
    rw [originating, originating] at hsenders
    rw [hsenders]
    exact h.senders
  · intro x hx
    obtain ⟨o, out, hout, hx⟩ := hfilled x hx
    rw [hx]
    exact pairwise_filledStreams (h.fresh _ hout) (h.streams _ hout)
  · intro x hx
    obtain ⟨o, out, hout, hx⟩ := hfilled x hx
    rw [hx, filledStreams]
    simpa using h.sending _ hout
  · intro x hx y hy
    obtain ⟨o, out, hout, hx⟩ := hfilled x hx
    rw [hx] at hy
    have hreceivers : y.2 ∈ out.map (·.2) := by
      rw [← receivers_filledStreams default o]
      exact List.mem_map_of_mem hy
    obtain ⟨y', hy', heq⟩ := List.mem_map.mp hreceivers
    rw [← heq]
    exact h.received _ hout y' hy'

/-- Inserting everything with keyspaces fills them in. -/
theorem foldl_insertAll_eq_filled (h : (t.filled default).Grouped) :
    t.origins.zipIdx.foldl (fun tree ((origin, out), o) =>
      out.zipIdx.foldl (fun tree ((s, rs), i) =>
        tree.insertAll origin (keyedAt default o i s) rs) tree) empty = t.filled default := by
  have hrebuild := h.rebuild
  simp only [filled, filledStreams, insertOutgoing, List.foldl_map] at hrebuild
  exact hrebuild

theorem eq_foldl_of_yields_applyKeyspace (h : Yields (t.applyKeyspace default) p tree q) :
    tree = t.origins.zipIdx.foldl (fun tree ((origin, out), o) =>
      out.zipIdx.foldl (fun tree ((s, rs), i) =>
        tree.insertAll origin (keyedAt default o i s) rs) tree) empty := by
  refine eq_foldl_of_yields ?_ h
  intro x _ t p t' q hout
  refine eq_foldl_of_yields ?_ hout
  intro y _ t p t' q hstream
  simp only [yields_bind_iff, yields_pure_iff] at hstream
  obtain ⟨s', _, hkeyed, rfl, -⟩ := hstream
  rw [eq_keyedAt_of_yields hkeyed]

theorem eq_filled_of_yields (ht : (t.filled default).Grouped)
    (h : Yields (t.applyKeyspace default) p tree q) : tree = t.filled default := by
  rw [← foldl_insertAll_eq_filled ht]
  exact eq_foldl_of_yields_applyKeyspace h

end StreamTree

end Manycore
