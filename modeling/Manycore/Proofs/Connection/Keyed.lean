import Manycore.Compiler.Network
import Manycore.Proofs.Connection.Arrivals
import Manycore.Proofs.Connection.Rebuilding
import Manycore.Proofs.Keyspace.StreamRoutes

/-! # Keyed trees

A tree that is built from connections holds every sender once and nothing without a receiver.
Giving its streams keyspaces then rebuilds it as it is, with the places of sender and stream bound.
-/

namespace Manycore

open Keyspace (forStream)

namespace StreamTree

/-- Every sender is there once, every stream is received, and none has a keyspace. -/
structure Unkeyed (t : StreamTree) : Prop where
  senders : (t.origins.map (·.1)).Nodup
  sending : ∀ x ∈ t.origins, x.2 ≠ []
  received : ∀ x ∈ t.origins, ∀ y ∈ x.2, y.2 ≠ [] ∧ y.1.keyspace = none

theorem unkeyed_empty : empty.Unkeyed :=
  ⟨List.nodup_nil, fun _ hx => (nomatch hx), fun _ hx => nomatch hx⟩

theorem Unkeyed.insert {t : StreamTree} (h : t.Unkeyed) {s : Stream} (hs : s.keyspace = none)
    (origin : ObjectId) (r : Receiver) : (t.insert origin s r).Unkeyed := by
  constructor
  · exact Groups.nodup_keys_update sameId_refl h.senders
  · exact sending_insert h.sending origin s r
  · apply forall_streams_insert h.received origin
    · intro s' rs hrs
      exact ⟨by simp, hrs.2⟩
    · exact ⟨by simp, hs⟩

theorem Unkeyed.leaves {t : StreamTree} (h : t.Unkeyed) {x : ObjectId × Stream × Receiver}
    (hx : x ∈ t.leaves) : x.2.1.keyspace = none := by
  obtain ⟨origin, horigin, y, hy, -, hstream, -⟩ := mem_leaves_iff.mp hx
  rw [← hstream]
  exact (h.received origin horigin y hy).2

theorem Unkeyed.replaceObjects {t : StreamTree} (h : t.Unkeyed) (rename : ObjectId → ObjectId)
    (originating terminating : Bool) :
    (t.replaceObjects rename originating terminating).Unkeyed := by
  unfold StreamTree.replaceObjects
  refine List.foldlRecOn t.leaves _ unkeyed_empty ?_
  intro tree htree x hx
  exact htree.insert (h.leaves hx) _ _

end StreamTree

theorem Expansion.keyspace_of_stream {e : Expansion} {s : Stream} (h : e.stream = .ok s) :
    s.keyspace = e.keyspace := by
  rw [Expansion.stream] at h
  cases hsource : e.source with
  | error cause =>
      rw [hsource] at h
      cases h
  | ok source =>
      rw [hsource] at h
      cases h
      rfl

theorem ObjectTable.id_of_get {objects : ObjectTable} {id : ObjectId} {o : NetworkObject}
    (h : objects.get id = .ok o) : o.id = id := by
  rw [get] at h
  split at h
  · rename_i hfind
    cases h
    unfold ObjectTable.find? at hfind
    simpa using List.find?_some hfind
  · cases h

/-- What an expansion keeps of its connection. -/
structure Expansion.Keeps (e : Expansion) (c : Connection) : Prop where
  pre : e.pre = c.pre
  post : e.post = c.post
  keyspace : e.keyspace = c.keyspace

theorem Expansion.keeps_of_ofConnection {c : Connection} {objects : ObjectTable} {e : Expansion}
    (h : ofConnection c objects = .ok e) : e.Keeps c := by
  simp only [ofConnection, bind_eq_ok_iff, mapError_eq_ok_iff] at h
  obtain ⟨pre, hpre, post, hpost, preSlice, -, postSlice, -, h⟩ := h
  split at h
  · obtain ⟨_, hthrow, -⟩ := bind_eq_ok_iff.mp h
    cases hthrow
  · simp only [bind_eq_ok_iff] at h
    obtain ⟨transform, -, evalPoints, -, _, -, _, -, h⟩ := h
    cases h
    exact ⟨ObjectTable.id_of_get hpre, ObjectTable.id_of_get hpost, rfl⟩

theorem Compiler.keeps_of_expand {c : Connection} {objects : ObjectTable} {e : Expansion}
    (h : expand objects c = .ok e) : e.Keeps c := by
  rw [expand, bind_eq_ok_iff] at h
  obtain ⟨e', he', h⟩ := h
  have hkeeps := Expansion.keeps_of_ofConnection he'
  split at h
  · rw [Expansion.toGlobalInhibition] at h
    split at h
    · cases h
    · split at h
      · cases h
      · cases h
        exact ⟨hkeeps.pre, hkeeps.post, hkeeps.keyspace⟩
  · cases h
    exact hkeeps

namespace StreamTree

theorem unkeyed_of_ofExpansions {es : List Expansion} {t : StreamTree}
    (h : ofExpansions es = .ok t) (hes : ∀ e ∈ es, e.keyspace = none) : t.Unkeyed := by
  refine foldlM_ok_induct h unkeyed_empty fun e he t t' ht hstep => ?_
  rw [bind_eq_ok_iff] at hstep
  obtain ⟨s, hs, hstep⟩ := hstep
  rw [bind_eq_ok_iff] at hstep
  obtain ⟨r, -, hstep⟩ := hstep
  cases hstep
  exact ht.insert ((Expansion.keyspace_of_stream hs).trans (hes e he)) _ _

open Keying Keyspace

variable {t tree : StreamTree} {p q : Pool} {layout : Nat}

/-- The streams of the object at a place, with keyspaces. -/
def keyedStreams (layout object place : Nat) (out : Outgoing) : Outgoing :=
  (out.zipIdx place).map fun ((s, rs), i) => (s.withKeyspace (forStream layout object i), rs)

/-- The tree with keyspaces for all streams. -/
def keyedOn (layout : Nat) (t : StreamTree) : StreamTree :=
  ⟨t.origins.zipIdx.map fun ((origin, out), o) => (origin, keyedStreams layout o 0 out)⟩

/-- The layout of a stream's keyspace has been told of its places. -/
def Noted (layout : Nat) (p : Pool) (object connection : Nat) : Prop :=
  (p.layoutOf (forStream layout object connection)).Notes
    (forStream layout object connection).bindings

theorem Noted.run {rule : Pool.Rule} {object connection : Nat}
    (h : Noted layout p object connection) (hin : (⟨layout, []⟩ : Keyspace).In p)
    (hrun : Pool.Run rule p q) : Noted layout q object connection :=
  h.of_growsTo (hrun.growsTo (k := forStream layout object connection) hin)

/-- The request binds the place of an object or of a stream, at one of these places, and it
succeeds. -/
def placing (P : Nat → Nat → Prop) : Pool.Rule := fun p k request => Pool.binding p k request
  ∧ ∃ object place, P object place
    ∧ (request = .bind [(objectField, object)] ∨ request = .bind [(connectionField, place)])

theorem placing_imp {P P' : Nat → Nat → Prop} (hP : ∀ object place, P object place → P' object place)
    (hrun : Pool.Run (placing P) p q) : Pool.Run (placing P') p q :=
  hrun.imp fun _ _ _ ⟨hbinding, object, place, hplace, hrequest⟩ =>
    ⟨hbinding, object, place, hP object place hplace, hrequest⟩

theorem yields_keyed {object place : Nat} {s s' : Stream} (hin : (⟨layout, []⟩ : Keyspace).In p)
    (hs : s.keyspace = none) (h : Yields (keyed ⟨layout, []⟩ object place s) p s' q) :
    s' = s.withKeyspace (forStream layout object place)
      ∧ Pool.Run (placing fun o i => o = object ∧ i = place) p q
      ∧ Noted layout q object place := by
  simp only [keyed, hs, yields_bind_iff, yields_pure_iff] at h
  obtain ⟨k, mid, hobject, k', last, hplace, hs', hq⟩ := h
  have hfirst := bindsOne_of_yields hin hobject
  have hk : k = ⟨layout, [(objectField, object)]⟩ := hfirst.keyspace
  subst hk
  have hsecond := bindsOne_of_yields (k := ⟨layout, [(objectField, object)]⟩)
    (hin.run hfirst.run) hplace
  have hk' : k' = forStream layout object place := hsecond.keyspace
  subst hk' hs' hq
  have hnotes : (p.layoutOf ⟨layout, []⟩).Notes [] := by
    intro name v hget
    cases hget
  have hrun : Pool.Run (placing fun o i => o = object ∧ i = place) p mid :=
    run_of_yields_bind (fun hbinding => ⟨hbinding, object, place, ⟨rfl, rfl⟩, .inl rfl⟩) hobject
  have hrun' : Pool.Run (placing fun o i => o = object ∧ i = place) mid last :=
    run_of_yields_bind (fun hbinding => ⟨hbinding, object, place, ⟨rfl, rfl⟩, .inr rfl⟩) hplace
  exact ⟨rfl, hrun.trans hrun', hsecond.notes (hfirst.notes hnotes)⟩

theorem Unkeyed.fillable (ht : t.Unkeyed) (default : Keyspace) : t.Fillable default where
  senders := ht.senders
  sending := ht.sending
  received x hx y hy := (ht.received x hx y hy).1
  streams x hx := by
    apply List.pairwise_of_forall_mem_list
    intro a ha b _ hkeyed
    obtain ⟨y, hy, rfl⟩ := List.mem_map.mp ha
    rw [(ht.received x hx y hy).2] at hkeyed
    cases hkeyed
  fresh x hx y hy k hk := by
    rw [(ht.received x hx y hy).2] at hk
    cases hk

theorem Unkeyed.filled_eq (ht : t.Unkeyed) (layout : Nat) :
    t.filled ⟨layout, []⟩ = t.keyedOn layout := by
  refine congrArg StreamTree.mk (List.map_congr_left fun x hx => ?_)
  refine congrArg (Prod.mk x.1.1) (List.map_congr_left fun y hy => ?_)
  have hnone := (ht.received _ (List.fst_mem_of_mem_zipIdx hx) _ (List.fst_mem_of_mem_zipIdx hy)).2
  exact congrArg (fun s => (s, y.1.2)) (keyedAt_of_none hnone)

theorem noted_of_keyOrigin {object : Nat} {out : Outgoing} {origin : ObjectId}
    (hin : (⟨layout, []⟩ : Keyspace).In p) (hout : ∀ y ∈ out, y.1.keyspace = none)
    (h : Yields (out.zipIdx.foldlM (fun tree ((s, rs), i) => do
      let s ← keyed ⟨layout, []⟩ object i s
      pure (tree.insertAll origin s rs)) t) p tree q) :
    Pool.Run (placing fun o i => o = object ∧ i < out.length) p q
      ∧ ∀ i, i < out.length → Noted layout q object i := by
  have hkept : ∀ p q (y : (Stream × List Receiver) × Nat), (⟨layout, []⟩ : Keyspace).In p →
      Pool.Run (placing fun o i => o = object ∧ i < out.length) p q → Noted layout p object y.2 →
      Noted layout q object y.2 :=
    fun _ _ _ hin hrun hnoted => hnoted.run hin hrun
  have hsteps := yields_foldlM_forall (fun _ _ hin hrun => In.run hin hrun) hkept ?_ hin h
  · refine ⟨hsteps.1, fun i hi => ?_⟩
    exact hsteps.2 (out[i], i) (List.mem_zipIdx_iff_getElem?.mpr (List.getElem?_eq_getElem hi))
  · intro y hy t p t' q hin hstep
    simp only [yields_bind_iff, yields_pure_iff] at hstep
    obtain ⟨s', _, hkeyed, -, rfl⟩ := hstep
    obtain ⟨-, hrun, hnoted⟩ := yields_keyed hin (hout _ (List.fst_mem_of_mem_zipIdx hy)) hkeyed
    have hlt := (List.mem_zipIdx' hy).1
    exact ⟨placing_imp (fun _ _ ⟨ho, hi⟩ => ⟨ho, hi ▸ hlt⟩) hrun, hnoted⟩

/-- The tree has a stream at the place, of the object at the place. -/
def HasPlace (t : StreamTree) (object place : Nat) : Prop :=
  ∃ x, t.origins[object]? = some x ∧ place < x.2.length

/-- Giving keyspaces to a tree of connections binds the places of senders and streams, and changes
nothing else. -/
theorem yields_applyKeyspace (hin : (⟨layout, []⟩ : Keyspace).In p) (ht : t.Unkeyed)
    (h : Yields (t.applyKeyspace ⟨layout, []⟩) p tree q) :
    tree = t.keyedOn layout ∧ Pool.Run (placing t.HasPlace) p q
      ∧ ∀ o i, t.HasPlace o i → Noted layout q o i := by
  have htree := eq_filled_of_yields (ht.fillable _).grouped h
  have hkept : ∀ p q (x : (ObjectId × Outgoing) × Nat), (⟨layout, []⟩ : Keyspace).In p →
      Pool.Run (placing t.HasPlace) p q → (∀ i, i < x.1.2.length → Noted layout p x.2 i) →
      ∀ i, i < x.1.2.length → Noted layout q x.2 i :=
    fun _ _ _ hin hrun hnoted i hi => (hnoted i hi).run hin hrun
  have hsteps := yields_foldlM_forall (fun _ _ hin hrun => In.run hin hrun) hkept ?_ hin h
  · refine ⟨htree.trans (ht.filled_eq layout), hsteps.1, ?_⟩
    rintro o i ⟨x, hx, hi⟩
    exact hsteps.2 (x, o) (List.mem_zipIdx_iff_getElem?.mpr hx) i hi
  · intro x hx _ p t' q hin hstep
    have hout : ∀ y ∈ x.1.2, y.1.keyspace = none :=
      fun y hy => (ht.received _ (List.fst_mem_of_mem_zipIdx hx) y hy).2
    obtain ⟨hrun, hnoted⟩ := noted_of_keyOrigin hin hout hstep
    refine ⟨placing_imp ?_ hrun, hnoted⟩
    rintro _ i ⟨rfl, hi⟩
    exact ⟨x.1, List.mem_zipIdx_iff_getElem?.mp hx, hi⟩

/-- The keyspace is that of the stream at the place of the sender, by the number of the sender. -/
def Sends (layout : Nat) (t : StreamTree) (origin : ObjectId) (place object : Nat)
    (keyspace : Option Keyspace) : Prop :=
  ∃ out, t.origins[object]? = some (origin, out) ∧ place < out.length
    ∧ keyspace = some (forStream layout object place)

theorem Sends.hasPlace {layout place object : Nat} {t : StreamTree} {origin : ObjectId}
    {keyspace : Option Keyspace} (h : t.Sends layout origin place object keyspace) :
    t.HasPlace object place := by
  obtain ⟨out, hout, hplace, -⟩ := h
  exact ⟨_, hout, hplace⟩

theorem Sends.keyspace_eq {layout place object : Nat} {t : StreamTree} {origin : ObjectId}
    {keyspace : Option Keyspace} (h : t.Sends layout origin place object keyspace) :
    keyspace = some (forStream layout object place) := by
  obtain ⟨_, -, -, hkeyspace⟩ := h
  exact hkeyspace

theorem sends_of_mem_keyedOn {layout place : Nat} {t : StreamTree} {origin : ObjectId}
    {out : Outgoing} {y : Stream × List Receiver} (hx : (origin, out) ∈ (t.keyedOn layout).origins)
    (hy : out[place]? = some y) : ∃ object, t.Sends layout origin place object y.1.keyspace := by
  obtain ⟨⟨⟨origin', out'⟩, object⟩, hmem, hkeyed⟩ := List.mem_map.mp hx
  cases hkeyed
  rw [keyedStreams, List.getElem?_map, List.getElem?_zipIdx] at hy
  cases hplace : out'[place]? with
  | none => simp [hplace] at hy
  | some y' =>
      obtain ⟨hlt, -⟩ := List.getElem?_eq_some_iff.mp hplace
      simp only [hplace, Option.map_some, Option.some.injEq, Nat.zero_add] at hy
      subst hy
      exact ⟨object, out', List.mem_zipIdx_iff_getElem?.mp hmem, hlt, rfl⟩

theorem sends_of_streams {layout place : Nat} {t : StreamTree} {origin : ObjectId} {s : Stream}
    (h : ((t.keyedOn layout).streams origin)[place]? = some s) :
    ∃ object, t.Sends layout origin place object s.keyspace := by
  rw [streams, List.getElem?_map, outgoing] at h
  cases hfind : Groups.find? sameId origin (t.keyedOn layout).origins with
  | none => simp [hfind] at h
  | some out =>
      rw [hfind, Option.getD_some, Option.map_eq_some_iff] at h
      obtain ⟨y, hy, rfl⟩ := h
      obtain ⟨origin', hmem, hsame⟩ := Groups.exists_of_find? hfind
      cases of_decide_eq_true hsame
      exact sends_of_mem_keyedOn hmem hy

theorem Sends.places_eq {layout place object i o : Nat} {t : StreamTree} {origin : ObjectId}
    (h : t.Sends layout origin place object (some (forStream layout o i))) :
    o = object ∧ i = place := by
  obtain ⟨_, -, -, hkeyspace⟩ := h
  cases hkeyspace
  exact ⟨rfl, rfl⟩

theorem Sends.object_eq_iff {layout place place' object object' : Nat} {t : StreamTree}
    {origin origin' : ObjectId} {keyspace keyspace' : Option Keyspace}
    (h : t.Sends layout origin place object keyspace)
    (h' : t.Sends layout origin' place' object' keyspace')
    (hsenders : (t.origins.map (·.1)).Nodup) : object' = object ↔ origin' = origin := by
  obtain ⟨out, hout, -, -⟩ := h
  obtain ⟨out', hout', -, -⟩ := h'
  have hat : (t.origins.map (·.1))[object]? = some origin := by simp [hout]
  have hat' : (t.origins.map (·.1))[object']? = some origin' := by simp [hout']
  constructor
  · rintro rfl
    exact Option.some.inj (hat'.symm.trans hat)
  · rintro rfl
    obtain ⟨hlt, -⟩ := List.getElem?_eq_some_iff.mp hat'
    exact (List.getElem?_inj hlt hsenders).mp (hat'.trans hat.symm)

end StreamTree

end Manycore
