import Manycore.Compiler.ValueFilter
import Manycore.Proofs.Groups
import Mathlib.Data.List.Flatten

/-! # Arrivals

The receivers at an object, with the places of the streams that they listen to. A filter takes all
of them in, group by group, and in every group the filters of the receivers do the same.
-/

namespace Manycore

theorem Filter.same_refl (f : Filter) : f.same f = true := decide_eq_true rfl

theorem Filter.equivalence_same : Equivalence fun f f' : Filter => f.same f' = true :=
  equivalence_of_content content decide_eq_true_iff

theorem Inlet.equivalence_same : Equivalence fun a b : Inlet => decide (a = b) = true := by
  simp only [decide_eq_true_eq]
  exact eq_equivalence

/-- A receiver, the sender of its stream, and the place of the stream among those of the sender. -/
structure Leaf where
  origin : ObjectId
  place : Nat
  stream : Stream
  receiver : Receiver

namespace StreamTree

/-- Every receiver, in order. -/
def placedLeaves (t : StreamTree) : List Leaf :=
  t.origins.flatMap fun (origin, out) =>
    out.zipIdx.flatMap fun ((s, rs), i) => rs.map fun r => ⟨origin, i, s, r⟩

/-- The receivers at an object. -/
def arrivalsAt (t : StreamTree) (object : ObjectId) : List Leaf :=
  t.placedLeaves.filter fun x => x.receiver.object = object

theorem map_zipIdx_leaves (origin : ObjectId) (out : Outgoing) (place : Nat) :
    ((out.zipIdx place).flatMap fun ((s, rs), i) => rs.map fun r =>
      (⟨origin, i, s, r⟩ : Leaf)).map (fun x => (x.origin, x.stream, x.receiver))
      = (out.map fun (s, rs) => (origin, s, rs)).flatMap fun (origin, s, rs) =>
        rs.map fun r => (origin, s, r) := by
  induction out generalizing place with
  | nil => rfl
  | cons x rest ih =>
      simp only [List.zipIdx_cons, List.flatMap_cons, List.map_append, List.map_cons, List.map_map,
        Function.comp_def, ih]

theorem map_placedLeaves (t : StreamTree) :
    t.placedLeaves.map (fun x => (x.origin, x.stream, x.receiver)) = t.leaves := by
  simp only [placedLeaves, leaves, branches, List.map_flatMap, List.flatMap_assoc]
  refine List.flatMap_congr fun x _ => ?_
  obtain ⟨origin, out⟩ := x
  have hwhole := map_zipIdx_leaves origin out 0
  simp only [List.map_flatMap] at hwhole
  exact hwhole

theorem arrivals_eq (t : StreamTree) (object : ObjectId) :
    t.arrivals object = (t.arrivalsAt object).map fun x => (x.stream, x.receiver) := by
  rw [arrivals, ← map_placedLeaves, List.filter_map, arrivalsAt, List.map_map]
  rfl

theorem mem_placedLeaves {t : StreamTree} {x : Leaf} : x ∈ t.placedLeaves ↔
    ∃ out rs, (x.origin, out) ∈ t.origins ∧ out[x.place]? = some (x.stream, rs)
      ∧ x.receiver ∈ rs := by
  simp only [placedLeaves, List.mem_flatMap, List.mem_map]
  constructor
  · rintro ⟨⟨origin, out⟩, horigin, ⟨⟨s, rs⟩, i⟩, hstream, r, hr, rfl⟩
    exact ⟨out, rs, horigin, List.mem_zipIdx_iff_getElem?.mp hstream, hr⟩
  · rintro ⟨out, rs, horigin, hstream, hr⟩
    exact ⟨(x.origin, out), horigin, ((x.stream, rs), x.place),
      List.mem_zipIdx_iff_getElem?.mpr hstream, x.receiver, hr, rfl⟩

theorem mem_leaves_iff {t : StreamTree} {leaf : ObjectId × Stream × Receiver} :
    leaf ∈ t.leaves ↔
      ∃ x ∈ t.origins, ∃ y ∈ x.2, x.1 = leaf.1 ∧ y.1 = leaf.2.1 ∧ leaf.2.2 ∈ y.2 := by
  obtain ⟨origin, s, r⟩ := leaf
  simp only [leaves, branches, List.mem_flatMap, List.mem_map]
  constructor
  · rintro ⟨_, ⟨x, hx, y, hy, rfl⟩, _, hr, hleaf⟩
    cases hleaf
    exact ⟨x, hx, y, hy, rfl, rfl, hr⟩
  · rintro ⟨x, hx, y, hy, rfl, rfl, hr⟩
    exact ⟨_, ⟨x, hx, y, hy, rfl⟩, r, hr, rfl⟩

theorem exists_of_mem_streams {t : StreamTree} {id : ObjectId} {s : Stream}
    (hs : s ∈ t.streams id) : ∃ x ∈ t.origins, ∃ y ∈ x.2, y.1 = s := by
  obtain ⟨y, hy, hs⟩ := List.mem_map.mp hs
  rw [outgoing] at hy
  cases hfind : Groups.find? sameId id t.origins with
  | none =>
      rw [hfind] at hy
      cases hy
  | some out =>
      rw [hfind] at hy
      obtain ⟨origin, hmem, -⟩ := Groups.exists_of_find? hfind
      exact ⟨_, hmem, y, hy, hs⟩

/-- The filters of receivers, with the keyspaces of their streams. -/
def byFilter (xs : List (Stream × Receiver)) : Groups Filter (List (Option Keyspace)) :=
  xs.foldl (fun g x => Groups.push Filter.same x.2.filter x.1.keyspace g) []

/-- The distinct filters of receivers. -/
def filtersOf (xs : List (Stream × Receiver)) : List Filter :=
  (xs.map fun x => x.2.filter).eraseDupsBy Filter.same

theorem byFilter_eq (xs : List (Stream × Receiver)) : byFilter xs = (filtersOf xs).map fun f =>
    (f, (xs.filter fun x => f.same x.2.filter).map (·.1.keyspace)) :=
  Groups.foldl_push_eq Filter.equivalence_same (fun x : Stream × Receiver => x.2.filter) _ xs

/-- The keyspaces under the filters are those of the streams. -/
theorem exists_of_mem_byFilter {xs : List (Stream × Receiver)}
    {x : Filter × List (Option Keyspace)} (hx : x ∈ byFilter xs) {keyspace : Option Keyspace}
    (hkeyspace : keyspace ∈ x.2) : ∃ y ∈ xs, y.1.keyspace = keyspace := by
  rw [byFilter_eq] at hx
  obtain ⟨f, -, rfl⟩ := List.mem_map.mp hx
  obtain ⟨y, hy, hkeyspace⟩ := List.mem_map.mp hkeyspace
  exact ⟨y, List.mem_of_mem_filter hy, hkeyspace⟩

/-- One receiver more. -/
def addArrival (g : Incoming) (x : Stream × Receiver) : Incoming :=
  Groups.update (fun a b => decide (a = b)) x.2.inlet
    (fun filters => Groups.push Filter.same x.2.filter x.1.keyspace (filters.getD [])) g

theorem incoming_eq (t : StreamTree) (object : ObjectId) :
    t.incoming object = (t.arrivals object).foldl addArrival [] := rfl

/-- The receivers at an inlet. -/
def reaching (inlet : Inlet) (xs : List (Stream × Receiver)) : List (Stream × Receiver) :=
  xs.filter fun x => decide (inlet = x.2.inlet)

theorem mem_reaching {inlet : Inlet} {xs : List (Stream × Receiver)} {x : Stream × Receiver} :
    x ∈ reaching inlet xs ↔ x ∈ xs ∧ inlet = x.2.inlet := by
  rw [reaching, List.mem_filter, decide_eq_true_eq]

theorem reaching_eq_self {inlet : Inlet} {xs : List (Stream × Receiver)}
    (h : ∀ x ∈ xs, x.2.inlet = inlet) : reaching inlet xs = xs :=
  List.filter_eq_self.mpr fun x hx => decide_eq_true (h x hx).symm

/-- The distinct inlets of receivers. -/
def inletsOf (xs : List (Stream × Receiver)) : List Inlet :=
  (xs.map (·.2.inlet)).eraseDupsBy fun a b => decide (a = b)

theorem foldl_addArrival_eq (xs : List (Stream × Receiver)) : xs.foldl addArrival []
    = (inletsOf xs).map fun inlet => (inlet, byFilter (reaching inlet xs)) :=
  Groups.foldl_update_eq Inlet.equivalence_same (fun x : Stream × Receiver => x.2.inlet)
    (fun filters x => Groups.push Filter.same x.2.filter x.1.keyspace filters) [] xs

theorem exists_mem_foldl_addArrival {xs : List (Stream × Receiver)} {x : Stream × Receiver}
    (hx : x ∈ xs) : (x.2.inlet, byFilter (reaching x.2.inlet xs)) ∈ xs.foldl addArrival [] := by
  obtain ⟨inlet, hinlet, hsame⟩ := exists_mem_eraseDupsBy Inlet.equivalence_same
    (List.mem_map_of_mem (f := fun x : Stream × Receiver => x.2.inlet) hx)
  obtain rfl := of_decide_eq_true hsame
  rw [foldl_addArrival_eq]
  exact List.mem_map_of_mem hinlet

end StreamTree

/-- The filters at an inlet with their keyspaces; none when nothing reaches it. -/
def Incoming.filtersAt (inlet : Inlet) (g : Incoming) : Groups Filter (List (Option Keyspace)) :=
  (Groups.find? (fun a b => decide (a = b)) inlet g).getD []

namespace StreamTree

theorem filtersAt_addArrival (inlet : Inlet) (g : Incoming) (x : Stream × Receiver) :
    Incoming.filtersAt inlet (addArrival g x) = if inlet = x.2.inlet
      then Groups.push Filter.same x.2.filter x.1.keyspace (Incoming.filtersAt inlet g)
      else Incoming.filtersAt inlet g := by
  have hfound := Groups.find?_update inlet x.2.inlet
    (fun filters => Groups.push Filter.same x.2.filter x.1.keyspace (filters.getD [])) g
  unfold Incoming.filtersAt addArrival
  refine (congrArg (Option.getD · []) hfound).trans ?_
  split
  · rename_i heq
    rw [heq]
    rfl
  · rfl

/-- What is told under an inlet is what is told of the receivers there alone. -/
theorem filtersAt_foldl (inlet : Inlet) (xs : List (Stream × Receiver)) :
    Incoming.filtersAt inlet (xs.foldl addArrival []) = byFilter (reaching inlet xs) := by
  induction xs using List.reverseRecOn with
  | nil => rfl
  | append_singleton xs x ih =>
      rw [List.foldl_append, List.foldl_cons, List.foldl_nil, filtersAt_addArrival, ih]
      by_cases hinlet : inlet = x.2.inlet
      · simp [hinlet, byFilter, reaching]
      · simp [hinlet, reaching]

end StreamTree

namespace ValueFilter

open StreamTree

theorem standardInput_eq {label : String} {t : StreamTree} {object : ObjectId}
    {streams : Groups Filter (List (Option Keyspace))}
    (h : standardInput label (t.incoming object) = .ok streams) :
    streams = byFilter (t.arrivals object) := by
  rw [standardInput] at h
  split at h
  · cases h
  · rename_i hnone
    have hinlets : ∀ x ∈ t.arrivals object, x.2.inlet = .standardInput := by
      intro x hx
      have hstandard := List.find?_eq_none.mp hnone _ (exists_mem_foldl_addArrival hx)
      simpa using hstandard
    cases h
    exact (filtersAt_foldl .standardInput (t.arrivals object)).trans
      (congrArg byFilter (reaching_eq_self hinlets))

end ValueFilter

end Manycore
