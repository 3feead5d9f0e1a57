import Manycore.Proofs.Connection.Arrivals
import Mathlib.Data.List.Perm.Basic

/-! # What reaches an object

The receivers at an object are told three times: as edges, by inlet and filter, and by filter alone.
All three go through the same receivers in the same order. So no receiver is lost or told twice, and
the places of filters that are told without the inlets are those under the one inlet in use.
-/

namespace Manycore

open List (Forall₂)

namespace Incoming

/-- The keyspaces under all inlets and filters. -/
def keyspaces (g : Incoming) : List (Option Keyspace) := g.flatMap fun y => y.2.flatMap (·.2)

/-- Every receiver is told once, under its inlet and its filter. -/
structure Lists (g : Incoming) (xs : List (Stream × Receiver)) : Prop where
  inlets : (g.map (·.1)).Nodup
  filters : ∀ y ∈ g, y.2 ≠ [] ∧ y.2.Pairwise fun z z' => z'.1.same z.1 = false
  reached : ∀ x ∈ xs, ∃ y ∈ g, y.1 = x.2.inlet ∧ ∃ z ∈ y.2, z.1.same x.2.filter = true
  keyspaces : ∀ y ∈ g, ∀ z ∈ y.2, z.2 ≠ [] ∧ z.2
    = (xs.filter fun x => y.1 = x.2.inlet ∧ z.1.same x.2.filter = true).map (·.1.keyspace)

end Incoming

/-- The filters of receivers, each with its keyspaces, and the places that combining the receivers'
filters tells: one for each receiver, that of its own filter. -/
structure Receiver.Numbers (rs : List Receiver) (g : Groups Filter (List (Option Keyspace))) :
    Prop where
  filters : (combineFilters rs).1 = g.map (·.1)
  apart : (combineFilters rs).1.Pairwise fun f f' => f'.same f = false
  places : Forall₂ (fun n r => ∃ f, (combineFilters rs).1[n]? = some f ∧ f.same r.filter = true)
    (combineFilters rs).2 rs
  counts : ∀ n f keyspaces, g[n]? = some (f, keyspaces) →
    (combineFilters rs).2.count n = keyspaces.length

namespace StreamTree

variable {xs : List (Stream × Receiver)}

theorem pairwise_filtersOf (xs : List (Stream × Receiver)) :
    (filtersOf xs).Pairwise fun f f' => f'.same f = false :=
  pairwise_eraseDupsBy _ _

theorem exists_of_mem_filtersOf {f : Filter} (hf : f ∈ filtersOf xs) : ∃ x ∈ xs, x.2.filter = f :=
  List.mem_map.mp (mem_of_mem_eraseDupsBy hf)

theorem exists_mem_filtersOf {x : Stream × Receiver} (hx : x ∈ xs) :
    ∃ f ∈ filtersOf xs, f.same x.2.filter = true := by
  obtain ⟨f, hf, hsame⟩ := exists_mem_eraseDupsBy Filter.equivalence_same
    (List.mem_map_of_mem (f := fun x : Stream × Receiver => x.2.filter) hx)
  exact ⟨f, hf, Filter.equivalence_same.symm hsame⟩

theorem byFilter_ne_nil (h : xs ≠ []) : byFilter xs ≠ [] := by
  obtain ⟨x, hx⟩ := List.exists_mem_of_ne_nil xs h
  obtain ⟨f, hf, -⟩ := exists_mem_filtersOf hx
  rw [byFilter_eq]
  exact List.ne_nil_of_mem (List.mem_map_of_mem hf)

theorem pairwise_byFilter (xs : List (Stream × Receiver)) :
    (byFilter xs).Pairwise fun z z' => z'.1.same z.1 = false := by
  rw [byFilter_eq]
  exact List.pairwise_map.mpr (pairwise_filtersOf xs)

theorem exists_mem_byFilter {x : Stream × Receiver} (hx : x ∈ xs) :
    ∃ z ∈ byFilter xs, z.1.same x.2.filter = true := by
  obtain ⟨f, hf, hsame⟩ := exists_mem_filtersOf hx
  rw [byFilter_eq]
  exact ⟨_, List.mem_map_of_mem hf, hsame⟩

theorem keyspaces_of_mem_byFilter {z : Filter × List (Option Keyspace)} (hz : z ∈ byFilter xs) :
    z.2 ≠ [] ∧ z.2 = (xs.filter fun x => z.1.same x.2.filter).map (·.1.keyspace) := by
  rw [byFilter_eq] at hz
  obtain ⟨f, hf, rfl⟩ := List.mem_map.mp hz
  obtain ⟨x, hx, rfl⟩ := exists_of_mem_filtersOf hf
  have hown : x ∈ xs.filter fun y => x.2.filter.same y.2.filter :=
    List.mem_filter.mpr ⟨hx, x.2.filter.same_refl⟩
  exact ⟨List.ne_nil_of_mem (List.mem_map_of_mem hown), rfl⟩

theorem perm_keyspaces_byFilter (xs : List (Stream × Receiver)) :
    ((byFilter xs).flatMap (·.2)).Perm (xs.map (·.1.keyspace)) := by
  have hgrouped : ((filtersOf xs).flatMap fun f => xs.filter fun x => f.same x.2.filter).Perm xs :=
    Groups.perm_flatMap_filter Filter.equivalence_same (fun x : Stream × Receiver => x.2.filter) xs
  rw [byFilter_eq, List.flatMap_map, ← List.map_flatMap]
  exact hgrouped.map _

theorem numbers_byFilter (xs : List (Stream × Receiver)) :
    Receiver.Numbers (xs.map (·.2)) (byFilter xs) := by
  have hcombined : combineFilters (xs.map (·.2)) = (filtersOf xs,
      xs.map fun x => (filtersOf xs).findIdx fun f => f.same x.2.filter) := by
    rw [combineFilters, distinct_eq Filter.equivalence_same]
    simp only [filtersOf, List.map_map, Function.comp_def]
  constructor
  · rw [hcombined, byFilter_eq, List.map_map]
    exact (List.map_id _).symm
  · rw [hcombined]
    exact pairwise_filtersOf xs
  · have hplaces := forall₂_distinct Filter.equivalence_same ((xs.map (·.2)).map (·.filter))
    exact (List.forall₂_map_left_iff.mp hplaces).flip
  · intro n f keyspaces hn
    rw [byFilter_eq, List.getElem?_map] at hn
    obtain ⟨f', hf', hpair⟩ := Option.map_eq_some_iff.mp hn
    cases hpair
    obtain ⟨hlt, hf⟩ := List.getElem?_eq_some_iff.mp hf'
    -- A place is told for exactly the receivers with the filter at that place.
    have hplace : ∀ x : Stream × Receiver,
        ((filtersOf xs).findIdx (fun f => f.same x.2.filter) == n) = f.same x.2.filter := by
      intro x
      rw [Bool.eq_iff_iff, beq_iff_eq,
        findIdx_eq_iff Filter.equivalence_same (pairwise_filtersOf xs) hlt, hf]
    rw [hcombined, List.count, List.countP_map, List.length_map, ← List.countP_eq_length_filter]
    simp only [Function.comp_def, hplace]

theorem perm_keyspaces_foldl (xs : List (Stream × Receiver)) :
    (Incoming.keyspaces (xs.foldl addArrival [])).Perm (xs.map (·.1.keyspace)) := by
  have hgrouped : ((inletsOf xs).flatMap fun inlet => reaching inlet xs).Perm xs :=
    Groups.perm_flatMap_filter Inlet.equivalence_same (fun x : Stream × Receiver => x.2.inlet) xs
  have hfilters : ((inletsOf xs).flatMap fun inlet =>
      (byFilter (reaching inlet xs)).flatMap (·.2)).Perm
      ((inletsOf xs).flatMap fun inlet => (reaching inlet xs).map (·.1.keyspace)) :=
    List.Perm.flatMap_left _ fun inlet _ => perm_keyspaces_byFilter (reaching inlet xs)
  rw [← List.map_flatMap] at hfilters
  rw [foldl_addArrival_eq, Incoming.keyspaces, List.flatMap_map]
  exact hfilters.trans (hgrouped.map _)

theorem lists_foldl (xs : List (Stream × Receiver)) :
    Incoming.Lists (xs.foldl addArrival []) xs := by
  constructor
  · rw [foldl_addArrival_eq, List.map_map]
    refine List.Pairwise.map _ (fun a b hab => ?_) (pairwise_eraseDupsBy _ _)
    exact Ne.symm (of_decide_eq_false hab)
  · intro y hy
    rw [foldl_addArrival_eq] at hy
    obtain ⟨inlet, hinlet, rfl⟩ := List.mem_map.mp hy
    obtain ⟨x, hx, rfl⟩ := List.mem_map.mp (mem_of_mem_eraseDupsBy hinlet)
    exact ⟨byFilter_ne_nil (List.ne_nil_of_mem (mem_reaching.mpr ⟨hx, rfl⟩)), pairwise_byFilter _⟩
  · intro x hx
    exact ⟨_, exists_mem_foldl_addArrival hx, rfl, exists_mem_byFilter (mem_reaching.mpr ⟨hx, rfl⟩)⟩
  · intro y hy z hz
    rw [foldl_addArrival_eq] at hy
    obtain ⟨inlet, -, rfl⟩ := List.mem_map.mp hy
    obtain ⟨hne, heq⟩ := keyspaces_of_mem_byFilter hz
    refine ⟨hne, heq.trans ?_⟩
    rw [reaching, List.filter_filter]
    simp only [Bool.decide_and, Bool.decide_eq_true, Bool.and_comm]

/-- What is told of an object's receivers as edges, by inlet and filter, and by filter alone agrees:
there are the keyspaces of the edges that end at the object, every receiver is under its own inlet
and filter once, and where there is one inlet only, combining the filters tells those under it and
the place of each receiver's filter among them. -/
theorem incoming_agrees (t : StreamTree) (object : ObjectId) :
    (t.incoming object).keyspaces.Perm
      ((t.edges.filter fun e => e.post = object).map (·.keyspace))
    ∧ (t.incoming object).Lists (t.arrivals object)
    ∧ ∀ inlet, (∀ x ∈ t.arrivals object, x.2.inlet = inlet) →
      Receiver.Numbers ((t.arrivals object).map (·.2)) ((t.incoming object).filtersAt inlet) := by
  rw [incoming_eq]
  refine ⟨?_, lists_foldl _, fun inlet hinlet => ?_⟩
  · have hedges : (t.edges.filter fun e => e.post = object).map (·.keyspace)
        = (t.arrivals object).map (·.1.keyspace) := by
      simp only [edges, arrivals, List.filter_map, List.map_map, Function.comp_def]
    rw [hedges]
    exact perm_keyspaces_foldl _
  · rw [filtersAt_foldl, reaching_eq_self hinlet]
    exact numbers_byFilter _

/-- Two objects that send to a third. The filters of its first and last receiver are zeros that
differ in their sign. -/
def signedZeros : StreamTree where
  origins :=
    let unit : Slice := ⟨0, 1, Nat.one_pos⟩
    let stream (object : Nat) : Stream :=
      ⟨1, .fill 1 1 .one, unit, unit, some ⟨0, [(Keyspace.objectField, object)]⟩, .plain none⟩
    let receiver (tau : Binary64) : Receiver := ⟨⟨2⟩, unit, .standardInput, ⟨tau, true⟩⟩
    [(⟨0⟩, [(stream 0, [receiver (.zero false), receiver .one])]),
      (⟨1⟩, [(stream 1, [receiver (.zero true)])])]

theorem incoming_agrees_signedZeros :
    (∀ x ∈ signedZeros.arrivals ⟨2⟩, x.2.inlet = .standardInput)
    ∧ Receiver.Numbers ((signedZeros.arrivals ⟨2⟩).map (·.2))
      ((signedZeros.incoming ⟨2⟩).filtersAt .standardInput)
    ∧ ((signedZeros.incoming ⟨2⟩).filtersAt .standardInput).map (·.2.length) = [2, 1]
    ∧ (combineFilters ((signedZeros.arrivals ⟨2⟩).map (·.2))).2 = [0, 1, 0] := by
  have hinlet : ∀ x ∈ signedZeros.arrivals ⟨2⟩, x.2.inlet = .standardInput := by decide
  refine ⟨hinlet, (incoming_agrees signedZeros ⟨2⟩).2.2 _ hinlet, ?_, ?_⟩ <;> decide +kernel

end StreamTree

end Manycore
