import Manycore.Proofs.Connection.Reduction

/-! # Applied keyspaces

A default keyspace fills in the keyspaces that are missing from a tree of connections. Everything
else stays as it is and where it is, so a second default finds nothing to do.
-/

namespace Manycore

open Keying

namespace StreamTree

variable {t tree : StreamTree} {default : Keyspace} {p q : Pool}

/-- The trees that connections make, with objects renamed any number of times. -/
inductive Built : StreamTree → Prop where
  | ofExpansions {es : List Expansion} {t : StreamTree} : ofExpansions es = .ok t → Built t
  | replaceObjects {t : StreamTree} (rename : ObjectId → ObjectId) (originating terminating : Bool) :
    Built t → Built (t.replaceObjects rename originating terminating)

theorem Built.grouped {t : StreamTree} (h : t.Built) : t.Grouped := by
  induction h with
  | ofExpansions h =>
      refine foldlM_ok_induct h grouped_empty fun e _ t t' ht hstep => ?_
      simp only [bind_eq_ok_iff] at hstep
      obtain ⟨s, -, r, -, hinsert⟩ := hstep
      cases hinsert
      exact ht.insert _ _ _
  | replaceObjects rename originating terminating _ _ =>
      refine List.foldlRecOn _ _ grouped_empty ?_
      intro t ht x _
      exact ht.insert _ _ _

/-- Every stream has a keyspace. -/
def Keyed (t : StreamTree) : Prop :=
  ∀ x ∈ t.origins, ∀ y ∈ x.2, y.1.keyspace.isSome = true

theorem keyed_filled (default : Keyspace) (t : StreamTree) : (t.filled default).Keyed := by
  intro x hx y hy
  obtain ⟨⟨⟨origin, out⟩, o⟩, -, rfl⟩ := List.mem_map.mp hx
  obtain ⟨⟨⟨s, rs⟩, i⟩, -, rfl⟩ := List.mem_map.mp hy
  rfl

theorem filledStreams_of_keyed {object : Nat} {out : Outgoing}
    (h : ∀ y ∈ out, y.1.keyspace.isSome = true) : filledStreams default object out = out := by
  apply List.ext_getElem?
  intro i
  rw [getElem?_filledStreams]
  cases hi : out[i]? with
  | none => rfl
  | some y => rw [Option.map_some, keyedAt_of_some (h y (List.mem_of_getElem? hi))]

theorem Keyed.filled_eq (h : t.Keyed) (default : Keyspace) : t.filled default = t := by
  have horigins : (t.filled default).origins = t.origins := by
    apply List.ext_getElem?
    intro o
    rw [getElem?_origins_filled]
    cases ho : t.origins[o]? with
    | none => rfl
    | some x => rw [Option.map_some, filledStreams_of_keyed (h x (List.mem_of_getElem? ho))]
  cases t
  exact congrArg StreamTree.mk horigins

theorem Keyed.yields_applyKeyspace (hkeyed : t.Keyed) (ht : t.Grouped) (default : Keyspace)
    (p : Pool) : Yields (t.applyKeyspace default) p t p := by
  have hfilled := hkeyed.filled_eq default
  have hgrouped : (t.filled default).Grouped := hfilled.symm ▸ ht
  have hfold := foldl_insertAll_eq_filled hgrouped
  rw [hfilled] at hfold
  conv => arg 3; rw [← hfold]
  refine yields_foldlM (fun x hx t => yields_foldlM (fun y hy t => ?_) _) _
  simp only [yields_bind_iff, yields_pure_iff]
  have hstream := hkeyed _ (List.fst_mem_of_mem_zipIdx hx) _ (List.fst_mem_of_mem_zipIdx hy)
  exact ⟨_, p, yields_keyed_of_some hstream default p, rfl, rfl⟩

/-- A default keyspace of a layout that is new to the tree leaves senders, streams and receivers in
their places, and changes a stream only by giving it the default with its places if it had no
keyspace. No streams are merged, all have keyspaces, and no further default changes anything. -/
theorem applyKeyspace_fills (ht : t.Built)
    (hfresh : ∀ x ∈ t.origins, ∀ y ∈ x.2, ∀ k ∈ y.1.keyspace, k.layout ≠ default.layout)
    (h : Yields (t.applyKeyspace default) p tree q) :
    tree.originating = t.originating
    ∧ (∀ (o : Nat) origin out, t.origins[o]? = some (origin, out) → ∃ out' : Outgoing,
      tree.origins[o]? = some (origin, out') ∧ out'.map (·.2) = out.map (·.2)
      ∧ ∀ (i : Nat) s rs, out[i]? = some (s, rs) → ∃ s', out'[i]? = some (s', rs)
        ∧ (s.keyspace.isSome = true → s' = s)
        ∧ (s.keyspace = none → s' = s.withKeyspace (default.forPlaces o i)))
    ∧ tree.Separate ∧ tree.Keyed
    ∧ ∀ default' p', Yields (tree.applyKeyspace default') p' tree p' := by
  have hgrouped := (ht.grouped.fillable hfresh).grouped
  obtain rfl := eq_filled_of_yields hgrouped h
  refine ⟨originating_filled default t, ?_, hgrouped.toSeparate, keyed_filled default t, ?_⟩
  · intro o origin out hout
    refine ⟨filledStreams default o out, ?_, receivers_filledStreams default o out, ?_⟩
    · rw [getElem?_origins_filled, hout]
      rfl
    · intro i s rs hs
      refine ⟨keyedAt default o i s, ?_, keyedAt_of_some, keyedAt_of_none⟩
      rw [getElem?_filledStreams, hs]
      rfl
  · intro default' p'
    exact (keyed_filled default t).yields_applyKeyspace hgrouped default' p'

/-- The first sender has a stream with a keyspace between two without. -/
def partlyKeyed : List Expansion :=
  [oneValue 0 2 .one, { oneValue 0 2 .one with keyspace := some ⟨0, []⟩ },
    oneValue 0 1 (.zero false), oneValue 1 2 .one]

/-- One layout in use, and that of the default. -/
def twoLayouts : Pool := ⟨[⟨32, [], false⟩, Keyspace.openStreams 32 8 6 fun _ => 1]⟩

theorem applyKeyspace_fills_partlyKeyed : ∃ t, ofExpansions partlyKeyed = .ok t ∧ t.Built
    ∧ (∀ x ∈ t.origins, ∀ y ∈ x.2, ∀ k ∈ y.1.keyspace, k.layout ≠ 1)
    ∧ ∃ tree q, Yields (t.applyKeyspace ⟨1, []⟩) twoLayouts tree q
      ∧ (tree.streams ⟨0⟩).length = 3 ∧ tree.Separate ∧ tree.Keyed := by
  cases ht : ofExpansions partlyKeyed with
  | error e => cases ht
  | ok t =>
      have hvalue : t = (ofExpansions partlyKeyed).toOption.getD empty := by rw [ht]; rfl
      have hfresh : ∀ x ∈ t.origins, ∀ y ∈ x.2, ∀ k ∈ y.1.keyspace, k.layout ≠ 1 := by
        rw [hvalue]
        decide +kernel
      have happlied : ∃ tree q, Yields (t.applyKeyspace ⟨1, []⟩) twoLayouts tree q
          ∧ (tree.streams ⟨0⟩).length = 3 := by
        rw [hvalue]
        exact exists_yields_of_any (by decide +kernel)
      obtain ⟨tree, q, h, hlength⟩ := happlied
      have hfills := applyKeyspace_fills (.ofExpansions ht) hfresh h
      exact ⟨t, rfl, .ofExpansions ht, hfresh, tree, q, h, hlength, hfills.2.2.1, hfills.2.2.2.1⟩

end StreamTree

end Manycore
