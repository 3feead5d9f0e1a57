import Manycore.Compiler.Network
import Manycore.Proofs.Compiler.Assembly
import Manycore.Proofs.Groups

/-! # Vertices under their own numbers

Assemblers that make a vertex for the object they are asked about give a compilation vertices that it
finds again under the numbers of their objects. The assemblers of filters do.
-/

namespace Manycore.Compiler

open Keying

variable {c : Compiler} {objects : ObjectTable} {p q : Pool}

/-- Assemblers give an object no vertex or one of its own number. They may refuse an object, but not
for a vertex that is missing. -/
def AssemblesOwn (c : Compiler) (objects : ObjectTable) : Prop :=
  ∀ x ∈ c.assemblers, ∀ o ∈ objects.objects, ∀ context p,
    (∀ v q, Yields (x.2 o context) p (some v) q → v.id = o.id)
      ∧ ∀ id, ¬ Fails (x.2 o context) p (.partition (.unknownVertex id))

section

variable {context : AssemblyContext} {o : NetworkObject} {vertices : Groups ObjectId RegionedVertex}
  (hown : c.AssemblesOwn objects)
include hown

theorem id_of_assembleObject (ho : o ∈ objects.objects) {v : RegionedVertex}
    (h : Yields (c.assembleObject context o) p (some v) q) : v.id = o.id := by
  unfold assembleObject at h
  split at h
  · rename_i assemble hfind
    obtain ⟨kind, hmem, -⟩ := Groups.exists_of_find? hfind
    exact (hown _ hmem o ho context p).1 v q h
  · exact absurd h not_yields_throw

theorem not_fails_assembleObject (ho : o ∈ objects.objects) (id : ObjectId) :
    ¬ Fails (c.assembleObject context o) p (.partition (.unknownVertex id)) := by
  unfold assembleObject
  split
  · rename_i assemble hfind
    obtain ⟨kind, hmem, -⟩ := Groups.exists_of_find? hfind
    exact (hown _ hmem o ho context p).2 id
  · rw [fails_throw_iff]
    exact fun h => nomatch h

theorem id_of_assembleAll (h : Yields (c.assembleAll context objects) p vertices q) :
    ∀ v ∈ vertices, v.2.id = v.1 := by
  simp only [assembleAll, yields_bind_iff, yields_pure_iff] at h
  obtain ⟨results, _, hresults, rfl, -⟩ := h
  intro v hv
  obtain ⟨result, hresult, hsome⟩ := List.mem_filterMap.mp hv
  obtain ⟨o, ho, p', q', hstep⟩ := exists_left_of_forall₂ (forall₂_of_yields_mapM hresults) hresult
  simp only [yields_bind_iff, yields_pure_iff] at hstep
  obtain ⟨vertex, _, hassemble, hresult', -⟩ := hstep
  rw [hsome, Option.map_eq_some_iff] at hresult'
  obtain ⟨w, rfl, rfl⟩ := hresult'
  exact id_of_assembleObject hown ho hassemble

theorem not_fails_assembleAll (id : ObjectId) :
    ¬ Fails (c.assembleAll context objects) p (.partition (.unknownVertex id)) := by
  unfold assembleAll
  rw [fails_bind_iff]
  rintro (hall | ⟨_, _, -, hpure⟩)
  · obtain ⟨o, ho, p', hstep⟩ := exists_of_fails_mapM hall
    rcases fails_bind_iff.mp hstep with hassemble | ⟨_, _, -, hpure⟩
    · exact not_fails_assembleObject hown ho id hassemble
    · exact not_fails_pure hpure
  · exact not_fails_pure hpure

end

section

variable {e : PartitionError}

theorem not_fails_keyspacesWithDimensions {origin : ObjectId} {ss : List Stream} :
    ¬ Fails (keyspacesWithDimensions origin ss) p (.partition e) := by
  have hstream (s : Stream) (p : Pool) : ¬ Fails (s.keyspaces origin) p (.partition e) := by
    unfold Stream.keyspaces
    split
    · simp [fails_throw_iff]
    · apply not_fails_mapM
      intro d hd p
      simp [fails_mapError_iff]
  unfold keyspacesWithDimensions
  rw [fails_bind_iff]
  rintro (hall | ⟨_, _, -, hpure⟩)
  · exact not_fails_mapM (fun s _ p => hstream s p) hall
  · exact not_fails_pure hpure

theorem not_fails_routes {object : ObjectId} {streams : Groups Filter (List (Option Keyspace))} :
    ¬ Fails (ValueFilter.routes object streams) p (.partition e) := by
  have hroute (filter : Nat) (k : Option Keyspace) (p : Pool) :
      ¬ Fails (ValueFilter.route object filter k) p (.partition e) := by
    unfold ValueFilter.route
    split
    · simp [fails_throw_iff]
    · simp only [fails_bind_iff, fails_mapError_iff, not_fails_pure, reduceCtorEq, and_false,
        exists_false, or_false, not_false_eq_true]
  unfold ValueFilter.routes
  rw [fails_bind_iff]
  rintro (hall | ⟨_, _, -, hpure⟩)
  · refine not_fails_mapM (fun x _ p => ?_) hall
    exact not_fails_mapM fun k _ p => hroute x.2 k p
  · exact not_fails_pure hpure

theorem not_fails_assemble (f : ValueFilter) (o : NetworkObject) (context : AssemblyContext) :
    ¬ Fails (f.assemble o context) p (.partition e) := by
  unfold ValueFilter.assemble
  rw [fails_bind_iff]
  rintro (hkeys | ⟨keys, mid, -, h⟩)
  · exact not_fails_keyspacesWithDimensions hkeys
  · split at h
    · simp [fails_throw_iff] at h
    · simp only [fails_bind_iff, fails_ofExcept_mapError_iff, not_fails_routes, not_fails_pure,
        reduceCtorEq, and_false, exists_false, or_false] at h

theorem id_of_assemble {f : ValueFilter} {o : NetworkObject} {context : AssemblyContext}
    {v : RegionedVertex} {q : Pool} (h : Yields (f.assemble o context) p (some v) q) :
    v.id = o.id := by
  obtain ⟨_, _, _, _, _, _, -, -, -, -, -, hvertex⟩ := ValueFilter.exists_of_yields_assemble h
  cases hvertex
  rfl

theorem assemblesOwn_of_filters (h : ∀ x ∈ c.assemblers, ∃ f, x.2 = ValueFilter.assemble f) :
    c.AssemblesOwn objects := by
  intro x hx o _ context p
  obtain ⟨f, hf⟩ := h x hx
  rw [hf]
  exact ⟨fun v q => id_of_assemble, fun id => not_fails_assemble f o context⟩

end

end Manycore.Compiler
