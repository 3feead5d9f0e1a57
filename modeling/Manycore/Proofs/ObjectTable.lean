import Manycore.Object
import Manycore.Proofs.Distinct

/-! # Registered objects

Registrations leave the first object of every number, in order. The next number is one more than the
largest in use, and so it is free; but nothing follows the largest number there is, and a table that
holds it has no next number, however many others are free.
-/

namespace Manycore

/-- Whether two objects have one number. -/
def NetworkObject.sameNumber (a b : NetworkObject) : Bool := decide (a.id = b.id)

theorem NetworkObject.equivalence_sameNumber :
    Equivalence fun a b : NetworkObject => a.sameNumber b = true :=
  equivalence_of_content (·.id) decide_eq_true_iff

namespace ObjectTable

variable {t : ObjectTable} {o : NetworkObject} {id : ObjectId} {os : List NetworkObject}

/-- The numbers in use. -/
def ids (t : ObjectTable) : List ObjectId := t.objects.map (·.id)

theorem contains_iff : t.contains id = true ↔ id ∈ t.ids := by
  rw [contains, find?, List.find?_isSome, ids, List.mem_map]
  simp only [decide_eq_true_eq]

/-- The table after a registration; one that is refused leaves the table as it is. -/
def register (t : ObjectTable) (o : NetworkObject) : ObjectTable :=
  match t.insert o with
  | .ok t' => t'
  | .error _ => t

/-- The table after some registrations, from the empty one on. -/
def registerAll (os : List NetworkObject) : ObjectTable := os.foldl register empty

theorem insert_of_not_contains (h : t.contains o.id = false) :
    t.insert o = .ok ⟨t.objects ++ [o]⟩ := by
  rw [insert, h]
  rfl

theorem objects_register (t : ObjectTable) (o : NetworkObject) : (t.register o).objects
    = if t.objects.any o.sameNumber then t.objects else t.objects ++ [o] := by
  have hany : t.objects.any o.sameNumber = t.contains o.id := by
    rw [Bool.eq_iff_iff, contains_iff, ids, List.mem_map, List.any_eq_true]
    simp only [NetworkObject.sameNumber, decide_eq_true_eq, @eq_comm _ o.id]
  rw [hany]
  cases h : t.contains o.id with
  | true => simp [register, insert, h]
  | false => simp [register, insert_of_not_contains h]

/-- The first object of every number is registered, and no other. -/
theorem objects_registerAll (os : List NetworkObject) :
    (registerAll os).objects = os.eraseDupsBy NetworkObject.sameNumber := by
  induction os using List.reverseRecOn with
  | nil => rfl
  | append_singleton os o ih =>
      have hstep : registerAll (os ++ [o]) = (registerAll os).register o := by
        simp [registerAll]
      rw [hstep, objects_register, ih, eraseDupsBy_append_singleton]

theorem mem_ids_registerAll : id ∈ (registerAll os).ids ↔ id ∈ os.map (·.id) := by
  rw [ids, objects_registerAll, List.mem_map, List.mem_map]
  constructor
  · rintro ⟨o, ho, rfl⟩
    exact ⟨o, mem_of_mem_eraseDupsBy ho, rfl⟩
  · rintro ⟨o, ho, rfl⟩
    obtain ⟨o', ho', hsame⟩ := exists_mem_eraseDupsBy NetworkObject.equivalence_sameNumber ho
    exact ⟨o', ho', (of_decide_eq_true hsame).symm⟩

/-- One more than the largest of some numbers, and zero for none. -/
structure IsNext (next : UInt32) (ids : List ObjectId) : Prop where
  above : ∀ id ∈ ids, id.number < next
  attained : next = 0 ∨ ∃ id ∈ ids, id.number + 1 = next

theorem IsNext.snoc {next : UInt32} {ids : List ObjectId} (h : IsNext next ids)
    (hid : id.number ≠ 0xFFFFFFFF) : IsNext (max next (id.number + 1)) (ids ++ [id]) := by
  have hsucc : id.number < id.number + 1 := UInt32.lt_add_one hid
  constructor
  · intro id' hid'
    rw [UInt32.lt_iff_toNat_lt, UInt32.toNat_max]
    rcases List.mem_append.mp hid' with hold | hnew
    · exact lt_max_of_lt_left (h.above id' hold)
    · obtain rfl := List.mem_singleton.mp hnew
      exact lt_max_of_lt_right hsucc
  · rw [UInt32.max_def]
    split
    · exact .inr ⟨id, by simp, rfl⟩
    · refine h.attained.imp_right ?_
      rintro ⟨id', hold, hnext⟩
      exact ⟨id', List.mem_append_left _ hold, hnext⟩

theorem isNext_foldl {os : List NetworkObject} (h : ∀ o ∈ os, o.id.number ≠ 0xFFFFFFFF) :
    IsNext (os.foldl (fun next o => max next (o.id.number + 1)) 0) (os.map (·.id)) := by
  induction os using List.reverseRecOn with
  | nil => exact ⟨by simp, .inl rfl⟩
  | append_singleton os o ih =>
      rw [List.foldl_append, List.map_append]
      exact (ih fun o' ho' => h o' (by simp [ho'])).snoc (h o (by simp))

theorem nextId?_eq_none_iff : t.nextId? = none ↔ ⟨0xFFFFFFFF⟩ ∈ t.ids := by
  have hlargest : ∀ id : ObjectId, id = ⟨0xFFFFFFFF⟩ ↔ id.number = 0xFFFFFFFF := by
    rintro ⟨number⟩
    rw [ObjectId.mk.injEq]
  simp [nextId?, ids, hlargest]

theorem isNext_of_nextId? (h : t.nextId? = some id) : IsNext id.number t.ids := by
  have hsmall : ∀ o ∈ t.objects, o.id.number ≠ 0xFFFFFFFF := by
    intro o ho hlargest
    have hnone : t.nextId? = none :=
      nextId?_eq_none_iff.mpr (List.mem_map.mpr ⟨o, ho, congrArg ObjectId.mk hlargest⟩)
    rw [h] at hnone
    cases hnone
  rw [nextId?, if_neg (by simpa using hsmall)] at h
  cases h
  exact isNext_foldl hsmall

theorem not_contains_of_isNext (h : IsNext id.number t.ids) : t.contains id = false := by
  rw [← Bool.not_eq_true, contains_iff]
  intro hid
  exact UInt32.lt_irrefl _ (h.above id hid)

/-- Whatever has been registered, and refused, there is a next number unless the largest number there
is has been registered. It is one more than the largest in use, no object has it, and an object with
it is registered behind the others. -/
theorem nextId?_registerAll (os : List NetworkObject) :
    ((registerAll os).nextId? = none ↔ ⟨0xFFFFFFFF⟩ ∈ os.map (·.id))
    ∧ ∀ id, (registerAll os).nextId? = some id →
      IsNext id.number (os.map (·.id)) ∧ (registerAll os).contains id = false
        ∧ ∀ o, o.id = id → (registerAll os).insert o = .ok ⟨(registerAll os).objects ++ [o]⟩ := by
  refine ⟨nextId?_eq_none_iff.trans mem_ids_registerAll, fun id hid => ?_⟩
  have hnext := isNext_of_nextId? hid
  have hfree := not_contains_of_isNext hnext
  refine ⟨⟨?_, ?_⟩, hfree, ?_⟩
  · intro id' hid'
    exact hnext.above id' (mem_ids_registerAll.mpr hid')
  · refine hnext.attained.imp_right ?_
    rintro ⟨id', hid', hattained⟩
    exact ⟨id', mem_ids_registerAll.mp hid', hattained⟩
  · rintro o rfl
    exact insert_of_not_contains hfree

/-- A node with this number. -/
def nodeNumbered (number : UInt32) : NetworkObject := ⟨⟨number⟩, "node", .node, 1, 1, none⟩

/-- With the two largest numbers in use all others are free, and still there is no next one. -/
theorem not_forall_exists_nextId? : ¬ ∀ os : List NetworkObject,
    ∃ id, (registerAll os).nextId? = some id ∧ (registerAll os).contains id = false
      ∧ ∀ o, o.id = id → ∃ t, (registerAll os).insert o = .ok t := by
  intro h
  obtain ⟨id, hid, -⟩ := h [nodeNumbered 0xFFFFFFFE, nodeNumbered 0xFFFFFFFF]
  have hnone : (registerAll [nodeNumbered 0xFFFFFFFE, nodeNumbered 0xFFFFFFFF]).nextId? = none := by
    decide
  rw [hnone] at hid
  cases hid

end ObjectTable

end Manycore
