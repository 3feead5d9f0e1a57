import Manycore.Proofs.Keyspace.Bindings
import Manycore.Proofs.Keyspace.Growth

/-! # Adding and binding

What is known of a layout and of bindings when an operation on them has succeeded: all that was
checked, and what it made of the layout.
-/

namespace Manycore.Keyspace.Layout

theorem contains_eq_true_iff {l : Layout} {name : String} :
    l.contains name = true ↔ ∃ f, l.find? name = some f :=
  Option.isSome_iff_exists

theorem contains_eq_false_iff {l : Layout} {name : String} :
    l.contains name = false ↔ ∀ x ∈ l.fields, x.1 ≠ name := by
  rw [contains, Option.isSome_eq_false_iff, Option.isNone_iff_eq_none, find?_eq_none_iff]

theorem ofWidth_eq_ok_iff {width : Nat} {l : Layout} :
    ofWidth width = .ok l ↔ (0 < width ∧ width ≤ 64) ∧ ⟨width, [], false⟩ = l := by
  unfold ofWidth
  split
  · rename_i hwidth
    simp [hwidth]
  · rename_i hwidth
    simp [hwidth]

/-- The field that a specification asks for, under these bindings. -/
def added (b : Bindings) (spec : FieldSpec) : String × Field :=
  (spec.name, {
    length := spec.length
    start := spec.start
    tags := spec.tags
    conditions := b
    maxValue := 1 })

/-- A position is free when no field that may be met there takes part of it. -/
theorem overlap?_eq_none_iff {l : Layout} {b : Bindings} {start stop : Nat} :
    l.overlap? b start stop = none ↔ ∀ x ∈ l.fields, ∀ otherStart, x.2.start = some otherStart →
      x.2.mayMeet b = true → stop ≤ otherStart ∨ otherStart + x.2.length.getD 1 ≤ start := by
  rw [overlap?, List.findSome?_eq_none_iff]
  refine forall₂_congr fun x _ => ?_
  dsimp only
  cases hstart : x.2.start with
  | none => simp
  | some otherStart =>
      simp only [Option.some.injEq, forall_eq', ite_eq_right_iff, reduceCtorEq, imp_false,
        Bool.and_eq_true, decide_eq_true_eq]
      constructor
      · intro h hmeet
        by_contra hboth
        exact h ⟨⟨hmeet, by omega⟩, by omega⟩
      · rintro h ⟨⟨hmeet, hbefore⟩, hafter⟩
        have hapart := h hmeet
        omega

theorem positionConflict?_eq_none_iff {l : Layout} {b : Bindings} {spec : FieldSpec} {start : Nat} :
    l.positionConflict? b spec start = none ↔
      start + spec.length.getD 1 ≤ l.width
        ∧ l.overlap? b start (start + spec.length.getD 1) = none := by
  simp only [positionConflict?]
  split
  · simp only [reduceCtorEq, false_iff, not_and]
    omega
  · rw [Option.map_eq_none_iff]
    exact ⟨fun h => ⟨by omega, h⟩, fun h => h.2⟩

theorem addConflict?_eq_none_iff {l : Layout} {b : Bindings} {spec : FieldSpec} :
    l.addConflict? b spec = none ↔
      l.frozen = false ∧ l.contains spec.name = false ∧ spec.length ≠ some 0
        ∧ ∀ start, spec.start = some start → l.positionConflict? b spec start = none := by
  simp only [addConflict?]
  cases l.frozen <;> cases l.contains spec.name <;> by_cases hzero : spec.length = some 0 <;>
    simp [hzero, Option.bind_eq_none_iff]

theorem add_eq_ok_iff {l l' : Layout} {b : Bindings} {spec : FieldSpec} :
    l.add b spec = .ok l' ↔
      l.addConflict? b spec = none ∧ { l with fields := l.fields ++ [added b spec] } = l' := by
  unfold add
  cases hconflict : l.addConflict? b spec with
  | some cause => simp
  | none => simp only [Except.ok.injEq, true_and, added]

theorem exists_error_of_add_iff {l : Layout} {b : Bindings} {spec : FieldSpec} :
    (∃ e, l.add b spec = .error e) ↔ l.addConflict? b spec ≠ none := by
  unfold add
  cases hconflict : l.addConflict? b spec with
  | some cause => simp
  | none => simp

theorem growsTo_of_add {l l' : Layout} {b : Bindings} {spec : FieldSpec}
    (h : l.add b spec = .ok l') : l.GrowsTo l' := by
  obtain ⟨hconflict, rfl⟩ := add_eq_ok_iff.mp h
  obtain ⟨hopen, _⟩ := addConflict?_eq_none_iff.mp hconflict
  refine ⟨rfl, id, l.fields, [added b spec], rfl, List.forall₂_same.mpr fun _ _ => .refl _, ?_⟩
  intro hfrozen
  exact absurd hfrozen (by simp [hopen])

theorem gather_cons_eq_ok_iff {l : Layout} {b gathered values : Bindings} {x : String × Nat}
    {rest : List (String × Nat)} : l.gather b gathered (x :: rest) = .ok values ↔
      (l.contains x.1 = true ∧ b.get? x.1 = none ∧ gathered.get? x.1 = none)
        ∧ l.gather b (gathered.insert x.1 x.2) rest = .ok values := by
  simp only [gather]
  cases l.contains x.1 <;> cases b.get? x.1 <;> cases gathered.get? x.1 <;> simp

/-- What is gathered are the pairs, none of which may name a field twice. -/
theorem gather_eq_ok_iff {l : Layout} {b gathered values : Bindings} {pairs : List (String × Nat)} :
    l.gather b gathered pairs = .ok values ↔ (pairs.map (·.1)).Nodup
      ∧ (∀ x ∈ pairs, l.contains x.1 = true ∧ b.get? x.1 = none ∧ gathered.get? x.1 = none)
      ∧ gathered.merge pairs = values := by
  induction pairs generalizing gathered with
  | nil => simp [gather, Bindings.merge]
  | cons x rest ih =>
      have hrest : (∀ y ∈ rest, l.contains y.1 = true ∧ b.get? y.1 = none
            ∧ (gathered.insert x.1 x.2).get? y.1 = none) ↔
          x.1 ∉ rest.map (·.1) ∧ ∀ y ∈ rest, l.contains y.1 = true ∧ b.get? y.1 = none
            ∧ gathered.get? y.1 = none := by
        simp only [List.mem_map, not_exists, not_and, ← forall₂_and, Bindings.get?_insert]
        refine forall₂_congr fun y _ => ?_
        by_cases heq : x.1 = y.1 <;> simp [heq, Ne.symm]
      rw [gather_cons_eq_ok_iff, ih, hrest, List.map_cons, List.nodup_cons, List.forall_mem_cons,
        show gathered.merge (x :: rest) = (gathered.insert x.1 x.2).merge rest from rfl]
      tauto

theorem unavailable?_eq_none_iff {l : Layout} {b : Bindings} :
    l.unavailable? b = none ↔
      ∀ pair ∈ b, ∀ f, l.find? pair.1 = some f → f.isEnabled b = true := by
  rw [unavailable?, List.findSome?_eq_none_iff]
  refine forall₂_congr fun pair _ => ?_
  dsimp only
  cases hfind : l.find? pair.1 <;> simp

theorem tooLarge?_eq_none_iff {l : Layout} {values : Bindings} :
    l.tooLarge? values = none ↔ ∀ pair ∈ values, ∀ f, l.find? pair.1 = some f →
      ∀ length, f.length = some length → pair.2 ≤ ones length := by
  rw [tooLarge?, List.findSome?_eq_none_iff]
  refine forall₂_congr fun pair _ => ?_
  dsimp only
  cases hfind : l.find? pair.1 with
  | none => simp
  | some f =>
      simp only [Option.bind_some, Option.some.injEq, forall_eq']
      cases f.length <;> simp

/-- All that is checked before new values are put on top of `b`. -/
structure Binds (l : Layout) (b : Bindings) (values all : Bindings) : Prop where
  sorted : values.Sorted
  fresh : ∀ name v, values.get? name = some v → l.contains name = true ∧ b.get? name = none
  merged : all = b.merge values
  enabled : ∀ pair ∈ all, ∀ f, l.find? pair.1 = some f → f.isEnabled all = true
  room : ∀ pair ∈ values, ∀ f, l.find? pair.1 = some f → ∀ length, f.length = some length →
    pair.2 ≤ ones length

/-- Only fields of the layout are bound. -/
def Registers (l : Layout) (b : Bindings) : Prop :=
  ∀ name v, b.get? name = some v → l.contains name = true

theorem registers_of_enabled {l : Layout} {b : Bindings}
    (h : ∀ name v, b.get? name = some v → ∃ f, l.find? name = some f ∧ f.isEnabled b = true) :
    l.Registers b := by
  intro name v hget
  obtain ⟨f, hfind, -⟩ := h name v hget
  exact contains_eq_true_iff.mpr ⟨f, hfind⟩

theorem Binds.exists_enabled {l : Layout} {b values all : Bindings} (h : l.Binds b values all)
    (hb : l.Registers b) {name : String} {v : Nat} (hget : all.get? name = some v) :
    ∃ f, l.find? name = some f ∧ f.isEnabled all = true := by
  have hknown : l.contains name = true := by
    rw [h.merged, Bindings.get?_merge h.sorted, Option.or_eq_some_iff] at hget
    rcases hget with hnew | ⟨-, hold⟩
    · exact (h.fresh name v hnew).1
    · exact hb name v hold
  obtain ⟨f, hfind⟩ := contains_eq_true_iff.mp hknown
  exact ⟨f, hfind, h.enabled _ (Bindings.mem_of_get? hget) f hfind⟩

/-- Binding gathers the pairs, makes the checks on them and notes their values. -/
theorem bind_eq_ok_iff {l l' : Layout} {b all : Bindings} {pairs : List (String × Nat)} :
    l.bind b pairs = .ok (all, l') ↔ ∃ values, l.gather b [] pairs = .ok values
      ∧ l.unavailable? (b.merge values) = none ∧ l.tooLarge? values = none
      ∧ b.merge values = all ∧ l.noteValues values = l' := by
  simp only [bind]
  cases l.gather b [] pairs with
  | error fault => simp
  | ok values =>
      simp only [Except.ok.injEq, exists_eq_left']
      cases l.unavailable? (b.merge values) <;> cases l.tooLarge? values <;> simp

theorem exists_fault_of_bind {l : Layout} {b : Bindings} {pairs : List (String × Nat)}
    {e : KeyError} (h : l.bind b pairs = .error e) : ∃ fault, e = .binding fault := by
  simp only [bind] at h
  split at h
  · cases h
    exact ⟨_, rfl⟩
  · split at h
    · cases h
      exact ⟨_, rfl⟩
    · split at h
      · cases h
        exact ⟨_, rfl⟩
      · cases h

theorem binds_of_bind {l l' : Layout} {b all : Bindings} {pairs : List (String × Nat)}
    (h : l.bind b pairs = .ok (all, l')) :
    ∃ values, l.Binds b values all ∧ l' = l.noteValues values := by
  obtain ⟨values, hgather, havailable, hroom, rfl, rfl⟩ := bind_eq_ok_iff.mp h
  obtain ⟨hnodup, hknown, rfl⟩ := gather_eq_ok_iff.mp hgather
  refine ⟨_, ?_, rfl⟩
  exact {
    sorted := Bindings.sorted_merge .nil pairs
    fresh := fun name v hget => by
      rcases Bindings.mem_merge (Bindings.mem_of_get? hget) with hnone | hpair
      · cases hnone
      · obtain ⟨hcontains, hunbound, -⟩ := hknown _ hpair
        exact ⟨hcontains, hunbound⟩
    merged := rfl
    enabled := unavailable?_eq_none_iff.mp havailable
    room := tooLarge?_eq_none_iff.mp hroom }

theorem bind_eq_ok {l : Layout} {b values all : Bindings} (h : l.Binds b values all) :
    l.bind b values = .ok (all, l.noteValues values) := by
  have hgather : l.gather b [] values = .ok values := by
    refine gather_eq_ok_iff.mpr ⟨h.sorted.nodup, fun pair hpair => ?_, Bindings.merge_nil h.sorted⟩
    obtain ⟨hcontains, hunbound⟩ := h.fresh _ _ (Bindings.get?_of_mem h.sorted hpair)
    exact ⟨hcontains, hunbound, rfl⟩
  refine bind_eq_ok_iff.mpr
    ⟨values, hgather, ?_, tooLarge?_eq_none_iff.mpr h.room, h.merged.symm, rfl⟩
  rw [← h.merged]
  exact unavailable?_eq_none_iff.mpr h.enabled

theorem noteValues_eq (l : Layout) (values : Bindings) :
    l.noteValues values = { l with
      fields := l.fields.map fun x =>
        (x.1, { x.2 with maxValue := max x.2.maxValue ((values.get? x.1).getD 0) }) } := by
  simp only [noteValues]
  congr 1
  refine List.map_congr_left fun x _ => ?_
  cases values.get? x.1 <;> simp

theorem noteValues_congr {l : Layout} {values values' : Bindings}
    (h : ∀ name, values.get? name = values'.get? name) :
    l.noteValues values = l.noteValues values' := by
  simp only [noteValues_eq, h]

theorem noteValues_nil (l : Layout) : l.noteValues [] = l := by
  simp [noteValues_eq]

theorem forall₂_noteValues (l : Layout) (values : Bindings) :
    List.Forall₂ (fun x y => y.1 = x.1 ∧
      y.2 = { x.2 with maxValue := max x.2.maxValue ((values.get? x.1).getD 0) })
      l.fields (l.noteValues values).fields := by
  rw [noteValues_eq, List.forall₂_map_right_iff]
  exact List.forall₂_same.mpr fun _ _ => ⟨rfl, rfl⟩

theorem forall₂_grown_noteValues (l : Layout) (values : Bindings) :
    List.Forall₂ SameGrown l.fields (l.noteValues values).fields := by
  refine (forall₂_noteValues l values).imp ?_
  rintro ⟨name, f⟩ ⟨other, g⟩ ⟨hname, hg⟩
  simp only at hname hg
  subst hg
  exact ⟨hname, rfl, rfl, Nat.le_max_left _ _, fun _ h => h, fun _ h => h⟩

theorem growsTo_noteValues (l : Layout) (values : Bindings) : l.GrowsTo (l.noteValues values) :=
  .of_forall₂ rfl id (forall₂_grown_noteValues l values)

theorem find?_noteValues (l : Layout) (values : Bindings) (name : String) :
    (l.noteValues values).find? name = (l.find? name).map fun f =>
      { f with maxValue := max f.maxValue ((values.get? name).getD 0) } := by
  rw [noteValues_eq]
  simp only [find?, List.find?_map, Option.map_map, Function.comp_def]
  cases hfind : l.fields.find? fun x => x.1 = name with
  | none => rfl
  | some x =>
      have hname : x.1 = name := by simpa using List.find?_some hfind
      simp only [Option.map_some, hname]

theorem contains_noteValues (l : Layout) (values : Bindings) (name : String) :
    (l.noteValues values).contains name = l.contains name := by
  simp [contains, find?_noteValues]

/-- The field has been told of every value. -/
def Notes (l : Layout) (b : Bindings) : Prop :=
  ∀ name v, b.get? name = some v → ∃ f, l.find? name = some f ∧ v ≤ f.maxValue

theorem Notes.of_growsTo {l l' : Layout} {b : Bindings} (h : l.Notes b) (hgrow : l.GrowsTo l') :
    l'.Notes b := by
  intro name v hget
  obtain ⟨f, hfind, hle⟩ := h name v hget
  obtain ⟨g, hg, hgrows⟩ := hgrow.find? hfind
  exact ⟨g, hg, Nat.le_trans hle hgrows.maxValue⟩

theorem bind_one {l l' : Layout} {b all : Bindings} {name : String} {v : Nat}
    (h : l.bind b [(name, v)] = .ok (all, l')) :
    all = b.insert name v ∧ l' = l.noteValues [(name, v)] ∧ b.get? name = none
      ∧ ∃ f, l.find? name = some f ∧ ∀ length, f.length = some length → v ≤ ones length := by
  obtain ⟨values, hgather, -, hroom, rfl, rfl⟩ := bind_eq_ok_iff.mp h
  obtain ⟨-, hknown, rfl⟩ := gather_eq_ok_iff.mp hgather
  obtain ⟨hcontains, hunbound, -⟩ := hknown (name, v) List.mem_cons_self
  obtain ⟨f, hfind⟩ := contains_eq_true_iff.mp hcontains
  refine ⟨rfl, rfl, hunbound, f, hfind, ?_⟩
  exact tooLarge?_eq_none_iff.mp hroom (name, v) List.mem_cons_self f hfind

theorem Notes.bind_one {l l' : Layout} {b all : Bindings} {name : String} {v : Nat}
    (hnotes : l.Notes b) (h : l.bind b [(name, v)] = .ok (all, l')) : l'.Notes all := by
  obtain ⟨rfl, rfl, -, f, hfind, -⟩ := Layout.bind_one h
  intro other u hget
  rw [Bindings.get?_insert] at hget
  split at hget
  · rename_i hname
    subst hname
    cases hget
    rw [find?_noteValues, hfind]
    refine ⟨_, rfl, ?_⟩
    simp only [Bindings.get?_cons, if_true, Option.getD_some]
    exact Nat.le_max_right _ _
  · exact hnotes.of_growsTo (growsTo_noteValues l _) other u hget

end Manycore.Keyspace.Layout
