import Manycore.Proofs.Keyspace.Rendering
import Mathlib.Data.List.Basic

/-! # Layouts that grow

A layout is never taken back: fields stay in their places, what is fixed of them stays fixed, and
new fields come behind. A frozen layout gets no new fields, so what is selected from it cannot
change either.
-/

namespace Manycore.Keyspace

open List (Forall₂)

namespace Layout

/-- What may have become of a layout after any number of operations. -/
structure GrowsTo (l l' : Layout) : Prop where
  width : l'.width = l.width
  frozen : l.frozen = true → l'.frozen = true
  fields : ∃ old new, l'.fields = old ++ new ∧ Forall₂ SameGrown l.fields old
    ∧ (l.frozen = true → new = [])

theorem mem_of_find? {l : Layout} {name : String} {f : Field} (h : l.find? name = some f) :
    (name, f) ∈ l.fields := by
  obtain ⟨x, hx, rfl⟩ := Option.map_eq_some_iff.mp h
  have hname : x.1 = name := by simpa using List.find?_some hx
  exact hname ▸ List.mem_of_find?_eq_some hx

theorem find?_of_mem {l : Layout} (hnames : (l.fields.map (·.1)).Nodup) {x : String × Field}
    (h : x ∈ l.fields) : l.find? x.1 = some x.2 := by
  obtain ⟨width, fields, frozen⟩ := l
  simp only [find?] at hnames h ⊢
  induction fields with
  | nil => cases h
  | cons y rest ih =>
      simp only [List.map_cons, List.nodup_cons] at hnames
      rcases List.mem_cons.mp h with rfl | hx
      · simp
      · have hne : y.1 ≠ x.1 := by
          intro heq
          exact hnames.1 (heq ▸ List.mem_map_of_mem hx)
        simpa [List.find?_cons, hne] using ih hnames.2 hx

theorem eq_of_mem_fields {l : Layout} (hnames : (l.fields.map (·.1)).Nodup) {x y : String × Field}
    (hx : x ∈ l.fields) (hy : y ∈ l.fields) (hname : x.1 = y.1) : x = y := by
  have hfind := find?_of_mem hnames hx
  rw [hname, find?_of_mem hnames hy] at hfind
  exact Prod.ext hname (Option.some.inj hfind).symm

theorem find?_eq_none_iff {l : Layout} {name : String} :
    l.find? name = none ↔ ∀ x ∈ l.fields, x.1 ≠ name := by
  simp [find?, List.find?_eq_none]

theorem find?_grown {fields grown : List (String × Field)} {name : String} {f : Field}
    (new : List (String × Field)) (h : Forall₂ SameGrown fields grown)
    (hfind : (fields.find? fun x => x.1 = name).map (·.2) = some f) :
    ∃ g, ((grown ++ new).find? fun x => x.1 = name).map (·.2) = some g ∧ f.GrowsTo g := by
  induction h with
  | nil => cases hfind
  | @cons x y _ _ hxy _ ih =>
      obtain ⟨hname, hgrows⟩ := hxy
      by_cases heq : x.1 = name
      · simp only [List.find?_cons, heq, decide_true, Option.map_some, Option.some.injEq] at hfind
        subst hfind
        exact ⟨y.2, by simp [hname, heq], hgrows⟩
      · simp only [List.find?_cons, heq, decide_false] at hfind
        simpa [List.find?_cons, hname, heq] using ih hfind

namespace GrowsTo

theorem of_forall₂ {l l' : Layout} (hwidth : l'.width = l.width)
    (hfrozen : l.frozen = true → l'.frozen = true) (h : Forall₂ SameGrown l.fields l'.fields) :
    l.GrowsTo l' :=
  ⟨hwidth, hfrozen, l'.fields, [], (List.append_nil _).symm, h, fun _ => rfl⟩

theorem refl (l : Layout) : l.GrowsTo l :=
  of_forall₂ rfl id (List.forall₂_same.mpr fun _ _ => .refl _)

theorem trans {l m n : Layout} (hlm : l.GrowsTo m) (hmn : m.GrowsTo n) : l.GrowsTo n := by
  obtain ⟨old, new, hm, hold, hnew⟩ := hlm.fields
  obtain ⟨grown, added, hn, hgrown, hadded⟩ := hmn.fields
  rw [hm] at hgrown
  obtain ⟨old', new', rfl, hold', hnew'⟩ := exists_append_of_forall₂ hgrown
  refine ⟨hmn.width.trans hlm.width, hmn.frozen ∘ hlm.frozen, old', new' ++ added, ?_, ?_, ?_⟩
  · rw [hn, List.append_assoc]
  · exact forall₂_trans SameGrown (fun _ _ _ => SameGrown.trans) hold hold'
  · intro hfrozen
    rw [hnew hfrozen] at hnew'
    cases hnew'
    rw [hadded (hlm.frozen hfrozen), List.append_nil]

theorem forall₂ {l l' : Layout} (h : l.GrowsTo l') (hfrozen : l.frozen = true) :
    Forall₂ SameGrown l.fields l'.fields := by
  obtain ⟨old, new, hfields, hold, hnew⟩ := h.fields
  rw [hfields, hnew hfrozen, List.append_nil]
  exact hold

theorem exists_grown {l l' : Layout} (h : l.GrowsTo l') {x : String × Field} (hx : x ∈ l.fields) :
    ∃ y ∈ l'.fields, SameGrown x y := by
  obtain ⟨old, new, hfields, hold, _⟩ := h.fields
  obtain ⟨y, hy, hxy⟩ := exists_right_of_forall₂ hold hx
  exact ⟨y, hfields ▸ List.mem_append_left new hy, hxy⟩

theorem find? {l l' : Layout} (h : l.GrowsTo l') {name : String} {f : Field}
    (hfind : l.find? name = some f) : ∃ g, l'.find? name = some g ∧ f.GrowsTo g := by
  obtain ⟨old, new, hfields, hold, _⟩ := h.fields
  simp only [Layout.find?, hfields]
  exact find?_grown new hold hfind

end GrowsTo

theorem testBit_occupied {l : Layout} {b : Bindings} {bit : Nat} :
    (l.occupied b).testBit bit = true ↔
      ∃ x ∈ l.fields, x.2.isEnabled b = true ∧ x.2.mask.testBit bit = true := by
  simp only [occupied, testBit_foldl_or, enabled, Nat.zero_testBit, Bool.false_or, List.any_eq_true,
    List.mem_filter, and_assoc]

theorem GrowsTo.covers_occupied {l l' : Layout} (h : l.GrowsTo l') (b : Bindings) :
    Covers (l.occupied b) (l'.occupied b) := by
  intro bit hbit
  obtain ⟨x, hx, henabled, hmask⟩ := testBit_occupied.mp hbit
  obtain ⟨y, hy, -, hgrows⟩ := h.exists_grown hx
  exact testBit_occupied.mpr ⟨y, hy, (hgrows.isEnabled b).trans henabled, hgrows.covers bit hmask⟩

section

variable {l l' : Layout} (h : Forall₂ SameGrown l.fields l'.fields)

include h

theorem needed_of_forall₂ (b : Bindings) (output : Output) (selector : Selector) :
    l'.needed b output selector = l.needed b output selector := by
  exact map_filter_eq_of_forall₂ h fun x y hxy => ⟨hxy.2.isInvolved b output selector, hxy.1⟩

theorem isInvolved_of_contains_needed (hnames : (l.fields.map (·.1)).Nodup) {b : Bindings}
    {output : Output} {selector : Selector} {y : String × Field} (hy : y ∈ l'.fields)
    (hneeded : (l.needed b output selector).contains y.1 = true) :
    y.2.isInvolved b output selector = true := by
  obtain ⟨x, hx, hname, hinvolved⟩ := exists_of_contains_needed hneeded
  obtain ⟨z, hz, hsame, hgrows⟩ := exists_left_of_forall₂ h hy
  have hxz : x = z := eq_of_mem_fields hnames hx hz (hname.trans hsame)
  rw [hgrows.isInvolved, ← hxz]
  exact hinvolved

theorem find?_of_forall₂ (name : String) :
    (l'.find? name).map Field.conditions = (l.find? name).map Field.conditions := by
  cases hfind : l.find? name with
  | some f =>
      obtain ⟨g, hg, hgrows⟩ := find?_grown [] h hfind
      rw [List.append_nil] at hg
      simp only [Layout.find?, hg, Option.map_some, hgrows.conditions]
  | none =>
      have hnone : l'.find? name = none := by
        rw [find?_eq_none_iff] at hfind ⊢
        intro y hy
        obtain ⟨x, hx, hname, -⟩ := exists_left_of_forall₂ h hy
        exact hname ▸ hfind x hx
      rw [hnone]

theorem tagged_of_forall₂ (b : Bindings) (tag : String) :
    ((l'.enabled b).filter fun (_, f) => f.tags.contains tag).map (·.1)
      = ((l.enabled b).filter fun (_, f) => f.tags.contains tag).map (·.1) := by
  simp only [enabled, List.filter_filter]
  refine map_filter_eq_of_forall₂ h fun x y hxy => ⟨?_, hxy.1⟩
  simp only [hxy.2.isEnabled, hxy.2.tags]

theorem select_of_forall₂ (b : Bindings) (selector : Selector) :
    l'.select b selector = l.select b selector := by
  cases selector with
  | all =>
      simp only [select, enabled]
      congr 1
      exact map_filter_eq_of_forall₂ h fun x y hxy => ⟨hxy.2.isEnabled b, hxy.1⟩
  | tag tag => simp only [select, tagged_of_forall₂ h b tag]
  | field name =>
      have hconditions := find?_of_forall₂ h name
      simp only [select, available]
      cases hfind : l.find? name with
      | none =>
          rw [hfind] at hconditions
          simp only [Option.map_eq_none_iff.mp hconditions]
      | some f =>
          rw [hfind] at hconditions
          obtain ⟨g, hg, hsame⟩ := Option.map_eq_some_iff.mp hconditions
          have henabled : g.isEnabled b = f.isEnabled b := by
            simp only [Field.isEnabled, hsame]
          simp only [hg, henabled, hsame]
          split <;> rfl

theorem Assigns.of_forall₂ {b : Bindings} {output : Output} {selector : Selector}
    {selected : List String} (hassigns : l.Assigns b output selector selected) :
    l'.Assigns b output selector selected :=
  ⟨(select_of_forall₂ h b selector).trans hassigns.select, hassigns.missing⟩

end

section

variable {l l' : Layout} {b : Bindings} {output : Output} {selector : Selector}
  {answer : Except KeyError Nat}

theorem Rendering.forall₂_grown (h : Rendering l b output selector answer l') :
    Forall₂ SameGrown l.fields l'.fields := by
  cases h with
  | refused => exact List.forall₂_same.mpr fun _ _ => .refl _
  | blocked _ hpass => exact hpass.forall₂_grown
  | rendered _ hpass => exact hpass.forall₂_grown

theorem Rendering.growsTo (h : Rendering l b output selector answer l') : l.GrowsTo l' := by
  cases h with
  | refused => exact .refl l
  | blocked _ hpass => exact .of_forall₂ rfl id hpass.forall₂_grown
  | rendered _ hpass => exact .of_forall₂ rfl (fun _ => rfl) hpass.forall₂_grown

/-- A rendering does to a field nothing but fix it, in bits that are free where it is seen. -/
theorem Rendering.forall₂_placed (h : Rendering l b output selector answer l') :
    Forall₂ (fun x y => y = x ∨ (l.needed b output selector).contains x.1 = true
      ∧ ∃ taken, Covers (l.occupied b) taken ∧ y = (x.1, placeField l.width taken x.2))
      l.fields l'.fields := by
  cases h with
  | refused => exact List.forall₂_same.mpr fun _ _ => Or.inl rfl
  | blocked _ hpass => exact hpass.forall₂_placed
  | rendered _ hpass => exact hpass.forall₂_placed

end

end Layout

end Manycore.Keyspace
