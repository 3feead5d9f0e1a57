import Manycore.Proofs.Keyspace.Bindings
import Manycore.Proofs.Keyspace.Placement

/-! # One rendering

Keys and masks are rendered alike: select fields, fix the ones involved, put the bits together.
`Rendering` says all that one rendering can do. From it follow the two facts that later renderings
rest on: layouts only grow, and what was rendered from a layout is rendered again from any that it
grows to.
-/

namespace Manycore.Keyspace

inductive Output where
  | key
  | mask
  deriving DecidableEq

/-- Whether the field is fixed before the output is rendered: for the key of a tag when it has the
tag, otherwise when it is enabled. -/
def Field.isInvolved (f : Field) (b : Bindings) : Output → Selector → Bool
  | .key, .tag tag => f.isEnabled b && f.tags.contains tag
  | _, _ => f.isEnabled b

/-- The selected fields whose value a key lacks. -/
def Output.missing (b : Bindings) : Output → List String → List String
  | .key, selected => selected.filter fun name => (b.get? name).isNone
  | .mask, _ => []

theorem Field.isEnabled_of_isInvolved {f : Field} {b : Bindings} {output : Output}
    {selector : Selector} (h : f.isInvolved b output selector = true) : f.isEnabled b = true := by
  unfold isInvolved at h
  split at h
  · exact (Bool.and_eq_true _ _ ▸ h).1
  · exact h

theorem Field.GrowsTo.isInvolved {f g : Field} (h : f.GrowsTo g) (b : Bindings) (output : Output)
    (selector : Selector) : g.isInvolved b output selector = f.isInvolved b output selector := by
  cases output <;> cases selector <;> simp only [Field.isInvolved, h.isEnabled, h.tags]

namespace Layout

def render (l : Layout) (b : Bindings) : Output → Selector → Except KeyError Nat × Layout
  | .key, selector => l.renderKey b selector
  | .mask, selector => l.renderMask b selector

/-- The names of the fields that are fixed first. -/
def needed (l : Layout) (b : Bindings) (output : Output) (selector : Selector) : List String :=
  (l.fields.filter fun x => x.2.isInvolved b output selector).map (·.1)

def bits (l : Layout) (b : Bindings) : Output → List String → Nat
  | .key, selected => l.keyBits b selected
  | .mask, selected => l.maskBits selected

/-- The rendering gets as far as fixing fields. -/
structure Assigns (l : Layout) (b : Bindings) (output : Output) (selector : Selector)
    (selected : List String) : Prop where
  select : l.select b selector = .ok selected
  missing : output.missing b selected = []

/-- What a rendering answers and the layout that it leaves. -/
inductive Rendering (l : Layout) (b : Bindings) (output : Output) (selector : Selector) :
    Except KeyError Nat → Layout → Prop where
  | refused {e} : (∀ selected, ¬ l.Assigns b output selector selected) →
    (∀ cause, e ≠ .conflict cause) → Rendering l b output selector (.error e) l
  | blocked {selected cause fields} : l.Assigns b output selector selected →
    Placing l.width ((l.needed b output selector).contains ·) (l.occupied b) l.fields (some cause)
      fields →
    Rendering l b output selector (.error (.conflict cause)) { l with fields }
  | rendered {selected fields} : l.Assigns b output selector selected →
    Placing l.width ((l.needed b output selector).contains ·) (l.occupied b) l.fields none fields →
    Rendering l b output selector (.ok (bits { l with fields } b output selected))
      { l with fields, frozen := true }

section

variable {l : Layout} {b : Bindings} {output : Output} {selector : Selector}
  {selected : List String}

theorem contains_needed_of_mem {x : String × Field} (hx : x ∈ l.fields)
    (hinvolved : x.2.isInvolved b output selector = true) :
    (l.needed b output selector).contains x.1 = true :=
  List.contains_iff_mem.mpr (List.mem_map_of_mem (List.mem_filter.mpr ⟨hx, hinvolved⟩))

theorem exists_of_contains_needed {name : String}
    (h : (l.needed b output selector).contains name = true) :
    ∃ x ∈ l.fields, x.1 = name ∧ x.2.isInvolved b output selector = true := by
  obtain ⟨x, hx, hname⟩ := List.mem_map.mp (List.contains_iff_mem.mp h)
  obtain ⟨hx, hinvolved⟩ := List.mem_filter.mp hx
  exact ⟨x, hx, hname, hinvolved⟩

theorem select_ne_conflict {e : KeyError} (h : l.select b selector = .error e)
    (cause : FieldConflict) : e ≠ .conflict cause := by
  rintro rfl
  cases selector with
  | all => cases h
  | tag tag =>
      simp only [select] at h
      split at h <;> cases h
  | field name =>
      simp only [select, available] at h
      split at h
      · cases h
      · split at h <;> cases h

theorem neededForKey_eq (h : l.select b selector = .ok selected) :
    l.neededForKey b selected selector = l.needed b .key selector := by
  cases selector with
  | all => rfl
  | field name => rfl
  | tag tag =>
      simp only [select] at h
      split at h
      · cases h
      · cases h
        simp only [neededForKey, enabled, needed, List.filter_filter, Field.isInvolved]
        congr 2
        funext x
        exact Bool.and_comm _ _

theorem render_key_eq (h : l.Assigns b .key selector selected) :
    l.render b .key selector = match l.assign b (l.needed b .key selector) with
      | (some conflict, l) => (.error (.conflict conflict), l)
      | (none, l) => (.ok (l.keyBits b selected), { l with frozen := true }) := by
  have hmissing : (selected.filter fun name => (b.get? name).isNone) = [] := h.missing
  rcases hassign : l.assign b (l.needed b .key selector) with ⟨_ | conflict, l'⟩ <;>
    simp only [render, renderKey, h.select, hmissing, neededForKey_eq h.select, hassign]

theorem render_mask_eq (h : l.Assigns b .mask selector selected) :
    l.render b .mask selector = match l.assign b (l.needed b .mask selector) with
      | (some conflict, l) => (.error (.conflict conflict), l)
      | (none, l) => (.ok (l.maskBits selected), { l with frozen := true }) := by
  have hneeded : (l.enabled b).map (·.1) = l.needed b .mask selector := by
    cases selector <;> rfl
  rcases hassign : l.assign b (l.needed b .mask selector) with ⟨_ | conflict, l'⟩ <;>
    simp only [render, renderMask, h.select, hneeded, hassign]

/-- Once it gets as far as fixing fields, a rendering depends on the pass alone. -/
theorem render_eq_of_assigns (h : l.Assigns b output selector selected) :
    l.render b output selector = match l.assign b (l.needed b output selector) with
      | (some conflict, l) => (.error (.conflict conflict), l)
      | (none, l) => (.ok (l.bits b output selected), { l with frozen := true }) := by
  cases output with
  | key => exact render_key_eq h
  | mask => exact render_mask_eq h

theorem render_eq_of_not_assigns (h : ∀ selected, ¬ l.Assigns b output selector selected) :
    ∃ e, (∀ cause, e ≠ .conflict cause) ∧ l.render b output selector = (.error e, l) := by
  cases hselect : l.select b selector with
  | error e =>
      refine ⟨e, select_ne_conflict hselect, ?_⟩
      cases output <;> simp only [render, renderKey, renderMask, hselect]
  | ok selected =>
      cases output with
      | mask => exact absurd ⟨hselect, rfl⟩ (h selected)
      | key =>
          cases hmissing : selected.filter fun name => (b.get? name).isNone with
          | nil => exact absurd ⟨hselect, hmissing⟩ (h selected)
          | cons first more =>
              refine ⟨.incomplete (first :: more), fun _ => nofun, ?_⟩
              simp only [render, renderKey, hselect, hmissing]

end

theorem render_rendering (l : Layout) (b : Bindings) (output : Output) (selector : Selector) :
    Rendering l b output selector (l.render b output selector).1
      (l.render b output selector).2 := by
  by_cases hassigns : ∃ selected, l.Assigns b output selector selected
  · obtain ⟨selected, hassigns⟩ := hassigns
    have hpass := placeAll_placing l.width ((l.needed b output selector).contains ·)
      (l.occupied b) l.fields
    rw [render_eq_of_assigns hassigns]
    simp only [assign]
    cases hplace : placeAll l.width ((l.needed b output selector).contains ·) (l.occupied b)
        l.fields with
    | mk conflict fields =>
        rw [hplace] at hpass
        cases conflict with
        | none => exact .rendered hassigns hpass
        | some cause => exact .blocked hassigns hpass
  · have hnone := not_exists.mp hassigns
    obtain ⟨e, he, hrender⟩ := render_eq_of_not_assigns hnone
    rw [hrender]
    exact .refused hnone he

theorem rendering_of_render {l l' : Layout} {b : Bindings} {output : Output} {selector : Selector}
    {answer : Except KeyError Nat} (h : l.render b output selector = (answer, l')) :
    Rendering l b output selector answer l' := by
  have hrendering := render_rendering l b output selector
  rwa [h] at hrendering

end Layout

end Manycore.Keyspace
