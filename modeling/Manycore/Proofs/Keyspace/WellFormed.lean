import Manycore.Proofs.Keyspace.Sizing

/-! # Families of one width

What holds of a layout and of all keyspaces on it after any requests: a field is as large as the
largest value bound to it, a length that is fixed has room for all those values, and a keyspace
binds only fields that exist under it.
-/

namespace Manycore.Keyspace.Family

open List (Forall₂)

theorem largest_append (name : String) (members : List Bindings) (b : Bindings) :
    largest name (members ++ [b]) = max (largest name members) ((b.get? name).getD 0) := by
  simp [largest]

theorem le_foldl_max {α : Type} (value : α → Nat) (xs : List α) (most : Nat) :
    most ≤ xs.foldl (fun most x => max most (value x)) most
      ∧ ∀ x ∈ xs, value x ≤ xs.foldl (fun most x => max most (value x)) most := by
  induction xs generalizing most with
  | nil => simp
  | cons x rest ih =>
      obtain ⟨hmost, hrest⟩ := ih (max most (value x))
      simp only [List.foldl_cons, List.forall_mem_cons]
      exact ⟨by omega, by omega, hrest⟩

theorem one_le_largest (name : String) (members : List Bindings) : 1 ≤ largest name members :=
  (le_foldl_max (fun b => (Bindings.get? b name).getD 0) members 1).1

theorem le_largest {members : List Bindings} {b : Bindings} (hb : b ∈ members) {name : String}
    {v : Nat} (hget : b.get? name = some v) : v ≤ largest name members := by
  have hle := (le_foldl_max (fun b => (Bindings.get? b name).getD 0) members 1).2 b hb
  rwa [hget] at hle

theorem largest_eq_one {name : String} {members : List Bindings}
    (h : ∀ b ∈ members, b.get? name = none) : largest name members = 1 := by
  unfold largest
  induction members with
  | nil => rfl
  | cons b rest ih =>
      simp only [List.foldl_cons, h b List.mem_cons_self, Option.getD_none]
      exact ih fun b hb => h b (List.mem_cons_of_mem _ hb)

structure WellFormed (fam : Family) : Prop where
  width : fam.layout.width ≤ 64
  names : (fam.layout.fields.map (·.1)).Nodup
  /-- A fixed length has room for everything bound to the field. -/
  room : ∀ x ∈ fam.layout.fields, ∀ n, x.2.length = some n → x.2.maxValue < twoTo n
  largest : ∀ x ∈ fam.layout.fields, x.2.maxValue = largest x.1 fam.members
  sorted : ∀ b ∈ fam.members, b.Sorted
  /-- Bound fields are registered, and enabled where they are bound. -/
  bound : ∀ b ∈ fam.members, ∀ name v, b.get? name = some v →
    ∃ f, fam.layout.find? name = some f ∧ f.isEnabled b = true

theorem wellFormed_root {width : Nat} {l : Layout} (h : Layout.ofWidth width = .ok l) :
    (root l).WellFormed := by
  have hsized := Layout.sized_of_ofWidth h
  obtain ⟨-, rfl⟩ := Layout.ofWidth_eq_ok_iff.mp h
  exact {
    width := hsized.width
    names := hsized.names
    room := hsized.room
    largest := fun x hx => nomatch hx
    sorted := fun b hb => by
      cases List.mem_singleton.mp hb
      exact List.Pairwise.nil
    bound := fun b hb name v hget => by
      cases List.mem_singleton.mp hb
      cases hget }

theorem exists_enabled_of_growsTo {l l' : Layout} (h : l.GrowsTo l') {b : Bindings} {name : String}
    (hold : ∃ f, l.find? name = some f ∧ f.isEnabled b = true) :
    ∃ f, l'.find? name = some f ∧ f.isEnabled b = true := by
  obtain ⟨f, hfind, henabled⟩ := hold
  obtain ⟨g, hg, hgrows⟩ := h.find? hfind
  exact ⟨g, hg, (hgrows.isEnabled b).trans henabled⟩

namespace WellFormed

variable {fam : Family} {b : Bindings}

theorem sized (h : fam.WellFormed) : fam.layout.Sized := ⟨h.width, h.names, h.room⟩

theorem registers (h : fam.WellFormed) (hb : b ∈ fam.members) : fam.layout.Registers b :=
  Layout.registers_of_enabled (h.bound b hb)

theorem added (h : fam.WellFormed) {spec : FieldSpec}
    (hfree : fam.layout.addConflict? b spec = none) :
    WellFormed ⟨{ fam.layout with fields := fam.layout.fields ++ [Layout.added b spec] },
      fam.members ++ []⟩ := by
  have hgrow := Layout.growsTo_of_add (Layout.add_eq_ok_iff.mpr ⟨hfree, rfl⟩)
  have hsized := h.sized.added hfree
  obtain ⟨-, hfresh, -, -⟩ := Layout.addConflict?_eq_none_iff.mp hfree
  rw [Layout.contains_eq_false_iff] at hfresh
  rw [List.append_nil]
  exact {
    width := hsized.width
    names := hsized.names
    room := hsized.room
    largest := fun x hx => by
      rcases List.mem_append.mp hx with hx | hx
      · exact h.largest x hx
      · cases List.mem_singleton.mp hx
        refine (largest_eq_one fun c hc => ?_).symm
        cases hget : c.get? spec.name with
        | none => exact hget
        | some v =>
            obtain ⟨f, hfind, -⟩ := h.bound c hc spec.name v hget
            exact absurd rfl (hfresh _ (Layout.mem_of_find? hfind))
    sorted := h.sorted
    bound := fun c hc name v hget => exists_enabled_of_growsTo hgrow (h.bound c hc name v hget) }

theorem bindsAll (h : fam.WellFormed) (hb : b ∈ fam.members) {values all : Bindings}
    (hbinds : fam.layout.Binds b values all) :
    WellFormed ⟨fam.layout.noteValues values, fam.members ++ [all]⟩ := by
  have hpairs := Layout.forall₂_noteValues fam.layout values
  have hgrow := Layout.growsTo_noteValues fam.layout values
  have hget : ∀ name, all.get? name = (values.get? name).or (b.get? name) := by
    intro name
    rw [hbinds.merged, Bindings.get?_merge hbinds.sorted]
  have hsized := h.sized.bound hbinds
  exact {
    width := hsized.width
    names := hsized.names
    room := hsized.room
    largest := fun y hy => by
      obtain ⟨x, hx, hname, hy⟩ := exists_left_of_forall₂ hpairs hy
      rw [hy, hname, largest_append, h.largest x hx, hget]
      cases hvalue : values.get? x.1 with
      | some v => rfl
      | none =>
          cases hold : b.get? x.1 with
          | none => rfl
          | some v =>
              have hle := le_largest hb hold
              simp only [Option.none_or, Option.getD_some, Option.getD_none]
              omega
    sorted := fun c hc => by
      rcases List.mem_append.mp hc with hc | hc
      · exact h.sorted c hc
      · cases List.mem_singleton.mp hc
        rw [hbinds.merged]
        exact Bindings.sorted_merge (h.sorted b hb) values
    bound := fun c hc name v hcget => by
      refine exists_enabled_of_growsTo hgrow ?_
      rcases List.mem_append.mp hc with hc | hc
      · exact h.bound c hc name v hcget
      · cases List.mem_singleton.mp hc
        exact hbinds.exists_enabled (h.registers hb) hcget }

theorem renders (h : fam.WellFormed) {output : Output} {selector : Selector}
    {answer : Except KeyError Nat} {l' : Layout}
    (hrendering : Layout.Rendering fam.layout b output selector answer l') :
    WellFormed ⟨l', fam.members ++ []⟩ := by
  have hgrow := hrendering.growsTo
  have hsized := h.sized.rendered hrendering
  rw [List.append_nil]
  exact {
    width := hsized.width
    names := hsized.names
    room := hsized.room
    largest := fun y hy => by
      obtain ⟨x, hx, hxy⟩ := exists_left_of_forall₂ hrendering.forall₂_placed hy
      rcases hxy with rfl | ⟨-, taken, -, rfl⟩
      · exact h.largest _ hx
      · exact h.largest x hx
    sorted := h.sorted
    bound := fun c hc name v hget => exists_enabled_of_growsTo hgrow (h.bound c hc name v hget) }

theorem ask (h : fam.WellFormed) (hb : b ∈ fam.members) (request : Request) :
    (fam.ask b request).WellFormed := by
  have hstep := Layout.after_step fam.layout b request
  simp only [Family.ask]
  generalize fam.layout.after b request = l' at hstep ⊢
  generalize fam.layout.derived b request = derived at hstep ⊢
  cases hstep with
  | kept =>
      rw [List.append_nil]
      exact h
  | added hfree => exact h.added hfree
  | bound hbinds => exact h.bindsAll hb hbinds
  | rendered hrendering => exact h.renders hrendering

end WellFormed

theorem WellFormed.get?_eq_none {fam : Family} {b : Bindings} (h : fam.WellFormed)
    (hb : b ∈ fam.members) {name : String} (hname : name ∉ fam.layout.fields.map (·.1)) :
    b.get? name = none := by
  cases hget : b.get? name with
  | none => rfl
  | some v =>
      obtain ⟨f, hfind, -⟩ := h.bound b hb name v hget
      exact absurd (List.mem_map_of_mem (Layout.mem_of_find? hfind)) hname

theorem WellFormed.length_pos {fam : Family} (h : fam.WellFormed) {x : String × Field}
    (hx : x ∈ fam.layout.fields) {length : Nat} (hlength : x.2.length = some length) :
    0 < length := by
  have hroom := h.room x hx length hlength
  have hone := one_le_largest x.1 fam.members
  rw [h.largest x hx] at hroom
  rcases Nat.eq_zero_or_pos length with rfl | hpos
  · exact absurd (Nat.lt_of_le_of_lt hone hroom) (Nat.lt_irrefl 1)
  · exact hpos

theorem WellFormed.notes {fam : Family} {b : Bindings} (h : fam.WellFormed) (hb : b ∈ fam.members) :
    fam.layout.Notes b := by
  intro name v hget
  obtain ⟨f, hfind, -⟩ := h.bound b hb name v hget
  refine ⟨f, hfind, ?_⟩
  rw [h.largest _ (Layout.mem_of_find? hfind)]
  exact le_largest hb hget

/-- A bound field that is placed holds its value in every key. -/
theorem WellFormed.exists_holds {fam : Family} {b : Bindings} (h : fam.WellFormed)
    (hb : b ∈ fam.members) {name : String} {f : Field} (hfind : fam.layout.find? name = some f)
    (hfits : Layout.fits fam.layout.width f = true) {v : Nat} (hget : b.get? name = some v) :
    ∃ length start, fam.layout.Holds b name f length start v :=
  h.sized.exists_holds (h.notes hb) hfind hfits hget

theorem Reaches.wellFormed {rule : Rule} {start fam : Family} (h : Reaches rule start fam)
    (hstart : start.WellFormed) : fam.WellFormed := by
  induction h with
  | refl => exact hstart
  | ask _ hb _ ih => exact ih.ask hb _

end Manycore.Keyspace.Family
