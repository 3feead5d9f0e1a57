import Manycore.Proofs.Keyspace.WellFormed

/-! # Rendered keys and masks are final

What was rendered once is rendered again, whatever was asked of the layout in between. A rendering
that found no room for a field finds none later either, unless the field was given its position
under other bindings, where some of the bits that are taken here could not be seen.
-/

namespace Manycore.Keyspace

open List (Forall₂)

namespace Layout

variable {l l' : Layout} {b : Bindings} {output : Output} {selector : Selector}
  {selected : List String}

/-- Nothing that the rendering rests on can change any more. -/
structure Settled (l : Layout) (b : Bindings) (output : Output) (selector : Selector)
    (selected : List String) : Prop where
  frozen : l.frozen = true
  assigns : l.Assigns b output selector selected
  fits : ∀ x ∈ l.fields, (l.needed b output selector).contains x.1 = true →
    fits l.width x.2 = true

theorem settled_of_rendering {v : Nat} (h : Rendering l b output selector (.ok v) l') :
    ∃ selected, l'.Settled b output selector selected ∧ v = l'.bits b output selected := by
  cases h with
  | @rendered selected fields hassigns hpass =>
      have hgrown := hpass.forall₂_grown
      refine ⟨selected, ⟨rfl, hassigns.of_forall₂ hgrown, ?_⟩, by cases output <;> rfl⟩
      intro y hy hneeded
      obtain ⟨x, hx, hname, hplaced⟩ := exists_left_of_forall₂ hpass.forall₂_fits hy
      rw [needed_of_forall₂ hgrown, hname] at hneeded
      obtain ⟨taken, -, -, hfits⟩ := hplaced hneeded
      exact hfits

theorem exists_of_mem_selected (h : l.select b selector = .ok selected) (output : Output)
    {name : String} (hname : name ∈ selected) :
    ∃ f, l.find? name = some f ∧ (l.needed b output selector).contains name = true := by
  have hinvolved : ∃ x ∈ l.fields, x.1 = name ∧ x.2.isInvolved b output selector = true := by
    cases selector with
    | all =>
        cases h
        obtain ⟨x, hx, rfl⟩ := List.mem_map.mp hname
        obtain ⟨hx, henabled⟩ := List.mem_filter.mp hx
        exact ⟨x, hx, rfl, by cases output <;> exact henabled⟩
    | tag tag =>
        simp only [select] at h
        split at h
        · cases h
        · cases h
          obtain ⟨x, hx, rfl⟩ := List.mem_map.mp hname
          obtain ⟨hx, htag⟩ := List.mem_filter.mp hx
          obtain ⟨hx, henabled⟩ := List.mem_filter.mp hx
          refine ⟨x, hx, rfl, ?_⟩
          cases output with
          | key => exact Bool.and_eq_true_iff.mpr ⟨henabled, htag⟩
          | mask => exact henabled
    | field wanted =>
        simp only [select, available] at h
        split at h
        · cases h
        · rename_i f hfind
          split at h
          · rename_i henabled
            cases h
            cases List.mem_singleton.mp hname
            exact ⟨_, mem_of_find? hfind, rfl, by cases output <;> exact henabled⟩
          · cases h
  obtain ⟨x, hx, hname, hinvolved⟩ := hinvolved
  cases hfind : l.find? name with
  | none => exact absurd hname (find?_eq_none_iff.mp hfind x hx)
  | some f => exact ⟨f, rfl, hname ▸ contains_needed_of_mem hx hinvolved⟩

namespace Settled

theorem of_growsTo (h : l.Settled b output selector selected) (hgrow : l.GrowsTo l') :
    l'.Settled b output selector selected where
  frozen := hgrow.frozen h.frozen
  assigns := h.assigns.of_forall₂ (hgrow.forall₂ h.frozen)
  fits := by
    intro y hy hneeded
    obtain ⟨x, hx, hname, hgrows⟩ := exists_left_of_forall₂ (hgrow.forall₂ h.frozen) hy
    rw [needed_of_forall₂ (hgrow.forall₂ h.frozen), hname] at hneeded
    rw [hgrow.width]
    exact fits_of_growsTo hgrows (h.fits x hx hneeded)

theorem bits_eq (h : l.Settled b output selector selected) (hgrow : l.GrowsTo l') :
    l'.bits b output selected = l.bits b output selected := by
  have hfield : ∀ name ∈ selected, ∃ f g, l.find? name = some f ∧ l'.find? name = some g
      ∧ f.GrowsTo g ∧ f.IsFixed := by
    intro name hname
    obtain ⟨f, hf, hneeded⟩ := exists_of_mem_selected h.assigns.select output hname
    obtain ⟨g, hg, hgrows⟩ := hgrow.find? hf
    exact ⟨f, g, hf, hg, hgrows, isFixed_of_fits (h.fits _ (mem_of_find? hf) hneeded)⟩
  cases output with
  | key =>
      refine List.foldl_ext _ _ _ fun key name hname => ?_
      obtain ⟨f, g, hf, hg, hgrows, hfixed⟩ := hfield name hname
      obtain ⟨length, start, hlength, hstart⟩ := hfixed.bounds
      simp only [hf, hg, Option.bind_some, hstart, hgrows.start start hstart]
  | mask =>
      refine List.foldl_ext _ _ _ fun mask name hname => ?_
      obtain ⟨f, g, hf, hg, hgrows, hfixed⟩ := hfield name hname
      simp only [hf, hg, Option.map_some, hgrows.mask hfixed]

theorem render_eq (h : l.Settled b output selector selected) :
    l.render b output selector = (.ok (l.bits b output selected), l) := by
  have hassign : l.assign b (l.needed b output selector) = (none, l) := by
    simp only [assign, placeAll_of_fits h.fits]
  obtain ⟨width, fields, frozen⟩ := l
  cases h.frozen
  simp only [render_eq_of_assigns h.assigns, hassign]

/-- Everything that `b` enables is fixed once the mask of it all has been rendered. -/
theorem enabled_fits (h : l.Settled b .mask .all selected) :
    ∀ x ∈ l.enabled b, Layout.fits l.width x.2 = true := by
  intro x hx
  obtain ⟨hx, henabled⟩ := List.mem_filter.mp hx
  exact h.fits x hx (contains_needed_of_mem hx henabled)

theorem key_of_mask (h : l.Settled b .mask .all selected)
    (hbound : ∀ x ∈ l.enabled b, (b.get? x.1).isSome = true) :
    l.Settled b .key .all ((l.enabled b).map (·.1)) := by
  refine ⟨h.frozen, ⟨rfl, List.filter_eq_nil_iff.mpr fun name hname => ?_⟩, h.fits⟩
  obtain ⟨x, hx, rfl⟩ := List.mem_map.mp hname
  simpa [Option.isSome_iff_ne_none] using hbound x hx

theorem isSome_get? (h : l.Settled b .key selector selected) {name : String}
    (hname : name ∈ selected) : (b.get? name).isSome = true := by
  have hmissing := List.filter_eq_nil_iff.mp h.assigns.missing name hname
  simpa [Option.isSome_iff_ne_none] using hmissing

/-- The selected fields of a key hold their values when these were noted. -/
theorem holds (h : l.Settled b .key selector selected) (hsized : l.Sized) (hnotes : l.Notes b) :
    ∀ name ∈ selected, ∃ f length start v, l.Holds b name f length start v := by
  intro name hname
  obtain ⟨f, hfind, hneeded⟩ := exists_of_mem_selected h.assigns.select .key hname
  obtain ⟨v, hget⟩ := Option.isSome_iff_exists.mp (h.isSome_get? hname)
  have hfits := h.fits _ (mem_of_find? hfind) hneeded
  obtain ⟨length, start, hholds⟩ := hsized.exists_holds hnotes hfind hfits hget
  exact ⟨f, length, start, v, hholds⟩

end Settled

/-- What has been rendered is rendered again, and nothing is changed by it. -/
theorem render_again {v : Nat} (h : (l.render b output selector).1 = .ok v)
    (hgrow : (l.render b output selector).2.GrowsTo l') :
    l'.render b output selector = (.ok v, l') := by
  obtain ⟨selected, hsettled, rfl⟩ :=
    settled_of_rendering (h ▸ render_rendering l b output selector)
  rw [(hsettled.of_growsTo hgrow).render_eq, hsettled.bits_eq hgrow]

/-- A field to be fixed for the output does not fit, or has no window in the bits taken. -/
def Stuck (l : Layout) (b : Bindings) (output : Output) (selector : Selector) (name : String) :
    Prop :=
  ∃ f length, (name, f) ∈ l.fields ∧ f.isInvolved b output selector = true
    ∧ f.length = some length ∧ (∀ start, f.start = some start → l.width < start + length)
    ∧ (f.start = none → firstFit? l.width (l.occupied b) length = none)

theorem Stuck.render_ne_ok {name : String} (h : l.Stuck b output selector name) (v : Nat) :
    (l.render b output selector).1 ≠ .ok v := by
  intro hok
  have hrendering := render_rendering l b output selector
  rw [hok] at hrendering
  obtain ⟨f, length, hmem, hinvolved, hlength, houtside, hnone⟩ := h
  generalize (l.render b output selector).2 = l' at hrendering
  cases hrendering with
  | rendered hassigns hpass =>
      obtain ⟨y, -, -, hplaced⟩ := exists_right_of_forall₂ hpass.forall₂_fits hmem
      obtain ⟨taken, hcovers, hy, hfits⟩ := hplaced (contains_needed_of_mem hmem hinvolved)
      obtain ⟨length', start, hlength', hstart, hle⟩ := fits_iff.mp hfits
      have hfixed : f.fixedLength = length := by simp [Field.fixedLength, hlength]
      rw [hy, placeField_length, hfixed] at hlength'
      cases hlength'
      rw [hy] at hstart
      cases hopen : f.start with
      | some start' =>
          rw [(placeField_growsTo _ _ f).start start' hopen] at hstart
          cases hstart
          have hlt := houtside start hopen
          omega
      | none =>
          have hfull := firstFit?_eq_none_of_covers hcovers (hnone hopen)
          simp [placeField, hopen, hfixed, hfull] at hstart

theorem stuck_of_rendering {cause : FieldConflict} (hnames : (l.fields.map (·.1)).Nodup)
    (h : Rendering l b output selector (.error (.conflict cause)) l') :
    ∃ name length, cause = .noRoom name length l.width ∧ l'.Stuck b output selector name := by
  cases h with
  | refused _ hother => exact absurd rfl (hother cause)
  | @blocked selected cause fields hassigns hpass =>
      obtain ⟨name, f, taken, hmem, hwanted, hcause, hfits, htaken⟩ := hpass.exists_of_some
      have hgrown : Forall₂ SameGrown l.fields (Layout.mk l.width fields l.frozen).fields :=
        hpass.forall₂_grown
      have hinvolved := isInvolved_of_contains_needed hgrown hnames hmem hwanted
      refine ⟨name, f.fixedLength, hcause, placeField l.width taken f, f.fixedLength, hmem,
        hinvolved, placeField_length _ _ f, ?_, ?_⟩
      · intro start hstart
        by_contra hle
        have hyes := fits_iff.mpr ⟨f.fixedLength, start, placeField_length _ _ f, hstart,
          Nat.not_lt.mp hle⟩
        rw [hyes] at hfits
        cases hfits
      · intro hopen
        have hunplaced : f.start = none := by
          cases hstart : f.start with
          | none => rfl
          | some start => simp [placeField, hstart] at hopen
        refine firstFit?_eq_none_of_covers (a := taken) ?_ ?_
        · intro bit hbit
          rcases htaken bit hbit with hold | ⟨x, hx, hwanted, hmask⟩
          · exact (Rendering.blocked hassigns hpass).growsTo.covers_occupied b bit hold
          · have hinvolved := isInvolved_of_contains_needed hgrown hnames hx hwanted
            exact testBit_occupied.mpr ⟨x, hx, Field.isEnabled_of_isInvolved hinvolved, hmask⟩
        · simpa [placeField, hunplaced] using hopen

/-- The request gives the field its position under bindings that hide a fixed field which `b`
enables. -/
def PlacesUnseen (b : Bindings) (name : String) : Family.Rule := fun l at' request =>
  ∃ f g, (name, f) ∈ l.fields ∧ f.start = none ∧ (name, g) ∈ (l.after at' request).fields
    ∧ g.start.isSome = true
    ∧ ∃ x ∈ l.fields, x.2.IsFixed ∧ x.2.isEnabled b = true ∧ x.2.isEnabled at' = false

theorem not_placesUnseen {at' : Bindings} {request : Request} {name : String}
    (hnames : (l.fields.map (·.1)).Nodup)
    (hrequest : ∀ output selector, request ≠ .render output selector) :
    ¬ PlacesUnseen b name l at' request := by
  rintro ⟨f, g, hf, hopen, hg, hplaced, -⟩
  have hold : ∀ x ∈ l.fields, x.1 = name → x.2.start ≠ g.start := by
    intro x hx hname hstart
    cases eq_of_mem_fields hnames hx hf hname
    simp [← hstart, hopen] at hplaced
  have hstep := after_step l at' request
  generalize l.after at' request = l' at hstep hg
  generalize l.derived at' request = derived at hstep
  cases hstep with
  | kept => exact hold _ hg rfl rfl
  | added hfree =>
      obtain ⟨-, hfresh, -⟩ := addConflict?_eq_none_iff.mp hfree
      rcases List.mem_append.mp hg with hg | hg
      · exact hold _ hg rfl rfl
      · cases List.mem_singleton.mp hg
        exact contains_eq_false_iff.mp hfresh _ hf rfl
  | bound =>
      obtain ⟨x, hx, hname, hfield⟩ := exists_left_of_forall₂ (forall₂_noteValues l _) hg
      exact hold x hx hname.symm (by rw [show g = _ from hfield])
  | rendered => exact hrequest _ _ rfl

theorem Stuck.after {name : String} {at' : Bindings} {request : Request}
    (h : l.Stuck b output selector name) (hseen : ¬ PlacesUnseen b name l at' request) :
    (l.after at' request).Stuck b output selector name := by
  obtain ⟨f, length, hmem, hinvolved, hlength, houtside, hnone⟩ := h
  have hstep := after_step l at' request
  have hgrow := hstep.growsTo
  obtain ⟨⟨other, g⟩, hg, ⟨hname, hgrows⟩, hstart⟩ := hstep.exists_next hmem
  simp only at hname hgrows hstart
  subst hname
  refine ⟨g, length, hg, (hgrows.isInvolved b output selector).trans hinvolved,
    hgrows.length length hlength, ?_, ?_⟩
  · intro start hplaced
    rw [hgrow.width]
    cases hopen : f.start with
    | some start' =>
        rw [hgrows.start start' hopen] at hplaced
        cases hplaced
        exact houtside start hopen
    | none =>
        rcases hstart with hsame | ⟨taken, hcovers, hy⟩
        · simp [hsame, hopen] at hplaced
        · exfalso
          -- the window that was found is free in all bits taken here, since all were seen
          have htaken : Covers (l.occupied b) taken := by
            intro bit hbit
            obtain ⟨x, hx, henabled, hmask⟩ := testBit_occupied.mp hbit
            refine hcovers bit (testBit_occupied.mpr ⟨x, hx, ?_, hmask⟩)
            by_contra hhidden
            refine hseen ⟨f, g, hmem, hopen, hg, by simp [hplaced], x, hx, ?_, henabled,
              by simpa using hhidden⟩
            by_contra hunfixed
            simp [Field.mask_of_not_isFixed hunfixed] at hmask
          have hfull := firstFit?_eq_none_of_covers htaken (hnone hopen)
          have hg' : g = placeField l.width taken f := congrArg Prod.snd hy
          rw [hg'] at hplaced
          simp [placeField, hopen, Field.fixedLength, hlength, hfull] at hplaced
  · intro hopen
    have hunplaced : f.start = none := by
      cases hstart' : f.start with
      | none => rfl
      | some start => simp [hgrows.start start hstart'] at hopen
    rw [hgrow.width]
    exact firstFit?_eq_none_of_covers (hgrow.covers_occupied b) (hnone hunplaced)

end Layout

namespace Family

variable {fam : Family} {b : Bindings} {output : Output} {selector : Selector}

theorem Stuck.reaches {start : Family} {name : String}
    (h : start.layout.Stuck b output selector name)
    (hreach : Reaches (fun l at' request => ¬ Layout.PlacesUnseen b name l at' request) start fam) :
    fam.layout.Stuck b output selector name := by
  induction hreach with
  | refl => exact h
  | ask _ _ hseen ih => exact ih.after hseen

/-- A key or mask that has been rendered stays as it is, whatever is asked of any keyspace of the
family. One for which a field found no room is not rendered later, unless that field gets its
position from a keyspace under which not all bits that are taken here can be seen. -/
theorem rendered_final {width : Nat} {l : Layout} (hnew : Layout.ofWidth width = .ok l)
    (hreach : Reaches anything (root l) fam) :
    (∀ v, (fam.layout.render b output selector).1 = .ok v →
      ∀ later, Reaches anything (fam.ask b (.render output selector)) later →
        (later.layout.render b output selector).1 = .ok v)
    ∧ ∀ cause, (fam.layout.render b output selector).1 = .error (.conflict cause) →
      ∃ name length, cause = .noRoom name length width ∧
        ∀ later, Reaches (fun l at' request => ¬ Layout.PlacesUnseen b name l at' request)
          (fam.ask b (.render output selector)) later →
          ∀ v, (later.layout.render b output selector).1 ≠ .ok v := by
  constructor
  · intro v hok later hlater
    exact congrArg Prod.fst (Layout.render_again hok hlater.growsTo)
  · intro cause hconflict
    have hrendering := Layout.render_rendering fam.layout b output selector
    rw [hconflict] at hrendering
    have hnames := (hreach.wellFormed (wellFormed_root hnew)).names
    obtain ⟨name, length, hcause, hstuck⟩ := Layout.stuck_of_rendering hnames hrendering
    have hwidth : fam.layout.width = width := by
      obtain ⟨-, rfl⟩ := Layout.ofWidth_eq_ok_iff.mp hnew
      exact hreach.growsTo.width
    refine ⟨name, length, hwidth ▸ hcause, fun later hlater v => ?_⟩
    exact (Stuck.reaches hstuck hlater).render_ne_ok v

/-- Requests after which `f` has no room beside `g` while `t` is 0, but has some while `t` is 1,
where `g` does not exist. -/
def shadowingRequests : List (Nat × Request) :=
  [(0, .add ((FieldSpec.named "t").placed 7 1)),
   (0, .bind [("t", 0)]),
   (1, .add ((FieldSpec.named "g").placed 0 7)),
   (0, .add { FieldSpec.named "f" with length := some 4 }),
   (0, .bind [("t", 1)])]

/-- The family of eight bits that these requests lead to. -/
def shadowed : Family := (root ⟨8, [], false⟩).play shadowingRequests

theorem reaches_shadowed : Reaches anything (root ⟨8, [], false⟩) shadowed :=
  reaches_play _ (by decide) fun _ _ _ _ _ => trivial

theorem rendered_final_shadowed :
    (∀ later, Reaches anything (shadowed.ask [("t", 1)] (.render .mask .all)) later →
      (later.layout.render [("t", 1)] .mask .all).1 = .ok 143)
    ∧ ∃ name length, FieldConflict.noRoom "f" 4 8 = .noRoom name length 8 ∧
      ∀ later, Reaches (fun l at' request => ¬ Layout.PlacesUnseen [("t", 0)] name l at' request)
        (shadowed.ask [("t", 0)] (.render .mask .all)) later →
        ∀ v, (later.layout.render [("t", 0)] .mask .all).1 ≠ .ok v := by
  have hone := (@rendered_final shadowed [("t", 1)] .mask .all 8 _ rfl reaches_shadowed).1
  have hnone := (@rendered_final shadowed [("t", 0)] .mask .all 8 _ rfl reaches_shadowed).2
  exact ⟨hone 143 (by decide), hnone _ (by decide)⟩

/-- A field that found no room may find some later. -/
theorem conflict_not_final : ¬ ∀ width l fam b output selector cause later v,
    Layout.ofWidth width = .ok l → Reaches anything (root l) fam → b ∈ fam.members →
    (fam.layout.render b output selector).1 = .error (.conflict cause) →
    Reaches anything (fam.ask b (.render output selector)) later →
    (later.layout.render b output selector).1 ≠ .ok v := by
  intro h
  have hlater : Reaches anything (shadowed.ask [("t", 0)] (.render .mask .all))
      ((shadowed.ask [("t", 0)] (.render .mask .all)).play [(2, .render .mask .all)]) :=
    reaches_play _ (by decide) fun _ _ _ _ _ => trivial
  exact h 8 _ shadowed [("t", 0)] .mask .all (.noRoom "f" 4 8) _ 255 rfl reaches_shadowed (by decide)
    (by decide) hlater (by decide)

end Family

end Manycore.Keyspace
