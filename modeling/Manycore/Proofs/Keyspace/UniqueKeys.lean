import Manycore.Proofs.Keyspace.StreamRoutes

/-! # Keys that no two values share

Of the keyspaces on a layout of streams, those that bind just the four fields of streams have a key
only while no other field is in it. So whatever else was asked of the layout before, such keys are
made of four fields that lie apart, and two of them are equal for equal values alone.
-/

namespace Manycore.Keyspace

variable {w sb db : Nat} {l : Layout} {b b' : Bindings} {key : Nat}

/-- A layout of streams, and whatever became of it. -/
structure StreamBased (w sb db : Nat) (l : Layout) : Prop where
  sized : l.Sized
  grown : ∃ most, (openStreams w sb db most).GrowsTo l
  /-- While there is no other field that every keyspace has, those of streams lie apart. -/
  laidOut : (∀ x ∈ l.fields, x.2.conditions = [] → x.1 ∈ streamNames) →
    LaidOut l.width [] l.fields

namespace StreamBased

theorem of_openStreams (h : StreamBounds w sb db) :
    StreamBased w sb db (openStreams w sb db fun _ => 1) where
  sized := (wellFormed_openStreams h).sized
  grown := ⟨_, .refl _⟩
  laidOut _ := laidOut_openStreams h _ []

theorem exists_field (h : StreamBased w sb db l) {name : String} (hname : name ∈ streamNames) :
    ∃ f, l.find? name = some f ∧ f.conditions = [] := by
  obtain ⟨most, hgrown⟩ := h.grown
  have hopen : ∃ f, (openStreams w sb db most).find? name = some f ∧ f.conditions = [] := by
    simp only [streamNames, List.mem_cons, List.not_mem_nil, or_false] at hname
    rcases hname with rfl | rfl | rfl | rfl <;> exact ⟨_, rfl, rfl⟩
  obtain ⟨f, hfind, hconditions⟩ := hopen
  obtain ⟨g, hg, hgrows⟩ := hgrown.find? hfind
  exact ⟨g, hg, hgrows.conditions.trans hconditions⟩

/-- A request sees all fields that every keyspace has; one that adds such a field adds one that is
none of streams. -/
theorem seesAll_after (h : StreamBased w sb db l) (b : Bindings) (request : Request)
    (hnames : ∀ x ∈ (l.after b request).fields, x.2.conditions = [] → x.1 ∈ streamNames) :
    l.after b request = l ∨ SeesAll [] l b request := by
  refine or_iff_not_imp_left.mpr fun hchanged => ⟨?_, ?_⟩
  · rintro spec rfl hroot
    cases hadd : l.add b spec with
    | error e =>
        exact absurd (by simp only [Layout.after, hadd]) hchanged
    | ok l' =>
        exfalso
        obtain ⟨hfree, rfl⟩ := Layout.add_eq_ok_iff.mp hadd
        obtain ⟨-, hfresh, -⟩ := Layout.addConflict?_eq_none_iff.mp hfree
        simp only [Layout.after, hadd] at hnames
        have hname : spec.name ∈ streamNames :=
          hnames (Layout.added b spec) (by simp) (Bindings.nil_holds_iff.mp hroot)
        obtain ⟨f, hfind, -⟩ := h.exists_field hname
        rw [Layout.contains_eq_true_iff.mpr ⟨f, hfind⟩] at hfresh
        cases hfresh
  · rintro x - - ⟨f, g, -, -, -, -, z, -, -, hroot, hhidden⟩
    rw [Field.isEnabled_of_conditions (Field.isEnabled_nil_iff.mp hroot)] at hhidden
    cases hhidden

theorem after (h : StreamBased w sb db l) (b : Bindings) (request : Request) :
    StreamBased w sb db (l.after b request) := by
  have hgrow := (Layout.after_step l b request).growsTo
  refine ⟨h.sized.after b request, h.grown.imp fun _ hgrown => hgrown.trans hgrow, ?_⟩
  intro hnames
  have hold : ∀ x ∈ l.fields, x.2.conditions = [] → x.1 ∈ streamNames := by
    intro x hx hconditions
    obtain ⟨y, hy, hname, hgrows⟩ := hgrow.exists_grown hx
    exact hname ▸ hnames y hy (hgrows.conditions.trans hconditions)
  rcases h.seesAll_after b request hnames with hkept | hsees
  · rw [hkept]
    exact h.laidOut hold
  · exact (h.laidOut hold).after h.sized.width hsees

theorem run {p q : Pool} {k : Keyspace} {rule : Pool.Rule}
    (h : StreamBased w sb db (p.layoutOf k)) (hk : k.In p) (hrun : Pool.Run rule p q) :
    StreamBased w sb db (q.layoutOf k) :=
  hrun.layoutOf (StreamBased w sb db) hk h fun _ _ _ _ _ ih => ih.after _ _

section

variable (h : StreamBased w sb db l)
  (hnames : ∀ name, (b.get? name).isSome = true → name ∈ streamNames)
  (hbound : ∀ x ∈ l.enabled b, (b.get? x.1).isSome = true)

include h hnames hbound

theorem isEnabled_eq : ∀ x ∈ l.fields, x.2.isEnabled b = x.2.isEnabled [] := by
  intro x hx
  rw [Bool.eq_iff_iff, Field.isEnabled_nil_iff]
  constructor
  · intro henabled
    obtain ⟨f, hfind, hconditions⟩ :=
      h.exists_field (hnames x.1 (hbound x (List.mem_filter.mpr ⟨hx, henabled⟩)))
    cases hfind.symm.trans (Layout.find?_of_mem h.sized.names hx)
    exact hconditions
  · intro hconditions
    exact Field.isEnabled_of_conditions hconditions b

theorem laidOut_of_bound : LaidOut l.width b l.fields := by
  have hroot : LaidOut l.width [] l.fields := by
    apply h.laidOut
    intro x hx hconditions
    apply hnames
    apply hbound
    exact List.mem_filter.mpr ⟨hx, Field.isEnabled_of_conditions hconditions b⟩
  exact hroot.congr (h.isEnabled_eq hnames hbound)

end

theorem readable (h : StreamBased w sb db l)
    (hnames : ∀ name, (b.get? name).isSome = true → name ∈ streamNames) (hnotes : l.Notes b)
    (hkey : l.render b .key .all = (.ok key, l)) :
    l.Readable b ((l.enabled []).map (·.1)) ∧ key = l.keyBits b ((l.enabled []).map (·.1)) := by
  obtain ⟨names, hsettled, hbits⟩ :=
    Layout.settled_of_rendering (Layout.rendering_of_render hkey)
  obtain rfl : (l.enabled b).map (·.1) = names := Except.ok.inj hsettled.assigns.select
  have hbound : ∀ x ∈ l.enabled b, (b.get? x.1).isSome = true :=
    fun x hx => hsettled.isSome_get? (List.mem_map_of_mem hx)
  have henabled : l.enabled b = l.enabled [] := List.filter_congr (h.isEnabled_eq hnames hbound)
  rw [← henabled]
  refine ⟨(h.laidOut_of_bound hnames hbound).readable h.sized.width ?_, hbits⟩
  intro name hname
  obtain ⟨f, length, start, v, hholds⟩ := hsettled.holds h.sized hnotes name hname
  obtain ⟨x, hx, rfl⟩ := List.mem_map.mp hname
  obtain ⟨hmem, hx'⟩ := List.mem_filter.mp hx
  cases hholds.find.symm.trans (Layout.find?_of_mem h.sized.names hmem)
  exact ⟨x.2, length, start, v, hholds, hx'⟩

theorem get?_eq (h : StreamBased w sb db l)
    (hnames : ∀ name, (b.get? name).isSome = true → name ∈ streamNames)
    (hnames' : ∀ name, (b'.get? name).isSome = true → name ∈ streamNames)
    (hnotes : l.Notes b) (hnotes' : l.Notes b') (hkey : l.render b .key .all = (.ok key, l))
    (hkey' : l.render b' .key .all = (.ok key, l)) :
    ∀ name ∈ streamNames, b.get? name = b'.get? name := by
  obtain ⟨hreadable, hbits⟩ := h.readable hnames hnotes hkey
  obtain ⟨hreadable', hbits'⟩ := h.readable hnames' hnotes' hkey'
  intro name hname
  apply (hreadable.keyBits_eq_iff hreadable').mp (hbits.symm.trans hbits')
  obtain ⟨f, hfind, hconditions⟩ := h.exists_field hname
  refine List.mem_map.mpr ⟨(name, f), List.mem_filter.mpr ⟨Layout.mem_of_find? hfind, ?_⟩, rfl⟩
  exact Field.isEnabled_nil_iff.mpr hconditions

end StreamBased

variable {p q : Pool} {k : Keyspace}

/-- The key is what the keyspace shows from now on. -/
structure HasKey (k : Keyspace) (p : Pool) (key : Nat) : Prop extends k.Known p where
  shows : k.Shows p .key .all key

theorem HasKey.run {rule : Pool.Rule} (h : k.HasKey p key) (hrun : Pool.Run rule p q) :
    k.HasKey q key :=
  ⟨h.toKnown.run hrun, h.shows.run h.inPool hrun⟩

/-- Keyspaces of values with the same key are of the same value. -/
theorem filledValue_inj {layout object connection dimension index object' connection' dimension'
    index' : Nat} (hbased : StreamBased w sb db (p.layoutOf ⟨layout, []⟩))
    (h : (filledValue layout object connection dimension index).HasKey p key)
    (h' : (filledValue layout object' connection' dimension' index').HasKey p key) :
    object = object' ∧ connection = connection' ∧ dimension = dimension' ∧ index = index' := by
  have hnames : ∀ object connection dimension index name,
      ((filledValue layout object connection dimension index).bindings.get? name).isSome = true →
      name ∈ streamNames := by
    intro object connection dimension index name hbound
    obtain ⟨v, hget⟩ := Option.isSome_iff_exists.mp hbound
    have hmem := Bindings.mem_of_get? hget
    simp only [filledValue, List.mem_cons, Prod.mk.injEq, List.not_mem_nil, or_false] at hmem
    simp only [streamNames, List.mem_cons, List.not_mem_nil, or_false]
    tauto
  have hget := hbased.get?_eq (hnames _ _ _ _) (hnames _ _ _ _) h.notes h'.notes h.shows h'.shows
  simp only [streamNames, List.forall_mem_cons] at hget
  obtain ⟨hdimension, hindex, hconnection, hobject, -⟩ := hget
  exact ⟨Option.some.inj hobject, Option.some.inj hconnection, Option.some.inj hdimension,
    Option.some.inj hindex⟩

end Manycore.Keyspace
