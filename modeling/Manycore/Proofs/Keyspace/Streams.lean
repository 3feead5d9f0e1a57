import Manycore.Keyspace.Standard
import Manycore.Proofs.Keying
import Manycore.Proofs.Keyspace.Separation

/-! # Keys of streams

The layout of streams has two fields with fixed places in the low bits and two that are sized and
placed when something is first rendered from it. However the keyspaces on it were bound and whatever
is rendered first, these two end up side by side above the others, with room for everything bound to
them, and from then on different bindings have different keys.
-/

namespace Manycore.Keyspace

open List (Forall₂)
open Keying

/-- The length and the start of a range. -/
abbrev Span := Nat × Nat

/-- The fields of streams, with the largest values bound to them and the ranges of the two that are
placed later. -/
def streamFields (subvertexBits dimensionBits : Nat) (most : String → Nat)
    (connection object : Option Span) : List (String × Field) :=
  [(dimensionField, {
      length := some dimensionBits
      start := some 0
      tags := []
      conditions := []
      maxValue := most dimensionField }),
    (subvertexField, {
      length := some subvertexBits
      start := some dimensionBits
      tags := [routingTag]
      conditions := []
      maxValue := most subvertexField }),
    (connectionField, {
      length := connection.map (·.1)
      start := connection.map (·.2)
      tags := [filterRoutingTag, routingTag]
      conditions := []
      maxValue := most connectionField }),
    (objectField, {
      length := object.map (·.1)
      start := object.map (·.2)
      tags := [filterRoutingTag, routingTag]
      conditions := []
      maxValue := most objectField })]

/-- The layout of streams before anything is rendered. -/
def openStreams (width subvertexBits dimensionBits : Nat) (most : String → Nat) : Layout :=
  ⟨width, streamFields subvertexBits dimensionBits most none none, false⟩

/-- The low fields lie inside the width. -/
structure StreamBounds (w sb db : Nat) : Prop where
  width : w ≤ 64
  dimension : 0 < db
  subvertex : 0 < sb
  inside : db + sb ≤ w

variable {w sb db : Nat}

theorem yields_forStreams {p q : Pool} {k : Keyspace} (h : Yields (forStreams w sb db) p k q) :
    StreamBounds w sb db ∧ k = ⟨p.layouts.length, []⟩
      ∧ q = ⟨p.layouts ++ [openStreams w sb db fun _ => 1]⟩ := by
  simp only [forStreams, yields_bind_iff, yields_ofWidth_iff, yields_add_iff, yields_pure_iff] at h
  obtain ⟨_, _, ⟨l, hwidth, rfl, rfl⟩, _, _, ⟨ld, hd, rfl⟩, _, _, ⟨ls, hs, rfl⟩, _, _, ⟨li, hi, rfl⟩,
    _, _, ⟨lo, ho, rfl⟩, rfl, rfl⟩ := h
  simp only [Pool.layoutOf_append, Pool.setLayout_append, Layout.add_eq_ok_iff, Layout.ofWidth_eq_ok_iff]
    at hwidth hd hs hi ho
  obtain ⟨hwidth, rfl⟩ := hwidth
  obtain ⟨hd, rfl⟩ := hd
  obtain ⟨hs, rfl⟩ := hs
  obtain ⟨hi, rfl⟩ := hi
  obtain ⟨ho, rfl⟩ := ho
  refine ⟨?_, rfl, ?_⟩
  · obtain ⟨-, -, hdlength, hdplace⟩ := Layout.addConflict?_eq_none_iff.mp hd
    obtain ⟨-, -, hslength, hsplace⟩ := Layout.addConflict?_eq_none_iff.mp hs
    have hinside := (Layout.positionConflict?_eq_none_iff.mp (hsplace db rfl)).1
    exact {
      width := hwidth.2
      dimension := Nat.pos_of_ne_zero fun hzero => hdlength (congrArg some hzero)
      subvertex := Nat.pos_of_ne_zero fun hzero => hslength (congrArg some hzero)
      inside := hinside }
  · simp only [Pool.setLayout_append]
    rfl

theorem yields_add_last {p : Pool} {l : Layout} {spec : FieldSpec}
    (h : l.addConflict? [] spec = none) :
    Yields ((⟨p.layouts.length, []⟩ : Keyspace).add spec) ⟨p.layouts ++ [l]⟩ ()
      ⟨p.layouts ++ [{ l with fields := l.fields ++ [Layout.added [] spec] }]⟩ := by
  rw [yields_add_iff, Pool.layoutOf_append]
  exact ⟨_, Layout.add_eq_ok_iff.mpr ⟨h, rfl⟩, Pool.setLayout_append _ _ _ _⟩

theorem StreamBounds.yields_forStreams (h : StreamBounds w sb db) (p : Pool) :
    Yields (forStreams w sb db) p ⟨p.layouts.length, []⟩
      ⟨p.layouts ++ [openStreams w sb db fun _ => 1]⟩ := by
  have hdimension := h.dimension
  have hsubvertex := h.subvertex
  have hinside := h.inside
  have hd : (Layout.mk w [] false).addConflict? []
      ((FieldSpec.named dimensionField).placed 0 db) = none := by
    refine Layout.addConflict?_eq_none_iff.mpr ⟨rfl, rfl, ?_, fun start hstart => ?_⟩
    · simpa [FieldSpec.placed] using Nat.ne_of_gt hdimension
    · cases hstart
      refine Layout.positionConflict?_eq_none_iff.mpr ⟨?_, rfl⟩
      simp only [FieldSpec.placed, Option.getD_some]
      omega
  have hs : (Layout.mk w [Layout.added [] ((FieldSpec.named dimensionField).placed 0 db)]
      false).addConflict? []
      (((FieldSpec.named subvertexField).placed db sb).tagged routingTag) = none := by
    refine Layout.addConflict?_eq_none_iff.mpr ⟨rfl, rfl, ?_, fun start hstart => ?_⟩
    · simpa [FieldSpec.placed, FieldSpec.tagged] using Nat.ne_of_gt hsubvertex
    · cases hstart
      refine Layout.positionConflict?_eq_none_iff.mpr ⟨?_, ?_⟩
      · simp only [FieldSpec.placed, FieldSpec.tagged, Option.getD_some]
        omega
      · refine Layout.overlap?_eq_none_iff.mpr fun x hx otherStart hother _ => Or.inr ?_
        cases List.mem_singleton.mp hx
        cases hother
        simp [Layout.added, FieldSpec.placed]
  refine yields_bind_iff.mpr ⟨_, _, yields_ofWidth_iff.mpr
    ⟨_, Layout.ofWidth_eq_ok_iff.mpr ⟨⟨by omega, h.width⟩, rfl⟩, rfl, rfl⟩, ?_⟩
  refine yields_bind_iff.mpr ⟨(), _, yields_add_last hd, ?_⟩
  refine yields_bind_iff.mpr ⟨(), _, yields_add_last hs, ?_⟩
  refine yields_bind_iff.mpr ⟨(), _, yields_add_last rfl, ?_⟩
  refine yields_bind_iff.mpr ⟨(), _, yields_add_last rfl, ?_⟩
  exact yields_pure_iff.mpr ⟨rfl, rfl⟩

/-- No field is added. -/
def noAdd : Family.Rule := fun _ _ request => ∀ spec, request ≠ .add spec

/-- No field is added, and no rendering gets as far as fixing fields. -/
def nothingPlaced : Family.Rule := fun l b request => (∀ spec, request ≠ .add spec)
  ∧ ∀ output selector selected, request = .render output selector →
    ¬ l.Assigns b output selector selected

theorem noteValues_streams (most : String → Nat) (connection object : Option Span) (frozen : Bool)
    (values : Bindings) :
    (Layout.mk w (streamFields sb db most connection object) frozen).noteValues values
      = ⟨w, streamFields sb db (fun name => max (most name) ((values.get? name).getD 0))
        connection object, frozen⟩ := by
  rw [Layout.noteValues_eq]
  rfl

theorem wellFormed_openStreams (h : StreamBounds w sb db) :
    Family.WellFormed ⟨openStreams w sb db fun _ => 1, [[]]⟩ where
  width := h.width
  names := by
    simp only [openStreams, streamFields, List.map_cons, List.map_nil]
    decide
  room := by
    have hroom : ∀ n, 0 < n → 1 < twoTo n := fun n hn => Nat.one_lt_two_pow (by omega)
    simp only [openStreams, streamFields, List.forall_mem_cons]
    refine ⟨fun n hn => ?_, fun n hn => ?_, fun n hn => ?_, fun n hn => ?_, fun x hx => ?_⟩
    · exact Option.some.inj hn ▸ hroom db h.dimension
    · exact Option.some.inj hn ▸ hroom sb h.subvertex
    · cases hn
    · cases hn
    · cases hx
  largest := by simp [openStreams, streamFields, Family.largest]
  sorted b hb := by
    cases List.mem_singleton.mp hb
    exact List.Pairwise.nil
  bound b hb name v hget := by
    cases List.mem_singleton.mp hb
    cases hget

theorem laidOut_openStreams (h : StreamBounds w sb db) (most : String → Nat) (b : Bindings) :
    LaidOut w b (openStreams w sb db most).fields := by
  have hinside := h.inside
  have hnone : ∀ {p : String × Field → Prop}, ∀ x ∈ [], p x := fun x hx => nomatch hx
  constructor
  · simp only [openStreams, streamFields, List.forall_mem_cons]
    refine ⟨?_, ?_, ?_, ?_, hnone⟩
    · exact fun _ _ => Layout.fits_iff.mpr ⟨db, 0, rfl, rfl, by omega⟩
    · exact fun _ _ => Layout.fits_iff.mpr ⟨sb, db, rfl, rfl, by omega⟩
    all_goals exact fun _ hplaced => nomatch hplaced
  · simp only [openStreams, streamFields, List.pairwise_cons, List.forall_mem_cons]
    refine ⟨⟨?_, ?_, ?_, hnone⟩, ⟨?_, ?_, hnone⟩, ⟨?_, hnone⟩, hnone, List.Pairwise.nil⟩
    · exact fun _ _ => Field.apart_of_le rfl rfl rfl (by omega)
    all_goals exact fun _ _ => Field.apart_of_open rfl

/-- Until something is placed, only the largest values change. -/
theorem exists_openStreams {start fam : Family}
    (hstart : ∃ most, start.layout = openStreams w sb db most)
    (h : Family.Reaches nothingPlaced start fam) :
    ∃ most, fam.layout = openStreams w sb db most := by
  induction h with
  | refl => exact hstart
  | @ask fam b request _ _ hrule ih =>
      obtain ⟨hadd, hrender⟩ := hrule
      have hstep := Layout.after_step fam.layout b request
      simp only [Family.ask]
      generalize fam.layout.after b request = l' at hstep ⊢
      generalize fam.layout.derived b request = derived at hstep
      cases hstep with
      | kept => exact ih
      | added => exact absurd rfl (hadd _)
      | bound =>
          obtain ⟨most, hlayout⟩ := ih
          rw [hlayout]
          exact ⟨_, noteValues_streams _ _ _ _ _⟩
      | rendered hrendering =>
          cases hrendering with
          | refused => exact ih
          | blocked hassigns => exact absurd hassigns (hrender _ _ _ rfl)
          | rendered hassigns => exact absurd hassigns (hrender _ _ _ rfl)

/-- The layout of streams once the two open fields are side by side above the others. -/
def placedStreams (w sb db : Nat) (most : String → Nat) (connectionBits objectBits : Nat) : Layout :=
  ⟨w, streamFields sb db most (some (connectionBits, db + sb))
    (some (objectBits, db + sb + connectionBits)), true⟩

theorem tags_streamFields {most : String → Nat} {connection object : Option Span}
    {x : String × Field} (hx : x ∈ streamFields sb db most connection object) {tag : String}
    (htag : tag ∈ x.2.tags) : tag ∈ [filterRoutingTag, routingTag] := by
  simp only [streamFields, List.mem_cons, List.not_mem_nil, or_false] at hx
  rcases hx with rfl | rfl | rfl | rfl
  · cases htag
  · exact List.mem_cons_of_mem _ htag
  · exact htag
  · exact htag

theorem contains_needed_streams {most : String → Nat} {b : Bindings} {output : Output}
    {selector : Selector} {selected : List String}
    (h : (openStreams w sb db most).Assigns b output selector selected) :
    ((openStreams w sb db most).needed b output selector).contains connectionField = true
      ∧ ((openStreams w sb db most).needed b output selector).contains objectField = true := by
  have htag : ∀ tag, selector = .tag tag → [filterRoutingTag, routingTag].contains tag = true := by
    rintro tag rfl
    have hselect := h.select
    by_contra hother
    have hnone : ((openStreams w sb db most).enabled b).filter
        (fun x => x.2.tags.contains tag) = [] := by
      refine List.filter_eq_nil_iff.mpr fun x hx hcontains => hother ?_
      exact List.contains_iff_mem.mpr (tags_streamFields (List.mem_filter.mp hx).1
        (List.contains_iff_mem.mp hcontains))
    simp only [Layout.select, hnone, List.map_nil] at hselect
    cases hselect
  have hinvolved : ∀ f : Field, f.conditions = [] → f.tags = [filterRoutingTag, routingTag] →
      f.isInvolved b output selector = true := by
    intro f hconditions htags
    have henabled : f.isEnabled b = true := by
      rw [Field.isEnabled, hconditions]
      rfl
    cases output with
    | mask => exact henabled
    | key =>
        cases selector with
        | all => exact henabled
        | field name => exact henabled
        | tag tag => exact Bool.and_eq_true_iff.mpr ⟨henabled, htags ▸ htag tag rfl⟩
  constructor
  · exact Layout.contains_needed_of_mem (x := (connectionField, _)) (.tail _ (.tail _ (.head _)))
      (hinvolved _ rfl rfl)
  · exact Layout.contains_needed_of_mem (x := (objectField, _))
      (.tail _ (.tail _ (.tail _ (.head _)))) (hinvolved _ rfl rfl)

/-- The low bits are taken before the open fields are placed, and no others. -/
theorem testBit_occupied_openStreams (h : StreamBounds w sb db) (most : String → Nat) (b : Bindings)
    (bit : Nat) : ((openStreams w sb db most).occupied b).testBit bit = decide (bit < db + sb) := by
  have hwidth := h.width
  have hinside := h.inside
  have hoccupied : (openStreams w sb db most).occupied b
      = ((0 ||| ones db <<< 0) ||| ones sb <<< db) ||| 0 ||| 0 := rfl
  rw [hoccupied, Nat.or_zero, Nat.or_zero, Nat.zero_or, Nat.testBit_or, testBit_span (by omega),
    testBit_span (by omega), ← Bool.decide_or, decide_eq_decide]
  omega

theorem exists_error_of_conflict {conflict : Option FieldConflict} {l : Layout} {b : Bindings}
    {output : Output} {selected : List String} (h : conflict.isSome = true) :
    ∃ cause, (match (conflict, l) with
      | (some conflict, l) => (Except.error (KeyError.conflict conflict), l)
      | (none, l) => (.ok (l.bits b output selected), { l with frozen := true })).1
      = .error (.conflict cause) := by
  obtain ⟨cause, rfl⟩ := Option.isSome_iff_exists.mp h
  exact ⟨cause, rfl⟩

/-- The first rendering that gets as far places the open fields side by side, or finds too few bits
for them. -/
theorem render_openStreams (h : StreamBounds w sb db) {most : String → Nat} {b : Bindings}
    {output : Output} {selector : Selector} {selected : List String}
    (hassigns : (openStreams w sb db most).Assigns b output selector selected) :
    (db + sb + bitLength (most connectionField) + bitLength (most objectField) ≤ w
      ∧ ∃ v, (openStreams w sb db most).render b output selector
        = (.ok v, placedStreams w sb db most (bitLength (most connectionField))
          (bitLength (most objectField))))
    ∨ (w < db + sb + bitLength (most connectionField) + bitLength (most objectField)
      ∧ ∃ cause, ((openStreams w sb db most).render b output selector).1
        = .error (.conflict cause)) := by
  have hwidth := h.width
  have hinside := h.inside
  have htaken := testBit_occupied_openStreams h most b
  obtain ⟨hconnection, hobject⟩ := contains_needed_streams hassigns
  have hpass := Layout.placeAll_placing w
    (((openStreams w sb db most).needed b output selector).contains ·)
    ((openStreams w sb db most).occupied b) (streamFields sb db most none none)
  rw [Layout.render_eq_of_assigns hassigns]
  simp only [Layout.assign, show (openStreams w sb db most).width = w from rfl,
    show (openStreams w sb db most).fields = streamFields sb db most none none from rfl]
  generalize Layout.placeAll w _ _ (streamFields sb db most none none) = result at hpass ⊢
  obtain ⟨conflict, done⟩ := result
  have hlow : ∀ length start, start + length ≤ db + sb → Covers (ones length <<< start)
      ((openStreams w sb db most).occupied b) := by
    intro length start hle bit hbit
    rw [testBit_span (by omega), decide_eq_true_eq] at hbit
    rw [htaken, decide_eq_true_eq]
    omega
  obtain ⟨_, rfl, hpass⟩ := hpass.cons_of_fits
    (Layout.fits_iff.mpr ⟨db, 0, rfl, rfl, by omega⟩) (hlow db 0 (by omega))
  obtain ⟨_, rfl, hpass⟩ := hpass.cons_of_fits
    (Layout.fits_iff.mpr ⟨sb, db, rfl, rfl, by omega⟩) (hlow sb db (by omega))
  rcases hpass.cons_of_open hwidth htaken hconnection rfl rfl with
    ⟨taken, _, -, rfl, htaken', hpass⟩ | ⟨hroom, hconflict⟩
  · rcases hpass.cons_of_open hwidth htaken' hobject rfl rfl with
      ⟨_, _, hroom, rfl, -, hpass⟩ | ⟨hroom, hconflict⟩
    · cases hpass
      exact Or.inl ⟨hroom, _, rfl⟩
    · exact Or.inr ⟨hroom, exists_error_of_conflict hconflict⟩
  · exact Or.inr ⟨Nat.lt_add_right _ hroom, exists_error_of_conflict hconflict⟩

/-- The fields of streams in the order of their ranges. -/
def streamNames : List String := [dimensionField, subvertexField, connectionField, objectField]

/-- The field has this range. -/
def Layout.HasSpan (l : Layout) (name : String) (start length : Nat) : Prop :=
  ∃ f, l.find? name = some f ∧ f.length = some length ∧ f.start = some start

/-- What may have become of a layout of streams after the first placing. -/
structure StreamsPlaced (w sb db connectionBits objectBits : Nat) (l : Layout) : Prop where
  grown : ∃ most, (placedStreams w sb db most connectionBits objectBits).GrowsTo l
  width : w ≤ 64
  inside : db + sb + connectionBits + objectBits ≤ w

namespace StreamsPlaced

variable {ib ob : Nat} {l : Layout} {b : Bindings}

theorem fits_placedStreams (hinside : db + sb + ib + ob ≤ w) (most : String → Nat) :
    ∀ x ∈ (placedStreams w sb db most ib ob).fields, Layout.fits w x.2 = true := by
  simp only [placedStreams, streamFields, List.forall_mem_cons]
  refine ⟨?_, ?_, ?_, ?_, fun x hx => nomatch hx⟩
  · exact Layout.fits_iff.mpr ⟨db, 0, rfl, rfl, by omega⟩
  · exact Layout.fits_iff.mpr ⟨sb, db, rfl, rfl, by omega⟩
  · exact Layout.fits_iff.mpr ⟨ib, db + sb, rfl, rfl, by omega⟩
  · exact Layout.fits_iff.mpr ⟨ob, db + sb + ib, rfl, rfl, by omega⟩

theorem laidOut_placedStreams (hinside : db + sb + ib + ob ≤ w) (most : String → Nat)
    (b : Bindings) : LaidOut w b (placedStreams w sb db most ib ob).fields := by
  refine ⟨fun x hx _ _ => fits_placedStreams hinside most x hx, ?_⟩
  simp only [placedStreams, streamFields, Option.map_some, List.pairwise_cons,
    List.forall_mem_cons]
  have hnone : ∀ {p : String × Field → Prop}, ∀ x ∈ [], p x := fun x hx => nomatch hx
  refine ⟨⟨?_, ?_, ?_, hnone⟩, ⟨?_, ?_, hnone⟩, ⟨?_, hnone⟩, hnone, List.Pairwise.nil⟩
  all_goals exact fun _ _ => Field.apart_of_le rfl rfl rfl (by omega)

theorem of_growsTo {l' : Layout} (h : StreamsPlaced w sb db ib ob l) (hgrow : l.GrowsTo l') :
    StreamsPlaced w sb db ib ob l' := by
  obtain ⟨most, hgrown⟩ := h.grown
  exact ⟨⟨most, hgrown.trans hgrow⟩, h.width, h.inside⟩

theorem width_eq (h : StreamsPlaced w sb db ib ob l) : l.width = w := by
  obtain ⟨most, hgrown⟩ := h.grown
  exact hgrown.width

theorem forall₂ (h : StreamsPlaced w sb db ib ob l) :
    ∃ most, Forall₂ Layout.SameGrown (placedStreams w sb db most ib ob).fields l.fields := by
  obtain ⟨most, hgrown⟩ := h.grown
  exact ⟨most, hgrown.forall₂ rfl⟩

theorem hasSpan (h : StreamsPlaced w sb db ib ob l) :
    l.HasSpan dimensionField 0 db ∧ l.HasSpan subvertexField db sb
      ∧ l.HasSpan connectionField (db + sb) ib ∧ l.HasSpan objectField (db + sb + ib) ob := by
  obtain ⟨most, hgrown⟩ := h.grown
  have hspan : ∀ {name f start length}, (placedStreams w sb db most ib ob).find? name = some f →
      f.length = some length → f.start = some start → l.HasSpan name start length := by
    intro name f start length hfind hlength hstart
    obtain ⟨g, hg, hgrows⟩ := hgrown.find? hfind
    exact ⟨g, hg, hgrows.length _ hlength, hgrows.start _ hstart⟩
  exact ⟨hspan rfl rfl rfl, hspan rfl rfl rfl, hspan rfl rfl rfl, hspan rfl rfl rfl⟩

theorem select_all (h : StreamsPlaced w sb db ib ob l) (b : Bindings) :
    l.select b .all = .ok streamNames := by
  obtain ⟨most, hpairs⟩ := h.forall₂
  rw [Layout.select_of_forall₂ hpairs]
  rfl

theorem select_routing (h : StreamsPlaced w sb db ib ob l) (b : Bindings) :
    l.select b (.tag routingTag) = .ok [subvertexField, connectionField, objectField] := by
  obtain ⟨most, hpairs⟩ := h.forall₂
  rw [Layout.select_of_forall₂ hpairs]
  rfl

theorem select_filterRouting (h : StreamsPlaced w sb db ib ob l) (b : Bindings) :
    l.select b (.tag filterRoutingTag) = .ok [connectionField, objectField] := by
  obtain ⟨most, hpairs⟩ := h.forall₂
  rw [Layout.select_of_forall₂ hpairs]
  rfl

theorem fits (h : StreamsPlaced w sb db ib ob l) :
    ∀ y ∈ l.fields, Layout.fits l.width y.2 = true := by
  obtain ⟨most, hpairs⟩ := h.forall₂
  intro y hy
  obtain ⟨x, hx, -, hgrows⟩ := exists_left_of_forall₂ hpairs hy
  rw [h.width_eq]
  exact Layout.fits_of_growsTo hgrows (fits_placedStreams h.inside most x hx)

theorem laidOut (h : StreamsPlaced w sb db ib ob l) (b : Bindings) :
    LaidOut l.width b l.fields := by
  obtain ⟨most, hpairs⟩ := h.forall₂
  rw [h.width_eq]
  exact (laidOut_placedStreams h.inside most b).of_forall₂ (fits_placedStreams h.inside most) hpairs

theorem render_eq (h : StreamsPlaced w sb db ib ob l) {output : Output} {selector : Selector}
    {selected : List String} (hselect : l.select b selector = .ok selected)
    (hmissing : output.missing b selected = []) :
    l.render b output selector = (.ok (l.bits b output selected), l) := by
  obtain ⟨most, hgrown⟩ := h.grown
  have hsettled : l.Settled b output selector selected :=
    ⟨hgrown.frozen rfl, ⟨hselect, hmissing⟩, fun y hy _ => h.fits y hy⟩
  exact hsettled.render_eq

theorem names_eq (h : StreamsPlaced w sb db ib ob l) : l.fields.map (·.1) = streamNames := by
  obtain ⟨most, hpairs⟩ := h.forall₂
  rw [map_eq_map_of_forall₂ hpairs fun x y hxy => hxy.1]
  rfl

theorem enabled_names (h : StreamsPlaced w sb db ib ob l) (b : Bindings) :
    (l.enabled b).map (·.1) = streamNames :=
  Except.ok.inj (h.select_all b)

end StreamsPlaced

/-- All four fields have values. -/
def BindsStream (b : Bindings) : Prop := ∀ name ∈ streamNames, (b.get? name).isSome = true

/-- What routers and receivers see of a keyspace on the layout of streams. -/
structure StreamKeys (l : Layout) (b : Bindings) (key routing filter routingMask : Nat) : Prop where
  key_eq : (l.render b .key .all).1 = .ok key
  routing_eq : (l.render b .key (.tag routingTag)).1 = .ok routing
  filter_eq : (l.render b .key (.tag filterRoutingTag)).1 = .ok filter
  mask_eq : (l.render b .mask (.tag routingTag)).1 = .ok routingMask

/-- The fields that routers match on. -/
def routedNames : List String := [subvertexField, connectionField, objectField]

/-- The fields by which receivers tell streams apart. -/
def filteredNames : List String := [connectionField, objectField]

theorem subset_routedNames : ∀ name ∈ routedNames, name ∈ streamNames := by decide

theorem subset_filteredNames : ∀ name ∈ filteredNames, name ∈ streamNames := by decide

theorem BindsStream.missing {b : Bindings} (h : BindsStream b) {part : List String}
    (hpart : ∀ name ∈ part, name ∈ streamNames) (output : Output) : output.missing b part = [] := by
  cases output with
  | mask => rfl
  | key =>
      refine List.filter_eq_nil_iff.mpr fun name hname => ?_
      have hbound := h name (hpart name hname)
      simpa [Option.isSome_iff_ne_none] using hbound

namespace StreamsPlaced

variable {ib ob : Nat} {l : Layout} {fam : Family} {b : Bindings}

theorem streamKeys (h : StreamsPlaced w sb db ib ob l) (hbound : BindsStream b) :
    StreamKeys l b (l.keyBits b streamNames) (l.keyBits b routedNames) (l.keyBits b filteredNames)
      (l.maskBits routedNames) where
  key_eq := congrArg Prod.fst (h.render_eq (h.select_all b) (hbound.missing (fun _ => id) .key))
  routing_eq := congrArg Prod.fst
    (h.render_eq (h.select_routing b) (hbound.missing subset_routedNames .key))
  filter_eq := congrArg Prod.fst
    (h.render_eq (h.select_filterRouting b) (hbound.missing subset_filteredNames .key))
  mask_eq := congrArg Prod.fst (h.render_eq (h.select_routing b) rfl)

theorem readable (h : StreamsPlaced w sb db ib ob fam.layout) (hwell : fam.WellFormed)
    (hb : b ∈ fam.members) (hbound : BindsStream b) : fam.layout.Readable b streamNames := by
  have hnames := h.enabled_names b
  rw [← hnames]
  refine hwell.readable hb (h.laidOut b) (fun x hx => h.fits x (List.mem_filter.mp hx).1)
    fun x hx => ?_
  exact hbound x.1 (hnames ▸ List.mem_map_of_mem hx)

end StreamsPlaced

theorem StreamKeys.unique {l : Layout} {b : Bindings} {key routing filter mask key' routing' filter'
    mask' : Nat} (h : StreamKeys l b key routing filter mask)
    (h' : StreamKeys l b key' routing' filter' mask') :
    key = key' ∧ routing = routing' ∧ filter = filter' ∧ mask = mask' :=
  ⟨Except.ok.inj (h.key_eq.symm.trans h'.key_eq),
    Except.ok.inj (h.routing_eq.symm.trans h'.routing_eq),
    Except.ok.inj (h.filter_eq.symm.trans h'.filter_eq),
    Except.ok.inj (h.mask_eq.symm.trans h'.mask_eq)⟩

/-- After the first placing, keys differ as far as the values in them do. -/
theorem StreamsPlaced.keys_eq_iff {ib ob : Nat} {fam : Family} {x y : Bindings}
    (h : StreamsPlaced w sb db ib ob fam.layout) (hwell : fam.WellFormed) (hx : x ∈ fam.members)
    (hxbound : BindsStream x) (hy : y ∈ fam.members) (hybound : BindsStream y)
    {key routing filter mask key' routing' filter' mask' : Nat}
    (hkeys : StreamKeys fam.layout x key routing filter mask)
    (hkeys' : StreamKeys fam.layout y key' routing' filter' mask') :
    (key = key' ↔ ∀ name ∈ streamNames, x.get? name = y.get? name)
      ∧ (routing = routing' ↔ ∀ name ∈ routedNames, x.get? name = y.get? name)
      ∧ (filter = filter' ↔ ∀ name ∈ filteredNames, x.get? name = y.get? name) := by
  obtain ⟨rfl, rfl, rfl, rfl⟩ := hkeys.unique (h.streamKeys hxbound)
  obtain ⟨rfl, rfl, rfl, rfl⟩ := hkeys'.unique (h.streamKeys hybound)
  have hxread := h.readable hwell hx hxbound
  have hyread := h.readable hwell hy hybound
  exact ⟨hxread.keyBits_eq_iff hyread,
    (hxread.subset subset_routedNames).keyBits_eq_iff (hyread.subset subset_routedNames),
    (hxread.subset subset_filteredNames).keyBits_eq_iff (hyread.subset subset_filteredNames)⟩

/-- Whatever is rendered first from the layout of streams succeeds if the low fields and the values
bound to the others fit into the width. The fields then lie side by side, and for every keyspace
with all four bound, the key tells all four apart, the routing key all but the dimension, and the
filter key the stream and its object; the routing mask turns the key into the routing key. -/
theorem streams_separated {p q : Pool} {k : Keyspace} (hnew : Yields (forStreams w sb db) p k q)
    {fam : Family} (hopen : Family.Reaches nothingPlaced ⟨q.layoutOf k, [k.bindings]⟩ fam)
    {b : Bindings} (hb : b ∈ fam.members) {output : Output} {selector : Selector}
    {selected : List String} (hassigns : fam.layout.Assigns b output selector selected) :
    ((∃ v, (fam.layout.render b output selector).1 = .ok v) ↔
      db + sb + bitLength (Family.largest connectionField fam.members)
        + bitLength (Family.largest objectField fam.members) ≤ w)
    ∧ ((∃ v, (fam.layout.render b output selector).1 = .ok v) →
      ∀ later, Family.Reaches noAdd (fam.ask b (.render output selector)) later →
        (later.layout.HasSpan dimensionField 0 db ∧ later.layout.HasSpan subvertexField db sb
          ∧ later.layout.HasSpan connectionField (db + sb)
            (bitLength (Family.largest connectionField fam.members))
          ∧ later.layout.HasSpan objectField
            (db + sb + bitLength (Family.largest connectionField fam.members))
            (bitLength (Family.largest objectField fam.members)))
        ∧ (∀ x ∈ later.members, BindsStream x → ∃ key routing filter mask,
          StreamKeys later.layout x key routing filter mask ∧ key &&& mask = routing)
        ∧ ∀ x ∈ later.members, BindsStream x → ∀ y ∈ later.members, BindsStream y →
          ∀ key routing filter mask key' routing' filter' mask',
          StreamKeys later.layout x key routing filter mask →
          StreamKeys later.layout y key' routing' filter' mask' →
          (key = key' ↔ ∀ name ∈ streamNames, x.get? name = y.get? name)
          ∧ (routing = routing' ↔ ∀ name ∈ routedNames, x.get? name = y.get? name)
          ∧ (filter = filter' ↔ ∀ name ∈ filteredNames, x.get? name = y.get? name)) := by
  obtain ⟨hbounds, rfl, rfl⟩ := yields_forStreams hnew
  rw [Pool.layoutOf_append] at hopen
  have hwell := hopen.wellFormed (wellFormed_openStreams hbounds)
  obtain ⟨most, hlayout⟩ := exists_openStreams ⟨_, rfl⟩ hopen
  have hmost : ∀ name f, (name, f) ∈ (openStreams w sb db most).fields →
      f.maxValue = Family.largest name fam.members := by
    intro name f hmem
    exact hwell.largest (name, f) (hlayout ▸ hmem)
  rw [← hmost connectionField _ (.tail _ (.tail _ (.head _))),
    ← hmost objectField _ (.tail _ (.tail _ (.tail _ (.head _))))]
  rw [hlayout] at hassigns ⊢
  rcases render_openStreams hbounds hassigns with ⟨hroom, v, hrender⟩ | ⟨hroom, cause, hrender⟩
  · refine ⟨⟨fun _ => hroom, fun _ => ⟨v, congrArg Prod.fst hrender⟩⟩, fun _ later hlater => ?_⟩
    have hfirst : (fam.ask b (.render output selector)).layout = placedStreams w sb db most
        (bitLength (most connectionField)) (bitLength (most objectField)) := by
      simp only [Family.ask, Layout.after, hlayout, hrender]
    have hplaced : StreamsPlaced w sb db (bitLength (most connectionField))
        (bitLength (most objectField)) later.layout :=
      ⟨⟨most, hfirst ▸ hlater.growsTo⟩, hbounds.width, hroom⟩
    have hlaterWell := hlater.wellFormed (hwell.ask hb _)
    refine ⟨hplaced.hasSpan, fun x hx hxbound => ?_, ?_⟩
    · exact ⟨_, _, _, _, hplaced.streamKeys hxbound,
        (hplaced.readable hlaterWell hx hxbound).keyBits_and_maskBits subset_routedNames⟩
    · intro x hx hxbound y hy hybound _ _ _ _ _ _ _ _ hkeys hkeys'
      exact hplaced.keys_eq_iff hlaterWell hx hxbound hy hybound hkeys hkeys'
  · have hfails : ¬ ∃ v, ((openStreams w sb db most).render b output selector).1 = .ok v := by
      rintro ⟨v, hok⟩
      rw [hrender] at hok
      cases hok
    exact ⟨⟨fun hok => absurd hok hfails, fun hle => absurd hle (Nat.not_le.mpr hroom)⟩,
      fun hok => absurd hok hfails⟩

/-- A keyspace for the second stream of the fourth object, with its other fields bound as well. -/
def streamRequests : List (Nat × Request) :=
  [(0, .bind [(objectField, 3)]),
   (1, .bind [(connectionField, 1)]),
   (2, .bind [(dimensionField, 5), (subvertexField, 2)])]

def streamFamily : Family :=
  Family.play ⟨openStreams 32 7 6 fun _ => 1, [[]]⟩ streamRequests

theorem reaches_streamFamily :
    Family.Reaches nothingPlaced ⟨openStreams 32 7 6 fun _ => 1, [[]]⟩ streamFamily := by
  refine Family.reaches_play _ (by decide) fun _ _ _ request hmem => ⟨?_, ?_⟩
  · rintro spec rfl
    simp [streamRequests] at hmem
  · rintro output selector selected rfl
    simp [streamRequests] at hmem

theorem streams_separated_streamFamily :
    (∃ v, (streamFamily.layout.render [(connectionField, 1), (objectField, 3)] .key
      (.tag filterRoutingTag)).1 = .ok v)
    ∧ ∀ later, Family.Reaches noAdd (streamFamily.ask [(connectionField, 1), (objectField, 3)]
        (.render .key (.tag filterRoutingTag))) later →
      later.layout.HasSpan connectionField 13 1 ∧ later.layout.HasSpan objectField 14 2 := by
  have hnew : Yields (forStreams 32 7 6) Pool.empty ⟨0, []⟩
      ⟨[openStreams 32 7 6 fun _ => 1]⟩ := rfl
  have hassigns : streamFamily.layout.Assigns [(connectionField, 1), (objectField, 3)] .key
      (.tag filterRoutingTag) filteredNames :=
    ⟨by decide, by decide⟩
  obtain ⟨hroom, hlater⟩ := streams_separated hnew reaches_streamFamily (by decide) hassigns
  have hok := hroom.mpr (by decide)
  refine ⟨hok, fun later hreach => ?_⟩
  obtain ⟨⟨-, -, hconnection, hobject⟩, -⟩ := hlater hok later hreach
  exact ⟨hconnection, hobject⟩

end Manycore.Keyspace
