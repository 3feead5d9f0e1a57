import Manycore.Proofs.Keyspace.Finality
import Mathlib.Data.List.Pairwise

/-! # Fields that share no bit

Positions that are found automatically never make two fields of one keyspace share a bit, so long as
every such position is found where all bits taken in that keyspace can be seen, and none of its
fields was put at a position before its length was known.
-/

namespace Manycore.Keyspace

open List (Forall₂)

/-- The fields that `b` enables lie inside the width once they have a position, and apart. -/
structure LaidOut (width : Nat) (b : Bindings) (fields : List (String × Field)) : Prop where
  inside : ∀ x ∈ fields, x.2.isEnabled b = true → x.2.start.isSome = true →
    Layout.fits width x.2 = true
  apart : fields.Pairwise fun x y => x.2.isEnabled b = true → y.2.isEnabled b = true →
    x.2.Apart y.2

theorem laidOut_of_ofWidth {width : Nat} {l : Layout} (hnew : Layout.ofWidth width = .ok l)
    (b : Bindings) : LaidOut l.width b l.fields := by
  obtain ⟨-, rfl⟩ := Layout.ofWidth_eq_ok_iff.mp hnew
  exact ⟨fun x hx => (nomatch hx), .nil⟩

theorem laidOut_cons_iff {width : Nat} {b : Bindings} {x : String × Field}
    {rest : List (String × Field)} :
    LaidOut width b (x :: rest) ↔
      (x.2.isEnabled b = true → x.2.start.isSome = true → Layout.fits width x.2 = true)
        ∧ (∀ y ∈ rest, x.2.isEnabled b = true → y.2.isEnabled b = true → x.2.Apart y.2)
        ∧ LaidOut width b rest := by
  constructor
  · rintro ⟨hinside, hapart⟩
    obtain ⟨hhead, hrest⟩ := List.pairwise_cons.mp hapart
    exact ⟨hinside x List.mem_cons_self, hhead,
      fun y hy => hinside y (List.mem_cons_of_mem _ hy), hrest⟩
  · rintro ⟨hx, hhead, hinside, hrest⟩
    exact ⟨List.forall_mem_cons.mpr ⟨hx, hinside⟩, List.pairwise_cons.mpr ⟨hhead, hrest⟩⟩

/-- `g` is what a pass makes of `f`: it takes no new bit, or it got its position where nothing of
`taken` is. -/
def KeptOrPlaced (width taken : Nat) (f g : Field) : Prop :=
  (∀ bit, g.Occupies bit → f.Occupies bit)
    ∨ f.start = none ∧ g.start.isSome = true ∧ Layout.fits width g = true ∧ taken &&& g.mask = 0

theorem keptOrPlaced_refl (width taken : Nat) (f : Field) : KeptOrPlaced width taken f f :=
  Or.inl fun _ h => h

theorem Field.Occupies.start_isSome {f : Field} {bit : Nat} (h : f.Occupies bit) :
    f.start.isSome = true :=
  h.isFixed.2

theorem keptOrPlaced_placeField {width taken : Nat} {f : Field}
    (hinside : f.start.isSome = true → Layout.fits width f = true) :
    KeptOrPlaced width taken f (Layout.placeField width taken f) := by
  cases hopen : f.start with
  | some start =>
      rw [Layout.placeField_of_isFixed _ _ (Layout.isFixed_of_fits (hinside (by simp [hopen])))]
      exact keptOrPlaced_refl _ _ _
  | none =>
      cases hplaced : (Layout.placeField width taken f).start with
      | none => exact Or.inl fun bit hbit => by simpa [hplaced] using hbit.start_isSome
      | some start =>
          exact Or.inr ⟨hopen, by simp [hplaced], Layout.fits_placeField hopen (by simp [hplaced]),
            Layout.placeField_free hopen⟩

/-- Two fields of a pass stay apart when each that is placed keeps off the other. -/
theorem KeptOrPlaced.apart {width occupied taken : Nat} {f f' g g' : Field} (hwidth : width ≤ 64)
    (hf : KeptOrPlaced width occupied f f') (hg : KeptOrPlaced width taken g g')
    (hapart : f.Apart g) (hinside : f'.start.isSome = true → Layout.fits width f' = true)
    (hinside' : g.start.isSome = true → Layout.fits width g = true)
    (hoff : f.start = none → f'.start.isSome = true → Covers g.mask occupied)
    (hoff' : g.start = none → g'.start.isSome = true → Covers f'.mask taken) : f'.Apart g' := by
  intro bit hbit hbit'
  rcases hg with hkept' | ⟨hopen', hplaced', hfits', hfree'⟩
  · have hold' := hkept' bit hbit'
    rcases hf with hkept | ⟨hopen, hplaced, hfits, hfree⟩
    · exact hapart bit (hkept bit hbit) hold'
    · exact Layout.apart_of_and_eq_zero hwidth (hinside' hold'.start_isSome) hfits
        (hoff hopen hplaced) hfree bit hold' hbit
  · exact Layout.apart_of_and_eq_zero hwidth (hinside hbit.start_isSome) hfits'
      (hoff' hopen' hplaced') hfree' bit hbit hbit'

namespace Layout

/-- Whenever the pass places a field that `b` enables, it keeps off all that `b` enables. -/
def KeepsOff (b : Bindings) (occupied : Nat) (all : List (String × Field))
    (x y : String × Field) : Prop :=
  x.2.isEnabled b = true → x.2.start = none → y.2.start.isSome = true →
    ∀ z ∈ all, z.2.isEnabled b = true → Covers z.2.mask occupied

theorem laidOut_placeField {width taken : Nat} {f : Field}
    (hinside : f.start.isSome = true → fits width f = true)
    (hplaced : (placeField width taken f).start.isSome = true) :
    fits width (placeField width taken f) = true := by
  cases hopen : f.start with
  | some start => exact fits_of_growsTo (placeField_growsTo _ _ f) (hinside (by simp [hopen]))
  | none => exact fits_placeField hopen (by rw [← Option.isSome_iff_ne_none]; exact hplaced)

theorem Placing.head_apart {width occupied occupied' : Nat} {wanted : String → Bool} {b : Bindings}
    {rest done : List (String × Field)} {conflict : Option FieldConflict} {f f' : Field}
    (hwidth : width ≤ 64) (hpass : Placing width wanted occupied' rest conflict done)
    (hrest : LaidOut width b rest) (hf : KeptOrPlaced width occupied f f')
    (hinside : f'.start.isSome = true → fits width f' = true)
    (hapart : ∀ z ∈ rest, z.2.isEnabled b = true → f.Apart z.2)
    (hoff : f.start = none → f'.start.isSome = true →
      ∀ z ∈ rest, z.2.isEnabled b = true → Covers z.2.mask occupied)
    (hoff' : Forall₂ (fun z y => z.2.isEnabled b = true → z.2.start = none →
      y.2.start.isSome = true → Covers f'.mask occupied') rest done) :
    ∀ y ∈ done, y.2.isEnabled b = true → f'.Apart y.2 := by
  intro y hy henabled
  obtain ⟨z, hz, hkeeps, hplaced⟩ := exists_left_of_forall₂
    (Forall₂.mp (fun _ _ => And.intro) hoff' hpass.forall₂_placed) hy
  have hz' : z.2.isEnabled b = true := by
    rcases hplaced with rfl | ⟨-, taken, -, rfl⟩ <;> exact henabled
  have hpair : ∃ taken, Covers occupied' taken ∧ KeptOrPlaced width taken z.2 y.2 := by
    rcases hplaced with rfl | ⟨-, taken, hcovers, rfl⟩
    · exact ⟨occupied', .refl _, keptOrPlaced_refl _ _ _⟩
    · exact ⟨taken, hcovers, keptOrPlaced_placeField (hrest.inside z hz hz')⟩
  obtain ⟨taken, hcovers, hpair⟩ := hpair
  exact hf.apart hwidth hpair (hapart z hz hz') hinside (hrest.inside z hz hz')
    (fun hopen hnew => hoff hopen hnew z hz hz')
    fun hopen hnew => (hkeeps hz' hopen hnew).trans hcovers

/-- A pass leaves fields laid out when it keeps off everything in sight. -/
theorem Placing.laidOut {width occupied : Nat} {wanted : String → Bool} {b : Bindings}
    {fields done : List (String × Field)} {conflict : Option FieldConflict} (hwidth : width ≤ 64)
    (h : Placing width wanted occupied fields conflict done) (hlaid : LaidOut width b fields)
    (hoff : Forall₂ (KeepsOff b occupied fields) fields done) : LaidOut width b done := by
  induction h with
  | nil => exact hlaid
  | @skip occupied name f rest conflict done _ hpass ih =>
      obtain ⟨hinside, hhead, hrest⟩ := laidOut_cons_iff.mp hlaid
      obtain ⟨-, htail⟩ := List.forall₂_cons.mp hoff
      refine laidOut_cons_iff.mpr ⟨hinside, fun y hy henabled => ?_, ih hrest (htail.imp ?_)⟩
      · refine hpass.head_apart hwidth hrest (keptOrPlaced_refl width occupied f)
          (hinside henabled) (fun z hz => hhead z hz henabled) ?_ (htail.imp ?_) y hy
        · intro hopen hplaced
          simp [hopen] at hplaced
        · intro z y hzy hz hopen hplaced
          exact hzy hz hopen hplaced _ List.mem_cons_self henabled
      · intro x y hxy henabled hopen hplaced z hz
        exact hxy henabled hopen hplaced z (List.mem_cons_of_mem _ hz)
  | @fit occupied name f rest conflict done _ hfits hpass ih =>
      obtain ⟨hinside, hhead, hrest⟩ := laidOut_cons_iff.mp hlaid
      obtain ⟨hfirst, htail⟩ := List.forall₂_cons.mp hoff
      refine laidOut_cons_iff.mpr ⟨fun _ _ => hfits, fun y hy henabled => ?_,
        ih hrest (htail.imp ?_)⟩
      · refine hpass.head_apart hwidth hrest (keptOrPlaced_placeField (hinside henabled))
          (fun _ => hfits) (fun z hz => hhead z hz henabled) ?_ (htail.imp ?_) y hy
        · intro hopen hplaced z hz
          exact hfirst henabled hopen hplaced z (List.mem_cons_of_mem _ hz)
        · intro _ _ _ _ _ _
          exact covers_or_right _ _
      · intro x y hxy henabled hopen hplaced z hz hz'
        exact (hxy henabled hopen hplaced z (List.mem_cons_of_mem _ hz) hz').trans
          (covers_or_left _ _)
  | @stop occupied name f rest _ hfails =>
      obtain ⟨hinside, hhead, hrest⟩ := laidOut_cons_iff.mp hlaid
      have hopen : f.isEnabled b = true → ¬ (placeField width occupied f).start.isSome = true := by
        intro henabled hplaced
        rw [laidOut_placeField (hinside henabled) hplaced] at hfails
        cases hfails
      refine laidOut_cons_iff.mpr ⟨fun henabled hplaced => absurd hplaced (hopen henabled), ?_,
        hrest⟩
      intro y hy henabled _ bit hbit
      exact absurd hbit.start_isSome (hopen henabled)

end Layout

/-- No field that `b` enables is put at a position without a length, and positions are found for
such fields only where all fixed fields that `b` enables can be seen. -/
def SeesAll (b : Bindings) : Family.Rule := fun l at' request =>
  (∀ spec, request = .add spec → b.holds at' = true → spec.start.isSome = true →
    spec.length.isSome = true)
  ∧ ∀ x ∈ l.fields, x.2.isEnabled b = true → ¬ Layout.PlacesUnseen b x.1 l at' request

namespace LaidOut

variable {l : Layout} {b at' : Bindings}

theorem added (h : LaidOut l.width b l.fields) {spec : FieldSpec}
    (hfree : l.addConflict? at' spec = none)
    (hlength : b.holds at' = true → spec.start.isSome = true → spec.length.isSome = true) :
    LaidOut l.width b (l.fields ++ [Layout.added at' spec]) := by
  obtain ⟨-, -, -, hposition⟩ := Layout.addConflict?_eq_none_iff.mp hfree
  have hrange : ∀ length start, spec.length = some length → spec.start = some start →
      start + length ≤ l.width ∧ l.overlap? at' start (start + length) = none := by
    intro length start hspecLength hstart
    simpa only [hspecLength, Option.getD_some] using
      Layout.positionConflict?_eq_none_iff.mp (hposition start hstart)
  constructor
  · intro x hx henabled hplaced
    rcases List.mem_append.mp hx with hx | hx
    · exact h.inside x hx henabled hplaced
    · cases List.mem_singleton.mp hx
      obtain ⟨start, hstart⟩ := Option.isSome_iff_exists.mp hplaced
      obtain ⟨length, hspecLength⟩ := Option.isSome_iff_exists.mp (hlength henabled hplaced)
      exact Layout.fits_iff.mpr ⟨length, start, hspecLength, hstart,
        (hrange length start hspecLength hstart).1⟩
  · refine List.pairwise_append.mpr ⟨h.apart, List.pairwise_singleton _ _, ?_⟩
    intro x hx y hy henabled henabled' bit hbit hbit'
    cases List.mem_singleton.mp hy
    obtain ⟨length, start, hx1, hx2, hxlow, hxhigh⟩ := hbit
    obtain ⟨length', start', hy1, hy2, hylow, hyhigh⟩ := hbit'
    -- both fields exist under `b`, so their conditions agree and the ranges were compared
    have hmeet : x.2.mayMeet at' = true := Bindings.agree_of_holds henabled henabled'
    have hapart := Layout.overlap?_eq_none_iff.mp (hrange length' start' hy1 hy2).2 x hx start hx2
      hmeet
    rw [hx1, Option.getD_some] at hapart
    omega

theorem of_forall₂ {width : Nat} {fields fields' : List (String × Field)}
    (h : LaidOut width b fields) (hfits : ∀ x ∈ fields, Layout.fits width x.2 = true)
    (hgrown : Forall₂ Layout.SameGrown fields fields') : LaidOut width b fields' := by
  have hpairs := (forall₂_and_mem hgrown).imp fun x y hxy =>
    (⟨hxy.1.2, hfits x hxy.2.1⟩ : x.2.GrowsTo y.2 ∧ Layout.fits width x.2 = true)
  have hbits : ∀ f g : Field, f.GrowsTo g ∧ Layout.fits width f = true → ∀ bit,
      g.Occupies bit → f.Occupies bit := by
    rintro f g ⟨hgrows, hfits⟩ bit ⟨length, start, hlength, hstart, hbit⟩
    obtain ⟨length', start', hlength', hstart', -⟩ := Layout.fits_iff.mp hfits
    cases hlength.symm.trans (hgrows.length _ hlength')
    cases hstart.symm.trans (hgrows.start _ hstart')
    exact ⟨length, start, hlength', hstart', hbit⟩
  constructor
  · intro y hy _ _
    obtain ⟨x, -, hgrows, hfits⟩ := exists_left_of_forall₂ hpairs hy
    exact Layout.fits_of_growsTo hgrows hfits
  · refine pairwise_of_forall₂ hpairs h.apart ?_
    intro x x' y y' hxy hxy' hapart henabled henabled' bit hbit hbit'
    rw [hxy.1.isEnabled] at henabled
    rw [hxy'.1.isEnabled] at henabled'
    exact hapart henabled henabled' bit (hbits _ _ hxy bit hbit) (hbits _ _ hxy' bit hbit')

theorem noteValues (h : LaidOut l.width b l.fields) (values : Bindings) :
    LaidOut l.width b (l.noteValues values).fields := by
  have hpairs := Layout.forall₂_noteValues l values
  have hsame : ∀ x y : String × Field, y.2 = { x.2 with
      maxValue := max x.2.maxValue ((values.get? x.1).getD 0) } →
      y.2.isEnabled b = x.2.isEnabled b ∧ (∀ bit, y.2.Occupies bit ↔ x.2.Occupies bit) := by
    rintro x ⟨name, g⟩ rfl
    exact ⟨rfl, fun bit => Iff.rfl⟩
  constructor
  · intro y hy henabled hplaced
    obtain ⟨x, hx, -, hfield⟩ := exists_left_of_forall₂ hpairs hy
    rw [hfield] at henabled hplaced ⊢
    exact h.inside x hx henabled hplaced
  · refine pairwise_of_forall₂ hpairs h.apart ?_
    rintro x x' y y' ⟨-, hy⟩ ⟨-, hy'⟩ hapart henabled henabled' bit hbit hbit'
    obtain ⟨hx, hbits⟩ := hsame x y hy
    obtain ⟨hx', hbits'⟩ := hsame x' y' hy'
    exact hapart (hx ▸ henabled) (hx' ▸ henabled') bit ((hbits bit).mp hbit)
      ((hbits' bit).mp hbit')

theorem congr {width : Nat} {b' : Bindings} {fields : List (String × Field)}
    (h : LaidOut width b fields) (hsame : ∀ x ∈ fields, x.2.isEnabled b' = x.2.isEnabled b) :
    LaidOut width b' fields := by
  constructor
  · intro x hx henabled
    exact h.inside x hx (hsame x hx ▸ henabled)
  · refine h.apart.imp_of_mem ?_
    intro x y hx hy hapart henabled henabled'
    exact hapart (hsame x hx ▸ henabled) (hsame y hy ▸ henabled')

theorem readable (h : LaidOut l.width b l.fields) (hwidth : l.width ≤ 64) {names : List String}
    (hholds : ∀ name ∈ names, ∃ f length start v, l.Holds b name f length start v
      ∧ f.isEnabled b = true) : l.Readable b names where
  width := hwidth
  holds name hname := by
    obtain ⟨f, length, start, v, hholds, -⟩ := hholds name hname
    exact ⟨f, length, start, v, hholds⟩
  apart := by
    intro x hx y hy hne f g hf hg
    obtain ⟨f', _, _, _, hheld, henabled⟩ := hholds x hx
    obtain ⟨g', _, _, _, hheld', henabled'⟩ := hholds y hy
    cases hheld.find.symm.trans hf
    cases hheld'.find.symm.trans hg
    have hsymm : Std.Symm fun x y : String × Field => x.2.isEnabled b = true →
        y.2.isEnabled b = true → x.2.Apart y.2 :=
      ⟨fun x y hxy hy hx => (hxy hx hy).symm⟩
    exact h.apart.forall (Layout.mem_of_find? hf) (Layout.mem_of_find? hg)
      (fun heq => hne (congrArg Prod.fst heq)) henabled henabled'

theorem renders (h : LaidOut l.width b l.fields) (hwidth : l.width ≤ 64) {output : Output}
    {selector : Selector} {answer : Except KeyError Nat} {l' : Layout}
    (hrendering : Layout.Rendering l at' output selector answer l')
    (hoff : Forall₂ (Layout.KeepsOff b (l.occupied at') l.fields) l.fields l'.fields) :
    LaidOut l.width b l'.fields := by
  cases hrendering with
  | refused => exact h
  | blocked _ hpass => exact hpass.laidOut hwidth h hoff
  | rendered _ hpass => exact hpass.laidOut hwidth h hoff

theorem after (h : LaidOut l.width b l.fields) (hwidth : l.width ≤ 64) {request : Request}
    (hsees : SeesAll b l at' request) :
    LaidOut (l.after at' request).width b (l.after at' request).fields := by
  obtain ⟨hlength, hunseen⟩ := hsees
  have hstep := Layout.after_step l at' request
  have hoff : ∀ x y, Layout.SameGrown x y ∧ x ∈ l.fields ∧ y ∈ (l.after at' request).fields →
      Layout.KeepsOff b (l.occupied at') l.fields x y := by
    rintro ⟨name, f⟩ ⟨_, g⟩ ⟨⟨rfl, -⟩, hx, hy⟩ henabled hopen hplaced z hz hz' bit hbit
    refine Layout.testBit_occupied.mpr ⟨z, hz, ?_, hbit⟩
    by_contra hhidden
    refine hunseen _ hx henabled ⟨f, g, hx, hopen, hy, hplaced, z, hz, ?_, hz', by simpa using hhidden⟩
    by_contra hunfixed
    simp [Field.mask_of_not_isFixed hunfixed] at hbit
  rw [hstep.growsTo.width]
  generalize l.after at' request = l' at hstep hoff ⊢
  generalize l.derived at' request = derived at hstep
  cases hstep with
  | kept => exact h
  | added hfree => exact h.added hfree (hlength _ rfl)
  | bound => exact h.noteValues _
  | rendered hrendering =>
      refine h.renders hwidth hrendering ?_
      refine (forall₂_and_mem (hrendering.forall₂_placed.imp ?_)).imp hoff
      rintro x y (rfl | ⟨-, taken, -, rfl⟩)
      · exact .refl _
      · exact ⟨rfl, Layout.placeField_growsTo _ _ _⟩

end LaidOut

namespace Family

variable {fam : Family} {b : Bindings}

theorem Reaches.laidOut {start : Family} (hreach : Reaches (SeesAll b) start fam)
    (hstart : start.WellFormed) (h : LaidOut start.layout.width b start.layout.fields) :
    LaidOut fam.layout.width b fam.layout.fields := by
  induction hreach with
  | refl => exact h
  | ask hprior _ hsees ih => exact ih.after (hprior.wellFormed hstart).width hsees

/-- All that `b` enables is placed, and apart; then a key of all fields is readable. -/
theorem WellFormed.readable (h : fam.WellFormed) (hb : b ∈ fam.members)
    (hlaid : LaidOut fam.layout.width b fam.layout.fields)
    (hfits : ∀ x ∈ fam.layout.enabled b, Layout.fits fam.layout.width x.2 = true)
    (hbound : ∀ x ∈ fam.layout.enabled b, (b.get? x.1).isSome = true) :
    fam.layout.Readable b ((fam.layout.enabled b).map (·.1)) := by
  refine hlaid.readable h.width fun name hname => ?_
  obtain ⟨x, hx, rfl⟩ := List.mem_map.mp hname
  obtain ⟨v, hget⟩ := Option.isSome_iff_exists.mp (hbound x hx)
  obtain ⟨hmem, henabled⟩ := List.mem_filter.mp hx
  have hfind := Layout.find?_of_mem h.names hmem
  obtain ⟨length, start, hholds⟩ := h.exists_holds hb hfind (hfits x hx) hget
  exact ⟨x.2, length, start, v, hholds, henabled⟩

/-- What is bound can be read back from the key of all fields, and nothing else can. -/
theorem WellFormed.get?_eq_some_iff (h : fam.WellFormed) (hb : b ∈ fam.members)
    (hfits : ∀ x ∈ fam.layout.enabled b, Layout.fits fam.layout.width x.2 = true)
    (hbound : ∀ x ∈ fam.layout.enabled b, (b.get? x.1).isSome = true)
    (hreadable : fam.layout.Readable b ((fam.layout.enabled b).map (·.1))) (name : String)
    (v : Nat) :
    b.get? name = some v ↔ ∃ f length start, (name, f) ∈ fam.layout.enabled b
      ∧ f.length = some length ∧ f.start = some start
      ∧ (fam.layout.keyBits b ((fam.layout.enabled b).map (·.1)) >>> start) &&& ones length = v := by
  constructor
  · intro hget
    obtain ⟨f, hfind, henabled⟩ := h.bound b hb name v hget
    have hmem : (name, f) ∈ fam.layout.enabled b :=
      List.mem_filter.mpr ⟨Layout.mem_of_find? hfind, henabled⟩
    obtain ⟨length, start, hholds⟩ := h.exists_holds hb hfind (hfits _ hmem) hget
    exact ⟨f, length, start, hmem, hholds.length_eq, hholds.start_eq,
      hreadable.value_eq (List.mem_map_of_mem hmem) hholds⟩
  · rintro ⟨f, length, start, hmem, hlength, hstart, rfl⟩
    have hfind := Layout.find?_of_mem h.names (List.mem_filter.mp hmem).1
    obtain ⟨v, hget⟩ := Option.isSome_iff_exists.mp (hbound _ hmem)
    obtain ⟨length', start', hholds⟩ := h.exists_holds hb hfind (hfits _ hmem) hget
    cases hlength.symm.trans hholds.length_eq
    cases hstart.symm.trans hholds.start_eq
    rw [hget]
    exact congrArg some (hreadable.value_eq (List.mem_map_of_mem hmem) hholds).symm

theorem seesAll_render (l : Layout) (b : Bindings) (output : Output) (selector : Selector) :
    SeesAll b l b (.render output selector) := by
  refine ⟨fun _ => nofun, fun x _ _ => ?_⟩
  rintro ⟨f, g, -, -, -, -, z, -, -, henabled, hhidden⟩
  rw [henabled] at hhidden
  cases hhidden

/-- Once the mask of all fields of a keyspace has been rendered, these lie inside the width and no
two of them share a bit, and when all are bound, the key of all fields gives back exactly what is
bound. -/
theorem masked_fields_apart {width m : Nat} {l masked : Layout}
    (hnew : Layout.ofWidth width = .ok l) (hreach : Reaches (SeesAll b) (root l) fam)
    (hb : b ∈ fam.members) (hmask : fam.layout.render b .mask .all = (.ok m, masked)) :
    (masked.enabled b).Pairwise (fun x y => x.2.Apart y.2)
      ∧ (∀ x ∈ masked.enabled b, Layout.fits width x.2 = true)
      ∧ ((∀ x ∈ masked.enabled b, (b.get? x.1).isSome = true) →
        ∃ key, masked.render b .key .all = (.ok key, masked) ∧ ∀ name v,
          b.get? name = some v ↔ ∃ f length start, (name, f) ∈ masked.enabled b
            ∧ f.length = some length ∧ f.start = some start
            ∧ (key >>> start) &&& ones length = v) := by
  have hasked : Reaches (SeesAll b) (root l) (fam.ask b (.render .mask .all)) :=
    .ask hreach hb (seesAll_render _ _ _ _)
  have hlayout : (fam.ask b (.render .mask .all)).layout = masked := congrArg Prod.snd hmask
  have hmember : b ∈ (fam.ask b (.render .mask .all)).members := List.mem_append_left _ hb
  have hwell := hasked.wellFormed (wellFormed_root hnew)
  have hlaid : LaidOut masked.width b masked.fields := by
    rw [← hlayout]
    exact hasked.laidOut (wellFormed_root hnew) (laidOut_of_ofWidth hnew b)
  have hwidth : masked.width = width := by
    rw [← hlayout, hasked.growsTo.width]
    obtain ⟨-, rfl⟩ := Layout.ofWidth_eq_ok_iff.mp hnew
    rfl
  have hrendering := Layout.render_rendering fam.layout b .mask .all
  rw [hmask] at hrendering
  obtain ⟨_, hsettled, -⟩ := Layout.settled_of_rendering hrendering
  refine ⟨?_, hwidth ▸ hsettled.enabled_fits, fun hbound => ?_⟩
  · refine (hlaid.apart.filter _).imp_of_mem fun hx hy hapart => ?_
    exact hapart (List.mem_filter.mp hx).2 (List.mem_filter.mp hy).2
  · refine ⟨_, (hsettled.key_of_mask hbound).render_eq, ?_⟩
    generalize fam.ask b (.render .mask .all) = asked at hlayout hwell hmember
    subst hlayout
    exact hwell.get?_eq_some_iff hmember hsettled.enabled_fits hbound
      (hwell.readable hmember hlaid hsettled.enabled_fits hbound)

theorem WellFormed.seesAll (h : fam.WellFormed) (at' : Bindings) {request : Request}
    (hadd : ∀ spec, request = .add spec → spec.start.isSome = true → spec.length.isSome = true)
    (hrender : ∀ output selector, request ≠ .render output selector) :
    SeesAll b fam.layout at' request :=
  ⟨fun spec hspec _ => hadd spec hspec,
    fun _ _ _ => Layout.not_placesUnseen h.names hrender⟩

/-- Two fields sized and placed automatically, one of which exists while `t` is 0 only. -/
def packedRequests : List (Nat × Request) :=
  [(0, .add ((FieldSpec.named "t").placed 15 1)),
   (0, .bind [("t", 0)]),
   (1, .add (FieldSpec.named "g")),
   (0, .add (FieldSpec.named "f")),
   (1, .bind [("g", 5), ("f", 9)])]

def packed : Family := (root ⟨16, [], false⟩).play packedRequests

theorem reaches_packed (b : Bindings) : Reaches (SeesAll b) (root ⟨16, [], false⟩) packed := by
  refine reaches_play _ (by decide) fun mid hmid at' request hmem => ?_
  have hwell := hmid.wellFormed (wellFormed_root (show Layout.ofWidth 16 = _ from rfl))
  refine hwell.seesAll at' ?_ ?_
  · rintro spec rfl
    simp [packedRequests, FieldSpec.named, FieldSpec.placed] at hmem
    rcases hmem with rfl | rfl | rfl <;> decide
  · rintro output selector rfl
    simp [packedRequests] at hmem

theorem masked_fields_apart_packed :
    ∃ masked, packed.layout.render [("f", 9), ("g", 5), ("t", 0)] .mask .all = (.ok 32895, masked)
      ∧ (masked.enabled [("f", 9), ("g", 5), ("t", 0)]).Pairwise (fun x y => x.2.Apart y.2)
      ∧ ∃ key, masked.render [("f", 9), ("g", 5), ("t", 0)] .key .all = (.ok key, masked) := by
  have hmask : packed.layout.render [("f", 9), ("g", 5), ("t", 0)] .mask .all
      = (.ok 32895, (packed.layout.render [("f", 9), ("g", 5), ("t", 0)] .mask .all).2) := by
    decide
  obtain ⟨hapart, -, hkey⟩ := masked_fields_apart (show Layout.ofWidth 16 = _ from rfl)
    (reaches_packed _) (by decide) hmask
  obtain ⟨key, hrender, -⟩ := hkey (by decide)
  exact ⟨_, hmask, hapart, key, hrender⟩

/-- While `t` is 1, `f` gets its position where `g` is, which exists while `t` is 0. -/
def blindRequests : List (Nat × Request) :=
  [(0, .add ((FieldSpec.named "t").placed 15 1)),
   (0, .bind [("t", 0)]),
   (1, .add ((FieldSpec.named "g").placed 0 4)),
   (0, .add { FieldSpec.named "f" with length := some 4 }),
   (0, .bind [("t", 1)]),
   (2, .render .mask .all)]

/-- Beside `q` there is room for one bit of `p`, which needs two. -/
def crowdedRequests : List (Nat × Request) :=
  [(0, .add { FieldSpec.named "p" with start := some 0 }),
   (0, .add ((FieldSpec.named "q").placed 1 1)),
   (0, .bind [("p", 3)])]

/-- A family in which two fields of one mask share a bit. -/
def Meets (fam : Family) (b : Bindings) : Prop :=
  Reaches anything (root ⟨16, [], false⟩) fam ∧ b ∈ fam.members
    ∧ ∃ m masked, fam.layout.render b .mask .all = (.ok m, masked)
      ∧ ¬ (masked.enabled b).Pairwise fun x y => x.2.Apart y.2

/-- Fields may share bits when one is placed where the other cannot be seen, and also when one is
put at a position and grows into the other. -/
theorem masked_fields_may_meet :
    Meets ((root ⟨16, [], false⟩).play blindRequests) [("t", 0)]
      ∧ Meets ((root ⟨16, [], false⟩).play crowdedRequests) [("p", 3)] := by
  have hreach : ∀ requests, Reaches anything (root ⟨16, [], false⟩)
      ((root ⟨16, [], false⟩).play requests) :=
    fun _ => reaches_play _ (by decide) fun _ _ _ _ _ => trivial
  refine ⟨⟨hreach _, by decide, _, _, rfl, fun hapart => ?_⟩,
    ⟨hreach _, by decide, _, _, rfl, fun hapart => ?_⟩⟩
  · obtain ⟨-, htail⟩ := List.pairwise_cons.mp hapart
    obtain ⟨hhead, -⟩ := List.pairwise_cons.mp htail
    refine hhead _ List.mem_cons_self 0 ⟨4, 0, ?_, ?_, ?_⟩ ⟨4, 0, ?_, ?_, ?_⟩ <;> decide
  · obtain ⟨hhead, -⟩ := List.pairwise_cons.mp hapart
    refine hhead _ List.mem_cons_self 1 ⟨2, 0, ?_, ?_, ?_⟩ ⟨1, 1, ?_, ?_, ?_⟩ <;> decide

end Family

end Manycore.Keyspace
