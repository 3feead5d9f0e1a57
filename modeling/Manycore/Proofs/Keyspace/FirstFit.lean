import Manycore.Proofs.Keyspace.Growth
import Mathlib.Order.Bounds.Defs

/-! # First fit

Fixing the fields of a layout, seen from outside. In the order of addition every listed field goes
to its own position, or else to the lowest one where its range keeps off the fixed fields of the
bindings and off the listed fields before it. What is said here is about ranges and bits; that the
words of the pass stand for the bits taken is said once, by `freeAt_iff`.
-/

namespace Manycore.Keyspace

/-- The range of `length` bits from `start` on lies inside the width and off the bits taken. -/
def FreeAt (width : Nat) (taken : Nat → Prop) (length start : Nat) : Prop :=
  start + length ≤ width ∧ ∀ bit, start ≤ bit → bit < start + length → ¬ taken bit

namespace Field

/-- Where a field goes: to its own position if its range ends inside the width there, and without a
position to the lowest free one. -/
def GoesTo (width : Nat) (taken : Nat → Prop) (f : Field) (start : Nat) : Prop :=
  match f.start with
  | some given => start = given ∧ given + f.fixedLength ≤ width
  | none => IsLeast {s | FreeAt width taken f.fixedLength s} start

/-- The field with its length fixed and its range from `start` on. -/
def fixedAt (f : Field) (start : Nat) : Field :=
  { f with length := some f.fixedLength, start := some start }

theorem occupies_fixedAt_iff {f : Field} {start bit : Nat} :
    (f.fixedAt start).Occupies bit ↔ start ≤ bit ∧ bit < start + f.fixedLength := by
  simp [Occupies, fixedAt]

theorem fixedAt_of_isFixed {f : Field} (h : f.IsFixed) {width start : Nat} {taken : Nat → Prop}
    (hgoes : f.GoesTo width taken start) : f.fixedAt start = f := by
  obtain ⟨length, given, hlength, hstart⟩ := h.bounds
  cases f
  simp_all [GoesTo, fixedAt, fixedLength]

end Field

section

variable {width occupied : Nat} {taken : Nat → Prop}

/-- The bits of a word below the width are the bits taken. -/
def Marks (width : Nat) (taken : Nat → Prop) (occupied : Nat) : Prop :=
  ∀ bit < width, occupied.testBit bit = true ↔ taken bit

theorem freeAt_iff (hwidth : width ≤ 64) (hmarks : Marks width taken occupied)
    {length start : Nat} : FreeAt width taken length start ↔
      start + length ≤ width ∧ occupied &&& (ones length <<< start) = 0 := by
  refine and_congr_right fun hle => ?_
  simp only [and_eq_zero_iff, testBit_span (show length ≤ 64 by omega), decide_eq_false_iff_not]
  constructor
  · intro hfree bit hbit ⟨hlow, hhigh⟩
    exact hfree bit hlow hhigh ((hmarks bit (by omega)).mp hbit)
  · intro hfree bit hlow hhigh hbit
    exact hfree bit ((hmarks bit (by omega)).mpr hbit) ⟨hlow, hhigh⟩

theorem firstFit?_eq_some_iff (hwidth : width ≤ 64) (hmarks : Marks width taken occupied)
    {length start : Nat} : Layout.firstFit? width occupied length = some start ↔
      IsLeast {s | FreeAt width taken length s} start := by
  constructor
  · intro h
    refine ⟨(freeAt_iff hwidth hmarks).mpr (Layout.firstFit?_eq_some h), fun lower hlower => ?_⟩
    by_contra hlt
    obtain ⟨hle, hfree⟩ := (freeAt_iff hwidth hmarks).mp hlower
    simp only [Layout.firstFit?] at h
    split at h
    · have hnone := (List.find?_range_eq_some.mp h).2.2 lower (by omega)
      simp [hfree] at hnone
    · cases h
  · rintro ⟨hstart, hleast⟩
    obtain ⟨hle, hfree⟩ := (freeAt_iff hwidth hmarks).mp hstart
    apply Layout.firstFit?_eq_of_free hle hfree
    intro lower hlower hfree
    have hlowest := hleast ((freeAt_iff hwidth hmarks).mpr ⟨by omega, hfree⟩)
    omega

/-- A field goes to where placing it leaves it, if it fits there. -/
theorem goesTo_iff (hwidth : width ≤ 64) (hmarks : Marks width taken occupied) {f : Field}
    {start : Nat} : f.GoesTo width taken start ↔
      Layout.placeField width occupied f = f.fixedAt start ∧ start + f.fixedLength ≤ width := by
  unfold Field.GoesTo
  cases hgiven : f.start with
  | some given =>
      have hplaced : Layout.placeField width occupied f = f.fixedAt given := by
        simp [Layout.placeField, Field.fixedAt, hgiven]
      rw [hplaced]
      simp only [Field.fixedAt, Field.mk.injEq, Option.some.injEq, true_and, and_true]
      constructor
      · rintro ⟨rfl, hle⟩
        exact ⟨rfl, hle⟩
      · rintro ⟨rfl, hle⟩
        exact ⟨rfl, hle⟩
  | none =>
      rw [← firstFit?_eq_some_iff hwidth hmarks]
      constructor
      · intro hfit
        exact ⟨by simp [Layout.placeField, Field.fixedAt, hgiven, hfit],
          (Layout.firstFit?_eq_some hfit).1⟩
      · rintro ⟨hplaced, -⟩
        simpa [Layout.placeField, Field.fixedAt, hgiven] using congrArg Field.start hplaced

theorem fits_placeField_iff (hwidth : width ≤ 64) (hmarks : Marks width taken occupied)
    {f : Field} : Layout.fits width (Layout.placeField width occupied f) = true ↔
      ∃ start, f.GoesTo width taken start := by
  simp only [goesTo_iff hwidth hmarks]
  constructor
  · intro h
    obtain ⟨length, start, hlength, hstart, hle⟩ := Layout.fits_iff.mp h
    rw [Layout.placeField_length, Option.some.injEq] at hlength
    subst hlength
    exact ⟨start, by simp [Field.fixedAt, ← hstart, Layout.placeField], hle⟩
  · rintro ⟨start, hplaced, hle⟩
    rw [hplaced]
    exact Layout.fits_iff.mpr ⟨_, start, rfl, rfl, hle⟩

theorem placeField_of_fits_eq_false {f : Field}
    (h : Layout.fits width (Layout.placeField width occupied f) = false) :
    Layout.placeField width occupied f = { f with length := some f.fixedLength } := by
  cases hgiven : f.start with
  | some given => simp [Layout.placeField, hgiven]
  | none =>
      cases hfit : Layout.firstFit? width occupied f.fixedLength with
      | none => simp [Layout.placeField, hgiven, hfit]
      | some start =>
          rw [Layout.fits_placeField hgiven (by simp [Layout.placeField, hgiven, hfit])] at h
          cases h

end

/-- The bits taken once a field has had its turn: a listed one takes those of its range. -/
def TakenWith (entry : Nat → Prop) (names : List String) (y : String × Field) (bit : Nat) : Prop :=
  entry bit ∨ y.1 ∈ names ∧ y.2.Occupies bit

/-- The bits taken when a pass comes to a place: those taken on entry and those of the listed fields
before it, as the pass leaves them. -/
def TakenBefore (entry : Nat → Prop) (names : List String) (done : List (String × Field))
    (place bit : Nat) : Prop :=
  entry bit ∨ ∃ y ∈ done.take place, y.1 ∈ names ∧ y.2.Occupies bit

/-- The listed field at this place went where first fit sends it. -/
def SettledAt (width : Nat) (entry : Nat → Prop) (names : List String)
    (fields done : List (String × Field)) (place : Nat) : Prop :=
  ∀ name f, fields[place]? = some (name, f) → name ∈ names →
    ∃ start, f.GoesTo width (TakenBefore entry names done place) start
      ∧ done[place]? = some (name, f.fixedAt start)

/-- The listed field at this place goes nowhere. Only its length is fixed, and nothing after it. -/
def StoppedAt (width : Nat) (entry : Nat → Prop) (names : List String)
    (fields done : List (String × Field)) (cause : FieldConflict) (place : Nat) : Prop :=
  ∃ name f, fields[place]? = some (name, f) ∧ name ∈ names
    ∧ (∀ start, ¬ f.GoesTo width (TakenBefore entry names done place) start)
    ∧ cause = .noRoom name f.fixedLength width
    ∧ done[place]? = some (name, { f with length := some f.fixedLength })
    ∧ done.drop (place + 1) = fields.drop (place + 1)

/-- First fit over a list of fields. -/
inductive FirstFit (width : Nat) (entry : Nat → Prop) (names : List String)
    (fields done : List (String × Field)) : Option FieldConflict → Prop where
  | settled : (∀ place, SettledAt width entry names fields done place) →
    FirstFit width entry names fields done none
  | stopped {cause stop} : StoppedAt width entry names fields done cause stop →
    (∀ place < stop, SettledAt width entry names fields done place) →
    FirstFit width entry names fields done (some cause)

section

variable {width occupied : Nat} {entry : Nat → Prop} {names : List String}
  {fields done : List (String × Field)} {conflict : Option FieldConflict}

theorem takenBefore_zero : TakenBefore entry names done 0 = entry := by
  funext bit
  simp [TakenBefore]

theorem takenBefore_succ (y : String × Field) (place : Nat) :
    TakenBefore entry names (y :: done) (place + 1)
      = TakenBefore (TakenWith entry names y) names done place := by
  funext bit
  simp [TakenBefore, TakenWith, or_assoc]

theorem settledAt_succ_iff {x y : String × Field} {place : Nat} :
    SettledAt width entry names (x :: fields) (y :: done) (place + 1) ↔
      SettledAt width (TakenWith entry names y) names fields done place := by
  simp only [SettledAt, List.getElem?_cons_succ, takenBefore_succ]

theorem StoppedAt.cons {x y : String × Field} {cause : FieldConflict} {place : Nat}
    (h : StoppedAt width (TakenWith entry names y) names fields done cause place) :
    StoppedAt width entry names (x :: fields) (y :: done) cause (place + 1) := by
  simpa only [StoppedAt, List.getElem?_cons_succ, List.drop_succ_cons, takenBefore_succ] using h

theorem FirstFit.cons {x y : String × Field}
    (hhead : SettledAt width entry names (x :: fields) (y :: done) 0)
    (hrest : FirstFit width (TakenWith entry names y) names fields done conflict) :
    FirstFit width entry names (x :: fields) (y :: done) conflict := by
  cases hrest with
  | settled hsettled =>
      apply FirstFit.settled
      intro place
      cases place with
      | zero => exact hhead
      | succ place => exact settledAt_succ_iff.mpr (hsettled place)
  | @stopped _ stop hstopped hsettled =>
      apply FirstFit.stopped hstopped.cons
      intro place hplace
      cases place with
      | zero => exact hhead
      | succ place => exact settledAt_succ_iff.mpr (hsettled place (by omega))

theorem Marks.cons (hwidth : width ≤ 64) (hmarks : Marks width entry occupied)
    (names : List String) (y : String × Field) :
    Marks width (TakenWith entry names y)
      (if names.contains y.1 then occupied ||| y.2.mask else occupied) := by
  intro bit hbit
  unfold TakenWith
  by_cases hlisted : y.1 ∈ names
  · simp only [hlisted, List.contains_iff_mem, if_true, true_and, Nat.testBit_or, Bool.or_eq_true,
      hmarks bit hbit, Field.testBit_mask_iff (show bit < 64 by omega)]
  · simp only [hlisted, List.contains_iff_mem, if_false, false_and, or_false, hmarks bit hbit]

end

/-- The pass over the fields is first fit. -/
theorem Layout.Placing.firstFit {width occupied : Nat} {entry : Nat → Prop} {names : List String}
    {fields done : List (String × Field)} {conflict : Option FieldConflict} (hwidth : width ≤ 64)
    (hmarks : Marks width entry occupied)
    (h : Placing width (names.contains ·) occupied fields conflict done) :
    FirstFit width entry names fields done conflict := by
  induction h generalizing entry with
  | nil => exact .settled fun _ _ _ hfound => nomatch hfound
  | @skip _ name f _ _ _ hskip _ ih =>
      have hnext := hmarks.cons hwidth names (name, f)
      rw [if_neg (by simpa using hskip)] at hnext
      refine FirstFit.cons ?_ (ih hnext)
      intro _ _ hfound hlisted
      cases hfound
      simp [hlisted] at hskip
  | @fit occupied name f _ _ _ hwanted hfits _ ih =>
      have hnext := hmarks.cons hwidth names (name, placeField width occupied f)
      rw [if_pos hwanted] at hnext
      refine FirstFit.cons ?_ (ih hnext)
      intro _ _ hfound _
      cases hfound
      obtain ⟨start, hgoes⟩ := (fits_placeField_iff hwidth hmarks).mp hfits
      obtain ⟨hplaced, -⟩ := (goesTo_iff hwidth hmarks).mp hgoes
      rw [takenBefore_zero]
      exact ⟨start, hgoes, by rw [← hplaced]; rfl⟩
  | @stop occupied name f rest hwanted hfits =>
      have hhomeless : ∀ start, ¬ f.GoesTo width entry start := by
        rw [← not_exists, ← fits_placeField_iff hwidth hmarks, hfits]
        exact Bool.false_ne_true
      have hstopped : StoppedAt width entry names ((name, f) :: rest)
          ((name, placeField width occupied f) :: rest) (.noRoom name f.fixedLength width) 0 := by
        rw [placeField_of_fits_eq_false hfits]
        exact ⟨name, f, rfl, by simpa using hwanted, by rwa [takenBefore_zero], rfl, rfl, rfl⟩
      exact .stopped hstopped fun _ hplace => nomatch hplace

namespace Layout

/-- A bit is taken under `b` when it lies in the range of an enabled field. -/
def Takes (l : Layout) (b : Bindings) (bit : Nat) : Prop := ∃ x ∈ l.enabled b, x.2.Occupies bit

theorem marks_occupied (l : Layout) (b : Bindings) (hwidth : l.width ≤ 64) :
    Marks l.width (l.Takes b) (l.occupied b) := by
  intro bit hbit
  simp only [testBit_occupied, Takes, enabled, List.mem_filter, and_assoc,
    Field.testBit_mask_iff (show bit < 64 by omega)]

/-- What fixing the listed fields under `b` answers and leaves. -/
structure FixedByFirstFit (l : Layout) (b : Bindings) (names : List String)
    (conflict : Option FieldConflict) (l' : Layout) : Prop where
  layout : l' = { l with fields := l'.fields }
  fixed : List.Forall₂ (fun x y => FixedIf (x.1 ∈ names) x y) l.fields l'.fields
  firstFit : FirstFit l.width (l.Takes b) names l.fields l'.fields conflict
  fails_iff : conflict.isSome = true ↔ ∃ (place : Nat) (name : String) (f : Field),
    l.fields[place]? = some (name, f) ∧ name ∈ names
      ∧ ∀ start, ¬ f.GoesTo l.width (TakenBefore (l.Takes b) names l'.fields place) start
  apart : conflict = none →
    (∀ x ∈ l.enabled b, x.2.start.isSome = true → x.2.length.isSome = true) →
    (l.enabled b).Pairwise (fun x y => x.2.Apart y.2) →
    (l'.enabled b).Pairwise fun x y => x.2.Apart y.2

end Layout

section

variable {width : Nat} {entry : Nat → Prop} {names : List String}
  {fields done : List (String × Field)} {conflict : Option FieldConflict}

theorem FirstFit.isSome_iff (h : FirstFit width entry names fields done conflict) :
    conflict.isSome = true ↔ ∃ (place : Nat) (name : String) (f : Field),
      fields[place]? = some (name, f) ∧ name ∈ names
      ∧ ∀ start, ¬ f.GoesTo width (TakenBefore entry names done place) start := by
  cases h with
  | settled hsettled =>
      simp only [Option.isSome_none, Bool.false_eq_true, false_iff]
      rintro ⟨place, name, f, hfound, hlisted, hhomeless⟩
      obtain ⟨start, hgoes, -⟩ := hsettled place name f hfound hlisted
      exact hhomeless start hgoes
  | @stopped _ stop hstopped _ =>
      obtain ⟨name, f, hfound, hlisted, hhomeless, -⟩ := hstopped
      exact iff_of_true rfl ⟨stop, name, f, hfound, hlisted, hhomeless⟩

/-- A settled field is as it was, or it was put off all bits taken before it. -/
theorem SettledAt.eq_or_off {place : Nat} (h : SettledAt width entry names fields done place)
    {x y : String × Field} (hx : fields[place]? = some x) (hy : done[place]? = some y)
    (hfixed : Layout.FixedIf (x.1 ∈ names) x y)
    (hlength : x.2.start.isSome = true → x.2.length.isSome = true) :
    y = x ∨ y.1 ∈ names ∧ ∀ bit, y.2.Occupies bit → ¬ TakenBefore entry names done place bit := by
  by_cases hlisted : x.1 ∈ names
  · obtain ⟨start, hgoes, hplaced⟩ := h x.1 x.2 hx hlisted
    cases hy.symm.trans hplaced
    cases hstart : x.2.start with
    | some given =>
        have hbounds : x.2.IsFixed := ⟨hlength (by simp [hstart]), by simp [hstart]⟩
        exact Or.inl (by rw [Field.fixedAt_of_isFixed hbounds hgoes])
    | none =>
        simp only [Field.GoesTo, hstart] at hgoes
        refine Or.inr ⟨hlisted, fun bit hbit => ?_⟩
        obtain ⟨hlow, hhigh⟩ := Field.occupies_fixedAt_iff.mp hbit
        exact hgoes.1.2 bit hlow hhigh
  · exact Or.inl (hfixed.kept hlisted)

end

namespace Layout

/-- Fields that share no bit on entry share none after a pass that goes through, if none of them had
a position without a length. -/
theorem pairwise_apart_of_settled {l l' : Layout} {b : Bindings} {names : List String}
    (hfixed : List.Forall₂ (fun x y => FixedIf (x.1 ∈ names) x y) l.fields l'.fields)
    (hsettled : ∀ place, SettledAt l.width (l.Takes b) names l.fields l'.fields place)
    (hlength : ∀ x ∈ l.enabled b, x.2.start.isSome = true → x.2.length.isSome = true)
    (hapart : (l.enabled b).Pairwise fun x y => x.2.Apart y.2) :
    (l'.enabled b).Pairwise fun x y => x.2.Apart y.2 := by
  have hwas : ∀ {place : Nat} {y : String × Field}, l'.fields[place]? = some y →
      y.2.isEnabled b = true → ∃ x, l.fields[place]? = some x ∧ x ∈ l.enabled b
        ∧ (y = x ∨ y.1 ∈ names
          ∧ ∀ bit, y.2.Occupies bit → ¬ TakenBefore (l.Takes b) names l'.fields place bit) := by
    intro place y hy henabled
    obtain ⟨x, hx, hxy⟩ := forall₂_getElem? hfixed hy
    have hmem : x ∈ l.enabled b := by
      simp only [Field.isEnabled, hxy.conditions] at henabled
      exact List.mem_filter.mpr ⟨List.mem_of_getElem? hx, henabled⟩
    exact ⟨x, hx, hmem, (hsettled place).eq_or_off hx hy hxy (hlength x hmem)⟩
  simp only [enabled, List.pairwise_filter] at hapart ⊢
  refine List.pairwise_iff_getElem.mpr fun i j hi hj hlt henabled henabled' bit hbit hbit' => ?_
  obtain ⟨x, hx, hmem, hcase⟩ := hwas (List.getElem?_eq_getElem hi) henabled
  obtain ⟨x', hx', hmem', hcase'⟩ := hwas (List.getElem?_eq_getElem hj) henabled'
  rcases hcase' with hsame' | ⟨-, hoff'⟩
  · rw [hsame'] at hbit'
    rcases hcase with hsame | ⟨-, hoff⟩
    · rw [hsame] at hbit
      exact pairwise_getElem? hapart hx hx' hlt (List.mem_filter.mp hmem).2
        (List.mem_filter.mp hmem').2 bit hbit hbit'
    · exact hoff bit hbit (Or.inl ⟨x', hmem', hbit'⟩)
  · refine hoff' bit hbit' ?_
    rcases hcase with hsame | ⟨hlisted, -⟩
    · rw [hsame] at hbit
      exact Or.inl ⟨x, hmem, hbit⟩
    · refine Or.inr ⟨_, ?_, hlisted, hbit⟩
      exact List.mem_take_iff_getElem.mpr ⟨i, by omega, rfl⟩

/-- Fixing fields is first fit: every listed field, in the order of addition, goes to its own
position or else to the lowest where it keeps off all that is taken; it fails exactly at the first
that goes nowhere; and nothing else changes. -/
theorem assign_firstFit (l : Layout) (b : Bindings) (names : List String)
    (hwidth : l.width ≤ 64) :
    l.FixedByFirstFit b names (l.assign b names).1 (l.assign b names).2 := by
  have hpass := placeAll_placing l.width (names.contains ·) (l.occupied b) l.fields
  have hfit := hpass.firstFit hwidth (l.marks_occupied b hwidth)
  have hfixed := hpass.forall₂_fixedIf
  simp only [List.contains_iff_mem] at hfixed
  refine ⟨rfl, hfixed, hfit, hfit.isSome_iff, fun hnone hlength hapart => ?_⟩
  change (placeAll _ _ _ _).1 = none at hnone
  rw [hnone] at hfit
  cases hfit with
  | settled hsettled =>
      exact pairwise_apart_of_settled hfixed hsettled hlength hapart

/-- Eight bits with a field of each kind: fixed, open, pinned to a position, given a length, and one
that is hidden. -/
def board : Layout where
  width := 8
  frozen := false
  fields := [
    ("fixed", { length := some 2, start := some 0, tags := [], conditions := [], maxValue := 1 }),
    ("open", { length := none, start := none, tags := [], conditions := [], maxValue := 5 }),
    ("hidden", {
      length := some 1
      start := some 2
      tags := []
      conditions := [("open", 5)]
      maxValue := 1 }),
    ("pinned", { length := none, start := some 6, tags := [], conditions := [], maxValue := 3 }),
    ("sized", { length := some 1, start := none, tags := [], conditions := [], maxValue := 1 })]

/-- The field that comes last on the board keeps off the pinned one, which has its range by then. -/
theorem assign_firstFit_board :
    board.width ≤ 64 ∧ (board.assign [] ["open", "pinned", "sized"]).1 = none
      ∧ ((board.assign [] ["open", "pinned", "sized"]).2.fields.map fun x =>
          (x.2.length, x.2.start))
        = [(some 2, some 0), (some 3, some 2), (some 1, some 2), (some 2, some 6), (some 1, some 5)]
      ∧ board.FixedByFirstFit [] ["open", "pinned", "sized"]
        (board.assign [] ["open", "pinned", "sized"]).1
        (board.assign [] ["open", "pinned", "sized"]).2 :=
  ⟨by decide, by decide +kernel, by decide +kernel, assign_firstFit board [] _ (by decide)⟩

end Layout

end Manycore.Keyspace
