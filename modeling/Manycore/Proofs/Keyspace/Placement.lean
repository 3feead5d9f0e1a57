import Manycore.Proofs.Keyspace.Range
import Manycore.Proofs.Lists

/-! # Fixing lengths and positions

One pass over the fields of a layout fixes the wanted ones from left to right. `Placing` lists what
the pass does with one field; everything that is known about rendering follows from it: what was
fixed stays, a fixed field takes the first free window, and a pass that stops stops at a field that
has no window in the bits taken so far.
-/

namespace Manycore.Keyspace

/-- Every bit of `a` is a bit of `b`. -/
def Covers (a b : Nat) : Prop := ∀ bit, a.testBit bit = true → b.testBit bit = true

theorem Covers.refl (a : Nat) : Covers a a := fun _ h => h

theorem Covers.trans {a b c : Nat} (hab : Covers a b) (hbc : Covers b c) : Covers a c :=
  fun bit h => hbc bit (hab bit h)

theorem covers_or_left (a b : Nat) : Covers a (a ||| b) := by
  intro bit h
  simp [Nat.testBit_or, h]

theorem covers_or_right (a b : Nat) : Covers b (a ||| b) := by
  intro bit h
  simp [Nat.testBit_or, h]

theorem Covers.and_eq_zero {a b window : Nat} (h : Covers a b) (hfree : b &&& window = 0) :
    a &&& window = 0 :=
  and_eq_zero_iff.mpr fun bit ha => and_eq_zero_iff.mp hfree bit (h bit ha)

/-- `g` is `f` with open bounds fixed or larger values noted. -/
structure Field.GrowsTo (f g : Field) : Prop where
  tags : g.tags = f.tags
  conditions : g.conditions = f.conditions
  maxValue : f.maxValue ≤ g.maxValue
  length : ∀ n, f.length = some n → g.length = some n
  start : ∀ s, f.start = some s → g.start = some s

namespace Field.GrowsTo

theorem refl (f : Field) : f.GrowsTo f :=
  ⟨rfl, rfl, Nat.le_refl _, fun _ h => h, fun _ h => h⟩

theorem trans {f g h : Field} (hfg : f.GrowsTo g) (hgh : g.GrowsTo h) : f.GrowsTo h where
  tags := hgh.tags.trans hfg.tags
  conditions := hgh.conditions.trans hfg.conditions
  maxValue := Nat.le_trans hfg.maxValue hgh.maxValue
  length n hn := hgh.length n (hfg.length n hn)
  start s hs := hgh.start s (hfg.start s hs)

theorem isEnabled {f g : Field} (h : f.GrowsTo g) (b : Bindings) :
    g.isEnabled b = f.isEnabled b := by
  simp only [Field.isEnabled, h.conditions]

theorem mask {f g : Field} (h : f.GrowsTo g) (hfixed : f.IsFixed) : g.mask = f.mask := by
  obtain ⟨length, start, hlength, hstart⟩ := hfixed.bounds
  rw [mask_eq hlength hstart, mask_eq (h.length _ hlength) (h.start _ hstart)]

theorem covers {f g : Field} (h : f.GrowsTo g) : Covers f.mask g.mask := by
  by_cases hfixed : f.IsFixed
  · rw [h.mask hfixed]
    exact Covers.refl _
  · intro bit hbit
    simp [mask_of_not_isFixed hfixed] at hbit

end Field.GrowsTo

namespace Layout

theorem fits_of_growsTo {width : Nat} {f g : Field} (h : f.GrowsTo g)
    (hfits : fits width f = true) : fits width g = true := by
  obtain ⟨length, start, hlength, hstart, hle⟩ := fits_iff.mp hfits
  exact fits_iff.mpr ⟨length, start, h.length _ hlength, h.start _ hstart, hle⟩

theorem firstFit?_eq_some {width occupied length start : Nat}
    (h : firstFit? width occupied length = some start) :
    start + length ≤ width ∧ occupied &&& (ones length <<< start) = 0 := by
  simp only [firstFit?] at h
  split at h
  · have hfree := List.find?_some h
    have hmem := List.mem_of_find?_eq_some h
    simp only [List.mem_range, beq_iff_eq] at hmem hfree
    exact ⟨by omega, hfree⟩
  · cases h

theorem firstFit?_eq_none_iff {width occupied length : Nat} :
    firstFit? width occupied length = none ↔
      ∀ start, start + length ≤ width → occupied &&& (ones length <<< start) ≠ 0 := by
  simp only [firstFit?]
  split
  · simp only [List.find?_eq_none, List.mem_range, beq_iff_eq]
    exact ⟨fun h start hstart => h start (by omega), fun h start hstart => h start (by omega)⟩
  · exact ⟨fun _ start hstart => by omega, fun _ => rfl⟩

/-- What has no window in fewer bits has none in more. -/
theorem firstFit?_eq_none_of_covers {width a b length : Nat} (hcovers : Covers a b)
    (h : firstFit? width a length = none) : firstFit? width b length = none := by
  rw [firstFit?_eq_none_iff] at h ⊢
  intro start hstart hfree
  exact h start hstart (hcovers.and_eq_zero hfree)

theorem firstFit?_eq_of_free {width occupied length start : Nat} (hle : start + length ≤ width)
    (hfree : occupied &&& (ones length <<< start) = 0)
    (hleast : ∀ lower < start, occupied &&& (ones length <<< lower) ≠ 0) :
    firstFit? width occupied length = some start := by
  simp only [firstFit?, show length ≤ width by omega, if_true, List.find?_range_eq_some]
  refine ⟨by simpa using hfree, List.mem_range.mpr (by omega), fun lower hlower => ?_⟩
  simpa using hleast lower hlower

/-- Above bits that are all taken from zero on, the first window is the next one. -/
theorem firstFit?_above {width taken top length : Nat}
    (htaken : ∀ bit, taken.testBit bit = decide (bit < top)) (hpos : 0 < length)
    (hwidth : width ≤ 64) :
    firstFit? width taken length = if top + length ≤ width then some top else none := by
  have hwindow : ∀ start, start + length ≤ width →
      (taken &&& (ones length <<< start) = 0 ↔ top ≤ start) := by
    intro start hstart
    rw [and_eq_zero_iff]
    constructor
    · intro hfree
      by_contra hlow
      have hnone := hfree start (by rw [htaken, decide_eq_true_eq]; omega)
      rw [testBit_span (by omega), decide_eq_false_iff_not] at hnone
      omega
    · intro hhigh bit hbit
      rw [htaken, decide_eq_true_eq] at hbit
      rw [testBit_span (by omega), decide_eq_false_iff_not]
      omega
  split
  · rename_i hroom
    refine firstFit?_eq_of_free hroom ((hwindow top hroom).mpr (Nat.le_refl _)) ?_
    intro lower hlower hfree
    have hle := (hwindow lower (by omega)).mp hfree
    omega
  · rename_i hroom
    refine firstFit?_eq_none_iff.mpr fun start hstart hfree => hroom ?_
    have hle := (hwindow start hstart).mp hfree
    omega

theorem placeField_growsTo (width occupied : Nat) (f : Field) :
    f.GrowsTo (placeField width occupied f) where
  tags := rfl
  conditions := rfl
  maxValue := Nat.le_refl _
  length n hn := by simp [placeField, Field.fixedLength, hn]
  start s hs := by simp [placeField, hs]

theorem placeField_length (width occupied : Nat) (f : Field) :
    (placeField width occupied f).length = some f.fixedLength := rfl

theorem placeField_of_isFixed (width occupied : Nat) {f : Field} (h : f.IsFixed) :
    placeField width occupied f = f := by
  obtain ⟨length, start, hlength, hstart⟩ := h.bounds
  cases f
  simp_all [placeField, Field.fixedLength]

theorem placeField_free {width occupied : Nat} {f : Field} (hopen : f.start = none) :
    occupied &&& (placeField width occupied f).mask = 0 := by
  cases hfit : firstFit? width occupied f.fixedLength with
  | none =>
      rw [Field.mask_of_not_isFixed, Nat.and_zero]
      simp [Field.IsFixed, placeField, hopen, hfit]
  | some start =>
      have hstart : (placeField width occupied f).start = some start := by
        simp [placeField, hopen, hfit]
      rw [Field.mask_eq (placeField_length width occupied f) hstart]
      exact (firstFit?_eq_some hfit).2

theorem fits_placeField {width occupied : Nat} {f : Field} (hopen : f.start = none)
    (h : (placeField width occupied f).start ≠ none) :
    fits width (placeField width occupied f) = true := by
  cases hfit : firstFit? width occupied f.fixedLength with
  | none => simp [placeField, hopen, hfit] at h
  | some start =>
      exact fits_iff.mpr ⟨f.fixedLength, start, rfl, by simp [placeField, hopen, hfit],
        (firstFit?_eq_some hfit).1⟩

/-- A pass over fields, `occupied` being the bits taken before it. -/
inductive Placing (width : Nat) (wanted : String → Bool) :
    Nat → List (String × Field) → Option FieldConflict → List (String × Field) → Prop where
  | nil {occupied} : Placing width wanted occupied [] none []
  | skip {occupied name f rest conflict done} : wanted name = false →
    Placing width wanted occupied rest conflict done →
    Placing width wanted occupied ((name, f) :: rest) conflict ((name, f) :: done)
  | fit {occupied name f rest conflict done} : wanted name = true →
    fits width (placeField width occupied f) = true →
    Placing width wanted (occupied ||| (placeField width occupied f).mask) rest conflict done →
    Placing width wanted occupied ((name, f) :: rest) conflict
      ((name, placeField width occupied f) :: done)
  | stop {occupied name f rest} : wanted name = true →
    fits width (placeField width occupied f) = false →
    Placing width wanted occupied ((name, f) :: rest) (some (.noRoom name f.fixedLength width))
      ((name, placeField width occupied f) :: rest)

theorem placeAll_placing (width : Nat) (wanted : String → Bool) (occupied : Nat)
    (fields : List (String × Field)) :
    Placing width wanted occupied fields (placeAll width wanted occupied fields).1
      (placeAll width wanted occupied fields).2 := by
  induction fields generalizing occupied with
  | nil => exact .nil
  | cons pair rest ih =>
      obtain ⟨name, f⟩ := pair
      by_cases hwanted : wanted name = true
      · by_cases hfits : fits width (placeField width occupied f) = true
        · simp only [placeAll, hwanted, hfits, if_true]
          exact .fit hwanted hfits (ih _)
        · simp only [placeAll, hwanted, if_true, if_neg hfits]
          exact .stop hwanted (by simpa using hfits)
      · simp only [placeAll, if_neg hwanted]
        exact .skip (by simpa using hwanted) (ih _)

/-- Fields that stand for each other before and after something was done to a layout. -/
def SameGrown (x y : String × Field) : Prop := y.1 = x.1 ∧ x.2.GrowsTo y.2

theorem SameGrown.refl (x : String × Field) : SameGrown x x := ⟨rfl, .refl _⟩

theorem SameGrown.trans {x y z : String × Field} (hxy : SameGrown x y) (hyz : SameGrown y z) :
    SameGrown x z :=
  ⟨hyz.1.trans hxy.1, hxy.2.trans hyz.2⟩

/-- `y` is `x` with open bounds fixed, where that is permitted: a length by the largest value. -/
structure FixedIf (permitted : Prop) (x y : String × Field) : Prop where
  kept : ¬ permitted → y = x
  name : y.1 = x.1
  tags : y.2.tags = x.2.tags
  conditions : y.2.conditions = x.2.conditions
  maxValue : y.2.maxValue = x.2.maxValue
  length : ∀ n, x.2.length = some n → y.2.length = some n
  start : ∀ s, x.2.start = some s → y.2.start = some s
  newLength : ∀ n, x.2.length = none → y.2.length = some n → n = bitLength x.2.maxValue

theorem FixedIf.refl (permitted : Prop) (x : String × Field) : FixedIf permitted x x where
  kept _ := rfl
  name := rfl
  tags := rfl
  conditions := rfl
  maxValue := rfl
  length _ h := h
  start _ h := h
  newLength _ hopen h := nomatch hopen.symm.trans h

theorem FixedIf.imp {permitted permitted' : Prop} {x y : String × Field}
    (h : FixedIf permitted x y) (himp : permitted → permitted') : FixedIf permitted' x y :=
  { h with kept := fun hnot => h.kept fun hpermitted => hnot (himp hpermitted) }

theorem fixedIf_placeField {permitted : Prop} (hpermitted : permitted) (width occupied : Nat)
    (name : String) (f : Field) :
    FixedIf permitted (name, f) (name, placeField width occupied f) where
  kept hnot := absurd hpermitted hnot
  name := rfl
  tags := rfl
  conditions := rfl
  maxValue := rfl
  length := (placeField_growsTo width occupied f).length
  start := (placeField_growsTo width occupied f).start
  newLength n hopen h := by
    simp only at hopen h
    rw [placeField_length, Field.fixedLength, hopen] at h
    exact (Option.some.inj h).symm

namespace Placing

variable {width occupied : Nat} {wanted : String → Bool} {fields done : List (String × Field)}
  {conflict : Option FieldConflict}

theorem forall₂_grown (h : Placing width wanted occupied fields conflict done) :
    List.Forall₂ SameGrown fields done := by
  induction h with
  | nil => exact .nil
  | skip _ _ ih => exact .cons ⟨rfl, .refl _⟩ ih
  | fit _ _ _ ih => exact .cons ⟨rfl, placeField_growsTo _ _ _⟩ ih
  | stop =>
      refine .cons ⟨rfl, placeField_growsTo _ _ _⟩ ?_
      exact List.forall₂_same.mpr fun _ _ => .refl _

/-- A pass that goes through gives every wanted field a window above the bits taken before it. -/
theorem forall₂_fits (h : Placing width wanted occupied fields none done) :
    List.Forall₂ (fun x y => y.1 = x.1 ∧ (wanted x.1 = true → ∃ taken, Covers occupied taken
      ∧ y.2 = placeField width taken x.2 ∧ fits width y.2 = true)) fields done := by
  generalize hconflict : (none : Option FieldConflict) = conflict at h
  induction h with
  | nil => exact .nil
  | skip hskip _ ih =>
      exact .cons ⟨rfl, fun hwanted => by simp [hskip] at hwanted⟩ (ih hconflict)
  | fit _ hfits _ ih =>
      refine .cons ⟨rfl, fun _ => ⟨_, .refl _, rfl, hfits⟩⟩ ((ih hconflict).imp ?_)
      rintro x y ⟨hname, h⟩
      refine ⟨hname, fun hwanted => ?_⟩
      obtain ⟨taken, hcovers, hy, hfits⟩ := h hwanted
      exact ⟨taken, (covers_or_left _ _).trans hcovers, hy, hfits⟩
  | stop => cases hconflict

theorem exists_of_some {cause : FieldConflict}
    (h : Placing width wanted occupied fields (some cause) done) :
    ∃ name f taken, (name, placeField width taken f) ∈ done ∧ wanted name = true
      ∧ cause = .noRoom name f.fixedLength width ∧ fits width (placeField width taken f) = false
      ∧ ∀ bit, taken.testBit bit = true → occupied.testBit bit = true
        ∨ ∃ x ∈ done, wanted x.1 = true ∧ x.2.mask.testBit bit = true := by
  generalize hconflict : some cause = conflict at h
  induction h with
  | nil => cases hconflict
  | skip _ _ ih =>
      obtain ⟨name, f, taken, hmem, hwanted, hcause, hfits, htaken⟩ := ih hconflict
      refine ⟨name, f, taken, List.mem_cons_of_mem _ hmem, hwanted, hcause, hfits, ?_⟩
      intro bit hbit
      rcases htaken bit hbit with hold | ⟨x, hx, hrest⟩
      · exact Or.inl hold
      · exact Or.inr ⟨x, List.mem_cons_of_mem _ hx, hrest⟩
  | @fit occupied other g rest _ _ hother _ _ ih =>
      obtain ⟨name, f, taken, hmem, hwanted, hcause, hfits, htaken⟩ := ih hconflict
      refine ⟨name, f, taken, List.mem_cons_of_mem _ hmem, hwanted, hcause, hfits, ?_⟩
      intro bit hbit
      rcases htaken bit hbit with hold | ⟨x, hx, hrest⟩
      · rw [Nat.testBit_or, Bool.or_eq_true] at hold
        exact hold.imp id fun hnew => ⟨_, List.mem_cons_self, hother, hnew⟩
      · exact Or.inr ⟨x, List.mem_cons_of_mem _ hx, hrest⟩
  | @stop occupied name f rest hwanted hfits =>
      cases hconflict
      exact ⟨name, f, occupied, List.mem_cons_self, hwanted, rfl, hfits, fun _ => Or.inl⟩

/-- Every field that is new in the pass was wanted and fits into what is left. -/
theorem forall₂_placed (h : Placing width wanted occupied fields conflict done) :
    List.Forall₂ (fun x y => y = x ∨ wanted x.1 = true ∧ ∃ taken, Covers occupied taken
      ∧ y = (x.1, placeField width taken x.2)) fields done := by
  induction h with
  | nil => exact .nil
  | skip _ _ ih => exact .cons (Or.inl rfl) ih
  | fit hwanted _ _ ih =>
      refine .cons (Or.inr ⟨hwanted, _, .refl _, rfl⟩) (ih.imp ?_)
      rintro x y (hsame | ⟨hx, taken, hcovers, hy⟩)
      · exact Or.inl hsame
      · exact Or.inr ⟨hx, taken, (covers_or_left _ _).trans hcovers, hy⟩
  | stop hwanted =>
      refine .cons (Or.inr ⟨hwanted, _, .refl _, rfl⟩) ?_
      exact List.forall₂_same.mpr fun _ _ => Or.inl rfl

/-- Whatever the pass comes to, it fixes open bounds of wanted fields and nothing else. -/
theorem forall₂_fixedIf (h : Placing width wanted occupied fields conflict done) :
    List.Forall₂ (fun x y => FixedIf (wanted x.1 = true) x y) fields done := by
  induction h with
  | nil => exact .nil
  | skip _ _ ih => exact .cons (.refl _ _) ih
  | fit hwanted _ _ ih => exact .cons (fixedIf_placeField hwanted _ _ _ _) ih
  | stop hwanted =>
      exact .cons (fixedIf_placeField hwanted _ _ _ _) (List.forall₂_same.mpr fun _ _ => .refl _ _)

theorem cons_of_fits {x : String × Field}
    (h : Placing width wanted occupied (x :: fields) conflict done) (hfits : fits width x.2 = true)
    (hcovers : Covers x.2.mask occupied) :
    ∃ rest, done = x :: rest ∧ Placing width wanted occupied fields conflict rest := by
  have hkept : ∀ occupied, placeField width occupied x.2 = x.2 := fun occupied =>
    placeField_of_isFixed _ _ (isFixed_of_fits hfits)
  cases h with
  | skip _ hrest => exact ⟨_, rfl, hrest⟩
  | @fit _ name f _ _ _ _ _ hrest =>
      have hsame : occupied ||| (placeField width occupied f).mask = occupied := by
        apply Nat.eq_of_testBit_eq
        intro bit
        rw [Nat.testBit_or, hkept occupied]
        cases hmask : f.mask.testBit bit with
        | false => exact Bool.or_false _
        | true => rw [hcovers bit hmask, Bool.or_true]
      rw [hsame] at hrest
      exact ⟨_, by rw [hkept occupied], hrest⟩
  | stop _ hfails =>
      rw [hkept occupied, hfits] at hfails
      cases hfails

/-- Above bits that are all taken from zero on, a pass gives an open field the next ones, as many as
its largest value needs, unless there are too few. -/
theorem cons_of_open {name : String} {f : Field} {top : Nat} (hwidth : width ≤ 64)
    (h : Placing width wanted occupied ((name, f) :: fields) conflict done)
    (htaken : ∀ bit, occupied.testBit bit = decide (bit < top)) (hwanted : wanted name = true)
    (hlength : f.length = none) (hstart : f.start = none) :
    (∃ taken rest, top + bitLength f.maxValue ≤ width
        ∧ done = (name, { f with
          length := some (bitLength f.maxValue), start := some top }) :: rest
        ∧ (∀ bit, taken.testBit bit = decide (bit < top + bitLength f.maxValue))
        ∧ Placing width wanted taken fields conflict rest)
      ∨ width < top + bitLength f.maxValue ∧ conflict.isSome = true := by
  have hfixed : f.fixedLength = bitLength f.maxValue := by simp [Field.fixedLength, hlength]
  have hfirst := firstFit?_above htaken (bitLength_pos f.maxValue) hwidth
  rw [← hfixed] at hfirst ⊢
  cases h with
  | skip hskip => simp [hwanted] at hskip
  | fit _ hfits hrest =>
      have hroom : top + f.fixedLength ≤ width := by
        obtain ⟨length, start, hlength, hstart', hle⟩ := fits_iff.mp hfits
        by_contra hfull
        rw [if_neg hfull] at hfirst
        simp [placeField, hstart, hfirst] at hstart'
      rw [if_pos hroom] at hfirst
      have hplaced : placeField width occupied f
          = { f with length := some f.fixedLength, start := some top } := by
        simp [placeField, hstart, hfirst]
      refine Or.inl ⟨_, _, hroom, by rw [hplaced], fun bit => ?_, hrest⟩
      rw [Nat.testBit_or, hplaced, Field.mask_eq rfl rfl, testBit_span (by omega), htaken,
        ← Bool.decide_or, decide_eq_decide]
      omega
  | stop _ hfails =>
      refine Or.inr ⟨?_, rfl⟩
      by_contra hroom
      rw [if_pos (by omega)] at hfirst
      rw [fits_placeField hstart (by simp [placeField, hstart, hfirst])] at hfails
      cases hfails

end Placing

theorem placeAll_of_fits {width : Nat} {wanted : String → Bool} {occupied : Nat}
    {fields : List (String × Field)}
    (h : ∀ x ∈ fields, wanted x.1 = true → fits width x.2 = true) :
    placeAll width wanted occupied fields = (none, fields) := by
  induction fields generalizing occupied with
  | nil => rfl
  | cons pair rest ih =>
      obtain ⟨name, f⟩ := pair
      have hrest : ∀ occupied, placeAll width wanted occupied rest = (none, rest) :=
        fun _ => ih fun x hx => h x (List.mem_cons_of_mem _ hx)
      by_cases hwanted : wanted name = true
      · have hfits := h (name, f) List.mem_cons_self hwanted
        simp only [placeAll, hwanted, if_true, placeField_of_isFixed _ _ (isFixed_of_fits hfits),
          hfits, hrest]
      · simp only [placeAll, if_neg hwanted, hrest]

end Layout

end Manycore.Keyspace
