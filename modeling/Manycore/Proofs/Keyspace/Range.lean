import Manycore.Keyspace.Render

/-! # Bits of key fields

A key is looked at through its bits, so that unions and overlaps of ranges become facts about the
places of bits. A field with both bounds fixed occupies a range, and a value that fits into the
range can be read back from any key whose other fields stay out of it.
-/

namespace Manycore.Keyspace

theorem lt_twoTo_iff {n length : Nat} :
    n < twoTo length ↔ ∀ bit, length ≤ bit → n.testBit bit = false := by
  constructor
  · intro h bit hbit
    exact Nat.testBit_lt_two_pow (Nat.lt_of_lt_of_le h (Nat.pow_le_pow_right (by omega) hbit))
  · intro h
    exact Nat.lt_pow_two_of_testBit n h

theorem ones_eq {length : Nat} (h : length ≤ 64) : ones length = twoTo length - 1 := by
  rw [ones, Nat.min_eq_left h]

theorem testBit_ones {length : Nat} (h : length ≤ 64) (bit : Nat) :
    (ones length).testBit bit = decide (bit < length) := by
  rw [ones_eq h]
  exact Nat.testBit_two_pow_sub_one length bit

theorem ones_lt (length : Nat) : ones length < twoTo length := by
  have hmin : twoTo (min length 64) ≤ twoTo length :=
    Nat.pow_le_pow_right (by omega) (Nat.min_le_left length 64)
  have hpos := twoTo_pos (min length 64)
  simp only [ones]
  omega

theorem lt_twoTo_bitLength {n largest : Nat} (h : n ≤ largest) : n < twoTo (bitLength largest) := by
  have hlog : max largest 1 < twoTo (bitLength largest) := Nat.lt_log2_self
  omega

theorem bitLength_pos (n : Nat) : 0 < bitLength n := Nat.succ_pos _

theorem testBit_span {length : Nat} (h : length ≤ 64) (start bit : Nat) :
    (ones length <<< start).testBit bit = decide (start ≤ bit ∧ bit < start + length) := by
  rw [Nat.testBit_shiftLeft, testBit_ones h, Bool.decide_and]
  by_cases hs : start ≤ bit
  · simp only [hs, decide_true, Bool.true_and, decide_eq_decide]
    omega
  · simp [hs]

theorem and_eq_zero_iff {m n : Nat} :
    m &&& n = 0 ↔ ∀ bit, m.testBit bit = true → n.testBit bit = false := by
  constructor
  · intro h bit hm
    have hbit : (m &&& n).testBit bit = false := by simp [h]
    simpa [Nat.testBit_and, hm] using hbit
  · intro h
    apply Nat.eq_of_testBit_eq
    intro bit
    rw [Nat.testBit_and, Nat.zero_testBit]
    cases hm : m.testBit bit with
    | false => rfl
    | true => simp [h bit hm]

theorem testBit_foldl_or {α : Type} (f : α → Nat) (xs : List α) (acc bit : Nat) :
    (xs.foldl (fun bits x => bits ||| f x) acc).testBit bit
      = (acc.testBit bit || xs.any fun x => (f x).testBit bit) := by
  induction xs generalizing acc with
  | nil => simp
  | cons x rest ih => simp only [List.foldl_cons, List.any_cons, ih, Nat.testBit_or, Bool.or_assoc]

namespace Field

/-- The field has a length and a position. -/
def IsFixed (f : Field) : Prop := f.length.isSome ∧ f.start.isSome

instance (f : Field) : Decidable f.IsFixed := inferInstanceAs (Decidable (_ ∧ _))

/-- The bit lies in the range of the field. -/
def Occupies (f : Field) (bit : Nat) : Prop :=
  ∃ length start, f.length = some length ∧ f.start = some start ∧ start ≤ bit ∧ bit < start + length

theorem IsFixed.bounds {f : Field} (h : f.IsFixed) :
    ∃ length start, f.length = some length ∧ f.start = some start := by
  obtain ⟨length, hlength⟩ := Option.isSome_iff_exists.mp h.1
  obtain ⟨start, hstart⟩ := Option.isSome_iff_exists.mp h.2
  exact ⟨length, start, hlength, hstart⟩

theorem Occupies.isFixed {f : Field} {bit : Nat} (h : f.Occupies bit) : f.IsFixed := by
  obtain ⟨length, start, hlength, hstart, _⟩ := h
  simp [IsFixed, hlength, hstart]

/-- Two fields share no bit. -/
def Apart (f g : Field) : Prop := ∀ bit, f.Occupies bit → ¬ g.Occupies bit

theorem Apart.symm {f g : Field} (h : f.Apart g) : g.Apart f := fun bit hg hf => h bit hf hg

theorem apart_of_le {f g : Field} {length start start' : Nat} (hlength : f.length = some length)
    (hstart : f.start = some start) (hstart' : g.start = some start')
    (hle : start + length ≤ start') : f.Apart g := by
  rintro bit ⟨_, _, hl, hs, -, hhigh⟩ ⟨_, _, hl', hs', hlow, -⟩
  cases hlength.symm.trans hl
  cases hstart.symm.trans hs
  cases hstart'.symm.trans hs'
  omega

theorem apart_of_open {f g : Field} (hopen : g.start = none) : f.Apart g := by
  rintro bit - ⟨_, _, -, hstart, -⟩
  cases hopen.symm.trans hstart

theorem mask_eq {f : Field} {length start : Nat} (hlength : f.length = some length)
    (hstart : f.start = some start) : f.mask = ones length <<< start := by
  simp only [mask, hlength, hstart]

theorem mask_of_not_isFixed {f : Field} (h : ¬ f.IsFixed) : f.mask = 0 := by
  unfold mask
  split
  · rename_i length start hlength hstart
    exact absurd ⟨by simp [hlength], by simp [hstart]⟩ h
  · rfl

/-- In a word of sixty-four bits a mask has the bits of its range, wherever that range may end. -/
theorem testBit_mask_iff {f : Field} {bit : Nat} (hbit : bit < 64) :
    f.mask.testBit bit = true ↔ f.Occupies bit := by
  by_cases hfixed : f.IsFixed
  · obtain ⟨length, start, hlength, hstart⟩ := hfixed.bounds
    have hones : (ones length).testBit (bit - start) = decide (bit - start < min length 64) :=
      Nat.testBit_two_pow_sub_one _ _
    rw [mask_eq hlength hstart, Nat.testBit_shiftLeft, hones]
    simp only [Bool.and_eq_true, decide_eq_true_eq, Occupies, hlength, hstart, Option.some.injEq,
      exists_and_left, exists_eq_left']
    omega
  · simp only [mask_of_not_isFixed hfixed, Nat.zero_testBit, Bool.false_eq_true, false_iff]
    exact fun h => hfixed h.isFixed

end Field

namespace Layout

theorem fits_iff {width : Nat} {f : Field} :
    fits width f = true ↔
      ∃ length start, f.length = some length ∧ f.start = some start ∧ start + length ≤ width := by
  unfold fits
  split
  · rename_i length start hlength hstart
    simp only [hlength, hstart, decide_eq_true_eq, Option.some.injEq, exists_and_left,
      exists_eq_left']
    omega
  · rename_i hopen
    simp only [Bool.false_eq_true, false_iff, not_exists]
    rintro length start ⟨hlength, hstart, -⟩
    exact hopen length start hlength hstart

theorem isFixed_of_fits {width : Nat} {f : Field} (h : fits width f = true) : f.IsFixed := by
  obtain ⟨length, start, hlength, hstart, -⟩ := fits_iff.mp h
  simp [Field.IsFixed, hlength, hstart]

theorem testBit_mask {width : Nat} {f : Field} (hwidth : width ≤ 64) (h : fits width f = true)
    (bit : Nat) : f.mask.testBit bit = true ↔ f.Occupies bit := by
  obtain ⟨length, start, hlength, hstart, hle⟩ := fits_iff.mp h
  rw [Field.mask_eq hlength hstart, testBit_span (by omega), decide_eq_true_iff]
  constructor
  · intro hbit
    exact ⟨length, start, hlength, hstart, hbit⟩
  · rintro ⟨length', start', hlength', hstart', hbit⟩
    rw [hlength] at hlength'
    rw [hstart] at hstart'
    cases hlength'
    cases hstart'
    exact hbit

/-- Fields are apart as soon as one lies in bits that the other is placed around. -/
theorem apart_of_and_eq_zero {width taken : Nat} {f g : Field} (hwidth : width ≤ 64)
    (hf : fits width f = true) (hg : fits width g = true)
    (htaken : ∀ bit, f.mask.testBit bit = true → taken.testBit bit = true)
    (hfree : taken &&& g.mask = 0) : f.Apart g := by
  intro bit hfbit hgbit
  have htake := htaken bit ((testBit_mask hwidth hf bit).mpr hfbit)
  have hmask := (testBit_mask hwidth hg bit).mpr hgbit
  rw [and_eq_zero_iff.mp hfree bit htake] at hmask
  cases hmask

end Layout

end Manycore.Keyspace
