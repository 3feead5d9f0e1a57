import Manycore.Proofs.Keyspace.Growth

/-! # Reading keys back

A key is the union of values at the positions of their fields. When the fields share no bit and
every value fits into its field, each value can be read back from the key, and masking the key
leaves the key of the fields in the mask.
-/

namespace Manycore.Keyspace.Layout

theorem occupies_of_testBit {f : Field} {length start v bit : Nat} (hlength : f.length = some length)
    (hstart : f.start = some start) (hroom : v < twoTo length)
    (hbit : (v <<< start).testBit bit = true) : f.Occupies bit := by
  rw [Nat.testBit_shiftLeft, Bool.and_eq_true, decide_eq_true_eq] at hbit
  refine ⟨length, start, hlength, hstart, hbit.1, ?_⟩
  by_contra hle
  have hhigh := lt_twoTo_iff.mp hroom (bit - start) (by omega)
  rw [hhigh] at hbit
  cases hbit.2

/-- A field in a key: its range, inside the width, and the value bound to it, which fits. -/
structure Holds (l : Layout) (b : Bindings) (name : String) (f : Field) (length start v : Nat) :
    Prop where
  find : l.find? name = some f
  length_eq : f.length = some length
  start_eq : f.start = some start
  inside : start + length ≤ l.width
  value : b.get? name = some v
  room : v < twoTo length

/-- The named fields are all in the key, and no two of them share a bit. -/
structure Readable (l : Layout) (b : Bindings) (names : List String) : Prop where
  width : l.width ≤ 64
  holds : ∀ name ∈ names, ∃ f length start v, l.Holds b name f length start v
  apart : ∀ x ∈ names, ∀ y ∈ names, x ≠ y → ∀ f g, l.find? x = some f → l.find? y = some g →
    f.Apart g

variable {l : Layout} {b : Bindings} {names : List String}

theorem testBit_keyBits {bit : Nat} :
    (l.keyBits b names).testBit bit = true ↔ ∃ name ∈ names,
      ((b.get? name).getD 0 <<< ((l.find? name).bind (·.start)).getD 0).testBit bit = true := by
  simp only [keyBits, testBit_foldl_or, Nat.zero_testBit, Bool.false_or, List.any_eq_true]

theorem testBit_maskBits {bit : Nat} :
    (l.maskBits names).testBit bit = true ↔ ∃ name ∈ names,
      (((l.find? name).map Field.mask).getD 0).testBit bit = true := by
  simp only [maskBits, testBit_foldl_or, Nat.zero_testBit, Bool.false_or, List.any_eq_true]

theorem Holds.getD_eq {name : String} {f : Field} {length start v : Nat}
    (h : l.Holds b name f length start v) :
    (b.get? name).getD 0 <<< ((l.find? name).bind (·.start)).getD 0 = v <<< start := by
  simp only [h.find, h.value, Option.bind_some, h.start_eq, Option.getD_some]

theorem testBit_maskBits_iff (hwidth : l.width ≤ 64)
    (hholds : ∀ name ∈ names, ∃ f length start v, l.Holds b name f length start v) {bit : Nat} :
    (l.maskBits names).testBit bit = true ↔
      ∃ name ∈ names, ∃ f, l.find? name = some f ∧ f.Occupies bit := by
  rw [testBit_maskBits]
  refine exists_congr fun name => and_congr_right fun hname => ?_
  obtain ⟨f, length, start, v, hf⟩ := hholds name hname
  have hfits : fits l.width f = true :=
    fits_iff.mpr ⟨length, start, hf.length_eq, hf.start_eq, hf.inside⟩
  simp only [hf.find, Option.map_some, Option.getD_some, testBit_mask hwidth hfits,
    Option.some.injEq, exists_eq_left']

namespace Readable

theorem subset {part : List String} (h : l.Readable b names) (hpart : ∀ name ∈ part, name ∈ names) :
    l.Readable b part where
  width := h.width
  holds name hname := h.holds name (hpart name hname)
  apart x hx y hy := h.apart x (hpart x hx) y (hpart y hy)

/-- In the range of a field, a key shows the bits of the value bound to it. -/
theorem testBit_keyBits_of_occupies (h : l.Readable b names) {name : String} (hname : name ∈ names)
    {f : Field} {length start v : Nat} (hf : l.Holds b name f length start v) {bit : Nat}
    (hbit : f.Occupies bit) :
    (l.keyBits b names).testBit bit = (v <<< start).testBit bit := by
  rw [Bool.eq_iff_iff, testBit_keyBits]
  constructor
  · rintro ⟨other, hother, hotherBit⟩
    obtain ⟨g, length', start', v', hg⟩ := h.holds other hother
    rw [hg.getD_eq] at hotherBit
    by_cases hsame : other = name
    · subst hsame
      rwa [← hg.getD_eq, hf.getD_eq] at hotherBit
    · have hoccupies := occupies_of_testBit hg.length_eq hg.start_eq hg.room hotherBit
      exact absurd hbit (h.apart other hother name hname hsame g f hg.find hf.find bit hoccupies)
  · intro hvalue
    exact ⟨name, hname, hf.getD_eq ▸ hvalue⟩

theorem value_eq (h : l.Readable b names) {name : String} (hname : name ∈ names) {f : Field}
    {length start v : Nat} (hf : l.Holds b name f length start v) :
    (l.keyBits b names >>> start) &&& ones length = v := by
  apply Nat.eq_of_testBit_eq
  intro bit
  have hwidth := h.width
  have hinside := hf.inside
  rw [Nat.testBit_and, Nat.testBit_shiftRight, testBit_ones (by omega)]
  by_cases hbit : bit < length
  · have hoccupies : f.Occupies (start + bit) :=
      ⟨length, start, hf.length_eq, hf.start_eq, by omega, by omega⟩
    rw [h.testBit_keyBits_of_occupies hname hf hoccupies, Nat.testBit_shiftLeft]
    simp [hbit]
  · rw [lt_twoTo_iff.mp hf.room bit (by omega)]
    simp [hbit]

theorem shift_and_eq (h : l.Readable b names) {name : String} (hname : name ∈ names) {f : Field}
    {length start v : Nat} (hf : l.Holds b name f length start v) :
    (l.keyBits b names >>> start) &&& (twoTo length - 1) = v := by
  have hinside := hf.inside
  have hwidth := h.width
  rw [← ones_eq (by omega)]
  exact h.value_eq hname hf

/-- Under the mask of some of its fields, a key becomes the key of those fields. -/
theorem keyBits_and_maskBits {part : List String} (h : l.Readable b names)
    (hpart : ∀ name ∈ part, name ∈ names) :
    l.keyBits b names &&& l.maskBits part = l.keyBits b part := by
  apply Nat.eq_of_testBit_eq
  intro bit
  rw [Nat.testBit_and, Bool.eq_iff_iff, Bool.and_eq_true,
    testBit_maskBits_iff h.width (h.subset hpart).holds]
  constructor
  · rintro ⟨hkey, name, hname, f, hfind, hoccupies⟩
    obtain ⟨f', length, start, v, hf⟩ := h.holds name (hpart name hname)
    cases hf.find.symm.trans hfind
    rw [h.testBit_keyBits_of_occupies (hpart name hname) hf hoccupies] at hkey
    rwa [(h.subset hpart).testBit_keyBits_of_occupies hname hf hoccupies]
  · intro hkey
    obtain ⟨name, hname, hbit⟩ := testBit_keyBits.mp hkey
    obtain ⟨f, length, start, v, hf⟩ := h.holds name (hpart name hname)
    have hoccupies := occupies_of_testBit hf.length_eq hf.start_eq hf.room (hf.getD_eq ▸ hbit)
    exact ⟨testBit_keyBits.mpr ⟨name, hpart name hname, hbit⟩, name, hname, f, hf.find, hoccupies⟩

theorem keyBits_eq_iff {b' : Bindings} (h : l.Readable b names) (h' : l.Readable b' names) :
    l.keyBits b names = l.keyBits b' names ↔ ∀ name ∈ names, b.get? name = b'.get? name := by
  constructor
  · intro heq name hname
    obtain ⟨f, length, start, v, hf⟩ := h.holds name hname
    obtain ⟨f', length', start', v', hf'⟩ := h'.holds name hname
    cases hf.find.symm.trans hf'.find
    cases hf.length_eq.symm.trans hf'.length_eq
    cases hf.start_eq.symm.trans hf'.start_eq
    rw [hf.value, hf'.value, ← h.value_eq hname hf, ← h'.value_eq hname hf', heq]
  · intro heq
    refine List.foldl_ext _ _ _ fun key name hname => ?_
    rw [heq name hname]

end Readable

end Manycore.Keyspace.Layout
