import Manycore.Number.FixedPoint
import Manycore.Proofs.Number.Scaling
import Mathlib.Data.Rat.Floor
import Mathlib.Tactic.Positivity

/-! # Fixed-point words and numbers

What a word stands for is held as it is, so encoding it gives the word back. A number is encoded as
its exact value, scaled, without its fraction, and kept within the range of the format.
-/

namespace Manycore

/-- A rational number without its fraction. -/
def truncated (q : ℚ) : ℤ := if q < 0 then ⌈q⌉ else ⌊q⌋

theorem truncated_div (a : ℤ) {d : ℕ} (hd : 0 < d) : truncated (a / d) = a.tdiv d := by
  have hpos : (0 : ℚ) < d := Nat.cast_pos.mpr hd
  unfold truncated
  rcases Int.lt_or_le a 0 with hneg | hnonneg
  · have hquotient : (a / d : ℚ) < 0 := div_neg_of_neg_of_pos (Int.cast_lt_zero.mpr hneg) hpos
    have hopposite : -(a / d : ℚ) = ((-a : ℤ) : ℚ) / d := by
      rw [Int.cast_neg, neg_div]
    rw [if_pos hquotient, ← neg_neg ⌈(a / d : ℚ)⌉, ← Int.floor_neg, hopposite,
      Rat.floor_intCast_div_natCast, ← Int.tdiv_eq_ediv_of_nonneg (by omega), Int.neg_tdiv, neg_neg]
  · have hquotient : ¬ (a / d : ℚ) < 0 :=
      not_lt.mpr (div_nonneg (Int.cast_nonneg hnonneg) hpos.le)
    rw [if_neg hquotient, Rat.floor_intCast_div_natCast, Int.tdiv_eq_ediv_of_nonneg hnonneg]

theorem cast_twoTo (n : Nat) : ((twoTo n : ℕ) : ℚ) = 2 ^ n := Nat.cast_pow 2 n

theorem zpow_two_eq (power : Int) :
    (2 : ℚ) ^ power = (twoTo power.toNat : ℕ) / (twoTo (-power).toNat : ℕ) := by
  rw [cast_twoTo, cast_twoTo, ← zpow_natCast, ← zpow_natCast, ← zpow_sub₀ two_ne_zero]
  congr 1
  omega

namespace Binary64

variable {x y : Binary64}

/-- The value of a finite number. -/
def value (x : Binary64) : ℚ := x.signedUnits / (unitsPerOne : ℕ)

theorem scaledTrunc_eq_truncated (hx : x.isNaN = false) (power : Int) :
    x.scaledTrunc power = truncated (x.value * 2 ^ power) := by
  have hden : 0 < unitsPerOne * twoTo (-power).toNat :=
    Nat.mul_pos unitsPerOne_pos (twoTo_pos _)
  have hquotient : x.value * 2 ^ power
      = ((x.signedUnits * twoTo power.toNat : ℤ) : ℚ)
        / ((unitsPerOne * twoTo (-power).toNat : ℕ) : ℚ) := by
    rw [value, zpow_two_eq, div_mul_div_comm]
    push_cast
    rfl
  rw [hquotient, truncated_div _ hden, scaledTrunc, hx, if_neg Bool.false_ne_true]

theorem scaledTrunc_mono (hx : x.isNaN = false) (hy : y.isNaN = false)
    (h : x.signedUnits ≤ y.signedUnits) (power : Int) :
    x.scaledTrunc power ≤ y.scaledTrunc power := by
  have hden : 0 < unitsPerOne * twoTo (-power).toNat :=
    Nat.mul_pos unitsPerOne_pos (twoTo_pos _)
  rw [scaledTrunc, scaledTrunc, hx, hy, if_neg Bool.false_ne_true, if_neg Bool.false_ne_true]
  refine Int.tdiv_le_tdiv (Int.natCast_pos.mpr hden) ?_
  exact Int.mul_le_mul_of_nonneg_right h (Int.natCast_nonneg _)

end Binary64

namespace FixedPoint

open Binary64

variable {f : FixedPoint} {x y : Binary64} {r : Int}

/-- The integers that the words of a format stand for. -/
def InRange (f : FixedPoint) (r : Int) : Prop := f.minRaw ≤ r ∧ r ≤ f.maxRaw

theorem twoTo_bits (f : FixedPoint) : twoTo f.bits = 2 * twoTo (f.bits - 1) := by
  have := f.bits_pos
  rw [← twoTo_succ]
  congr 1
  omega

theorem twoTo_bits_le (f : FixedPoint) : twoTo f.bits ≤ wordRange := twoTo_le_twoTo f.bits_le

theorem bounds_range (f : FixedPoint) :
    (-(twoTo 64 : Int) ≤ f.minRaw ∧ f.minRaw ≤ 0) ∧ 0 ≤ f.maxRaw ∧ f.maxRaw ≤ twoTo 64 := by
  have htwo := f.twoTo_bits
  have hword := f.twoTo_bits_le
  have hpos := twoTo_pos (f.bits - 1)
  have hrange : wordRange ≤ twoTo 64 := by decide
  unfold minRaw maxRaw
  split <;> omega

theorem inRange_rawOf (f : FixedPoint) (word : UInt32) : f.InRange (f.rawOf word) := by
  have htwo := f.twoTo_bits
  have hpos := twoTo_pos (f.bits - 1)
  have hlow : word.toNat % twoTo f.bits < twoTo f.bits := Nat.mod_lt _ (twoTo_pos _)
  unfold InRange rawOf minRaw maxRaw
  cases hsigned : f.signed with
  | false =>
      simp only [Bool.false_and, Bool.false_eq_true, if_false]
      omega
  | true =>
      simp only [Bool.true_and, decide_eq_true_eq, if_true]
      split <;> omega

theorem rawOf_emod (f : FixedPoint) (word : UInt32) :
    f.rawOf word % (twoTo f.bits : Int) = (word.toNat % twoTo f.bits : Nat) := by
  have hlow : ((word.toNat % twoTo f.bits : Nat) : Int) % (twoTo f.bits : Int)
      = (word.toNat % twoTo f.bits : Nat) := by
    rw [← Int.natCast_emod, Nat.mod_mod]
  simp only [rawOf]
  split
  · rw [Int.sub_emod_right, hlow]
  · exact hlow

/-- Two's complement is undone by the sign bit. -/
theorem rawOf_of_emod {word : UInt32} (hr : f.InRange r)
    (hword : (word.toNat : Int) = r % (twoTo f.bits : Int)) : f.rawOf word = r := by
  have htwo := f.twoTo_bits
  have hpos := twoTo_pos (f.bits - 1)
  have hlt : word.toNat < twoTo f.bits := by
    have := Int.emod_lt_of_pos r (Int.natCast_pos.mpr (twoTo_pos f.bits))
    omega
  have hvalue : (word.toNat : Int) = if r < 0 then r + twoTo f.bits else r := by
    unfold InRange minRaw maxRaw at hr
    rw [hword]
    split
    · rw [← Int.add_emod_right]
      exact Int.emod_eq_of_lt (by split at hr <;> omega) (by omega)
    · exact Int.emod_eq_of_lt (by omega) (by split at hr <;> omega)
  unfold InRange minRaw maxRaw at hr
  simp only [rawOf, Nat.mod_eq_of_lt hlt]
  cases hsigned : f.signed with
  | false =>
      rw [hsigned] at hr
      simp only [Bool.false_eq_true, if_false, Bool.false_and] at hr ⊢
      split at hvalue <;> omega
  | true =>
      rw [hsigned] at hr
      simp only [if_true, Bool.true_and, decide_eq_true_eq] at hr ⊢
      split at hvalue <;> split <;> omega

theorem inRange_raw (f : FixedPoint) (x : Binary64) : f.InRange (f.raw x) := by
  obtain ⟨hmin, hmax⟩ := f.bounds_range
  unfold InRange raw truncWithin
  omega

theorem toNat_encode (f : FixedPoint) (x : Binary64) :
    ((f.encode x).toNat : Int) = f.raw x % (twoTo f.bits : Int) := by
  have hpos : (0 : Int) < twoTo f.bits := Int.natCast_pos.mpr (twoTo_pos f.bits)
  have hnonneg := Int.emod_nonneg (f.raw x) (Int.ne_of_gt hpos)
  have hlt := Int.emod_lt_of_pos (f.raw x) hpos
  have hword := f.twoTo_bits_le
  rw [encode, UInt32.toNat_ofNat_of_lt' (show _ < wordRange by omega), Int.toNat_of_nonneg hnonneg]

theorem toNat_encode_lt (f : FixedPoint) (x : Binary64) : (f.encode x).toNat < twoTo f.bits := by
  have := Int.emod_lt_of_pos (f.raw x) (Int.natCast_pos.mpr (twoTo_pos f.bits))
  rw [← toNat_encode] at this
  exact Int.ofNat_lt.mp this

theorem rawOf_encode (f : FixedPoint) (x : Binary64) : f.rawOf (f.encode x) = f.raw x :=
  rawOf_of_emod (f.inRange_raw x) (f.toNat_encode x)

theorem scales_fraction (f : FixedPoint) : Scales f.fraction :=
  ⟨by have := f.fraction_ge; omega, by have := f.fraction_le; omega⟩

theorem scales_neg_fraction (f : FixedPoint) : Scales (-f.fraction) :=
  ⟨by have := f.fraction_le; omega, by have := f.fraction_ge; omega⟩

/-- The raw integer of a finite number is its exact value, scaled, truncated and kept within the
range. -/
theorem raw_eq (f : FixedPoint) (hx : x.isFinite = true) :
    f.raw x = max f.minRaw (min f.maxRaw (x.scaledTrunc f.fraction)) := by
  obtain ⟨hmin, hmax⟩ := f.bounds_range
  exact truncWithin_mul_powerOfTwo hx f.scales_fraction hmin hmax

theorem raw_mono (hx : x.isFinite = true) (hy : y.isFinite = true)
    (h : x.signedUnits ≤ y.signedUnits) : f.raw x ≤ f.raw y := by
  have hscaled :=
    scaledTrunc_mono (isNaN_of_isFinite hx) (isNaN_of_isFinite hy) h f.fraction
  rw [raw_eq f hx, raw_eq f hy]
  omega

theorem decode_exact (f : FixedPoint) (word : UInt32) : (f.decode word).isFinite = true
    ∧ (f.decode word).signedUnits = f.rawOf word * twoTo (1074 - f.fraction).toNat := by
  obtain ⟨⟨hmin, -⟩, -, hmax⟩ := f.bounds_range
  obtain ⟨hge, hle⟩ := f.inRange_rawOf word
  have hword := f.twoTo_bits_le
  have htwo := f.twoTo_bits
  have hwide : wordRange < twoTo 53 := by decide
  have hsmall : (f.rawOf word).natAbs < twoTo 53 := by
    unfold minRaw at hge
    unfold maxRaw at hle
    split at hge <;> omega
  exact ofInt_mul_powerOfTwo hsmall f.scales_neg_fraction

theorem value_decode (f : FixedPoint) (word : UInt32) :
    (f.decode word).value * 2 ^ f.fraction = f.rawOf word := by
  have hfraction := f.fraction_le
  have hsplit : (2 : ℚ) ^ (1074 - f.fraction).toNat * 2 ^ f.fraction = 2 ^ 1074 := by
    rw [← zpow_natCast, ← zpow_natCast, ← zpow_add₀ two_ne_zero]
    congr 1
    omega
  have hone : ((unitsPerOne : ℕ) : ℚ) = 2 ^ 1074 := cast_twoTo 1074
  rw [value, (f.decode_exact word).2, hone]
  push_cast
  rw [cast_twoTo, div_mul_eq_mul_div, mul_assoc, hsplit, mul_div_assoc,
    div_self (by positivity), mul_one]

theorem raw_decode (f : FixedPoint) (word : UInt32) : f.raw (f.decode word) = f.rawOf word := by
  obtain ⟨hge, hle⟩ := f.inRange_rawOf word
  have hfinite := (f.decode_exact word).1
  rw [raw_eq f hfinite, scaledTrunc_eq_truncated (isNaN_of_isFinite hfinite), value_decode]
  have hwhole : truncated (f.rawOf word : ℚ) = f.rawOf word := by
    unfold truncated
    split
    · exact Int.ceil_intCast _
    · exact Int.floor_intCast _
  rw [hwhole]
  omega

theorem signedUnits_decode_mono {word word' : UInt32} (h : f.rawOf word ≤ f.rawOf word') :
    (f.decode word).signedUnits ≤ (f.decode word').signedUnits := by
  rw [(f.decode_exact word).2, (f.decode_exact word').2]
  exact Int.mul_le_mul_of_nonneg_right h (Int.natCast_nonneg _)

theorem of_ofFields {bits : Nat} {fraction : Int} {signed : Bool}
    (h : ofFields bits fraction signed = .ok f) :
    f.bits = bits ∧ f.fraction = fraction ∧ f.signed = signed := by
  unfold ofFields at h
  split at h
  · split at h
    · cases h
      exact ⟨rfl, rfl, rfl⟩
    · cases h
  · cases h

/-- Every word of an accepted format stands for a number that is encoded as the word again, without
the bits beyond the format. A finite number is encoded within the bits of the format as its exact
value, scaled, truncated toward zero and kept within the range, and what it is decoded to stands for
itself. Encoding keeps the order of numbers. -/
theorem encodes_exactly {bits : Nat} {fraction : Int} {signed : Bool}
    (h : ofFields bits fraction signed = .ok f) :
    (∀ word, (f.encode (f.decode word)).toNat = word.toNat % twoTo bits)
    ∧ (∀ x : Binary64, x.isFinite = true →
      (∀ i, bits ≤ i → (f.encode x).toNat.testBit i = false)
      ∧ (f.decode (f.encode x)).isFinite = true
      ∧ (f.decode (f.encode x)).value * 2 ^ fraction
        = (max f.minRaw (min f.maxRaw (truncated (x.value * 2 ^ fraction))) : ℤ)
      ∧ f.encode (f.decode (f.encode x)) = f.encode x)
    ∧ ∀ x y : Binary64, x.isFinite = true → y.isFinite = true → x.le y = true →
      (f.decode (f.encode x)).le (f.decode (f.encode y)) = true := by
  obtain ⟨rfl, rfl, -⟩ := of_ofFields h
  have hback (word : UInt32) :
      (f.encode (f.decode word)).toNat = word.toNat % twoTo f.bits := by
    have hword := f.toNat_encode (f.decode word)
    rw [raw_decode, rawOf_emod] at hword
    exact Int.ofNat_inj.mp hword
  refine ⟨hback, fun x hx => ⟨fun i hi => ?_, (f.decode_exact _).1, ?_, ?_⟩, ?_⟩
  · refine Nat.testBit_lt_two_pow (Nat.lt_of_lt_of_le (f.toNat_encode_lt x) ?_)
    exact twoTo_le_twoTo hi
  · rw [value_decode, rawOf_encode, raw_eq f hx, scaledTrunc_eq_truncated (isNaN_of_isFinite hx)]
  · rw [← UInt32.toNat_inj, hback, Nat.mod_eq_of_lt (f.toNat_encode_lt x)]
  · intro x y hx hy hle
    simp only [le, Bool.and_eq_true, Bool.not_eq_true', decide_eq_true_eq] at hle ⊢
    refine ⟨⟨isNaN_of_isFinite (f.decode_exact _).1, isNaN_of_isFinite (f.decode_exact _).1⟩, ?_⟩
    apply signedUnits_decode_mono
    rw [rawOf_encode, rawOf_encode]
    exact raw_mono hx hy hle.2

/-- Eight bits, two's complement, of which the last counts `2 ^ -16`. -/
def fineByte : FixedPoint where
  bits := 8
  fraction := 16
  signed := true

/-- A number above the range, and a negative one that is half of the last bit. -/
theorem encodes_exactly_fineByte : ofFields 8 16 true = .ok fineByte
    ∧ (powerOfTwo (-9)).isFinite = true ∧ (-powerOfTwo (-17)).isFinite = true
    ∧ (fineByte.encode (fineByte.decode 0x1ff)).toNat = 0xff
    ∧ (fineByte.decode (fineByte.encode (powerOfTwo (-9)))).value * 2 ^ (16 : ℤ) = 127
    ∧ (fineByte.decode (fineByte.encode (-powerOfTwo (-17)))).le
      (fineByte.decode (fineByte.encode (powerOfTwo (-9)))) = true := by
  have hfields : ofFields 8 16 true = .ok fineByte := rfl
  have habove : (powerOfTwo (-9)).isFinite = true := by decide +kernel
  have hbelow : (-powerOfTwo (-17)).isFinite = true := by decide +kernel
  obtain ⟨hback, hexact, hmono⟩ := encodes_exactly hfields
  refine ⟨hfields, habove, hbelow, hback 0x1ff, ?_, hmono _ _ hbelow habove (by decide +kernel)⟩
  have hclamped : max fineByte.minRaw (min fineByte.maxRaw
      ((powerOfTwo (-9)).scaledTrunc 16)) = 127 := by decide +kernel
  rw [(hexact _ habove).2.2.1, ← scaledTrunc_eq_truncated (isNaN_of_isFinite habove), hclamped]
  norm_num

end FixedPoint

end Manycore
