import Manycore.Proofs.Number.Quotient

/-! # Scaling by powers of two

A number times a power of two is the exact product, unless the product is beyond all numbers or so
small that it has no integer part. So the integer part of the product, kept within a range, is that of
the exact value.
-/

namespace Manycore.Binary64

variable {x : Binary64} {negative : Bool} {num den c k : Nat} {power : Int}

/-- An integer by its sign and its absolute value. -/
def signed (negative : Bool) (n : Nat) : Int := if negative then -(n : Int) else n

/-- The absolute value in units. An infinity counts as more than every number. -/
def magnitude (x : Binary64) : Nat := if x.isInfinite then twoTo 2100 else x.units

theorem signedUnits_eq (x : Binary64) : x.signedUnits = signed x.isNegative x.magnitude := rfl

theorem signed_tdiv (negative : Bool) (n d : Nat) :
    (signed negative n).tdiv d = signed negative (n / d) := by
  cases negative with
  | false => exact (Int.ofNat_tdiv n d).symm
  | true => simp only [signed, if_true, Int.neg_tdiv, Int.ofNat_tdiv]

theorem signed_mul (negative : Bool) (n d : Nat) :
    signed negative n * d = signed negative (n * d) := by
  cases negative with
  | false => exact (Int.natCast_mul n d).symm
  | true => simp only [signed, if_true, Int.natCast_mul, Int.neg_mul]

theorem signed_natAbs (r : Int) : signed (decide (r < 0)) r.natAbs = r := by
  unfold signed
  split <;> grind

theorem isNaN_of_isFinite (h : x.isFinite = true) : x.isNaN = false := by
  simp only [isFinite, isNaN, decide_eq_true_eq, decide_eq_false_iff_not] at h ⊢
  omega

theorem isInfinite_of_isFinite (h : x.isFinite = true) : x.isInfinite = false := by
  simp only [isFinite, isInfinite, decide_eq_true_eq, decide_eq_false_iff_not] at h ⊢
  omega

theorem magnitude_of_isFinite (h : x.isFinite = true) : x.magnitude = x.units := by
  rw [magnitude, isInfinite_of_isFinite h, if_neg Bool.false_ne_true]

theorem magnitude_congr {y : Binary64} (h : x.magnitudeBits = y.magnitudeBits) :
    x.magnitude = y.magnitude := by
  have hinfinite : x.isInfinite = y.isInfinite := by rw [isInfinite, isInfinite, h]
  have hexponent : x.exponentField = y.exponentField := by rw [exponentField, exponentField, h]
  have hfraction : x.fraction = y.fraction := by rw [fraction, fraction, h]
  have hunits : x.units = y.units := by rw [units, units, hexponent, hfraction]
  rw [magnitude, magnitude, hinfinite, hunits]

theorem magnitude_round (negative : Bool) (num den : Nat) :
    ((round negative num den).magnitude : Int) = (round false num den).signedUnits := by
  rw [signedUnits_eq, isNegative_round, signed, if_neg Bool.false_ne_true]
  apply congrArg
  apply magnitude_congr
  rw [magnitudeBits_round, magnitudeBits_round]

theorem le_magnitude_round (hden : 0 < den) (hk : k ≤ 2100) (h : twoTo k * den ≤ num) :
    twoTo k ≤ (round negative num den).magnitude := by
  have hround := le_signedUnits_round hden hk h
  rw [← magnitude_round negative] at hround
  exact Int.ofNat_le.mp hround

theorem magnitude_round_le (hden : 0 < den) (hk : k ≤ 2096) (h : num ≤ twoTo k * den) :
    (round negative num den).magnitude ≤ twoTo k := by
  have hround := signedUnits_round_le hden hk h
  rw [← magnitude_round negative] at hround
  exact Int.ofNat_le.mp hround

theorem isFinite_round_exact (hden : 0 < den) (hc : c < twoTo 53) (hk : k ≤ 2043)
    (h : num = c * twoTo k * den) : (round negative num den).isFinite = true := by
  obtain ⟨hfinite, -⟩ := round_exact hden hc hk h
  rw [isFinite, magnitudeBits_round, Nat.min_eq_left (Nat.le_of_lt hfinite), decide_eq_true hfinite]

theorem magnitude_round_exact (hden : 0 < den) (hc : c < twoTo 53) (hk : k ≤ 2043)
    (h : num = c * twoTo k * den) : (round negative num den).magnitude = c * twoTo k := by
  rw [magnitude_of_isFinite (isFinite_round_exact hden hc hk h), units_round_exact hden hc hk h]

theorem placeOf_exact (hden : 0 < den) (hc : c < twoTo 53) (hnormal : twoTo 52 ≤ c ∨ k = 0) :
    placeOf (c * twoTo k * den) den = k := by
  have hlt : c * twoTo k < twoTo (53 + k) := by
    rw [twoTo_add]
    exact Nat.mul_lt_mul_of_pos_right hc (twoTo_pos k)
  have hlog := log2_lt_of_lt_twoTo (by omega) hlt
  rw [placeOf, Nat.mul_div_cancel _ hden]
  rcases hnormal with hlarge | rfl
  · have hle : twoTo (52 + k) ≤ c * twoTo k := by
      rw [twoTo_add]
      exact Nat.mul_le_mul_right _ hlarge
    have hlog' := le_log2_of_twoTo_le hle
    omega
  · omega

theorem significandOf_exact (hden : 0 < den) (hc : c < twoTo 53)
    (hnormal : twoTo 52 ≤ c ∨ k = 0) : significandOf (c * twoTo k * den) den = c := by
  have hpos : 0 < den * twoTo k := Nat.mul_pos hden (twoTo_pos k)
  have hshift : c * twoTo k * den = c * (den * twoTo k) := by
    rw [Nat.mul_assoc, Nat.mul_comm (twoTo k)]
  rw [significandOf, placeOf_exact hden hc hnormal, shiftLeft_eq_mul_twoTo, hshift]
  exact Nat.le_antisymm (roundQuotient_le hpos (Nat.le_refl _))
    (le_roundQuotient hpos (Nat.le_refl _))

theorem ofMagnitude_magnitudeBits (x : Binary64) :
    ofMagnitude x.isNegative x.magnitudeBits = x := by
  have hlt : x.bits.toNat < twoTo 64 := x.bits.toNat_lt
  have htwo : twoTo 64 = twoTo 63 + twoTo 63 := rfl
  have hbits : (if x.isNegative then twoTo 63 else 0) + x.magnitudeBits = x.bits.toNat := by
    simp only [isNegative, magnitudeBits, decide_eq_true_eq]
    split
    · rw [Nat.mod_eq_sub_mod ‹_›, Nat.mod_eq_of_lt (by omega)]
      omega
    · rw [Nat.mod_eq_of_lt (by omega), Nat.zero_add]
  rw [ofMagnitude, hbits, UInt64.ofNat_toNat]

theorem round_units (hx : x.isFinite = true) (hden : 0 < den) :
    round x.isNegative (x.units * den) den = x := by
  obtain ⟨c, k, hunits, hc, hnormal, hbits⟩ := x.exists_significand
  have hfinite : x.magnitudeBits < infinityBits := of_decide_eq_true hx
  rw [hunits, round_eq, placeOf_exact hden hc hnormal, significandOf_exact hden hc hnormal, ← hbits,
    Nat.min_eq_left (Nat.le_of_lt hfinite), ofMagnitude_magnitudeBits]

theorem one_exact : (one.isFinite = true ∧ one.isNegative = false) ∧ one.units = unitsPerOne := by
  have hone : 1 < twoTo 53 := by decide
  have hexact : 1 * unitsPerOne = 1 * twoTo 1074 * 1 := by rw [Nat.mul_one, unitsPerOne]
  have hunits : one.units = 1 * twoTo 1074 :=
    units_round_exact Nat.one_pos hone (by omega) hexact
  exact ⟨⟨isFinite_round_exact Nat.one_pos hone (by omega) hexact, isNegative_round _ _⟩,
    by rw [hunits, Nat.one_mul, unitsPerOne]⟩

theorem one_mul (hx : x.isFinite = true) : one * x = x := by
  obtain ⟨⟨hfinite, hnegative⟩, hunits⟩ := one_exact
  have hround : one * x = round x.isNegative (one.units * x.units) unitsPerOne := by
    change mul one x = _
    simp [mul, isNaN_of_isFinite hx, isNaN_of_isFinite hfinite, isInfinite_of_isFinite hx,
      isInfinite_of_isFinite hfinite, hnegative]
  rw [hround, hunits, Nat.mul_comm, round_units hx unitsPerOne_pos]

/-- A product with zero is a zero, whose sign does not count in contents. -/
theorem contentBits_zero_mul (hx : x.isFinite = true) : (zero false * x).contentBits = 0 := by
  have hzero : (zero false).isFinite = true ∧ (zero false).isNegative = false
      ∧ (zero false).units = 0 := by decide
  have hround : zero false * x = round x.isNegative (0 * x.units) unitsPerOne := by
    change mul (zero false) x = _
    simp [mul, isNaN_of_isFinite hx, isNaN_of_isFinite hzero.1, isInfinite_of_isFinite hx,
      isInfinite_of_isFinite hzero.1, hzero.2]
  have hnum : 0 * x.units = 0 * twoTo 0 * unitsPerOne := by simp only [Nat.zero_mul]
  have hbits : (zero false * x).magnitudeBits = 0 := by
    rw [hround, magnitudeBits_round, hnum,
      placeOf_exact unitsPerOne_pos (twoTo_pos 53) (Or.inr rfl),
      significandOf_exact unitsPerOne_pos (twoTo_pos 53) (Or.inr rfl), Nat.zero_mul, Nat.zero_min]
  rw [contentBits, if_pos hbits]

/-- The powers of two that numbers can be scaled by, far from the ends of what a number can be. -/
structure Scales (power : Int) : Prop where
  ge : -1000 ≤ power
  le : power ≤ 900

theorem powerOfTwo_exact (h : Scales power) :
    twoTo power.toNat * unitsPerOne = 1 * twoTo (1074 + power).toNat * twoTo (-power).toNat := by
  have := h.ge
  rw [Nat.one_mul, twoTo_mul_unitsPerOne, ← twoTo_add]
  congr 1
  omega

/-- A finite number times a power of two is its sign and its units, scaled and rounded. -/
theorem mul_powerOfTwo (hx : x.isFinite = true) (h : Scales power) : x * powerOfTwo power
    = round x.isNegative (x.units * twoTo (1074 + power).toNat) unitsPerOne := by
  have hexact := powerOfTwo_exact h
  have hone : 1 < twoTo 53 := by decide
  have hk : (1074 + power).toNat ≤ 2043 := by
    have := h.le
    omega
  have hfinite : (powerOfTwo power).isFinite = true :=
    isFinite_round_exact (twoTo_pos _) hone hk hexact
  have hunits : (powerOfTwo power).units = twoTo (1074 + power).toNat := by
    rw [powerOfTwo, ofRatio, units_round_exact (twoTo_pos _) hone hk hexact, Nat.one_mul]
  have hnegative : (powerOfTwo power).isNegative = false := isNegative_round _ _
  change mul x (powerOfTwo power) = _
  simp [mul, isNaN_of_isFinite hx, isNaN_of_isFinite hfinite, isInfinite_of_isFinite hx,
    isInfinite_of_isFinite hfinite, hnegative, hunits]

theorem round_scaled_exact {n : Nat} (h : Scales power) (hn : (n : Int) = k + power) :
    c * twoTo k * twoTo (1074 + power).toNat = c * twoTo n * unitsPerOne := by
  have := h.ge
  rw [Nat.mul_assoc, Nat.mul_assoc, twoTo_mul_unitsPerOne, ← twoTo_add]
  congr 2
  omega

/-- The integer part of the absolute value, scaled by a power of two. -/
def scaledMagnitude (x : Binary64) (power : Int) : Nat :=
  x.magnitude * twoTo power.toNat / (unitsPerOne * twoTo (-power).toNat)

theorem scaledTrunc_eq (hx : x.isNaN = false) (power : Int) :
    x.scaledTrunc power = signed x.isNegative (x.scaledMagnitude power) := by
  rw [scaledTrunc, hx, if_neg Bool.false_ne_true, signedUnits_eq, signed_mul, signed_tdiv,
    scaledMagnitude]

theorem scaledMagnitude_zero (x : Binary64) : x.scaledMagnitude 0 = x.magnitude / unitsPerOne := by
  have hone : twoTo (0 : Int).toNat = 1 := rfl
  have hone' : twoTo (-(0 : Int)).toNat = 1 := rfl
  rw [scaledMagnitude, hone, hone', Nat.mul_one, Nat.mul_one]

theorem scaledMagnitude_of_units {n : Nat} (hx : x.magnitude = c * twoTo k)
    (hn : (n : Int) = k + power) : x.scaledMagnitude power = c * twoTo n / unitsPerOne := by
  have hscaled : c * twoTo k * twoTo power.toNat = c * twoTo n * twoTo (-power).toNat := by
    rw [Nat.mul_assoc, Nat.mul_assoc, ← twoTo_add, ← twoTo_add]
    congr 2
    omega
  rw [scaledMagnitude, hx, hscaled, Nat.mul_div_mul_right _ _ (twoTo_pos _)]

theorem scaledMagnitude_of_small {n : Nat} (hx : x.magnitude = c * twoTo k) (hc : c < twoTo 53)
    (hn : (k : Int) + n = -power) : x.scaledMagnitude power = 0 := by
  have hpower : power.toNat = 0 := by omega
  have hplaces : (-power).toNat = k + n := by omega
  rw [scaledMagnitude, hx, hpower, hplaces, twoTo_zero, Nat.mul_one]
  refine Nat.div_eq_of_lt ?_
  calc c * twoTo k < twoTo 53 * twoTo k := Nat.mul_lt_mul_of_pos_right hc (twoTo_pos k)
    _ = twoTo (53 + k) := (twoTo_add _ _).symm
    _ ≤ twoTo (1074 + (k + n)) := twoTo_le_twoTo (by omega)
    _ = unitsPerOne * twoTo (k + n) := twoTo_add _ _

theorem twoTo_le_div {n m : Nat} (h : twoTo (m + 1074) ≤ n) : twoTo m ≤ n / unitsPerOne :=
  (Nat.le_div_iff_mul_le unitsPerOne_pos).mpr (by rwa [twoTo_mul_unitsPerOne])

/-- The integer part of the product is that of the exact value, or both are very large. -/
theorem scaledMagnitude_mul_powerOfTwo (hx : x.isFinite = true) (h : Scales power) :
    (x * powerOfTwo power).scaledMagnitude 0 = x.scaledMagnitude power
      ∨ twoTo 64 ≤ (x * powerOfTwo power).scaledMagnitude 0
        ∧ twoTo 64 ≤ x.scaledMagnitude power := by
  have hle := h.le
  have hge := h.ge
  obtain ⟨c, k, hunits, hc, hnormal⟩ := x.exists_units
  have hmagnitude : x.magnitude = c * twoTo k := by rw [magnitude_of_isFinite hx, hunits]
  rw [mul_powerOfTwo hx h, scaledMagnitude_zero, hunits]
  rcases Int.lt_or_le (k + power) 0 with hsmall | hplace
  · -- Nothing is left of the point, before rounding and after it.
    obtain ⟨n, hn⟩ := Int.eq_ofNat_of_zero_le (show 0 ≤ -(k + power) by omega)
    have hround : (round x.isNegative (c * twoTo k * twoTo (1074 + power).toNat)
        unitsPerOne).magnitude ≤ twoTo 53 := by
      refine magnitude_round_le unitsPerOne_pos (by omega) ?_
      rw [Nat.mul_assoc, ← twoTo_add]
      exact Nat.mul_le_mul (Nat.le_of_lt hc) (twoTo_le_twoTo (by omega))
    left
    rw [scaledMagnitude_of_small hmagnitude hc (n := n) (by omega)]
    exact Nat.div_eq_of_lt (Nat.lt_of_le_of_lt hround (twoTo_lt_twoTo (by omega)))
  · obtain ⟨n, hn⟩ := Int.eq_ofNat_of_zero_le hplace
    have hnum : c * twoTo k * twoTo (1074 + power).toNat = c * twoTo n * unitsPerOne :=
      round_scaled_exact h hn.symm
    rw [scaledMagnitude_of_units hmagnitude hn.symm]
    rcases Nat.lt_or_ge 2043 n with hlarge | hheld
    · right
      have hsignificand : twoTo 52 ≤ c := hnormal.resolve_right (by omega)
      have hvalue : twoTo (64 + 1074) ≤ c * twoTo n := by
        calc twoTo (64 + 1074) ≤ twoTo (52 + n) := twoTo_le_twoTo (by omega)
          _ = twoTo 52 * twoTo n := twoTo_add _ _
          _ ≤ c * twoTo n := Nat.mul_le_mul_right _ hsignificand
      refine ⟨twoTo_le_div (le_magnitude_round unitsPerOne_pos (by omega) ?_), twoTo_le_div hvalue⟩
      rw [hnum]
      exact Nat.mul_le_mul_right _ hvalue
    · left
      rw [magnitude_round_exact unitsPerOne_pos hc hheld hnum]

/-- Scaling a number and dropping the fraction loses nothing but the fraction. -/
theorem truncWithin_mul_powerOfTwo {low high : Int} (hx : x.isFinite = true) (h : Scales power)
    (hlow : -(twoTo 64 : Int) ≤ low ∧ low ≤ 0) (hhigh : 0 ≤ high ∧ high ≤ twoTo 64) :
    (x * powerOfTwo power).truncWithin low high = max low (min high (x.scaledTrunc power)) := by
  have hnan : (x * powerOfTwo power).isNaN = false := by
    rw [mul_powerOfTwo hx h]
    exact isNaN_round _ _
  have hnegative : (x * powerOfTwo power).isNegative = x.isNegative := by
    rw [mul_powerOfTwo hx h]
    exact isNegative_round _ _
  rw [truncWithin, scaledTrunc_eq hnan, scaledTrunc_eq (isNaN_of_isFinite hx), hnegative]
  rcases scaledMagnitude_mul_powerOfTwo hx h with heq | ⟨hproduct, hexact⟩
  · rw [heq]
  · cases x.isNegative <;> simp only [signed, Bool.false_eq_true, if_false, if_true] <;> omega

theorem ofInt_mul_powerOfTwo {r : Int} (hr : r.natAbs < twoTo 53) (h : Scales power) :
    (ofInt r * powerOfTwo power).isFinite = true
      ∧ (ofInt r * powerOfTwo power).signedUnits = r * twoTo (1074 + power).toNat := by
  have hle := h.le
  have hge := h.ge
  have hinteger : r.natAbs * unitsPerOne = r.natAbs * twoTo 1074 * 1 := by
    rw [Nat.mul_one, unitsPerOne]
  have hfinite : (ofInt r).isFinite = true :=
    isFinite_round_exact Nat.one_pos hr (by omega) hinteger
  have hunits : (ofInt r).units = r.natAbs * twoTo 1074 :=
    units_round_exact Nat.one_pos hr (by omega) hinteger
  have hnegative : (ofInt r).isNegative = decide (r < 0) := isNegative_round _ _
  have hnum : (ofInt r).units * twoTo (1074 + power).toNat
      = r.natAbs * twoTo (1074 + power).toNat * unitsPerOne := by
    rw [hunits]
    exact round_scaled_exact h (by omega)
  have hplace : (1074 + power).toNat ≤ 2043 := by omega
  rw [mul_powerOfTwo hfinite h, hnegative]
  refine ⟨isFinite_round_exact unitsPerOne_pos hr hplace hnum, ?_⟩
  rw [signedUnits_eq, isNegative_round, magnitude_round_exact unitsPerOne_pos hr hplace hnum,
    ← signed_mul, signed_natAbs]

end Manycore.Binary64
