import Manycore.Memory.Word
import Manycore.Number.Binary64

/-! # Rounding

Rounding keeps what lies between two powers of two between them, and whole numbers of up to 53 bits
as they are. So words survive being held as numbers, and budgets can be compared with what is used.
-/

namespace Manycore.Binary64

variable {negative : Bool}

theorem le_roundQuotient {c num den : Nat} (hden : 0 < den) (h : c * den ≤ num) :
    c ≤ roundQuotient num den := by
  have hquotient : c ≤ num / den := (Nat.le_div_iff_mul_le hden).mpr h
  simp only [roundQuotient]
  split
  · exact hquotient
  · split
    · exact Nat.le_succ_of_le hquotient
    · split
      · exact hquotient
      · exact Nat.le_succ_of_le hquotient

theorem roundQuotient_le {c num den : Nat} (hden : 0 < den) (h : num ≤ c * den) :
    roundQuotient num den ≤ c := by
  rcases Nat.lt_or_eq_of_le h with hlt | rfl
  · have hquotient : num / den < c := (Nat.div_lt_iff_lt_mul hden).mpr hlt
    simp only [roundQuotient]
    split
    · exact Nat.le_of_lt hquotient
    · split
      · exact hquotient
      · split
        · exact Nat.le_of_lt hquotient
        · exact hquotient
  · have hexact : 2 * (c * den % den) < den := by simpa using hden
    simp only [roundQuotient, hexact, if_true, Nat.mul_div_cancel c hden, Nat.le_refl]

theorem twoTo_add (m n : Nat) : twoTo (m + n) = twoTo m * twoTo n := Nat.pow_add 2 m n

theorem twoTo_le_twoTo {m n : Nat} (h : m ≤ n) : twoTo m ≤ twoTo n :=
  Nat.pow_le_pow_right (by omega) h

theorem twoTo_lt_twoTo {m n : Nat} (h : m < n) : twoTo m < twoTo n :=
  Nat.pow_lt_pow_right (by omega) h

theorem log2_lt_of_lt_twoTo {n k : Nat} (hk : 0 < k) (h : n < twoTo k) : n.log2 < k := by
  rcases Nat.eq_zero_or_pos n with rfl | hpos
  · rw [Nat.log2_zero]
    exact hk
  · exact (Nat.log2_lt (Nat.ne_of_gt hpos)).mpr h

theorem bits_ofMagnitude {magnitude : Nat} (h : magnitude < twoTo 63) :
    (ofMagnitude negative magnitude).bits.toNat = (if negative then twoTo 63 else 0) + magnitude := by
  have htwo : twoTo 64 = twoTo 63 + twoTo 63 := rfl
  simp only [ofMagnitude, UInt64.toNat_ofNat']
  apply Nat.mod_eq_of_lt
  show _ < twoTo 64
  split <;> omega

theorem magnitudeBits_ofMagnitude {magnitude : Nat} (h : magnitude < twoTo 63) :
    (ofMagnitude negative magnitude).magnitudeBits = magnitude := by
  rw [magnitudeBits, bits_ofMagnitude h]
  split
  · rw [Nat.add_mod_left, Nat.mod_eq_of_lt h]
  · rw [Nat.zero_add, Nat.mod_eq_of_lt h]

theorem isNegative_ofMagnitude {magnitude : Nat} (h : magnitude < twoTo 63) :
    (ofMagnitude negative magnitude).isNegative = negative := by
  rw [isNegative, bits_ofMagnitude h]
  cases negative <;> simp [h]

/-- A significand of up to `2 ^ 53`, shifted by its place; a smaller one than `2 ^ 52` stands at the
lowest place only. -/
theorem units_ofMagnitude {place significand : Nat} (hle : significand ≤ twoTo 53)
    (hplace : place = 0 ∨ twoTo 52 ≤ significand)
    (h : place * twoTo 52 + significand < twoTo 63) :
    (ofMagnitude negative (place * twoTo 52 + significand)).units = significand * twoTo place := by
  have htwo : twoTo 53 = 2 * twoTo 52 := rfl
  have hpos := twoTo_pos 52
  simp only [units, exponentField, fraction, magnitudeBits_ofMagnitude h]
  rcases Nat.lt_or_ge significand (twoTo 52) with hlow | hhigh
  · obtain rfl : place = 0 := hplace.resolve_right (by omega)
    simp [Nat.div_eq_of_lt hlow, Nat.mod_eq_of_lt hlow, twoTo_zero]
  · obtain ⟨low, rfl⟩ := Nat.exists_eq_add_of_le hhigh
    rcases Nat.lt_or_ge low (twoTo 52) with hin | hover
    · have hsum : place * twoTo 52 + (twoTo 52 + low) = low + (place + 1) * twoTo 52 := by
        rw [Nat.add_mul, Nat.one_mul]
        omega
      rw [hsum, Nat.add_mul_div_right _ _ hpos, Nat.add_mul_mod_self_right, Nat.div_eq_of_lt hin,
        Nat.mod_eq_of_lt hin, if_neg (by omega), shiftLeft_eq_mul_twoTo]
      congr 2
      omega
    · obtain rfl : low = twoTo 52 := by omega
      have hsum : place * twoTo 52 + (twoTo 52 + twoTo 52) = 0 + (place + 2) * twoTo 52 := by
        rw [Nat.add_mul]
        omega
      rw [hsum, Nat.add_mul_div_right _ _ hpos, Nat.add_mul_mod_self_right, Nat.zero_div,
        Nat.zero_mod, if_neg (by omega), shiftLeft_eq_mul_twoTo]
      rw [show 0 + (place + 2) - 1 = 1 + place by omega, twoTo_add, Nat.add_zero, ← Nat.mul_assoc]
      congr 1

/-- The power of two that the last bit of a significand counts. -/
def placeOf (num den : Nat) : Nat := (num / den).log2 - 52

/-- The significand of a rounded quotient, before it is kept finite. -/
def significandOf (num den : Nat) : Nat := roundQuotient num (den <<< placeOf num den)

theorem round_eq (negative : Bool) (num den : Nat) :
    round negative num den = ofMagnitude negative
      (min (placeOf num den * twoTo 52 + significandOf num den) infinityBits) := rfl

variable {num den k : Nat}

theorem significandOf_le (hden : 0 < den) : significandOf num den ≤ twoTo 53 := by
  rw [significandOf, shiftLeft_eq_mul_twoTo]
  refine roundQuotient_le (Nat.mul_pos hden (twoTo_pos _)) ?_
  have hlog : num / den < twoTo (53 + placeOf num den) := by
    refine Nat.lt_of_lt_of_le Nat.lt_log2_self (twoTo_le_twoTo ?_)
    simp only [placeOf]
    omega
  rw [Nat.div_lt_iff_lt_mul hden, twoTo_add] at hlog
  rw [Nat.mul_comm den, ← Nat.mul_assoc]
  exact Nat.le_of_lt hlog

theorem le_significandOf (hden : 0 < den) (hplace : 0 < placeOf num den) :
    twoTo 52 ≤ significandOf num den := by
  rw [significandOf, shiftLeft_eq_mul_twoTo]
  refine le_roundQuotient (Nat.mul_pos hden (twoTo_pos _)) ?_
  have hlog : twoTo (52 + placeOf num den) ≤ num / den := by
    have hlarge : num / den ≠ 0 := by
      intro hzero
      simp [placeOf, hzero] at hplace
    refine Nat.le_trans (twoTo_le_twoTo ?_) (Nat.log2_self_le hlarge)
    simp only [placeOf] at hplace ⊢
    omega
  rw [Nat.le_div_iff_mul_le hden, twoTo_add] at hlog
  rw [Nat.mul_comm den, ← Nat.mul_assoc]
  exact hlog

theorem placeOf_or (hden : 0 < den) :
    placeOf num den = 0 ∨ twoTo 52 ≤ significandOf num den := by
  rcases Nat.eq_zero_or_pos (placeOf num den) with hzero | hpos
  · exact Or.inl hzero
  · exact Or.inr (le_significandOf hden hpos)

theorem infinityBits_lt : infinityBits < twoTo 63 := by decide

theorem isNegative_round (num den : Nat) : (round negative num den).isNegative = negative := by
  rw [round_eq]
  exact isNegative_ofMagnitude (Nat.lt_of_le_of_lt (Nat.min_le_right _ _) infinityBits_lt)

theorem magnitudeBits_round (num den : Nat) : (round negative num den).magnitudeBits
    = min (placeOf num den * twoTo 52 + significandOf num den) infinityBits := by
  rw [round_eq]
  exact magnitudeBits_ofMagnitude (Nat.lt_of_le_of_lt (Nat.min_le_right _ _) infinityBits_lt)

theorem isNaN_round (num den : Nat) : (round negative num den).isNaN = false := by
  rw [isNaN, magnitudeBits_round, decide_eq_false (Nat.not_lt.mpr (Nat.min_le_right _ _))]

theorem units_round (hden : 0 < den)
    (hfinite : placeOf num den * twoTo 52 + significandOf num den < infinityBits) :
    (round negative num den).units = significandOf num den * twoTo (placeOf num den) := by
  rw [round_eq, Nat.min_eq_left (Nat.le_of_lt hfinite)]
  exact units_ofMagnitude (significandOf_le hden) (placeOf_or hden)
    (Nat.lt_trans hfinite infinityBits_lt)

theorem isInfinite_round (hfinite : placeOf num den * twoTo 52 + significandOf num den
    < infinityBits) : (round negative num den).isInfinite = false := by
  rw [isInfinite, magnitudeBits_round, Nat.min_eq_left (Nat.le_of_lt hfinite),
    decide_eq_false (Nat.ne_of_lt hfinite)]

theorem signedUnits_round_of_finite (hden : 0 < den)
    (hfinite : placeOf num den * twoTo 52 + significandOf num den < infinityBits) :
    (round false num den).signedUnits
      = (significandOf num den * twoTo (placeOf num den) : Nat) := by
  simp only [signedUnits, isInfinite_round hfinite, isNegative_round, Bool.false_eq_true, if_false,
    units_round hden hfinite]

theorem signedUnits_round_of_infinite
    (hinfinite : infinityBits ≤ placeOf num den * twoTo 52 + significandOf num den) :
    (round false num den).signedUnits = (twoTo 2100 : Nat) := by
  have hbits : (round false num den).isInfinite = true := by
    rw [isInfinite, magnitudeBits_round, Nat.min_eq_right hinfinite, decide_eq_true rfl]
  simp only [signedUnits, hbits, isNegative_round, Bool.false_eq_true, if_false, if_true]

theorem le_signedUnits_round (hden : 0 < den) (hk : k ≤ 2100) (h : twoTo k * den ≤ num) :
    (twoTo k : Int) ≤ (round false num den).signedUnits := by
  rcases Nat.lt_or_ge (placeOf num den * twoTo 52 + significandOf num den) infinityBits with
    hfinite | hinfinite
  · rw [signedUnits_round_of_finite hden hfinite]
    refine Int.ofNat_le.mpr ?_
    have hquotient : twoTo k ≤ num / den := (Nat.le_div_iff_mul_le hden).mpr h
    rcases Nat.eq_zero_or_pos (placeOf num den) with hzero | hpos
    · rw [hzero, twoTo_zero, Nat.mul_one, significandOf, hzero, Nat.shiftLeft_zero]
      exact le_roundQuotient hden h
    · have hlog : k ≤ (num / den).log2 :=
        (Nat.le_log2 (Nat.ne_of_gt (Nat.lt_of_lt_of_le (twoTo_pos k) hquotient))).mpr hquotient
      calc twoTo k ≤ twoTo (52 + placeOf num den) := by
            refine twoTo_le_twoTo ?_
            simp only [placeOf] at hpos ⊢
            omega
        _ = twoTo 52 * twoTo (placeOf num den) := twoTo_add _ _
        _ ≤ significandOf num den * twoTo (placeOf num den) :=
            Nat.mul_le_mul_right _ (le_significandOf hden hpos)
  · rw [signedUnits_round_of_infinite hinfinite]
    exact Int.ofNat_le.mpr (twoTo_le_twoTo hk)

theorem placeOf_le (h : num ≤ twoTo k * den) : placeOf num den ≤ k - 52 := by
  have hquotient : num / den ≤ twoTo k := Nat.div_le_of_le_mul (Nat.mul_comm den _ ▸ h)
  have hlog : (num / den).log2 < k + 1 := by
    refine log2_lt_of_lt_twoTo (Nat.succ_pos k) (Nat.lt_of_le_of_lt hquotient ?_)
    exact twoTo_lt_twoTo (Nat.lt_succ_self k)
  simp only [placeOf]
  omega

theorem finite_of_le (hden : 0 < den) (hk : k ≤ 2096) (h : num ≤ twoTo k * den) :
    placeOf num den * twoTo 52 + significandOf num den < infinityBits := by
  have hplace : placeOf num den ≤ 2044 := Nat.le_trans (placeOf_le h) (by omega)
  have hle : significandOf num den ≤ twoTo 53 := significandOf_le hden
  have htwo : twoTo 53 = 2 * twoTo 52 := rfl
  have hpos := twoTo_pos 52
  have hmul := Nat.mul_le_mul_right (twoTo 52) hplace
  simp only [infinityBits]
  omega

theorem exists_shift {c : Nat} (hplace : placeOf num den ≤ k) :
    ∃ rest, c * twoTo k = c * twoTo rest * twoTo (placeOf num den)
      ∧ c * twoTo k * den = c * twoTo rest * (den * twoTo (placeOf num den)) := by
  obtain ⟨rest, rfl⟩ := Nat.exists_eq_add_of_le hplace
  refine ⟨rest, ?_, ?_⟩ <;> rw [twoTo_add] <;>
    simp only [Nat.mul_assoc, Nat.mul_comm, Nat.mul_left_comm]

theorem significandOf_mul_le {c : Nat} (hden : 0 < den) (hplace : placeOf num den ≤ k)
    (h : num ≤ c * twoTo k * den) :
    significandOf num den * twoTo (placeOf num den) ≤ c * twoTo k := by
  obtain ⟨rest, hshift, hscaled⟩ := exists_shift (c := c) hplace
  rw [hscaled] at h
  rw [hshift, significandOf, shiftLeft_eq_mul_twoTo]
  exact Nat.mul_le_mul_right _ (roundQuotient_le (Nat.mul_pos hden (twoTo_pos _)) h)

theorem le_significandOf_mul {c : Nat} (hden : 0 < den) (hplace : placeOf num den ≤ k)
    (h : c * twoTo k * den ≤ num) :
    c * twoTo k ≤ significandOf num den * twoTo (placeOf num den) := by
  obtain ⟨rest, hshift, hscaled⟩ := exists_shift (c := c) hplace
  rw [hscaled] at h
  rw [hshift, significandOf, shiftLeft_eq_mul_twoTo]
  exact Nat.mul_le_mul_right _ (le_roundQuotient (Nat.mul_pos hden (twoTo_pos _)) h)

/-- What is at most a power of two is not rounded above it. -/
theorem signedUnits_round_le (hden : 0 < den) (hk : k ≤ 2096) (h : num ≤ twoTo k * den) :
    (round false num den).signedUnits ≤ twoTo k := by
  rw [signedUnits_round_of_finite hden (finite_of_le hden hk h)]
  refine Int.ofNat_le.mpr ?_
  have hle := significandOf_mul_le (c := 1) (k := k) hden
    (Nat.le_trans (placeOf_le h) (Nat.sub_le _ _)) (by rwa [Nat.one_mul])
  rwa [Nat.one_mul] at hle

/-- A significand of up to 53 bits is held as it is, at every place that there is. -/
theorem round_exact {c : Nat} (hden : 0 < den) (hc : c < twoTo 53) (hk : k ≤ 2043)
    (h : num = c * twoTo k * den) :
    placeOf num den * twoTo 52 + significandOf num den < infinityBits
      ∧ significandOf num den * twoTo (placeOf num den) = c * twoTo k := by
  have hle : num ≤ twoTo (53 + k) * den := by
    rw [h, twoTo_add]
    exact Nat.mul_le_mul_right _ (Nat.mul_le_mul_right _ (Nat.le_of_lt hc))
  have hplace : placeOf num den ≤ k := by
    have hquotient : num / den < twoTo (53 + k) := by
      rw [h, Nat.mul_div_cancel _ hden, twoTo_add]
      exact Nat.mul_lt_mul_of_pos_right hc (twoTo_pos k)
    have hlog := log2_lt_of_lt_twoTo (by omega) hquotient
    rw [placeOf]
    omega
  refine ⟨finite_of_le hden (by omega) hle, Nat.le_antisymm ?_ ?_⟩
  · exact significandOf_mul_le hden hplace (Nat.le_of_eq h)
  · exact le_significandOf_mul hden hplace (Nat.le_of_eq h.symm)

theorem units_round_exact {c : Nat} (hden : 0 < den) (hc : c < twoTo 53) (hk : k ≤ 2043)
    (h : num = c * twoTo k * den) : (round negative num den).units = c * twoTo k := by
  obtain ⟨hfinite, hvalue⟩ := round_exact hden hc hk h
  rw [units_round hden hfinite, hvalue]

theorem unitsPerOne_pos : 0 < unitsPerOne := twoTo_pos 1074

theorem twoTo_mul_unitsPerOne (n : Nat) : twoTo n * unitsPerOne = twoTo (n + 1074) :=
  (twoTo_add n 1074).symm

theorem signedUnits_ofNat {n : Nat} (h : n < twoTo 53) :
    (ofNat n).signedUnits = (n * unitsPerOne : Nat) := by
  have hexact : n * unitsPerOne = n * twoTo 1074 * 1 := by rw [Nat.mul_one, unitsPerOne]
  obtain ⟨hfinite, hvalue⟩ := round_exact Nat.one_pos h (by omega) hexact
  rw [ofNat, ofRatio, signedUnits_round_of_finite Nat.one_pos hfinite, hvalue, unitsPerOne]

theorem isNaN_ofNat (n : Nat) : (ofNat n).isNaN = false := isNaN_round _ _

theorem scaledTrunc_ofNat {n : Nat} (h : n < twoTo 53) : (ofNat n).scaledTrunc 0 = n := by
  have hone : twoTo (0 : Int).toNat = 1 := rfl
  have hone' : twoTo (-(0 : Int)).toNat = 1 := rfl
  rw [scaledTrunc, isNaN_ofNat, if_neg Bool.false_ne_true, signedUnits_ofNat h, hone, hone',
    Nat.mul_one, Int.natCast_one, Int.mul_one, Int.natCast_mul]
  exact Int.mul_tdiv_cancel _ (Int.natCast_ne_zero.mpr (Nat.ne_of_gt unitsPerOne_pos))

end Manycore.Binary64

namespace Manycore.WordFormat

theorem encode_unsigned_ofNat (w : UInt32) : unsigned.encode (.ofNat w.toNat) = w := by
  have hword : w.toNat < wordRange := w.toNat_lt
  have hsmall : w.toNat < twoTo 53 :=
    Nat.lt_of_lt_of_le hword (Binary64.twoTo_le_twoTo (by omega))
  have hwithin : max (0 : Int) (min (wordRange - 1) w.toNat) = w.toNat := by omega
  simp only [encode, Binary64.truncWithin, Binary64.scaledTrunc_ofNat hsmall, hwithin,
    Int.toNat_natCast, UInt32.ofNat_toNat]

end Manycore.WordFormat
