import Manycore.Proofs.Number.Rounding

/-! # Rounded quotients

Rounding keeps quotients on their side of one: the quotient of a number by a smaller one stays above
one. Nor is a quotient rounded above a whole number that is held as it is.
-/

namespace Manycore.Binary64

variable {x y : Binary64} {num den : Nat}

/-- A finite number is a significand of 53 bits at its place, and both can be read off its bits. -/
theorem exists_significand (x : Binary64) : ∃ significand place,
    x.units = significand * twoTo place ∧ significand < twoTo 53
      ∧ (twoTo 52 ≤ significand ∨ place = 0)
      ∧ x.magnitudeBits = place * twoTo 52 + significand := by
  have hfraction : x.fraction < twoTo 52 := Nat.mod_lt _ (twoTo_pos 52)
  have htwo : twoTo 53 = 2 * twoTo 52 := rfl
  have hbits : x.exponentField * twoTo 52 + x.fraction = x.magnitudeBits := Nat.div_add_mod' _ _
  simp only [units]
  split
  · rename_i hzero
    rw [hzero] at hbits
    exact ⟨x.fraction, 0, by rw [twoTo_zero, Nat.mul_one], by omega, Or.inr rfl, hbits.symm⟩
  · obtain ⟨place, hplace⟩ := Nat.exists_eq_succ_of_ne_zero ‹_›
    rw [hplace, Nat.succ_mul] at hbits
    rw [hplace]
    exact ⟨twoTo 52 + x.fraction, place, shiftLeft_eq_mul_twoTo _ _, by omega,
      Or.inl (Nat.le_add_right _ _), by omega⟩

theorem exists_units (x : Binary64) : ∃ significand place,
    x.units = significand * twoTo place ∧ significand < twoTo 53
      ∧ (twoTo 52 ≤ significand ∨ place = 0) := by
  obtain ⟨significand, place, hunits, hlt, hnormal, -⟩ := x.exists_significand
  exact ⟨significand, place, hunits, hlt, hnormal⟩

/-- A larger number is larger by more than the `2 ^ 53`rd part. -/
theorem units_gap (h : y.units < x.units) :
    (twoTo 53 + 1) * y.units < twoTo 53 * x.units := by
  obtain ⟨c, place, hy, hc, hnormal⟩ := y.exists_units
  obtain ⟨d, place', hx, hd, -⟩ := x.exists_units
  -- Both are multiples of the last bit of the smaller one.
  have hstep : y.units + twoTo place ≤ x.units := by
    rcases Nat.le_total place place' with hle | hle
    · obtain ⟨rest, rfl⟩ := Nat.exists_eq_add_of_le hle
      have hmultiple : d * twoTo (place + rest) = d * twoTo rest * twoTo place := by
        rw [Nat.add_comm, twoTo_add, Nat.mul_assoc]
      rw [hy, hx, hmultiple] at h
      rw [hy, hx, hmultiple, ← Nat.succ_mul]
      exact Nat.mul_le_mul_right _ (Nat.lt_of_mul_lt_mul_right h)
    · obtain ⟨rest, rfl⟩ := Nat.exists_eq_add_of_le hle
      rcases Nat.eq_zero_or_pos rest with rfl | hrest
      · rw [hy, hx, Nat.add_zero] at h
        rw [hy, hx, Nat.add_zero, ← Nat.succ_mul]
        exact Nat.mul_le_mul_right _ (Nat.lt_of_mul_lt_mul_right h)
      · exfalso
        have hlarge : twoTo 52 ≤ c := hnormal.resolve_right (by omega)
        have hbelow : x.units < twoTo 53 * twoTo place' := by
          rw [hx]
          exact Nat.mul_lt_mul_of_pos_right hd (twoTo_pos _)
        have habove : twoTo 53 * twoTo place' ≤ y.units := by
          calc twoTo 53 * twoTo place' = twoTo 52 * twoTo (place' + 1) := by
                rw [← twoTo_add, ← twoTo_add]
                congr 1
                omega
            _ ≤ c * twoTo (place' + rest) :=
                Nat.mul_le_mul hlarge (twoTo_le_twoTo (by omega))
            _ = y.units := hy.symm
        omega
  calc (twoTo 53 + 1) * y.units = twoTo 53 * y.units + y.units := Nat.succ_mul _ _
    _ < twoTo 53 * y.units + twoTo 53 * twoTo place := by
        rw [hy]
        exact Nat.add_lt_add_left (Nat.mul_lt_mul_of_pos_right hc (twoTo_pos _)) _
    _ = twoTo 53 * (y.units + twoTo place) := (Nat.mul_add _ _ _).symm
    _ ≤ twoTo 53 * x.units := Nat.mul_le_mul_left _ hstep

theorem lt_roundQuotient {c : Nat} (hden : 0 < den) (h : (2 * c + 1) * den < 2 * num) :
    c < roundQuotient num den := by
  have hscaled : (2 * c + 1) * den = 2 * (c * den) + den := by
    rw [Nat.succ_mul, Nat.mul_assoc]
  have hquotient : c ≤ num / den := (Nat.le_div_iff_mul_le hden).mpr (by omega)
  rcases Nat.lt_or_eq_of_le hquotient with hlt | heq
  · exact Nat.lt_of_lt_of_le hlt (le_roundQuotient hden (Nat.div_mul_le_self _ _))
  · have hsplit := Nat.div_add_mod num den
    rw [← heq, Nat.mul_comm den] at hsplit
    have hover : den < 2 * (num % den) := by omega
    simp only [roundQuotient, if_neg (Nat.lt_asymm hover), if_pos hover, ← heq]
    exact Nat.lt_succ_self c

theorem le_log2_of_twoTo_le {n k : Nat} (h : twoTo k ≤ n) : k ≤ n.log2 :=
  (Nat.le_log2 (Nat.ne_of_gt (Nat.lt_of_lt_of_le (twoTo_pos k) h))).mpr h

theorem log2_le_log2 {m n : Nat} (h : m ≤ n) : m.log2 ≤ n.log2 := by
  rcases Nat.eq_zero_or_pos m with rfl | hpos
  · rw [Nat.log2_zero]
    exact Nat.zero_le _
  · exact le_log2_of_twoTo_le (Nat.le_trans (Nat.log2_self_le (Nat.ne_of_gt hpos)) h)

theorem one_lt_signedUnits_round (hden : 0 < den)
    (h : (twoTo 53 + 1) * (unitsPerOne * den) < twoTo 53 * num) :
    (unitsPerOne : Int) < (round false num den).signedUnits := by
  have htwo : twoTo 53 = 2 * twoTo 52 := rfl
  have hsame : unitsPerOne = twoTo 52 * twoTo 1022 := twoTo_add 52 1022
  have hpos := unitsPerOne_pos
  rcases Nat.lt_or_ge num (twoTo (1074 + 1) * den) with hbelow | habove
  · have hover : unitsPerOne * den ≤ num := by
      refine Nat.le_of_mul_le_mul_left ?_ (twoTo_pos 53)
      exact Nat.le_trans (Nat.mul_le_mul_right _ (Nat.le_succ _)) (Nat.le_of_lt h)
    have hplace : placeOf num den = 1022 := by
      have hlow : unitsPerOne ≤ num / den := (Nat.le_div_iff_mul_le hden).mpr hover
      have hhigh : num / den < twoTo (1074 + 1) := (Nat.div_lt_iff_lt_mul hden).mpr hbelow
      have hlog : (num / den).log2 = 1074 := by
        apply Nat.le_antisymm
        · exact Nat.le_of_lt_succ (log2_lt_of_lt_twoTo (by omega) hhigh)
        · exact le_log2_of_twoTo_le hlow
      rw [placeOf, hlog]
    have hsignificand : twoTo 52 < significandOf num den := by
      rw [significandOf, hplace, shiftLeft_eq_mul_twoTo]
      refine lt_roundQuotient (Nat.mul_pos hden (twoTo_pos _)) ?_
      refine Nat.lt_of_mul_lt_mul_left (a := twoTo 52) ?_
      calc twoTo 52 * ((2 * twoTo 52 + 1) * (den * twoTo 1022))
          = (twoTo 53 + 1) * (unitsPerOne * den) := by
            rw [htwo, hsame]
            simp only [Nat.mul_comm, Nat.mul_left_comm]
        _ < twoTo 53 * num := h
        _ = twoTo 52 * (2 * num) := by rw [htwo, Nat.mul_assoc, Nat.mul_left_comm]
    rw [signedUnits_round_of_finite hden (finite_of_le hden (by omega) (Nat.le_of_lt hbelow)),
      hplace, hsame]
    exact Int.ofNat_lt.mpr (Nat.mul_lt_mul_of_pos_right hsignificand (twoTo_pos _))
  · have hround := le_signedUnits_round hden (by omega) habove
    rw [twoTo_succ, ← unitsPerOne] at hround
    omega

/-- A count that is held as it is. -/
structure Exact (n : Nat) : Prop where
  le_maxCount : n ≤ maxCount
  signedUnits : (ofNat n).signedUnits = (n * unitsPerOne : Nat)

theorem exact_of_lt {n : Nat} (h : n < twoTo 53) : Exact n where
  le_maxCount := by
    have htwo : twoTo 64 = 2048 * twoTo 53 := rfl
    simp only [maxCount]
    omega
  signedUnits := signedUnits_ofNat h

theorem exists_bound {n : Nat} (h : n ≤ maxCount) :
    ∃ k, k ≤ 2096 ∧ n * unitsPerOne ≤ twoTo k := by
  refine ⟨64 + 1074, by omega, ?_⟩
  rw [← twoTo_mul_unitsPerOne]
  exact Nat.mul_le_mul_right _ (Nat.le_trans h (Nat.sub_le _ _))

theorem Exact.finite {n : Nat} (h : Exact n) :
    placeOf (n * unitsPerOne) 1 * twoTo 52 + significandOf (n * unitsPerOne) 1 < infinityBits := by
  obtain ⟨k, hk, hbound⟩ := exists_bound h.le_maxCount
  exact finite_of_le Nat.one_pos hk (by rwa [Nat.mul_one])

theorem Exact.isInfinite {n : Nat} (h : Exact n) : (ofNat n).isInfinite = false :=
  isInfinite_round h.finite

theorem Exact.units {n : Nat} (h : Exact n) : (ofNat n).units = n * unitsPerOne := by
  have hsigned := h.signedUnits
  have hinfinite := h.isInfinite
  have hnegative : (ofNat n).isNegative = false := isNegative_round _ _
  simp only [Binary64.signedUnits, hinfinite, hnegative, Bool.false_eq_true, if_false] at hsigned
  exact Int.ofNat_inj.mp hsigned

theorem placeOf_le_placeOf {bound : Nat} (h : num ≤ bound * den) :
    placeOf num den ≤ placeOf bound 1 := by
  have hquotient : num / den ≤ bound := Nat.div_le_of_le_mul (Nat.mul_comm den _ ▸ h)
  rw [placeOf, placeOf, Nat.div_one]
  exact Nat.sub_le_sub_right (log2_le_log2 hquotient) _

theorem Exact.signedUnits_round_le {n : Nat} (h : Exact n) (hden : 0 < den)
    (hle : num ≤ n * unitsPerOne * den) :
    (round false num den).signedUnits ≤ (n * unitsPerOne : Nat) := by
  obtain ⟨k, hk, hbound⟩ := exists_bound h.le_maxCount
  have hheld := h.units
  rw [ofNat, ofRatio, units_round Nat.one_pos h.finite] at hheld
  generalize n * unitsPerOne = bound at hle hbound hheld ⊢
  have hfinite := finite_of_le hden hk (Nat.le_trans hle (Nat.mul_le_mul_right _ hbound))
  rw [signedUnits_round_of_finite hden hfinite]
  refine Int.ofNat_le.mpr ?_
  have hrounded := significandOf_mul_le (c := significandOf bound 1) hden (placeOf_le_placeOf hle)
    (by rwa [hheld])
  rwa [hheld] at hrounded

end Manycore.Binary64
