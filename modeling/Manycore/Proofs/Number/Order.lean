import Manycore.Proofs.Number.Budget

/-! # Order of rounded numbers

Rounding keeps the order of what is rounded, so a larger use calls for no fewer slices, also where
uses are too large to be held as they are.
-/

namespace Manycore.Binary64

variable {x y : Binary64} {m n den : Nat}

theorem roundQuotient_mono (hden : 0 < den) (h : m ≤ n) :
    roundQuotient m den ≤ roundQuotient n den := by
  have hm : roundQuotient m den ≤ m / den + 1 :=
    roundQuotient_le hden (Nat.le_of_lt (Nat.lt_mul_of_div_lt (Nat.lt_succ_self _) hden))
  have hn : n / den ≤ roundQuotient n den := le_roundQuotient hden (Nat.div_mul_le_self n den)
  rcases Nat.lt_or_eq_of_le (Nat.div_le_div_right (c := den) h) with hlt | hquotient
  · omega
  · -- of two numbers with the same quotient, the larger has the larger remainder
    have hmod : m % den ≤ n % den := by
      have hsplit := Nat.div_add_mod m den
      have hsplit' := Nat.div_add_mod n den
      rw [hquotient] at hsplit
      omega
    grind [roundQuotient]

theorem placeOf_mono (h : m ≤ n) : placeOf m den ≤ placeOf n den :=
  Nat.sub_le_sub_right (log2_le_log2 (Nat.div_le_div_right h)) 52

/-- A larger quotient has a larger significand, or the same bits at a higher place. -/
theorem significandOf_mono (hden : 0 < den) (h : m ≤ n) :
    placeOf m den = placeOf n den ∧ significandOf m den ≤ significandOf n den
      ∨ placeOf m den < placeOf n den ∧ significandOf m den ≤ twoTo 53
        ∧ twoTo 52 ≤ significandOf n den := by
  have hle : placeOf m den ≤ placeOf n den := placeOf_mono h
  rcases Nat.lt_or_eq_of_le hle with hlt | hplace
  · exact Or.inr ⟨hlt, significandOf_le hden, le_significandOf hden (Nat.zero_lt_of_lt hlt)⟩
  · refine Or.inl ⟨hplace, ?_⟩
    rw [significandOf, significandOf, hplace, shiftLeft_eq_mul_twoTo]
    exact roundQuotient_mono (Nat.mul_pos hden (twoTo_pos _)) h

theorem magnitude_mono (hden : 0 < den) (h : m ≤ n) :
    placeOf m den * twoTo 52 + significandOf m den
      ≤ placeOf n den * twoTo 52 + significandOf n den := by
  rcases significandOf_mono hden h with ⟨hplace, hle⟩ | ⟨hplace, hm, hn⟩
  · rw [hplace]
    exact Nat.add_le_add_left hle _
  · have htwo : twoTo 53 = 2 * twoTo 52 := rfl
    have hnext := Nat.mul_le_mul_right (twoTo 52) (Nat.succ_le_of_lt hplace)
    rw [Nat.succ_mul] at hnext
    omega

theorem signedUnits_round_mono (hden : 0 < den) (h : m ≤ n) :
    (round false m den).signedUnits ≤ (round false n den).signedUnits := by
  rcases Nat.lt_or_ge (placeOf n den * twoTo 52 + significandOf n den) infinityBits with
    hfinite | hinfinite
  · have hfinite' := Nat.lt_of_le_of_lt (magnitude_mono hden h) hfinite
    rw [signedUnits_round_of_finite hden hfinite, signedUnits_round_of_finite hden hfinite']
    refine Int.ofNat_le.mpr ?_
    rcases significandOf_mono hden h with ⟨hplace, hle⟩ | ⟨hplace, hm, hn⟩
    · rw [hplace]
      exact Nat.mul_le_mul_right _ hle
    · calc significandOf m den * twoTo (placeOf m den)
          ≤ twoTo 53 * twoTo (placeOf m den) := Nat.mul_le_mul_right _ hm
        _ = twoTo 52 * twoTo (placeOf m den + 1) := by
          rw [← twoTo_add, ← twoTo_add, Nat.add_left_comm 52 _ 1, Nat.add_comm 53]
        _ ≤ significandOf n den * twoTo (placeOf n den) :=
          Nat.mul_le_mul hn (twoTo_le_twoTo hplace)
  · rw [signedUnits_round_of_infinite hinfinite]
    exact signedUnits_round_le_twoTo hden

theorem signedUnits_ofNat_mono (h : m ≤ n) : (ofNat m).signedUnits ≤ (ofNat n).signedUnits :=
  signedUnits_round_mono Nat.one_pos (Nat.mul_le_mul_right _ h)

theorem isInfinite_ofNat_mono (h : m ≤ n) (hinfinite : (ofNat m).isInfinite = true) :
    (ofNat n).isInfinite = true := by
  simp only [isInfinite, ofNat, ofRatio, magnitudeBits_round, decide_eq_true_eq] at hinfinite ⊢
  have hle := magnitude_mono Nat.one_pos (Nat.mul_le_mul_right unitsPerOne h)
  omega

theorem ceilWithin_mono {high : Nat} (hnan : y.isNaN = false) (hnegative : y.isNegative = false)
    (h : x.signedUnits ≤ y.signedUnits) : x.ceilWithin high ≤ y.ceilWithin high := by
  simp only [ceilWithin, hnan, hnegative, Bool.or_self, Bool.false_eq_true, if_false]
  split
  · exact Nat.zero_le _
  · have hceil : (x.signedUnits.toNat + (unitsPerOne - 1)) / unitsPerOne
        ≤ (y.signedUnits.toNat + (unitsPerOne - 1)) / unitsPerOne :=
      Nat.div_le_div_right (Nat.add_le_add_right (Int.toNat_le_toNat h) _)
    omega

theorem signedUnits_div_mono (hy : y.isNaN = false) (hyNegative : y.isNegative = false)
    (hyInfinite : y.isInfinite = false) (hpos : 0 < y.units) (h : m ≤ n) :
    (ofNat n / y).isNaN = false ∧ (ofNat n / y).isNegative = false
      ∧ (ofNat m / y).signedUnits ≤ (ofNat n / y).signedUnits := by
  have hnan : ∀ k, (ofNat k).isNaN = false := isNaN_ofNat
  have hnegative : ∀ k, (ofNat k).isNegative = false := fun k => isNegative_round _ _
  have hfinite : ∀ k, (ofNat k).isInfinite = false →
      ofNat k / y = round false ((ofNat k).units * unitsPerOne) y.units :=
    fun k hk => div_of_finite (hnan k) hy (hnegative k) hyNegative hk hyInfinite hpos
  cases hn : (ofNat n).isInfinite with
  | true =>
      rw [div_of_infinite (hnan n) hy (hnegative n) hyNegative hn hyInfinite]
      refine ⟨by decide, by decide, ?_⟩
      cases hm : (ofNat m).isInfinite with
      | true =>
          apply Int.le_of_eq
          rw [div_of_infinite (hnan m) hy (hnegative m) hyNegative hm hyInfinite]
      | false =>
          rw [hfinite m hm, signedUnits_infinity]
          exact signedUnits_round_le_twoTo hpos
  | false =>
      have hm : (ofNat m).isInfinite = false := by
        rw [← Bool.not_eq_true] at hn ⊢
        exact fun hinfinite => hn (isInfinite_ofNat_mono h hinfinite)
      rw [hfinite n hn, hfinite m hm]
      refine ⟨isNaN_round _ _, isNegative_round _ _, signedUnits_round_mono hpos ?_⟩
      have hle := signedUnits_ofNat_mono h
      rw [signedUnits_eq_units (hnegative m) hm, signedUnits_eq_units (hnegative n) hn] at hle
      exact Nat.mul_le_mul_right _ (Int.ofNat_le.mp hle)

end Manycore.Binary64

namespace Manycore.Constraint

open Binary64

variable {budget : Binary64} {m n : Nat}

theorem slicesWithin_mono (hpos : (zero false).lt budget = true) (h : m ≤ n) :
    slicesWithin budget (.ofNat m) ≤ slicesWithin budget (.ofNat n) := by
  obtain ⟨-, hnan, hsigned⟩ := lt_iff.mp hpos
  rw [signedUnits_zero] at hsigned
  have hnegative := isNegative_of_signedUnits_pos hsigned
  have hfits : ∀ k, (ofNat k).le budget = true ↔ (ofNat k).signedUnits ≤ budget.signedUnits := by
    simp only [le_iff, isNaN_ofNat, hnan, true_and, implies_true]
  have hle := signedUnits_ofNat_mono h
  by_cases hm : (ofNat m).signedUnits ≤ budget.signedUnits
  · have hone : slicesWithin budget (.ofNat m) = 1 := by rw [slicesWithin, if_pos ((hfits m).mpr hm)]
    rw [hone]
    by_cases hn : (ofNat n).signedUnits ≤ budget.signedUnits
    · apply Nat.le_of_eq
      rw [slicesWithin, if_pos ((hfits n).mpr hn)]
    · rw [← slicesWithin_le_one_iff hnan, Nat.not_le] at hn
      exact Nat.le_of_lt hn
  · have hn : ¬ (ofNat n).signedUnits ≤ budget.signedUnits := fun hn => hm (Int.le_trans hle hn)
    have hfinite := isInfinite_of_lt_ofNat hnegative (Int.not_le.mp hm)
    have hunits : 0 < budget.units := by
      rw [signedUnits_eq_units hnegative hfinite] at hsigned
      exact Int.natCast_pos.mp hsigned
    have hbudget : ¬ budget.le (zero false) = true := by
      rw [le_iff, signedUnits_zero]
      rintro ⟨-, -, hnone⟩
      omega
    simp only [slicesWithin, hfits, hm, hn, hbudget, Bool.false_eq_true, if_false]
    obtain ⟨hquotient, hpositive, hmono⟩ := signedUnits_div_mono hnan hnegative hfinite hunits h
    exact ceilWithin_mono hquotient hpositive hmono

end Manycore.Constraint
