import Manycore.Partition.Workload
import Manycore.Proofs.Number.Quotient

/-! # Budgets

A use fits a budget exactly when one slice is called for, however their quotient is rounded. Uses that
are held as they are call for no more slices than the budget, times a count, has room for.
-/

namespace Manycore.Binary64

variable {x y : Binary64}

theorem signedUnits_eq_units (hnegative : x.isNegative = false) (hinfinite : x.isInfinite = false) :
    x.signedUnits = x.units := by
  simp only [signedUnits, hnegative, hinfinite, Bool.false_eq_true, if_false]

theorem le_iff : x.le y = true ↔
    x.isNaN = false ∧ y.isNaN = false ∧ x.signedUnits ≤ y.signedUnits := by
  simp only [le, Bool.and_eq_true, Bool.not_eq_true', decide_eq_true_eq, and_assoc]

theorem lt_iff : x.lt y = true ↔
    x.isNaN = false ∧ y.isNaN = false ∧ x.signedUnits < y.signedUnits := by
  simp only [lt, Bool.and_eq_true, Bool.not_eq_true', decide_eq_true_eq, and_assoc]

theorem two_mul_unitsPerOne : 2 * unitsPerOne = twoTo (1 + 1074) := by
  rw [← twoTo_mul_unitsPerOne, show twoTo 1 = 2 from rfl]

theorem signedUnits_zero : (zero false).signedUnits = 0 := by decide

theorem signedUnits_one : one.signedUnits = unitsPerOne := by
  rw [one, signedUnits_ofNat (by decide), Nat.one_mul]

/-- A part of a whole, as budgets are planned with. -/
structure IsPart (x : Binary64) : Prop where
  isNaN : x.isNaN = false
  isNegative : x.isNegative = false
  isInfinite : x.isInfinite = false
  units_le : x.units ≤ unitsPerOne

theorem isPart_of_lt_of_le (hpos : (zero false).lt x = true) (hle : x.le one = true) :
    IsPart x := by
  obtain ⟨-, hnan, hlt⟩ := lt_iff.mp hpos
  obtain ⟨-, -, hone⟩ := le_iff.mp hle
  rw [signedUnits_zero] at hlt
  rw [signedUnits_one] at hone
  have hnegative : x.isNegative = false := by
    cases h : x.isNegative with
    | false => rfl
    | true =>
        simp only [signedUnits, h, if_true] at hlt
        omega
  have hinfinite : x.isInfinite = false := by
    cases h : x.isInfinite with
    | false => rfl
    | true =>
        simp only [signedUnits, h, hnegative, if_true, Bool.false_eq_true, if_false] at hone
        have hlarge : 2 * unitsPerOne ≤ twoTo 2100 := by
          rw [two_mul_unitsPerOne]
          exact twoTo_le_twoTo (by omega)
        have hpos := unitsPerOne_pos
        omega
  rw [signedUnits_eq_units hnegative hinfinite] at hone
  exact ⟨hnan, hnegative, hinfinite, Int.ofNat_le.mp hone⟩

/-- What is known of a part of a budget: it is a number and is not above the budget. -/
structure IsBelow (k : Nat) (x : Binary64) : Prop where
  isNaN : x.isNaN = false
  isNegative : x.isNegative = false
  isInfinite : x.isInfinite = false
  units_le : x.units ≤ twoTo k

theorem isBelow_round {num den k : Nat} (hden : 0 < den) (hk : k ≤ 2096)
    (h : num ≤ twoTo k * den) : IsBelow k (round false num den) where
  isNaN := isNaN_round _ _
  isNegative := isNegative_round _ _
  isInfinite := isInfinite_round (finite_of_le hden hk h)
  units_le := by
    have hle := signedUnits_round_le hden hk h
    rw [signedUnits_eq_units (isNegative_round _ _) (isInfinite_round (finite_of_le hden hk h))]
      at hle
    exact Int.ofNat_le.mp hle

theorem isBelow_ofNat {n k : Nat} (hk : k ≤ 1022) (h : n ≤ twoTo k) :
    IsBelow (k + 1074) (ofNat n) := by
  refine isBelow_round Nat.one_pos (by omega) ?_
  rw [Nat.mul_one, ← twoTo_mul_unitsPerOne]
  exact Nat.mul_le_mul_right _ h

theorem mul_eq_round (hnan : x.isNaN = false) (hnegative : x.isNegative = false)
    (hinfinite : x.isInfinite = false) (hy : IsPart y) :
    x * y = round false (x.units * y.units) unitsPerOne := by
  change mul x y = _
  simp [mul, hnan, hy.isNaN, hinfinite, hy.isInfinite, hnegative, hy.isNegative]

theorem isBelow_mul {k : Nat} (hk : k ≤ 2096) (hx : IsBelow k x) (hy : IsPart y) :
    IsBelow k (x * y) := by
  rw [mul_eq_round hx.isNaN hx.isNegative hx.isInfinite hy]
  exact isBelow_round unitsPerOne_pos hk (Nat.mul_le_mul hx.units_le hy.units_le)

/-- A part of a count is not rounded above it. -/
theorem Exact.signedUnits_mul_le {n : Nat} (h : Exact n) (hy : IsPart y) :
    (ofNat n * y).signedUnits ≤ (n * unitsPerOne : Nat) := by
  rw [mul_eq_round (isNaN_ofNat n) (isNegative_round _ _) h.isInfinite hy]
  refine h.signedUnits_round_le unitsPerOne_pos ?_
  rw [h.units]
  exact Nat.mul_le_mul_left _ hy.units_le

theorem one_lt_ceilWithin (hnan : x.isNaN = false) (hnegative : x.isNegative = false)
    (h : (unitsPerOne : Int) < x.signedUnits) : 1 < x.ceilWithin maxCount := by
  have hmax : 1 < maxCount := by decide
  have hpos := unitsPerOne_pos
  have hceil : 2 ≤ (x.signedUnits.toNat + (unitsPerOne - 1)) / unitsPerOne :=
    (Nat.le_div_iff_mul_le unitsPerOne_pos).mpr (by omega)
  simp only [ceilWithin, hnan, hnegative, Bool.or_self, Bool.false_eq_true, if_false]
  omega

theorem ceilWithin_le {n high : Nat} (h : x.signedUnits ≤ (n * unitsPerOne : Nat)) :
    x.ceilWithin high ≤ n := by
  have hpos := unitsPerOne_pos
  have hceil : (x.signedUnits.toNat + (unitsPerOne - 1)) / unitsPerOne ≤ n := by
    refine Nat.le_of_lt_succ ((Nat.div_lt_iff_lt_mul unitsPerOne_pos).mpr ?_)
    rw [Nat.succ_mul]
    omega
  rw [ceilWithin]
  split
  · exact Nat.zero_le n
  · exact Nat.le_trans (Nat.min_le_right _ _) hceil

theorem isNegative_of_signedUnits_pos (h : 0 < x.signedUnits) : x.isNegative = false := by
  cases hnegative : x.isNegative with
  | false => rfl
  | true =>
      simp only [signedUnits, hnegative, if_true] at h
      omega

theorem signedUnits_round_le_twoTo {num den : Nat} (hden : 0 < den) :
    (round false num den).signedUnits ≤ (twoTo 2100 : Nat) := by
  rcases Nat.lt_or_ge (placeOf num den * twoTo 52 + significandOf num den) infinityBits with
    hfinite | hinfinite
  · rw [signedUnits_round_of_finite hden hfinite]
    have hplace : placeOf num den ≤ 2046 := by
      have hlt : placeOf num den * twoTo 52 < 2047 * twoTo 52 :=
        Nat.lt_of_le_of_lt (Nat.le_add_right _ _) hfinite
      exact Nat.le_of_lt_succ (Nat.lt_of_mul_lt_mul_right hlt)
    refine Int.ofNat_le.mpr ?_
    calc significandOf num den * twoTo (placeOf num den) ≤ twoTo 53 * twoTo 2046 :=
          Nat.mul_le_mul (significandOf_le hden) (twoTo_le_twoTo hplace)
      _ = twoTo (53 + 2046) := (twoTo_add _ _).symm
      _ ≤ twoTo 2100 := twoTo_le_twoTo (by omega)
  · exact Int.le_of_eq (signedUnits_round_of_infinite hinfinite)

theorem signedUnits_of_infinite (hinfinite : x.isInfinite = true) (hnegative : x.isNegative = false) :
    x.signedUnits = (twoTo 2100 : Nat) := by
  simp only [signedUnits, hinfinite, hnegative, if_true, Bool.false_eq_true, if_false]

theorem isInfinite_of_lt_ofNat {n : Nat} (hnegative : x.isNegative = false)
    (h : x.signedUnits < (ofNat n).signedUnits) : x.isInfinite = false := by
  rw [← Bool.not_eq_true]
  intro hinfinite
  rw [signedUnits_of_infinite hinfinite hnegative] at h
  exact absurd (signedUnits_round_le_twoTo Nat.one_pos) (Int.not_le.mpr h)

theorem signedUnits_infinity : (infinity false).signedUnits = (twoTo 2100 : Nat) :=
  signedUnits_of_infinite (by decide) (by decide)

theorem div_of_infinite (hx : x.isNaN = false) (hy : y.isNaN = false)
    (hxNegative : x.isNegative = false) (hyNegative : y.isNegative = false)
    (hxInfinite : x.isInfinite = true) (hyInfinite : y.isInfinite = false) :
    x / y = infinity false := by
  change div x y = _
  simp [div, hx, hy, hxInfinite, hyInfinite, hxNegative, hyNegative]

theorem div_of_finite (hx : x.isNaN = false) (hy : y.isNaN = false)
    (hxNegative : x.isNegative = false) (hyNegative : y.isNegative = false)
    (hxInfinite : x.isInfinite = false) (hyInfinite : y.isInfinite = false) (hpos : 0 < y.units) :
    x / y = round false (x.units * unitsPerOne) y.units := by
  have hnonzero : ¬ y.units = 0 := Nat.ne_of_gt hpos
  change div x y = _
  simp [div, hx, hy, hxNegative, hyNegative, hxInfinite, hyInfinite, hnonzero]

/-- A use above the budget takes more than one share. -/
theorem one_lt_ceilWithin_div {used : Nat} (hy : y.isNaN = false) (hpos : 0 < y.signedUnits)
    (h : y.signedUnits < (ofNat used).signedUnits) : 1 < (ofNat used / y).ceilWithin maxCount := by
  have hx : (ofNat used).isNaN = false := isNaN_ofNat used
  have hxNegative : (ofNat used).isNegative = false := isNegative_round _ _
  have hyNegative := isNegative_of_signedUnits_pos hpos
  have hyInfinite := isInfinite_of_lt_ofNat hyNegative h
  generalize ofNat used = x at *
  cases hinfinite : x.isInfinite with
  | true =>
      -- An infinite use divides to infinity, which counts as more than every number.
      rw [div_of_infinite hx hy hxNegative hyNegative hinfinite hyInfinite]
      refine one_lt_ceilWithin (by decide) (by decide) ?_
      rw [signedUnits_infinity]
      exact Int.ofNat_lt.mpr (twoTo_lt_twoTo (by omega))
  | false =>
      rw [signedUnits_eq_units hyNegative hyInfinite] at hpos h
      rw [signedUnits_eq_units hxNegative hinfinite] at h
      have hunits : 0 < y.units := Int.natCast_pos.mp hpos
      rw [div_of_finite hx hy hxNegative hyNegative hinfinite hyInfinite hunits]
      refine one_lt_ceilWithin (isNaN_round _ _) (isNegative_round _ _) ?_
      refine one_lt_signedUnits_round hunits ?_
      have hgap := Nat.mul_lt_mul_of_pos_right (units_gap (Int.ofNat_lt.mp h)) unitsPerOne_pos
      rw [Nat.mul_assoc, Nat.mul_assoc] at hgap
      rwa [Nat.mul_comm unitsPerOne]

theorem ceilWithin_div_le {used n : Nat} (hused : Exact used) (hn : Exact n) (hy : y.isNaN = false)
    (hpos : 0 < y.signedUnits) (hyInfinite : y.isInfinite = false)
    (h : ((used * unitsPerOne : Nat) : Int) ≤ n * y.signedUnits) :
    (ofNat used / y).ceilWithin maxCount ≤ n := by
  have hyNegative := isNegative_of_signedUnits_pos hpos
  rw [signedUnits_eq_units hyNegative hyInfinite] at hpos h
  have hunits : 0 < y.units := Int.natCast_pos.mp hpos
  rw [div_of_finite (isNaN_ofNat used) hy (isNegative_round _ _) hyNegative hused.isInfinite
    hyInfinite hunits]
  refine ceilWithin_le (hn.signedUnits_round_le hunits ?_)
  rw [hused.units, Nat.mul_right_comm n]
  exact Nat.mul_le_mul_right _ (Int.ofNat_le.mp (by rwa [Int.natCast_mul n]))

end Manycore.Binary64

namespace Manycore.Constraint

open Binary64

variable {budget : Binary64} {used : Nat}

theorem required_usageLimit (r : Resource) (limit : Nat) (fraction : Binary64) (w : Workload)
    (s : Slice) : (usageLimit r limit fraction).required w s
      = slicesWithin (.ofNat limit * fraction) (.ofNat (w.usage r s)) := by
  simp only [usageLimit]

theorem slicesWithin_le_one_iff (hbudget : budget.isNaN = false) :
    slicesWithin budget (.ofNat used) ≤ 1
      ↔ (ofNat used).signedUnits ≤ budget.signedUnits := by
  have hmax : 1 < maxCount := by decide
  simp only [slicesWithin, le_iff, isNaN_ofNat, hbudget, true_and, signedUnits_zero,
    show (zero false).isNaN = false by decide]
  split
  · rename_i hfits
    exact ⟨fun _ => hfits, fun _ => Nat.le_refl 1⟩
  · rename_i hover
    split
    · exact ⟨fun hle => absurd hle (Nat.not_le.mpr hmax), fun hfits => absurd hfits hover⟩
    · rename_i hpos
      have hmore := one_lt_ceilWithin_div hbudget (Int.not_le.mp hpos) (Int.not_le.mp hover)
      exact ⟨fun hle => absurd hle (Nat.not_le.mpr hmore), fun hfits => absurd hfits hover⟩

theorem slicesWithin_le {n : Nat} (hused : Exact used) (hn : Exact n) (hnpos : 0 < n)
    (hpos : (zero false).lt budget = true)
    (h : ((used * unitsPerOne : Nat) : Int) ≤ n * budget.signedUnits) :
    slicesWithin budget (.ofNat used) ≤ n := by
  obtain ⟨-, hnan, hsigned⟩ := lt_iff.mp hpos
  rw [signedUnits_zero] at hsigned
  rw [slicesWithin]
  split
  · exact hnpos
  · rename_i hover
    rw [le_iff, isNaN_ofNat, hnan] at hover
    have hinfinite : budget.isInfinite = false := by
      apply isInfinite_of_lt_ofNat (isNegative_of_signedUnits_pos hsigned)
      exact Int.not_le.mp fun hfits => hover ⟨rfl, rfl, hfits⟩
    rw [if_neg ?_]
    · exact ceilWithin_div_le hused hn hnan hsigned hinfinite h
    · rw [le_iff, signedUnits_zero]
      rintro ⟨-, -, hle⟩
      omega

/-- Twice the limit is more than one slice may use. -/
theorem one_lt_slicesWithin {limit used : Nat} {fraction : Binary64} (hlimit : limit < twoTo 32)
    (hpos : (zero false).lt fraction = true) (hle : fraction.le .one = true)
    (hused : twoTo 33 ≤ used) : 1 < slicesWithin (.ofNat limit * fraction) (.ofNat used) := by
  have hbudget : IsBelow (32 + 1074) (.ofNat limit * fraction) :=
    isBelow_mul (by omega) (isBelow_ofNat (by omega) (Nat.le_of_lt hlimit))
      (isPart_of_lt_of_le hpos hle)
  have hunits : (twoTo (32 + 1074 + 1) : Int) ≤ (ofNat used).signedUnits := by
    refine le_signedUnits_round Nat.one_pos (by omega) ?_
    rw [Nat.mul_one, twoTo_add (32 + 1074) 1, ← twoTo_mul_unitsPerOne, Nat.mul_right_comm,
      ← twoTo_add]
    exact Nat.mul_le_mul_right _ hused
  generalize (Binary64.ofNat limit * fraction) = budget at hbudget
  generalize 32 + 1074 = k at hbudget hunits
  refine Nat.not_le.mp fun hone => ?_
  have hfits := (slicesWithin_le_one_iff hbudget.isNaN).mp hone
  rw [signedUnits_eq_units hbudget.isNegative hbudget.isInfinite] at hfits
  have hbound := hbudget.units_le
  have hpos := twoTo_pos k
  rw [twoTo_succ] at hunits
  omega

end Manycore.Constraint
