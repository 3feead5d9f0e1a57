import Manycore.Config.Problem

/-! # Accepted configurations

What it means for a configuration that no check of it finds a problem.
-/

namespace Manycore.Config

/-- All that is checked of a configuration. -/
structure Accepted (c : Config) : Prop where
  width_pos : 0 < c.keys.width.toNat
  width_le : c.keys.width.toNat ≤ 64
  reserved_lt : c.keys.subvertexBits.toNat + c.keys.dimensionBits.toNat < c.keys.width.toNat
  budgets : ∀ b : Budget, b.of c.machine ≠ 0
  fraction_pos : (Binary64.zero false).lt c.machine.usageFraction = true
  fraction_le : c.machine.usageFraction.le .one = true
  memory_lt : c.machine.sdramBase.toNat + c.machine.sdramPerNode.toNat < wordRange
  fixedBits_pos : 0 < c.fixed.bits.toNat
  fixedBits_le : c.fixed.bits.toNat ≤ 32
  fixedFraction_ge : -32 ≤ c.fixed.fraction
  fixedFraction_le : c.fixed.fraction ≤ 32
  directory : c.output.directory ≠ ""

theorem problemIf_eq_nil_iff {there : Bool} {p : Problem} : problemIf there p = [] ↔ there = false := by
  cases there <;> simp [problemIf]

theorem validate_eq_ok_iff_problems {c : Config} : c.validate = .ok () ↔ c.problems = [] := by
  unfold validate
  cases c.problems <;> simp

theorem validate_of_isEmpty {c : Config} (h : c.problems.isEmpty = true) : c.validate = .ok () :=
  validate_eq_ok_iff_problems.mpr (List.isEmpty_iff.mp h)

theorem reservedBits_lt_iff {k : Keys} (hwidth : k.width.toNat ≤ 64) :
    reservedBits k < k.width.toNat ↔
      k.subvertexBits.toNat + k.dimensionBits.toNat < k.width.toNat := by
  have hrange : wordRange = 4294967296 := rfl
  rw [reservedBits, hrange]
  omega

theorem widthProblem_iff {n : UInt32} {most : UInt32} :
    (n == 0 || decide (most < n)) = false ↔ 0 < n.toNat ∧ n.toNat ≤ most.toNat := by
  simp only [Bool.or_eq_false_iff, beq_eq_false_iff_ne, decide_eq_false_iff_not, UInt32.lt_iff_toNat_lt,
    Nat.not_lt, ne_eq, ← UInt32.toNat_inj, Nat.pos_iff_ne_zero]
  rfl

/-- A configuration is accepted when everything that is checked holds. -/
theorem validate_eq_ok_iff {c : Config} : c.validate = .ok () ↔ c.Accepted := by
  rw [validate_eq_ok_iff_problems]
  simp only [problems, List.append_eq_nil_iff, problemIf_eq_nil_iff, List.flatMap_eq_nil_iff,
    widthProblem_iff, decide_eq_false_iff_not, Nat.not_le, Bool.not_eq_false', Bool.and_eq_true,
    decide_eq_true_eq, beq_eq_false_iff_ne]
  constructor
  · intro h
    obtain ⟨⟨⟨⟨⟨⟨⟨hwidth, hreserved⟩, hbudgets⟩, hfraction⟩, hmemory⟩, hbits⟩, hfixed⟩, hdirectory⟩ := h
    exact {
      width_pos := hwidth.1
      width_le := hwidth.2
      reserved_lt := (reservedBits_lt_iff hwidth.2).mp hreserved
      budgets := fun b => hbudgets b (by cases b <;> simp)
      fraction_pos := hfraction.1
      fraction_le := hfraction.2
      memory_lt := hmemory
      fixedBits_pos := hbits.1
      fixedBits_le := hbits.2
      fixedFraction_ge := hfixed.1
      fixedFraction_le := hfixed.2
      directory := hdirectory }
  · intro h
    exact ⟨⟨⟨⟨⟨⟨⟨⟨h.width_pos, h.width_le⟩, (reservedBits_lt_iff h.width_le).mpr h.reserved_lt⟩,
      fun b _ => h.budgets b⟩, h.fraction_pos, h.fraction_le⟩, h.memory_lt⟩,
      h.fixedBits_pos, h.fixedBits_le⟩, h.fixedFraction_ge, h.fixedFraction_le⟩, h.directory⟩

end Manycore.Config
