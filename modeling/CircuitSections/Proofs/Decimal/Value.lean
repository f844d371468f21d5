import CircuitSections.Proofs.Decimal.Exact
import Mathlib.Algebra.Order.Field.Rat
import Mathlib.Order.Monotone.Basic
import Mathlib.Tactic.Linarith
import Mathlib.Tactic.Positivity

/-!
# Multipliers above zero

The number that a multiplier denotes, and how its bits tell whether that is
above zero.
-/

namespace CircuitSections

theorem Binary64.units_pos {n : Nat} (positive : 0 < n) : 0 < units n := by
  have grows : StrictMono units := strictMono_nat_of_lt_succ units_lt_succ
  exact Nat.lt_of_le_of_lt (Nat.zero_le (units 0)) (grows positive)

namespace Multiplier

/-- The number that a finite multiplier denotes. -/
def value? (m : Multiplier) : Option ℚ :=
  if m.isFinite then
    some
      ((if m.negative then -1 else 1) *
        (Binary64.units m.magnitude / 2 ^ Binary64.unitExponent))
  else none

/-- The multiplier denotes a number above zero. -/
def Positive (m : Multiplier) : Prop :=
  ∃ value, m.value? = some value ∧ 0 < value

theorem positive_iff {m : Multiplier} :
    m.Positive ↔ m.isFinite = true ∧ m.negative = false ∧ 0 < m.magnitude := by
  unfold Positive value?
  have whole : (0 : ℚ) ≤ Binary64.units m.magnitude /
      2 ^ Binary64.unitExponent := by positivity
  constructor
  · intro positive
    obtain ⟨value, denoted, above⟩ := positive
    split at denoted
    next finite =>
      cases denoted
      refine ⟨finite, ?_, ?_⟩
      · apply Bool.eq_false_iff.mpr
        intro negative
        rw [if_pos negative] at above
        linarith
      · apply Nat.pos_of_ne_zero
        intro zero
        rw [zero] at above
        have none : Binary64.units 0 = 0 := rfl
        simp [none] at above
    next => cases denoted
  · intro holds
    obtain ⟨finite, unsigned, above⟩ := holds
    have units : (0 : ℚ) < Binary64.units m.magnitude :=
      Nat.cast_pos.mpr (Binary64.units_pos above)
    refine ⟨_, if_pos finite, ?_⟩
    rw [unsigned, if_neg Bool.false_ne_true]
    positivity

theorem positive_iff_rank {m : Multiplier} : m.Positive ↔ m.isFinite = true ∧
    0 < m.rank := by
  rw [positive_iff]
  refine and_congr_right fun finite => ?_
  have number : m.isNaN = false := by
    have below : m.magnitude < Binary64.infinity := of_decide_eq_true finite
    simp only [isNaN, decide_eq_false_iff_not]
    omega
  rw [rank, number]
  cases sign : m.negative <;> simp

theorem not_positive {m : Multiplier}
    (improper : m.isNaN = true ∨ m.magnitude = Binary64.infinity ∨
      m.magnitude = 0 ∨
      m.negative = true) : ¬ m.Positive := by
  intro positive
  obtain ⟨finite, unsigned, above⟩ := positive_iff.mp positive
  have below : m.magnitude < Binary64.infinity := of_decide_eq_true finite
  rcases improper with none | infinite | zero | negative
  · have beyond : Binary64.infinity < m.magnitude := of_decide_eq_true none
    omega
  · omega
  · omega
  · rw [negative] at unsigned
    cases unsigned

end Multiplier

end CircuitSections
