import Mathlib
import LambdaReader.Node.Equality

/-!
# `Proofs.Floats` — equal numbers

Two numbers are equal if they are one number or the two zeros, and a missing number is equal to none
(`Float.beq_iff_ne_nan_and_eq`); a number can be told from its bits (`Float.toBits_inj`). Both facts are the
library's, but no single file of it leads to them, so this module imports all of it, as no other does. What
is said of numbers by value and of their text builds on this module.

## Main results
- `beq_iff_unsigned`: a number equal to one that is not missing;
- `Node.numberHash_eq`: equal numbers have one hash.
-/

namespace LambdaReader

variable {x y : Float}

/-- The number with zero unsigned. -/
def unsigned (x : Float) : Float := if x == 0 then 0 else x

theorem unsigned_of_beq_zero (h : (x == 0) = true) : unsigned x = 0 := if_pos h

theorem unsigned_of_not_beq_zero (h : ¬ (x == 0) = true) : unsigned x = x := if_neg h

theorem unsigned_zero : unsigned 0 = unsigned (-0) := by decide +kernel

/-- Equal numbers are one number but for the sign of zero. -/
theorem unsigned_eq_of_beq (h : (x == y) = true) : unsigned x = unsigned y := by
  obtain ⟨-, -, rfl | ⟨rfl, rfl⟩ | ⟨rfl, rfl⟩⟩ := Float.beq_iff_ne_nan_and_eq.mp h
  · rfl
  · exact unsigned_zero
  · exact unsigned_zero.symm

/-- A number is equal to one that is not missing if they are one number but for the sign of zero. -/
theorem beq_iff_unsigned (hy : y.isNaN = false) : (x == y) = true ↔ unsigned x = unsigned y := by
  refine ⟨unsigned_eq_of_beq, fun h => ?_⟩
  have hself : (y == y) = true := by simpa using hy
  by_cases hx0 : (x == 0) = true
  · rw [unsigned_of_beq_zero hx0] at h
    by_cases hy0 : (y == 0) = true
    · exact BEq.trans hx0 (BEq.symm hy0)
    · rw [unsigned_of_not_beq_zero hy0] at h
      exact absurd (h ▸ hself) hy0
  · rw [unsigned_of_not_beq_zero hx0] at h
    by_cases hy0 : (y == 0) = true
    · rw [unsigned_of_beq_zero hy0] at h
      exact absurd (h ▸ (by decide +kernel : ((0 : Float) == 0) = true)) hx0
    · rw [unsigned_of_not_beq_zero hy0] at h
      rwa [h]

namespace Node

theorem numberHash_unsigned (x : Float) : numberHash (unsigned x) = numberHash x := by
  by_cases hx : (x == 0) = true
  · rw [unsigned_of_beq_zero hx, numberHash, numberHash, if_pos hx]
    exact if_pos (by decide +kernel)
  · rw [unsigned_of_not_beq_zero hx]

/-- The hash of a number does not tell the signs of zero apart. -/
theorem numberHash_eq (h : (x == y) = true) : numberHash x = numberHash y := by
  rw [← numberHash_unsigned x, unsigned_eq_of_beq h, numberHash_unsigned]

end Node
end LambdaReader
