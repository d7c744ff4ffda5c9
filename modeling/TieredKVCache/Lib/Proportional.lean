import Mathlib.Algebra.BigOperators.Group.List.Basic
import Mathlib.Algebra.BigOperators.Ring.Finset
import Mathlib.Algebra.Order.BigOperators.Group.List
import Mathlib.Algebra.Order.Floor.Semiring
import Mathlib.Algebra.Order.Field.Basic

/-!
# Proportional shares, rounded down

`portion amount w total` is the part of an amount that a weight has in a total weight,
rounded down. The portions of a list of weights add up to at most the amount, and what
rounding leaves over is less than one for each weight: where every portion is zero, the amount
is smaller than the number of weights.
-/

namespace TieredKVCache.Lib

variable {K α : Type}

/-- The exact parts add up to the amount. -/
theorem sum_parts [Field K] (amount : Nat) (l : List α) (w : α → K) (htotal : (l.map w).sum ≠ 0) :
    (l.map fun a => (amount : K) * w a / (l.map w).sum).sum = amount := by
  have hfactor (total : K) : (l.map fun a => (amount : K) * w a / total).sum =
      amount * (l.map w).sum / total := by
    clear htotal
    induction l with
    | nil => simp
    | cons a l ih => simp only [List.map_cons, List.sum_cons, ih, mul_add, add_div]
  rw [hfactor, mul_div_assoc, div_self htotal, mul_one]

variable [Field K] [LinearOrder K] [IsStrictOrderedRing K] [FloorSemiring K]

/-- The part of the amount for a weight, rounded down. -/
def portion (amount : Nat) (w total : K) : Nat := ⌊(amount : K) * w / total⌋₊

theorem portion_mono {amount : Nat} {w w' total : K} (hw : w ≤ w') (htotal : 0 ≤ total) :
    portion amount w total ≤ portion amount w' total := by
  apply Nat.floor_le_floor
  apply div_le_div_of_nonneg_right _ htotal
  exact mul_le_mul_of_nonneg_left hw (Nat.cast_nonneg amount)

@[simp]
theorem portion_zero (w total : K) : portion 0 w total = 0 := by
  simp [portion]

theorem sum_portion_le (amount : Nat) (l : List α) (w : α → K) (hw : ∀ a ∈ l, 0 ≤ w a) :
    (l.map fun a => portion amount (w a) (l.map w).sum).sum ≤ amount := by
  have htotal : 0 ≤ (l.map w).sum := List.sum_nonneg (by simpa using hw)
  rcases htotal.eq_or_lt with hzero | hpos
  · simp [portion, ← hzero]
  · have hfloor : ∀ a ∈ l, (portion amount (w a) (l.map w).sum : K) ≤
        amount * w a / (l.map w).sum := by
      intro a ha
      apply Nat.floor_le
      exact div_nonneg (mul_nonneg (Nat.cast_nonneg amount) (hw a ha)) htotal
    have hsum := List.sum_le_sum hfloor
    rw [sum_parts amount l w hpos.ne'] at hsum
    rw [← Nat.cast_le (α := K), Nat.cast_list_sum, List.map_map]
    exact hsum

theorem amount_lt_length (amount : Nat) (l : List α) (w : α → K) (hl : l ≠ [])
    (htotal : 0 < (l.map w).sum)
    (hzero : ∀ a ∈ l, portion amount (w a) (l.map w).sum = 0) : amount < l.length := by
  have hlt : ∀ a ∈ l, (amount : K) * w a / (l.map w).sum < 1 := by
    intro a ha
    exact Nat.floor_eq_zero.mp (hzero a ha)
  have hsum := List.sum_lt_sum_of_ne_nil hl _ _ hlt
  rw [sum_parts amount l w htotal.ne'] at hsum
  rw [← Nat.cast_lt (α := K)]
  simpa using hsum

end TieredKVCache.Lib
