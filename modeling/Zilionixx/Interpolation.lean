import Mathlib.Data.Nat.Basic
import Mathlib.Algebra.Order.Group.Nat
import Mathlib.Tactic.Ring

/-!
# Linear interpolation in integers

Between two points the value is the mean of theirs, weighted by how far from them it is; the
weights are fractions of a unit, rounded down, and so are the two summands.
-/

namespace Interpolation

variable {unit x₀ y₀ x₁ y₁ x : ℕ}

/-- How far from the first point to the second one, in units. -/
def ratio (unit x₀ x₁ x : ℕ) : ℕ := (x - x₀) * unit / (x₁ - x₀)

/-- The mean, with the second value weighted by a ratio. -/
def mean (unit y₀ y₁ r : ℕ) : ℕ := y₀ * (unit - r) / unit + y₁ * r / unit

/-- The value at `x`. -/
def value (unit x₀ y₀ x₁ y₁ x : ℕ) : ℕ := mean unit y₀ y₁ (ratio unit x₀ x₁ x)

theorem ratio_le (hlt : x₀ < x₁) (hle : x ≤ x₁) : ratio unit x₀ x₁ x ≤ unit := by
  rw [ratio]
  calc (x - x₀) * unit / (x₁ - x₀)
      ≤ (x₁ - x₀) * unit / (x₁ - x₀) :=
        Nat.div_le_div_right (Nat.mul_le_mul_right unit (Nat.sub_le_sub_right hle x₀))
    _ = unit := Nat.mul_div_cancel_left unit (Nat.sub_pos_of_lt hlt)

/-- The value at the first point. -/
theorem value_left (hunit : 0 < unit) : value unit x₀ y₀ x₁ y₁ x₀ = y₀ := by
  rw [value, ratio, Nat.sub_self, Nat.zero_mul, Nat.zero_div, mean, Nat.sub_zero, Nat.mul_zero,
    Nat.zero_div, Nat.add_zero, Nat.mul_div_cancel _ hunit]

/-- The value at the second point. -/
theorem value_right (hunit : 0 < unit) (hlt : x₀ < x₁) : value unit x₀ y₀ x₁ y₁ x₁ = y₁ := by
  have hratio : ratio unit x₀ x₁ x₁ = unit :=
    Nat.mul_div_cancel_left unit (Nat.sub_pos_of_lt hlt)
  rw [value, hratio, mean, Nat.sub_self, Nat.mul_zero, Nat.zero_div, Nat.zero_add,
    Nat.mul_div_cancel _ hunit]

theorem mean_le {bound r : ℕ} (hunit : 0 < unit) (hr : r ≤ unit) (h₀ : y₀ ≤ bound)
    (h₁ : y₁ ≤ bound) : mean unit y₀ y₁ r ≤ bound := by
  rw [mean]
  calc y₀ * (unit - r) / unit + y₁ * r / unit
      ≤ (y₀ * (unit - r) + y₁ * r) / unit := Nat.div_add_div_le_add_div
    _ ≤ (bound * (unit - r) + bound * r) / unit :=
        Nat.div_le_div_right
          (Nat.add_le_add (Nat.mul_le_mul_right _ h₀) (Nat.mul_le_mul_right _ h₁))
    _ = bound := by
        rw [← Nat.mul_add, Nat.sub_add_cancel hr, Nat.mul_div_cancel _ hunit]

/-- Rounding down twice loses at most one. -/
theorem le_mean_add_one {bound r : ℕ} (hunit : 0 < unit) (hr : r ≤ unit) (h₀ : bound ≤ y₀)
    (h₁ : bound ≤ y₁) : bound ≤ mean unit y₀ y₁ r + 1 := by
  calc bound
      = (bound * (unit - r) + bound * r) / unit := by
        rw [← Nat.mul_add, Nat.sub_add_cancel hr, Nat.mul_div_cancel _ hunit]
    _ ≤ (y₀ * (unit - r) + y₁ * r) / unit :=
        Nat.div_le_div_right
          (Nat.add_le_add (Nat.mul_le_mul_right _ h₀) (Nat.mul_le_mul_right _ h₁))
    _ ≤ y₀ * (unit - r) / unit + y₁ * r / unit + 1 := by
        rw [Nat.add_div hunit]
        split
        · exact Nat.le_refl _
        · exact Nat.le_succ _

/-- Two values of a unit or more have such a mean. -/
theorem unit_le_mean {r : ℕ} (hunit : 0 < unit) (hr : r ≤ unit) (h₀ : unit ≤ y₀) (h₁ : unit ≤ y₁) :
    unit ≤ mean unit y₀ y₁ r := by
  have hleft : unit - r ≤ y₀ * (unit - r) / unit := by
    rw [Nat.le_div_iff_mul_le hunit, Nat.mul_comm]
    exact Nat.mul_le_mul_right _ h₀
  have hright : r ≤ y₁ * r / unit := by
    rw [Nat.le_div_iff_mul_le hunit, Nat.mul_comm]
    exact Nat.mul_le_mul_right _ h₁
  rw [mean]
  omega

end Interpolation
