import Mathlib.Algebra.Group.Nat.Defs
import Mathlib.Algebra.GroupWithZero.Nat
import Mathlib.Algebra.Ring.Int.Defs

/-!
# Arithmetic on words that does not wrap

The operations on 64-bit words that fail if their result is not that of unbounded integers. A
computation with these operations in place of the usual ones succeeds just if none of its
operations wraps around.
-/

namespace CheckedWord

/-- The sum, if it is below 2⁶⁴. -/
def add (a b : UInt64) : Option UInt64 :=
  if a.toNat + b.toNat < 2 ^ 64 then some (a + b) else none

/-- The difference, if it is not negative. -/
def sub (a b : UInt64) : Option UInt64 := if b ≤ a then some (a - b) else none

/-- The product, if it is below 2⁶⁴. -/
def mul (a b : UInt64) : Option UInt64 :=
  if a.toNat * b.toNat < 2 ^ 64 then some (a * b) else none

/-- The difference of 32-bit words, if it is not negative. -/
def sub32 (a b : UInt32) : Option UInt32 := if b ≤ a then some (a - b) else none

variable {a b c : UInt64}

/-- What does not stop is the sum of words. -/
theorem eq_add (h : add a b = some c) : a + b = c := by
  rw [add] at h
  split at h
  · exact Option.some.inj h
  · cases h

theorem eq_sub (h : sub a b = some c) : a - b = c := by
  rw [sub] at h
  split at h
  · exact Option.some.inj h
  · cases h

theorem eq_mul (h : mul a b = some c) : a * b = c := by
  rw [mul] at h
  split at h
  · exact Option.some.inj h
  · cases h

/-- A sum that fits does not stop. -/
theorem exists_add (h : a.toNat + b.toNat < 2 ^ 64) :
    ∃ c, add a b = some c ∧ c.toNat = a.toNat + b.toNat := by
  refine ⟨a + b, if_pos h, ?_⟩
  rw [UInt64.toNat_add, Nat.mod_eq_of_lt h]

/-- Nor a difference that is not negative. -/
theorem exists_sub (h : b.toNat ≤ a.toNat) :
    ∃ c, sub a b = some c ∧ c.toNat = a.toNat - b.toNat := by
  have hle : b ≤ a := UInt64.le_iff_toNat_le.mpr h
  exact ⟨a - b, if_pos hle, UInt64.toNat_sub_of_le _ _ hle⟩

/-- Nor a product that fits. -/
theorem exists_mul (h : a.toNat * b.toNat < 2 ^ 64) :
    ∃ c, mul a b = some c ∧ c.toNat = a.toNat * b.toNat := by
  refine ⟨a * b, if_pos h, ?_⟩
  rw [UInt64.toNat_mul, Nat.mod_eq_of_lt h]

theorem sub32_of_le {a b : UInt32} (h : b ≤ a) : sub32 a b = some (a - b) := if_pos h

theorem sub_eq_none (h : a.toNat < b.toNat) : sub a b = none :=
  if_neg (UInt64.not_le.mpr (UInt64.lt_iff_toNat_lt.mpr h))

/-- A product that does not fit stops. -/
theorem mul_eq_none (h : 2 ^ 64 ≤ a.toNat * b.toNat) : mul a b = none :=
  if_neg (Nat.not_lt.mpr h)

/-! ## Signed words -/

section

variable {a b : Int64}

theorem toInt_add_of_lt (hnonneg : 0 ≤ a.toInt + b.toInt) (hlt : a.toInt + b.toInt < 2 ^ 63) :
    (a + b).toInt = a.toInt + b.toInt := by
  rw [Int64.toInt_add]
  exact Int.bmod_eq_of_le (by omega) (by omega)

theorem toInt_mul_of_lt (hnonneg : 0 ≤ a.toInt * b.toInt) (hlt : a.toInt * b.toInt < 2 ^ 63) :
    (a * b).toInt = a.toInt * b.toInt := by
  rw [Int64.toInt_mul]
  exact Int.bmod_eq_of_le (by omega) (by omega)

/-- The quotient of a number that is not negative does not wrap. -/
theorem toInt_div_of_nonneg (hnonneg : 0 ≤ a.toInt) : (a / b).toInt = a.toInt.tdiv b.toInt := by
  refine Int64.toInt_div_of_ne_left a b ?_
  rintro rfl
  exact absurd hnonneg (by decide)

end

end CheckedWord
