import Mathlib

/-!
# Whole numbers in floating point

The numbers of up to 64 bits as `float64` has them: with 53 bits, rounded to the nearest one, and in
the middle to the even one. A difference of whole numbers is whole, so no fractions are needed.
-/

namespace Binary64

/-- A number rounded to 53 bits. -/
def round (n : ℕ) : ℕ :=
  let shift := n.log2 - 52
  let rest := 2 * (n % 2 ^ shift)
  if rest < 2 ^ shift ∨ rest = 2 ^ shift ∧ (n >>> shift) % 2 = 0 then (n >>> shift) * 2 ^ shift
  else (n >>> shift + 1) * 2 ^ shift

/-- The absolute value of a difference; its rounding does not depend on the sign. -/
def absSub (a b : ℕ) : ℕ :=
  round (Nat.dist a b)

/-- The conversion to a word. The language leaves open what it gives for a number that is too
large. -/
def toUInt64 (overflow : UInt64) (n : ℕ) : UInt64 :=
  if n < 2 ^ 64 then UInt64.ofNat n else overflow

/-- Numbers of 53 bits are not rounded. -/
theorem round_of_lt {n : ℕ} (h : n < 2 ^ 53) : round n = n := by
  have hshift : n.log2 - 52 = 0 := by
    rcases Nat.eq_zero_or_pos n with rfl | hpos
    · rfl
    · have := (Nat.log2_lt hpos.ne').mpr h
      omega
  simp [round, hshift, Nat.mod_one]

/-- Nor are their differences. -/
theorem absSub_of_lt {a b : ℕ} (ha : a < 2 ^ 53) (hb : b < 2 ^ 53) : absSub a b = Nat.dist a b := by
  refine round_of_lt ?_
  rw [Nat.dist]
  omega

/-- A number that fits is kept. -/
theorem toNat_toUInt64 {overflow : UInt64} {n : ℕ} (h : n < 2 ^ 64) :
    (toUInt64 overflow n).toNat = n := by
  rw [toUInt64, if_pos h]
  exact UInt64.toNat_ofNat_of_lt h

end Binary64
