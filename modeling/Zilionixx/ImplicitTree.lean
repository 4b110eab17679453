import Mathlib.Algebra.BigOperators.Intervals
import Mathlib.Algebra.GroupWithZero.Nat
import Mathlib.Algebra.Order.BigOperators.Group.Finset

/-!
# Sums over an implicit binary tree

The indexes below `n` are the nodes of a binary tree: the children of `i` are `2 * i + 1` and
`2 * i + 2`. Each node has a value, and its total is the sum of the values of its subtree
(`Totals`). The total of the root is the sum of all the values (`Totals.root`), and no total
exceeds it (`Totals.le_root`). When a value is cleared, it is taken off the totals above it
(`subtotal_clear`) and off no other (`subtotal_clear_of_not`).
-/

namespace ImplicitTree

/-- The indexes of a subtree. -/
inductive InSubtree (root : ℕ) : ℕ → Prop where
  | refl : InSubtree root root
  | left {k : ℕ} : InSubtree root k → InSubtree root (2 * k + 1)
  | right {k : ℕ} : InSubtree root k → InSubtree root (2 * k + 2)

namespace InSubtree

/-- An index other than 0 is a child. -/
theorem exists_parent {k : ℕ} (h : k ≠ 0) : ∃ p < k, k = 2 * p + 1 ∨ k = 2 * p + 2 :=
  ⟨(k - 1) / 2, by omega, by omega⟩

theorem of_zero (k : ℕ) : InSubtree 0 k := by
  induction k using Nat.strongRecOn with
  | ind k ih =>
    rcases eq_or_ne k 0 with rfl | hk
    · exact .refl
    · obtain ⟨p, hp, rfl | rfl⟩ := exists_parent hk
      · exact (ih p hp).left
      · exact (ih p hp).right

/-- A subtree is its root with two subtrees. -/
theorem split {i k : ℕ} (h : InSubtree i k) :
    k = i ∨ InSubtree (2 * i + 1) k ∨ InSubtree (2 * i + 2) k := by
  induction h with
  | refl => exact .inl rfl
  | left _ ih =>
    rcases ih with rfl | h | h
    · exact .inr (.inl .refl)
    · exact .inr (.inl h.left)
    · exact .inr (.inr h.left)
  | right _ ih =>
    rcases ih with rfl | h | h
    · exact .inr (.inr .refl)
    · exact .inr (.inl h.right)
    · exact .inr (.inr h.right)

theorem le {i k : ℕ} (h : InSubtree i k) : i ≤ k := by
  induction h with
  | refl => exact Nat.le_refl _
  | left _ ih => omega
  | right _ ih => omega

theorem trans {i j k : ℕ} (h : InSubtree i j) (h' : InSubtree j k) : InSubtree i k := by
  induction h' with
  | refl => exact h
  | left _ ih => exact ih.left
  | right _ ih => exact ih.right

theorem leftChild (i : ℕ) : InSubtree i (2 * i + 1) := InSubtree.refl.left

theorem rightChild (i : ℕ) : InSubtree i (2 * i + 2) := InSubtree.refl.right

/-- What is below the root is in the subtree through its parent. -/
theorem parent {i j k : ℕ} (h : InSubtree i k) (hne : k ≠ i) (hk : k = 2 * j + 1 ∨ k = 2 * j + 2) :
    InSubtree i j := by
  cases h with
  | refl => exact absurd rfl hne
  | @left p h =>
    obtain rfl : j = p := by omega
    exact h
  | @right p h =>
    obtain rfl : j = p := by omega
    exact h

/-- The subtrees of the children are disjoint. -/
theorem disjoint {i k : ℕ} (h : InSubtree (2 * i + 1) k) : ¬InSubtree (2 * i + 2) k := by
  induction h with
  | refl =>
    intro h'
    have := h'.le
    omega
  | @left k h ih => exact fun h' => ih (h'.parent (by omega) (.inl rfl))
  | @right k h ih =>
    intro h'
    have := h.le
    exact ih (h'.parent (by omega) (.inr rfl))

end InSubtree

/-- The totals of values. -/
structure Totals (n : ℕ) (value total : ℕ → ℕ) : Prop where
  node : ∀ i < n, total i = value i + total (2 * i + 1) + total (2 * i + 2)
  outside : ∀ i, n ≤ i → total i = 0

namespace Totals

variable {n : ℕ} {value total : ℕ → ℕ} (h : Totals n value total)

include h

theorem sum_Ico_of_le {a : ℕ} (hle : n ≤ a) :
    ∑ i ∈ Finset.Ico a (2 * a + 1), total i = ∑ j ∈ Finset.Ico a n, value j := by
  rw [Finset.Ico_eq_empty_of_le hle, Finset.sum_empty]
  refine Finset.sum_eq_zero fun i hi => h.outside i ?_
  exact hle.trans (Finset.mem_Ico.mp hi).1

/-- The subtrees at `a`, …, `2 * a` are disjoint and have all the indexes from `a` on. -/
theorem sum_Ico (d a : ℕ) (ha : n ≤ a + d) :
    ∑ i ∈ Finset.Ico a (2 * a + 1), total i = ∑ j ∈ Finset.Ico a n, value j := by
  induction d generalizing a with
  | zero => exact h.sum_Ico_of_le ha
  | succ d ih =>
    rcases Nat.lt_or_ge a n with hlt | hle
    · -- replace the subtree at `a` by its value and its two subtrees
      have hnext := ih (a + 1) (by omega)
      have hupper : 2 * (a + 1) + 1 = 2 * a + 1 + 1 + 1 := by omega
      rw [hupper, Finset.sum_Ico_succ_top (by omega), Finset.sum_Ico_succ_top (by omega)] at hnext
      rw [Finset.sum_eq_sum_Ico_succ_bot (by omega), Finset.sum_eq_sum_Ico_succ_bot hlt, ← hnext,
        h.node a hlt]
      omega
    · exact h.sum_Ico_of_le hle

/-- The root has the total. -/
theorem root : total 0 = ∑ i ∈ Finset.range n, value i := by
  have hsum := h.sum_Ico n 0 (by omega)
  rwa [Finset.sum_eq_sum_Ico_succ_bot (by omega), Finset.Ico_self, Finset.sum_empty, Nat.add_zero,
    ← Finset.range_eq_Ico] at hsum

theorem le_parent {p k : ℕ} (hk : k = 2 * p + 1 ∨ k = 2 * p + 2) : total k ≤ total p := by
  rcases Nat.lt_or_ge p n with hlt | hle
  · rw [h.node p hlt]
    rcases hk with rfl | rfl <;> omega
  · rw [h.outside k (by omega)]
    exact Nat.zero_le _

theorem le_root (k : ℕ) : total k ≤ total 0 := by
  induction k using Nat.strongRecOn with
  | ind k ih =>
    rcases eq_or_ne k 0 with rfl | hk
    · exact Nat.le_refl _
    · obtain ⟨p, hp, hchild⟩ := InSubtree.exists_parent hk
      exact (h.le_parent hchild).trans (ih p hp)

theorem value_le {k : ℕ} (hk : k < n) : value k ≤ total k := by
  rw [h.node k hk]
  omega

theorem lt_of_pos {k : ℕ} (hk : 0 < total k) : k < n := by
  by_contra hout
  rw [h.outside k (Nat.not_lt.mp hout)] at hk
  exact Nat.lt_irrefl 0 hk

end Totals

/-- The total of a subtree, computed from the values. -/
def subtotal (n : ℕ) (value : ℕ → ℕ) (i : ℕ) : ℕ :=
  if i < n then value i + subtotal n value (2 * i + 1) + subtotal n value (2 * i + 2) else 0
termination_by n - i

theorem totals_subtotal (n : ℕ) (value : ℕ → ℕ) : Totals n value (subtotal n value) where
  node i hi := by
    rw [subtotal, if_pos hi]
  outside i hi := by
    rw [subtotal, if_neg (Nat.not_lt.mpr hi)]

/-- The total depends on the values of the subtree. -/
theorem subtotal_congr {n : ℕ} {f g : ℕ → ℕ} (i : ℕ) (h : ∀ k, InSubtree i k → f k = g k) :
    subtotal n f i = subtotal n g i := by
  -- on the way down, the index grows
  induction hd : n - i using Nat.strongRecOn generalizing i with
  | ind d ih =>
    rcases Nat.lt_or_ge i n with hi | hi
    · rw [(totals_subtotal n f).node i hi, (totals_subtotal n g).node i hi, h i .refl,
        ih _ (by omega) (2 * i + 1) (fun k hk => h k ((InSubtree.leftChild i).trans hk)) rfl,
        ih _ (by omega) (2 * i + 2) (fun k hk => h k ((InSubtree.rightChild i).trans hk)) rfl]
    · rw [(totals_subtotal n f).outside i hi, (totals_subtotal n g).outside i hi]

theorem subtotal_clear_of_not {n c i : ℕ} (f : ℕ → ℕ) (h : ¬InSubtree i c) :
    subtotal n (Function.update f c 0) i = subtotal n f i := by
  refine subtotal_congr i fun k hk => Function.update_of_ne ?_ _ _
  rintro rfl
  exact h hk

/-- Clearing a value takes it off above it. -/
theorem subtotal_clear {n c i : ℕ} (f : ℕ → ℕ) (hc : c < n) (h : InSubtree i c) :
    subtotal n (Function.update f c 0) i + f c = subtotal n f i := by
  induction hd : n - i using Nat.strongRecOn generalizing i with
  | ind d ih =>
    have hle := h.le
    have hi : i < n := hle.trans_lt hc
    rw [(totals_subtotal n _).node i hi, (totals_subtotal n f).node i hi]
    rcases h.split with rfl | hleft | hright
    · have houtside : ∀ j, c < j → ¬InSubtree j c := fun j hj h => absurd h.le (by omega)
      rw [subtotal_clear_of_not f (houtside _ (by omega)),
        subtotal_clear_of_not f (houtside _ (by omega)), Function.update_self]
      omega
    · have hbelow := hleft.le
      rw [← ih _ (by omega) hleft rfl, subtotal_clear_of_not f hleft.disjoint,
        Function.update_of_ne (by omega)]
      omega
    · have hbelow := hright.le
      rw [← ih _ (by omega) hright rfl,
        subtotal_clear_of_not f fun hleft => hleft.disjoint hright,
        Function.update_of_ne (by omega)]
      omega

end ImplicitTree
