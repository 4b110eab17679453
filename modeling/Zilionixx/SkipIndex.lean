import Mathlib.Algebra.Group.Nat.Defs
import Mathlib.Data.List.Basic

/-!
# Elements that are skipped by their indexes

Of a list some elements are marked. Their indexes, as `uint32`, are recorded in
an increasing list, and dropping the elements at these indexes in one pass leaves
those that are not marked: as long as the indexes fit.
-/

namespace SkipIndex

variable {α : Type*} {marks : List Bool}

/-- The indexes of the marked elements, counted from `i`. -/
def indexes (i : ℕ) : List Bool → List UInt32
  | [] => []
  | true :: marks => UInt32.ofNat i :: indexes (i + 1) marks
  | false :: marks => indexes (i + 1) marks

/-- The elements without those at the indexes, in one pass: the first index is
compared with the index of each element until it is found. -/
def dropIndexes (i : ℕ) : List α → List UInt32 → List α
  | [], _ => []
  | xs, [] => xs
  | x :: xs, n :: ns =>
    if n = UInt32.ofNat i then dropIndexes (i + 1) xs ns
    else x :: dropIndexes (i + 1) xs (n :: ns)

/-- The elements that are not marked. -/
def unmarked : List α → List Bool → List α
  | x :: xs, mark :: marks => if mark then unmarked xs marks else x :: unmarked xs marks
  | _, _ => []

theorem indexes_append (i : ℕ) (marks marks' : List Bool) :
    indexes i (marks ++ marks') = indexes i marks ++ indexes (i + marks.length) marks' := by
  induction marks generalizing i with
  | nil => rfl
  | cons mark marks ih =>
    have hlength : i + (mark :: marks).length = i + 1 + marks.length := by
      rw [List.length_cons]
      omega
    cases mark with
    | true => rw [List.cons_append, indexes, ih, indexes, hlength, List.cons_append]
    | false => rw [List.cons_append, indexes, ih, indexes, hlength]

theorem indexes_replicate_false (i n : ℕ) : indexes i (List.replicate n false) = [] := by
  induction n generalizing i with
  | zero => rfl
  | succ n ih => exact ih (i + 1)

/-- Indexes that are counted from 0 can be shifted later. -/
theorem indexes_shift (i k : ℕ) (marks : List Bool) :
    (indexes i marks).map (· + UInt32.ofNat k) = indexes (i + k) marks := by
  induction marks generalizing i with
  | nil => rfl
  | cons mark marks ih =>
    have hnext : i + k + 1 = i + 1 + k := by omega
    cases mark with
    | true => rw [indexes, indexes, List.map_cons, ih, hnext, UInt32.ofNat_add]
    | false => rw [indexes, indexes, ih, hnext]

/-- The shift is left out if the offset is zero. -/
theorem indexes_offset (n : ℕ) (marks : List Bool) :
    (if UInt32.ofNat n > 0 then (indexes 0 marks).map (· + UInt32.ofNat n) else indexes 0 marks) =
      indexes n marks := by
  rw [← Nat.zero_add n, ← indexes_shift, Nat.zero_add]
  split
  · rfl
  · rename_i hzero
    have hzero : UInt32.ofNat n = 0 := UInt32.le_antisymm (UInt32.not_lt.mp hzero) UInt32.zero_le
    simp [hzero]

theorem mem_indexes {i : ℕ} {n : UInt32} :
    n ∈ indexes i marks ↔ ∃ j, marks[j]? = some true ∧ n = UInt32.ofNat (i + j) := by
  induction marks generalizing i with
  | nil => simp [indexes]
  | cons mark marks ih =>
    -- the element itself, or one of those behind it
    have hsplit : (∃ j, (mark :: marks)[j]? = some true ∧ n = UInt32.ofNat (i + j)) ↔
        (mark = true ∧ n = UInt32.ofNat i) ∨
          ∃ j, marks[j]? = some true ∧ n = UInt32.ofNat (i + 1 + j) := by
      rw [← Nat.or_exists_add_one]
      simp only [List.getElem?_cons_zero, Option.some.injEq, Nat.add_zero,
        List.getElem?_cons_succ, Nat.add_assoc, Nat.add_comm 1]
    rw [hsplit]
    cases mark with
    | true => rw [indexes, List.mem_cons, ih]; simp
    | false => rw [indexes, ih]; simp

theorem toNat_of_mem_indexes {i : ℕ} {n : UInt32} (hfit : i + marks.length ≤ 2 ^ 32)
    (h : n ∈ indexes i marks) :
    i ≤ n.toNat ∧ n.toNat < i + marks.length := by
  obtain ⟨j, hj, rfl⟩ := mem_indexes.mp h
  have hlt := (List.getElem?_eq_some_iff.mp hj).1
  rw [UInt32.toNat_ofNat_of_lt']
  · omega
  · rw [UInt32.size]
    omega

/-- The indexes increase. -/
theorem pairwise_indexes {i : ℕ} (hfit : i + marks.length ≤ 2 ^ 32) :
    (indexes i marks).Pairwise (· < ·) := by
  induction marks generalizing i with
  | nil => exact .nil
  | cons mark marks ih =>
    rw [List.length_cons] at hfit
    have hfit' : i + 1 + marks.length ≤ 2 ^ 32 := by omega
    cases mark with
    | false => exact ih hfit'
    | true =>
      refine .cons (fun n hn => ?_) (ih hfit')
      have := (toNat_of_mem_indexes hfit' hn).1
      rw [UInt32.lt_iff_toNat_lt, UInt32.toNat_ofNat_of_lt']
      · omega
      · rw [UInt32.size]
        omega

/-- An index before all the others is not among them. -/
theorem ofNat_notMem_indexes {i : ℕ} (hfit : i + 1 + marks.length ≤ 2 ^ 32) :
    UInt32.ofNat i ∉ indexes (i + 1) marks := by
  intro h
  have := (toNat_of_mem_indexes hfit h).1
  rw [UInt32.toNat_ofNat_of_lt'] at this
  · omega
  · rw [UInt32.size]
    omega

/-- Dropping the recorded indexes leaves what is not marked. -/
theorem dropIndexes_indexes {i : ℕ} {xs : List α} (hlength : marks.length = xs.length)
    (hfit : i + xs.length ≤ 2 ^ 32) :
    dropIndexes i xs (indexes i marks) = unmarked xs marks := by
  induction xs generalizing i marks with
  | nil =>
    cases marks with
    | nil => rfl
    | cons => cases hlength
  | cons x xs ih =>
    cases marks with
    | nil => cases hlength
    | cons mark marks =>
      rw [List.length_cons, List.length_cons, Nat.add_right_cancel_iff] at hlength
      rw [List.length_cons] at hfit
      have hfit' : i + 1 + xs.length ≤ 2 ^ 32 := by omega
      cases mark with
      | true =>
        rw [indexes, dropIndexes, if_pos rfl, ih hlength hfit']
        rfl
      | false =>
        rw [indexes, unmarked, if_neg Bool.false_ne_true, ← ih hlength hfit']
        have hnot : UInt32.ofNat i ∉ indexes (i + 1) marks := ofNat_notMem_indexes (by omega)
        cases hns : indexes (i + 1) marks with
        | nil =>
          cases xs with
          | nil => rfl
          | cons => rfl
        | cons n ns =>
          rw [hns] at hnot
          have hne : n ≠ UInt32.ofNat i := fun h => hnot (h ▸ List.mem_cons_self)
          rw [dropIndexes, if_neg hne]

/-- What is not marked, by the indexes of the elements. -/
theorem filter_zipIdx_indexes {i : ℕ} {xs : List α} (hlength : marks.length = xs.length)
    (hfit : i + xs.length ≤ 2 ^ 32) :
    ((xs.zipIdx i).filter fun p => UInt32.ofNat p.2 ∉ indexes i marks).map Prod.fst =
      unmarked xs marks := by
  induction xs generalizing i marks with
  | nil =>
    cases marks with
    | nil => rfl
    | cons => cases hlength
  | cons x xs ih =>
    cases marks with
    | nil => cases hlength
    | cons mark marks =>
      rw [List.length_cons, List.length_cons, Nat.add_right_cancel_iff] at hlength
      rw [List.length_cons] at hfit
      have hfit' : i + 1 + xs.length ≤ 2 ^ 32 := by omega
      have hnot : UInt32.ofNat i ∉ indexes (i + 1) marks := ofNat_notMem_indexes (by omega)
      -- the elements behind have other indexes than this one
      have hrest : (xs.zipIdx (i + 1)).filter
            (fun p => UInt32.ofNat p.2 ∉ indexes i (mark :: marks)) =
          (xs.zipIdx (i + 1)).filter fun p => UInt32.ofNat p.2 ∉ indexes (i + 1) marks := by
        refine List.filter_congr fun p hp => ?_
        cases mark with
        | false => rfl
        | true =>
          have hlt := List.le_snd_of_mem_zipIdx hp
          have hlt' := List.snd_lt_add_of_mem_zipIdx hp
          have hne : UInt32.ofNat p.2 ≠ UInt32.ofNat i := by
            intro h
            have := congrArg UInt32.toNat h
            rw [UInt32.toNat_ofNat_of_lt' (by rw [UInt32.size]; omega),
              UInt32.toNat_ofNat_of_lt' (by rw [UInt32.size]; omega)] at this
            omega
          simp only [indexes, List.mem_cons, hne, false_or]
      rw [List.zipIdx_cons, List.filter_cons, hrest, unmarked]
      cases mark with
      | true =>
        rw [if_neg (by simp [indexes]), if_pos rfl, ih hlength hfit']
      | false =>
        have hkept : decide (UInt32.ofNat (x, i).2 ∉ indexes i (false :: marks)) = true :=
          decide_eq_true hnot
        rw [if_pos hkept, if_neg Bool.false_ne_true, List.map_cons, ih hlength hfit']

end SkipIndex
