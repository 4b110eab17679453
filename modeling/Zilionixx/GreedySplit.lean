import Mathlib.Data.List.Basic

/-!
# Splitting a list greedily

A batch takes one item after the other until it is full, and the item that makes it full is still
its own. What a batch has taken so far is its load; it is up to the user what a load is and when it
is full. The batches join to the list, no batch could have been cut off before, and all but the last
one are full.
-/

namespace GreedySplit

variable {α σ : Type} (add : σ → α → σ) (full : σ → Prop) [DecidablePred full]

/-- How many of the items a batch takes from a load on. -/
def count : σ → List α → ℕ
  | _, [] => 0
  | load, a :: as => if full (add load a) then 1 else count (add load a) as + 1

/-- A batch that is cut off at the first item that makes it full, or before that. -/
structure Cut (init : σ) (batch : List α) : Prop where
  ne_nil : batch ≠ []
  not_full : ∀ k, 0 < k → k < batch.length → ¬full ((batch.take k).foldl add init)

variable {add full} {load init : σ} {as : List α} {batch : List α}

theorem count_pos (h : as ≠ []) : 0 < count add full load as := by
  cases as with
  | nil => exact absurd rfl h
  | cons a as =>
    rw [count]
    split
    · exact Nat.one_pos
    · exact Nat.succ_pos _

theorem count_le_length : count add full load as ≤ as.length := by
  induction as generalizing load with
  | nil => exact Nat.le_refl 0
  | cons a as ih =>
    rw [count, List.length_cons]
    split
    · exact Nat.succ_le_succ (Nat.zero_le _)
    · exact Nat.succ_le_succ ih

/-- With less than it takes, the batch is not full. -/
theorem not_full_of_lt_count {k : ℕ} (hpos : 0 < k) (hlt : k < count add full load as) :
    ¬full ((as.take k).foldl add load) := by
  induction as generalizing load k with
  | nil => exact absurd hlt (Nat.not_lt_zero k)
  | cons a as ih =>
    rw [count] at hlt
    split at hlt
    · exact absurd hlt (Nat.not_lt.mpr hpos)
    · rename_i hopen
      obtain ⟨k, rfl⟩ := Nat.exists_eq_add_of_lt hpos
      rw [Nat.zero_add] at hlt ⊢
      rw [List.take_succ_cons, List.foldl_cons]
      cases k with
      | zero => exact hopen
      | succ k => exact ih (Nat.succ_pos k) (Nat.lt_of_succ_lt_succ hlt)

/-- A batch that leaves items is full. -/
theorem full_of_count_lt (hlt : count add full load as < as.length) :
    full ((as.take (count add full load as)).foldl add load) := by
  induction as generalizing load with
  | nil => exact absurd hlt (Nat.not_lt_zero _)
  | cons a as ih =>
    rw [count] at hlt ⊢
    split
    · rename_i hfull
      exact hfull
    · rename_i hopen
      rw [if_neg hopen, List.length_cons] at hlt
      exact ih (Nat.lt_of_succ_lt_succ hlt)

variable (add full)

/-- The batches, each from the same load on. -/
def split (init : σ) (as : List α) : List (List α) :=
  if as = [] then []
  else
    as.take (count add full init as) :: split init (as.drop (count add full init as))
termination_by as.length
decreasing_by
  rename_i hne
  have hpos : 0 < count add full init as := count_pos hne
  have hlen := List.length_pos_iff.mpr hne
  rw [List.length_drop]
  omega

variable {add full}

theorem split_nil : split add full init [] = [] := by
  rw [split, if_pos rfl]

theorem split_of_ne_nil (h : as ≠ []) :
    split add full init as =
      as.take (count add full init as) ::
        split add full init (as.drop (count add full init as)) := by
  rw [split, if_neg h]

theorem split_eq_nil_iff : split add full init as = [] ↔ as = [] := by
  constructor
  · intro h
    by_contra hne
    rw [split_of_ne_nil hne] at h
    cases h
  · rintro rfl
    exact split_nil

/-- The batches join to the list. -/
theorem flatten_split (init : σ) (as : List α) : (split add full init as).flatten = as := by
  induction as using split.induct add full init with
  | case1 => rw [split_nil, List.flatten_nil]
  | case2 as hne ih =>
    rw [split_of_ne_nil hne, List.flatten_cons, ih, List.take_append_drop]

/-- No batch is empty, and none could have been cut off before. -/
theorem cut_of_mem_split (h : batch ∈ split add full init as) : Cut add full init batch := by
  induction as using split.induct add full init with
  | case1 =>
    rw [split_nil] at h
    cases h
  | case2 as hne ih =>
    rw [split_of_ne_nil hne, List.mem_cons] at h
    rcases h with rfl | h
    · refine ⟨?_, ?_⟩
      · intro hnil
        rcases List.take_eq_nil_iff.mp hnil with hzero | hempty
        · exact absurd hzero (Nat.ne_of_gt (count_pos hne))
        · exact hne hempty
      · intro k hpos hlt
        rw [List.length_take, Nat.min_eq_left count_le_length] at hlt
        rw [List.take_take, Nat.min_eq_left (Nat.le_of_lt hlt)]
        exact not_full_of_lt_count hpos hlt
    · exact ih h

/-- All batches but the last one are full. -/
theorem full_of_mem_dropLast (h : batch ∈ (split add full init as).dropLast) :
    full (batch.foldl add init) := by
  induction as using split.induct add full init with
  | case1 =>
    rw [split_nil] at h
    cases h
  | case2 as hne ih =>
    rw [split_of_ne_nil hne] at h
    by_cases hrest : as.drop (count add full init as) = []
    · rw [hrest, split_nil] at h
      cases h
    · rw [List.dropLast_cons_of_ne_nil (split_eq_nil_iff.not.mpr hrest), List.mem_cons] at h
      rcases h with rfl | h
      · exact full_of_count_lt (Nat.lt_of_not_le fun hle => hrest (List.drop_eq_nil_of_le hle))
      · exact ih h

end GreedySplit
