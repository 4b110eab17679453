import Mathlib.Algebra.BigOperators.Group.List.Basic
import Mathlib.Algebra.GroupWithZero.Nat
import Mathlib.Algebra.Order.Monoid.Unbundled.Basic
import Mathlib.Data.List.Basic
import Mathlib.Order.Bounds.Basic

/-!
# Weighted medians

Elements have a time and a weight. In a list that is sorted by time, the weights are added
up until they reach a threshold, and the element that is met then is picked
(`pick`). Its time is the least one up to which the weights reach the threshold
(`isLeast_of_pick`), which says nothing about the order of elements with equal times. With a
positive threshold, elements without weight are never picked and do not matter
(`isLeast_positive`).
-/

namespace WeightedMedian

variable {α τ : Type*} [LinearOrder τ] (time : α → τ) (weight : α → ℕ)

/-- The weight of all the elements. -/
def total (xs : List α) : ℕ := (xs.map weight).sum

/-- The weight of the elements up to a time. -/
def upTo (xs : List α) (t : τ) : ℕ := total weight (xs.filter (time · ≤ t))

/-- The times that occur up to which the weights reach a threshold. -/
def Reaching (half : ℕ) (xs : List α) : Set τ :=
  {t | (∃ x ∈ xs, time x = t) ∧ half ≤ upTo time weight xs t}

/-- The first element with which the weights, added to `curr`, reach the threshold. -/
def pick (half : ℕ) : ℕ → List α → Option α
  | _, [] => none
  | curr, x :: xs => if half ≤ curr + weight x then some x else pick half (curr + weight x) xs

variable {time weight} {half curr : ℕ} {xs ys : List α} {x : α}

@[simp] theorem total_nil : total weight [] = 0 := rfl

@[simp] theorem total_cons : total weight (x :: xs) = weight x + total weight xs := List.sum_cons

@[simp] theorem total_append : total weight (xs ++ ys) = total weight xs + total weight ys := by
  rw [total, List.map_append, List.sum_append]
  rfl

theorem total_perm (h : xs.Perm ys) : total weight xs = total weight ys := (h.map _).sum_eq

theorem total_filter_le (weight : α → ℕ) (xs : List α) (p : α → Bool) :
    total weight (xs.filter p) ≤ total weight xs := by
  induction xs with
  | nil => exact Nat.le_refl _
  | cons x xs ih =>
    rw [List.filter_cons]
    split
    · simpa using ih
    · rw [total_cons]
      omega

/-- The order does not matter. -/
theorem reaching_perm (h : xs.Perm ys) :
    Reaching time weight half xs = Reaching time weight half ys := by
  have hupTo : ∀ t, upTo time weight xs t = upTo time weight ys t :=
    fun t => total_perm (h.filter _)
  simp only [Reaching, hupTo, h.mem_iff]

/-- Where the element is picked. -/
theorem pick_eq_some (h : pick weight half curr xs = some x) :
    ∃ before after, xs = before ++ x :: after ∧ half ≤ curr + total weight before + weight x ∧
      (before ≠ [] → curr + total weight before < half) := by
  induction xs generalizing curr with
  | nil => cases h
  | cons y xs ih =>
    rw [pick] at h
    split at h
    · rename_i hreached
      obtain rfl := Option.some.inj h
      exact ⟨[], xs, rfl, hreached, fun h => absurd rfl h⟩
    · rename_i hbelow
      obtain ⟨before, after, rfl, hreached, hbefore⟩ := ih h
      refine ⟨y :: before, after, rfl, by rw [total_cons]; omega, fun _ => ?_⟩
      rw [total_cons]
      rcases eq_or_ne before [] with rfl | hne
      · rw [total_nil]
        omega
      · have := hbefore hne
        omega

/-- With enough weight one is picked. -/
theorem exists_pick (hne : xs ≠ []) (h : half ≤ curr + total weight xs) :
    ∃ x, pick weight half curr xs = some x := by
  induction xs generalizing curr with
  | nil => exact absurd rfl hne
  | cons y xs ih =>
    rw [pick]
    split
    · exact ⟨y, rfl⟩
    · rename_i hbelow
      rw [total_cons] at h
      refine ih ?_ (by omega)
      rintro rfl
      rw [total_nil] at h
      omega

/-- In a sorted list, the elements up to a time before that of `x` come before `x`. -/
theorem upTo_lt {before after : List α}
    (hsorted : (before ++ x :: after).Pairwise (time · ≤ time ·))
    {t : τ} (ht : t < time x) :
    (before ++ x :: after).filter (time · ≤ t) = before.filter (time · ≤ t) := by
  obtain ⟨-, hafter, -⟩ := List.pairwise_append.mp hsorted
  have hnone : (x :: after).filter (time · ≤ t) = [] := by
    refine List.filter_eq_nil_iff.mpr fun y hy => ?_
    have hle : time x ≤ time y := by
      rcases List.mem_cons.mp hy with rfl | hy
      · exact le_rfl
      · exact (List.pairwise_cons.mp hafter).1 y hy
    simpa using ht.trans_le hle
  rw [List.filter_append, hnone, List.append_nil]

/-- The time of the picked element is the least one up to which the weights reach the
threshold. -/
theorem isLeast_of_pick (hsorted : xs.Pairwise (time · ≤ time ·))
    (h : pick weight half 0 xs = some x) :
    IsLeast (Reaching time weight half xs) (time x) := by
  obtain ⟨before, after, rfl, hreached, hbefore⟩ := pick_eq_some h
  obtain ⟨-, -, hle⟩ := List.pairwise_append.mp hsorted
  refine ⟨⟨⟨x, by simp, rfl⟩, ?_⟩, ?_⟩
  · -- everything before `x` counts
    have hall : before.filter (time · ≤ time x) = before :=
      List.filter_eq_self.mpr fun y hy => decide_eq_true (hle y hy x List.mem_cons_self)
    have hself : (x :: after).filter (time · ≤ time x) = x :: after.filter (time · ≤ time x) :=
      List.filter_cons_of_pos (decide_eq_true le_rfl)
    rw [upTo, List.filter_append, hall, hself, total_append, total_cons]
    omega
  · rintro _ ⟨⟨y, hy, rfl⟩, hhalf⟩
    by_contra hlt
    rw [not_le] at hlt
    have hfilter := upTo_lt hsorted hlt
    rw [upTo, hfilter] at hhalf
    have hmem : y ∈ before.filter (time · ≤ time y) := by
      rw [← hfilter]
      exact List.mem_filter.mpr ⟨hy, decide_eq_true le_rfl⟩
    have hne : before ≠ [] := List.ne_nil_of_mem (List.mem_filter.mp hmem).1
    have := hbefore hne
    have := total_filter_le weight before (time · ≤ time y)
    omega

/-! ## Elements without weight -/

theorem total_positive : total weight (xs.filter (0 < weight ·)) = total weight xs := by
  induction xs with
  | nil => rfl
  | cons x xs ih =>
    rw [List.filter_cons]
    split
    · rw [total_cons, total_cons, ih]
    · rename_i hzero
      have : weight x = 0 := by simpa using hzero
      rw [total_cons, ih]
      omega

theorem weight_pos_of_pick (hhalf : 0 < half) (h : pick weight half 0 xs = some x) :
    0 < weight x := by
  obtain ⟨before, after, -, hreached, hbefore⟩ := pick_eq_some h
  rcases eq_or_ne before [] with rfl | hne
  · rw [total_nil] at hreached
    omega
  · have := hbefore hne
    omega

/-- With a positive threshold, only the elements with weight matter. -/
theorem isLeast_positive (hhalf : 0 < half) (hsorted : xs.Pairwise (time · ≤ time ·))
    (h : pick weight half 0 xs = some x) :
    IsLeast (Reaching time weight half (xs.filter (0 < weight ·))) (time x) := by
  have hupTo : ∀ t, upTo time weight (xs.filter (0 < weight ·)) t = upTo time weight xs t := by
    intro t
    rw [upTo, upTo, List.filter_comm, total_positive]
  obtain ⟨⟨-, hreached⟩, hleast⟩ := isLeast_of_pick hsorted h
  obtain ⟨before, after, rfl, -⟩ := pick_eq_some h
  refine ⟨⟨⟨x, ?_, rfl⟩, by rwa [hupTo]⟩, ?_⟩
  · exact List.mem_filter.mpr ⟨by simp, decide_eq_true (weight_pos_of_pick hhalf h)⟩
  · rintro t ⟨⟨y, hy, rfl⟩, hy'⟩
    exact hleast ⟨⟨y, (List.mem_filter.mp hy).1, rfl⟩, by rwa [hupTo] at hy'⟩

end WeightedMedian
