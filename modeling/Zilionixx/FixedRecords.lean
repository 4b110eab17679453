import Mathlib.Data.Multiset.Sort

/-!
# Records of one length in a byte string

A finite collection of records is stored as one string: the records are sorted, and written one
after the other. As they have one length, the string is cut into them again.
-/

namespace FixedRecords

variable {α : Type}

/-- The string is cut into records of a size, as long as there is fuel; `none` if the last one is
too short. -/
def split (size : ℕ) : ℕ → List α → Option (List (List α))
  | _, [] => some []
  | 0, _ :: _ => none
  | fuel + 1, a :: as =>
    if (a :: as).length < size then none
    else (split size fuel ((a :: as).drop size)).map ((a :: as).take size :: ·)

/-- Records of one size are found again in their concatenation. -/
theorem split_flatten {size : ℕ} (hsize : 0 < size) {records : List (List α)}
    (h : ∀ r ∈ records, r.length = size) {fuel : ℕ} (hfuel : records.length ≤ fuel) :
    split size fuel records.flatten = some records := by
  induction records generalizing fuel with
  | nil =>
    rw [List.flatten_nil]
    unfold split
    rfl
  | cons r records ih =>
    have hr := h r List.mem_cons_self
    obtain ⟨a, as, rfl⟩ : ∃ a as, r = a :: as := List.exists_cons_of_length_pos (by omega)
    obtain ⟨fuel, rfl⟩ : ∃ k, fuel = k + 1 := ⟨fuel - 1, by rw [List.length_cons] at hfuel; omega⟩
    have hrest := ih (fun r' hr' => h r' (List.mem_cons_of_mem _ hr'))
      (show records.length ≤ fuel by rw [List.length_cons] at hfuel; omega)
    rw [List.flatten_cons, List.cons_append, split, ← List.cons_append, if_neg]
    · rw [List.drop_left' hr, List.take_left' hr, hrest, Option.map_some]
    · rw [List.length_append, hr]
      omega

/-- There is fuel enough for all records. -/
theorem length_le_length_flatten {size : ℕ} (hsize : 0 < size) {records : List (List α)}
    (h : ∀ r ∈ records, r.length = size) : records.length ≤ records.flatten.length := by
  induction records with
  | nil => exact Nat.le_refl _
  | cons r records ih =>
    have hr := h r List.mem_cons_self
    have hrest := ih fun r' hr' => h r' (List.mem_cons_of_mem _ hr')
    rw [List.length_cons, List.flatten_cons, List.length_append]
    omega

variable [LE α] [LT α] [DecidableLT α] [Std.IsLinearOrder α] [Std.LawfulOrderLT α] [DecidableEq α]

/-- The records, sorted and written one after the other. -/
def pack (records : Multiset (List α)) : List α := (records.sort (· ≤ ·)).flatten

/-- What is packed is split into the same records, in order. -/
theorem split_pack {size : ℕ} (hsize : 0 < size) {records : Multiset (List α)}
    (h : ∀ r ∈ records, r.length = size) :
    split size (pack records).length (pack records) = some (records.sort (· ≤ ·)) := by
  have hlen : ∀ r ∈ records.sort (· ≤ ·), r.length = size := fun r hr =>
    h r ((Multiset.mem_sort _).mp hr)
  exact split_flatten hsize hlen (length_le_length_flatten hsize hlen)

end FixedRecords
