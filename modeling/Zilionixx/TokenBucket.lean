import Mathlib.Data.List.Basic
import Mathlib.Algebra.BigOperators.Group.List.Basic
import Mathlib.Algebra.GroupWithZero.Nat

/-!
# Token buckets

A bucket holds tokens up to a capacity. Before each draw it is refilled; what
does not fit is lost, and so is anything an implementation rounds away, so a
draw is bounded from above only. The two results are about whole runs: nothing
is drawn that was not there at the start or refilled (`Run.level_add_spent_le`),
and no draw exceeds the capacity (`Run.le_cap`).
-/

namespace TokenBucket

/-- One draw from the bucket. -/
structure Draw where
  /-- the tokens that were added before it -/
  refill : ℕ
  /-- the tokens taken -/
  spent : ℕ
  /-- the tokens left after it -/
  level : ℕ

/-- The tokens in the bucket after the draws, the newest first. -/
def level (start : ℕ) : List Draw → ℕ
  | [] => start
  | d :: _ => d.level

/-- The draws, the newest first, from a bucket that holds `start` tokens. -/
inductive Run (cap start : ℕ) : List Draw → Prop where
  | nil : Run cap start []
  | draw {d : Draw} {ds : List Draw} (capped : d.level + d.spent ≤ cap)
      (funded : d.level + d.spent ≤ level start ds + d.refill) (run : Run cap start ds) :
      Run cap start (d :: ds)

variable {cap start : ℕ} {ds : List Draw}

/-- What is left and what was spent never exceeds what was put in. -/
theorem Run.level_add_spent_le (h : Run cap start ds) :
    level start ds + (ds.map Draw.spent).sum ≤ start + (ds.map Draw.refill).sum := by
  induction h with
  | nil => exact Nat.le_refl _
  | @draw d ds capped funded _ ih =>
    rw [List.map_cons, List.map_cons, List.sum_cons, List.sum_cons]
    calc d.level + (d.spent + (ds.map Draw.spent).sum)
        = d.level + d.spent + (ds.map Draw.spent).sum := (add_assoc ..).symm
      _ ≤ level start ds + d.refill + (ds.map Draw.spent).sum := Nat.add_le_add_right funded _
      _ = level start ds + (ds.map Draw.spent).sum + d.refill := add_right_comm ..
      _ ≤ start + (ds.map Draw.refill).sum + d.refill := Nat.add_le_add_right ih _
      _ = start + (d.refill + (ds.map Draw.refill).sum) := by rw [add_assoc, add_comm d.refill]

/-- No draw finds more in the bucket than its capacity. -/
theorem Run.le_cap (h : Run cap start ds) : ∀ d ∈ ds, d.level + d.spent ≤ cap := by
  induction h with
  | nil => exact List.forall_mem_nil _
  | draw capped _ _ ih => exact List.forall_mem_cons.mpr ⟨capped, ih⟩

end TokenBucket
