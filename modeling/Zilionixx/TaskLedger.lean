import Mathlib.Algebra.Order.Group.Multiset

/-!
# Tasks that wait for an answer

What a queue of tasks is for, without the queue: each call has tasks, and these are answered, some
at a time, each with its verdict. Whatever the order, every task is answered at most once, and once
if none is left.
-/

/-- The tasks that wait, and the answers that were given, for each call. -/
structure TaskLedger (ι τ ρ : Type) where
  pending : ι → Multiset τ
  answered : ι → Multiset (τ × ρ)

namespace TaskLedger

variable {ι τ ρ : Type} {verdict : τ → ρ}

/-- A task with its verdict. -/
def entry (verdict : τ → ρ) (t : τ) : τ × ρ := (t, verdict t)

/-- One step: some tasks are answered, or none. -/
def Step (verdict : τ → ρ) (l l' : TaskLedger ι τ ρ) : Prop :=
  ∀ i, ∃ tasks, l.pending i = tasks + l'.pending i ∧
    l'.answered i = l.answered i + tasks.map (entry verdict)

/-- The answers, with those that are still to come, are the verdicts on what was given. -/
def Balanced (verdict : τ → ρ) (given : ι → Multiset τ) (l : TaskLedger ι τ ρ) : Prop :=
  ∀ i, l.answered i + (l.pending i).map (entry verdict) = (given i).map (entry verdict)

variable {given : ι → Multiset τ} {l l' : TaskLedger ι τ ρ}

/-- What the ledger does not see answers nothing. -/
theorem Step.of_eq (hpending : l'.pending = l.pending) (hanswered : l'.answered = l.answered) :
    Step verdict l l' := by
  intro i
  refine ⟨0, ?_, ?_⟩
  · rw [hpending, zero_add]
  · rw [hanswered, Multiset.map_zero, add_zero]

/-- A step keeps the balance. -/
theorem Balanced.step (h : l.Balanced verdict given) (hstep : Step verdict l l') :
    l'.Balanced verdict given := by
  intro i
  obtain ⟨tasks, hpending, hanswered⟩ := hstep i
  rw [hanswered, add_assoc, ← Multiset.map_add, ← hpending]
  exact h i

/-- No task is answered twice or wrongly. -/
theorem Balanced.answered_le (h : l.Balanced verdict given) (i : ι) :
    l.answered i ≤ (given i).map (entry verdict) := by
  rw [← h i]
  exact Multiset.le_add_right _ _

/-- With nothing pending, all tasks are answered. -/
theorem Balanced.answered_eq (h : l.Balanced verdict given) {i : ι} (hnone : l.pending i = 0) :
    l.answered i = (given i).map (entry verdict) := by
  rw [← h i, hnone, Multiset.map_zero, add_zero]

end TaskLedger
