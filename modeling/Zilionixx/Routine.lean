import Mathlib.Logic.Basic

/-!
# Routines that write in the middle

A routine works on a state, and fails or returns a value. What it has written before it
fails stays written, so that a failure leaves the state as it was only if all checks are
made before the first write. `Keeps` says that it is so, and goes through the checks and
reads of a routine one by one.
-/

/-- A routine: from a state to an error or a value, and the state it leaves. -/
def Routine (σ ε α : Type) : Type := σ → Except ε α × σ

namespace Routine

variable {σ ε α β : Type}

/-- An error ends the routine, and the state is left as it is then. -/
protected def bind (m : Routine σ ε α) (f : α → Routine σ ε β) : Routine σ ε β := fun s =>
  match m s with
  | (.ok a, s') => f a s'
  | (.error e, s') => (.error e, s')

instance : Monad (Routine σ ε) where
  pure a := fun s => (.ok a, s)
  bind := Routine.bind

/-- A check that may fail, or a value that does not depend on the state. -/
def check (x : Except ε α) : Routine σ ε α := fun s => (x, s)

/-- The state is read. -/
def read (get : σ → α) : Routine σ ε α := fun s => (.ok (get s), s)

/-- The state is written. -/
def write (set : σ → σ) : Routine σ ε Unit := fun s => (.ok (), set s)

/-- A routine that is run at `s` fails with a fault that may be seen, and with the state
`s₀`, or it ends as it should. -/
def Keeps (s₀ : σ) (seen : ε → Prop) (ends : α → σ → Prop) (m : Routine σ ε α) (s : σ) : Prop :=
  match m s with
  | (.ok a, s') => ends a s'
  | (.error e, s') => seen e ∧ s' = s₀

section Rules

variable {s₀ s : σ} {seen : ε → Prop} {ends : β → σ → Prop} {f : α → Routine σ ε β}

/-- A check that fails must fail in the first state. -/
theorem keeps_check_bind {x : Except ε α} :
    Keeps s₀ seen ends (check x >>= f) s ↔
      (∀ e, x = .error e → seen e ∧ s = s₀) ∧ ∀ a, x = .ok a → Keeps s₀ seen ends (f a) s := by
  cases x with
  | error e =>
    refine ⟨fun h => ⟨fun e' he => ?_, nofun⟩, fun h => h.1 e rfl⟩
    cases he
    exact h
  | ok a =>
    refine ⟨fun h => ⟨nofun, fun a' ha => ?_⟩, fun h => h.2 a rfl⟩
    cases ha
    exact h

/-- Reading changes nothing. -/
theorem keeps_read_bind {get : σ → α} :
    Keeps s₀ seen ends (read get >>= f) s ↔ Keeps s₀ seen ends (f (get s)) s := Iff.rfl

end Rules

end Routine
