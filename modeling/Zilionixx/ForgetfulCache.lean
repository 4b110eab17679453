import Mathlib.Data.Nat.Notation

/-!
# Caches that forget

What one may rely on with a cache that drops entries as it likes: an entry is what was put in
for its key, if it is there. What is true of the entries stays true whatever is forgotten.
-/

/-- The operations of a cache with states `κ`, for keys `α` and values `β`. -/
structure ForgetfulCache (κ α β : Type) where
  /-- what is found for a key -/
  peek : κ → α → Option β
  /-- a key is looked up -/
  use : κ → α → κ
  /-- a value of some size is put in -/
  add : κ → α → β → ℕ → κ
  /-- a key is removed -/
  remove : κ → α → κ
  peek_use : ∀ c k k', peek (use c k) k' = peek c k'
  peek_add_self : ∀ c k v size, peek (add c k v size) k = none ∨ peek (add c k v size) k = some v
  peek_add_of_ne : ∀ c k k' v size, k' ≠ k →
    peek (add c k v size) k' = none ∨ peek (add c k v size) k' = peek c k'
  peek_remove : ∀ c k k', peek (remove c k) k' = none ∨ peek (remove c k) k' = peek c k'

namespace ForgetfulCache

variable {κ α β : Type} (K : ForgetfulCache κ α β)

/-- For a key there is nothing in the second cache that was not in the first one. -/
def Forgets (k : α) (c c' : κ) : Prop := K.peek c' k = none ∨ K.peek c' k = K.peek c k

variable {K} {k : α} {c c' c'' : κ}

/-- Doing nothing forgets nothing. -/
theorem Forgets.refl (k : α) (c : κ) : K.Forgets k c c := .inr rfl

/-- What is forgotten stays forgotten. -/
theorem Forgets.trans (h : K.Forgets k c c') (h' : K.Forgets k c' c'') : K.Forgets k c c'' := by
  rcases h' with hnone | heq
  · exact .inl hnone
  · rw [Forgets, heq]
    exact h

/-- A use only changes the order. -/
theorem Forgets.use (k k' : α) (c : κ) : K.Forgets k c (K.use c k') := .inr (K.peek_use c k' k)

/-- Adding may evict another entry. -/
theorem Forgets.add {k' : α} (h : k ≠ k') (c : κ) (v : β) (size : ℕ) :
    K.Forgets k c (K.add c k' v size) :=
  K.peek_add_of_ne c k' k v size h

/-- Removing adds no entry. -/
theorem Forgets.remove (k k' : α) (c : κ) : K.Forgets k c (K.remove c k') := K.peek_remove c k' k

/-- The cache in which nothing is kept. -/
def empty (α β : Type) : ForgetfulCache Unit α β where
  peek _ _ := none
  use c _ := c
  add c _ _ _ := c
  remove c _ := c
  peek_use _ _ _ := rfl
  peek_add_self _ _ _ _ := .inl rfl
  peek_add_of_ne _ _ _ _ _ _ := .inl rfl
  peek_remove _ _ _ := .inl rfl

end ForgetfulCache
