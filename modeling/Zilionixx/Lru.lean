import Mathlib.Data.List.AList

/-!
# Least recently used caches

A cache of bounded size that keeps its entries in the order of their last use. Adding
an entry to a full cache drops the one that has not been used for the longest time.
The entries are Mathlib's association lists, whose `insert` puts a key in front and
takes it out from where it was: that is a use.

As long as the cache has room, it is a map (`entries_add`): the order of use decides
nothing but what is dropped.
-/

/-- A cache for keys `α` and values `β`. -/
structure Lru (α β : Type) where
  /-- the most entries it has -/
  size : ℕ
  /-- the entries, from the most recently used one on -/
  entries : AList fun _ : α => β
  length_le : entries.entries.length ≤ size

namespace Lru

variable {α β : Type}

/-- Without its last entry. -/
def dropOldest (m : AList fun _ : α => β) : AList fun _ : α => β :=
  ⟨m.entries.dropLast, m.nodupKeys.sublist (List.dropLast_sublist _)⟩

/-- An empty cache. -/
def new (size : ℕ) : Lru α β := ⟨size, ∅, Nat.zero_le _⟩

/-- How many entries there are. -/
def len (l : Lru α β) : ℕ := l.entries.entries.length

/-- All entries are removed. -/
def purge (l : Lru α β) : Lru α β := new l.size

theorem length_keys (m : AList fun _ : α => β) : m.keys.length = m.entries.length :=
  List.length_map _

variable [DecidableEq α]

theorem length_insert_le (m : AList fun _ : α => β) (k : α) (v : β) :
    (m.insert k v).entries.length ≤ m.entries.length + 1 := by
  rw [← length_keys, ← length_keys, AList.keys_insert, List.length_cons]
  exact Nat.succ_le_succ (List.length_erase_le)

theorem length_insert_of_mem {m : AList fun _ : α => β} {k : α} (h : k ∈ m) (v : β) :
    (m.insert k v).entries.length = m.entries.length := by
  have hkey := AList.mem_keys.mp h
  have hpos := List.length_pos_of_mem hkey
  rw [← length_keys, ← length_keys, AList.keys_insert, List.length_cons,
    List.length_erase_of_mem hkey]
  omega

/-- The value of a key, which is not used by that. -/
def peek (l : Lru α β) (k : α) : Option β := l.entries.lookup k

/-- The value of a key, which is used. -/
def get (l : Lru α β) (k : α) : Option β × Lru α β :=
  match h : l.entries.lookup k with
  | none => (none, l)
  | some v =>
    (some v,
      { l with
        entries := l.entries.insert k v
        length_le := by
          rw [length_insert_of_mem (AList.lookup_isSome.mp (by rw [h]; rfl))]
          exact l.length_le })

/-- A value for a key, which is used. -/
def add (l : Lru α β) (k : α) (v : β) : Lru α β where
  size := l.size
  entries :=
    if (l.entries.insert k v).entries.length > l.size then dropOldest (l.entries.insert k v)
    else l.entries.insert k v
  length_le := by
    have hle := length_insert_le l.entries k v
    have hsize := l.length_le
    split
    · rw [dropOldest, List.length_dropLast]
      omega
    · omega

/-- A key is removed. -/
def remove (l : Lru α β) (k : α) : Lru α β where
  size := l.size
  entries := l.entries.erase k
  length_le := by
    refine Nat.le_trans ?_ l.length_le
    rw [← length_keys, ← length_keys, AList.keys_erase]
    exact List.length_erase_le

variable {l : Lru α β} {k k' : α} {v : β}

/-- There is room for a key if it is there or the cache is not full. -/
theorem entries_add (h : k ∈ l.entries ∨ l.len < l.size) :
    (l.add k v).entries = l.entries.insert k v := by
  refine if_neg (Nat.not_lt.mpr ?_)
  rcases h with hmem | hroom
  · rw [length_insert_of_mem hmem]
    exact l.length_le
  · exact Nat.le_trans (length_insert_le _ _ _) hroom

/-- Getting only changes the order. -/
theorem peek_get (l : Lru α β) (k k' : α) : (l.get k).2.peek k' = l.peek k' := by
  unfold get
  split
  · rfl
  · rename_i v h
    by_cases hk : k' = k
    · subst hk
      exact (AList.lookup_insert _).trans h.symm
    · exact AList.lookup_insert_ne hk

/-- It returns what is kept. -/
theorem fst_get (l : Lru α β) (k : α) : (l.get k).1 = l.peek k := by
  unfold get
  split
  · rename_i h
    exact h.symm
  · rename_i h
    exact h.symm

theorem size_get (l : Lru α β) (k : α) : (l.get k).2.size = l.size := by
  unfold get
  split <;> rfl

end Lru
