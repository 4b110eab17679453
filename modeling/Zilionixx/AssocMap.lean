import Mathlib

/-!
# Maps that are iterated over

A map of a language in which a loop over a map has no fixed order, as an association list: the loop
follows the list. What a loop collects is determined up to its order by the lookups.
-/

namespace AssocMap

variable {α β : Type*} [DecidableEq α]

/-- A map from `α` to `β`. -/
abbrev Map (α β : Type*) := AList fun _ : α => β

/-- The values, in the order of the map. -/
def values (m : Map α β) : List β :=
  m.entries.map Sigma.snd

/-- The entries with a property; the others are deleted. -/
def keep (p : α → β → Bool) (m : Map α β) : Map α β :=
  ⟨m.entries.filter fun e => p e.1 e.2, m.nodupKeys.sublist List.filter_sublist⟩

/-- What is kept is found. -/
theorem lookup_keep (p : α → β → Bool) (m : Map α β) (a : α) :
    (keep p m).lookup a = (m.lookup a).filter (p a) := by
  refine Option.ext fun b => ?_
  rw [← Option.mem_def, AList.mem_lookup_iff, keep, List.mem_filter, ← AList.mem_lookup_iff,
    Option.mem_def, Option.filter_eq_some_iff]

/-- An entry and the others. -/
theorem perm_entries_erase {m : Map α β} {a : α} {b : β} (h : m.lookup a = some b) :
    m.entries.Perm (⟨a, b⟩ :: (m.erase a).entries) := by
  have hmem : a ∈ m.entries.keys := AList.mem_keys.mp (AList.lookup_isSome.mp (by rw [h]; rfl))
  obtain ⟨b', l₁, l₂, -, hsplit, hrest⟩ := List.exists_of_kerase hmem
  obtain rfl : b' = b := by
    have hlookup : m.lookup a = some b' := by
      rw [← Option.mem_def, AList.mem_lookup_iff, hsplit]
      exact List.mem_append_right _ List.mem_cons_self
    exact Option.some.inj (hlookup.symm.trans h)
  change m.entries.Perm (⟨a, b'⟩ :: m.entries.kerase a)
  rw [hrest, hsplit]
  exact List.perm_middle

theorem erase_eq_self {m : Map α β} {a : α} (h : m.lookup a = none) : m.erase a = m :=
  AList.ext (List.kerase_of_notMem_keys (AList.lookup_eq_none.mp h))

/-- A sum over the entries. -/
def total (f : β → ℕ) (m : Map α β) : ℕ :=
  (m.entries.map fun e => f e.2).sum

/-- The total without one entry. -/
theorem total_erase (f : β → ℕ) {m : Map α β} {a : α} {b : β} (h : m.lookup a = some b) :
    total f m = f b + total f (m.erase a) := by
  rw [total, ((perm_entries_erase h).map _).sum_eq, List.map_cons, List.sum_cons, total]

theorem total_insert (f : β → ℕ) {m : Map α β} {a : α} (b : β) (h : m.lookup a = none) :
    total f (m.insert a b) = f b + total f m := by
  rw [total, AList.entries_insert_of_notMem (AList.lookup_eq_none.mp h), List.map_cons,
    List.sum_cons, total]

/-- Entries that are set one after another. -/
def setAll (l : List (Sigma fun _ : α => β)) (m : Map α β) : Map α β :=
  l.foldl (fun m e => m.insert e.1 e.2) m

/-- Later entries go first. -/
theorem lookup_setAll {l : List (Sigma fun _ : α => β)} (hl : l.NodupKeys) (m : Map α β) (a : α) :
    (setAll l m).lookup a = (l.dlookup a).or (m.lookup a) := by
  induction l generalizing m with
  | nil => rfl
  | cons e l ih =>
    rw [List.nodupKeys_cons] at hl
    change (setAll l (m.insert e.1 e.2)).lookup a = _
    rw [ih hl.2]
    by_cases ha : a = e.1
    · subst ha
      rw [List.dlookup_eq_none.mpr hl.1, Option.none_or, AList.lookup_insert, List.dlookup_cons_eq,
        Option.some_or]
    · rw [AList.lookup_insert_ne ha, List.dlookup_cons_ne l e ha]

theorem total_setAll (f : β → ℕ) {l : List (Sigma fun _ : α => β)} (hl : l.NodupKeys) {m : Map α β}
    (hfresh : ∀ e ∈ l, m.lookup e.1 = none) :
    total f (setAll l m) = (l.map fun e => f e.2).sum + total f m := by
  induction l generalizing m with
  | nil => exact (Nat.zero_add _).symm
  | cons e l ih =>
    rw [List.nodupKeys_cons] at hl
    rw [List.forall_mem_cons] at hfresh
    have hrest : ∀ e' ∈ l, (m.insert e.1 e.2).lookup e'.1 = none := by
      intro e' he'
      have hne : e'.1 ≠ e.1 := fun heq => hl.1 (heq ▸ List.mem_keys_of_mem he')
      rw [AList.lookup_insert_ne hne]
      exact hfresh.2 e' he'
    change total f (setAll l (m.insert e.1 e.2)) = _
    rw [ih hl.2 hrest, total_insert f e.2 hfresh.1, List.map_cons, List.sum_cons]
    omega

omit [DecidableEq α] in
/-- What is kept and what is not. -/
theorem total_keep_add (f : β → ℕ) (p : α → β → Bool) (m : Map α β) :
    total f (keep p m) + ((m.entries.filter fun e => !p e.1 e.2).map fun e => f e.2).sum =
      total f m := by
  have hperm := (List.filter_append_perm (fun e => p e.1 e.2) m.entries).map fun e => f e.2
  rw [List.map_append] at hperm
  exact List.sum_append.symm.trans hperm.sum_eq

end AssocMap
