import Mathlib.Data.List.Basic
import Mathlib.Data.List.Nodup

/-!
# An ordered key-value table

A table whose keys are lists over an ordered alphabet, as those of an embedded database are.
The entries are kept in the order of the keys. An iterator visits the keys with a given
beginning, from a start key on, in order.
-/

/-- A table: entries with increasing keys. -/
structure KvTable (α β : Type) [LT α] where
  entries : List (List α × β)
  sorted : entries.Pairwise fun a b => a.1 < b.1

namespace KvTable

variable {α β : Type} [LT α]

/-- The table with no entry. -/
def empty : KvTable α β := ⟨[], List.Pairwise.nil⟩

/-- Keys with parts of the same length are compared part by part. -/
theorem append_lt_append {xs ys xs' ys' : List α} (h : xs.length = ys.length) :
    xs ++ xs' < ys ++ ys' ↔ xs < ys ∨ (xs = ys ∧ xs' < ys') := by
  induction xs generalizing ys with
  | nil =>
    obtain rfl := List.length_eq_zero_iff.mp h.symm
    simp [List.not_lt_nil]
  | cons x xs ih =>
    obtain ⟨y, ys, rfl⟩ := List.exists_cons_of_length_eq_add_one h.symm
    rw [List.cons_append, List.cons_append, List.cons_lt_cons_iff, List.cons_lt_cons_iff,
      ih (Nat.succ.inj h), List.cons.injEq]
    tauto

variable [DecidableEq α] [DecidableLT α] {es : List (List α × β)}

/-- An entry is put in its place, or instead of that with the same key. -/
def insertEntry (key : List α) (value : β) : List (List α × β) → List (List α × β)
  | [] => [(key, value)]
  | e :: es =>
    if key < e.1 then (key, value) :: e :: es
    else if key = e.1 then (key, value) :: es
    else e :: insertEntry key value es

/-- The value at a key. -/
def get (t : KvTable α β) (key : List α) : Option β := t.entries.lookup key

/-- The entries whose keys begin with `pre`, from `pre ++ start` on. -/
def iterate (t : KvTable α β) (pre start : List α) : List (List α × β) :=
  t.entries.filter fun e => pre.isPrefixOf e.1 ∧ pre ++ start ≤ e.1

theorem mem_insertEntry {key : List α} {value : β} {e : List α × β}
    (h : e ∈ insertEntry key value es) : e = (key, value) ∨ e ∈ es := by
  induction es with
  | nil => exact .inl (List.mem_singleton.mp h)
  | cons e' es ih =>
    rw [insertEntry] at h
    split at h
    · exact List.mem_cons.mp h
    split at h
    · exact (List.mem_cons.mp h).imp_right (List.mem_cons_of_mem _)
    · rcases List.mem_cons.mp h with rfl | h
      · exact .inr List.mem_cons_self
      · exact (ih h).imp_right (List.mem_cons_of_mem _)

omit [LT α] [DecidableLT α] in
theorem lookup_cons (key : List α) (e : List α × β) (es : List (List α × β)) :
    (e :: es).lookup key = if key = e.1 then some e.2 else es.lookup key := by
  rw [List.lookup_cons]
  by_cases h : key = e.1
  · rw [if_pos h, beq_iff_eq.mpr h]
  · rw [if_neg h, beq_eq_false_iff_ne.mpr h]

/-- One key is set. -/
theorem lookup_insertEntry (key key' : List α) (value : β) (es : List (List α × β)) :
    (insertEntry key value es).lookup key' = if key' = key then some value else es.lookup key' := by
  induction es with
  | nil => rw [insertEntry, lookup_cons]
  | cons e es ih =>
    rw [insertEntry]
    split
    · rw [lookup_cons]
    split
    · next heq =>
      rw [lookup_cons, lookup_cons, heq]
      by_cases h : key' = e.1
      · rw [if_pos h, if_pos h]
      · rw [if_neg h, if_neg h, if_neg h]
    · next hne =>
      rw [lookup_cons, lookup_cons, ih]
      by_cases h : key' = e.1
      · rw [if_pos h, if_pos h, if_neg (by rintro rfl; exact hne h)]
      · rw [if_neg h, if_neg h]

theorem sorted_iterate (t : KvTable α β) (pre start : List α) :
    (t.iterate pre start).Pairwise fun a b => a.1 < b.1 :=
  t.sorted.filter _

variable [LE α] [Std.LawfulOrderLT α]

omit [DecidableEq α] [DecidableLT α] in
theorem append_lt_append_left (pre : List α) {xs ys : List α} :
    pre ++ xs < pre ++ ys ↔ xs < ys := by
  rw [append_lt_append rfl]
  simp [List.lt_irrefl]

omit [DecidableLT α] in
/-- What the table has is what `get` finds. -/
theorem mem_entries {t : KvTable α β} {key : List α} {value : β} :
    (key, value) ∈ t.entries ↔ t.get key = some value := by
  obtain ⟨es, hsorted⟩ := t
  rw [get]
  induction es with
  | nil => simp
  | cons e es ih =>
    obtain ⟨hhead, htail⟩ := List.pairwise_cons.mp hsorted
    specialize ih htail
    rw [lookup_cons, List.mem_cons, ih]
    by_cases heq : key = e.1
    · rw [if_pos heq, Prod.ext_iff, Option.some.injEq]
      have hnone : es.lookup key ≠ some value := fun hsome =>
        List.lt_irrefl e.1 (heq ▸ hhead _ (ih.mpr hsome))
      simp [heq ▸ hnone, heq, eq_comm]
    · simp [heq, Prod.ext_iff]

/-- The entries with the prefix, from the start on. -/
theorem mem_iterate {t : KvTable α β} {pre start key : List α} {value : β} :
    (key, value) ∈ t.iterate pre start ↔
      t.get key = some value ∧ pre <+: key ∧ pre ++ start ≤ key := by
  rw [iterate, List.mem_filter, mem_entries, decide_eq_true_eq, List.isPrefixOf_iff_prefix]

omit [LE α] [Std.LawfulOrderLT α] in
/-- An iterator with no beginning and no start key visits all entries. -/
theorem iterate_nil (t : KvTable α β) : t.iterate [] [] = t.entries := by
  rw [iterate, List.filter_eq_self]
  intro e _
  simp

/-- With keys of one length, a whole key is the beginning of itself only. -/
theorem iterate_key {t : KvTable α β} {key : List α}
    (hlen : ∀ key' value, t.get key' = some value → key'.length = key.length) :
    t.iterate key [] = ((t.get key).map (key, ·)).toList := by
  have hmem : ∀ e, e ∈ t.iterate key [] ↔ e ∈ ((t.get key).map (key, ·)).toList := by
    rintro ⟨key', value⟩
    rw [mem_iterate, Option.mem_toList, Option.map_eq_some_iff, List.append_nil]
    refine ⟨?_, ?_⟩
    · rintro ⟨hget, hpre, -⟩
      obtain rfl := hpre.eq_of_length (hlen key' value hget).symm
      exact ⟨value, hget, rfl⟩
    · rintro ⟨value', hget, heq⟩
      cases heq
      exact ⟨hget, List.prefix_rfl, List.le_refl key⟩
  have hnodup : (t.iterate key []).Nodup := by
    refine (t.sorted_iterate key []).imp fun hlt heq => ?_
    exact List.lt_irrefl _ (heq ▸ hlt)
  cases hget : t.get key with
  | none =>
    rw [hget] at hmem
    exact List.perm_nil.mp ((List.perm_ext_iff_of_nodup hnodup List.nodup_nil).mpr hmem)
  | some value =>
    rw [hget] at hmem
    exact List.perm_singleton.mp
      ((List.perm_ext_iff_of_nodup hnodup (List.nodup_singleton _)).mpr hmem)

variable [Std.IsLinearOrder α]

theorem sorted_insertEntry (key : List α) (value : β) (h : es.Pairwise fun a b => a.1 < b.1) :
    (insertEntry key value es).Pairwise fun a b => a.1 < b.1 := by
  induction es with
  | nil => exact List.pairwise_singleton _ _
  | cons e es ih =>
    obtain ⟨hhead, htail⟩ := List.pairwise_cons.mp h
    rw [insertEntry]
    split
    · next hlt =>
      refine List.pairwise_cons.mpr ⟨fun e' he' => ?_, h⟩
      rcases List.mem_cons.mp he' with rfl | he'
      · exact hlt
      · exact List.lt_trans hlt (hhead e' he')
    split
    · next heq => exact List.pairwise_cons.mpr ⟨fun e' he' => heq ▸ hhead e' he', htail⟩
    · next hnlt hne =>
      refine List.pairwise_cons.mpr ⟨fun e' he' => ?_, ih htail⟩
      rcases mem_insertEntry he' with rfl | he'
      · rcases Std.lt_trichotomy e.1 key with hlt | heq | hlt
        · exact hlt
        · exact absurd heq.symm hne
        · exact absurd hlt hnlt
      · exact hhead e' he'

/-- An entry is put into a table. -/
def put (t : KvTable α β) (key : List α) (value : β) : KvTable α β :=
  ⟨insertEntry key value t.entries, sorted_insertEntry key value t.sorted⟩

/-- `Put` sets one key. -/
theorem get_put (t : KvTable α β) (key key' : List α) (value : β) :
    (t.put key value).get key' = if key' = key then some value else t.get key' :=
  lookup_insertEntry key key' value t.entries

omit [Std.IsLinearOrder α] in
/-- A key after all the others is put at the end. -/
theorem insertEntry_of_forall_lt {key : List α} {value : β} (h : ∀ e ∈ es, e.1 < key) :
    insertEntry key value es = es ++ [(key, value)] := by
  induction es with
  | nil => rfl
  | cons e es ih =>
    have hlt := h e List.mem_cons_self
    have hne : key ≠ e.1 := fun heq => List.lt_irrefl key (heq ▸ hlt)
    rw [insertEntry, if_neg (List.lt_asymm hlt), if_neg hne,
      ih fun e' he' => h e' (List.mem_cons_of_mem _ he')]
    rfl

theorem entries_foldl_put (t : KvTable α β) (h : (t.entries ++ es).Pairwise fun a b => a.1 < b.1) :
    (es.foldl (fun t e => t.put e.1 e.2) t).entries = t.entries ++ es := by
  induction es generalizing t with
  | nil => exact (List.append_nil _).symm
  | cons e es ih =>
    have hentries : (t.put e.1 e.2).entries = t.entries ++ [e] := by
      apply insertEntry_of_forall_lt
      intro e' he'
      exact (List.pairwise_append.mp h).2.2 e' he' e List.mem_cons_self
    rw [List.foldl_cons, ih, hentries, List.append_assoc]
    · rfl
    · rw [hentries, List.append_assoc]
      exact h

/-- The entries of a table, put one after the other, make it up again. -/
theorem foldl_put_empty (t : KvTable α β) :
    t.entries.foldl (fun t e => t.put e.1 e.2) empty = t := by
  have h := entries_foldl_put (empty : KvTable α β) t.sorted
  generalize t.entries.foldl (fun t e => t.put e.1 e.2) empty = t' at h
  cases t
  cases t'
  congr

end KvTable
