import Zilionixx.AssocMap
import Zilionixx.BinaryHeap
import Zilionixx.Transaction

/-!
# `evmcore`: transactions by nonce

`txSortedMap` of `tx_list.go`: the transactions of one account by their nonces, with a heap of the
nonces and, if there is one, a list of the transactions in the order of nonces. What it is for is
this list, `sorted`: every operation does to the list what its comment says, and the heap and the
cached list go along.

A map of Go is an association list of `AssocMap`. As nothing is assumed of its order, what is proved
holds for every order in which a loop ranges over the map.
-/

namespace Zilionixx

/-- The transactions of an account by nonce. -/
abbrev NonceMap := AssocMap.Map UInt64 Transaction

namespace NonceMap

open AssocMap (values)

/-- `sort.Sort(types.TxByNonce(…))` of the transactions. -/
def sorted (items : NonceMap) : List Transaction :=
  (values items).mergeSort fun a b => decide (a.nonce ≤ b.nonce)

/-- The transactions with a property; the others are deleted. -/
def keep (p : Transaction → Bool) (items : NonceMap) : NonceMap :=
  AssocMap.keep (fun _ tx => p tx) items

/-- Every transaction is at its nonce. -/
def Keyed (items : NonceMap) : Prop :=
  ∀ n tx, items.lookup n = some tx → tx.nonce = n

variable {items : NonceMap}

/-- Each transaction is stored under its nonce. -/
theorem map_nonce_values (h : items.Keyed) : (values items).map (·.nonce) = items.keys := by
  rw [values, List.map_map]
  refine List.map_congr_left ?_
  rintro ⟨n, tx⟩ hmem
  exact h n tx (AList.mem_lookup_iff.mpr hmem)

/-- The stored transactions are found by their nonces. -/
theorem mem_values (h : items.Keyed) {tx : Transaction} :
    tx ∈ values items ↔ items.lookup tx.nonce = some tx := by
  rw [values, List.mem_map]
  constructor
  · rintro ⟨⟨n, tx⟩, hmem, rfl⟩
    have hlookup := AList.mem_lookup_iff.mpr hmem
    rwa [← h n tx hlookup] at hlookup
  · intro hlookup
    exact ⟨⟨tx.nonce, tx⟩, AList.mem_lookup_iff.mp hlookup, rfl⟩

/-- Sorting keeps the transactions. -/
theorem perm_sorted (items : NonceMap) : items.sorted.Perm (values items) :=
  List.mergeSort_perm _ _

theorem mem_sorted (h : items.Keyed) {tx : Transaction} :
    tx ∈ items.sorted ↔ items.lookup tx.nonce = some tx :=
  items.perm_sorted.mem_iff.trans (mem_values h)

theorem perm_map_nonce_sorted (h : items.Keyed) :
    (items.sorted.map (·.nonce)).Perm items.keys := by
  rw [← map_nonce_values h]
  exact items.perm_sorted.map _

end NonceMap

/-! ## Lists in the order of nonces -/

/-- In the order of nonces, each nonce once. -/
def NonceSorted (txs : List Transaction) : Prop :=
  txs.Pairwise fun a b => a.nonce < b.nonce

variable {txs : List Transaction}

theorem NonceSorted.nodup_nonce (h : NonceSorted txs) :
    (txs.map (·.nonce)).Nodup := by
  rw [List.Nodup, List.pairwise_map]
  exact h.imp UInt64.ne_of_lt

theorem NonceSorted.nodup (h : NonceSorted txs) : txs.Nodup :=
  h.nodup_nonce.of_map _

/-- The transactions below a threshold come first. -/
theorem NonceSorted.filter_append_filter (h : NonceSorted txs) (threshold : UInt64) :
    txs.filter (fun tx => decide (tx.nonce < threshold)) ++
      txs.filter (fun tx => !decide (tx.nonce < threshold)) = txs := by
  induction txs with
  | nil => rfl
  | cons tx txs ih =>
    rw [NonceSorted, List.pairwise_cons] at h
    by_cases hlt : tx.nonce < threshold
    · rw [List.filter_cons_of_pos (by simpa using hlt),
        List.filter_cons_of_neg (by simpa using hlt),
        List.cons_append, ih h.2]
    · have hge : ∀ t ∈ tx :: txs, ¬t.nonce < threshold := by
        intro t ht hbelow
        rcases List.mem_cons.mp ht with rfl | ht
        · exact hlt hbelow
        · exact hlt (UInt64.lt_trans (h.1 t ht) hbelow)
      rw [List.filter_eq_nil_iff.mpr fun t ht => by simpa using hge t ht,
        List.filter_eq_self.mpr fun t ht => by simpa using hge t ht, List.nil_append]

/-- A transaction at its place in the list, instead of the one with its nonce. -/
def placeTx (tx : Transaction) (txs : List Transaction) : List Transaction :=
  txs.filter (fun t => decide (t.nonce < tx.nonce)) ++
    tx :: txs.filter fun t => decide (tx.nonce < t.nonce)

/-- A placed transaction takes the place of its nonce. -/
theorem mem_placeTx {tx t : Transaction} :
    t ∈ placeTx tx txs ↔ t = tx ∨ t ∈ txs ∧ t.nonce ≠ tx.nonce := by
  have hne : t.nonce ≠ tx.nonce ↔ t.nonce < tx.nonce ∨ tx.nonce < t.nonce := by grind
  rw [placeTx, List.mem_append, List.mem_cons, List.mem_filter, List.mem_filter,
    decide_eq_true_eq, decide_eq_true_eq, hne]
  tauto

/-- Placing keeps the order. -/
theorem NonceSorted.placeTx (h : NonceSorted txs) (tx : Transaction) :
    NonceSorted (placeTx tx txs) := by
  rw [NonceSorted, Zilionixx.placeTx, List.pairwise_append, List.pairwise_cons]
  refine ⟨h.filter _, ⟨?_, h.filter _⟩, ?_⟩
  · intro t ht
    exact of_decide_eq_true (List.mem_filter.mp ht).2
  · intro a ha b hb
    have hlt := of_decide_eq_true (List.mem_filter.mp ha).2
    rcases List.mem_cons.mp hb with rfl | hb
    · exact hlt
    · exact UInt64.lt_trans hlt (of_decide_eq_true (List.mem_filter.mp hb).2)

/-- The run of consecutive nonces from `next` on, and what is after it. -/
def splitRun (next : UInt64) : List Transaction → List Transaction × List Transaction
  | [] => ([], [])
  | tx :: txs =>
    if tx.nonce = next then
      let (run, rest) := splitRun (next + 1) txs
      (tx :: run, rest)
    else ([], tx :: txs)

/-- The transactions that are ready if `start` is the next nonce: the first run, unless it starts
above `start`. -/
def splitReady (start : UInt64) : List Transaction → List Transaction × List Transaction
  | [] => ([], [])
  | tx :: txs => if start < tx.nonce then ([], tx :: txs) else splitRun tx.nonce (tx :: txs)

/-- A run and the rest are all there was. -/
theorem splitRun_append (next : UInt64) (txs : List Transaction) :
    (splitRun next txs).1 ++ (splitRun next txs).2 = txs := by
  induction txs generalizing next with
  | nil => rfl
  | cons tx txs ih =>
    rw [splitRun]
    split
    · exact congrArg (tx :: ·) (ih (next + 1))
    · rfl

theorem splitReady_append (start : UInt64) (txs : List Transaction) :
    (splitReady start txs).1 ++ (splitReady start txs).2 = txs := by
  cases txs with
  | nil => rfl
  | cons tx txs =>
    rw [splitReady]
    split
    · rfl
    · exact splitRun_append _ _

theorem mem_of_mem_splitReady {start : UInt64} {tx : Transaction}
    (h : tx ∈ (splitReady start txs).2) : tx ∈ txs := by
  rw [← splitReady_append start txs]
  exact List.mem_append_right _ h

namespace NonceMap

variable {items : NonceMap}

/-- No nonce occurs twice. -/
theorem nonceSorted_sorted (h : items.Keyed) : NonceSorted items.sorted := by
  have hle : items.sorted.Pairwise fun a b => decide (a.nonce ≤ b.nonce) = true := by
    refine List.pairwise_mergeSort ?_ ?_ _
    · intro a b c hab hbc
      rw [decide_eq_true_eq] at hab hbc ⊢
      exact UInt64.le_trans hab hbc
    · intro a b
      rw [Bool.or_eq_true, decide_eq_true_eq, decide_eq_true_eq]
      exact UInt64.le_total _ _
  have hne : (items.sorted.map (·.nonce)).Nodup :=
    (perm_map_nonce_sorted h).nodup_iff.mpr items.keys_nodup
  rw [List.Nodup, List.pairwise_map] at hne
  refine hle.imp₂ ?_ hne
  intro a b hab hne
  exact UInt64.lt_of_le_of_ne (of_decide_eq_true hab) hne

/-- There is one list in the order of nonces with the transactions of the map. -/
theorem sorted_eq (h : items.Keyed) {txs : List Transaction} (hsorted : NonceSorted txs)
    (hmem : ∀ tx, tx ∈ txs ↔ items.lookup tx.nonce = some tx) : items.sorted = txs := by
  have hperm : items.sorted.Perm txs := by
    rw [List.perm_ext_iff_of_nodup (nonceSorted_sorted h).nodup hsorted.nodup]
    intro tx
    rw [mem_sorted h, hmem]
  refine hperm.eq_of_pairwise ?_ (nonceSorted_sorted h) hsorted
  intro a b _ _ hab hba
  exact absurd (UInt64.lt_trans hab hba) (UInt64.lt_irrefl _)

theorem Keyed.erase (h : items.Keyed) (n : UInt64) : Keyed (items.erase n) := by
  intro k tx hk
  by_cases hkn : k = n
  · rw [hkn, AList.lookup_erase] at hk
    cases hk
  · rw [AList.lookup_erase_ne hkn] at hk
    exact h k tx hk

/-- Transactions are put under their nonces. -/
theorem Keyed.insert (h : items.Keyed) (tx : Transaction) :
    Keyed (items.insert tx.nonce tx) := by
  intro k tx' hk
  by_cases hkn : k = tx.nonce
  · subst hkn
    rw [AList.lookup_insert] at hk
    rw [← Option.some.inj hk]
  · rw [AList.lookup_insert_ne hkn] at hk
    exact h k tx' hk

theorem Keyed.keep (h : items.Keyed) (p : Transaction → Bool) : Keyed (items.keep p) := by
  intro n tx hn
  rw [NonceMap.keep, AssocMap.lookup_keep, Option.filter_eq_some_iff] at hn
  exact h n tx hn.1

/-- The order of what is kept stays. -/
theorem sorted_keep (h : items.Keyed) (p : Transaction → Bool) :
    (items.keep p).sorted = items.sorted.filter p := by
  refine sorted_eq (h.keep p) ((nonceSorted_sorted h).filter p) ?_
  intro tx
  rw [List.mem_filter, mem_sorted h, keep, AssocMap.lookup_keep, Option.filter_eq_some_iff]

/-- One nonce leaves the order. -/
theorem sorted_erase (h : items.Keyed) (n : UInt64) :
    NonceMap.sorted (items.erase n) = items.sorted.filter fun tx => tx.nonce != n := by
  refine sorted_eq (h.erase n) ((nonceSorted_sorted h).filter _) ?_
  intro tx
  rw [List.mem_filter, mem_sorted h, bne_iff_ne]
  by_cases hn : tx.nonce = n
  · rw [hn, AList.lookup_erase]
    simp
  · rw [AList.lookup_erase_ne hn]
    simp [hn]

/-- One transaction is placed in the order. -/
theorem sorted_insert (h : items.Keyed) (tx : Transaction) :
    NonceMap.sorted (items.insert tx.nonce tx) = placeTx tx items.sorted := by
  refine sorted_eq (h.insert tx) ((nonceSorted_sorted h).placeTx tx) ?_
  intro t
  rw [mem_placeTx, mem_sorted h]
  by_cases hn : t.nonce = tx.nonce
  · rw [hn, AList.lookup_insert, Option.some.injEq]
    simp [eq_comm]
  · rw [AList.lookup_insert_ne hn]
    have hne : t ≠ tx := fun heq => hn (heq ▸ rfl)
    simp [hn, hne]

end NonceMap

/-! ## `txSortedMap` -/

/-- `txSortedMap` -/
structure TxSortedMap where
  /-- `items` -/
  items : NonceMap
  /-- `index`, a heap of nonces -/
  index : Array UInt64
  /-- `cache`; `none` is `nil` -/
  cache : Option (List Transaction)

namespace TxSortedMap

/-- `newTxSortedMap` -/
def new : TxSortedMap := ⟨∅, #[], none⟩

/-- `Get` -/
def get (m : TxSortedMap) (nonce : UInt64) : Option Transaction :=
  m.items.lookup nonce

/-- `Put` -/
def put (m : TxSortedMap) (tx : Transaction) : TxSortedMap where
  items := m.items.insert tx.nonce tx
  index := if (m.get tx.nonce).isNone then BinaryHeap.push UInt64.toNat m.index tx.nonce
    else m.index
  cache := none

/-- The loop of `Forward`. -/
def forwardLoop (threshold : UInt64) (items : NonceMap) (index : Array UInt64) :
    List Transaction × NonceMap × Array UInt64 :=
  if hpos : 0 < index.size then
    if index[0] < threshold then
      let (removed, rest) := forwardLoop threshold (items.erase index[0])
        (BinaryHeap.pop UInt64.toNat index)
      ((items.lookup index[0]).toList ++ removed, rest)
    else ([], items, index)
  else ([], items, index)
termination_by index.size
decreasing_by exact BinaryHeap.size_pop_lt _ index hpos

/-- `Forward` -/
def forward (m : TxSortedMap) (threshold : UInt64) : List Transaction × TxSortedMap :=
  let (removed, items, index) := forwardLoop threshold m.items m.index
  (removed, ⟨items, index, m.cache.map fun cache => cache.drop removed.length⟩)

/-- `reheap` -/
def reheap (m : TxSortedMap) : TxSortedMap where
  items := m.items
  index := BinaryHeap.init UInt64.toNat m.items.keys.toArray
  cache := none

/-- `filter`, after which the heap still has all nonces -/
def filterItems (m : TxSortedMap) (p : Transaction → Bool) : List Transaction × TxSortedMap :=
  let removed := (AssocMap.values m.items).filter p
  (removed,
    { m with
      items := m.items.keep fun tx => !p tx
      cache := if 0 < removed.length then none else m.cache })

/-- `Filter` -/
def filter (m : TxSortedMap) (p : Transaction → Bool) : List Transaction × TxSortedMap :=
  let (removed, m) := m.filterItems p
  (removed, if 0 < removed.length then m.reheap else m)

/-- The loop of `Cap`: the transactions with these nonces are deleted. -/
def takeAll : List UInt64 → NonceMap → List Transaction × NonceMap
  | [], items => ([], items)
  | nonce :: nonces, items =>
    let (drops, rest) := takeAll nonces (items.erase nonce)
    ((items.lookup nonce).toList ++ drops, rest)

/-- `Cap`: the nonces from the last one down to the one at `threshold` are dropped. -/
def cap (m : TxSortedMap) (threshold : ℕ) : List Transaction × TxSortedMap :=
  if m.items.entries.length ≤ threshold then ([], m)
  else
    let index := m.index.toList.mergeSort fun a b => decide (a ≤ b)
    let (drops, items) := takeAll (index.drop threshold).reverse m.items
    (drops,
      { items := items
        index := BinaryHeap.init UInt64.toNat (index.take threshold).toArray
        cache := m.cache.map fun cache => cache.take (cache.length - drops.length) })

/-- `Remove` -/
def remove (m : TxSortedMap) (nonce : UInt64) : Bool × TxSortedMap :=
  if (m.items.lookup nonce).isNone then (false, m)
  else
    (true,
      { items := m.items.erase nonce
        index := match m.index.findIdx? (· == nonce) with
          | some i => BinaryHeap.remove UInt64.toNat m.index i
          | none => m.index
        cache := none })

/-- The loop of `Ready`. -/
def readyLoop (next : UInt64) (items : NonceMap) (index : Array UInt64) :
    List Transaction × NonceMap × Array UInt64 :=
  if hpos : 0 < index.size then
    if index[0] = next then
      let (ready, rest) := readyLoop (next + 1) (items.erase next)
        (BinaryHeap.pop UInt64.toNat index)
      ((items.lookup next).toList ++ ready, rest)
    else ([], items, index)
  else ([], items, index)
termination_by index.size
decreasing_by exact BinaryHeap.size_pop_lt _ index hpos

/-- `Ready` -/
def ready (m : TxSortedMap) (start : UInt64) : List Transaction × TxSortedMap :=
  if hpos : 0 < m.index.size then
    if start < m.index[0] then ([], m)
    else
      let (ready, items, index) := readyLoop m.index[0] m.items m.index
      (ready, ⟨items, index, none⟩)
  else ([], m)

/-- `Len` -/
def len (m : TxSortedMap) : ℕ :=
  m.items.entries.length

/-- `flatten` and `Flatten`, which copies what it returns -/
def flatten (m : TxSortedMap) : List Transaction × TxSortedMap :=
  match m.cache with
  | some cache => (cache, m)
  | none => (m.items.sorted, { m with cache := some m.items.sorted })

/-- `LastElement`; `none` is a panic -/
def lastElement (m : TxSortedMap) : Option Transaction × TxSortedMap :=
  let (cache, m) := m.flatten
  (cache.getLast?, m)

/-! ## What the map keeps to -/

/-- The heap has the nonces of the map. -/
structure Indexed (items : NonceMap) (index : Array UInt64) : Prop where
  keyed : items.Keyed
  heap : BinaryHeap.IsHeap UInt64.toNat index
  perm : index.toList.Perm items.keys

/-- The heap has the nonces of the map, and the cached list, if there is one, is right. -/
structure WF (m : TxSortedMap) : Prop extends Indexed m.items m.index where
  cache : ∀ txs, m.cache = some txs → txs = m.items.sorted

section

variable {items : NonceMap} {index : Array UInt64}

theorem Indexed.perm_sorted (h : Indexed items index) :
    index.toList.Perm (items.sorted.map (·.nonce)) :=
  h.perm.trans (NonceMap.perm_map_nonce_sorted h.keyed).symm

/-- The heap has the nonces of the map. -/
theorem Indexed.mem_index (h : Indexed items index) {n : UInt64} :
    n ∈ index ↔ n ∈ items := by
  rw [← Array.mem_toList_iff, h.perm.mem_iff, AList.mem_keys]

theorem Indexed.length_sorted (h : Indexed items index) : items.sorted.length = index.size := by
  rw [← Array.length_toList, h.perm_sorted.length_eq, List.length_map]

theorem Indexed.sorted_eq_nil (h : Indexed items index) (hpos : ¬0 < index.size) :
    items.sorted = [] :=
  List.eq_nil_of_length_eq_zero (by rw [h.length_sorted]; omega)

/-- The first nonce of the heap is the first one of the list. -/
theorem Indexed.sorted_eq_cons (h : Indexed items index) (hpos : 0 < index.size) :
    ∃ tx, tx.nonce = index[0] ∧ items.lookup index[0] = some tx ∧
      items.sorted = tx :: NonceMap.sorted (items.erase index[0]) := by
  have hsorted := NonceMap.nonceSorted_sorted h.keyed
  obtain ⟨tx, txs, htxs⟩ := List.exists_cons_of_length_pos (h.length_sorted ▸ hpos)
  rw [htxs, NonceSorted, List.pairwise_cons] at hsorted
  have hmem : tx.nonce ∈ index := by
    rw [← Array.mem_toList_iff, h.perm_sorted.mem_iff, htxs]
    exact List.mem_cons_self
  have hhead : index[0] ∈ items.sorted.map (·.nonce) := by
    rw [← h.perm_sorted.mem_iff, Array.mem_toList_iff]
    exact Array.getElem_mem hpos
  -- the first nonce of the heap is at most that of `tx`, which is the smallest of the list
  have hnonce : tx.nonce = index[0] := by
    have hle := BinaryHeap.key_head_le_of_mem h.heap hpos hmem
    rw [htxs, List.map_cons, List.mem_cons, List.mem_map] at hhead
    rcases hhead with heq | ⟨t, ht, heq⟩
    · exact heq.symm
    · have hlt := hsorted.1 t ht
      rw [heq, UInt64.lt_iff_toNat_lt] at hlt
      omega
  refine ⟨tx, hnonce, ?_, ?_⟩
  · rw [← hnonce, ← NonceMap.mem_sorted h.keyed, htxs]
    exact List.mem_cons_self
  · rw [NonceMap.sorted_erase h.keyed, ← hnonce, htxs, List.filter_cons_of_neg (by simp),
      List.filter_eq_self.mpr]
    intro t ht
    exact bne_iff_ne.mpr (UInt64.ne_of_lt (hsorted.1 t ht)).symm

/-- The lowest nonce leaves map and heap together. -/
theorem Indexed.pop (h : Indexed items index) (hpos : 0 < index.size) :
    Indexed (items.erase index[0]) (BinaryHeap.pop UInt64.toNat index) where
  keyed := h.keyed.erase _
  heap := BinaryHeap.isHeap_pop h.heap
  perm := by
    rw [AList.keys_erase]
    have hcons := (BinaryHeap.perm_pop UInt64.toNat index hpos).symm.trans h.perm
    exact (List.cons_perm_iff_perm_erase.mp hcons).2

/-- The loop of `Forward` takes what is below the threshold. -/
theorem Indexed.forwardLoop (h : Indexed items index) (threshold : UInt64) :
    (forwardLoop threshold items index).1 =
        items.sorted.filter (fun tx => decide (tx.nonce < threshold)) ∧
      Indexed (forwardLoop threshold items index).2.1 (forwardLoop threshold items index).2.2 ∧
      (forwardLoop threshold items index).2.1.sorted =
        items.sorted.filter (fun tx => !decide (tx.nonce < threshold)) := by
  fun_induction TxSortedMap.forwardLoop threshold items index with
  | case1 items index hpos hlt removed rest hrec ih =>
    obtain ⟨tx, hnonce, hlookup, hsorted⟩ := h.sorted_eq_cons hpos
    have ih := ih (h.pop hpos)
    rw [hrec] at ih
    rw [← hnonce] at hlt
    rw [hsorted, hlookup, List.filter_cons_of_pos (by simpa using hlt),
      List.filter_cons_of_neg (by simpa using hlt)]
    exact ⟨congrArg (tx :: ·) ih.1, ih.2⟩
  | case2 items index hpos hlt =>
    -- the first nonce is not below the threshold, so none is
    obtain ⟨tx, hnonce, -, hsorted⟩ := h.sorted_eq_cons hpos
    have hge : ∀ t ∈ items.sorted, ¬t.nonce < threshold := by
      have hpairs := NonceMap.nonceSorted_sorted h.keyed
      rw [hsorted, NonceSorted, List.pairwise_cons] at hpairs
      rw [← hnonce] at hlt
      intro t ht hbelow
      rw [hsorted] at ht
      rcases List.mem_cons.mp ht with rfl | ht
      · exact hlt hbelow
      · exact hlt (UInt64.lt_trans (hpairs.1 t ht) hbelow)
    rw [List.filter_eq_nil_iff.mpr fun t ht => by simpa using hge t ht,
      List.filter_eq_self.mpr fun t ht => by simpa using hge t ht]
    exact ⟨rfl, h, rfl⟩
  | case3 items index hpos =>
    rw [h.sorted_eq_nil hpos]
    exact ⟨rfl, h, rfl⟩

/-- The loop of `Ready` takes the run of nonces. -/
theorem Indexed.readyLoop (h : Indexed items index) (next : UInt64) :
    (readyLoop next items index).1 = (splitRun next items.sorted).1 ∧
      Indexed (readyLoop next items index).2.1 (readyLoop next items index).2.2 ∧
      (readyLoop next items index).2.1.sorted = (splitRun next items.sorted).2 := by
  fun_induction TxSortedMap.readyLoop next items index with
  | case1 items index hpos ready rest hrec ih =>
    obtain ⟨tx, hnonce, hlookup, hsorted⟩ := h.sorted_eq_cons hpos
    have ih := ih (h.pop hpos)
    rw [hrec] at ih
    rw [hsorted, hlookup, splitRun, if_pos hnonce]
    exact ⟨congrArg (tx :: ·) ih.1, ih.2⟩
  | case2 next items index hpos hne =>
    obtain ⟨tx, hnonce, -, hsorted⟩ := h.sorted_eq_cons hpos
    rw [hsorted, splitRun, if_neg (hnonce ▸ hne)]
    exact ⟨rfl, h, rfl⟩
  | case3 next items index hpos =>
    rw [h.sorted_eq_nil hpos]
    exact ⟨rfl, h, rfl⟩

theorem Indexed.of_perm_sorted (hkeyed : items.Keyed)
    (hheap : BinaryHeap.IsHeap UInt64.toNat index)
    (hperm : index.toList.Perm (items.sorted.map (·.nonce))) : Indexed items index :=
  ⟨hkeyed, hheap, hperm.trans (NonceMap.perm_map_nonce_sorted hkeyed)⟩

/-- Deleting the last transactions of the list, from the last one. -/
theorem takeAll_reverse (hkeyed : items.Keyed) {kept doomed : List Transaction}
    (hsorted : items.sorted = kept ++ doomed) :
    (takeAll (doomed.map (·.nonce)).reverse items).1 = doomed.reverse ∧
      (takeAll (doomed.map (·.nonce)).reverse items).2.Keyed ∧
      (takeAll (doomed.map (·.nonce)).reverse items).2.sorted = kept := by
  induction doomed using List.reverseRecOn generalizing items with
  | nil => exact ⟨rfl, hkeyed, hsorted.trans (List.append_nil kept)⟩
  | append_singleton doomed tx ih =>
    have hlookup : items.lookup tx.nonce = some tx := by
      rw [← NonceMap.mem_sorted hkeyed, hsorted]
      simp
    have herase : NonceMap.sorted (items.erase tx.nonce) = kept ++ doomed := by
      have hpairs := NonceMap.nonceSorted_sorted hkeyed
      rw [hsorted, ← List.append_assoc, NonceSorted, List.pairwise_append] at hpairs
      rw [NonceMap.sorted_erase hkeyed, hsorted, ← List.append_assoc, List.filter_append,
        List.filter_cons_of_neg (by simp), List.filter_nil, List.append_nil,
          List.filter_eq_self.mpr]
      intro t ht
      exact bne_iff_ne.mpr (UInt64.ne_of_lt (hpairs.2.2 t ht tx List.mem_cons_self))
    have ih := ih (hkeyed.erase tx.nonce) herase
    rw [List.map_append, List.reverse_append, List.reverse_append]
    simp only [List.map_cons, List.map_nil, List.reverse_singleton, List.singleton_append, takeAll,
      hlookup]
    exact ⟨congrArg (tx :: ·) ih.1, ih.2⟩

/-- Sorted, the nonces of the heap are those of the list. -/
theorem Indexed.mergeSort_index (h : Indexed items index) :
    index.toList.mergeSort (fun a b => decide (a ≤ b)) = items.sorted.map (·.nonce) := by
  refine @List.Perm.eq_of_pairwise _ (fun a b => decide (a ≤ b) = true) _ _ ?_ ?_ ?_
    ((List.mergeSort_perm _ _).trans h.perm_sorted)
  · intro a b _ _ hab hba
    exact UInt64.le_antisymm (of_decide_eq_true hab) (of_decide_eq_true hba)
  · refine List.pairwise_mergeSort ?_ ?_ _
    · intro a b c hab hbc
      exact decide_eq_true (UInt64.le_trans (of_decide_eq_true hab) (of_decide_eq_true hbc))
    · intro a b
      rw [Bool.or_eq_true, decide_eq_true_eq, decide_eq_true_eq]
      exact UInt64.le_total _ _
  · rw [List.pairwise_map]
    exact (NonceMap.nonceSorted_sorted h.keyed).imp fun hlt => decide_eq_true (UInt64.le_of_lt hlt)

end

/-! ## The operations -/

/-- The transactions in the order of nonces. -/
def sorted (m : TxSortedMap) : List Transaction :=
  m.items.sorted

/-- An empty map is well formed. -/
theorem wf_new : new.WF where
  keyed := by
    intro n tx h
    cases h
  heap := BinaryHeap.isHeap_empty
  perm := List.Perm.refl _
  cache := by
    intro txs h
    cases h

theorem sorted_new : new.sorted = [] :=
  List.mergeSort_nil

variable {m : TxSortedMap}

theorem WF.nonceSorted (h : m.WF) : NonceSorted m.sorted :=
  NonceMap.nonceSorted_sorted h.keyed

/-- `Get` finds what is in the order. -/
theorem WF.get_eq_some (h : m.WF) {nonce : UInt64} {tx : Transaction} :
    m.get nonce = some tx ↔ tx ∈ m.sorted ∧ tx.nonce = nonce := by
  rw [sorted, NonceMap.mem_sorted h.keyed, get]
  constructor
  · intro hget
    have hnonce := h.keyed nonce tx hget
    exact ⟨hnonce ▸ hget, hnonce⟩
  · rintro ⟨hget, rfl⟩
    exact hget

theorem WF.len_eq (h : m.WF) : m.len = m.sorted.length := by
  rw [sorted, h.length_sorted, ← Array.length_toList, h.perm.length_eq, AList.keys, List.keys,
    List.length_map, len]

/-- `Put` keeps the heap and drops the cache. -/
theorem WF.put (h : m.WF) (tx : Transaction) : (m.put tx).WF where
  keyed := h.keyed.insert tx
  heap := by
    dsimp only [TxSortedMap.put]
    split
    · exact BinaryHeap.isHeap_push h.heap _
    · exact h.heap
  perm := by
    dsimp only [TxSortedMap.put]
    rw [AList.keys_insert, TxSortedMap.get]
    split
    · rename_i hnone
      have hnot : tx.nonce ∉ m.items.keys := by
        rw [← AList.mem_keys, ← AList.lookup_eq_none]
        exact Option.isNone_iff_eq_none.mp hnone
      rw [List.erase_of_not_mem hnot]
      exact (BinaryHeap.perm_push _ _ _).trans (h.perm.cons _)
    · rename_i hsome
      have hmem : tx.nonce ∈ m.items.keys := by
        rw [← AList.mem_keys, ← AList.lookup_isSome, ← Option.not_isNone, Bool.not_eq_true']
        exact Bool.eq_false_iff.mpr hsome
      exact h.perm.trans (List.perm_cons_erase hmem)
  cache := by
    intro txs hcache
    cases hcache

/-- `Put` places its transaction. -/
theorem WF.sorted_put (h : m.WF) (tx : Transaction) :
    (m.put tx).sorted = placeTx tx m.sorted :=
  NonceMap.sorted_insert h.keyed tx

/-- `Forward` returns what is below the threshold. -/
theorem WF.forward_fst (h : m.WF) (threshold : UInt64) :
    (m.forward threshold).1 = m.sorted.filter fun tx => decide (tx.nonce < threshold) :=
  (h.forwardLoop threshold).1

/-- It leaves the others. -/
theorem WF.sorted_forward (h : m.WF) (threshold : UInt64) :
    (m.forward threshold).2.sorted =
      m.sorted.filter fun tx => !decide (tx.nonce < threshold) :=
  (h.forwardLoop threshold).2.2

/-- The cache is shortened with the map. -/
theorem WF.forward (h : m.WF) (threshold : UInt64) : (m.forward threshold).2.WF where
  toIndexed := (h.forwardLoop threshold).2.1
  cache := by
    intro txs hcache
    obtain ⟨cache, hsome, rfl⟩ := Option.map_eq_some_iff.mp hcache
    obtain rfl := h.cache cache hsome
    have hsorted := h.sorted_forward threshold
    have hfst := h.forward_fst threshold
    have happend := h.nonceSorted.filter_append_filter threshold
    rw [← hfst, ← hsorted] at happend
    change m.sorted.drop (m.forward threshold).1.length = (m.forward threshold).2.sorted
    conv_lhs => rw [← happend, List.drop_left]

theorem sorted_reheap (m : TxSortedMap) : m.reheap.sorted = m.sorted := rfl

/-- A new heap has all nonces. -/
theorem WF.reheap (h : m.items.Keyed) : m.reheap.WF where
  keyed := h
  heap := BinaryHeap.isHeap_init _
  perm := BinaryHeap.perm_init _ _
  cache := by
    intro txs hcache
    cases hcache

/-- The first filter keeps the map right, but not the heap. -/
theorem filterItems_perm (m : TxSortedMap) (p : Transaction → Bool) :
    (m.filterItems p).1.Perm (m.sorted.filter p) :=
  (m.items.perm_sorted.filter p).symm

theorem sorted_filterItems (h : m.items.Keyed) (p : Transaction → Bool) :
    (m.filterItems p).2.sorted = m.sorted.filter fun tx => !p tx :=
  NonceMap.sorted_keep h _

/-- `Filter` returns what matches, in any order. -/
theorem filter_perm (m : TxSortedMap) (p : Transaction → Bool) :
    (m.filter p).1.Perm (m.sorted.filter p) :=
  filterItems_perm m p

/-- It leaves what does not match. -/
theorem WF.sorted_filter (h : m.WF) (p : Transaction → Bool) :
    (m.filter p).2.sorted = m.sorted.filter fun tx => !p tx := by
  rw [← sorted_filterItems h.keyed p]
  dsimp only [TxSortedMap.filter]
  split <;> rfl

/-- The heap is only built again if something matches. -/
theorem WF.filter (h : m.WF) (p : Transaction → Bool) : (m.filter p).2.WF := by
  dsimp only [TxSortedMap.filter]
  split
  · exact WF.reheap (h.keyed.keep _)
  · rename_i hnone
    -- nothing is removed, so nothing changes
    have hkeep : (m.filterItems p).2 = m := by
      have hall : ∀ e ∈ m.items.entries, (!p e.2) = true := by
        intro e he
        have hnil := List.eq_nil_of_length_eq_zero (Nat.eq_zero_of_not_pos hnone)
        simpa using List.filter_eq_nil_iff.mp hnil e.2 (List.mem_map_of_mem he)
      have hitems : (m.items.keep fun tx => !p tx) = m.items :=
        AList.ext (List.filter_eq_self.mpr hall)
      rw [filterItems] at hnone ⊢
      rw [if_neg hnone, hitems]
    rw [hkeep]
    exact h

/-- `Cap` takes the highest nonces, from the top. -/
theorem WF.cap_spec (h : m.WF) (threshold : ℕ) :
    (m.cap threshold).1 = (m.sorted.drop threshold).reverse ∧ (m.cap threshold).2.WF ∧
      (m.cap threshold).2.sorted = m.sorted.take threshold := by
  rw [TxSortedMap.cap]
  split
  · rename_i hle
    have hlen : m.sorted.length ≤ threshold := h.len_eq ▸ hle
    rw [List.drop_eq_nil_of_le hlen, List.take_of_length_le hlen]
    exact ⟨rfl, h, rfl⟩
  · rename_i hgt
    have hlen : threshold < m.sorted.length := h.len_eq ▸ Nat.lt_of_not_le hgt
    obtain ⟨hdrops, hkeyed, hsorted⟩ := takeAll_reverse h.keyed
      (List.take_append_drop threshold m.sorted).symm
    dsimp only
    rw [h.mergeSort_index, ← List.map_drop, ← List.map_take]
    refine ⟨hdrops, ⟨.of_perm_sorted hkeyed (BinaryHeap.isHeap_init _) ?_, ?_⟩, hsorted⟩
    · exact hsorted.symm ▸ BinaryHeap.perm_init _ _
    · intro txs hcache
      obtain ⟨cache, hsome, rfl⟩ := Option.map_eq_some_iff.mp hcache
      obtain rfl := h.cache cache hsome
      have hkept : m.sorted.length - (m.sorted.length - threshold) = threshold := by omega
      refine Eq.trans ?_ hsorted.symm
      rw [← sorted, hdrops, List.length_reverse, List.length_drop, hkept]

/-- `Remove` says whether the nonce was there. -/
theorem WF.remove_spec (h : m.WF) (nonce : UInt64) :
    ((m.remove nonce).1 = true ↔ ∃ tx ∈ m.sorted, tx.nonce = nonce) ∧ (m.remove nonce).2.WF ∧
      (m.remove nonce).2.sorted = m.sorted.filter fun tx => tx.nonce != nonce := by
  have hget : m.get nonce = none ↔ ¬∃ tx ∈ m.sorted, tx.nonce = nonce := by
    rw [Option.eq_none_iff_forall_ne_some]
    simp only [ne_eq, h.get_eq_some, not_exists, not_and]
  rw [TxSortedMap.remove]
  split
  · rename_i hnone
    have hnot := hget.mp (Option.isNone_iff_eq_none.mp hnone)
    refine ⟨by simpa using hnot, h, ?_⟩
    rw [List.filter_eq_self.mpr]
    intro tx htx
    exact bne_iff_ne.mpr fun heq => hnot ⟨tx, htx, heq⟩
  · rename_i hsome
    have hmem : nonce ∈ m.index := by
      rw [h.mem_index, ← AList.lookup_isSome, ← Option.not_isNone, Bool.not_eq_true']
      exact Bool.eq_false_iff.mpr hsome
    refine ⟨?_, ⟨⟨h.keyed.erase nonce, ?_, ?_⟩, fun _ hcache => nomatch hcache⟩,
      NonceMap.sorted_erase h.keyed nonce⟩
    · refine iff_of_true rfl (not_not.mp fun hnot => hsome ?_)
      exact Option.isNone_iff_eq_none.mpr (hget.mpr hnot)
    · dsimp only
      split
      · exact BinaryHeap.isHeap_remove h.heap _
      · exact h.heap
    · dsimp only
      split
      · rename_i i hi
        obtain ⟨hlt, heq, -⟩ := Array.findIdx?_eq_some_iff_getElem.mp hi
        rw [beq_iff_eq] at heq
        have hcons := (BinaryHeap.perm_remove UInt64.toNat m.index hlt).symm.trans h.perm
        rw [heq] at hcons
        rw [AList.keys_erase]
        exact (List.cons_perm_iff_perm_erase.mp hcons).2
      · rename_i hi
        have hne := Array.findIdx?_eq_none_iff.mp hi nonce hmem
        simp at hne

/-- `Ready` takes the run that starts low enough. -/
theorem WF.ready_spec (h : m.WF) (start : UInt64) :
    (m.ready start).1 = (splitReady start m.sorted).1 ∧ (m.ready start).2.WF ∧
      (m.ready start).2.sorted = (splitReady start m.sorted).2 := by
  rw [ready]
  split
  · rename_i hpos
    obtain ⟨tx, hnonce, -, hsorted⟩ := h.sorted_eq_cons hpos
    rw [sorted, hsorted, splitReady, hnonce, ← hsorted]
    split
    · exact ⟨rfl, h, rfl⟩
    · obtain ⟨hready, hindexed, hrest⟩ := h.readyLoop m.index[0]
      exact ⟨hready, ⟨hindexed, fun _ hcache => nomatch hcache⟩, hrest⟩
  · rename_i hpos
    have hnil : m.sorted = [] := h.sorted_eq_nil hpos
    rw [hnil]
    exact ⟨rfl, h, rfl⟩

/-- `Flatten` returns the order. -/
theorem WF.flatten_fst (h : m.WF) : m.flatten.1 = m.sorted := by
  rw [TxSortedMap.flatten]
  split
  · rename_i cache hcache
    exact h.cache cache hcache
  · rfl

theorem sorted_flatten (m : TxSortedMap) : m.flatten.2.sorted = m.sorted := by
  rw [TxSortedMap.flatten]
  split <;> rfl

/-- It fills the cache with the order. -/
theorem WF.flatten (h : m.WF) : m.flatten.2.WF := by
  rw [TxSortedMap.flatten]
  split
  · exact h
  · exact ⟨h.toIndexed, fun txs hcache => (Option.some.inj hcache).symm⟩

end TxSortedMap

end Zilionixx
