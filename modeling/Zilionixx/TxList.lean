import Zilionixx.TxSortedMap

/-!
# `evmcore`: the transactions of an account

`txList` of `tx_list.go`: the pending or the queued transactions of one account. To `txSortedMap` it
adds that a transaction is only replaced by one that pays more, that a strict list has no gaps
after a removal, and an upper bound of the costs and of the gas limits of its transactions, with
which `Filter` often does not have to look at them. The bounds are kept in the structure.

Main result: `plain_run`. Whatever is done to a list, it returns what a plain list in the order of
nonces returns, one without a heap, a cache and bounds.
-/

namespace Zilionixx

/-- `Cost` -/
def Transaction.cost (tx : Transaction) : ℤ :=
  tx.gasPrice * (tx.gas.toNat : ℤ) + tx.value

/-- The transactions that `txList.Filter` removes. -/
def exceeds (costLimit : ℤ) (gasLimit : UInt64) (tx : Transaction) : Bool :=
  decide (gasLimit < tx.gas) || decide (costLimit < tx.cost)

theorem exceeds_eq_false {costLimit : ℤ} {gasLimit : UInt64} {tx : Transaction} :
    exceeds costLimit gasLimit tx = false ↔ tx.cost ≤ costLimit ∧ tx.gas ≤ gasLimit := by
  rw [exceeds, Bool.or_eq_false_iff, decide_eq_false_iff_not, decide_eq_false_iff_not,
    UInt64.not_lt, Int.not_lt, and_comm]

/-- The first transaction above the limits. -/
theorem exists_first_exceeds {costLimit : ℤ} {gasLimit : UInt64} {l : List Transaction}
    (h : l.filter (exceeds costLimit gasLimit) ≠ []) :
    ∃ a e b, l = a ++ e :: b ∧ (∀ tx ∈ a, exceeds costLimit gasLimit tx = false) ∧
      exceeds costLimit gasLimit e = true := by
  obtain ⟨tx, htx⟩ := List.exists_mem_of_ne_nil _ h
  rw [List.mem_filter] at htx
  obtain ⟨e, he⟩ := Option.isSome_iff_exists.mp (List.find?_isSome.mpr ⟨tx, htx⟩)
  obtain ⟨hexceeds, a, b, hsplit, ha⟩ := List.find?_eq_some_iff_append.mp he
  exact ⟨a, e, b, hsplit, fun t ht => by simpa using ha t ht, hexceeds⟩

/-- A transaction that may not replace another one with its nonce: it does not offer more, or not
by `priceBump` percent. -/
def underbids (priceBump : UInt64) (old tx : Transaction) : Bool :=
  -- an int64: the conversion and the sum may wrap around
  let percent := 100 + priceBump.toInt64
  decide (tx.gasPrice ≤ old.gasPrice) ||
    decide (tx.gasPrice < percent.toInt * old.gasPrice / 100)

/-- One round of the loop of `Filter` for the lowest nonce. -/
def lowerNonce (lowest : UInt64) (tx : Transaction) : UInt64 :=
  if tx.nonce < lowest then tx.nonce else lowest

/-- `lowest` of `Filter` -/
def lowestNonce (txs : List Transaction) : UInt64 :=
  txs.foldl lowerNonce 0xffffffffffffffff

/-- The lowest nonce is at most each of them. -/
theorem foldl_lowerNonce_le {txs : List Transaction} {n lowest : UInt64}
    (h : lowest ≤ n ∨ ∃ tx ∈ txs, tx.nonce ≤ n) : txs.foldl lowerNonce lowest ≤ n := by
  induction txs generalizing lowest with
  | nil =>
    rcases h with h | ⟨tx, htx, -⟩
    · exact h
    · cases htx
  | cons tx txs ih =>
    refine ih ?_
    simp only [List.mem_cons, exists_eq_or_imp] at h
    rw [lowerNonce]
    grind

/-- It is the greatest lower bound. -/
theorem le_foldl_lowerNonce {txs : List Transaction} {n lowest : UInt64} (hn : n ≤ lowest)
    (h : ∀ tx ∈ txs, n ≤ tx.nonce) : n ≤ txs.foldl lowerNonce lowest := by
  induction txs generalizing lowest with
  | nil => exact hn
  | cons tx txs ih =>
    rw [List.forall_mem_cons] at h
    refine ih ?_ h.2
    rw [lowerNonce]
    split
    · exact h.1
    · exact hn

/-- The lowest nonce is that of a transaction that has no larger one than any. -/
theorem lowestNonce_eq {txs : List Transaction} {tx : Transaction} (htx : tx ∈ txs)
    (hmin : ∀ t ∈ txs, tx.nonce ≤ t.nonce) : lowestNonce txs = tx.nonce := by
  refine UInt64.le_antisymm ?_ (le_foldl_lowerNonce ?_ hmin)
  · exact foldl_lowerNonce_le (.inr ⟨tx, htx, UInt64.le_refl _⟩)
  · rw [UInt64.le_iff_toNat_le]
    exact Nat.le_of_lt_succ tx.nonce.toNat_lt

/-- Without those above the limits and then those above the lowest of these, a list is the part
before the first one above the limits. -/
theorem NonceSorted.filter_above_lowest {costLimit : ℤ} {gasLimit : UInt64}
    {txs removed : List Transaction} (h : NonceSorted txs)
    (hperm : removed.Perm (txs.filter (exceeds costLimit gasLimit))) (hne : removed ≠ []) :
    ((txs.filter fun tx => !exceeds costLimit gasLimit tx).filter fun tx =>
        decide (lowestNonce removed < tx.nonce)) =
        ((txs.dropWhile fun tx => !exceeds costLimit gasLimit tx).filter fun tx =>
          !exceeds costLimit gasLimit tx) ∧
      ((txs.filter fun tx => !exceeds costLimit gasLimit tx).filter fun tx =>
        !decide (lowestNonce removed < tx.nonce)) =
        txs.takeWhile fun tx => !exceeds costLimit gasLimit tx := by
  have hsome : txs.filter (exceeds costLimit gasLimit) ≠ [] := fun hnil =>
    hne (List.perm_nil.mp (hnil ▸ hperm))
  obtain ⟨a, e, b, rfl, ha, he⟩ := exists_first_exceeds hsome
  rw [NonceSorted, List.pairwise_append, List.pairwise_cons] at h
  have hok : ∀ tx ∈ a, (!exceeds costLimit gasLimit tx) = true := by
    intro tx htx
    rw [ha tx htx]
    rfl
  have hnot : ¬(!exceeds costLimit gasLimit e) = true := by
    rw [he]
    exact Bool.false_ne_true
  have hlowest : lowestNonce removed = e.nonce := by
    refine lowestNonce_eq (hperm.mem_iff.mpr (by simp [he])) ?_
    intro t ht
    rw [hperm.mem_iff, List.mem_filter, List.mem_append, List.mem_cons] at ht
    rcases ht with ⟨ht | rfl | ht, hexceeds⟩
    · rw [ha t ht] at hexceeds
      cases hexceeds
    · exact UInt64.le_refl _
    · exact UInt64.le_of_lt (h.2.1.1 t ht)
  have habove : ∀ t ∈ b, decide (e.nonce < t.nonce) = true := fun t ht =>
    decide_eq_true (h.2.1.1 t ht)
  have hbelow : ∀ t ∈ a, decide (e.nonce < t.nonce) = false := fun t ht =>
    decide_eq_false (UInt64.lt_asymm (h.2.2 t ht e List.mem_cons_self))
  rw [hlowest, List.dropWhile_append_of_pos hok, List.takeWhile_append_of_pos hok,
    List.dropWhile_cons_of_neg (p := fun tx => !exceeds costLimit gasLimit tx) hnot,
    List.takeWhile_cons_of_neg (p := fun tx => !exceeds costLimit gasLimit tx) hnot,
    List.filter_append,
    List.filter_cons_of_neg (p := fun tx => !exceeds costLimit gasLimit tx) hnot,
    List.filter_eq_self.mpr hok, List.filter_append, List.filter_append, List.append_nil]
  constructor
  · rw [List.filter_eq_nil_iff.mpr fun t ht => by rw [hbelow t ht]; exact Bool.false_ne_true,
      List.filter_eq_self.mpr fun t ht => habove t (List.mem_of_mem_filter ht), List.nil_append]
  · rw [List.filter_eq_self.mpr fun t ht => by rw [hbelow t ht]; rfl, List.filter_eq_nil_iff.mpr,
      List.append_nil]
    intro t ht
    rw [habove t (List.mem_of_mem_filter ht)]
    exact Bool.false_ne_true

/-- `txList` -/
structure TxList where
  /-- `strict` -/
  strict : Bool
  /-- `txs` -/
  txs : TxSortedMap
  /-- `costcap` -/
  costcap : ℤ
  /-- `gascap` -/
  gascap : UInt64
  wf : txs.WF
  capped : ∀ tx ∈ txs.sorted, tx.cost ≤ costcap ∧ tx.gas ≤ gascap

namespace TxList

/-- `newTxList` -/
def new (strict : Bool) : TxList where
  strict := strict
  txs := .new
  costcap := 0
  gascap := 0
  wf := TxSortedMap.wf_new
  capped := by
    rw [TxSortedMap.sorted_new]
    exact List.forall_mem_nil _

/-- The transactions in the order of nonces. -/
def sorted (l : TxList) : List Transaction :=
  l.txs.sorted

/-- Fewer transactions, under the same bounds. -/
def restrict (l : TxList) (txs : TxSortedMap) (wf : txs.WF)
    (hsub : ∀ tx ∈ txs.sorted, tx ∈ l.txs.sorted) : TxList :=
  { l with
    txs := txs
    wf := wf
    capped := fun tx htx => l.capped tx (hsub tx htx) }

/-- `Overlaps` -/
def overlaps (l : TxList) (tx : Transaction) : Bool :=
  (l.txs.get tx.nonce).isSome

/-- The raised bounds hold with the new transaction. -/
theorem capped_put (l : TxList) (tx : Transaction) :
    ∀ t ∈ (l.txs.put tx).sorted,
      t.cost ≤ (if l.costcap < tx.cost then tx.cost else l.costcap) ∧
        t.gas ≤ if l.gascap < tx.gas then tx.gas else l.gascap := by
  intro t ht
  rw [l.wf.sorted_put, mem_placeTx] at ht
  rcases ht with rfl | ⟨ht, -⟩
  · grind
  · have := l.capped t ht
    grind

/-- `Add`, which returns if the transaction was inserted, and the one that it replaced. -/
def add (l : TxList) (tx : Transaction) (priceBump : UInt64) :
    (Bool × Option Transaction) × TxList :=
  if (l.txs.get tx.nonce).any fun old => underbids priceBump old tx then ((false, none), l)
  else
    ((true, l.txs.get tx.nonce),
      { strict := l.strict
        txs := l.txs.put tx
        costcap := if l.costcap < tx.cost then tx.cost else l.costcap
        gascap := if l.gascap < tx.gas then tx.gas else l.gascap
        wf := l.wf.put tx
        capped := l.capped_put tx })

/-- `Forward` -/
def forward (l : TxList) (threshold : UInt64) : List Transaction × TxList :=
  ((l.txs.forward threshold).1,
    l.restrict (l.txs.forward threshold).2 (l.wf.forward threshold) (by
      intro tx htx
      rw [l.wf.sorted_forward] at htx
      exact List.mem_of_mem_filter htx))

/-- What `Filter` leaves of the transactions, and of these the ones that were invalidated. -/
def filterTxs (l : TxList) (costLimit : ℤ) (gasLimit : UInt64) :
    (List Transaction × List Transaction) × TxSortedMap :=
  let (removed, txs) := l.txs.filter (exceeds costLimit gasLimit)
  if removed.length = 0 then (([], []), txs)
  else if l.strict then
    let (invalids, txs) := txs.filterItems fun tx => decide (lowestNonce removed < tx.nonce)
    ((removed, invalids), txs.reheap)
  else ((removed, []), txs.reheap)

theorem filterTxs_wf (l : TxList) (costLimit : ℤ) (gasLimit : UInt64) :
    (l.filterTxs costLimit gasLimit).2.WF := by
  have hwf := l.wf.filter (exceeds costLimit gasLimit)
  dsimp only [filterTxs]
  split
  · exact hwf
  · split
    · exact .reheap (hwf.keyed.keep _)
    · exact .reheap hwf.keyed

/-- The lowered bounds hold for what is left. -/
theorem filterTxs_capped (l : TxList) (costLimit : ℤ) (gasLimit : UInt64) :
    ∀ tx ∈ (l.filterTxs costLimit gasLimit).2.sorted, tx.cost ≤ costLimit ∧ tx.gas ≤ gasLimit := by
  have hwf := l.wf.filter (exceeds costLimit gasLimit)
  have hrest : ∀ tx ∈ (l.txs.filter (exceeds costLimit gasLimit)).2.sorted,
      tx.cost ≤ costLimit ∧ tx.gas ≤ gasLimit := by
    intro tx htx
    rw [l.wf.sorted_filter, List.mem_filter, Bool.not_eq_true'] at htx
    exact exceeds_eq_false.mp htx.2
  dsimp only [filterTxs]
  split
  · exact hrest
  · split
    · intro tx htx
      rw [TxSortedMap.sorted_reheap, TxSortedMap.sorted_filterItems hwf.keyed] at htx
      exact hrest tx (List.mem_of_mem_filter htx)
    · exact hrest

/-- `Filter`, which returns what it removed for its cost or its gas, and what it removed with it
from a strict list. -/
def filter (l : TxList) (costLimit : ℤ) (gasLimit : UInt64) :
    (List Transaction × List Transaction) × TxList :=
  if l.costcap ≤ costLimit ∧ l.gascap ≤ gasLimit then (([], []), l)
  else
    ((l.filterTxs costLimit gasLimit).1,
      { strict := l.strict
        txs := (l.filterTxs costLimit gasLimit).2
        costcap := costLimit
        gascap := gasLimit
        wf := l.filterTxs_wf costLimit gasLimit
        capped := l.filterTxs_capped costLimit gasLimit })

/-- `Cap` -/
def cap (l : TxList) (threshold : ℕ) : List Transaction × TxList :=
  ((l.txs.cap threshold).1,
    l.restrict (l.txs.cap threshold).2 (l.wf.cap_spec threshold).2.1 (by
      intro tx htx
      rw [(l.wf.cap_spec threshold).2.2] at htx
      exact List.mem_of_mem_take htx))

/-- `Remove`, which returns if the transaction was there, and what it removed with it from a strict
list. -/
def remove (l : TxList) (tx : Transaction) : (Bool × List Transaction) × TxList :=
  let found := (l.txs.remove tx.nonce).1
  let rest := l.restrict (l.txs.remove tx.nonce).2 (l.wf.remove_spec tx.nonce).2.1 (by
    intro tx htx
    rw [(l.wf.remove_spec _).2.2] at htx
    exact List.mem_of_mem_filter htx)
  if found && l.strict then
    ((true, (rest.txs.filter fun t => decide (tx.nonce < t.nonce)).1),
      rest.restrict (rest.txs.filter fun t => decide (tx.nonce < t.nonce)).2 (rest.wf.filter _) (by
        intro tx htx
        rw [rest.wf.sorted_filter] at htx
        exact List.mem_of_mem_filter htx))
  else ((found, []), rest)

/-- `Ready` -/
def ready (l : TxList) (start : UInt64) : List Transaction × TxList :=
  ((l.txs.ready start).1,
    l.restrict (l.txs.ready start).2 (l.wf.ready_spec start).2.1 (by
      intro tx htx
      rw [(l.wf.ready_spec start).2.2] at htx
      exact mem_of_mem_splitReady htx))

/-- `Len` -/
def len (l : TxList) : ℕ :=
  l.txs.len

/-- `Empty` -/
def empty (l : TxList) : Bool :=
  l.len == 0

/-- `Flatten` -/
def flatten (l : TxList) : List Transaction × TxList :=
  (l.txs.flatten.1,
    l.restrict l.txs.flatten.2 l.wf.flatten fun _ htx => l.txs.sorted_flatten ▸ htx)

/-- `LastElement`; `none` is a panic -/
def lastElement (l : TxList) : Option Transaction :=
  l.flatten.1.getLast?

/-! ## The list in the order of nonces -/

section

variable (l : TxList) {tx : Transaction}

theorem get_eq_some {nonce : UInt64} :
    l.txs.get nonce = some tx ↔ tx ∈ l.sorted ∧ tx.nonce = nonce :=
  l.wf.get_eq_some

theorem get_eq_none {nonce : UInt64} :
    l.txs.get nonce = none ↔ ∀ tx ∈ l.sorted, tx.nonce ≠ nonce := by
  rw [Option.eq_none_iff_forall_ne_some]
  simp only [ne_eq, get_eq_some, not_and]

/-- Looking up is looking through the order. -/
theorem get_eq_find? (nonce : UInt64) :
    l.txs.get nonce = l.sorted.find? fun tx => tx.nonce == nonce := by
  cases hfind : l.sorted.find? fun tx => tx.nonce == nonce with
  | none =>
    rw [List.find?_eq_none] at hfind
    exact l.get_eq_none.mpr fun tx htx heq => hfind tx htx (beq_iff_eq.mpr heq)
  | some tx =>
    have hnonce : (tx.nonce == nonce) = true := by simpa using List.find?_some hfind
    exact l.get_eq_some.mpr ⟨List.mem_of_find?_eq_some hfind, beq_iff_eq.mp hnonce⟩

theorem forward_fst (threshold : UInt64) :
    (l.forward threshold).1 = l.sorted.filter fun tx => decide (tx.nonce < threshold) :=
  l.wf.forward_fst threshold

theorem sorted_forward (threshold : UInt64) :
    (l.forward threshold).2.sorted = l.sorted.filter fun tx => !decide (tx.nonce < threshold) :=
  l.wf.sorted_forward threshold

theorem cap_fst (threshold : ℕ) : (l.cap threshold).1 = (l.sorted.drop threshold).reverse :=
  (l.wf.cap_spec threshold).1

theorem sorted_cap (threshold : ℕ) : (l.cap threshold).2.sorted = l.sorted.take threshold :=
  (l.wf.cap_spec threshold).2.2

theorem ready_fst (start : UInt64) : (l.ready start).1 = (splitReady start l.sorted).1 :=
  (l.wf.ready_spec start).1

theorem sorted_ready (start : UInt64) : (l.ready start).2.sorted = (splitReady start l.sorted).2 :=
  (l.wf.ready_spec start).2.2

/-- Nothing above the limits is in the list if its bounds are not. -/
theorem not_exceeds_of_caps {costLimit : ℤ} {gasLimit : UInt64} (hcost : l.costcap ≤ costLimit)
    (hgas : l.gascap ≤ gasLimit) (htx : tx ∈ l.sorted) :
    exceeds costLimit gasLimit tx = false := by
  have hcaps := l.capped tx htx
  exact exceeds_eq_false.mpr ⟨hcaps.1.trans hcost, UInt64.le_trans hcaps.2 hgas⟩

/-- What exceeds the limits is removed. -/
theorem filter_removed (costLimit : ℤ) (gasLimit : UInt64) :
    (l.filter costLimit gasLimit).1.1.Perm (l.sorted.filter (exceeds costLimit gasLimit)) := by
  rw [filter]
  split
  · rename_i hcaps
    rw [List.filter_eq_nil_iff.mpr]
    intro tx htx
    rw [l.not_exceeds_of_caps hcaps.1 hcaps.2 htx]
    exact Bool.false_ne_true
  · have hperm := l.txs.filter_perm (exceeds costLimit gasLimit)
    dsimp only [filterTxs]
    split
    · rename_i hzero
      rw [List.eq_nil_of_length_eq_zero hzero] at hperm
      exact hperm
    · split <;> exact hperm

/-- A list that is not strict keeps the transactions within the limits. -/
theorem filter_of_not_strict (hstrict : l.strict = false) (costLimit : ℤ) (gasLimit : UInt64) :
    (l.filter costLimit gasLimit).1.2 = [] ∧
      (l.filter costLimit gasLimit).2.sorted =
        l.sorted.filter fun tx => !exceeds costLimit gasLimit tx := by
  rw [filter]
  split
  · rename_i hcaps
    rw [List.filter_eq_self.mpr]
    · exact ⟨rfl, rfl⟩
    · intro tx htx
      rw [l.not_exceeds_of_caps hcaps.1 hcaps.2 htx]
      rfl
  · dsimp only [filterTxs, sorted]
    rw [hstrict]
    split <;> exact ⟨rfl, l.wf.sorted_filter _⟩

/-- A strict list is cut at the first transaction that is above the limits. -/
theorem filter_of_strict (hstrict : l.strict = true) (costLimit : ℤ) (gasLimit : UInt64) :
    (l.filter costLimit gasLimit).1.2.Perm
        ((l.sorted.dropWhile fun tx => !exceeds costLimit gasLimit tx).filter
          fun tx => !exceeds costLimit gasLimit tx) ∧
      (l.filter costLimit gasLimit).2.sorted =
        l.sorted.takeWhile fun tx => !exceeds costLimit gasLimit tx := by
  -- there is nothing to cut if no transaction is above the limits
  have hnone : (∀ tx ∈ l.sorted, exceeds costLimit gasLimit tx = false) →
      (l.sorted.dropWhile fun tx => !exceeds costLimit gasLimit tx) = [] ∧
        (l.sorted.takeWhile fun tx => !exceeds costLimit gasLimit tx) = l.sorted := by
    intro hall
    refine ⟨List.dropWhile_eq_nil_iff.mpr ?_, List.takeWhile_eq_self_iff.mpr ?_⟩ <;>
    · intro tx htx
      rw [hall tx htx]
      rfl
  rw [filter]
  split
  · rename_i hcaps
    obtain ⟨hdrop, htake⟩ := hnone fun tx htx => l.not_exceeds_of_caps hcaps.1 hcaps.2 htx
    rw [hdrop, htake]
    exact ⟨List.Perm.nil, rfl⟩
  · have hperm := l.txs.filter_perm (exceeds costLimit gasLimit)
    have hsorted := l.wf.sorted_filter (exceeds costLimit gasLimit)
    have hkeyed := (l.wf.filter (exceeds costLimit gasLimit)).keyed
    dsimp only [filterTxs, sorted] at hnone ⊢
    rw [hstrict]
    split
    · rename_i hzero
      rw [List.eq_nil_of_length_eq_zero hzero, List.nil_perm, List.filter_eq_nil_iff] at hperm
      obtain ⟨hdrop, htake⟩ := hnone fun tx htx => Bool.eq_false_iff.mpr (hperm tx htx)
      rw [hdrop, htake]
      refine ⟨List.Perm.nil, hsorted.trans (List.filter_eq_self.mpr ?_)⟩
      intro tx htx
      rw [Bool.eq_false_iff.mpr (hperm tx htx)]
      rfl
    · rename_i hsome
      obtain ⟨habove, hbelow⟩ := l.wf.nonceSorted.filter_above_lowest hperm
        fun hnil => hsome (congrArg List.length hnil)
      rw [← habove, ← hbelow, ← hsorted]
      exact ⟨TxSortedMap.filterItems_perm _ _, TxSortedMap.sorted_filterItems hkeyed _⟩

theorem remove_found :
    (l.remove tx).1.1 = true ↔ ∃ t ∈ l.sorted, t.nonce = tx.nonce := by
  rw [sorted, ← (l.wf.remove_spec tx.nonce).1, remove]
  split
  · rename_i hboth
    exact iff_of_true rfl (Bool.and_eq_true_iff.mp hboth).1
  · rfl

/-- An unknown nonce removes nothing. -/
theorem remove_of_not_found (h : ∀ t ∈ l.sorted, t.nonce ≠ tx.nonce) :
    (l.remove tx).1 = (false, []) ∧ (l.remove tx).2.sorted = l.sorted := by
  have hspec := l.wf.remove_spec tx.nonce
  have hfound : (l.txs.remove tx.nonce).1 = false :=
    Bool.eq_false_iff.mpr fun hfound => by
      obtain ⟨t, ht, heq⟩ := hspec.1.mp hfound
      exact h t ht heq
  rw [remove, hfound]
  refine ⟨rfl, hspec.2.2.trans (List.filter_eq_self.mpr ?_)⟩
  intro t ht
  exact bne_iff_ne.mpr (h t ht)

/-- Only a strict list invalidates others. -/
theorem remove_of_not_strict (hstrict : l.strict = false) (tx : Transaction) :
    (l.remove tx).1.2 = [] ∧
      (l.remove tx).2.sorted = l.sorted.filter fun t => t.nonce != tx.nonce := by
  rw [remove, hstrict, Bool.and_false]
  exact ⟨rfl, (l.wf.remove_spec tx.nonce).2.2⟩

/-- From a strict list, all after the transaction are removed with it. -/
theorem remove_of_strict (hstrict : l.strict = true) (hfound : ∃ t ∈ l.sorted, t.nonce = tx.nonce) :
    (l.remove tx).1.2.Perm (l.sorted.filter fun t => decide (tx.nonce < t.nonce)) ∧
      (l.remove tx).2.sorted = l.sorted.filter fun t => decide (t.nonce < tx.nonce) := by
  have hspec := l.wf.remove_spec tx.nonce
  rw [remove, hstrict, hspec.1.mpr hfound, Bool.and_self, if_pos rfl]
  refine ⟨(TxSortedMap.filter_perm _ _).trans (.of_eq ?_),
    (TxSortedMap.WF.sorted_filter (l.restrict _ hspec.2.1 _).wf _).trans ?_⟩
  · change ((l.txs.remove tx.nonce).2.sorted.filter _) = _
    rw [hspec.2.2, List.filter_filter]
    refine List.filter_congr fun t _ => ?_
    grind
  · change ((l.txs.remove tx.nonce).2.sorted.filter _) = _
    rw [hspec.2.2, List.filter_filter]
    refine List.filter_congr fun t _ => ?_
    grind

theorem flatten_fst : l.flatten.1 = l.sorted :=
  l.wf.flatten_fst

theorem sorted_flatten : l.flatten.2.sorted = l.sorted :=
  l.txs.sorted_flatten

end

end TxList

/-! ## The plain list -/

/-- What is done to the transactions of an account. -/
inductive ListOp where
  | add (tx : Transaction)
  | forward (threshold : UInt64)
  | filter (costLimit : ℤ) (gasLimit : UInt64)
  | cap (threshold : ℕ)
  | remove (tx : Transaction)
  | ready (start : UInt64)
  | flatten

/-- What is returned. -/
structure ListOut where
  /-- `Add` inserted the transaction, `Remove` found it -/
  done : Bool
  /-- the transactions that are replaced, removed or listed -/
  txs : List Transaction
  /-- the transactions that a strict list loses in addition -/
  invalids : List Transaction

/-- `filter` ranges over a map, so what it removes is in no order. -/
def ListOut.Agrees (a b : ListOut) : ListOp → Prop
  | .filter _ _ => a.done = b.done ∧ a.txs.Perm b.txs ∧ a.invalids.Perm b.invalids
  | .remove _ => a.done = b.done ∧ a.txs = b.txs ∧ a.invalids.Perm b.invalids
  | _ => a = b

/-- An operation on a list. -/
def TxList.exec (priceBump : UInt64) (l : TxList) : ListOp → ListOut × TxList
  | .add tx => (⟨(l.add tx priceBump).1.1, (l.add tx priceBump).1.2.toList, []⟩,
      (l.add tx priceBump).2)
  | .forward threshold => (⟨true, (l.forward threshold).1, []⟩, (l.forward threshold).2)
  | .filter costLimit gasLimit =>
    (⟨true, (l.filter costLimit gasLimit).1.1, (l.filter costLimit gasLimit).1.2⟩,
      (l.filter costLimit gasLimit).2)
  | .cap threshold => (⟨true, (l.cap threshold).1, []⟩, (l.cap threshold).2)
  | .remove tx => (⟨(l.remove tx).1.1, [], (l.remove tx).1.2⟩, (l.remove tx).2)
  | .ready start => (⟨true, (l.ready start).1, []⟩, (l.ready start).2)
  | .flatten => (⟨true, l.flatten.1, []⟩, l.flatten.2)

/-- The operations one after another, with what each of them returns. -/
def TxList.run (priceBump : UInt64) (l : TxList) : List ListOp → List (ListOp × ListOut) × TxList
  | [] => ([], l)
  | op :: ops =>
    let (out, l) := l.exec priceBump op
    let (outs, l) := l.run priceBump ops
    ((op, out) :: outs, l)

/-- The transactions of an account in the order of nonces, and nothing else. -/
structure PlainList where
  /-- if there may be no gap after a removal -/
  strict : Bool
  /-- the transactions -/
  txs : List Transaction

namespace PlainList

variable (p : PlainList)

/-- A transaction is inserted unless it underbids the one with its nonce. -/
def add (tx : Transaction) (priceBump : UInt64) : ListOut × PlainList :=
  let old := p.txs.find? fun t => t.nonce == tx.nonce
  if old.any fun old => underbids priceBump old tx then (⟨false, [], []⟩, p)
  else (⟨true, old.toList, []⟩, { p with txs := placeTx tx p.txs })

/-- The transactions above the limits are removed; a strict list ends at the first of them. -/
def filter (costLimit : ℤ) (gasLimit : UInt64) : ListOut × PlainList :=
  let within := fun tx => !exceeds costLimit gasLimit tx
  let removed := p.txs.filter (exceeds costLimit gasLimit)
  if p.strict then
    (⟨true, removed, (p.txs.dropWhile within).filter within⟩,
      { p with txs := p.txs.takeWhile within })
  else (⟨true, removed, []⟩, { p with txs := p.txs.filter within })

/-- The transaction with this nonce is removed; a strict list ends there. -/
def remove (nonce : UInt64) : ListOut × PlainList :=
  let found := p.txs.any fun t => t.nonce == nonce
  if found && p.strict then
    (⟨true, [], p.txs.filter fun t => decide (nonce < t.nonce)⟩,
      { p with txs := p.txs.filter fun t => decide (t.nonce < nonce) })
  else (⟨found, [], []⟩, { p with txs := p.txs.filter fun t => t.nonce != nonce })

/-- An operation on the plain list. -/
def exec (priceBump : UInt64) : ListOp → ListOut × PlainList
  | .add tx => p.add tx priceBump
  | .forward threshold =>
    (⟨true, p.txs.filter fun tx => decide (tx.nonce < threshold), []⟩,
      { p with txs := p.txs.filter fun tx => !decide (tx.nonce < threshold) })
  | .filter costLimit gasLimit => p.filter costLimit gasLimit
  | .cap threshold =>
    (⟨true, (p.txs.drop threshold).reverse, []⟩, { p with txs := p.txs.take threshold })
  | .remove tx => p.remove tx.nonce
  | .ready start =>
    (⟨true, (splitReady start p.txs).1, []⟩, { p with txs := (splitReady start p.txs).2 })
  | .flatten => (⟨true, p.txs, []⟩, p)

/-- The operations one after another, with what each of them returns. -/
def run (priceBump : UInt64) (p : PlainList) : List ListOp → List (ListOp × ListOut) × PlainList
  | [] => ([], p)
  | op :: ops =>
    let (out, p) := p.exec priceBump op
    let (outs, p) := p.run priceBump ops
    ((op, out) :: outs, p)

end PlainList

namespace TxList

/-- The plain list that a list stands for. -/
def plain (l : TxList) : PlainList :=
  ⟨l.strict, l.sorted⟩

/-- `Add` is that of the plain list. -/
theorem plain_add (l : TxList) (tx : Transaction) (priceBump : UInt64) :
    (l.plain.add tx priceBump) =
      (⟨(l.add tx priceBump).1.1, (l.add tx priceBump).1.2.toList, []⟩,
        (l.add tx priceBump).2.plain) := by
  rw [PlainList.add, plain, ← l.get_eq_find?, add]
  split
  · rfl
  · rw [plain, sorted, sorted, l.wf.sorted_put]

theorem strict_filter (l : TxList) (costLimit : ℤ) (gasLimit : UInt64) :
    (l.filter costLimit gasLimit).2.strict = l.strict := by
  rw [filter]
  split <;> rfl

theorem strict_remove (l : TxList) (tx : Transaction) : (l.remove tx).2.strict = l.strict := by
  rw [remove]
  split <;> rfl

/-- So is `Filter`, up to order. -/
theorem agrees_filter (l : TxList) (costLimit : ℤ) (gasLimit : UInt64) :
    ListOut.Agrees ⟨true, (l.filter costLimit gasLimit).1.1, (l.filter costLimit gasLimit).1.2⟩
        (l.plain.filter costLimit gasLimit).1 (.filter costLimit gasLimit) ∧
      (l.filter costLimit gasLimit).2.plain = (l.plain.filter costLimit gasLimit).2 := by
  have hremoved := l.filter_removed costLimit gasLimit
  have hplain : (l.filter costLimit gasLimit).2.plain =
      ⟨l.strict, (l.filter costLimit gasLimit).2.sorted⟩ :=
    congrArg (PlainList.mk · _) (l.strict_filter costLimit gasLimit)
  rw [hplain, PlainList.filter, plain]
  cases hstrict : l.strict with
  | false =>
    obtain ⟨hinvalids, hsorted⟩ := l.filter_of_not_strict hstrict costLimit gasLimit
    rw [hinvalids, hsorted]
    exact ⟨⟨rfl, hremoved, List.Perm.nil⟩, rfl⟩
  | true =>
    obtain ⟨hinvalids, hsorted⟩ := l.filter_of_strict hstrict costLimit gasLimit
    rw [hsorted]
    exact ⟨⟨rfl, hremoved, hinvalids⟩, rfl⟩

/-- So is `Remove`, up to order. -/
theorem agrees_remove (l : TxList) (tx : Transaction) :
    ListOut.Agrees ⟨(l.remove tx).1.1, [], (l.remove tx).1.2⟩ (l.plain.remove tx.nonce).1
        (.remove tx) ∧
      (l.remove tx).2.plain = (l.plain.remove tx.nonce).2 := by
  have hplain : (l.remove tx).2.plain = ⟨l.strict, (l.remove tx).2.sorted⟩ :=
    congrArg (PlainList.mk · _) (l.strict_remove tx)
  rw [hplain, PlainList.remove, plain]
  by_cases hfound : ∃ t ∈ l.sorted, t.nonce = tx.nonce
  · have hany : (l.sorted.any fun t => t.nonce == tx.nonce) = true := by
      simpa using hfound
    rw [hany, l.remove_found.mpr hfound]
    cases hstrict : l.strict with
    | false =>
      obtain ⟨hinvalids, hsorted⟩ := l.remove_of_not_strict hstrict tx
      rw [hinvalids, hsorted]
      exact ⟨⟨rfl, rfl, List.Perm.nil⟩, rfl⟩
    | true =>
      obtain ⟨hinvalids, hsorted⟩ := l.remove_of_strict hstrict hfound
      rw [hsorted]
      exact ⟨⟨rfl, rfl, hinvalids⟩, rfl⟩
  · have hnot : ∀ t ∈ l.sorted, t.nonce ≠ tx.nonce := fun t ht heq => hfound ⟨t, ht, heq⟩
    have hany : (l.sorted.any fun t => t.nonce == tx.nonce) = false := by
      simpa using hnot
    obtain ⟨hout, hsorted⟩ := l.remove_of_not_found hnot
    rw [hany, hout, hsorted, List.filter_eq_self.mpr fun t ht => bne_iff_ne.mpr (hnot t ht)]
    exact ⟨⟨rfl, rfl, List.Perm.nil⟩, rfl⟩

/-- One operation. -/
theorem agrees_exec (priceBump : UInt64) (l : TxList) (op : ListOp) :
    (l.exec priceBump op).1.Agrees (l.plain.exec priceBump op).1 op ∧
      (l.exec priceBump op).2.plain = (l.plain.exec priceBump op).2 := by
  cases op with
  | add tx =>
    rw [PlainList.exec, l.plain_add]
    exact ⟨rfl, rfl⟩
  | forward threshold =>
    exact ⟨congrArg (ListOut.mk true · []) (l.forward_fst threshold),
      congrArg (PlainList.mk l.strict) (l.sorted_forward threshold)⟩
  | filter costLimit gasLimit => exact l.agrees_filter costLimit gasLimit
  | cap threshold =>
    exact ⟨congrArg (ListOut.mk true · []) (l.cap_fst threshold),
      congrArg (PlainList.mk l.strict) (l.sorted_cap threshold)⟩
  | remove tx => exact l.agrees_remove tx
  | ready start =>
    exact ⟨congrArg (ListOut.mk true · []) (l.ready_fst start),
      congrArg (PlainList.mk l.strict) (l.sorted_ready start)⟩
  | flatten =>
    exact ⟨congrArg (ListOut.mk true · []) l.flatten_fst,
      congrArg (PlainList.mk l.strict) l.sorted_flatten⟩

/-- **A list of transactions is a list in the order of nonces.** Whatever is done to a list with a
heap, a cached order and bounds of the costs and of the gas, each operation returns what it returns
on the plain list of the transactions, up to the order in which `Filter` and `Remove` give what they
remove, and the transactions are the same in the end. -/
theorem plain_run (priceBump : UInt64) (l : TxList) (ops : List ListOp) :
    List.Forall₂ (fun a b => a.1 = b.1 ∧ a.2.Agrees b.2 a.1) (l.run priceBump ops).1
        (l.plain.run priceBump ops).1 ∧
      (l.run priceBump ops).2.plain = (l.plain.run priceBump ops).2 := by
  induction ops generalizing l with
  | nil => exact ⟨List.Forall₂.nil, rfl⟩
  | cons op ops ih =>
    obtain ⟨hout, hplain⟩ := l.agrees_exec priceBump op
    obtain ⟨houts, hend⟩ := ih (l.exec priceBump op).2
    rw [hplain] at houts hend
    exact ⟨List.Forall₂.cons ⟨rfl, hout⟩ houts, hend⟩

end TxList

end Zilionixx
