import Mathlib.Data.Prod.Lex
import Zilionixx.TxLookup

/-!
# `evmcore`: remote transactions by price

`txPricedList` of `tx_list.go`: a heap of the remote transactions of the pool, the cheapest at the
top. A transaction that leaves the pool stays in the heap until it comes to the top or the heap is
built again. So the heap may have more than the remote transactions of the pool, and one may be in
it twice, but it never misses one: this is `Covers`, and it is why the cheapest transaction of the
heap that is still in the pool is the cheapest of the pool.
-/

namespace Zilionixx

/-- The order of `priceHeap`: by price, and of two with the same price the one with the higher nonce
is less. -/
def priceKey (tx : Transaction) : ℤ ×ₗ ℤ :=
  toLex (tx.gasPrice, -(tx.nonce.toNat : ℤ))

theorem gasPrice_le_of_priceKey_le {a b : Transaction} (h : priceKey a ≤ priceKey b) :
    a.gasPrice ≤ b.gasPrice := by
  rcases Prod.Lex.le_iff.mp h with hlt | ⟨heq, -⟩
  · exact hlt.le
  · exact heq.le

/-- `txPricedList`, without the pointer to the lookup -/
structure TxPricedList where
  /-- `remotes` -/
  remotes : Array Transaction
  /-- `stales`, which also counts the transactions of local accounts that leave the pool -/
  stales : ℤ

namespace TxPricedList

variable (I : TxInfo) (all : TxLookup)

/-- `newTxPricedList` -/
def new : TxPricedList := ⟨#[], 0⟩

/-- `Put` -/
def put (l : TxPricedList) (tx : Transaction) (isLocal : Bool) : TxPricedList :=
  if isLocal then l else { l with remotes := BinaryHeap.push priceKey l.remotes tx }

/-- `Reheap` -/
def reheap : TxPricedList where
  remotes := BinaryHeap.init priceKey (AssocMap.values all.remotes).toArray
  stales := 0

/-- `Removed` -/
def removed (l : TxPricedList) (count : ℕ) : TxPricedList :=
  if l.stales + count ≤ (l.remotes.size / 4 : ℕ) then { l with stales := l.stales + count }
  else reheap all

/-- If a transaction of the heap has left the remote ones of the pool. -/
def stale (tx : Transaction) : Bool :=
  (all.getRemote (I.hash tx)).isNone

/-- The loop of `Cap`, with the transactions to drop. -/
def capLoop (threshold : ℤ) (heap : Array Transaction) (stales : ℤ) :
    List Transaction × TxPricedList :=
  if hpos : 0 < heap.size then
    if stale I all heap[0] then
      capLoop threshold (BinaryHeap.pop priceKey heap) (stales - 1)
    else if threshold ≤ heap[0].gasPrice then ([], ⟨heap, stales⟩)
    else
      let (drop, rest) := capLoop threshold (BinaryHeap.pop priceKey heap) stales
      (heap[0] :: drop, rest)
  else ([], ⟨heap, stales⟩)
termination_by heap.size
decreasing_by all_goals exact BinaryHeap.size_pop_lt _ heap hpos

/-- `Cap` -/
def cap (l : TxPricedList) (threshold : ℤ) : List Transaction × TxPricedList :=
  capLoop I all threshold l.remotes l.stales

/-- The loop of `Underpriced`. -/
def dropStale (heap : Array Transaction) (stales : ℤ) : TxPricedList :=
  if hpos : 0 < heap.size then
    if stale I all heap[0] then dropStale (BinaryHeap.pop priceKey heap) (stales - 1)
    else ⟨heap, stales⟩
  else ⟨heap, stales⟩
termination_by heap.size
decreasing_by exact BinaryHeap.size_pop_lt _ heap hpos

/-- `Underpriced` -/
def underpriced (l : TxPricedList) (tx : Transaction) : Bool × TxPricedList :=
  let l := dropStale I all l.remotes l.stales
  ((l.remotes[0]?).any fun cheapest => decide (tx.gasPrice ≤ cheapest.gasPrice), l)

/-- The loop of `Discard`, with the transactions to drop and the slots that are still missing. -/
def discardLoop (slots : ℤ) (heap : Array Transaction) (stales : ℤ) :
    (List Transaction × ℤ) × TxPricedList :=
  if hpos : 0 < heap.size ∧ 0 < slots then
    if stale I all heap[0] then
      discardLoop slots (BinaryHeap.pop priceKey heap) (stales - 1)
    else
      let ((drop, missing), rest) :=
        discardLoop (slots - I.numSlots heap[0]) (BinaryHeap.pop priceKey heap) stales
      ((heap[0] :: drop, missing), rest)
  else (([], slots), ⟨heap, stales⟩)
termination_by heap.size
decreasing_by all_goals exact BinaryHeap.size_pop_lt _ heap hpos.1

/-- `Discard`; if there is not enough room and it is not forced, all is put back. -/
def discard (l : TxPricedList) (slots : ℕ) (force : Bool) :
    (List Transaction × Bool) × TxPricedList :=
  let found := discardLoop I all slots l.remotes l.stales
  if 0 < found.1.2 ∧ force = false then
    (([], false), found.1.1.foldl (fun l tx => l.put tx false) found.2)
  else ((found.1.1, true), found.2)

/-! ## The heap has the remote transactions -/

/-- The heap has all remote transactions of the pool, and perhaps others. -/
structure Covers (l : TxPricedList) : Prop where
  heap : BinaryHeap.IsHeap priceKey l.remotes
  mem : ∀ h tx, all.remotes.lookup h = some tx → tx ∈ l.remotes

variable {I all} {l : TxPricedList} {heap : Array Transaction} {tx : Transaction}

theorem covers_new : new.Covers .new where
  heap := BinaryHeap.isHeap_empty
  mem := by
    intro h tx hlookup
    cases hlookup

/-- With fewer remote transactions. -/
theorem Covers.mono {all' : TxLookup} (h : l.Covers all)
    (hsub : ∀ k tx, all'.remotes.lookup k = some tx → all.remotes.lookup k = some tx) :
    l.Covers all' :=
  ⟨h.heap, fun k tx hk => h.mem k tx (hsub k tx hk)⟩

theorem covers_reheap (all : TxLookup) : (reheap all).Covers all where
  heap := BinaryHeap.isHeap_init _
  mem := by
    intro h tx hlookup
    rw [← Array.mem_toList_iff, reheap, (BinaryHeap.perm_init _ _).mem_iff]
    exact List.mem_map_of_mem (AList.mem_lookup_iff.mp hlookup)

theorem Covers.removed (h : l.Covers all) (count : ℕ) : (l.removed all count).Covers all := by
  rw [TxPricedList.removed]
  split
  · exact ⟨h.heap, h.mem⟩
  · exact covers_reheap all

theorem mem_put {tx t : Transaction} :
    t ∈ (l.put tx false).remotes ↔ t = tx ∨ t ∈ l.remotes := by
  change t ∈ BinaryHeap.push priceKey l.remotes tx ↔ _
  rw [← Array.mem_toList_iff, (BinaryHeap.perm_push _ _ _).mem_iff, List.mem_cons,
    Array.mem_toList_iff]

theorem Covers.put (h : l.Covers all) (tx : Transaction) (isLocal : Bool) :
    (l.put tx isLocal).Covers (all.add I tx isLocal) := by
  cases isLocal with
  | true => exact ⟨h.heap, h.mem⟩
  | false =>
    refine ⟨BinaryHeap.isHeap_push h.heap tx, ?_⟩
    intro k t hlookup
    rw [mem_put]
    rcases TxLookup.lookup_remotes_add hlookup with hold | ⟨-, rfl⟩
    · exact .inr (h.mem k t hold)
    · exact .inl rfl

theorem mem_pop (hpos : 0 < heap.size) {t : Transaction} :
    t ∈ heap ↔ t = heap[0] ∨ t ∈ BinaryHeap.pop priceKey heap := by
  rw [← Array.mem_toList_iff, (BinaryHeap.perm_pop priceKey heap hpos).mem_iff, List.mem_cons,
    Array.mem_toList_iff]

theorem not_mem_of_not_pos (hpos : ¬0 < heap.size) (t : Transaction) :
    t ∉ heap := by
  rw [Array.eq_empty_of_size_eq_zero (Nat.eq_zero_of_not_pos hpos)]
  exact Array.not_mem_empty t

/-- A remote transaction is not stale. -/
theorem stale_eq_false (hall : all.WF I) {h : Hash} (hlookup : all.remotes.lookup h = some tx) :
    stale I all tx = false := by
  rw [stale, TxLookup.getRemote, hall.remotes h tx hlookup, hlookup]
  rfl

/-! ## `Cap` -/

theorem capLoop_spec (threshold : ℤ) (stales : ℤ) (hheap : BinaryHeap.IsHeap priceKey heap) :
    BinaryHeap.IsHeap priceKey (capLoop I all threshold heap stales).2.remotes ∧
      (∀ t ∈ heap, stale I all t = false → t ∈ (capLoop I all threshold heap stales).1 ∨
        t ∈ (capLoop I all threshold heap stales).2.remotes) ∧
      (∀ t ∈ (capLoop I all threshold heap stales).2.remotes, threshold ≤ t.gasPrice) ∧
      ∀ t ∈ (capLoop I all threshold heap stales).1,
        stale I all t = false ∧ t.gasPrice < threshold := by
  fun_induction capLoop I all threshold heap stales with
  | case1 heap stales hpos hstale ih =>
    obtain ⟨hrest, hkept, hle, hdrop⟩ := ih (BinaryHeap.isHeap_pop hheap)
    refine ⟨hrest, ?_, hle, hdrop⟩
    intro t ht hlive
    rcases (mem_pop hpos).mp ht with rfl | ht
    · rw [hstale] at hlive
      cases hlive
    · exact hkept t ht hlive
  | case2 heap stales hpos hstale hle =>
    refine ⟨hheap, fun t ht _ => .inr ht, ?_, List.forall_mem_nil _⟩
    intro t ht
    exact hle.trans (gasPrice_le_of_priceKey_le (BinaryHeap.key_head_le_of_mem hheap hpos ht))
  | case3 heap stales hpos hstale hle drop rest hrec ih =>
    have ih := ih (BinaryHeap.isHeap_pop hheap)
    rw [hrec] at ih
    obtain ⟨hrest, hkept, hge, hdrop⟩ := ih
    refine ⟨hrest, ?_, hge, ?_⟩
    · intro t ht hlive
      rcases (mem_pop hpos).mp ht with rfl | ht
      · exact .inl List.mem_cons_self
      · exact (hkept t ht hlive).imp_left (List.mem_cons_of_mem _)
    · rw [List.forall_mem_cons]
      exact ⟨⟨Bool.eq_false_iff.mpr hstale, not_le.mp hle⟩, hdrop⟩
  | case4 heap stales hpos =>
    exact ⟨hheap, fun t ht => absurd ht (not_mem_of_not_pos hpos t),
      fun t ht => absurd ht (not_mem_of_not_pos hpos t), List.forall_mem_nil _⟩

/-- The remote transactions are in the rest of the heap or dropped. -/
theorem Covers.cap (h : l.Covers all) (hall : all.WF I) (threshold : ℤ) {k : Hash}
    (hlookup : all.remotes.lookup k = some tx) :
    tx ∈ (l.cap I all threshold).1 ∨ tx ∈ (l.cap I all threshold).2.remotes :=
  (capLoop_spec threshold l.stales h.heap).2.1 tx (h.mem k tx hlookup) (stale_eq_false hall hlookup)

/-- What stays in the heap is not below the cap, and what is dropped is in the pool and below it. -/
theorem Covers.cap_prices (h : l.Covers all) (threshold : ℤ) :
    (∀ t ∈ (l.cap I all threshold).2.remotes, threshold ≤ t.gasPrice) ∧
      ∀ t ∈ (l.cap I all threshold).1, stale I all t = false ∧ t.gasPrice < threshold :=
  (capLoop_spec threshold l.stales h.heap).2.2

/-! ## `Underpriced` -/

variable (I all) in
theorem dropStale_spec (stales : ℤ) (hheap : BinaryHeap.IsHeap priceKey heap) :
    BinaryHeap.IsHeap priceKey (dropStale I all heap stales).remotes ∧
      ∀ t ∈ heap, stale I all t = false → t ∈ (dropStale I all heap stales).remotes := by
  fun_induction dropStale I all heap stales with
  | case1 heap stales hpos hstale ih =>
    obtain ⟨hrest, hkept⟩ := ih (BinaryHeap.isHeap_pop hheap)
    refine ⟨hrest, ?_⟩
    intro t ht hlive
    rcases (mem_pop hpos).mp ht with rfl | ht
    · rw [hstale] at hlive
      cases hlive
    · exact hkept t ht hlive
  | case2 => exact ⟨hheap, fun t ht _ => ht⟩
  | case3 => exact ⟨hheap, fun t ht _ => ht⟩

theorem Covers.underpriced (h : l.Covers all) (hall : all.WF I) (tx : Transaction) :
    (l.underpriced I all tx).2.Covers all := by
  obtain ⟨hheap, hkept⟩ := dropStale_spec I all l.stales h.heap
  exact ⟨hheap, fun k t hlookup => hkept t (h.mem k t hlookup) (stale_eq_false hall hlookup)⟩

/-- A transaction that is underpriced does not offer more than any remote one. -/
theorem Covers.gasPrice_le_of_underpriced (h : l.Covers all) (hall : all.WF I)
    (hunder : (l.underpriced I all tx).1 = true) {k : Hash} {t : Transaction}
    (hlookup : all.remotes.lookup k = some t) : tx.gasPrice ≤ t.gasPrice := by
  have hcovers := h.underpriced hall tx
  rw [TxPricedList.underpriced, Option.any_eq_true] at hunder
  obtain ⟨cheapest, hhead, hle⟩ := hunder
  obtain ⟨hpos, rfl⟩ := Array.getElem?_eq_some_iff.mp hhead
  exact (of_decide_eq_true hle).trans (gasPrice_le_of_priceKey_le
    (BinaryHeap.key_head_le_of_mem hcovers.heap hpos (hcovers.mem k t hlookup)))

/-! ## `Discard` -/

variable (I all) in
theorem discardLoop_spec (slots : ℤ) (stales : ℤ) (hheap : BinaryHeap.IsHeap priceKey heap) :
    BinaryHeap.IsHeap priceKey (discardLoop I all slots heap stales).2.remotes ∧
      (∀ t ∈ heap, stale I all t = false → t ∈ (discardLoop I all slots heap stales).1.1 ∨
        t ∈ (discardLoop I all slots heap stales).2.remotes) ∧
      (∀ d ∈ (discardLoop I all slots heap stales).1.1, stale I all d = false ∧ d ∈ heap ∧
        ∀ t ∈ (discardLoop I all slots heap stales).2.remotes, priceKey d ≤ priceKey t) ∧
      (∀ t ∈ (discardLoop I all slots heap stales).2.remotes, t ∈ heap) ∧
      ((discardLoop I all slots heap stales).1.2 ≤ 0 ∨
        ∀ t, t ∉ (discardLoop I all slots heap stales).2.remotes) := by
  fun_induction discardLoop I all slots heap stales with
  | case1 slots heap stales hpos hstale ih =>
    obtain ⟨hrest, hkept, hdrop, hsub, hend⟩ := ih (BinaryHeap.isHeap_pop hheap)
    refine ⟨hrest, ?_, ?_, fun t ht => (mem_pop hpos.1).mpr (.inr (hsub t ht)), hend⟩
    · intro t ht hlive
      rcases (mem_pop hpos.1).mp ht with rfl | ht
      · rw [hstale] at hlive
        cases hlive
      · exact hkept t ht hlive
    · intro d hd
      obtain ⟨hlive, hmem, hle⟩ := hdrop d hd
      exact ⟨hlive, (mem_pop hpos.1).mpr (.inr hmem), hle⟩
  | case2 slots heap stales hpos hstale drop missing rest hrec ih =>
    have ih := ih (BinaryHeap.isHeap_pop hheap)
    rw [hrec] at ih
    obtain ⟨hrest, hkept, hdrop, hsub, hend⟩ := ih
    refine ⟨hrest, ?_, ?_, fun t ht => (mem_pop hpos.1).mpr (.inr (hsub t ht)), hend⟩
    · intro t ht hlive
      rcases (mem_pop hpos.1).mp ht with rfl | ht
      · exact .inl List.mem_cons_self
      · exact (hkept t ht hlive).imp_left (List.mem_cons_of_mem _)
    · rw [List.forall_mem_cons]
      refine ⟨⟨Bool.eq_false_iff.mpr hstale, Array.getElem_mem hpos.1, ?_⟩, ?_⟩
      · intro t ht
        exact BinaryHeap.key_head_le_of_mem hheap hpos.1 ((mem_pop hpos.1).mpr (.inr (hsub t ht)))
      · intro d hd
        obtain ⟨hlive, hmem, hle⟩ := hdrop d hd
        exact ⟨hlive, (mem_pop hpos.1).mpr (.inr hmem), hle⟩
  | case3 slots heap stales hpos =>
    refine ⟨hheap, fun t ht _ => .inr ht, List.forall_mem_nil _, fun t ht => ht, ?_⟩
    by_cases hslots : 0 < slots
    · exact .inr (not_mem_of_not_pos fun hsize => hpos ⟨hsize, hslots⟩)
    · exact .inl (not_lt.mp hslots)

theorem mem_putAll {txs : List Transaction} {l : TxPricedList} {t : Transaction} :
    t ∈ (txs.foldl (fun l tx => l.put tx false) l).remotes ↔ t ∈ txs ∨ t ∈ l.remotes := by
  induction txs generalizing l with
  | nil => simp
  | cons tx txs ih =>
    rw [List.foldl_cons, ih, mem_put, List.mem_cons]
    tauto

theorem isHeap_putAll {txs : List Transaction} {l : TxPricedList}
    (h : BinaryHeap.IsHeap priceKey l.remotes) :
    BinaryHeap.IsHeap priceKey (txs.foldl (fun l tx => l.put tx false) l).remotes := by
  induction txs generalizing l with
  | nil => exact h
  | cons tx txs ih => exact ih (BinaryHeap.isHeap_push h tx)

theorem isHeap_discard (h : l.Covers all) (slots : ℕ) (force : Bool) :
    BinaryHeap.IsHeap priceKey (l.discard I all slots force).2.remotes := by
  have hheap := (discardLoop_spec I all slots l.stales h.heap).1
  rw [discard]
  split
  · exact isHeap_putAll hheap
  · exact hheap

/-- The remote transactions are in the rest of the heap or dropped. -/
theorem Covers.discard (h : l.Covers all) (hall : all.WF I) (slots : ℕ) (force : Bool) {k : Hash}
    (hlookup : all.remotes.lookup k = some tx) :
    tx ∈ (l.discard I all slots force).1.1 ∨ tx ∈ (l.discard I all slots force).2.remotes := by
  have hkept := (discardLoop_spec I all slots l.stales h.heap).2.1 tx (h.mem k tx hlookup)
    (stale_eq_false hall hlookup)
  rw [TxPricedList.discard]
  split
  · exact .inr (mem_putAll.mpr hkept)
  · exact hkept

/-- What is dropped is in the pool, and it is not more expensive than what stays in the heap. -/
theorem Covers.discard_drop (h : l.Covers all) (slots : ℕ) (force : Bool) {d : Transaction}
    (hd : d ∈ (l.discard I all slots force).1.1) :
    stale I all d = false ∧
      ∀ t ∈ (l.discard I all slots force).2.remotes, priceKey d ≤ priceKey t := by
  have hdrop := (discardLoop_spec I all slots l.stales h.heap).2.2.1
  rw [TxPricedList.discard] at hd ⊢
  split at hd
  · cases hd
  · rename_i hnot
    rw [if_neg hnot]
    exact ⟨(hdrop d hd).1, (hdrop d hd).2.2⟩

end TxPricedList

/-! ## The lookup and the prices together -/

/-- `all` and `priced` of the pool. -/
structure PricedTxs where
  /-- `all` -/
  all : TxLookup
  /-- `priced` -/
  priced : TxPricedList

/-- What the pool does to both. -/
inductive PriceOp where
  /-- `add` of a transaction -/
  | add (tx : Transaction) (isLocal : Bool)
  /-- `removeTx` of one that is out of bound -/
  | remove (h : Hash)
  /-- some are removed from the lists, and counted together -/
  | removeAll (txs : List Transaction)
  /-- `add`, if an account becomes local -/
  | migrate (accounts : List Address)
  /-- `SetGasPriceWithCap` -/
  | cap (threshold : ℤ)
  /-- `add` asks if a transaction is underpriced -/
  | underpriced (tx : Transaction)
  /-- `add`, if the pool is full -/
  | discard (slots : ℕ) (force : Bool)

namespace PricedTxs

variable (I : TxInfo)

/-- An operation of the pool on the lookup and the prices. -/
def exec (p : PricedTxs) : PriceOp → PricedTxs
  | .add tx isLocal =>
    -- a known transaction is refused
    if (p.all.get (I.hash tx)).isSome then p
    else ⟨p.all.add I tx isLocal, p.priced.put tx isLocal⟩
  | .remove h =>
    if (p.all.get h).isNone then p
    else ⟨p.all.remove I h, p.priced.removed (p.all.remove I h) 1⟩
  | .removeAll txs =>
    ⟨p.all.removeAll I txs, p.priced.removed (p.all.removeAll I txs) txs.length⟩
  | .migrate accounts =>
    let migrated := p.all.remoteToLocals I accounts
    ⟨migrated.2, p.priced.removed migrated.2 migrated.1⟩
  | .cap threshold =>
    let capped := p.priced.cap I p.all threshold
    ⟨p.all.removeAll I capped.1, capped.2⟩
  | .underpriced tx => ⟨p.all, (p.priced.underpriced I p.all tx).2⟩
  | .discard slots force =>
    let discarded := p.priced.discard I p.all slots force
    ⟨p.all.removeAll I discarded.1.1, discarded.2⟩

/-- Operations on a new pool. -/
def run (ops : List PriceOp) : PricedTxs :=
  ops.foldl (exec I) ⟨.new, .new⟩

/-- Every remote transaction has its place in the heap. -/
structure Indexed (p : PricedTxs) : Prop where
  wf : p.all.WF I
  covers : p.priced.Covers p.all

variable {I} {p : PricedTxs}

/-- Transactions that have left the heap leave the lookup. -/
theorem Indexed.drop (h : Indexed I p) {drop : List Transaction} {priced : TxPricedList}
    (hheap : BinaryHeap.IsHeap priceKey priced.remotes)
    (hkept : ∀ k tx, p.all.remotes.lookup k = some tx → tx ∈ drop ∨ tx ∈ priced.remotes) :
    Indexed I ⟨p.all.removeAll I drop, priced⟩ := by
  refine ⟨h.wf.removeAll drop, hheap, fun k tx hlookup => ?_⟩
  obtain ⟨hlookup, hnot⟩ := TxLookup.lookup_remotes_removeAll hlookup
  refine (hkept k tx hlookup).resolve_left fun hdrop => hnot ?_
  rw [← h.wf.remotes k tx hlookup]
  exact List.mem_map_of_mem hdrop

/-- Each operation keeps the lookup and the heap together. -/
theorem Indexed.exec (h : Indexed I p) (op : PriceOp) : Indexed I (p.exec I op) := by
  cases op with
  | add tx isLocal =>
    rw [PricedTxs.exec]
    split
    · exact h
    · rename_i hnew
      rw [Option.not_isSome_iff_eq_none] at hnew
      exact ⟨h.wf.add hnew isLocal, h.covers.put tx isLocal⟩
  | remove k =>
    rw [PricedTxs.exec]
    split
    · exact h
    · exact ⟨h.wf.remove k,
        (h.covers.mono fun _ _ hk => (TxLookup.lookup_remotes_remove hk).1).removed 1⟩
  | removeAll txs =>
    exact ⟨h.wf.removeAll txs,
      (h.covers.mono fun _ _ hk => (TxLookup.lookup_remotes_removeAll hk).1).removed _⟩
  | migrate accounts =>
    exact ⟨h.wf.remoteToLocals accounts,
      (h.covers.mono fun _ _ hk => (TxLookup.lookup_remotes_remoteToLocals.mp hk).1).removed _⟩
  | cap threshold =>
    exact h.drop (TxPricedList.capLoop_spec threshold p.priced.stales h.covers.heap).1
      fun k tx hk => h.covers.cap h.wf threshold hk
  | underpriced tx => exact ⟨h.wf, h.covers.underpriced h.wf tx⟩
  | discard slots force =>
    exact h.drop (TxPricedList.isHeap_discard h.covers slots force)
      fun k tx hk => h.covers.discard h.wf slots force hk

theorem indexed_run (ops : List PriceOp) : Indexed I (run I ops) := by
  have hfold : ∀ (ops : List PriceOp) (p : PricedTxs), Indexed I p →
      Indexed I (ops.foldl (PricedTxs.exec I) p) := by
    intro ops
    induction ops with
    | nil => exact fun p h => h
    | cons op ops ih => exact fun p h => ih _ (h.exec op)
  exact hfold ops _ ⟨TxLookup.wf_new, TxPricedList.covers_new⟩

/-- Local transactions stay if only transactions are removed that the heap takes for remote. -/
theorem Indexed.lookup_locals (h : Indexed I p) {drop : List Transaction}
    (hlive : ∀ d ∈ drop, TxPricedList.stale I p.all d = false) {k : Hash} {tx : Transaction}
    (hlocal : p.all.locals.lookup k = some tx) :
    (p.all.removeAll I drop).locals.lookup k = some tx := by
  rw [TxLookup.lookup_locals_removeAll, hlocal]
  intro hmem
  obtain ⟨d, hd, rfl⟩ := List.mem_map.mp hmem
  have hstale := hlive d hd
  rw [TxPricedList.stale, Option.isNone_eq_false_iff] at hstale
  obtain ⟨t, ht⟩ := Option.isSome_iff_exists.mp hstale
  rw [h.wf.disjoint _ t ht] at hlocal
  cases hlocal

/-- **The heap of prices can be relied on after any operations**, although transactions leave it
late. The cap leaves no remote transaction below it. A transaction is only called underpriced if no
remote one is cheaper. What is discarded is not dearer than any remote one that stays. Neither the
cap nor the discarding touches a local transaction. -/
theorem run_prices (ops : List PriceOp) :
    (∀ threshold k tx, ((run I ops).exec I (.cap threshold)).all.remotes.lookup k = some tx →
        threshold ≤ tx.gasPrice) ∧
      (∀ tx k t, ((run I ops).priced.underpriced I (run I ops).all tx).1 = true →
        (run I ops).all.remotes.lookup k = some t → tx.gasPrice ≤ t.gasPrice) ∧
      (∀ slots force d k t, d ∈ ((run I ops).priced.discard I (run I ops).all slots force).1.1 →
        ((run I ops).exec I (.discard slots force)).all.remotes.lookup k = some t →
        d.gasPrice ≤ t.gasPrice) ∧
      ∀ k tx, (run I ops).all.locals.lookup k = some tx →
        (∀ threshold, ((run I ops).exec I (.cap threshold)).all.locals.lookup k = some tx) ∧
        ∀ slots force,
          ((run I ops).exec I (.discard slots force)).all.locals.lookup k = some tx := by
  have h : Indexed I (run I ops) := indexed_run ops
  have hcap := fun threshold => h.covers.cap_prices (I := I) threshold
  refine ⟨fun threshold k tx hk => ?_, fun tx k t hunder hk => ?_, fun slots force d k t hd hk =>
    ?_,
    fun k tx hk => ⟨fun threshold => ?_, fun slots force => ?_⟩⟩
  · exact (hcap threshold).1 tx ((h.exec (.cap threshold)).covers.mem k tx hk)
  · exact h.covers.gasPrice_le_of_underpriced h.wf hunder hk
  · have hmem := (h.exec (.discard slots force)).covers.mem k t hk
    exact gasPrice_le_of_priceKey_le ((h.covers.discard_drop slots force hd).2 t hmem)
  · exact h.lookup_locals (fun d hd => ((hcap threshold).2 d hd).1) hk
  · exact h.lookup_locals (fun d hd => (h.covers.discard_drop slots force hd).1) hk

end PricedTxs

end Zilionixx
