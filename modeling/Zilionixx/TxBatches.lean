import Mathlib.Algebra.GroupWithZero.Nat
import Zilionixx.GreedySplit

/-!
# `SplitTransactions`: the batches in which transactions are sent

`gossip/peer.go`. A message has at most 250 transactions, and transactions of 2 MiB or so. The size
of a transaction is a parameter, and sizes are added up without bound: the sum is kept only as long
as it is below 2 MiB.
-/

namespace Zilionixx

/-- Target maximum size of returned events, or other data. -/
def softResponseLimitSize : ℕ := 2 * 1024 * 1024

/-- Target maximum number of events or transactions to request or respond. -/
def softLimitItems : ℕ := 250

variable {τ σ : Type}

/-- The inner loop of `SplitTransactions`, from an index on: the length of the batch. -/
def batchLength (size : τ → ℕ) : List τ → ℕ → ℕ → ℕ
  | [], i, _ => i
  | tx :: txs, i, batchSize =>
    let batchSize := batchSize + (size tx + 1024)
    if batchSize ≥ softResponseLimitSize ∨ i + 1 ≥ softLimitItems then i + 1
    else batchLength size txs (i + 1) batchSize

theorem lt_batchLength (size : τ → ℕ) {txs : List τ} (h : txs ≠ []) (i batchSize : ℕ) :
    i < batchLength size txs i batchSize := by
  induction txs generalizing i batchSize with
  | nil => exact absurd rfl h
  | cons tx txs ih =>
    rw [batchLength]
    split
    · exact Nat.lt_succ_self i
    · by_cases hnil : txs = []
      · rw [hnil, batchLength]
        exact Nat.lt_succ_self i
      · exact Nat.lt_of_succ_lt (ih hnil _ _)

/-- `SplitTransactions`; the state is that of the callback -/
def splitTransactions (size : τ → ℕ) (fn : List τ → σ → σ) (txs : List τ) (s : σ) : σ :=
  -- divide big batch into smaller ones
  if txs.length > 0 then
    let batch := txs.take (batchLength size txs 0 0)
    splitTransactions size fn (txs.drop batch.length) (fn batch s)
  else s
termination_by txs.length
decreasing_by
  rename_i hlen
  have hpos := lt_batchLength size (List.length_pos_iff.mp hlen) 0 0
  rw [List.length_drop, List.length_take]
  omega

/-! ## The batches -/

/-- What the inner loop counts: the transactions and their size. -/
def addTx (size : τ → ℕ) (load : ℕ × ℕ) (tx : τ) : ℕ × ℕ := (load.1 + 1, load.2 + (size tx + 1024))

/-- Where the inner loop ends. -/
def FullBatch (load : ℕ × ℕ) : Prop := load.2 ≥ softResponseLimitSize ∨ load.1 ≥ softLimitItems

instance : DecidablePred FullBatch := fun _ => inferInstanceAs (Decidable (_ ∨ _))

/-- The size of a batch. -/
def totalSize (size : τ → ℕ) (batch : List τ) : ℕ := (batch.map fun tx => size tx + 1024).sum

/-- The batches that `SplitTransactions` makes. -/
def txBatches (size : τ → ℕ) (txs : List τ) : List (List τ) :=
  GreedySplit.split (addTx size) FullBatch (0, 0) txs

theorem foldl_addTx (size : τ → ℕ) (load : ℕ × ℕ) (batch : List τ) :
    batch.foldl (addTx size) load = (load.1 + batch.length, load.2 + totalSize size batch) := by
  induction batch generalizing load with
  | nil => rfl
  | cons tx batch ih =>
    rw [List.foldl_cons, ih, addTx, List.length_cons, totalSize, totalSize, List.map_cons,
      List.sum_cons]
    dsimp only
    congr 1
    · omega
    · omega

theorem batchLength_eq (size : τ → ℕ) (txs : List τ) (i batchSize : ℕ) :
    batchLength size txs i batchSize =
      i + GreedySplit.count (addTx size) FullBatch (i, batchSize) txs := by
  induction txs generalizing i batchSize with
  | nil => rfl
  | cons tx txs ih =>
    rw [batchLength, GreedySplit.count]
    have hends : FullBatch (addTx size (i, batchSize) tx) ↔
        batchSize + (size tx + 1024) ≥ softResponseLimitSize ∨ i + 1 ≥ softLimitItems := Iff.rfl
    by_cases hfull : FullBatch (addTx size (i, batchSize) tx)
    · rw [if_pos hfull, if_pos (hends.mp hfull)]
    · rw [if_neg hfull, if_neg (hends.not.mp hfull), ih, addTx, Nat.add_assoc,
        Nat.add_comm 1]

/-- `SplitTransactions` calls `fn` with the batches, one after the other. -/
theorem splitTransactions_eq (size : τ → ℕ) (fn : List τ → σ → σ) (txs : List τ) (s : σ) :
    splitTransactions size fn txs s = (txBatches size txs).foldl (fun s batch => fn batch s) s := by
  fun_induction splitTransactions size fn txs s with
  | case1 txs s hlen batch ih =>
    have hne : txs ≠ [] := List.length_pos_iff.mp hlen
    have hbatch : batch = txs.take (GreedySplit.count (addTx size) FullBatch (0, 0) txs) := by
      rw [← Nat.zero_add (GreedySplit.count _ _ _ _), ← batchLength_eq]
    have hlength : batch.length = GreedySplit.count (addTx size) FullBatch (0, 0) txs := by
      rw [hbatch, List.length_take, Nat.min_eq_left GreedySplit.count_le_length]
    rw [ih, txBatches, txBatches, GreedySplit.split_of_ne_nil hne, List.foldl_cons, hlength, hbatch]
  | case2 txs s hlen =>
    obtain rfl : txs = [] := List.eq_nil_of_length_eq_zero (Nat.eq_zero_of_not_pos hlen)
    rw [txBatches, GreedySplit.split_nil, List.foldl_nil]

/-- No transaction is lost. -/
theorem flatten_txBatches (size : τ → ℕ) (txs : List τ) : (txBatches size txs).flatten = txs :=
  GreedySplit.flatten_split _ _

section

variable {size : τ → ℕ} {txs batch : List τ}

/-- Before its last transaction a batch has reached none of the limits. -/
theorem not_fullBatch_take (h : batch ∈ txBatches size txs) {k : ℕ} (hpos : 0 < k)
    (hlt : k < batch.length) :
    totalSize size (batch.take k) < softResponseLimitSize ∧ k < softLimitItems := by
  have hopen := (GreedySplit.cut_of_mem_split h).not_full k hpos hlt
  rw [foldl_addTx, FullBatch, not_or, List.length_take, Nat.min_eq_left (Nat.le_of_lt hlt)] at hopen
  omega

/-- The limit of items holds. -/
theorem length_batch_le (h : batch ∈ txBatches size txs) : batch.length ≤ softLimitItems := by
  by_contra hlong
  have hlt := (not_fullBatch_take h (k := softLimitItems) (by decide) (by omega)).2
  exact absurd hlt (Nat.lt_irrefl _)

theorem totalSize_dropLast_lt (h : batch ∈ txBatches size txs) :
    totalSize size batch.dropLast < softResponseLimitSize := by
  rw [List.dropLast_eq_take]
  by_cases hone : 1 < batch.length
  · exact (not_fullBatch_take h (by omega) (by omega)).1
  · have hzero : batch.length - 1 = 0 := by omega
    rw [hzero, List.take_zero]
    exact Nat.succ_pos _

/-- Only the last batch is not full. -/
theorem fullBatch_of_mem_dropLast (h : batch ∈ (txBatches size txs).dropLast) :
    totalSize size batch ≥ softResponseLimitSize ∨ batch.length ≥ softLimitItems := by
  have hfull := GreedySplit.full_of_mem_dropLast h
  rw [foldl_addTx, FullBatch, Nat.zero_add, Nat.zero_add] at hfull
  exact hfull

end

/-- **Batches partition the transactions.** `SplitTransactions` returns after calling `fn` with some
batches, one after the other. They are not empty and join to the transactions. Each of them has at
most 250 transactions, and without the last one less than 2 MiB; each but the last one has 250
transactions, or 2 MiB. -/
theorem splitTransactions_partitions (size : τ → ℕ) (txs : List τ) :
    ∃ batches : List (List τ),
      (∀ (σ : Type) (fn : List τ → σ → σ) (s : σ),
        splitTransactions size fn txs s = batches.foldl (fun s batch => fn batch s) s) ∧
      batches.flatten = txs ∧
      (∀ batch ∈ batches, batch ≠ [] ∧ batch.length ≤ softLimitItems ∧
        totalSize size batch.dropLast < softResponseLimitSize) ∧
      ∀ batch ∈ batches.dropLast,
        totalSize size batch ≥ softResponseLimitSize ∨ batch.length ≥ softLimitItems := by
  refine ⟨txBatches size txs, ?_, flatten_txBatches size txs, ?_, ?_⟩
  · intro σ fn s
    exact splitTransactions_eq size fn txs s
  · intro batch h
    exact ⟨(GreedySplit.cut_of_mem_split h).ne_nil, length_batch_le h, totalSize_dropLast_lt h⟩
  · intro batch h
    exact fullBatch_of_mem_dropLast h

end Zilionixx
