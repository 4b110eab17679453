import Zilionixx.EvmModule
import Zilionixx.FixedRecords
import Zilionixx.ForgetfulCache

/-!
# The recovery of used gas

Blocks were once stored with receipts whose cumulative gas starts at zero in each batch of
transactions of the block. `recoverUsedGas` goes through the blocks, follows how the gas was
added up then, and adds it up over the whole block. Where the batches start it finds out from
the number of internal transactions.
-/

namespace Zilionixx

namespace UsedGasRecovery

variable {κ : Type}

/-- What `recoverUsedGas` reads and writes. -/
structure Store (κ : Type) where
  /-- `GetGenesisBlockIndex`; `none` is `nil` -/
  genesisBlockIndex : Option UInt64
  /-- `GetBlock` -/
  getBlock : UInt64 → Option Block
  /-- the table of receipts -/
  receipts : UInt64 → Option (List UInt8)
  /-- the cache of receipts -/
  cache : κ

variable (C : ReceiptCodec) (K : ForgetfulCache κ UInt64 (List Receipt))
  {stored : List StoredReceipt} {gases : List UInt64}

/-- `GetReceipts`; there is no return if they can not be decoded -/
def Store.getReceipts (s : Store κ) (n : UInt64) : Option (List Receipt × Store κ) :=
  match K.peek s.cache n with
  | some receipts => some (receipts, { s with cache := K.use s.cache n })
  | none =>
    match s.receipts n with
    | none => some ([], s)
    | some buf => do
      let receipts ← Zilionixx.getReceipts C buf
      some (receipts, { s with cache := K.add s.cache n receipts buf.length })

/-- `SetReceipts` -/
def Store.setReceipts (s : Store κ) (n : UInt64) (receipts : List Receipt) : Store κ :=
  let buf := Zilionixx.setReceipts C receipts
  { s with
    receipts := fun m => if m = n then some buf else s.receipts m
    cache := K.add (K.remove s.cache n) n receipts buf.length }

/-- Where `recoverUsedGas` takes a batch to start. -/
def startsBatch (genesis : Bool) (internalTxs i : ℕ) : Bool :=
  if genesis then (i : ℤ) = internalTxs - 2 ∨ (i : ℤ) = internalTxs - 1
  else (i : ℤ) = internalTxs - 1 ∨ i = internalTxs

/-- The inner loop of `recoverUsedGas`, from the receipt with index `i` on: the receipts, and
whether one of them was fixed. -/
def recoverReceipts (starts : ℕ → Bool) :
    ℕ → UInt64 → UInt64 → List Receipt → List Receipt × Bool
  | _, _, _, [] => ([], false)
  | i, cumulativeGasWrong, cumulativeGasRight, r :: receipts =>
    -- simulate the bug
    let cumulativeGasWrong := if starts i then 0 else cumulativeGasWrong
    -- recalc
    let gasUsed := r.cumulativeGasUsed - cumulativeGasWrong
    let cumulativeGasRight := cumulativeGasRight + gasUsed
    let (rest, fixed) :=
      recoverReceipts starts (i + 1) (cumulativeGasWrong + gasUsed) cumulativeGasRight receipts
    -- fix
    if r.cumulativeGasUsed ≠ cumulativeGasRight then
      ({ r with cumulativeGasUsed := cumulativeGasRight, gasUsed := gasUsed } :: rest, true)
    else (r :: rest, fixed)

/-- `recoverUsedGas`, for one block -/
def recoverBlock (start n : UInt64) (b : Block) (s : Store κ) : Option (Store κ) := do
  let (receipts, s) ← s.getReceipts C K n
  let (receipts, fixed) :=
    recoverReceipts (startsBatch (n == start) b.internalTxs.length) 0 0 0 receipts
  some (if fixed then s.setReceipts C K n receipts else s)

/-- The outer loop of `recoverUsedGas`, as long as there is fuel. -/
def recoverBlocks (start : UInt64) : ℕ → UInt64 → Store κ → Option (Store κ)
  | 0, _, _ => none
  | fuel + 1, n, s =>
    match s.getBlock n with
    | none => some s
    | some b => do
      let s ← recoverBlock C K start n b s
      recoverBlocks start fuel (n + 1) s

/-- `recoverUsedGas`: the error, and the store after it -/
def recoverUsedGas (fuel : ℕ) (s : Store κ) : Option (Option String × Store κ) :=
  match s.genesisBlockIndex with
  | none => some (some "genesis block index is not set", s)
  | some start => do
    let s ← recoverBlocks C K start fuel start s
    some (none, s)

/-! ## How the gas was added up -/

/-- The sums of the numbers up to each one, and of what was there before. -/
def runningSums : UInt64 → List UInt64 → List UInt64
  | _, [] => []
  | used, gas :: gases => (used + gas) :: runningSums (used + gas) gases

/-- The sums that start at zero again wherever a batch starts. -/
def restartedSums (starts : ℕ → Bool) : ℕ → UInt64 → List UInt64 → List UInt64
  | _, _, [] => []
  | i, used, gas :: gases =>
    let used := if starts i then 0 else used
    (used + gas) :: restartedSums starts (i + 1) (used + gas) gases

/-- The gas of the transactions of a block, in the three batches in which they are executed. -/
structure Batches where
  first : List UInt64
  second : List UInt64
  third : List UInt64

/-- All of it. -/
def Batches.gas (b : Batches) : List UInt64 := b.first ++ (b.second ++ b.third)

/-- The cumulative gas when each batch starts at zero. -/
def Batches.restarted (b : Batches) : List UInt64 :=
  runningSums 0 b.first ++ (runningSums 0 b.second ++ runningSums 0 b.third)

/-- The batches of the genesis block are the internal transactions of genesis and one more internal
transaction twice. Those of another block are internal transactions, one more of them, and the
transactions of events; or there are only the latter. -/
def Batches.Shape (b : Batches) (genesis : Bool) (internalTxs : ℕ) : Prop :=
  if genesis then b.second.length = 1 ∧ b.third.length = 1 ∧ internalTxs = b.first.length + 2
  else
    (b.first = [] ∧ b.second = [] ∧ internalTxs = 0) ∨
      (b.first ≠ [] ∧ b.second.length = 1 ∧ internalTxs = b.first.length + 1)

section

variable {starts : ℕ → Bool} {i : ℕ} {used : UInt64} {gases : List UInt64}

theorem length_runningSums : (runningSums used gases).length = gases.length := by
  induction gases generalizing used with
  | nil => rfl
  | cons gas gases ih => rw [runningSums, List.length_cons, ih, List.length_cons]

/-- The sums, as numbers. -/
theorem toNat_runningSums (hfit : used.toNat + (gases.map UInt64.toNat).sum < 2 ^ 64) {k : ℕ}
    {sum : UInt64} (h : (runningSums used gases)[k]? = some sum) :
    sum.toNat = used.toNat + ((gases.take (k + 1)).map UInt64.toNat).sum := by
  induction gases generalizing used k with
  | nil => exact absurd h.symm (Option.some_ne_none _)
  | cons gas gases ih =>
    rw [List.map_cons, List.sum_cons] at hfit
    have hadd : (used + gas).toNat = used.toNat + gas.toNat := by
      rw [UInt64.toNat_add, Nat.mod_eq_of_lt (by omega)]
    rw [List.take_succ_cons, List.map_cons, List.sum_cons]
    cases k with
    | zero =>
      obtain rfl := Option.some.inj h
      rw [hadd, List.take_zero, List.map_nil, List.sum_nil, Nat.add_zero]
    | succ k =>
      rw [ih (by omega) h, hadd, Nat.add_assoc]

/-- As long as no batch starts. -/
theorem restartedSums_eq_runningSums
    (h : ∀ k, i ≤ k → k < i + gases.length → starts k = false) :
    restartedSums starts i used gases = runningSums used gases := by
  induction gases generalizing i used with
  | nil => rfl
  | cons gas gases ih =>
    rw [List.length_cons] at h
    have hfirst : starts i = false := h i (Nat.le_refl i) (by omega)
    have hrest : ∀ k, i + 1 ≤ k → k < i + 1 + gases.length → starts k = false := by
      intro k hle hlt
      exact h k (by omega) (by omega)
    rw [restartedSums, hfirst, if_neg Bool.false_ne_true, ih hrest, runningSums]

/-- In a batch. -/
theorem restartedSums_batch (hstart : gases ≠ [] → starts i = true ∨ used = 0)
    (hinside : ∀ k, i < k → k < i + gases.length → starts k = false) :
    restartedSums starts i used gases = runningSums 0 gases := by
  cases gases with
  | nil => rfl
  | cons gas gases =>
    have hzero : (if starts i then 0 else used) = 0 := by
      rcases hstart (List.cons_ne_nil _ _) with hstarts | hused
      · exact if_pos hstarts
      · rw [hused, ite_self]
    have hrest : ∀ k, i + 1 ≤ k → k < i + 1 + gases.length → starts k = false := by
      intro k hle hlt
      rw [List.length_cons] at hinside
      exact hinside k (by omega) (by omega)
    rw [restartedSums, hzero, restartedSums_eq_runningSums hrest, runningSums]

end

theorem restartedSums_append (starts : ℕ → Bool) (i : ℕ) (used : UInt64)
    (gases more : List UInt64) :
    ∃ used', restartedSums starts i used (gases ++ more) =
      restartedSums starts i used gases ++
        restartedSums starts (i + gases.length) used' more := by
  induction gases generalizing i used with
  | nil => exact ⟨used, rfl⟩
  | cons gas gases ih =>
    obtain ⟨used', h⟩ := ih (i + 1) ((if starts i then 0 else used) + gas)
    refine ⟨used', ?_⟩
    rw [List.cons_append, restartedSums, h, restartedSums, List.length_cons, List.cons_append,
      Nat.add_right_comm, Nat.add_assoc]

section

variable {b : Batches} {genesis : Bool} {internalTxs : ℕ}

theorem Batches.Shape.length_second_le (h : b.Shape genesis internalTxs) : b.second.length ≤ 1 := by
  rw [Batches.Shape] at h
  split at h
  · omega
  · rcases h with ⟨-, hnil, -⟩ | ⟨-, hone, -⟩
    · rw [hnil]
      exact Nat.zero_le 1
    · omega

/-- `recoverUsedGas` finds where the second and the third batch start. -/
theorem Batches.Shape.startsBatch_iff (h : b.Shape genesis internalTxs) (k : ℕ) :
    startsBatch genesis internalTxs k = true ↔
      k = b.first.length ∨ k = b.first.length + b.second.length := by
  rw [Batches.Shape] at h
  rw [startsBatch]
  split at h
  · rename_i hgenesis
    rw [if_pos hgenesis, decide_eq_true_eq]
    omega
  · rename_i hgenesis
    rw [if_neg hgenesis, decide_eq_true_eq]
    rcases h with ⟨hfirst, hsecond, hnone⟩ | ⟨-, hone, hlen⟩
    · -- without internal transactions nothing comes before the third one
      rw [hfirst, hsecond, List.length_nil]
      omega
    · omega

theorem Batches.Shape.restarted_eq (h : b.Shape genesis internalTxs) :
    b.restarted = restartedSums (startsBatch genesis internalTxs) 0 0 b.gas := by
  obtain ⟨used₁, h₁⟩ := restartedSums_append (startsBatch genesis internalTxs) 0 0 b.first
    (b.second ++ b.third)
  obtain ⟨used₂, h₂⟩ := restartedSums_append (startsBatch genesis internalTxs)
    (0 + b.first.length) used₁ b.second b.third
  have hstarts : ∀ k, k = b.first.length ∨ k = b.first.length + b.second.length →
      startsBatch genesis internalTxs k = true := by
    intro k hk
    exact (h.startsBatch_iff k).mpr hk
  have hinside : ∀ k, k ≠ b.first.length → k ≠ b.first.length + b.second.length →
      startsBatch genesis internalTxs k = false := by
    intro k hk hk'
    rw [← Bool.not_eq_true, h.startsBatch_iff k]
    exact not_or.mpr ⟨hk, hk'⟩
  have hsecond := h.length_second_le
  rw [Batches.gas, h₁, h₂, Batches.restarted, restartedSums_batch, restartedSums_batch,
    restartedSums_batch]
  · intro _
    exact .inl (hstarts _ (by omega))
  · intro k hlt hlt'
    exact hinside k (by omega) (by omega)
  · intro _
    exact .inl (hstarts _ (by omega))
  · intro k hlt hlt'
    exact hinside k (by omega) (by omega)
  · intro _
    exact .inr rfl
  · intro k hlt hlt'
    exact hinside k (by omega) (by omega)

end

/-! ## The receipts of a block -/

/-- The receipts with the gas added up over the block. -/
def restored (used : UInt64) (stored : List StoredReceipt) (gases : List UInt64) :
    List StoredReceipt :=
  List.zipWith (fun r sum => { r with cumulativeGasUsed := sum }) stored (runningSums used gases)

/-- What is encoded of a receipt. -/
theorem map_recomputeGasUsed (prev : UInt64) (stored : List StoredReceipt) :
    ((recomputeGasUsed prev stored).map fun r =>
      (⟨r.status, r.cumulativeGasUsed⟩ : StoredReceipt)) = stored := by
  induction stored generalizing prev with
  | nil => rfl
  | cons r stored ih => rw [recomputeGasUsed, List.map_cons, ih]

theorem gasUsed_recomputeGasUsed_restored {used : UInt64} (h : stored.length = gases.length) :
    (recomputeGasUsed used (restored used stored gases)).map Receipt.gasUsed = gases := by
  induction stored generalizing used gases with
  | nil => rw [List.eq_nil_of_length_eq_zero h.symm, restored, runningSums, List.zipWith_nil_right,
      recomputeGasUsed, List.map_nil]
  | cons r stored ih =>
    cases gases with
    | nil => exact absurd h (Nat.succ_ne_zero _)
    | cons gas gases =>
      have hrest : (recomputeGasUsed (used + gas) (restored (used + gas) stored gases)).map
          Receipt.gasUsed = gases := ih (Nat.succ.inj h)
      rw [restored] at hrest
      rw [restored, runningSums, List.zipWith_cons_cons, recomputeGasUsed, List.map_cons, hrest,
        UInt64.add_comm, UInt64.add_sub_cancel]

/-- One receipt, of which the gas is known. -/
theorem recoverReceipts_cons {starts : ℕ → Bool} {i : ℕ} {wrong gas : UInt64} {r : Receipt}
    (h : r.cumulativeGasUsed = (if starts i then 0 else wrong) + gas) (right : UInt64)
    (receipts : List Receipt) :
    recoverReceipts starts i wrong right (r :: receipts) =
      if r.cumulativeGasUsed ≠ right + gas then
        ({ r with cumulativeGasUsed := right + gas, gasUsed := gas } ::
          (recoverReceipts starts (i + 1) r.cumulativeGasUsed (right + gas) receipts).1, true)
      else
        (r :: (recoverReceipts starts (i + 1) r.cumulativeGasUsed (right + gas) receipts).1,
          (recoverReceipts starts (i + 1) r.cumulativeGasUsed (right + gas) receipts).2) := by
  have hgas : r.cumulativeGasUsed - (if starts i then 0 else wrong) = gas := by
    rw [h, UInt64.add_comm, UInt64.add_sub_cancel]
  rw [recoverReceipts]
  dsimp only
  rw [hgas, ← h]

/-- The inner loop adds the gas up over the block. The wrong sum is what is stored in the receipt
before; a receipt is left alone only when the sums agree, and then its gas is right too. -/
theorem recoverReceipts_eq {starts : ℕ → Bool} {i : ℕ} {wrong right : UInt64}
    (hstored : stored.map StoredReceipt.cumulativeGasUsed = restartedSums starts i wrong gases)
    (hpos : ∀ gas ∈ gases, 0 < gas) (hfit : right.toNat + (gases.map UInt64.toNat).sum < 2 ^ 64)
    (hzero : right = 0 → wrong = 0) :
    (recoverReceipts starts i wrong right (recomputeGasUsed wrong stored)).1 =
      recomputeGasUsed right (restored right stored gases) := by
  induction stored generalizing i wrong right gases with
  | nil => rfl
  | cons r stored ih =>
    cases gases with
    | nil => exact absurd hstored (List.cons_ne_nil _ _)
    | cons gas gases =>
      rw [List.map_cons, restartedSums, List.cons.injEq] at hstored
      obtain ⟨hfirst, hrest⟩ := hstored
      have hsum : (right + gas).toNat = right.toNat + gas.toNat := by
        rw [List.map_cons, List.sum_cons] at hfit
        rw [UInt64.toNat_add, Nat.mod_eq_of_lt (by omega)]
      have hnext : right + gas = 0 → r.cumulativeGasUsed = 0 := by
        intro hcontra
        have hgaspos := UInt64.lt_iff_toNat_lt.mp (hpos gas List.mem_cons_self)
        rw [hcontra] at hsum
        exact absurd hsum (by rw [UInt64.toNat_zero] at *; omega)
      rw [← hfirst] at hrest
      have hind := ih hrest (fun g hg => hpos g (List.mem_cons_of_mem _ hg))
        (by rw [hsum]; rw [List.map_cons, List.sum_cons] at hfit; omega) hnext
      have hsame : r.cumulativeGasUsed = right + gas → wrong = right := by
        intro hright
        have hwrong : (if starts i then 0 else wrong) = right :=
          (UInt64.add_left_inj gas).mp (hfirst.symm.trans hright)
        split at hwrong
        · rw [hzero hwrong.symm, hwrong]
        · exact hwrong
      rw [recomputeGasUsed, recoverReceipts_cons hfirst, restored, runningSums,
        List.zipWith_cons_cons, recomputeGasUsed]
      split
      · rw [hind, UInt64.add_comm right, UInt64.add_sub_cancel]
        rfl
      · rename_i hnot
        have hright : r.cumulativeGasUsed = right + gas := not_not.mp hnot
        rw [hind, hsame hright, hright]
        rfl

/-- Nothing is changed when nothing is to be fixed. -/
theorem recoverReceipts_of_not_fixed {starts : ℕ → Bool} {i : ℕ} {wrong right : UInt64}
    {receipts : List Receipt} (h : (recoverReceipts starts i wrong right receipts).2 = false) :
    (recoverReceipts starts i wrong right receipts).1 = receipts := by
  induction receipts generalizing i wrong right with
  | nil => rfl
  | cons r receipts ih =>
    obtain ⟨gas, hgas⟩ : ∃ gas, r.cumulativeGasUsed = (if starts i then 0 else wrong) + gas :=
      ⟨_, by rw [UInt64.add_comm, UInt64.sub_add_cancel]⟩
    rw [recoverReceipts_cons hgas] at h ⊢
    split at h
    · exact absurd h.symm Bool.false_ne_true
    · rename_i hfixed
      rw [if_neg hfixed, ih h]

/-! ## The store -/

/-- The receipts of a block are in the table, and they are what is found in the cache, if anything
is. -/
structure Store.Holds (s : Store κ) (n : UInt64) (stored : List StoredReceipt) : Prop where
  table : ∃ buf, s.receipts n = some buf ∧ C.decode buf = some stored
  cache : K.peek s.cache n = none ∨ K.peek s.cache n = some (recomputeGasUsed 0 stored)

section

variable {C K} {s s' : Store κ} {n m : UInt64} {stored : List StoredReceipt}

theorem Store.Holds.forget (h : s.Holds C K n stored) {c : κ} (hc : K.Forgets n s.cache c) :
    ({ s with cache := c } : Store κ).Holds C K n stored := by
  refine ⟨h.table, ?_⟩
  rcases hc with hnone | hsame
  · exact .inl hnone
  · rw [hsame]
    exact h.cache

theorem Store.Holds.getReceipts (h : s.Holds C K n stored) :
    ∃ s', s.getReceipts C K n = some (recomputeGasUsed 0 stored, s') ∧ s'.Holds C K n stored := by
  obtain ⟨buf, hbuf, hdecode⟩ := h.table
  rw [Store.getReceipts]
  rcases h.cache with hnone | hsome
  · have hget : Zilionixx.getReceipts C buf = some (recomputeGasUsed 0 stored) := by
      rw [Zilionixx.getReceipts, hdecode]
      rfl
    rw [hnone, hbuf]
    refine ⟨_, Option.bind_eq_some_iff.mpr ⟨_, hget, rfl⟩, h.table, ?_⟩
    exact K.peek_add_self _ _ _ _
  · rw [hsome]
    exact ⟨_, rfl, h.forget (.use _ _ _)⟩

/-- What is in the table can be decoded. -/
def Store.Decodes (C : ReceiptCodec) (s : Store κ) (n : UInt64) : Prop :=
  ∀ buf, s.receipts n = some buf → (C.decode buf).isSome

/-- What a block can see of the receipts of another one being read or written: some of the cache
is forgotten. -/
structure Store.Same (K : ForgetfulCache κ UInt64 (List Receipt)) (m : UInt64) (s s' : Store κ) :
    Prop where
  receipts : s'.receipts m = s.receipts m
  cache : K.Forgets m s.cache s'.cache

theorem Store.Same.refl (m : UInt64) (s : Store κ) : Store.Same K m s s := ⟨rfl, .refl m s.cache⟩

theorem Store.Same.trans {s'' : Store κ} (h : Store.Same K m s s') (h' : Store.Same K m s' s'') :
    Store.Same K m s s'' :=
  ⟨h'.receipts.trans h.receipts, h.cache.trans h'.cache⟩

theorem Store.Same.holds (h : Store.Same K m s s') (hs : s.Holds C K m stored) :
    s'.Holds C K m stored := by
  refine ⟨?_, (hs.forget h.cache).cache⟩
  rw [h.receipts]
  exact hs.table

theorem Store.Same.decodes (h : Store.Same K m s s') (hs : s.Decodes C m) : s'.Decodes C m := by
  rw [Store.Decodes, h.receipts]
  exact hs

/-- Reading. -/
theorem exists_getReceipts (h : s.Decodes C n) :
    ∃ receipts s', s.getReceipts C K n = some (receipts, s') ∧ s'.getBlock = s.getBlock ∧
      ∀ m, m ≠ n → Store.Same K m s s' := by
  rw [Store.getReceipts]
  split
  · exact ⟨_, _, rfl, rfl, fun m _ => ⟨rfl, .use _ _ _⟩⟩
  · split
    · exact ⟨_, _, rfl, rfl, fun m _ => .refl m s⟩
    · rename_i buf hbuf
      obtain ⟨stored, hdecode⟩ := Option.isSome_iff_exists.mp (h buf hbuf)
      have hget : Zilionixx.getReceipts C buf = some (recomputeGasUsed 0 stored) := by
        rw [Zilionixx.getReceipts, hdecode]
        rfl
      exact ⟨_, _, Option.bind_eq_some_iff.mpr ⟨_, hget, rfl⟩, rfl,
        fun m hm => ⟨rfl, .add hm _ _ _⟩⟩

/-- Writing. -/
theorem setReceipts_same (s : Store κ) (receipts : List Receipt) (h : m ≠ n) :
    Store.Same K m s (s.setReceipts C K n receipts) := by
  refine ⟨if_neg h, ?_⟩
  exact (ForgetfulCache.Forgets.remove _ _ _).trans (.add h _ _ _)

theorem setReceipts_holds (s : Store κ) (n : UInt64) (stored : List StoredReceipt) :
    (s.setReceipts C K n (recomputeGasUsed 0 stored)).Holds C K n stored := by
  refine ⟨⟨_, if_pos rfl, ?_⟩, K.peek_add_self _ _ _ _⟩
  rw [Zilionixx.setReceipts, map_recomputeGasUsed, C.decode_encode]

/-- The receipts of one block are gone through. -/
theorem exists_recoverBlock (h : s.Decodes C n) (start : UInt64) (b : Block) :
    ∃ s', recoverBlock C K start n b s = some s' ∧ s'.getBlock = s.getBlock ∧
      ∀ m, m ≠ n → Store.Same K m s s' := by
  obtain ⟨receipts, s₁, hget, hblock, hsame⟩ := exists_getReceipts h (K := K)
  refine ⟨_, Option.bind_eq_some_iff.mpr ⟨_, hget, rfl⟩, ?_, ?_⟩
  · split
    · exact hblock
    · exact hblock
  · intro m hm
    split
    · exact (hsame m hm).trans (setReceipts_same s₁ _ hm)
    · exact hsame m hm

end

/-- The receipts of a block were stored with the gas of each batch added up on its own. -/
structure Restarted (s : Store κ) (start n : UInt64) (stored : List StoredReceipt) (b : Batches) :
    Prop where
  holds : s.Holds C K n stored
  shape : ∃ block, s.getBlock n = some block ∧ b.Shape (n == start) block.internalTxs.length
  cumulative : stored.map StoredReceipt.cumulativeGasUsed = b.restarted
  positive : ∀ gas ∈ b.gas, 0 < gas
  fits : (b.gas.map UInt64.toNat).sum < 2 ^ 64

section

variable {C K} {s s' : Store κ} {start n : UInt64} {stored : List StoredReceipt} {b : Batches}

theorem Restarted.length_eq (h : Restarted C K s start n stored b) :
    stored.length = b.gas.length := by
  have hlen := congrArg List.length h.cumulative
  rw [List.length_map, Batches.restarted, List.length_append, List.length_append,
    length_runningSums, length_runningSums, length_runningSums] at hlen
  rw [hlen, Batches.gas, List.length_append, List.length_append]

theorem Restarted.same (h : Restarted C K s start n stored b) (hs : Store.Same K n s s')
    (hblock : s'.getBlock = s.getBlock) : Restarted C K s' start n stored b :=
  ⟨hs.holds h.holds, hblock ▸ h.shape, h.cumulative, h.positive, h.fits⟩

/-- The step: the gas of the block is added up. -/
theorem Restarted.recoverBlock (h : Restarted C K s start n stored b) {block : Block}
    (hblock : s.getBlock n = some block)
    (hrun : recoverBlock C K start n block s = some s') :
    s'.Holds C K n (restored 0 stored b.gas) := by
  obtain ⟨s₁, hget, hholds⟩ := h.holds.getReceipts
  obtain ⟨block', hblock', hshape⟩ := h.shape
  obtain rfl := Option.some.inj (hblock.symm.trans hblock')
  have hfit : (0 : UInt64).toNat + (b.gas.map UInt64.toNat).sum < 2 ^ 64 := by
    rw [UInt64.toNat_zero, Nat.zero_add]
    exact h.fits
  have hright := recoverReceipts_eq (h.cumulative.trans hshape.restarted_eq) h.positive hfit
    (fun _ => rfl)
  obtain ⟨⟨receipts, s₂⟩, hget', hrun⟩ := Option.bind_eq_some_iff.mp hrun
  cases hget.symm.trans hget'
  obtain rfl := Option.some.inj hrun
  split
  · rw [hright]
    exact setReceipts_holds s₁ n _
  · rename_i hfixed
    -- what was not fixed was right
    have hsame := hright.symm.trans
      (recoverReceipts_of_not_fixed (Bool.not_eq_true _ ▸ hfixed))
    have hstored := congrArg (List.map fun r : Receipt =>
      (⟨r.status, r.cumulativeGasUsed⟩ : StoredReceipt)) hsame
    rw [map_recomputeGasUsed, map_recomputeGasUsed] at hstored
    rw [hstored]
    exact hholds

end

/-! ## All blocks -/

theorem add_ofNat_zero (n : UInt64) : n + UInt64.ofNat 0 = n := UInt64.add_zero n

theorem add_one_add_ofNat (n : UInt64) (k : ℕ) :
    n + 1 + UInt64.ofNat k = n + UInt64.ofNat (k + 1) := by
  rw [UInt64.ofNat_add, UInt64.add_assoc, UInt64.add_comm 1]
  rfl

theorem add_ofNat_succ_ne (n : UInt64) {k : ℕ} (h : k + 1 < 2 ^ 64) :
    n + UInt64.ofNat (k + 1) ≠ n := by
  intro heq
  have hzero : UInt64.ofNat (k + 1) = 0 := by
    rwa [UInt64.add_eq_left] at heq
  have := congrArg UInt64.toNat hzero
  rw [UInt64.toNat_ofNat_of_lt' h] at this
  exact absurd this (Nat.succ_ne_zero k)

/-- What the outer loop has ahead of it: some blocks whose receipts can be decoded, and then no
block. -/
structure Ahead (C : ReceiptCodec) (s : Store κ) (n : UInt64) (count : ℕ) : Prop where
  blocks : ∀ k < count, (s.getBlock (n + UInt64.ofNat k)).isSome
  last : s.getBlock (n + UInt64.ofNat count) = none
  decodes : ∀ k < count, s.Decodes C (n + UInt64.ofNat k)

theorem Ahead.tail {C K} {s s₁ : Store κ} {n : UInt64} {count : ℕ} (h : Ahead C s n (count + 1))
    (hcount : count + 1 < 2 ^ 64) (hblock : s₁.getBlock = s.getBlock)
    (hsame : ∀ m, m ≠ n → Store.Same K m s s₁) : Ahead C s₁ (n + 1) count where
  blocks k hk := by
    rw [hblock, add_one_add_ofNat]
    exact h.blocks (k + 1) (Nat.succ_lt_succ hk)
  last := by
    rw [hblock, add_one_add_ofNat]
    exact h.last
  decodes k hk := by
    rw [add_one_add_ofNat]
    exact (hsame _ (add_ofNat_succ_ne n (by omega))).decodes (h.decodes (k + 1) (by omega))

/-- From a store to another one a block is recovered, and nothing else is done to it. -/
def Visited (C : ReceiptCodec) (K : ForgetfulCache κ UInt64 (List Receipt)) (start m : UInt64)
    (s s' : Store κ) : Prop :=
  ∃ b s₁ s₂, s.getBlock m = some b ∧ s₁.getBlock = s.getBlock ∧ Store.Same K m s s₁ ∧
    recoverBlock C K start m b s₁ = some s₂ ∧ Store.Same K m s₂ s'

theorem Visited.after {C K} {start m : UInt64} {s s₁ s' : Store κ}
    (h : Visited C K start m s₁ s') (hblock : s₁.getBlock = s.getBlock)
    (hsame : Store.Same K m s s₁) : Visited C K start m s s' := by
  obtain ⟨b, s₂, s₃, hb, hblock₂, hsame₂, hrun, hsame₃⟩ := h
  rw [hblock] at hb hblock₂
  exact ⟨b, s₂, s₃, hb, hblock₂, hsame.trans hsame₂, hrun, hsame₃⟩

/-- The outer loop comes to each block once, and to no other block. -/
theorem exists_recoverBlocks {C K} (start : UInt64) {count : ℕ} (hcount : count < 2 ^ 64)
    {n : UInt64} {s : Store κ} (h : Ahead C s n count) :
    ∃ s', (∀ fuel, count < fuel → recoverBlocks C K start fuel n s = some s') ∧
      (∀ m, (∀ k < count, m ≠ n + UInt64.ofNat k) → Store.Same K m s s') ∧
      ∀ k < count, Visited C K start (n + UInt64.ofNat k) s s' := by
  induction count generalizing n s with
  | zero =>
    have hend := h.last
    rw [add_ofNat_zero] at hend
    refine ⟨s, ?_, fun m _ => .refl m s, fun k hk => absurd hk (Nat.not_lt_zero k)⟩
    intro fuel hfuel
    obtain ⟨fuel, rfl⟩ := Nat.exists_eq_add_of_lt hfuel
    rw [recoverBlocks, hend]
  | succ count ih =>
    have hfirst := h.blocks 0 (Nat.succ_pos count)
    have hdecodes := h.decodes 0 (Nat.succ_pos count)
    rw [add_ofNat_zero] at hfirst hdecodes
    obtain ⟨b, hb⟩ := Option.isSome_iff_exists.mp hfirst
    obtain ⟨s₁, hrun, hblock, hsame⟩ := exists_recoverBlock hdecodes start b (K := K)
    obtain ⟨s', hloop, hrest, hvisited⟩ := ih (by omega) (h.tail hcount hblock hsame)
    have hother : ∀ k < count, n + UInt64.ofNat (k + 1) ≠ n := by
      intro k hk
      exact add_ofNat_succ_ne n (by omega)
    refine ⟨s', ?_, ?_, ?_⟩
    · intro fuel hfuel
      obtain ⟨fuel, rfl⟩ : ∃ f, fuel = f + 1 := ⟨fuel - 1, by omega⟩
      rw [recoverBlocks, hb]
      exact Option.bind_eq_some_iff.mpr ⟨s₁, hrun, hloop fuel (by omega)⟩
    · intro m hm
      have hne : m ≠ n := by
        have := hm 0 (Nat.succ_pos count)
        rwa [add_ofNat_zero] at this
      refine (hsame m hne).trans (hrest m ?_)
      intro k hk
      rw [add_one_add_ofNat]
      exact hm (k + 1) (by omega)
    · intro k hk
      cases k with
      | zero =>
        rw [add_ofNat_zero]
        refine ⟨b, s, s₁, hb, rfl, .refl n s, hrun, hrest n ?_⟩
        intro k hk
        rw [add_one_add_ofNat]
        exact (hother k hk).symm
      | succ k =>
        have hlater := hvisited k (by omega)
        rw [add_one_add_ofNat] at hlater
        exact hlater.after hblock (hsame _ (hother k (by omega)))

theorem status_restored {used : UInt64} (h : stored.length = gases.length) :
    (restored used stored gases).map StoredReceipt.status = stored.map StoredReceipt.status := by
  induction stored generalizing used gases with
  | nil => rfl
  | cons r stored ih =>
    cases gases with
    | nil => exact absurd h (Nat.succ_ne_zero _)
    | cons gas gases =>
      have hrest : (restored (used + gas) stored gases).map StoredReceipt.status =
          stored.map StoredReceipt.status := ih (Nat.succ.inj h)
      rw [List.map_cons, ← hrest]
      rfl

theorem length_restored {used : UInt64} (h : stored.length = gases.length) :
    (restored used stored gases).length = gases.length := by
  rw [restored, List.length_zipWith, length_runningSums, h, Nat.min_self]

theorem toNat_restored (hfit : (gases.map UInt64.toNat).sum < 2 ^ 64) {i : ℕ} {r : StoredReceipt}
    (h : (restored 0 stored gases)[i]? = some r) :
    r.cumulativeGasUsed.toNat = ((gases.take (i + 1)).map UInt64.toNat).sum := by
  obtain ⟨r', sum, -, hsum, rfl⟩ := List.getElem?_zipWith_eq_some.mp h
  have htoNat := toNat_runningSums (by rw [UInt64.toNat_zero, Nat.zero_add]; exact hfit) hsum
  rw [UInt64.toNat_zero, Nat.zero_add] at htoNat
  exact htoNat

theorem cumulativeGasUsed_recomputeGasUsed (prev : UInt64) (stored : List StoredReceipt) :
    (recomputeGasUsed prev stored).map Receipt.cumulativeGasUsed =
      stored.map StoredReceipt.cumulativeGasUsed := by
  have h := congrArg (List.map StoredReceipt.cumulativeGasUsed) (map_recomputeGasUsed prev stored)
  rw [List.map_map] at h
  exact h

/-- Without a gap there is no end, for the numbers of blocks start again. -/
theorem count_lt_of_end {getBlock : UInt64 → Option Block} {start : UInt64} {count : ℕ}
    (hblocks : ∀ k < count, (getBlock (start + UInt64.ofNat k)).isSome)
    (hend : getBlock (start + UInt64.ofNat count) = none) : count < 2 ^ 64 := by
  by_contra hcount
  have hmod : UInt64.ofNat (count % 2 ^ 64) = UInt64.ofNat count := by
    apply UInt64.toNat_inj.mp
    rw [UInt64.toNat_ofNat', UInt64.toNat_ofNat', Nat.mod_mod]
  have hsome := hblocks (count % 2 ^ 64) (by omega)
  rw [hmod, hend] at hsome
  exact absurd hsome Bool.false_ne_true

/-- **Used gas is recovered.** Let there be blocks from the genesis block on, with receipts that
can be decoded. Then `recoverUsedGas` returns without error. The receipts of each of the
blocks, if the gas of every batch was added up on its own, then have the sum of the gas in the
block so far; and `GetReceipts` returns them with the gas of each transaction, whatever the cache
forgets. -/
theorem recoverUsedGas_restores (C : ReceiptCodec) (K : ForgetfulCache κ UInt64 (List Receipt))
    (s : Store κ) (start : UInt64) (count : ℕ) (hstart : s.genesisBlockIndex = some start)
    (hblocks : ∀ k < count, (s.getBlock (start + UInt64.ofNat k)).isSome)
    (hend : s.getBlock (start + UInt64.ofNat count) = none)
    (hdecode : ∀ k < count, s.Decodes C (start + UInt64.ofNat k)) :
    ∃ s', (∀ fuel, count < fuel → recoverUsedGas C K fuel s = some (none, s')) ∧
      ∀ k < count, ∀ (stored : List StoredReceipt) (b : Batches),
        Restarted C K s start (start + UInt64.ofNat k) stored b →
        ∃ stored', (∃ buf, s'.receipts (start + UInt64.ofNat k) = some buf ∧
            C.decode buf = some stored') ∧
          stored'.map StoredReceipt.status = stored.map StoredReceipt.status ∧
          stored'.length = b.gas.length ∧
          (∀ (i : ℕ) (r : StoredReceipt), stored'[i]? = some r →
            r.cumulativeGasUsed.toNat = ((b.gas.take (i + 1)).map UInt64.toNat).sum) ∧
          ∀ c, K.Forgets (start + UInt64.ofNat k) s'.cache c →
            ∃ receipts s'', ({ s' with cache := c } : Store κ).getReceipts C K
                (start + UInt64.ofNat k) = some (receipts, s'') ∧
              receipts.map Receipt.gasUsed = b.gas ∧
              receipts.map Receipt.cumulativeGasUsed =
                stored'.map StoredReceipt.cumulativeGasUsed := by
  have hcount := count_lt_of_end hblocks hend
  obtain ⟨s', hloop, -, hvisited⟩ :=
    exists_recoverBlocks start hcount ⟨hblocks, hend, hdecode⟩ (K := K)
  refine ⟨s', ?_, ?_⟩
  · intro fuel hfuel
    rw [recoverUsedGas, hstart]
    exact Option.bind_eq_some_iff.mpr ⟨s', hloop fuel hfuel, rfl⟩
  · intro k hk stored b hrestarted
    obtain ⟨block, s₁, s₂, hblock, hblocks₁, hsame, hrun, hsame'⟩ := hvisited k hk
    have hlength := hrestarted.length_eq
    have hholds : s'.Holds C K (start + UInt64.ofNat k) (restored 0 stored b.gas) :=
      hsame'.holds ((hrestarted.same hsame hblocks₁).recoverBlock (hblocks₁ ▸ hblock) hrun)
    refine ⟨_, hholds.table, status_restored hlength, length_restored hlength, ?_, ?_⟩
    · intro i r hr
      exact toNat_restored hrestarted.fits hr
    · intro c hc
      obtain ⟨s'', hget, -⟩ := (hholds.forget hc).getReceipts
      exact ⟨_, s'', hget, gasUsed_recomputeGasUsed_restored hlength,
        cumulativeGasUsed_recomputeGasUsed 0 _⟩

/-! ## An example -/

/-- A status and a sum in 16 bytes. -/
def sampleRecord (r : StoredReceipt) : List UInt8 :=
  ByteNumber.fixedBE 8 r.status.toNat ++ ByteNumber.fixedBE 8 r.cumulativeGasUsed.toNat

/-- A receipt is read back from its 16 bytes. -/
def sampleReceipt (record : List UInt8) : StoredReceipt :=
  ⟨UInt64.ofNat (ByteNumber.ofBE (record.take 8)), UInt64.ofNat (ByteNumber.ofBE (record.drop 8))⟩

theorem length_word (n : UInt64) : (ByteNumber.fixedBE 8 n.toNat).length = 8 :=
  ByteNumber.length_fixedBE n.toNat_lt

theorem length_sampleRecord (r : StoredReceipt) : (sampleRecord r).length = 16 := by
  rw [sampleRecord, List.length_append, length_word, length_word]

theorem sampleReceipt_sampleRecord (r : StoredReceipt) : sampleReceipt (sampleRecord r) = r := by
  rw [sampleReceipt, sampleRecord, List.take_left' (length_word _), List.drop_left' (length_word _),
    ByteNumber.ofBE_fixedBE, ByteNumber.ofBE_fixedBE, UInt64.ofNat_toNat, UInt64.ofNat_toNat]

/-- Receipts as records of one length. -/
def sampleCodec : ReceiptCodec where
  encode receipts := (receipts.map sampleRecord).flatten
  decode buf := (FixedRecords.split 16 buf.length buf).map (List.map sampleReceipt)
  decode_encode receipts := by
    have hlength : ∀ r ∈ receipts.map sampleRecord, r.length = 16 := by
      intro r hr
      obtain ⟨receipt, -, rfl⟩ := List.mem_map.mp hr
      exact length_sampleRecord receipt
    rw [FixedRecords.split_flatten (by decide) hlength
      (FixedRecords.length_le_length_flatten (by decide) hlength), Option.map_some, List.map_map]
    exact congrArg some (List.map_id'' sampleReceipt_sampleRecord receipts)

/-- The receipts of a genesis block and of one more block. -/
def sampleStored (n : UInt64) : List StoredReceipt :=
  if n = 1 then [⟨1, 5⟩, ⟨1, 9⟩, ⟨1, 7⟩, ⟨1, 11⟩] else [⟨1, 2⟩, ⟨1, 3⟩, ⟨0, 6⟩, ⟨1, 10⟩]

/-- The gas they were made from. -/
def sampleBatches (n : UInt64) : Batches :=
  if n = 1 then ⟨[5, 4], [7], [11]⟩ else ⟨[2], [3], [6, 4]⟩

/-- Blocks 1 and 2, with four and with two internal transactions. -/
def sampleStore : Store Unit where
  genesisBlockIndex := some 1
  getBlock n :=
    if n = 1 ∨ n = 2 then
      some
        { time := 0
          atropos := EventID.zero
          events := []
          txs := []
          internalTxs := List.replicate (if n = 1 then 4 else 2) (copyBytes 32 [])
          skippedTxs := []
          gasUsed := 0
          root := copyBytes 32 [] }
    else none
  receipts n := some (sampleCodec.encode (sampleStored n))
  cache := ()

theorem sampleStore_holds (n : UInt64) :
    sampleStore.Holds sampleCodec (ForgetfulCache.empty UInt64 (List Receipt)) n
      (sampleStored n) :=
  ⟨⟨_, rfl, sampleCodec.decode_encode _⟩, .inl rfl⟩

theorem recoverUsedGas_restores_sampleStore :
    ∃ s', recoverUsedGas sampleCodec (.empty _ _) 3 sampleStore = some (none, s') ∧
      (∃ receipts s'', s'.getReceipts sampleCodec (.empty _ _) 1 = some (receipts, s'') ∧
        receipts.map Receipt.gasUsed = [5, 4, 7, 11]) ∧
      ∃ receipts s'', s'.getReceipts sampleCodec (.empty _ _) 2 = some (receipts, s'') ∧
        receipts.map Receipt.gasUsed = [2, 3, 6, 4] := by
  have hblocks : ∀ k < 2, (sampleStore.getBlock (1 + UInt64.ofNat k)).isSome := by decide
  have hdecode : ∀ k < 2, sampleStore.Decodes sampleCodec (1 + UInt64.ofNat k) := by
    intro k _ buf hbuf
    obtain rfl := Option.some.inj hbuf
    rw [sampleCodec.decode_encode]
    rfl
  obtain ⟨s', hrun, hrestored⟩ := recoverUsedGas_restores sampleCodec (.empty _ _) sampleStore 1 2
    rfl hblocks rfl hdecode
  have hgenesis : Restarted sampleCodec (.empty _ _) sampleStore 1 (1 + UInt64.ofNat 0)
      (sampleStored 1) (sampleBatches 1) :=
    ⟨sampleStore_holds 1, ⟨_, rfl, rfl, rfl, rfl⟩, by decide,
      by simp [sampleBatches, Batches.gas], by decide⟩
  have hsecond : Restarted sampleCodec (.empty _ _) sampleStore 1 (1 + UInt64.ofNat 1)
      (sampleStored 2) (sampleBatches 2) :=
    ⟨sampleStore_holds 2, ⟨_, rfl, .inr ⟨by decide, rfl, rfl⟩⟩, by decide,
      by simp [sampleBatches, Batches.gas], by decide⟩
  obtain ⟨_, -, -, -, -, hget⟩ := hrestored 0 (by decide) _ _ hgenesis
  obtain ⟨receipts, s₁, hget, hgas, -⟩ := hget s'.cache (.refl _ _)
  obtain ⟨_, -, -, -, -, hget'⟩ := hrestored 1 (by decide) _ _ hsecond
  obtain ⟨receipts', s₂, hget', hgas', -⟩ := hget' s'.cache (.refl _ _)
  exact ⟨s', hrun 3 (by decide), ⟨receipts, s₁, hget, hgas⟩, receipts', s₂, hget', hgas'⟩

end UsedGasRecovery

end Zilionixx
