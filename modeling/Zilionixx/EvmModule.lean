import Zilionixx.BlockCallbacks
import Zilionixx.SkipIndex

/-!
# `evmmodule`: executing the transactions of a block

`evm.go`, with the loop of `evmcore.StateProcessor` and `FilterSkippedTxs`. The
transactions of a block come in several batches. A transaction is either executed
and gets a receipt, or it is skipped and its index is recorded.

What `ApplyMessage` does with a transaction is a parameter here.
-/

namespace Zilionixx

/-- `inter.FilterSkippedTxs`, and `NotSkippedTxs` for hashes. -/
def filterSkippedTxs {α : Type} (txs : List α) (skippedTxs : List UInt32) : List α :=
  -- short circuit if nothing to skip
  if skippedTxs.length = 0 then txs else SkipIndex.dropIndexes 0 txs skippedTxs

/-! ## `StateProcessor` -/

/-- What `ApplyMessage` makes of a message. -/
inductive MessageResult where
  /-- an error, and no result -/
  | skipped
  | executed (usedGas : UInt64) (failed : Bool) (logs : List Log)

/-- The state, and the execution of a single transaction. -/
structure Transition where
  StateDB : Type
  /-- `StateDB` at a root; `none` is an error -/
  stateDB : Hash → Option StateDB
  /-- `GetNonce` of the zero address -/
  nonce : StateDB → UInt64
  /-- `ApplyMessage` with what is left of the gas pool, for an internal transaction or
  not; `none` is an error with a result, or no message, both of which end the process -/
  applyMessage : BlockCtx → Rules → Bool → BlockTx → StateDB → UInt64 →
    Option (StateDB × UInt64 × MessageResult)
  /-- `Commit` -/
  commit : StateDB → Option Hash
  /-- `types.DeriveSha` -/
  deriveSha : List BlockTx → Hash
  /-- `types.EmptyRootHash` -/
  emptyRootHash : Hash

/-- The variables of `StateProcessor.Process`. -/
structure Processing (T : Transition) where
  statedb : T.StateDB
  gp : UInt64
  usedGas : UInt64
  receipts : List Receipt
  allLogs : List Log
  skipped : List UInt32

/-- `applyTransaction`, and the rest of the loop in `Process`. -/
def applyTransaction (W : World) {T : Transition} (ctx : BlockCtx) (net : Rules) (internal : Bool)
    (s : Processing T) (i : ℕ) (tx : BlockTx) : Option (Processing T) := do
  let (statedb, gp, result) ← T.applyMessage ctx net internal tx s.statedb s.gp
  match result with
  | .skipped =>
    pure { s with statedb := statedb, gp := gp, skipped := s.skipped ++ [UInt32.ofNat i] }
  | .executed usedGas failed logs =>
    let receipt : Receipt :=
      { status := if failed then 0 else 1
        cumulativeGasUsed := s.usedGas + usedGas
        txHash := W.txHash tx
        gasUsed := usedGas }
    pure
      { s with
        statedb := statedb
        gp := gp
        usedGas := s.usedGas + usedGas
        receipts := s.receipts ++ [receipt]
        allLogs := s.allLogs ++ logs }

/-- `Process`: the loop over the transactions, from an index on. -/
def process (W : World) {T : Transition} (ctx : BlockCtx) (net : Rules) (internal : Bool) :
    List BlockTx → ℕ → Processing T → Option (Processing T)
  | [], _, s => some s
  | tx :: txs, i, s => do
    let s ← applyTransaction W ctx net internal s i tx
    process W ctx net internal txs (i + 1) s

/-! ## `EVMModule` -/

/-- `evmcore.NewEvmBlock` -/
def newEvmBlock (T : Transition) (h : EvmHeader) (txs : List BlockTx) : EvmBlock :=
  { h with
    transactions := txs
    txHash := if txs.length = 0 then T.emptyRootHash else T.deriveSha txs }

/-- `zilionixxEVMProcessor` -/
structure EvmProcessor (T : Transition) where
  block : BlockCtx
  statedb : T.StateDB
  net : Rules
  /-- `none` if there is no previous block -/
  prevBlockHash : Option EventID
  gasUsed : UInt64
  incomingTxs : List BlockTx
  skippedTxs : List UInt32
  receipts : List Receipt

namespace EvmProcessor

variable {T : Transition}

/-- `EVMModule.Start`. `atroposOf` reads the Atropos of a block; a missing block is a
panic, which comes with the first `Execute` here. -/
def start (atroposOf : UInt64 → Option EventID) (block : BlockCtx) (net : Rules)
    (statedb : T.StateDB) : EvmProcessor T where
  block := block
  statedb := statedb
  net := net
  prevBlockHash := if block.idx ≠ 0 then atroposOf (block.idx - 1) else some EventID.zero
  gasUsed := 0
  incomingTxs := []
  skippedTxs := []
  receipts := []

/-- `evmBlockWith` -/
def evmBlockWith (p : EvmProcessor T) (txs : List BlockTx) : Option EvmBlock := do
  let prevBlockHash ← p.prevBlockHash
  pure <| newEvmBlock T
    { number := p.block.idx.toNat
      hash := p.block.atropos
      parentHash := prevBlockHash
      root := copyBytes 32 []
      txHash := copyBytes 32 []
      time := p.block.time
      gasLimit := maxUint64
      gasUsed := p.gasUsed } txs

/-- `Execute`: the processor, the new logs and the new receipts. -/
def execute (W : World) (p : EvmProcessor T) (txs : List BlockTx) (internal : Bool) :
    Option (EvmProcessor T × List Log × List Receipt) := do
  -- process txs
  let evmBlock ← p.evmBlockWith txs
  let s ← process W p.block p.net internal evmBlock.transactions 0
    { statedb := p.statedb
      gp := evmBlock.gasLimit
      usedGas := p.gasUsed
      receipts := []
      allLogs := []
      skipped := [] }
  let offset := UInt32.ofNat p.incomingTxs.length
  let skipped := if offset > 0 then s.skipped.map (· + offset) else s.skipped
  pure
    ({ p with
        statedb := s.statedb
        gasUsed := s.usedGas
        incomingTxs := p.incomingTxs ++ txs
        skippedTxs := p.skippedTxs ++ skipped
        receipts := p.receipts ++ s.receipts }, s.allLogs, s.receipts)

/-- `Finalize` -/
def finalize (p : EvmProcessor T) : Option (EvmBlock × List UInt32 × List Receipt) := do
  -- filter skipped transactions; receipts are filtered already
  let evmBlock ← p.evmBlockWith (filterSkippedTxs p.incomingTxs p.skippedTxs)
  -- get state root
  let newStateHash ← T.commit p.statedb
  pure ({ evmBlock with root := newStateHash }, p.skippedTxs, p.receipts)

/-- `Execute`, by what `Process` does. -/
theorem execute_of_process {W : World} {p : EvmProcessor T} {txs : List BlockTx} {internal : Bool}
    {prev : EventID} {s : Processing T} (hprev : p.prevBlockHash = some prev)
    (hprocess :
      process W p.block p.net internal txs 0 ⟨p.statedb, maxUint64, p.gasUsed, [], [], []⟩ =
      some s) :
    p.execute W txs internal = some
      ({ p with
          statedb := s.statedb
          gasUsed := s.usedGas
          incomingTxs := p.incomingTxs ++ txs
          skippedTxs := p.skippedTxs ++
            if UInt32.ofNat p.incomingTxs.length > 0 then
              s.skipped.map (· + UInt32.ofNat p.incomingTxs.length)
            else s.skipped
          receipts := p.receipts ++ s.receipts }, s.allLogs, s.receipts) := by
  rw [execute, evmBlockWith, hprev]
  change (process W p.block p.net internal txs 0
    ⟨p.statedb, maxUint64, p.gasUsed, [], [], []⟩ >>= _) = _
  rw [hprocess]
  rfl

/-- A sequence of `Execute` calls. -/
def executes (W : World) (p : EvmProcessor T) :
    List (List BlockTx × Bool) → Option (EvmProcessor T)
  | [] => some p
  | (txs, internal) :: batches => do
    let (p, _, _) ← p.execute W txs internal
    executes W p batches

end EvmProcessor

/-- `EVMModule`, with a state that may have been started. -/
def evmModule (W : World) (T : Transition) (atroposOf : UInt64 → Option EventID) : Evm where
  State := T.StateDB ⊕ EvmProcessor T
  stateDB root := (T.stateDB root).map .inl
  start ctx rules
    | .inl statedb => .inr (EvmProcessor.start atroposOf ctx rules statedb)
    | .inr p => .inr (EvmProcessor.start atroposOf ctx rules p.statedb)
  nonce
    | .inl statedb => T.nonce statedb
    | .inr p => T.nonce p.statedb
  execute
    | .inl _, _, _ => none
    | .inr p, txs, internal => do
      let (p, logs, receipts) ← p.execute W txs internal
      pure (.inr p, logs, receipts)
  finalize
    | .inl _ => none
    | .inr p => p.finalize

/-- A batch that the module executes is executed by its processor. -/
theorem executeTxs_eq_some {W : World} {T : Transition} {atroposOf : UInt64 → Option EventID}
    {bs bs' : BlockState} {p : EvmProcessor T} {txs : List BlockTx} {internal : Bool}
    {state : T.StateDB ⊕ EvmProcessor T}
    (h : executeTxs W (evmModule W T atroposOf) (.inr p) txs internal bs = some (state, bs')) :
    ∃ p' logs receipts, p.execute W txs internal = some (p', logs, receipts) ∧ state = .inr p' := by
  obtain ⟨⟨state₁, logs, receipts⟩, hexecute, h⟩ := Option.bind_eq_some_iff.mp h
  obtain ⟨bs₁, -, h⟩ := Option.bind_eq_some_iff.mp h
  cases h
  obtain ⟨⟨p', logs', receipts'⟩, hexecute, h⟩ := Option.bind_eq_some_iff.mp hexecute
  cases h
  exact ⟨p', logs, receipts, hexecute, rfl⟩

/-! ## Transactions and their receipts -/

/-- Each receipt adds its gas to what was used before. -/
def Cumulative : UInt64 → List Receipt → Prop
  | _, [] => True
  | usedGas, r :: receipts =>
    r.cumulativeGasUsed = usedGas + r.gasUsed ∧ Cumulative r.cumulativeGasUsed receipts

/-- What has become of some transactions: the receipt, if it has been executed. -/
abbrev Verdicts := List (BlockTx × Option Receipt)

namespace Verdicts

/-- The transactions that have been executed. -/
def executed (verdicts : Verdicts) : List BlockTx :=
  verdicts.filterMap fun x => x.2.map fun _ => x.1

/-- The receipts of what has been executed. -/
def receipts (verdicts : Verdicts) : List Receipt := verdicts.filterMap Prod.snd

/-- Which transactions are skipped. -/
def skips (verdicts : Verdicts) : List Bool := verdicts.map fun x => x.2.isNone

/-- A receipt has the hash of its transaction. -/
def Hashed (W : World) (verdicts : Verdicts) : Prop :=
  ∀ tx r, (tx, some r) ∈ verdicts → r.txHash = W.txHash tx

theorem unmarked_skips (verdicts : Verdicts) :
    SkipIndex.unmarked (verdicts.map Prod.fst) verdicts.skips = verdicts.executed := by
  induction verdicts with
  | nil => rfl
  | cons x verdicts ih =>
    obtain ⟨tx, _ | r⟩ := x
    · exact ih
    · exact congrArg (tx :: ·) ih

theorem map_txHash_executed {W : World} {verdicts : Verdicts} (h : verdicts.Hashed W) :
    verdicts.executed.map W.txHash = verdicts.receipts.map Receipt.txHash := by
  induction verdicts with
  | nil => rfl
  | cons x verdicts ih =>
    have ih := ih fun tx r hmem => h tx r (List.mem_cons_of_mem _ hmem)
    obtain ⟨tx, _ | r⟩ := x
    · exact ih
    · exact congrArg₂ List.cons (h tx r List.mem_cons_self).symm ih

end Verdicts

/-- The gas of receipts in all. -/
def sumGasUsed (receipts : List Receipt) : UInt64 := (receipts.map Receipt.gasUsed).sum

theorem sumGasUsed_cons (r : Receipt) (receipts : List Receipt) :
    sumGasUsed (r :: receipts) = r.gasUsed + sumGasUsed receipts := List.sum_cons

theorem sumGasUsed_append (receipts receipts' : List Receipt) :
    sumGasUsed (receipts ++ receipts') = sumGasUsed receipts + sumGasUsed receipts' := by
  rw [sumGasUsed, List.map_append, List.sum_append]
  rfl

theorem Cumulative.append {usedGas : UInt64} {receipts receipts' : List Receipt}
    (h : Cumulative usedGas receipts)
    (h' : Cumulative (usedGas + sumGasUsed receipts) receipts') :
    Cumulative usedGas (receipts ++ receipts') := by
  induction receipts generalizing usedGas with
  | nil => simpa [sumGasUsed] using h'
  | cons r receipts ih =>
    obtain ⟨hfirst, hrest⟩ := h
    refine ⟨hfirst, ih hrest ?_⟩
    rwa [hfirst, UInt64.add_assoc, ← sumGasUsed_cons]

variable {receipts : List Receipt}

/-- The cumulative gas of a receipt is that of all the receipts up to it. -/
theorem Cumulative.getElem? {usedGas : UInt64} (h : Cumulative usedGas receipts) {i : ℕ}
    {r : Receipt} (hi : receipts[i]? = some r) :
    r.cumulativeGasUsed = usedGas + sumGasUsed (receipts.take (i + 1)) := by
  induction receipts generalizing usedGas i with
  | nil => cases hi
  | cons r' receipts ih =>
    obtain ⟨hfirst, hrest⟩ := h
    cases i with
    | zero =>
      cases hi
      simpa [sumGasUsed] using hfirst
    | succ i =>
      rw [ih hrest hi, hfirst, List.take_succ_cons, UInt64.add_assoc, ← sumGasUsed_cons]

/-- What `Process` has done. -/
structure ProcessedTo (W : World) {T : Transition} (i : ℕ) (s s' : Processing T)
    (verdicts : Verdicts) : Prop where
  receipts : s'.receipts = s.receipts ++ verdicts.receipts
  skipped : s'.skipped = s.skipped ++ SkipIndex.indexes i verdicts.skips
  hashed : verdicts.Hashed W
  cumulative : Cumulative s.usedGas verdicts.receipts
  usedGas : s'.usedGas = s.usedGas + sumGasUsed verdicts.receipts

variable {W : World} {T : Transition} {ctx : BlockCtx} {net : Rules} {internal : Bool}
  {verdicts : Verdicts}

theorem applyTransaction_eq_some {s s' : Processing T} {i : ℕ} {tx : BlockTx}
    (h : applyTransaction W ctx net internal s i tx = some s') :
    ∃ receipt, ProcessedTo W i s s' [(tx, receipt)] := by
  obtain ⟨⟨statedb, gp, result⟩, -, h⟩ := Option.bind_eq_some_iff.mp h
  cases result with
  | skipped =>
    cases h
    refine ⟨none, ⟨(List.append_nil _).symm, rfl, ?_, trivial, (UInt64.add_zero _).symm⟩⟩
    intro _ _ hmem
    cases List.mem_singleton.mp hmem
  | executed usedGas failed logs =>
    cases h
    refine ⟨some _, ⟨rfl, (List.append_nil _).symm, ?_, ⟨rfl, trivial⟩, ?_⟩⟩
    · intro _ _ hmem
      cases List.mem_singleton.mp hmem
      rfl
    · exact congrArg (s.usedGas + ·) (List.sum_singleton (x := usedGas)).symm

theorem ProcessedTo.cons {s s₁ s' : Processing T} {i : ℕ} {x : BlockTx × Option Receipt}
    (h : ProcessedTo W i s s₁ [x]) (h' : ProcessedTo W (i + 1) s₁ s' verdicts) :
    ProcessedTo W i s s' (x :: verdicts) := by
  have hreceipts : Verdicts.receipts (x :: verdicts) =
      Verdicts.receipts [x] ++ verdicts.receipts := List.filterMap_append (l := [x])
  have hskips : SkipIndex.indexes i (Verdicts.skips (x :: verdicts)) =
      SkipIndex.indexes i (Verdicts.skips [x]) ++ SkipIndex.indexes (i + 1) verdicts.skips :=
    SkipIndex.indexes_append i [x.2.isNone] verdicts.skips
  have hsum : sumGasUsed (Verdicts.receipts (x :: verdicts)) =
      sumGasUsed (Verdicts.receipts [x]) + sumGasUsed verdicts.receipts := by
    rw [hreceipts, sumGasUsed_append]
  refine ⟨?_, ?_, ?_, ?_, ?_⟩
  · rw [h'.receipts, h.receipts, hreceipts, List.append_assoc]
  · rw [h'.skipped, h.skipped, hskips, List.append_assoc]
  · intro tx r hmem
    rcases List.mem_cons.mp hmem with hx | hmem
    · exact h.hashed tx r (List.mem_singleton.mpr hx)
    · exact h'.hashed tx r hmem
  · rw [hreceipts]
    exact h.cumulative.append (h.usedGas ▸ h'.cumulative)
  · rw [h'.usedGas, h.usedGas, hsum, UInt64.add_assoc]

/-- Every transaction has a verdict. -/
theorem process_eq_some {txs : List BlockTx} {i : ℕ} {s s' : Processing T}
    (h : process W ctx net internal txs i s = some s') :
    ∃ verdicts : Verdicts, verdicts.map Prod.fst = txs ∧ ProcessedTo W i s s' verdicts := by
  induction txs generalizing i s with
  | nil =>
    cases h
    refine ⟨[], rfl, (List.append_nil _).symm, (List.append_nil _).symm, ?_, trivial,
      (UInt64.add_zero _).symm⟩
    intro _ _ hmem
    cases hmem
  | cons tx txs ih =>
    obtain ⟨s₁, hstep, h⟩ := Option.bind_eq_some_iff.mp h
    obtain ⟨receipt, hfirst⟩ := applyTransaction_eq_some hstep
    obtain ⟨verdicts, rfl, hrest⟩ := ih h
    exact ⟨(tx, receipt) :: verdicts, rfl, hfirst.cons hrest⟩

/-! ## The batches of a block -/

/-- What a processor has done since its start. -/
structure Settled (W : World) (p : EvmProcessor T) (verdicts : Verdicts) : Prop where
  incomingTxs : p.incomingTxs = verdicts.map Prod.fst
  receipts : p.receipts = verdicts.receipts
  skippedTxs : p.skippedTxs = SkipIndex.indexes 0 verdicts.skips
  hashed : verdicts.Hashed W
  cumulative : Cumulative 0 p.receipts
  gasUsed : p.gasUsed = sumGasUsed p.receipts

theorem settled_start (atroposOf : UInt64 → Option EventID) (statedb : T.StateDB) :
    Settled W (EvmProcessor.start atroposOf ctx net statedb) [] where
  incomingTxs := rfl
  receipts := rfl
  skippedTxs := rfl
  hashed _ _ hmem := by cases hmem
  cumulative := trivial
  gasUsed := rfl

/-- A further batch: its indexes are shifted behind those of the batches before. -/
theorem Settled.execute {p p' : EvmProcessor T} {txs : List BlockTx} {logs : List Log}
    (h : Settled W p verdicts) (hexecute : p.execute W txs internal = some (p', logs, receipts)) :
    p'.incomingTxs = p.incomingTxs ++ txs ∧ ∃ verdicts', Settled W p' (verdicts ++ verdicts') := by
  obtain ⟨evmBlock, hblock, hexecute⟩ := Option.bind_eq_some_iff.mp hexecute
  obtain ⟨s, hprocess, hdone⟩ := Option.bind_eq_some_iff.mp hexecute
  obtain ⟨prev, -, hblock⟩ := Option.bind_eq_some_iff.mp hblock
  obtain rfl := Option.some.inj hblock
  obtain ⟨verdicts', rfl, hprocessed⟩ := process_eq_some hprocess
  cases hdone
  have hreceipts : s.receipts = verdicts'.receipts := hprocessed.receipts
  have hskipped : s.skipped = SkipIndex.indexes 0 verdicts'.skips := hprocessed.skipped
  have hshift : (if UInt32.ofNat p.incomingTxs.length > 0 then
        s.skipped.map (· + UInt32.ofNat p.incomingTxs.length) else s.skipped) =
      SkipIndex.indexes (0 + verdicts.skips.length) verdicts'.skips := by
    have hlength : verdicts.skips.length = p.incomingTxs.length := by
      rw [h.incomingTxs, List.length_map, Verdicts.skips, List.length_map]
    rw [hlength, Nat.zero_add, hskipped, SkipIndex.indexes_offset]
  refine ⟨rfl, verdicts', ?_, ?_, ?_, ?_, ?_, ?_⟩
  · rw [List.map_append, ← h.incomingTxs]
  · rw [Verdicts.receipts, List.filterMap_append]
    exact congrArg₂ (· ++ ·) h.receipts hreceipts
  · rw [Verdicts.skips, List.map_append]
    exact (congrArg₂ (· ++ ·) h.skippedTxs hshift).trans (SkipIndex.indexes_append _ _ _).symm
  · intro tx r hmem
    rcases List.mem_append.mp hmem with hmem | hmem
    · exact h.hashed tx r hmem
    · exact hprocessed.hashed tx r hmem
  · refine h.cumulative.append ?_
    rw [UInt64.zero_add, ← h.gasUsed, hreceipts]
    exact hprocessed.cumulative
  · rw [sumGasUsed_append, ← h.gasUsed, hreceipts]
    exact hprocessed.usedGas

/-- All the batches. -/
theorem Settled.executes {p p' : EvmProcessor T} {batches : List (List BlockTx × Bool)}
    (h : Settled W p verdicts) (hrun : p.executes W batches = some p') :
    p'.incomingTxs = p.incomingTxs ++ batches.flatMap Prod.fst ∧
      ∃ verdicts', Settled W p' verdicts' := by
  induction batches generalizing p verdicts with
  | nil =>
    cases hrun
    exact ⟨(List.append_nil _).symm, verdicts, h⟩
  | cons batch batches ih =>
    obtain ⟨⟨p₁, logs, receipts⟩, hexecute, hrun⟩ := Option.bind_eq_some_iff.mp hrun
    obtain ⟨hincoming, verdicts₁, h₁⟩ := h.execute hexecute
    obtain ⟨hincoming', hsettled⟩ := ih h₁ hrun
    refine ⟨?_, hsettled⟩
    rw [hincoming', hincoming, List.flatMap_cons, List.append_assoc]

theorem Settled.filterSkippedTxs {p : EvmProcessor T} (h : Settled W p verdicts)
    (hfit : p.incomingTxs.length ≤ 2 ^ 32) :
    filterSkippedTxs p.incomingTxs p.skippedTxs = verdicts.executed := by
  have hlength : verdicts.skips.length = (verdicts.map Prod.fst).length := by
    rw [Verdicts.skips, List.length_map, List.length_map]
  have hdrop : SkipIndex.dropIndexes 0 p.incomingTxs p.skippedTxs = verdicts.executed := by
    rw [h.incomingTxs] at hfit ⊢
    rw [h.skippedTxs, SkipIndex.dropIndexes_indexes hlength (by omega), Verdicts.unmarked_skips]
  rw [Zilionixx.filterSkippedTxs]
  split
  · rename_i hnone
    rw [List.eq_nil_of_length_eq_zero hnone] at hdrop
    rw [← hdrop]
    cases p.incomingTxs with
    | nil => rfl
    | cons => rfl
  · exact hdrop

/-! ## Receipts in the store -/

/-- `types.ReceiptForStorage`, as far as gas is concerned. -/
structure StoredReceipt where
  status : UInt64
  cumulativeGasUsed : UInt64

/-- RLP of receipts. -/
structure ReceiptCodec where
  encode : List StoredReceipt → List UInt8
  decode : List UInt8 → Option (List StoredReceipt)
  decode_encode : ∀ receipts, decode (encode receipts) = some receipts

/-- `SetReceipts`: what is put into the table. -/
def setReceipts (C : ReceiptCodec) (receipts : List Receipt) : List UInt8 :=
  C.encode (receipts.map fun r => ⟨r.status, r.cumulativeGasUsed⟩)

/-- The loop in `GetReceipts`; hashes are not stored. -/
def recomputeGasUsed : UInt64 → List StoredReceipt → List Receipt
  | _, [] => []
  | prev, r :: receipts =>
    { status := r.status
      cumulativeGasUsed := r.cumulativeGasUsed
      txHash := copyBytes 32 []
      gasUsed := r.cumulativeGasUsed - prev } :: recomputeGasUsed r.cumulativeGasUsed receipts

/-- `GetReceipts`, when they are not cached. -/
def getReceipts (C : ReceiptCodec) (buf : List UInt8) : Option (List Receipt) := do
  let receiptsStorage ← C.decode buf
  pure (recomputeGasUsed 0 receiptsStorage)

theorem Cumulative.recomputeGasUsed {usedGas : UInt64} (h : Cumulative usedGas receipts) :
    (recomputeGasUsed usedGas (receipts.map fun r => ⟨r.status, r.cumulativeGasUsed⟩)).map
      Receipt.gasUsed = receipts.map Receipt.gasUsed := by
  induction receipts generalizing usedGas with
  | nil => rfl
  | cons r receipts ih =>
    obtain ⟨hfirst, hrest⟩ := h
    rw [List.map_cons, Zilionixx.recomputeGasUsed, List.map_cons, List.map_cons, ih hrest, hfirst,
      UInt64.add_comm, UInt64.add_sub_cancel]

/-! ## Receipts and transactions are aligned -/

theorem EvmProcessor.finalize_eq_some {p : EvmProcessor T} {evmBlock : EvmBlock}
    {skippedTxs : List UInt32} (h : p.finalize = some (evmBlock, skippedTxs, receipts)) :
    (∃ prevHash, p.prevBlockHash = some prevHash ∧ evmBlock =
        newEvmBlock T
          { number := p.block.idx.toNat
            hash := p.block.atropos
            parentHash := prevHash
            root := evmBlock.root
            txHash := copyBytes 32 []
            time := p.block.time
            gasLimit := maxUint64
            gasUsed := evmBlock.gasUsed }
          (filterSkippedTxs p.incomingTxs p.skippedTxs)) ∧
      skippedTxs = p.skippedTxs ∧ receipts = p.receipts := by
  obtain ⟨block, hblock, h⟩ := Option.bind_eq_some_iff.mp h
  obtain ⟨root, -, h⟩ := Option.bind_eq_some_iff.mp h
  obtain ⟨prev, hprev, hblock⟩ := Option.bind_eq_some_iff.mp hblock
  cases hblock
  cases h
  exact ⟨⟨prev, hprev, rfl⟩, rfl, rfl⟩

/-- **Receipts stay aligned with transactions.** After any batches of transactions,
not more than there are `uint32` indexes: the indexes of the skipped transactions
increase and fit, filtering them keeps just the others, in their order, each has its receipt,
and the gas of the receipts adds up, so that it can be recomputed from the store. -/
theorem receipts_aligned (W : World) (T : Transition) (atroposOf : UInt64 → Option EventID)
    (ctx : BlockCtx) (net : Rules) (statedb : T.StateDB) (batches : List (List BlockTx × Bool))
    (p : EvmProcessor T) (evmBlock : EvmBlock) (skippedTxs : List UInt32) (receipts : List Receipt)
    (hrun : (EvmProcessor.start atroposOf ctx net statedb).executes W batches = some p)
    (hfinalize : p.finalize = some (evmBlock, skippedTxs, receipts))
    (hfit : (batches.flatMap Prod.fst).length ≤ 2 ^ 32) :
    p.incomingTxs = batches.flatMap Prod.fst ∧
      (skippedTxs.Pairwise (· < ·) ∧ ∀ n ∈ skippedTxs, n.toNat < p.incomingTxs.length) ∧
      evmBlock.transactions = filterSkippedTxs p.incomingTxs skippedTxs ∧
      filterSkippedTxs p.incomingTxs skippedTxs =
        (p.incomingTxs.zipIdx.filter fun x => UInt32.ofNat x.2 ∉ skippedTxs).map Prod.fst ∧
      (filterSkippedTxs p.incomingTxs skippedTxs).length = receipts.length ∧
      (filterSkippedTxs p.incomingTxs skippedTxs).map W.txHash = receipts.map Receipt.txHash ∧
      (∀ (i : ℕ) (r : Receipt), receipts[i]? = some r →
        r.cumulativeGasUsed = sumGasUsed (receipts.take (i + 1))) ∧
      ∀ C : ReceiptCodec, (getReceipts C (setReceipts C receipts)).map (·.map Receipt.gasUsed) =
        some (receipts.map Receipt.gasUsed) := by
  obtain ⟨hincoming, verdicts, hsettled⟩ := (settled_start atroposOf statedb).executes hrun
  rw [show (EvmProcessor.start atroposOf ctx net statedb).incomingTxs = [] from rfl,
    List.nil_append] at hincoming
  obtain ⟨⟨prevHash, -, hblock⟩, rfl, rfl⟩ := EvmProcessor.finalize_eq_some hfinalize
  have htxs : evmBlock.transactions = filterSkippedTxs p.incomingTxs p.skippedTxs := by
    rw [hblock]
    rfl
  rw [← hincoming] at hfit
  have hfilter := hsettled.filterSkippedTxs hfit
  have hlength : verdicts.skips.length = p.incomingTxs.length := by
    rw [hsettled.incomingTxs, Verdicts.skips, List.length_map, List.length_map]
  have hfit' : 0 + verdicts.skips.length ≤ 2 ^ 32 := by omega
  have hhashes : (filterSkippedTxs p.incomingTxs p.skippedTxs).map W.txHash =
      p.receipts.map Receipt.txHash := by
    rw [hfilter, hsettled.receipts, Verdicts.map_txHash_executed hsettled.hashed]
  refine ⟨hincoming, ⟨?_, ?_⟩, htxs, ?_, ?_, hhashes, ?_, ?_⟩
  · rw [hsettled.skippedTxs]
    exact SkipIndex.pairwise_indexes hfit'
  · rw [hsettled.skippedTxs]
    intro n hn
    have := (SkipIndex.toNat_of_mem_indexes hfit' hn).2
    omega
  · rw [hfilter]
    simp only [hsettled.skippedTxs]
    rw [SkipIndex.filter_zipIdx_indexes hlength (by omega), hsettled.incomingTxs,
      Verdicts.unmarked_skips]
  · have := congrArg List.length hhashes
    rwa [List.length_map, List.length_map] at this
  · intro i r hi
    rw [hsettled.cumulative.getElem? hi, UInt64.zero_add]
  · intro C
    rw [getReceipts, setReceipts, C.decode_encode]
    exact congrArg some hsettled.cumulative.recomputeGasUsed

/-- A transition for examples, which skips some transactions and executes the
others at a fixed price. -/
def skipTransition (skip : BlockTx → Bool) : Transition where
  StateDB := Unit
  stateDB _ := some ()
  nonce _ := 0
  applyMessage _ _ _ tx _ gp :=
    some ((), gp, if skip tx then .skipped else .executed 21000 false [])
  commit _ := some (copyBytes 32 [])
  deriveSha _ := copyBytes 32 [1]
  emptyRootHash := copyBytes 32 []

/-- A world in which transactions are told apart by their nonces. -/
def nonceWorld : World :=
  { sampleWorld with
    txHash := fun
      | .internal tx => copyBytes 32 [0, tx.nonce.toUInt8]
      | .event tx => copyBytes 32 [1, tx.nonce.toUInt8] }

/-- Told from others by its nonce. -/
def nonceTx (nonce : UInt64) : BlockTx := .internal ⟨nonce, .sealEpochValidators []⟩

/-- Two batches; the second transaction of the second one is skipped. -/
theorem receipts_aligned_nonceTx :
    ∃ p evmBlock receipts,
      (EvmProcessor.start (fun _ => some EventID.zero) ⟨1, 1, EventID.zero⟩ mainNetRules
        ()).executes
          (T := skipTransition (· = nonceTx 3)) nonceWorld
          [([nonceTx 1], true), ([nonceTx 2, nonceTx 3, nonceTx 4], false)] = some p ∧
        p.finalize = some (evmBlock, [2], receipts) ∧
        evmBlock.transactions = [nonceTx 1, nonceTx 2, nonceTx 4] ∧
        receipts.map Receipt.txHash = evmBlock.transactions.map nonceWorld.txHash := by
  obtain ⟨p, hrun, ⟨evmBlock, skippedTxs, receipts⟩, hfinalize, htxs, rfl⟩ :
      ∃ p, (EvmProcessor.start (fun _ => some EventID.zero) ⟨1, 1, EventID.zero⟩ mainNetRules
        ()).executes (T := skipTransition (· = nonceTx 3)) nonceWorld
          [([nonceTx 1], true), ([nonceTx 2, nonceTx 3, nonceTx 4], false)] = some p ∧
        ∃ r, p.finalize = some r ∧
          r.1.transactions = [nonceTx 1, nonceTx 2, nonceTx 4] ∧ r.2.1 = [2] := by
    decide +kernel
  obtain ⟨-, -, hblock, -, -, hhashes, -⟩ :=
    receipts_aligned nonceWorld _ _ _ _ _ _ _ _ _ _ hrun hfinalize (by decide)
  refine ⟨p, evmBlock, receipts, hrun, hfinalize, htxs, ?_⟩
  rw [hblock, hhashes]

theorem process_skipTransition (skip : BlockTx → Bool) (W : World) (ctx : BlockCtx) (net : Rules)
    (internal : Bool) (txs : List BlockTx) (i : ℕ) (s : Processing (skipTransition skip)) :
    ∃ s', process W ctx net internal txs i s = some s' ∧
      s'.skipped = s.skipped ++ SkipIndex.indexes i (txs.map skip) ∧
      s'.receipts.map Receipt.txHash = s.receipts.map Receipt.txHash ++
        (txs.filter fun tx => !skip tx).map W.txHash := by
  induction txs generalizing i s with
  | nil => exact ⟨s, rfl, by simp [SkipIndex.indexes], by simp⟩
  | cons tx txs ih =>
    have hmessage : (skipTransition skip).applyMessage ctx net internal tx s.statedb s.gp =
      some ((), s.gp, if skip tx then .skipped else .executed 21000 false []) := rfl
    cases hskip : skip tx with
    | true =>
      obtain ⟨s', hprocess, hskipped, hreceipts⟩ :=
        ih (i + 1) { s with statedb := (), skipped := s.skipped ++ [UInt32.ofNat i] }
      refine ⟨s', ?_, ?_, ?_⟩
      · rw [process, applyTransaction, hmessage, hskip]
        exact hprocess
      · rw [hskipped, List.map_cons, hskip, SkipIndex.indexes, List.append_assoc]
        rfl
      · rw [hreceipts, List.filter_cons_of_neg (by simp [hskip])]
    | false =>
      obtain ⟨s', hprocess, hskipped, hreceipts⟩ := ih (i + 1)
        { s with
          statedb := ()
          usedGas := s.usedGas + 21000
          receipts := s.receipts ++ [⟨1, s.usedGas + 21000, W.txHash tx, 21000⟩]
          allLogs := s.allLogs ++ [] }
      refine ⟨s', ?_, ?_, ?_⟩
      · rw [process, applyTransaction, hmessage, hskip]
        exact hprocess
      · rw [hskipped, List.map_cons, hskip, SkipIndex.indexes]
      · rw [hreceipts, List.filter_cons_of_pos (by simp [hskip])]
        simp

/-- A single batch. -/
theorem executes_skipTransition (skip : BlockTx → Bool) (W : World) (ctx : BlockCtx) (net : Rules)
    (internal : Bool) (txs : List BlockTx) :
    ∃ p evmBlock receipts,
      (EvmProcessor.start (T := skipTransition skip) (fun _ => some EventID.zero) ctx net
        ()).executes W [(txs, internal)] = some p ∧
      p.finalize = some (evmBlock, SkipIndex.indexes 0 (txs.map skip), receipts) ∧
      evmBlock.transactions = filterSkippedTxs txs (SkipIndex.indexes 0 (txs.map skip)) ∧
      receipts.map Receipt.txHash = (txs.filter fun tx => !skip tx).map W.txHash := by
  obtain ⟨s, hprocess, hskipped, hreceipts⟩ := process_skipTransition skip W ctx net internal txs 0
    { statedb := (), gp := maxUint64, usedGas := 0, receipts := [], allLogs := [], skipped := [] }
  have hrun : (EvmProcessor.start (T := skipTransition skip) (fun _ => some EventID.zero) ctx net
      ()).executes W [(txs, internal)] = some
        ⟨ctx, (), net, some EventID.zero, s.usedGas, txs, s.skipped, s.receipts⟩ := by
    have hexecute := EvmProcessor.execute_of_process
      (p := EvmProcessor.start (T := skipTransition skip) (fun _ => some EventID.zero) ctx net ())
      (ite_self _) hprocess
    rw [EvmProcessor.executes, hexecute]
    exact congrArg (fun prev => some (EvmProcessor.mk (T := skipTransition skip) ctx () net prev
      s.usedGas txs s.skipped s.receipts)) (ite_self _)
  have hskipped : s.skipped = SkipIndex.indexes 0 (txs.map skip) := hskipped
  rw [hskipped] at hrun
  exact ⟨_, _, _, hrun, rfl, rfl, hreceipts⟩

theorem filterSkippedTxs_zero (tx : BlockTx) (txs : List BlockTx) :
    filterSkippedTxs (tx :: txs) [0] = txs := by
  cases txs with
  | nil => rfl
  | cons => rfl

/-- With more transactions than indexes, the index of the last one is that of the
first one, which is then filtered in its place. -/
theorem receipts_misaligned :
    ∃ p evmBlock skippedTxs receipts,
      (EvmProcessor.start (T := skipTransition (· = nonceTx 2)) (fun _ => some EventID.zero)
          ⟨1, 1, EventID.zero⟩ mainNetRules ()).executes nonceWorld
          [(nonceTx 1 :: (List.replicate (2 ^ 32 - 1) (nonceTx 1) ++ [nonceTx 2]), false)] =
            some p ∧
        p.finalize = some (evmBlock, skippedTxs, receipts) ∧
        evmBlock.transactions.map nonceWorld.txHash ≠ receipts.map Receipt.txHash := by
  obtain ⟨p, evmBlock, receipts, hrun, hfinalize, htxs, hreceipts⟩ :=
    executes_skipTransition (· = nonceTx 2) nonceWorld ⟨1, 1, EventID.zero⟩ mainNetRules false
      (nonceTx 1 :: (List.replicate (2 ^ 32 - 1) (nonceTx 1) ++ [nonceTx 2]))
  refine ⟨p, evmBlock, _, receipts, hrun, hfinalize, fun heq => ?_⟩
  have hindexes : SkipIndex.indexes 0 ((nonceTx 1 ::
      (List.replicate (2 ^ 32 - 1) (nonceTx 1) ++ [nonceTx 2])).map (· = nonceTx 2)) = [0] := by
    have hmarks : decide (nonceTx 1 = nonceTx 2) = false := by decide
    rw [List.map_cons, List.map_append, List.map_replicate, hmarks, SkipIndex.indexes,
      SkipIndex.indexes_append, SkipIndex.indexes_replicate_false, List.length_replicate]
    rfl
  -- the last transaction is kept, though it has no receipt
  have hlast : nonceWorld.txHash (nonceTx 2) ∈ evmBlock.transactions.map nonceWorld.txHash := by
    rw [htxs, hindexes, filterSkippedTxs_zero]
    exact List.mem_map_of_mem (List.mem_append_right _ List.mem_cons_self)
  rw [heq, hreceipts] at hlast
  obtain ⟨tx, htx, hhash⟩ := List.mem_map.mp hlast
  obtain ⟨htx, hskip⟩ := List.mem_filter.mp htx
  have hne : tx ≠ nonceTx 2 := by simpa using hskip
  have htx : tx = nonceTx 1 := by
    rcases List.mem_cons.mp htx with heq | htx
    · exact heq
    rcases List.mem_append.mp htx with htx | htx
    · exact (List.mem_replicate.mp htx).2
    · exact absurd (List.mem_singleton.mp htx) hne
  rw [htx] at hhash
  exact absurd hhash (by decide)

end Zilionixx
