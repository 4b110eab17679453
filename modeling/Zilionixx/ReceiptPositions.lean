import Zilionixx.EvmModule

/-!
# Positions of receipts and logs

`StateDB.Prepare` is given the index of a transaction in its batch, and that is what
`TransactionIndex` of the receipt and `TxIndex` of its logs are. The receipts of a block are
those of several batches, without the skipped transactions, so the index in the block is
another one.

`PlacedProcessing` and `PlacedProcessor` are the variables of `Process` and the EVM
processor, with positions; without the positions (`forget`) they are those of `EvmModule`.
-/

namespace Zilionixx

/-- `types.Log` in a `StateDB` -/
structure PlacedLog where
  log : Log
  txHash : Hash
  blockHash : EventID
  txIndex : ℕ
  /-- among the logs of the block -/
  index : ℕ

/-- `types.Receipt` with its position and its logs -/
structure PlacedReceipt extends Receipt where
  blockHash : EventID
  transactionIndex : ℕ
  logs : List PlacedLog

/-- `StateDB`, with what it knows about the transaction and the logs. -/
structure LogDB (T : Transition) where
  db : T.StateDB
  thash : Hash
  bhash : EventID
  txIndex : ℕ
  logs : List PlacedLog

namespace LogDB

variable {T : Transition}

/-- `Prepare` -/
def prepare (s : LogDB T) (thash : Hash) (bhash : EventID) (txIndex : ℕ) : LogDB T :=
  { s with thash := thash, bhash := bhash, txIndex := txIndex }

/-- `AddLog` -/
def addLog (s : LogDB T) (log : Log) : LogDB T :=
  { s with
    logs := s.logs ++
      [{ log := log
         txHash := s.thash
         blockHash := s.bhash
         txIndex := s.txIndex
         index := s.logs.length }] }

/-- The logs of an execution are added. -/
def addLogs (s : LogDB T) (added : List Log) : LogDB T := added.foldl addLog s

/-- `GetLogs` -/
def getLogs (s : LogDB T) (thash : Hash) : List PlacedLog := s.logs.filter (·.txHash = thash)

/-- Added logs are stamped with the transaction that is prepared. -/
theorem addLogs_eq (s : LogDB T) (added : List Log) :
    ∃ stamped, s.addLogs added = { s with logs := s.logs ++ stamped } ∧
      stamped.map PlacedLog.log = added ∧
      ∀ l ∈ stamped, l.txHash = s.thash ∧ l.txIndex = s.txIndex := by
  induction added generalizing s with
  | nil => exact ⟨[], by simp [addLogs], rfl, by simp⟩
  | cons log added ih =>
    obtain ⟨stamped, hstate, hlogs, hstamped⟩ := ih (s.addLog log)
    refine ⟨⟨log, s.thash, s.bhash, s.txIndex, s.logs.length⟩ :: stamped, ?_, ?_, ?_⟩
    · rw [addLogs, List.foldl_cons, ← addLogs, hstate]
      simp [addLog]
    · rw [List.map_cons, hlogs]
    · intro l hl
      rcases List.mem_cons.mp hl with rfl | hl
      · exact ⟨rfl, rfl⟩
      · exact hstamped l hl

end LogDB

/-- The variables of `StateProcessor.Process`. -/
structure PlacedProcessing (T : Transition) where
  statedb : LogDB T
  gp : UInt64
  usedGas : UInt64
  receipts : List PlacedReceipt
  allLogs : List PlacedLog
  skipped : List UInt32

variable {T : Transition}

/-- The receipt that `applyTransaction` makes, in the state that has the logs. -/
def placedReceipt (W : World) (s : LogDB T) (tx : BlockTx) (prevGas usedGas : UInt64)
    (failed : Bool) : PlacedReceipt where
  status := if failed then 0 else 1
  cumulativeGasUsed := prevGas + usedGas
  txHash := W.txHash tx
  gasUsed := usedGas
  blockHash := s.bhash
  transactionIndex := s.txIndex
  logs := s.getLogs (W.txHash tx)

/-- `Prepare`, `applyTransaction`, and the rest of the loop in `Process`. -/
def applyPlaced (W : World) (ctx : BlockCtx) (net : Rules) (internal : Bool)
    (s : PlacedProcessing T) (i : ℕ) (tx : BlockTx) : Option (PlacedProcessing T) := do
  let prepared := s.statedb.prepare (W.txHash tx) ctx.atropos i
  let (db, gp, result) ← T.applyMessage ctx net internal tx prepared.db s.gp
  match result with
  | .skipped =>
    pure
      { s with
        statedb := { prepared with db := db }
        gp := gp
        skipped := s.skipped ++ [UInt32.ofNat i] }
  | .executed usedGas failed added =>
    let statedb := LogDB.addLogs { prepared with db := db } added
    let receipt := placedReceipt W statedb tx s.usedGas usedGas failed
    pure
      { s with
        statedb := statedb
        gp := gp
        usedGas := s.usedGas + usedGas
        receipts := s.receipts ++ [receipt]
        allLogs := s.allLogs ++ receipt.logs }

/-- `Process`: the loop over the transactions, from an index on. -/
def processPlaced (W : World) (ctx : BlockCtx) (net : Rules) (internal : Bool) :
    List BlockTx → ℕ → PlacedProcessing T → Option (PlacedProcessing T)
  | [], _, s => some s
  | tx :: txs, i, s => do
    let s ← applyPlaced W ctx net internal s i tx
    processPlaced W ctx net internal txs (i + 1) s

/-! ## Without the positions -/

/-- A transition whose executions add logs, which are kept by the hash of the transaction. -/
def Transition.withLogs (T : Transition) (W : World) : Transition where
  StateDB := T.StateDB × List (Hash × Log)
  stateDB root := (T.stateDB root).map fun db => (db, [])
  nonce s := T.nonce s.1
  applyMessage ctx net internal tx s gp := do
    let (db, gp, result) ← T.applyMessage ctx net internal tx s.1 gp
    match result with
    | .skipped => pure ((db, s.2), gp, .skipped)
    | .executed usedGas failed added =>
      let logs := s.2 ++ added.map fun log => (W.txHash tx, log)
      pure ((db, logs), gp,
        .executed usedGas failed ((logs.filter (·.1 = W.txHash tx)).map Prod.snd))
  commit s := T.commit s.1
  deriveSha := T.deriveSha
  emptyRootHash := T.emptyRootHash

/-- The logs without their positions. -/
def LogDB.forget (W : World) (s : LogDB T) : (T.withLogs W).StateDB :=
  (s.db, s.logs.map fun l => (l.txHash, l.log))

/-- A batch without positions. -/
def PlacedProcessing.forget (W : World) (s : PlacedProcessing T) : Processing (T.withLogs W) where
  statedb := s.statedb.forget W
  gp := s.gp
  usedGas := s.usedGas
  receipts := s.receipts.map PlacedReceipt.toReceipt
  allLogs := s.allLogs.map PlacedLog.log
  skipped := s.skipped

variable {W : World} {ctx : BlockCtx} {net : Rules} {internal : Bool} {s s' : PlacedProcessing T}
  {i : ℕ}

theorem getLogs_forget (logs : List PlacedLog) (thash : Hash) :
    (((logs.map fun l => (l.txHash, l.log)).filter (·.1 = thash)).map Prod.snd) =
      (logs.filter (·.txHash = thash)).map PlacedLog.log := by
  rw [List.filter_map, List.map_map]
  rfl

/-- A transaction is skipped, or it is executed and some logs are stamped. -/
theorem applyPlaced_eq_some {tx : BlockTx} (h : applyPlaced W ctx net internal s i tx = some s') :
    (∃ db gp, T.applyMessage ctx net internal tx s.statedb.db s.gp = some (db, gp, .skipped) ∧
      s' =
        { s with
          statedb := ⟨db, W.txHash tx, ctx.atropos, i, s.statedb.logs⟩
          gp := gp
          skipped := s.skipped ++ [UInt32.ofNat i] }) ∨
    ∃ db gp usedGas failed stamped,
      T.applyMessage ctx net internal tx s.statedb.db s.gp =
        some (db, gp, .executed usedGas failed (stamped.map PlacedLog.log)) ∧
      (∀ l ∈ stamped, l.txHash = W.txHash tx ∧ l.txIndex = i) ∧
      s' =
        { s with
          statedb := ⟨db, W.txHash tx, ctx.atropos, i, s.statedb.logs ++ stamped⟩
          gp := gp
          usedGas := s.usedGas + usedGas
          receipts := s.receipts ++ [placedReceipt W
            ⟨db, W.txHash tx, ctx.atropos, i, s.statedb.logs ++ stamped⟩
            tx s.usedGas usedGas failed]
          allLogs :=
            s.allLogs ++ (s.statedb.logs ++ stamped).filter (·.txHash = W.txHash tx) } := by
  obtain ⟨⟨db, gp, result⟩, happly, h⟩ := Option.bind_eq_some_iff.mp h
  cases result with
  | skipped =>
    cases h
    exact .inl ⟨db, gp, happly, rfl⟩
  | executed usedGas failed added =>
    obtain ⟨stamped, hstate, rfl, hstamped⟩ := LogDB.addLogs_eq
      { s.statedb.prepare (W.txHash tx) ctx.atropos i with db := db } added
    simp only [hstate] at h
    cases h
    exact .inr ⟨db, gp, usedGas, failed, stamped, happly, hstamped, rfl⟩

theorem forget_applyPlaced {tx : BlockTx} (h : applyPlaced W ctx net internal s i tx = some s') :
    applyTransaction W ctx net internal (s.forget W) i tx = some (s'.forget W) := by
  rcases applyPlaced_eq_some h with ⟨db, gp, happly, rfl⟩ |
    ⟨db, gp, usedGas, failed, stamped, happly, hstamped, rfl⟩
  · have hmessage : (T.withLogs W).applyMessage ctx net internal tx (s.forget W).statedb
        (s.forget W).gp = some ((db, (s.forget W).statedb.2), gp, .skipped) := by
      change (T.applyMessage ctx net internal tx s.statedb.db s.gp >>= _) = _
      rw [happly]
      rfl
    rw [applyTransaction, hmessage]
    rfl
  · have hlogs : (s.forget W).statedb.2 ++
        (stamped.map PlacedLog.log).map (fun log => (W.txHash tx, log)) =
        (s.statedb.logs ++ stamped).map fun l => (l.txHash, l.log) := by
      rw [List.map_append, List.map_map]
      refine congrArg _ (List.map_congr_left fun l hl => ?_)
      rw [(hstamped l hl).1]
      rfl
    have hmessage : (T.withLogs W).applyMessage ctx net internal tx (s.forget W).statedb
        (s.forget W).gp =
          some ((db, (s.statedb.logs ++ stamped).map fun l => (l.txHash, l.log)), gp,
            .executed usedGas failed
              (((s.statedb.logs ++ stamped).filter (·.txHash = W.txHash tx)).map
                PlacedLog.log)) := by
      change (T.applyMessage ctx net internal tx s.statedb.db s.gp >>= _) = _
      rw [happly]
      change some ((db, (s.forget W).statedb.2 ++ (stamped.map PlacedLog.log).map
        (fun log => (W.txHash tx, log))), gp, MessageResult.executed usedGas failed _) = _
      rw [hlogs, getLogs_forget]
    rw [applyTransaction, hmessage]
    simp only [PlacedProcessing.forget, LogDB.forget, List.map_append]
    rfl

theorem forget_processPlaced {txs : List BlockTx}
    (h : processPlaced W ctx net internal txs i s = some s') :
    process W ctx net internal txs i (s.forget W) = some (s'.forget W) := by
  induction txs generalizing i s with
  | nil =>
    cases h
    rfl
  | cons tx txs ih =>
    obtain ⟨s₁, hstep, h⟩ := Option.bind_eq_some_iff.mp h
    rw [process, forget_applyPlaced hstep]
    exact ih h

/-! ## The EVM processor -/

/-- `zilionixxEVMProcessor` -/
structure PlacedProcessor (T : Transition) where
  block : BlockCtx
  statedb : LogDB T
  net : Rules
  prevBlockHash : Option EventID
  gasUsed : UInt64
  incomingTxs : List BlockTx
  skippedTxs : List UInt32
  receipts : List PlacedReceipt

namespace PlacedProcessor

/-- `EVMModule.Start`, with a `StateDB` that has no logs yet -/
def start (atroposOf : UInt64 → Option EventID) (block : BlockCtx) (net : Rules)
    (statedb : T.StateDB) : PlacedProcessor T where
  block := block
  statedb := ⟨statedb, copyBytes 32 [], EventID.zero, 0, []⟩
  net := net
  prevBlockHash := if block.idx ≠ 0 then atroposOf (block.idx - 1) else some EventID.zero
  gasUsed := 0
  incomingTxs := []
  skippedTxs := []
  receipts := []

/-- A processor without positions. -/
def forget (W : World) (p : PlacedProcessor T) : EvmProcessor (T.withLogs W) where
  block := p.block
  statedb := p.statedb.forget W
  net := p.net
  prevBlockHash := p.prevBlockHash
  gasUsed := p.gasUsed
  incomingTxs := p.incomingTxs
  skippedTxs := p.skippedTxs
  receipts := p.receipts.map PlacedReceipt.toReceipt

/-- `Execute` -/
def execute (W : World) (p : PlacedProcessor T) (txs : List BlockTx) (internal : Bool) :
    Option (PlacedProcessor T × List PlacedLog × List PlacedReceipt) := do
  -- process txs
  let evmBlock ← (p.forget W).evmBlockWith txs
  let s ← processPlaced W p.block p.net internal evmBlock.transactions 0
    { statedb := p.statedb
      gp := evmBlock.gasLimit
      usedGas := p.gasUsed
      receipts := []
      allLogs := []
      skipped := [] }
  let offset := UInt32.ofNat p.incomingTxs.length
  let skipped := if offset > 0 then s.skipped.map (· + offset) else s.skipped
  pure
    ({ p with
        statedb := s.statedb
        gasUsed := s.usedGas
        incomingTxs := p.incomingTxs ++ txs
        skippedTxs := p.skippedTxs ++ skipped
        receipts := p.receipts ++ s.receipts }, s.allLogs, s.receipts)

/-- A sequence of `Execute` calls. -/
def executes (W : World) (p : PlacedProcessor T) :
    List (List BlockTx × Bool) → Option (PlacedProcessor T)
  | [] => some p
  | (txs, internal) :: batches => do
    let (p, _, _) ← p.execute W txs internal
    executes W p batches

/-- `Finalize` -/
def finalize (W : World) (p : PlacedProcessor T) :
    Option (EvmBlock × List UInt32 × List PlacedReceipt) := do
  let (evmBlock, skippedTxs, _) ← (p.forget W).finalize
  pure (evmBlock, skippedTxs, p.receipts)

variable {p p' : PlacedProcessor T}

/-- What `Execute` does, by what `Process` does. -/
theorem execute_eq_some {txs : List BlockTx} {logs : List PlacedLog} {receipts : List PlacedReceipt}
    (h : p.execute W txs internal = some (p', logs, receipts)) :
    ∃ prev s, p.prevBlockHash = some prev ∧
      processPlaced W p.block p.net internal txs 0
        ⟨p.statedb, maxUint64, p.gasUsed, [], [], []⟩ = some s ∧
      logs = s.allLogs ∧ receipts = s.receipts ∧
      p' =
        { p with
          statedb := s.statedb
          gasUsed := s.usedGas
          incomingTxs := p.incomingTxs ++ txs
          skippedTxs := p.skippedTxs ++
            if UInt32.ofNat p.incomingTxs.length > 0 then
              s.skipped.map (· + UInt32.ofNat p.incomingTxs.length)
            else s.skipped
          receipts := p.receipts ++ s.receipts } := by
  obtain ⟨evmBlock, hblock, h⟩ := Option.bind_eq_some_iff.mp h
  obtain ⟨s, hprocess, hdone⟩ := Option.bind_eq_some_iff.mp h
  obtain ⟨prev, hprev, hblock⟩ := Option.bind_eq_some_iff.mp hblock
  obtain rfl := Option.some.inj hblock
  cases hdone
  exact ⟨prev, s, hprev, hprocess, rfl, rfl, rfl⟩

theorem forget_execute {txs : List BlockTx} {logs : List PlacedLog} {receipts : List PlacedReceipt}
    (h : p.execute W txs internal = some (p', logs, receipts)) :
    (p.forget W).execute W txs internal =
      some (p'.forget W, logs.map PlacedLog.log, receipts.map PlacedReceipt.toReceipt) := by
  obtain ⟨prev, s, hprev, hprocess, rfl, rfl, rfl⟩ := execute_eq_some h
  have hprev : (p.forget W).prevBlockHash = some prev := hprev
  rw [EvmProcessor.execute_of_process hprev (forget_processPlaced hprocess)]
  simp only [forget, PlacedProcessing.forget, List.map_append]
  rfl

theorem forget_executes {batches : List (List BlockTx × Bool)} (h : p.executes W batches = some p')
    :
    (p.forget W).executes W batches = some (p'.forget W) := by
  induction batches generalizing p with
  | nil =>
    cases h
    rfl
  | cons batch batches ih =>
    obtain ⟨⟨p₁, logs, receipts⟩, hexecute, h⟩ := Option.bind_eq_some_iff.mp h
    rw [EvmProcessor.executes, forget_execute hexecute]
    exact ih h

end PlacedProcessor

/-! ## Positions -/

/-- Every receipt has the index at which it stands, and so have its logs, which are sent to
the feed of new logs. -/
def Positioned (receipts : List PlacedReceipt) : Prop :=
  ∀ (i : ℕ) (r : PlacedReceipt), receipts[i]? = some r →
    r.transactionIndex = i ∧ ∀ l ∈ r.logs, l.txIndex = i

/-- The indexes inside their batches of the transactions that are not skipped. -/
def batchIndexes (marks : List (List Bool)) : List ℕ :=
  marks.flatMap fun batch => SkipIndex.unmarked (List.range batch.length) batch

/-- Receipts, and the logs of the state after them: a receipt has the logs of its hash. -/
inductive Logged : List PlacedReceipt → List PlacedLog → Prop where
  | nil : Logged [] []
  | snoc {receipts : List PlacedReceipt} {logs stamped : List PlacedLog} {r : PlacedReceipt} :
      Logged receipts logs →
      (∀ l ∈ stamped, l.txHash = r.txHash ∧ l.txIndex = r.transactionIndex) →
      r.logs = (logs ++ stamped).filter (·.txHash = r.txHash) →
      Logged (receipts ++ [r]) (logs ++ stamped)

theorem getElem?_snoc_eq_some {α : Type} {xs : List α} {x y : α} :
    (xs ++ [x])[i]? = some y ↔ xs[i]? = some y ∨ i = xs.length ∧ y = x := by
  rcases Nat.lt_trichotomy i xs.length with hlt | rfl | hgt
  · rw [List.getElem?_append_left hlt]
    exact ⟨.inl, fun h => h.resolve_right fun h => by omega⟩
  · simp [eq_comm]
  · have hnone : xs[i]? = none := List.getElem?_eq_none hgt.le
    have hnone' : (xs ++ [x])[i]? = none := List.getElem?_eq_none (by simpa using hgt)
    rw [hnone, hnone']
    simp [hgt.ne']

namespace Logged

variable {receipts : List PlacedReceipt} {logs : List PlacedLog} {r r' : PlacedReceipt}
  {l : PlacedLog} {i j : ℕ}

theorem mem_logs (h : Logged receipts logs) (hi : receipts[i]? = some r) (hl : l ∈ r.logs) :
    l ∈ logs ∧ l.txHash = r.txHash := by
  induction h with
  | nil => cases hi
  | @snoc receipts logs stamped last _ _ hlast ih =>
    rcases getElem?_snoc_eq_some.mp hi with hi | ⟨-, rfl⟩
    · obtain ⟨hmem, hhash⟩ := ih hi
      exact ⟨List.mem_append_left _ hmem, hhash⟩
    · rw [hlast, List.mem_filter] at hl
      exact ⟨hl.1, of_decide_eq_true hl.2⟩

/-- A log has been stamped for a receipt. -/
theorem source (h : Logged receipts logs) (hl : l ∈ logs) :
    ∃ (i : ℕ) (r : PlacedReceipt), receipts[i]? = some r ∧ l.txHash = r.txHash ∧
      l.txIndex = r.transactionIndex ∧ l ∈ r.logs := by
  induction h with
  | nil => cases hl
  | @snoc receipts logs stamped last _ hstamped hlast ih =>
    rcases List.mem_append.mp hl with hl | hl
    · obtain ⟨i, r, hi, hr⟩ := ih hl
      exact ⟨i, r, getElem?_snoc_eq_some.mpr (.inl hi), hr⟩
    · obtain ⟨hhash, hindex⟩ := hstamped l hl
      refine ⟨receipts.length, last, getElem?_snoc_eq_some.mpr (.inr ⟨rfl, rfl⟩), hhash, hindex, ?_⟩
      rw [hlast, List.mem_filter]
      exact ⟨List.mem_append_right _ hl, decide_eq_true hhash⟩

/-- The logs of a receipt have been stamped for it, or for one before it with its hash. -/
theorem source_le (h : Logged receipts logs) (hj : receipts[j]? = some r) (hl : l ∈ r.logs) :
    ∃ i ≤ j, ∃ r', receipts[i]? = some r' ∧ r'.txHash = r.txHash ∧
      l.txIndex = r'.transactionIndex ∧ l ∈ r'.logs := by
  induction h with
  | nil => cases hj
  | @snoc receipts logs stamped last hlogged hstamped hlast ih =>
    rcases getElem?_snoc_eq_some.mp hj with hj | ⟨rfl, rfl⟩
    · obtain ⟨i, hij, r', hi, hr'⟩ := ih hj
      exact ⟨i, hij, r', getElem?_snoc_eq_some.mpr (.inl hi), hr'⟩
    · have hmem := (hlogged.snoc hstamped hlast).mem_logs hj hl
      obtain ⟨i, r', hi, hhash, hr'⟩ := (hlogged.snoc hstamped hlast).source hmem.1
      have hlt := (List.getElem?_eq_some_iff.mp hi).1
      rw [List.length_append, List.length_singleton] at hlt
      exact ⟨i, by omega, r', hi, hhash.symm.trans hmem.2, hr'⟩

/-- A later receipt with the same hash has the logs too. -/
theorem mono (h : Logged receipts logs) (hij : i ≤ j) (hi : receipts[i]? = some r)
    (hj : receipts[j]? = some r') (hhash : r.txHash = r'.txHash) (hl : l ∈ r.logs) :
    l ∈ r'.logs := by
  induction h with
  | nil => cases hj
  | @snoc receipts logs stamped last hlogged hstamped hlast ih =>
    rcases getElem?_snoc_eq_some.mp hj with hj | ⟨-, rfl⟩
    · rcases getElem?_snoc_eq_some.mp hi with hi | ⟨rfl, -⟩
      · exact ih hi hj
      · have := (List.getElem?_eq_some_iff.mp hj).1
        omega
    · obtain ⟨hmem, hl⟩ := (hlogged.snoc hstamped hlast).mem_logs hi hl
      rw [hlast, List.mem_filter]
      exact ⟨hmem, decide_eq_true (hl.trans hhash)⟩

theorem positioned_iff (h : Logged receipts logs) :
    Positioned receipts ↔
      receipts.map PlacedReceipt.transactionIndex = List.range receipts.length ∧
        ∀ (i j : ℕ) (r r' : PlacedReceipt), i < j → receipts[i]? = some r → receipts[j]? = some r' →
          r.txHash = r'.txHash → r.logs = [] := by
  constructor
  · intro hpos
    refine ⟨?_, ?_⟩
    · refine List.ext_getElem (by simp) fun i hi _ => ?_
      rw [List.length_map] at hi
      rw [List.getElem_map, List.getElem_range]
      exact (hpos i _ (List.getElem?_eq_getElem hi)).1
    · intro i j r r' hij hi hj hhash
      refine List.eq_nil_iff_forall_not_mem.mpr fun l hl => ?_
      have hlow := (hpos i r hi).2 l hl
      have hhigh := (hpos j r' hj).2 l (h.mono hij.le hi hj hhash hl)
      omega
  · rintro ⟨hindexes, hrepeated⟩ j r hj
    have hindex :
        ∀ {i : ℕ} {r : PlacedReceipt}, receipts[i]? = some r → r.transactionIndex = i := by
      intro i r hi
      have hmap := congrArg (·[i]?) hindexes
      obtain ⟨hlt, rfl⟩ := List.getElem?_eq_some_iff.mp hi
      simpa [hlt] using hmap
    refine ⟨hindex hj, fun l hl => ?_⟩
    obtain ⟨i, hij, r', hi, hhash, hl', hmem⟩ := h.source_le hj hl
    rcases Nat.lt_or_eq_of_le hij with hlt | rfl
    · rw [hrepeated i j r' r hlt hi hj hhash] at hmem
      cases hmem
    · rw [hl', hindex hi]

end Logged

/-- Receipts of different transactions have different hashes. -/
theorem txHash_ne_of_nodup {receipts : List PlacedReceipt}
    (h : (receipts.map fun r => r.txHash).Nodup) {i j : ℕ} {r r' : PlacedReceipt} (hij : i < j)
    (hi : receipts[i]? = some r) (hj : receipts[j]? = some r') : r.txHash ≠ r'.txHash := by
  have hlt := (List.getElem?_eq_some_iff.mp hj).1
  have hne := List.nodup_iff_getElem?_ne_getElem?.mp h i j hij (by rwa [List.length_map])
  rw [List.getElem?_map, List.getElem?_map, hi, hj] at hne
  exact fun heq => hne (congrArg some heq)

/-! ## A batch, and the batches of a block -/

/-- What `Process` has done, from an index on, with the transactions marked as skipped or
not. -/
structure PlacedTo (i : ℕ) (s s' : PlacedProcessing T) (marks : List Bool) : Prop where
  receipts : ∃ new, s'.receipts = s.receipts ++ new ∧
    new.map PlacedReceipt.transactionIndex = SkipIndex.unmarked (List.range' i marks.length) marks
  skipped : s'.skipped = s.skipped ++ SkipIndex.indexes i marks
  /-- whatever receipts there are from the batches before -/
  logged : ∀ before, Logged (before ++ s.receipts) s.statedb.logs →
    Logged (before ++ s'.receipts) s'.statedb.logs

theorem placedTo_applyPlaced {tx : BlockTx} (h : applyPlaced W ctx net internal s i tx = some s') :
    ∃ mark, PlacedTo i s s' [mark] := by
  rcases applyPlaced_eq_some h with ⟨db, gp, -, rfl⟩ |
    ⟨db, gp, usedGas, failed, stamped, -, hstamped, rfl⟩
  · exact ⟨true, ⟨[], (List.append_nil _).symm, rfl⟩, rfl, fun _ hlogged => hlogged⟩
  · refine ⟨false, ⟨_, rfl, rfl⟩, (List.append_nil _).symm, fun before hlogged => ?_⟩
    rw [← List.append_assoc]
    exact hlogged.snoc hstamped rfl

theorem PlacedTo.cons {s s₁ s' : PlacedProcessing T} {mark : Bool} {marks : List Bool}
    (h : PlacedTo i s s₁ [mark]) (h' : PlacedTo (i + 1) s₁ s' marks) :
    PlacedTo i s s' (mark :: marks) where
  receipts := by
    obtain ⟨new, hnew, hindexes⟩ := h.receipts
    obtain ⟨new', hnew', hindexes'⟩ := h'.receipts
    refine ⟨new ++ new', by rw [hnew', hnew, List.append_assoc], ?_⟩
    rw [List.map_append, hindexes, hindexes', List.length_cons, List.range'_succ]
    cases mark with
    | true => rfl
    | false => rfl
  skipped := by
    rw [h'.skipped, h.skipped, List.append_assoc]
    exact congrArg _ (SkipIndex.indexes_append i [mark] marks).symm
  logged before hlogged := h'.logged before (h.logged before hlogged)

theorem placedTo_processPlaced {txs : List BlockTx}
    (h : processPlaced W ctx net internal txs i s = some s') :
    ∃ marks, marks.length = txs.length ∧ PlacedTo i s s' marks := by
  induction txs generalizing i s with
  | nil =>
    cases h
    exact ⟨[], rfl, ⟨[], (List.append_nil _).symm, rfl⟩, (List.append_nil _).symm, fun _ h => h⟩
  | cons tx txs ih =>
    obtain ⟨s₁, hstep, h⟩ := Option.bind_eq_some_iff.mp h
    obtain ⟨mark, hfirst⟩ := placedTo_applyPlaced hstep
    obtain ⟨marks, hlength, hrest⟩ := ih h
    exact ⟨mark :: marks, by simp [hlength], hfirst.cons hrest⟩

/-- What a processor has done since its start, batch by batch. -/
structure PlacedBatches (p : PlacedProcessor T) (marks : List (List Bool)) : Prop where
  incomingTxs : marks.flatten.length = p.incomingTxs.length
  indexes : p.receipts.map PlacedReceipt.transactionIndex = batchIndexes marks
  skippedTxs : p.skippedTxs = SkipIndex.indexes 0 marks.flatten
  logged : Logged p.receipts p.statedb.logs

theorem PlacedBatches.execute {p p' : PlacedProcessor T} {marks : List (List Bool)}
    {txs : List BlockTx} {logs : List PlacedLog} {receipts : List PlacedReceipt}
    (h : PlacedBatches p marks) (hexecute : p.execute W txs internal = some (p', logs, receipts)) :
    ∃ batch, batch.length = txs.length ∧ PlacedBatches p' (marks ++ [batch]) := by
  obtain ⟨prev, s, hprev, hprocess, rfl, rfl, rfl⟩ := PlacedProcessor.execute_eq_some hexecute
  obtain ⟨batch, hlength, ⟨new, hnew, hindexes⟩, hskipped, hlogged⟩ :=
    placedTo_processPlaced hprocess
  have hnew : s.receipts = new := hnew
  have hskipped : s.skipped = SkipIndex.indexes 0 batch := hskipped
  refine ⟨batch, hlength, ?_, ?_, ?_, hlogged p.receipts ?_⟩
  · simp [h.incomingTxs, hlength]
  · rw [List.map_append, h.indexes, hnew, hindexes, batchIndexes, batchIndexes, List.flatMap_append,
      List.flatMap_singleton, List.range_eq_range']
  · rw [h.skippedTxs, hskipped, SkipIndex.indexes_offset, List.flatten_append,
      List.flatten_singleton,
      SkipIndex.indexes_append, Nat.zero_add, h.incomingTxs]
  · rw [List.append_nil]
    exact h.logged

theorem PlacedBatches.executes {p p' : PlacedProcessor T} {marks : List (List Bool)}
    {batches : List (List BlockTx × Bool)} (h : PlacedBatches p marks)
    (hrun : p.executes W batches = some p') :
    ∃ new, new.map List.length = batches.map (fun batch => batch.1.length) ∧
      PlacedBatches p' (marks ++ new) := by
  induction batches generalizing p marks with
  | nil =>
    cases hrun
    exact ⟨[], rfl, by rwa [List.append_nil]⟩
  | cons batch batches ih =>
    obtain ⟨⟨p₁, logs, receipts⟩, hexecute, hrun⟩ := Option.bind_eq_some_iff.mp hrun
    obtain ⟨first, hfirst, h₁⟩ := h.execute hexecute
    obtain ⟨new, hnew, h'⟩ := ih h₁ hrun
    refine ⟨first :: new, by simp [hfirst, hnew], ?_⟩
    rwa [List.append_assoc] at h'

theorem placedBatches_start (atroposOf : UInt64 → Option EventID) (statedb : T.StateDB) :
    PlacedBatches (PlacedProcessor.start atroposOf ctx net statedb) [] :=
  ⟨rfl, rfl, rfl, .nil⟩

/-- **Positions of receipts.** The index of a receipt is that of its transaction inside its
batch. After all the batches of a block, receipts and logs have their positions in the block
exactly if these indexes count up through the batches, and a transaction that is executed
twice has no logs before its last execution. -/
theorem receipts_positioned_iff (W : World) (T : Transition) (atroposOf : UInt64 → Option EventID)
    (ctx : BlockCtx) (net : Rules) (statedb : T.StateDB) (batches : List (List BlockTx × Bool))
    (p : PlacedProcessor T) (evmBlock : EvmBlock) (skippedTxs : List UInt32)
    (receipts : List PlacedReceipt)
    (hrun : (PlacedProcessor.start atroposOf ctx net statedb).executes W batches = some p)
    (hfinalize : p.finalize W = some (evmBlock, skippedTxs, receipts)) :
    ((batches.flatMap Prod.fst).length ≤ 2 ^ 32 →
      evmBlock.transactions.map W.txHash = receipts.map fun r => r.txHash) ∧
    ∃ marks : List (List Bool),
      marks.map List.length = batches.map (fun batch => batch.1.length) ∧
      skippedTxs = SkipIndex.indexes 0 marks.flatten ∧
      receipts.map PlacedReceipt.transactionIndex = batchIndexes marks ∧
      (Positioned receipts ↔
        batchIndexes marks = List.range receipts.length ∧
          ∀ (i j : ℕ) (r r' : PlacedReceipt), i < j → receipts[i]? = some r →
            receipts[j]? = some r' →
            r.txHash = r'.txHash → r.logs = []) := by
  obtain ⟨⟨block, skipped, plain⟩, hplain, hdone⟩ := Option.bind_eq_some_iff.mp hfinalize
  cases hdone
  obtain ⟨⟨prev, -, hblock⟩, rfl, -⟩ := EvmProcessor.finalize_eq_some hplain
  obtain ⟨marks, hlengths, hplaced⟩ := (placedBatches_start atroposOf statedb).executes hrun
  rw [List.nil_append] at hplaced
  refine ⟨fun hfit => ?_, marks, hlengths, hplaced.skippedTxs, hplaced.indexes, ?_⟩
  · have hstart : Settled W ((PlacedProcessor.start atroposOf ctx net statedb).forget W) [] :=
      settled_start (T := T.withLogs W) atroposOf (statedb, [])
    obtain ⟨hincoming, verdicts, hsettled⟩ :=
      hstart.executes (PlacedProcessor.forget_executes hrun)
    have hfit : (p.forget W).incomingTxs.length ≤ 2 ^ 32 := by
      rw [hincoming]
      exact hfit
    have htxs : evmBlock.transactions = verdicts.executed := by
      rw [hblock, ← hsettled.filterSkippedTxs hfit]
      rfl
    have hreceipts : p.receipts.map PlacedReceipt.toReceipt = verdicts.receipts := hsettled.receipts
    rw [htxs, Verdicts.map_txHash_executed hsettled.hashed, ← hreceipts, List.map_map]
    rfl
  · rw [hplaced.logged.positioned_iff, hplaced.indexes]

/-- Like `skipTransition`, with a log for every execution. -/
def logTransition (skip : BlockTx → Bool) : Transition :=
  { skipTransition skip with
    applyMessage := fun _ _ _ tx _ gp =>
      some ((), gp, if skip tx then .skipped
        else .executed 21000 false [⟨copyBytes 20 [], [], ⟨[], [], by decide⟩⟩]) }

/-- A single batch whose last transaction is skipped. -/
theorem receipts_positioned_nonceTx :
    ∃ p evmBlock receipts,
      (PlacedProcessor.start (T := logTransition (· = nonceTx 3)) (fun _ => some EventID.zero)
          ⟨1, 1, EventID.zero⟩ mainNetRules ()).executes nonceWorld
          [([nonceTx 1, nonceTx 2, nonceTx 3], false)] = some p ∧
        p.finalize nonceWorld = some (evmBlock, [2], receipts) ∧ receipts.length = 2 ∧
        Positioned receipts := by
  obtain ⟨p, hrun, ⟨evmBlock, skippedTxs, receipts⟩, hfinalize, rfl, hlength, hindexes, hhashes⟩ :
      ∃ p, (PlacedProcessor.start (T := logTransition (· = nonceTx 3)) (fun _ => some EventID.zero)
        ⟨1, 1, EventID.zero⟩ mainNetRules ()).executes nonceWorld
          [([nonceTx 1, nonceTx 2, nonceTx 3], false)] = some p ∧
        ∃ r, p.finalize nonceWorld = some r ∧ r.2.1 = [2] ∧ r.2.2.length = 2 ∧
          r.2.2.map PlacedReceipt.transactionIndex = [0, 1] ∧
          r.2.2.map (fun r => r.txHash) =
            [nonceWorld.txHash (nonceTx 1), nonceWorld.txHash (nonceTx 2)] := by
    decide +kernel
  obtain ⟨-, marks, -, -, hmarks, hiff⟩ :=
    receipts_positioned_iff nonceWorld _ _ _ _ _ _ _ _ _ _ hrun hfinalize
  refine ⟨p, evmBlock, receipts, hrun, hfinalize, hlength, hiff.mpr ⟨?_, ?_⟩⟩
  · rw [← hmarks, hindexes, hlength]
    rfl
  · intro i j r r' hij hi hj hhash
    have hnodup : (receipts.map fun r => r.txHash).Nodup := by
      rw [hhashes]
      decide
    exact absurd hhash (txHash_ne_of_nodup hnodup hij hi hj)

/-- An internal transaction and one of an event, each the first of its batch: the second
receipt, and its log, have index 0 as well. -/
theorem receipts_misplaced :
    ∃ p evmBlock receipts r,
      (PlacedProcessor.start (T := logTransition fun _ => false) (fun _ => some EventID.zero)
          ⟨1, 1, EventID.zero⟩ mainNetRules ()).executes nonceWorld
          [([nonceTx 1], true), ([nonceTx 2], false)] = some p ∧
        p.finalize nonceWorld = some (evmBlock, [], receipts) ∧
        evmBlock.transactions = [nonceTx 1, nonceTx 2] ∧ receipts[1]? = some r ∧
        r.txHash = nonceWorld.txHash (nonceTx 2) ∧ r.transactionIndex = 0 ∧
        r.logs.map PlacedLog.txIndex = [0] ∧ ¬Positioned receipts := by
  obtain ⟨p, hrun, ⟨evmBlock, skippedTxs, receipts⟩, hfinalize, rfl, htxs, r, hr, hhash, hindex,
      hlogs⟩ :
      ∃ p, (PlacedProcessor.start (T := logTransition fun _ => false) (fun _ => some EventID.zero)
        ⟨1, 1, EventID.zero⟩ mainNetRules ()).executes nonceWorld
          [([nonceTx 1], true), ([nonceTx 2], false)] = some p ∧
        ∃ out, p.finalize nonceWorld = some out ∧ out.2.1 = [] ∧
          out.1.transactions = [nonceTx 1, nonceTx 2] ∧
          ∃ r, out.2.2[1]? = some r ∧ r.txHash = nonceWorld.txHash (nonceTx 2) ∧
            r.transactionIndex = 0 ∧ r.logs.map PlacedLog.txIndex = [0] := by
    decide +kernel
  refine ⟨p, evmBlock, receipts, r, hrun, hfinalize, htxs, hr, hhash, hindex, hlogs, fun hpos => ?_⟩
  have := (hpos 1 r hr).1
  omega

end Zilionixx
