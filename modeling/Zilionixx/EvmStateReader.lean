import Zilionixx.BlockStep
import Zilionixx.EvmModule

/-!
# `EvmStateReader`: blocks from the store

`evm_state_reader.go`, and the index of transactions that `blockFn` builds. A block
that is executed is cached. When it is not in the cache any more, it is rebuilt from what has
been stored, by reading its transactions again and filtering those that were
skipped.
-/

namespace Zilionixx

/-! ## Reading a block -/

/-- What is read from the store. -/
structure ChainStore where
  getBlock : UInt64 → Option Block
  /-- `GetTx`: transactions of no event -/
  getTx : Hash → Option BlockTx
  getEventPayload : EventID → Option EventPayload
  getCachedEvmBlock : UInt64 → Option EvmBlock

/-- `evmcore.ToEvmHeader` -/
def toEvmHeader (block : Block) (index : UInt64) (prevHash : EventID) : EvmHeader where
  -- `big.NewInt(int64(index))`
  number := index.toInt64.toInt
  hash := block.atropos
  parentHash := prevHash
  root := block.root
  txHash := copyBytes 32 []
  time := block.time
  gasLimit := maxUint64
  gasUsed := block.gasUsed

namespace ChainStore

/-- `getBlock`: the transactions; `none` is one that is not found. -/
def readTransactions (S : ChainStore) (block : Block) : Option (List BlockTx) := do
  let internalTxs ← block.internalTxs.mapM S.getTx
  let txs ← block.txs.mapM S.getTx
  let events ← block.events.mapM S.getEventPayload
  pure (filterSkippedTxs (internalTxs ++ txs ++ events.flatMap fun e => e.txs.map .event)
    block.skippedTxs)

/-- `getBlock`: the Atropos of the previous block; `none` is a panic. -/
def prevAtropos (S : ChainStore) (n : UInt64) : Option EventID :=
  if n ≠ 0 then (S.getBlock (n - 1)).map Block.atropos else some EventID.zero

/-- `getBlock`; `none` is `nil`, or the end of the process. -/
def getEvmBlock (T : Transition) (S : ChainStore) (h : EventID) (n : UInt64) (readTxs : Bool) :
    Option EvmBlock := do
  let block ← S.getBlock n
  if h ≠ EventID.zero ∧ h ≠ block.atropos then none
  else if readTxs then
    match S.getCachedEvmBlock n with
    | some cached => pure cached
    | none => do
      let transactions ← S.readTransactions block
      let prev ← S.prevAtropos n
      pure (newEvmBlock T (toEvmHeader block n prev) transactions)
  else do
    let prev ← S.prevAtropos n
    -- not completed block here
    pure ⟨toEvmHeader block n prev, []⟩

/-- The hash in `GetHeader`. -/
def headerHash (T : Transition) (S : ChainStore) (n : UInt64) : Option EventID :=
  (S.getEvmBlock T EventID.zero n false).map (·.hash)

theorem atropos_of_headerHash {T : Transition} {S : ChainStore} {n : UInt64} {hash : EventID}
    (h : S.headerHash T n = some hash) : (S.getBlock n).map Block.atropos = some hash := by
  obtain ⟨evmBlock, hread, rfl⟩ := Option.map_eq_some_iff.mp h
  obtain ⟨block, hblock, hread⟩ := Option.bind_eq_some_iff.mp hread
  rw [if_neg fun hne => hne.1 rfl, if_neg Bool.false_ne_true] at hread
  obtain ⟨prev, -, hread⟩ := Option.bind_eq_some_iff.mp hread
  cases hread
  rw [hblock]
  rfl

end ChainStore

/-! ## The index of transactions -/

/-- `evmstore.TxPosition` -/
structure TxPosition where
  block : UInt64
  event : EventID
  eventOffset : UInt32
  blockOffset : UInt32

/-- `ExtendedTxPosition` -/
structure ExtendedTxPosition extends TxPosition where
  eventCreator : ValidatorID

/-- The position that the map of Go has for an unknown transaction. -/
def ExtendedTxPosition.zero : ExtendedTxPosition := ⟨⟨0, EventID.zero, 0, 0⟩, 0⟩

/-- `blockFn`: memorize event position of each tx. If a tx is met in multiple events, then
it is assigned to the first ordered event, which `lookup` finds. -/
def eventPositions (W : World) (blockEvents : List (EventID × EventPayload)) :
    List (Hash × ExtendedTxPosition) :=
  blockEvents.flatMap fun (_, e) =>
    e.txs.zipIdx.map fun (tx, i) =>
      (W.txHash (.event tx), ⟨⟨0, e.id, UInt32.ofNat i, 0⟩, e.creator⟩)

/-- `blockFn`: memorize block position of each tx. -/
def blockPositions (W : World) (blockIdx : UInt64) :
    ℕ → List BlockTx → (Hash → Option ExtendedTxPosition) → Hash → Option ExtendedTxPosition
  | _, [], positions => positions
  | i, tx :: txs, positions =>
    let position := (positions (W.txHash tx)).getD ExtendedTxPosition.zero
    blockPositions W blockIdx (i + 1) txs <|
      Function.update positions (W.txHash tx) <|
        some { position with block := blockIdx, blockOffset := UInt32.ofNat i }

/-- `txPositions`, for all the transactions of a block. -/
def txPositions (W : World) (block : ProcessedBlock) : Hash → Option ExtendedTxPosition :=
  blockPositions W block.ctx.idx 0 block.evmBlock.transactions
    fun txHash => (eventPositions W block.blockEvents).lookup txHash

/-- The positions that `SetTxPosition` stores: of the transactions that are not skipped. -/
def storedTxPosition (W : World) (block : ProcessedBlock) (txHash : Hash) : Option TxPosition :=
  if txHash ∈ block.evmBlock.transactions.map W.txHash then
    (txPositions W block txHash).map (·.toTxPosition)
  else none

/-! ## The executed block -/

variable {W : World} {T : Transition} {atroposOf : UInt64 → Option EventID} {bs bs' : BlockState}
  {es es' : EpochState} {ctx : BlockCtx} {sealing internal : Bool}
  {getEventPayload : EventID → Option EventPayload} {block : ProcessedBlock}

/-- A processor after some more transactions of the same block. -/
structure Follows (p : EvmProcessor T) (txs : List BlockTx) (p' : EvmProcessor T) : Prop where
  block : p'.block = p.block
  prevBlockHash : p'.prevBlockHash = p.prevBlockHash
  incomingTxs : p'.incomingTxs = p.incomingTxs ++ txs

theorem Follows.trans {p p' p'' : EvmProcessor T} {txs txs' : List BlockTx}
    (h : Follows p txs p') (h' : Follows p' txs' p'') : Follows p (txs ++ txs') p'' where
  block := h'.block.trans h.block
  prevBlockHash := h'.prevBlockHash.trans h.prevBlockHash
  incomingTxs := by rw [h'.incomingTxs, h.incomingTxs, List.append_assoc]

theorem executeTxs_evmModule {p : EvmProcessor T} {txs : List BlockTx}
    {state : T.StateDB ⊕ EvmProcessor T}
    (h : executeTxs W (evmModule W T atroposOf) (.inr p) txs internal bs = some (state, bs')) :
    ∃ p', state = .inr p' ∧ Follows p txs p' := by
  obtain ⟨p', logs, receipts, hexecute, rfl⟩ := executeTxs_eq_some h
  refine ⟨p', rfl, ?_⟩
  obtain ⟨evmBlock, -, h⟩ := Option.bind_eq_some_iff.mp hexecute
  obtain ⟨s, -, h⟩ := Option.bind_eq_some_iff.mp h
  cases h
  exact ⟨rfl, rfl, rfl⟩

/-- What is stored of a block, and what is cached. -/
structure Recorded (W : World) (T : Transition) (prev : Option EventID) (block : ProcessedBlock) :
    Prop where
  /-- the block that is stored -/
  block_eq : block.block =
    { time := block.ctx.time
      atropos := block.ctx.atropos
      events := block.blockEvents.map Prod.fst
      txs := []
      internalTxs := (block.preInternalTxs ++ block.internalTxs).map fun tx =>
        W.txHash (.internal tx)
      skippedTxs := block.block.skippedTxs
      gasUsed := block.evmBlock.gasUsed
      root := block.evmBlock.root }
  /-- the block that is cached -/
  evmBlock_eq : ∃ prevHash, prev = some prevHash ∧ block.evmBlock =
    newEvmBlock T
      { number := block.ctx.idx.toNat
        hash := block.ctx.atropos
        parentHash := prevHash
        root := block.evmBlock.root
        txHash := copyBytes 32 []
        time := block.ctx.time
        gasLimit := maxUint64
        gasUsed := block.evmBlock.gasUsed }
      (filterSkippedTxs
        ((block.preInternalTxs ++ block.internalTxs).map .internal ++
          block.blockEvents.flatMap fun x => x.2.txs.map .event)
        block.block.skippedTxs)

theorem blockFn_evmModule {pre : List InternalTx} {confirmedEvents : List EventID}
    {p : EvmProcessor T} {states : BlockState × EpochState} (hblock : p.block = ctx)
    (hincoming : p.incomingTxs = pre.map .internal) (h : blockFn W (evmModule W T atroposOf)
      getEventPayload ctx sealing pre confirmedEvents (.inr p) bs es = some (states, block)) :
    block.ctx = ctx ∧ Recorded W T p.prevBlockHash block ∧
      ∃ rules, spillBlockEvents getEventPayload (W.order.sort confirmedEvents) rules =
        some block.blockEvents := by
  obtain ⟨⟨state₁, bs₁⟩, hinternal, h⟩ := Option.bind_eq_some_iff.mp h
  obtain ⟨blockEvents, hspill, h⟩ := Option.bind_eq_some_iff.mp h
  obtain ⟨⟨state₂, bs₂⟩, hexternal, h⟩ := Option.bind_eq_some_iff.mp h
  obtain ⟨⟨evmBlock, skippedTxs, receipts⟩, hfinalize, h⟩ := Option.bind_eq_some_iff.mp h
  obtain ⟨bs₃, -, h⟩ := Option.bind_eq_some_iff.mp h
  obtain ⟨states₄, -, hdone⟩ := Option.bind_eq_some_iff.mp h
  obtain ⟨p₁, rfl, hfirst⟩ := executeTxs_evmModule hinternal
  obtain ⟨p₂, rfl, hsecond⟩ := executeTxs_evmModule hexternal
  have hfollows := hfirst.trans hsecond
  cases hdone
  refine ⟨rfl, ⟨rfl, ?_⟩, _, hspill⟩
  obtain ⟨⟨prevHash, hprev, hevmBlock⟩, rfl, -⟩ := EvmProcessor.finalize_eq_some hfinalize
  rw [hfollows.block, hblock, hfollows.incomingTxs, hincoming, List.map_flatMap,
    ← List.append_assoc, ← List.map_append] at hevmBlock
  exact ⟨prevHash, hfollows.prevBlockHash ▸ hprev, hevmBlock⟩

/-- What a block that is executed leaves in the store and in the cache. -/
theorem step_evmModule {cBlock : ConsensusBlock} {events : List Event}
    (h : step W bs es ⟨cBlock, events, evmModule W T atroposOf, getEventPayload⟩ = some ((bs', es'),
      .processed block)) :
    Recorded W T
        (if block.ctx.idx ≠ 0 then atroposOf (block.ctx.idx - 1) else some EventID.zero) block ∧
      ∃ ids rules, spillBlockEvents getEventPayload ids rules = some block.blockEvents := by
  obtain ⟨bs₀, -, h⟩ := Option.bind_eq_some_iff.mp h
  obtain ⟨es₀, -, h⟩ := Option.bind_eq_some_iff.mp h
  obtain ⟨statedb, hdb, h⟩ := Option.bind_eq_some_iff.mp h
  obtain ⟨db, -, rfl⟩ := Option.map_eq_some_iff.mp hdb
  obtain ⟨p, -, h⟩ := Option.bind_eq_some_iff.mp h
  obtain ⟨bs₁, -, h⟩ := Option.bind_eq_some_iff.mp h
  split at h
  · obtain ⟨states, -, h⟩ := Option.bind_eq_some_iff.mp h
    cases h
  obtain ⟨⟨states, block'⟩, hprocess, h⟩ := Option.bind_eq_some_iff.mp h
  cases h
  obtain ⟨⟨bs₂, pre⟩, -, hprocess⟩ := Option.bind_eq_some_iff.mp hprocess
  obtain ⟨⟨state₃, bs₃⟩, hexecute, hprocess⟩ := Option.bind_eq_some_iff.mp hprocess
  obtain ⟨⟨bs₄, es₄⟩, -, hfn⟩ := Option.bind_eq_some_iff.mp hprocess
  obtain ⟨p', rfl, hfollows⟩ := executeTxs_evmModule hexecute
  obtain ⟨hctx, hrecorded, rules, hspill⟩ :=
    blockFn_evmModule hfollows.block hfollows.incomingTxs hfn
  rw [hfollows.prevBlockHash] at hrecorded
  rw [hctx]
  exact ⟨hrecorded, _, rules, hspill⟩

/-- The events of a block are read when they are executed. -/
theorem spillBlockEvents_eq_some {ids : List EventID} {rules : Rules}
    {blockEvents : List (EventID × EventPayload)}
    (h : spillBlockEvents getEventPayload ids rules = some blockEvents) :
    ∀ x ∈ blockEvents, getEventPayload x.1 = some x.2 := by
  have hloop : ∀ ids gasPowerUsedSum kept, (∀ x ∈ kept, getEventPayload x.1 = some x.2) →
      spillLoop getEventPayload rules.blocks.maxBlockGas ids gasPowerUsedSum kept =
        some blockEvents → ∀ x ∈ blockEvents, getEventPayload x.1 = some x.2 := by
    intro ids
    induction ids with
    | nil =>
      intro gasPowerUsedSum kept hkept h
      cases h
      exact hkept
    | cons id ids ih =>
      intro gasPowerUsedSum kept hkept h
      obtain ⟨e, he, h⟩ := Option.bind_eq_some_iff.mp h
      simp only at h
      split at h
      · cases h
        exact hkept
      · exact ih _ _ (List.forall_mem_cons.mpr ⟨he, hkept⟩) h
  exact hloop _ _ _ (List.forall_mem_nil _) h

/-! ## The block that is read -/

theorem mapM_map_eq_some {α β γ : Type} {f : α → β} {g : β → Option γ} {k : α → γ} {xs : List α}
    (h : ∀ x ∈ xs, g (f x) = some (k x)) : (xs.map f).mapM g = some (xs.map k) := by
  induction xs with
  | nil => rfl
  | cons x xs ih =>
    obtain ⟨hx, hxs⟩ := List.forall_mem_cons.mp h
    rw [List.map_cons, List.mapM_cons, hx, ih hxs]
    rfl

/-- The transactions are read again as they were executed. -/
theorem Recorded.readTransactions {prev : Option EventID} {S : ChainStore}
    (h : Recorded W T prev block) (htxs : ∀ tx ∈ block.preInternalTxs ++ block.internalTxs, S.getTx
      (W.txHash (.internal tx)) = some (.internal tx))
    (hevents : ∀ x ∈ block.blockEvents, S.getEventPayload x.1 = some x.2) :
    S.readTransactions block.block = some block.evmBlock.transactions := by
  obtain ⟨prevHash, -, hevmBlock⟩ := h.evmBlock_eq
  have hread : S.readTransactions block.block = some (filterSkippedTxs
      ((block.preInternalTxs ++ block.internalTxs).map .internal ++ [] ++
        (block.blockEvents.map Prod.snd).flatMap fun e => e.txs.map .event)
      block.block.skippedTxs) := by
    rw [ChainStore.readTransactions, h.block_eq, mapM_map_eq_some htxs, mapM_map_eq_some hevents]
    rfl
  rw [hread, hevmBlock, List.append_nil, List.flatMap_map]
  rfl

/-- The number of a block, as long as it is an `int64`. -/
theorem toInt_toInt64_of_lt {n : UInt64} (h : n.toNat < 2 ^ 63) :
    n.toInt64.toInt = (n.toNat : ℤ) := by
  rw [← Int64.toInt_toBitVec, UInt64.toBitVec_toInt64, BitVec.toInt_eq_toNat_of_lt]
  · rfl
  · rw [UInt64.toNat_toBitVec]
    omega

theorem Recorded.getEvmBlock {prev : Option EventID} {S : ChainStore} {h : EventID}
    (hrecorded : Recorded W T prev block) (hidx : block.ctx.idx.toNat < 2 ^ 63)
    (hcached : S.getCachedEvmBlock block.ctx.idx = none)
    (hblock : S.getBlock block.ctx.idx = some block.block)
    (hprev : S.prevAtropos block.ctx.idx = prev) (hh : h = EventID.zero ∨ h = block.block.atropos)
    (hread : S.readTransactions block.block = some block.evmBlock.transactions) :
    S.getEvmBlock T h block.ctx.idx true = some block.evmBlock := by
  obtain ⟨prevHash, rfl, hevmBlock⟩ := hrecorded.evmBlock_eq
  have hhash : ¬ (h ≠ EventID.zero ∧ h ≠ block.block.atropos) := by tauto
  have hheader : toEvmHeader block.block block.ctx.idx prevHash =
      { number := block.ctx.idx.toNat
        hash := block.ctx.atropos
        parentHash := prevHash
        root := block.evmBlock.root
        txHash := copyBytes 32 []
        time := block.ctx.time
        gasLimit := maxUint64
        gasUsed := block.evmBlock.gasUsed } := by
    rw [toEvmHeader, hrecorded.block_eq, toInt_toInt64_of_lt hidx]
  have htxs : block.evmBlock.transactions = filterSkippedTxs
      ((block.preInternalTxs ++ block.internalTxs).map .internal ++
        block.blockEvents.flatMap fun x => x.2.txs.map .event) block.block.skippedTxs := by
    rw [hevmBlock]
    rfl
  rw [ChainStore.getEvmBlock, hblock]
  simp only [Option.bind_eq_bind, Option.bind_some, if_neg hhash, if_true, hcached, hread, hprev,
    hheader]
  rw [htxs, ← hevmBlock]
  rfl

/-! ## Positions -/

/-- A position names an event, and the transaction in it. -/
def InEvent (W : World) (blockEvents : List (EventID × EventPayload)) (txHash : Hash)
    (p : ExtendedTxPosition) : Prop :=
  ∃ x ∈ blockEvents, x.2.id = p.event ∧
    ∃ (i : ℕ) (tx : Transaction), x.2.txs[i]? = some tx ∧ p.eventOffset = UInt32.ofNat i ∧
      W.txHash (.event tx) = txHash

/-- A position names the place of the transaction in the block. -/
def InBlock (W : World) (blockIdx : UInt64) (txs : List BlockTx) (txHash : Hash)
    (p : ExtendedTxPosition) : Prop :=
  p.block = blockIdx ∧
    ∃ (i : ℕ) (tx : BlockTx), txs[i]? = some tx ∧ p.blockOffset = UInt32.ofNat i ∧
      W.txHash tx = txHash

theorem inEvent_of_lookup {blockEvents : List (EventID × EventPayload)} {txHash : Hash}
    {p : ExtendedTxPosition} (h : (eventPositions W blockEvents).lookup txHash = some p) :
    InEvent W blockEvents txHash p := by
  obtain ⟨before, after, heq, -⟩ := List.lookup_eq_some_iff.mp h
  have hmem : (txHash, p) ∈ eventPositions W blockEvents :=
    heq ▸ List.mem_append_right _ List.mem_cons_self
  obtain ⟨x, hx, hmem⟩ := List.mem_flatMap.mp hmem
  obtain ⟨⟨tx, i⟩, hi, heq⟩ := List.mem_map.mp hmem
  cases heq
  exact ⟨x, hx, rfl, i, tx, List.mk_mem_zipIdx_iff_getElem?.mp hi, rfl, rfl⟩

/-- The block positions are added to the event positions, which stay. -/
theorem event_blockPositions {P : Hash → ExtendedTxPosition → Prop} {blockIdx : UInt64} {i : ℕ}
    {txs : List BlockTx} {positions : Hash → Option ExtendedTxPosition}
    (hP : ∀ h p n m, P h p → P h { p with block := n, blockOffset := m })
    (hzero : ∀ h, P h ExtendedTxPosition.zero) (hpositions : ∀ h p, positions h = some p → P h p) :
    ∀ h p, blockPositions W blockIdx i txs positions h = some p → P h p := by
  induction txs generalizing i positions with
  | nil => exact hpositions
  | cons tx txs ih =>
    refine ih fun h p hp => ?_
    by_cases heq : h = W.txHash tx
    · subst heq
      rw [Function.update_self] at hp
      cases hp
      refine hP _ _ _ _ ?_
      cases hold : positions (W.txHash tx) with
      | none => exact hzero _
      | some p => exact hpositions _ _ hold
    · rw [Function.update_of_ne heq] at hp
      exact hpositions h p hp

/-- Each transaction gets its place in the block. -/
theorem inBlock_blockPositions {blockIdx : UInt64} (before : List BlockTx) {txs : List BlockTx}
    {positions : Hash → Option ExtendedTxPosition} {txHash : Hash}
    (h : txHash ∈ txs.map W.txHash ∨
      ∃ p, positions txHash = some p ∧ InBlock W blockIdx (before ++ txs) txHash p) :
    ∃ p, blockPositions W blockIdx before.length txs positions txHash = some p ∧
      InBlock W blockIdx (before ++ txs) txHash p := by
  induction txs generalizing before positions with
  | nil =>
    rcases h with h | h
    · cases h
    · exact h
  | cons tx txs ih =>
    have hsplit : before ++ tx :: txs = (before ++ [tx]) ++ txs := by
      rw [List.append_assoc, List.singleton_append]
    have hlength : (before ++ [tx]).length = before.length + 1 := by
      rw [List.length_append, List.length_singleton]
    rw [hsplit] at h ⊢
    rw [blockPositions, ← hlength]
    refine ih (before ++ [tx]) ?_
    by_cases heq : txHash = W.txHash tx
    · subst heq
      refine .inr ⟨_, Function.update_self .., rfl, before.length, tx, ?_, rfl, rfl⟩
      rw [← hsplit, List.getElem?_append_right (Nat.le_refl _), Nat.sub_self]
      rfl
    · rw [Function.update_of_ne heq]
      rcases h with h | h
      · rw [List.map_cons, List.mem_cons, or_iff_right heq] at h
        exact .inl h
      · exact .inr h

theorem storedTxPosition_spec {tx : BlockTx} (htx : tx ∈ block.evmBlock.transactions) :
    ∃ p : ExtendedTxPosition, storedTxPosition W block (W.txHash tx) = some p.toTxPosition ∧
      InBlock W block.ctx.idx block.evmBlock.transactions (W.txHash tx) p ∧
      (p.event ≠ EventID.zero → InEvent W block.blockEvents (W.txHash tx) p) := by
  have hmem := List.mem_map_of_mem (f := W.txHash) htx
  obtain ⟨p, hp, hblock⟩ : ∃ p, txPositions W block (W.txHash tx) = some p ∧
      InBlock W block.ctx.idx block.evmBlock.transactions (W.txHash tx) p :=
    inBlock_blockPositions [] (.inl hmem)
  refine ⟨p, by rw [storedTxPosition, if_pos hmem, hp]; rfl, hblock, ?_⟩
  exact event_blockPositions
    (P := fun h p => p.event ≠ EventID.zero → InEvent W block.blockEvents h p)
    (fun _ _ _ _ h => h) (fun _ h => absurd rfl h) (fun _ _ hp _ => inEvent_of_lookup hp) _ _ hp

theorem toNat_ofNat_of_getElem? {α : Type} {xs : List α} {i : ℕ} {x : α} (hi : xs[i]? = some x)
    (hfit : xs.length ≤ 2 ^ 32) : (UInt32.ofNat i).toNat = i := by
  have hlt := (List.getElem?_eq_some_iff.mp hi).1
  rw [UInt32.toNat_ofNat_of_lt']
  rw [UInt32.size]
  omega

/-! ## The stored block -/

/-- **The stored block reproduces the executed block.** When a block has been
executed, with the headers of earlier blocks from the store `S₀`, then a store `S` in which
the block, its events and its internal transactions are found as they were saved
gives back the same block, and every transaction of it is where its position
says, in the block and in an event. Block indexes are below `2 ^ 63` and offsets fit. -/
theorem stored_block_reproduces (W : World) (T : Transition) (S₀ S : ChainStore)
    (bs bs' : BlockState) (es es' : EpochState) (cBlock : ConsensusBlock) (events : List Event)
    (block : ProcessedBlock)
    (hstep : step W bs es ⟨cBlock, events, evmModule W T (S₀.headerHash T), S₀.getEventPayload⟩ =
      some ((bs', es'), .processed block))
    (hcached : S.getCachedEvmBlock block.ctx.idx = none)
    (hblock : S.getBlock block.ctx.idx = some block.block)
    (hprev : S.getBlock (block.ctx.idx - 1) = S₀.getBlock (block.ctx.idx - 1))
    (htxs : ∀ tx ∈ block.preInternalTxs ++ block.internalTxs,
      S.getTx (W.txHash (.internal tx)) = some (.internal tx))
    (hevents : ∀ id ∈ block.block.events, S.getEventPayload id = S₀.getEventPayload id)
    (hids : ∀ id e, S₀.getEventPayload id = some e → e.id = id)
    (hidx : block.ctx.idx.toNat < 2 ^ 63)
    (hfit : block.evmBlock.transactions.length ≤ 2 ^ 32)
    (hfit' : ∀ x ∈ block.blockEvents, x.2.txs.length ≤ 2 ^ 32) :
    (∀ h, h = EventID.zero ∨ h = block.block.atropos →
      S.getEvmBlock T h block.ctx.idx true = some block.evmBlock) ∧
    ∀ tx ∈ block.evmBlock.transactions, ∃ position,
      storedTxPosition W block (W.txHash tx) = some position ∧ position.block = block.ctx.idx ∧
      (∃ tx', block.evmBlock.transactions[position.blockOffset.toNat]? = some tx' ∧
        W.txHash tx' = W.txHash tx) ∧
      (position.event ≠ EventID.zero →
        ∃ e tx', S.getEventPayload position.event = some e ∧
          e.txs[position.eventOffset.toNat]? = some tx' ∧ W.txHash (.event tx') = W.txHash tx) := by
  obtain ⟨hrecorded, ids, rules, hspill⟩ := step_evmModule hstep
  have hpayload : ∀ x ∈ block.blockEvents, S.getEventPayload x.1 = some x.2 := by
    intro x hx
    rw [hevents x.1 (by rw [hrecorded.block_eq]; exact List.mem_map_of_mem hx)]
    exact spillBlockEvents_eq_some hspill x hx
  constructor
  · intro h hh
    refine hrecorded.getEvmBlock hidx hcached hblock ?_ hh
      (hrecorded.readTransactions htxs hpayload)
    -- the header of the previous block is read in both cases
    rw [ChainStore.prevAtropos, hprev]
    obtain ⟨prevHash, hprevHash, -⟩ := hrecorded.evmBlock_eq
    split
    · rename_i hne
      rw [if_pos hne] at hprevHash
      rw [hprevHash, ChainStore.atropos_of_headerHash hprevHash]
    · rfl
  · intro tx htx
    obtain ⟨p, hstored, ⟨hp, i, tx', hi, hoffset, hhash⟩, hevent⟩ :=
      storedTxPosition_spec (W := W) htx
    refine ⟨p.toTxPosition, hstored, hp, ⟨tx', ?_, hhash⟩, fun hne => ?_⟩
    · rw [hoffset, toNat_ofNat_of_getElem? hi hfit]
      exact hi
    · obtain ⟨x, hx, hid, i, tx', hi, hoffset, hhash⟩ := hevent hne
      refine ⟨x.2, tx', ?_, ?_, hhash⟩
      · rw [← hid, hids x.1 x.2 (spillBlockEvents_eq_some hspill x hx)]
        exact hpayload x hx
      · rw [hoffset, toNat_ofNat_of_getElem? hi (hfit' x hx)]
        exact hi

/-- An event with two transactions, of which the first one is going to be skipped. -/
def samplePayload : EventPayload :=
  { blankEvent with
    epoch := 1
    creator := 1
    seq := 1
    txHash := copyBytes 32 [1]
    txs := [1, 2].map fun nonce =>
      { nonce := nonce, gas := 21000, gasPrice := 1000, value := 0, toAddress := none,
        data := [], v := 27, r := 5, s := 6, kind := .legacy }
    id := sampleAtropos.id
    hashToSign := copyBytes 32 []
    size := 0 }

/-- A store with the event, in which every block before is the same. -/
def sampleStore : ChainStore where
  getBlock _ := some ⟨1, EventID.zero, [], [], [], [], 0, copyBytes 32 []⟩
  getTx _ := none
  getEventPayload id := if id = samplePayload.id then some samplePayload else none
  getCachedEvmBlock _ := none

/-- The transaction that the sample skips. -/
def isFirst : BlockTx → Bool
  | .event tx => tx.nonce = 1
  | .internal _ => false

theorem stored_block_reproduces_samplePayload :
    ∃ bs es block,
      step nonceWorld sampleBlockState sampleEpochState
          ⟨⟨sampleAtropos.id, []⟩, [{ sampleAtropos with txHash := copyBytes 32 [1] }],
            evmModule nonceWorld (skipTransition isFirst)
              (sampleStore.headerHash (skipTransition isFirst)),
            sampleStore.getEventPayload⟩ = some ((bs, es), .processed block) ∧
        block.block.skippedTxs = [0] ∧
        ChainStore.getEvmBlock (skipTransition isFirst)
          { sampleStore with
            getBlock := fun n => if n = 2 then some block.block else sampleStore.getBlock n }
          EventID.zero 2 true = some block.evmBlock := by
  have hrun : (step nonceWorld sampleBlockState sampleEpochState
      ⟨⟨sampleAtropos.id, []⟩, [{ sampleAtropos with txHash := copyBytes 32 [1] }],
        evmModule nonceWorld (skipTransition isFirst)
          (sampleStore.headerHash (skipTransition isFirst)),
        sampleStore.getEventPayload⟩).any (fun r => r.2.processedWith fun block =>
        block.ctx.idx = 2 ∧ block.preInternalTxs = [] ∧ block.internalTxs = [] ∧
          block.block.skippedTxs = [0] ∧ block.evmBlock.transactions.length = 1 ∧
          block.blockEvents = [(samplePayload.id, samplePayload)]) = true := by
    decide +kernel
  obtain ⟨bs, es, block, hstep, hblock⟩ := exists_processed hrun
  obtain ⟨hidx, hpre, hinternal, hskipped, hlength, hevents⟩ := of_decide_eq_true hblock
  obtain ⟨hread, -⟩ := stored_block_reproduces nonceWorld (skipTransition isFirst) sampleStore
    { sampleStore with
      getBlock := fun n => if n = 2 then some block.block else sampleStore.getBlock n }
    _ _ _ _ _ _ block hstep rfl (by rw [hidx]; rfl) (by rw [hidx]; rfl)
    (by rw [hpre, hinternal]; exact List.forall_mem_nil _) (fun _ _ => rfl)
    (fun id e h => by
      obtain ⟨rfl, h⟩ := Option.ite_none_right_eq_some.mp h
      cases h
      rfl)
    (by rw [hidx]; decide) (by rw [hlength]; decide) (by rw [hevents]; decide)
  rw [hidx] at hread
  exact ⟨bs, es, block, hstep, hskipped, hread EventID.zero (.inl rfl)⟩

/-- Block `2 ^ 63`: its number as an `int64` is negative. -/
theorem stored_block_differs :
    ∃ bs es block,
      step sampleWorld { sampleBlockState with lastBlock := ⟨0x7fffffffffffffff, 1, EventID.zero⟩ }
          sampleEpochState
          ⟨⟨sampleAtropos.id, [1]⟩, [sampleAtropos],
            evmModule sampleWorld (skipTransition isFirst)
              (sampleStore.headerHash (skipTransition isFirst)),
            sampleStore.getEventPayload⟩ = some ((bs, es), .processed block) ∧
        ∀ S : ChainStore, S.getBlock block.ctx.idx = some block.block →
          S.getCachedEvmBlock block.ctx.idx = none →
          S.getEvmBlock (skipTransition isFirst) EventID.zero block.ctx.idx true ≠
            some block.evmBlock := by
  have hrun : (step sampleWorld
      { sampleBlockState with lastBlock := ⟨0x7fffffffffffffff, 1, EventID.zero⟩ } sampleEpochState
      ⟨⟨sampleAtropos.id, [1]⟩, [sampleAtropos],
        evmModule sampleWorld (skipTransition isFirst)
          (sampleStore.headerHash (skipTransition isFirst)),
        sampleStore.getEventPayload⟩).any (fun r => r.2.processedWith fun block =>
        block.ctx.idx = 0x8000000000000000 ∧ block.evmBlock.number = 0x8000000000000000) =
          true := by
    decide +kernel
  obtain ⟨bs, es, block, hstep, hheader⟩ := exists_processed hrun
  obtain ⟨hidx, hnumber⟩ := of_decide_eq_true hheader
  refine ⟨bs, es, block, hstep, fun S hblock hcached h => ?_⟩
  rw [hidx] at hblock hcached h
  rw [ChainStore.getEvmBlock, hblock] at h
  simp only [Option.bind_eq_bind, Option.bind_some, ne_eq, not_true_eq_false, false_and, if_false,
    if_true, hcached] at h
  obtain ⟨txs, -, h⟩ := Option.bind_eq_some_iff.mp h
  obtain ⟨prev, -, h⟩ := Option.bind_eq_some_iff.mp h
  have hread : (UInt64.toInt64 0x8000000000000000).toInt = block.evmBlock.number :=
    congrArg EvmHeader.number (congrArg EvmBlock.toEvmHeader (Option.some.inj h))
  rw [hnumber] at hread
  exact absurd hread (by decide)

end Zilionixx
