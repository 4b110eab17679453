import Mathlib.Data.List.Lex
import Zilionixx.EventCodec
import Zilionixx.SealModule

/-!
# `gossip`: the callbacks of the consensus

`c_block_callbacks.go`. For each block that the consensus decides, `BeginBlock`
takes the stored states, `ApplyEvent` is called for each confirmed event, and
`EndBlock` executes the block, or skips it, and stores the new states.

The parts of a block that run in parallel with the consensus are finished
before the next block begins, so that a block is one step from states to states.
Executing transactions is up to an `Evm`; a panic, or an error that ends the
process, ends the run.
-/

namespace Zilionixx

/-- `zilionbft.Block` -/
structure ConsensusBlock where
  atropos : EventID
  cheaters : List ValidatorID
  deriving DecidableEq

/-- `mergeCheaters` -/
def mergeCheaters (a b : List ValidatorID) : List ValidatorID :=
  if b.length = 0 then a
  else if a.length = 0 then b
  else a ++ b.filter (· ∉ a)

/-- `evmcore.EvmHeader`, without `Coinbase`, which is always zero. The hashes of
blocks are event IDs, converted. -/
structure EvmHeader where
  number : ℤ
  hash : EventID
  parentHash : EventID
  root : Hash
  txHash : Hash
  time : Timestamp
  gasLimit : UInt64
  gasUsed : UInt64
  deriving DecidableEq

/-- `evmcore.EvmBlock` -/
structure EvmBlock extends EvmHeader where
  transactions : List BlockTx
  deriving DecidableEq

/-- The execution of the transactions of a block. -/
structure Evm where
  /-- the state, and what has been executed so far -/
  State : Type
  /-- `StateDB` at a root; `none` is an error -/
  stateDB : Hash → Option State
  /-- `EVMModule.Start` -/
  start : BlockCtx → Rules → State → State
  /-- `GetNonce` of the zero address -/
  nonce : State → UInt64
  /-- `Execute`, with the logs in their order -/
  execute : State → List BlockTx → Bool → Option (State × List Log × List Receipt)
  /-- `Finalize`, with the skipped transactions and all the receipts -/
  finalize : State → Option (EvmBlock × List UInt32 × List Receipt)

/-- `hash.OrderedEvents`: the order in which the events of a block are sorted. -/
structure EventOrder where
  /-- `Less` -/
  less : EventID → EventID → Bool
  irrefl : ∀ a, less a a = false
  trans : ∀ a b c, less a b = true → less b c = true → less a c = true
  connected : ∀ a b, a ≠ b → less a b = true ∨ less b a = true

/-- `sort.Sort(confirmedEvents)` -/
def EventOrder.sort (O : EventOrder) (events : List EventID) : List EventID :=
  events.mergeSort fun a b => !O.less b a

/-- What block processing uses from outside. -/
structure World where
  hashing : Hashing
  driver : DriverExternal
  builder : BigBuilder
  order : EventOrder
  /-- `tx.Hash()` -/
  txHash : BlockTx → Hash

/-- `inter.Block` -/
structure Block where
  time : Timestamp
  atropos : EventID
  events : List EventID
  /-- transactions of no event, in genesis blocks -/
  txs : List Hash
  internalTxs : List Hash
  skippedTxs : List UInt32
  gasUsed : UInt64
  root : Hash

/-! ## `BeginBlock` and `ApplyEvent` -/

/-- The variables that the callbacks of a block share. -/
structure BlockProcessing where
  cBlock : ConsensusBlock
  bs : BlockState
  es : EpochState
  eventProcessor : ValidatorEventsProcessor
  atroposTime : Timestamp
  atroposDegenerate : Bool
  confirmedEvents : List EventID

/-- `BeginBlock`, from copies of the stored states. -/
def beginBlock (cBlock : ConsensusBlock) (bs : BlockState) (es : EpochState) : BlockProcessing :=
  -- merge cheaters to ensure that every cheater will get punished even if only
  -- previous (not current) Atropos observed a doublesign
  let bs := { bs with epochCheaters := mergeCheaters bs.epochCheaters cBlock.cheaters }
  { cBlock := cBlock
    bs := bs
    es := es
    eventProcessor := ValidatorEventsProcessor.start bs es
    atroposTime := bs.lastBlock.time + 1
    atroposDegenerate := true
    confirmedEvents := [] }

namespace BlockProcessing

/-- `ApplyEvent` -/
def applyEvent (H : Hashing) (p : BlockProcessing) (e : Event) : Option BlockProcessing := do
  let eventProcessor ← p.eventProcessor.processConfirmedEvent e
  pure
    { p with
      atroposTime := if p.cBlock.atropos = e.id then e.medianTime else p.atroposTime
      atroposDegenerate := if p.cBlock.atropos = e.id then false else p.atroposDegenerate
      -- non-empty events only
      confirmedEvents := if e.noTxs H then p.confirmedEvents else p.confirmedEvents ++ [e.id]
      eventProcessor := eventProcessor }

/-- `EndBlock`: the context of the block. -/
def blockCtx (p : BlockProcessing) : BlockCtx where
  idx := p.bs.lastBlock.idx + 1
  time :=
    if p.atroposTime ≤ p.bs.lastBlock.time then p.bs.lastBlock.time + 1 else p.atroposTime
  atropos := p.cBlock.atropos

/-- `EndBlock`: whether the block is skipped. -/
def skipBlock (p : BlockProcessing) : Bool :=
  let emptyBlock := p.confirmedEvents.length = 0 && p.cBlock.cheaters.length = 0
  p.atroposDegenerate ||
    (emptyBlock &&
      p.blockCtx.time < p.bs.lastBlock.time + p.es.rules.blocks.maxEmptyBlockSkipPeriod)

end BlockProcessing

/-! ## `EndBlock` -/

/-- The loop in `spillBlockEvents`, from the last event on; `none` is an event
that is not found. -/
def spillLoop (getEventPayload : EventID → Option EventPayload) (maxBlockGas : UInt64) :
    List EventID → UInt64 → List (EventID × EventPayload) → Option (List (EventID × EventPayload))
  | [], _, kept => some kept
  | id :: ids, gasPowerUsedSum, kept => do
    let e ← getEventPayload id
    let gasPowerUsedSum := gasPowerUsedSum + e.gasPowerUsed
    -- stop if limit is exceeded, erase the events before
    if gasPowerUsedSum > maxBlockGas then pure kept
    else spillLoop getEventPayload maxBlockGas ids gasPowerUsedSum ((id, e) :: kept)

/-- `spillBlockEvents`: the events that stay, with their payloads. -/
def spillBlockEvents (getEventPayload : EventID → Option EventPayload) (events : List EventID)
    (network : Rules) : Option (List (EventID × EventPayload)) :=
  spillLoop getEventPayload network.blocks.maxBlockGas events.reverse 0 []

/-- `SetBlockEpochState` -/
def setBlockEpochState (bs : BlockState) (es : EpochState) : Option (BlockState × EpochState) := do
  let bs ← bs.copy
  let es ← es.copy
  pure (bs, es)

/-- Execute internal transactions, and let the listener hear the logs. -/
def executeTxs (W : World) (evm : Evm) (state : evm.State) (txs : List BlockTx) (internal : Bool)
    (bs : BlockState) : Option (evm.State × BlockState) := do
  let (state, logs, _) ← evm.execute state txs internal
  let bs ← logs.foldlM (onNewLog W.driver) bs
  pure (state, bs)

/-- Seal epoch if requested. -/
def sealIf (W : World) (sealing : Bool) (ctx : BlockCtx) (bs : BlockState) (es : EpochState) :
    Option (BlockState × EpochState) :=
  if sealing then do
    let (bs, es) ← Sealer.sealEpoch W.builder ctx bs es
    setBlockEpochState bs es
  else pure (bs, es)

/-- The creator of the first event that has a transaction. -/
def eventCreator (W : World) (blockEvents : List (EventID × EventPayload)) (txHash : Hash) :
    ValidatorID :=
  let positions := blockEvents.flatMap fun (_, e) =>
    e.txs.map fun tx => (W.txHash (.event tx), e.creator)
  (positions.lookup txHash).getD 0

/-- Call `OnNewReceipt`, for the receipts and their transactions. -/
def onNewReceipts (es : EpochState) (creatorOf : Hash → ValidatorID) :
    List BlockTx → List Receipt → BlockState → Option BlockState
  | _, [], bs => some bs
  | [], _ :: _, _ => none
  | tx :: txs, r :: receipts, bs => do
    let creator := creatorOf r.txHash
    let creator := if creator ≠ 0 ∧ es.validators.get creator = 0 then 0 else creator
    let bs ← onNewReceipt es bs tx r creator
    onNewReceipts es creatorOf txs receipts bs

/-- What is known of a block after `EndBlock`. -/
structure ProcessedBlock where
  ctx : BlockCtx
  sealing : Bool
  preInternalTxs : List InternalTx
  internalTxs : List InternalTx
  block : Block
  /-- the events that are not spilled -/
  blockEvents : List (EventID × EventPayload)
  /-- what `SetCachedEvmBlock` stores -/
  evmBlock : EvmBlock
  receipts : List Receipt

/-- `blockFn`: the part of `EndBlock` that may run in parallel. -/
def blockFn (W : World) (evm : Evm) (getEventPayload : EventID → Option EventPayload)
    (ctx : BlockCtx) (sealing : Bool) (preInternalTxs : List InternalTx)
    (confirmedEvents : List EventID) (state : evm.State) (bs : BlockState) (es : EpochState) :
    Option ((BlockState × EpochState) × ProcessedBlock) := do
  -- execute post-internal transactions
  let internalTxs := popPostInternalTxs es sealing (evm.nonce state)
  let (state, bs) ← executeTxs W evm state (internalTxs.map .internal) true bs
  -- sort events by Lamport time, and spill
  let blockEvents ← spillBlockEvents getEventPayload (W.order.sort confirmedEvents) es.rules
  let txs := blockEvents.flatMap fun (_, e) => e.txs
  let (state, bs) ← executeTxs W evm state (txs.map .event) false bs
  let (evmBlock, skippedTxs, allReceipts) ← evm.finalize state
  let bs ← onNewReceipts es (eventCreator W blockEvents) evmBlock.transactions allReceipts bs
  let block : Block :=
    { time := ctx.time
      atropos := ctx.atropos
      events := blockEvents.map Prod.fst
      txs := []
      internalTxs := (preInternalTxs ++ internalTxs).map fun tx => W.txHash (.internal tx)
      skippedTxs := skippedTxs
      gasUsed := evmBlock.gasUsed
      root := evmBlock.root }
  let states ← setBlockEpochState
    { bs with finalizedStateRoot := evmBlock.root, lastBlock := ctx } es
  pure (states,
    ⟨ctx, sealing, preInternalTxs, internalTxs, block, blockEvents, evmBlock, allReceipts⟩)

/-- `EndBlock`, for a block that is not skipped. -/
def processBlock (W : World) (evm : Evm) (getEventPayload : EventID → Option EventPayload)
    (ctx : BlockCtx) (confirmedEvents : List EventID) (statedb : evm.State) (bs : BlockState)
    (es : EpochState) : Option ((BlockState × EpochState) × ProcessedBlock) := do
  let sealing := Sealer.epochSealing ctx bs es
  let state := evm.start ctx es.rules statedb
  -- execute pre-internal transactions
  let (bs, preInternalTxs) ← popPreInternalTxs ctx bs es sealing (evm.nonce state)
  let (state, bs) ← executeTxs W evm state (preInternalTxs.map .internal) true bs
  let (bs, es) ← sealIf W sealing ctx bs es
  blockFn W evm getEventPayload ctx sealing preInternalTxs confirmedEvents state bs es

/-- What becomes of a block. -/
inductive Outcome where
  | skipped
  | processed (block : ProcessedBlock)

/-- Whether a block seals the epoch. -/
def Outcome.seals : Outcome → Bool
  | skipped => false
  | processed block => block.sealing

/-- Whether a block is processed, and in such a way. -/
def Outcome.processedWith (holds : ProcessedBlock → Bool) : Outcome → Bool
  | skipped => false
  | processed block => holds block

theorem exists_processed {r : Option ((BlockState × EpochState) × Outcome)}
    {holds : ProcessedBlock → Bool} (h : r.any (fun x => x.2.processedWith holds) = true) :
    ∃ bs es block, r = some ((bs, es), .processed block) ∧ holds block = true := by
  obtain ⟨⟨⟨bs, es⟩, o⟩, hr, ho⟩ := (Option.any_eq_true _ _).mp h
  cases o with
  | skipped => cases ho
  | processed block => exact ⟨bs, es, block, hr, ho⟩

/-- `EndBlock` -/
def endBlock (W : World) (evm : Evm) (getEventPayload : EventID → Option EventPayload)
    (statedb : evm.State) (p : BlockProcessing) :
    Option ((BlockState × EpochState) × Outcome) := do
  -- finalize the progress of eventProcessor
  let bs ← p.eventProcessor.finalize p.blockCtx
  if p.skipBlock then do
    -- save the latest block state even if block is skipped
    let states ← setBlockEpochState bs p.es
    pure (states, .skipped)
  else do
    let (states, block) ←
      processBlock W evm getEventPayload p.blockCtx p.confirmedEvents statedb bs p.es
    pure (states, .processed block)

/-! ## A block -/

/-- What the consensus and the EVM do with a block. -/
structure BlockInput where
  cBlock : ConsensusBlock
  /-- the events, in the order of `ApplyEvent` -/
  events : List Event
  evm : Evm
  getEventPayload : EventID → Option EventPayload

/-- One block, from the stored states to the stored states. -/
def step (W : World) (bs : BlockState) (es : EpochState) (b : BlockInput) :
    Option ((BlockState × EpochState) × Outcome) := do
  let bs ← bs.copy
  let es ← es.copy
  let statedb ← b.evm.stateDB bs.finalizedStateRoot
  let p ← b.events.foldlM (BlockProcessing.applyEvent W.hashing) (beginBlock b.cBlock bs es)
  endBlock W b.evm b.getEventPayload statedb p

/-! ## What the events leave -/

/-- The states that a block begins with. -/
def withCheaters (bs : BlockState) (cBlock : ConsensusBlock) : BlockState :=
  { bs with epochCheaters := mergeCheaters bs.epochCheaters cBlock.cheaters }

/-- After some events, the newest first: the states are as they were, but for
the gas; the Atropos is the last event with its ID. -/
structure Applied (H : Hashing) (cBlock : ConsensusBlock) (bs : BlockState) (es : EpochState)
    (events : List Event) (p : BlockProcessing) : Prop where
  cBlock_eq : p.cBlock = cBlock
  bs_eq : p.bs = withCheaters bs cBlock
  es_eq : p.es = es
  processor_es : p.eventProcessor.es = es
  processor_bs : ∃ gas, p.eventProcessor.bs = { withCheaters bs cBlock with epochGas := gas }
  atroposTime : p.atroposTime =
    ((events.find? (cBlock.atropos = ·.id)).map (·.medianTime)).getD (bs.lastBlock.time + 1)
  atroposDegenerate : p.atroposDegenerate = (events.find? (cBlock.atropos = ·.id)).isNone
  confirmedEvents : p.confirmedEvents =
    ((events.filter fun e => !e.noTxs H).map Event.id).reverse

variable {H : Hashing} {cBlock : ConsensusBlock} {bs : BlockState} {es : EpochState}
  {events : List Event} {p p' : BlockProcessing} {e : Event}

theorem applied_beginBlock : Applied H cBlock bs es [] (beginBlock cBlock bs es) where
  cBlock_eq := rfl
  bs_eq := rfl
  es_eq := rfl
  processor_es := rfl
  processor_bs := ⟨_, rfl⟩
  atroposTime := rfl
  atroposDegenerate := rfl
  confirmedEvents := rfl

/-- One more event is applied. -/
theorem Applied.applyEvent (h : Applied H cBlock bs es events p)
    (hstep : p.applyEvent H e = some p') : Applied H cBlock bs es (e :: events) p' := by
  obtain ⟨processor, hprocessor, hstep⟩ := Option.bind_eq_some_iff.mp hstep
  obtain ⟨hes, hbs⟩ := ValidatorEventsProcessor.processConfirmedEvent_eq_some hprocessor
  obtain ⟨gas, hgas⟩ := h.processor_bs
  obtain rfl := Option.some.inj hstep
  refine ⟨h.cBlock_eq, h.bs_eq, h.es_eq, hes.trans h.processor_es, ⟨_, by rw [hbs, hgas]⟩,
    ?_, ?_, ?_⟩
  · rw [List.find?_cons, h.cBlock_eq]
    by_cases hid : cBlock.atropos = e.id
    · simp [hid]
    · simpa [hid] using h.atroposTime
  · rw [List.find?_cons, h.cBlock_eq]
    by_cases hid : cBlock.atropos = e.id
    · simp [hid]
    · simpa [hid] using h.atroposDegenerate
  · rw [List.filter_cons, h.confirmedEvents]
    by_cases htxs : e.noTxs H = true
    · simp [htxs]
    · simp [htxs]

/-- All the events of a block. -/
theorem Applied.applyEvents {events' : List Event} (h : Applied H cBlock bs es events p)
    (hrun : events'.foldlM (BlockProcessing.applyEvent H) p = some p') :
    Applied H cBlock bs es (events'.reverse ++ events) p' := by
  induction events' generalizing events p with
  | nil =>
    obtain rfl := Option.some.inj hrun
    exact h
  | cons e events' ih =>
    rw [List.foldlM_cons] at hrun
    obtain ⟨p₁, hstep, hrun⟩ := Option.bind_eq_some_iff.mp hrun
    rw [List.reverse_cons, List.append_assoc]
    exact ih (h.applyEvent hstep) hrun

theorem setBlockEpochState_eq_some {bs' : BlockState} {es' : EpochState}
    (h : setBlockEpochState bs es = some (bs', es')) : bs' = bs ∧ es' = es := by
  obtain ⟨bs₁, hbs, h⟩ := Option.bind_eq_some_iff.mp h
  obtain ⟨es₁, hes, h⟩ := Option.bind_eq_some_iff.mp h
  cases h
  exact ⟨BlockState.copy_eq_some hbs, EpochState.copy_eq_some hes⟩

/-! ## A world for examples -/

/-- The numbers that an event ID consists of. -/
def EventID.numbers (id : EventID) : List ℕ :=
  id.epoch.toNat :: id.lamport.toNat :: id.tail.toList.map UInt8.toNat

/-- The order tells IDs apart. -/
theorem EventID.numbers_injective : Function.Injective EventID.numbers := by
  rintro ⟨epoch, lamport, tail⟩ ⟨epoch', lamport', tail'⟩ h
  rw [EventID.numbers, EventID.numbers, List.cons.injEq, List.cons.injEq] at h
  obtain ⟨hepoch, hlamport, htail⟩ := h
  obtain rfl := UInt32.toNat_inj.mp hepoch
  obtain rfl := UInt32.toNat_inj.mp hlamport
  have hbytes := List.map_injective_iff.mpr (fun _ _ => UInt8.toNat_inj.mp) htail
  obtain rfl := List.Vector.toList_injective hbytes
  rfl

/-- By epoch, lamport and hash, as `bytes.Compare` does. -/
def sampleOrder : EventOrder where
  less a b := decide (a.numbers < b.numbers)
  irrefl _ := decide_eq_false (lt_irrefl _)
  trans _ _ _ hab hbc := decide_eq_true ((of_decide_eq_true hab).trans (of_decide_eq_true hbc))
  connected a b hne := by
    rw [decide_eq_true_iff, decide_eq_true_iff]
    exact lt_or_gt_of_ne fun h => hne (EventID.numbers_injective h)

/-- Logs are not understood, and the validators stay the same. -/
def sampleWorld : World where
  hashing := sampleHashing
  driver := ⟨copyBytes 32 [1], copyBytes 32 [2], copyBytes 32 [3], copyBytes 32 [4],
    fun _ _ => none⟩
  builder := ⟨fun _ => sampleValidators⟩
  order := sampleOrder
  txHash _ := copyBytes 32 []

/-- The state after a first block, for examples. -/
def sampleBlockState : BlockState where
  lastBlock := ⟨1, 1, EventID.zero⟩
  finalizedStateRoot := copyBytes 32 []
  epochGas := 0
  epochCheaters := []
  validatorStates := [Sealer.newValidatorState ⟨1, 1, EventID.zero⟩]
  nextValidatorProfiles := ∅
  dirtyRules := mainNetRules
  advanceEpochs := 0

/-- An EVM that does nothing. -/
def sampleEvm : Evm where
  State := Unit
  stateDB _ := some ()
  start _ _ _ := ()
  nonce _ := 0
  execute _ _ _ := some ((), [], [])
  finalize _ :=
    some (⟨⟨0, EventID.zero, EventID.zero, copyBytes 32 [], copyBytes 32 [], 0, 0, 0⟩, []⟩, [], [])

/-- The first event of the validator, without transactions. -/
def sampleAtropos : Event where
  epoch := 1
  lamport := 1
  creator := 1
  seq := 1
  frame := 1
  creationTime := 2
  medianTime := 2
  gasPowerUsed := 28000
  gasPowerLeft := ⟨![0, 0]⟩
  parents := []
  prevEpochHash := none
  txHash := copyBytes 32 []
  extra := []
  id := ⟨1, 1, copyBytes 24 [1]⟩
  hashToSign := copyBytes 32 []

end Zilionixx
