import Zilionixx.BlockCallbacks

/-!
# What a block does to the states

The parts of `EndBlock` take turns in changing the block state. Each of them is
described by what it leaves unchanged; put together they say what a block does
(`step_eq_some`).
-/

namespace Zilionixx

variable {W : World} {evm : Evm} {ctx : BlockCtx} {bs bs' bs'' : BlockState} {es es' : EpochState}
  {sealing : Bool}

/-- What a receipt does not change, all the receipts of a block do not. -/
theorem onNewReceipts_eq_some {α : Type} {f : ValidatorBlockState → α}
    (hf : ∀ info originated refund,
      f { info with originated := originated, dirtyGasRefund := refund } = f info)
    {creatorOf : Hash → ValidatorID} {txs : List BlockTx} {receipts : List Receipt}
    (h : onNewReceipts es creatorOf txs receipts bs = some bs') :
    ∃ states, bs' = { bs with validatorStates := states } ∧
      states.map f = bs.validatorStates.map f := by
  fun_induction onNewReceipts es creatorOf txs receipts bs with
  | case1 =>
    cases h
    exact ⟨_, rfl, rfl⟩
  | case2 => cases h
  | case3 tx txs r receipts bs creator₀ creator ih =>
    obtain ⟨bs₁, hreceipt, h⟩ := Option.bind_eq_some_iff.mp h
    obtain ⟨states, rfl, hstates⟩ := onNewReceipt_eq_some hf hreceipt
    obtain ⟨states', rfl, hstates'⟩ := ih _ h
    exact ⟨states', rfl, hstates'.trans hstates⟩

/-- The cheaters of the epoch are the same, and the same validators are marked. -/
structure SameCheaters (bs bs' : BlockState) : Prop where
  epochCheaters : bs'.epochCheaters = bs.epochCheaters
  marks : bs'.validatorStates.map ValidatorBlockState.cheater =
    bs.validatorStates.map ValidatorBlockState.cheater

namespace SameCheaters

theorem trans (h : SameCheaters bs bs') (h' : SameCheaters bs' bs'') : SameCheaters bs bs'' :=
  ⟨h'.epochCheaters.trans h.epochCheaters, h'.marks.trans h.marks⟩

theorem length (h : SameCheaters bs bs') :
    bs'.validatorStates.length = bs.validatorStates.length := by
  have := congrArg List.length h.marks
  rwa [List.length_map, List.length_map] at this

/-- The marks are the same. -/
theorem isCheater_iff (h : SameCheaters bs bs') {validators : Validators} {v : ValidatorID} :
    IsCheater validators bs'.validatorStates v ↔ IsCheater validators bs.validatorStates v := by
  rw [IsCheater, h.marks, IsCheater]

/-- Logs do not mark cheaters. -/
theorem of_pendingChange (h : PendingChange bs bs') : SameCheaters bs bs' := by
  obtain ⟨_, _, _, rfl⟩ := h
  exact ⟨rfl, rfl⟩

/-- Nor do receipts. -/
theorem onNewReceipts {creatorOf : Hash → ValidatorID} {txs : List BlockTx}
    {receipts : List Receipt} (h : onNewReceipts es creatorOf txs receipts bs = some bs') :
    SameCheaters bs bs' := by
  obtain ⟨states, rfl, hstates⟩ :=
    onNewReceipts_eq_some (f := ValidatorBlockState.cheater) (fun _ _ _ => rfl) h
  exact ⟨rfl, hstates⟩

end SameCheaters

/-- Executing changes what logs may change. -/
theorem PendingChange.executeTxs {txs : List BlockTx} {internal : Bool} {state state' : evm.State}
    (h : executeTxs W evm state txs internal bs = some (state', bs')) : PendingChange bs bs' := by
  obtain ⟨⟨state₁, logs, receipts⟩, -, h⟩ := Option.bind_eq_some_iff.mp h
  obtain ⟨bs₁, hlogs, h⟩ := Option.bind_eq_some_iff.mp h
  cases h
  exact .onNewLogs hlogs

/-! ## Internal transactions -/

/-- Sealing deactivates nobody. -/
theorem sealingCalls_deactivates {states : List ValidatorBlockState} {calls : List DriverCall}
    {v : ValidatorID} (h : sealingCalls ctx es states sealing = some calls) :
    calls.countP (fun call => call.deactivates v) = 0 := by
  cases sealing with
  | false =>
    cases h
    rfl
  | true =>
    obtain ⟨metrics, -, h⟩ := Option.bind_eq_some_iff.mp h
    cases h
    rfl

/-- Cheaters are written before the block, and deactivated in it. -/
theorem popPreInternalTxs_eq_some {nonce : UInt64} {txs : List InternalTx}
    (h : popPreInternalTxs ctx bs es sealing nonce = some (bs', txs)) :
    ∃ states calls,
      writeCheaters es.validators bs.epochCheaters bs.validatorStates = some (states, calls) ∧
      bs' = { bs with validatorStates := states } ∧
      ∀ v, deactivations v txs = calls.countP fun call => call.deactivates v := by
  obtain ⟨⟨states, calls⟩, hwrite, h⟩ := Option.bind_eq_some_iff.mp h
  obtain ⟨sealCalls, hseal, h⟩ := Option.bind_eq_some_iff.mp h
  cases h
  refine ⟨states, calls, hwrite, rfl, fun v => ?_⟩
  rw [deactivations_internalTxBuilder, List.countP_append, sealingCalls_deactivates hseal,
    Nat.add_zero]

theorem deactivations_popPostInternalTxs (es : EpochState) (sealing : Bool) (nonce : UInt64)
    (v : ValidatorID) : deactivations v (popPostInternalTxs es sealing nonce) = 0 := by
  rw [popPostInternalTxs, deactivations_internalTxBuilder]
  cases sealing with
  | false => rfl
  | true => rfl

/-! ## `EndBlock` -/

/-- The epoch is sealed or stays. -/
theorem sealIf_eq_some (h : sealIf W sealing ctx bs es = some (bs', es')) :
    (sealing = true ∧ Sealer.sealEpoch W.builder ctx bs es = some (bs', es')) ∨
      (sealing = false ∧ bs' = bs ∧ es' = es) := by
  cases sealing with
  | false =>
    cases h
    exact .inr ⟨rfl, rfl, rfl⟩
  | true =>
    obtain ⟨⟨bs₁, es₁⟩, hseal, hstore⟩ := Option.bind_eq_some_iff.mp h
    obtain ⟨rfl, rfl⟩ := setBlockEpochState_eq_some hstore
    exact .inl ⟨rfl, hseal⟩

/-- What `EndBlock` does when the block is not skipped: the cheaters are written,
the epoch is sealed if needed, and nothing else concerns the cheaters. -/
structure Executed (W : World) (ctx : BlockCtx) (bs : BlockState) (es : EpochState)
    (bs' : BlockState) (es' : EpochState) (block : ProcessedBlock) : Prop where
  ctx_eq : block.ctx = ctx
  time_eq : block.block.time = ctx.time
  lastBlock : bs'.lastBlock = ctx
  sealing_eq : block.sealing = Sealer.epochSealing ctx bs es
  states : ∃ nonce bs₁ bs₂ bs₃,
    popPreInternalTxs ctx bs es block.sealing nonce = some (bs₁, block.preInternalTxs) ∧
    SameCheaters bs₁ bs₂ ∧ sealIf W block.sealing ctx bs₂ es = some (bs₃, es') ∧
    SameCheaters bs₃ bs'
  internalTxs : ∃ nonce, block.internalTxs = popPostInternalTxs es' block.sealing nonce

/-- The stages of `EndBlock` when the block is not skipped, with what each of them
makes of the states. -/
structure Stages (W : World) (ctx : BlockCtx) (bs : BlockState) (es : EpochState)
    (bs' : BlockState) (es' : EpochState) (block : ProcessedBlock) : Prop where
  ctx_eq : block.ctx = ctx
  time_eq : block.block.time = ctx.time
  sealing_eq : block.sealing = Sealer.epochSealing ctx bs es
  states : ∃ nonce bs₁ bs₂ bs₃ bs₄ bs₅,
    popPreInternalTxs ctx bs es block.sealing nonce = some (bs₁, block.preInternalTxs) ∧
    PendingChange bs₁ bs₂ ∧ sealIf W block.sealing ctx bs₂ es = some (bs₃, es') ∧
    PendingChange bs₃ bs₄ ∧
    onNewReceipts es' (eventCreator W block.blockEvents) block.evmBlock.transactions
      block.receipts bs₄ = some bs₅ ∧
    bs' = { bs₅ with finalizedStateRoot := block.evmBlock.root, lastBlock := ctx }
  internalTxs : ∃ nonce, block.internalTxs = popPostInternalTxs es' block.sealing nonce

/-- The stages of a block, in order. -/
theorem processBlock_stages {getEventPayload : EventID → Option EventPayload}
    {confirmedEvents : List EventID} {statedb : evm.State} {block : ProcessedBlock}
    (h : processBlock W evm getEventPayload ctx confirmedEvents statedb bs es =
      some ((bs', es'), block)) : Stages W ctx bs es bs' es' block := by
  obtain ⟨⟨bs₁, pre⟩, hpre, h⟩ := Option.bind_eq_some_iff.mp h
  obtain ⟨⟨state₂, bs₂⟩, hexecute, h⟩ := Option.bind_eq_some_iff.mp h
  obtain ⟨⟨bs₃, es₃⟩, hseal, h⟩ := Option.bind_eq_some_iff.mp h
  -- `blockFn`
  obtain ⟨⟨state₄, bs₄⟩, hinternal, h⟩ := Option.bind_eq_some_iff.mp h
  obtain ⟨blockEvents, -, h⟩ := Option.bind_eq_some_iff.mp h
  obtain ⟨⟨state₅, bs₅⟩, hexternal, h⟩ := Option.bind_eq_some_iff.mp h
  obtain ⟨⟨evmBlock, skippedTxs, receipts⟩, -, h⟩ := Option.bind_eq_some_iff.mp h
  obtain ⟨bs₆, hreceipts, h⟩ := Option.bind_eq_some_iff.mp h
  obtain ⟨⟨bs₇, es₇⟩, hstore, h⟩ := Option.bind_eq_some_iff.mp h
  have hpending := (PendingChange.executeTxs hinternal).trans (.executeTxs hexternal)
  obtain ⟨rfl, rfl⟩ := setBlockEpochState_eq_some hstore
  cases h
  exact ⟨rfl, rfl, rfl,
    ⟨_, _, _, _, _, _, hpre, .executeTxs hexecute, hseal, hpending, hreceipts, rfl⟩, _, rfl⟩

theorem Stages.executed {block : ProcessedBlock} (h : Stages W ctx bs es bs' es' block) :
    Executed W ctx bs es bs' es' block := by
  obtain ⟨nonce, bs₁, bs₂, bs₃, bs₄, bs₅, hpre, hpending, hseal, hpending', hreceipts, rfl⟩ :=
    h.states
  have hsame : SameCheaters bs₃ bs₅ :=
    (.trans (.of_pendingChange hpending') (.onNewReceipts hreceipts))
  exact ⟨h.ctx_eq, h.time_eq, rfl, h.sealing_eq,
    ⟨_, _, _, _, hpre, .of_pendingChange hpending, hseal, hsame.epochCheaters, hsame.marks⟩,
    h.internalTxs⟩

/-! ## The whole block -/

/-- The state with which `EndBlock` goes on: the events have changed the gas and
the states of the validators. -/
structure Finalized (bs : BlockState) (cBlock : ConsensusBlock) (bs' : BlockState) : Prop where
  eq : ∃ gas states, bs' =
    { withCheaters bs cBlock with epochGas := gas, validatorStates := states }
  same : SameCheaters (withCheaters bs cBlock) bs'

/-- The event processor leaves the marks. -/
theorem Applied.finalize {H : Hashing} {cBlock : ConsensusBlock} {events : List Event}
    {p : BlockProcessing} (h : Applied H cBlock bs es events p)
    (hfinalize : p.eventProcessor.finalize ctx = some bs') : Finalized bs cBlock bs' := by
  obtain ⟨highest, states, -, hstates, rfl⟩ :=
    ValidatorEventsProcessor.finalize_eq_some hfinalize
  obtain ⟨gas, hgas⟩ := h.processor_bs
  have hmarks := ValidatorEventsProcessor.map_updateStates (f := ValidatorBlockState.cheater)
    (fun _ _ => rfl) hstates
  rw [hgas] at hmarks ⊢
  exact ⟨⟨gas, states, rfl⟩, rfl, hmarks⟩

/-- The index and the time of a block. The time of the last block is not the last
time there is. -/
theorem Applied.blockCtx {H : Hashing} {cBlock : ConsensusBlock} {events : List Event}
    {p : BlockProcessing} (h : Applied H cBlock bs es events p)
    (htime : bs.lastBlock.time < maxUint64) :
    p.blockCtx.idx = bs.lastBlock.idx + 1 ∧ bs.lastBlock.time < p.blockCtx.time := by
  have hlast : p.bs.lastBlock = bs.lastBlock := by
    rw [h.bs_eq]
    rfl
  rw [BlockProcessing.blockCtx, hlast]
  refine ⟨rfl, ?_⟩
  simp only
  split
  · rw [UInt64.lt_iff_toNat_lt] at htime ⊢
    rw [UInt64.toNat_add, UInt64.toNat_one, Nat.mod_eq_of_lt]
    · exact Nat.lt_succ_self _
    · have : maxUint64.toNat = 2 ^ 64 - 1 := rfl
      omega
  · rename_i hgt
    exact UInt64.not_le.mp hgt

/-- **What a block does.** The highest events update the states of their creators;
then the block is skipped, or executed. -/
theorem step_stages {b : BlockInput} {o : Outcome} (h : step W bs es b = some ((bs', es'), o)) :
    ∃ p bs₁, b.events.foldlM (BlockProcessing.applyEvent W.hashing) (beginBlock b.cBlock bs es) =
        some p ∧
      p.eventProcessor.finalize p.blockCtx = some bs₁ ∧
      ((p.skipBlock = true ∧ o = .skipped ∧ bs' = bs₁ ∧ es' = es) ∨
        (p.skipBlock = false ∧
          ∃ block, o = .processed block ∧ Stages W p.blockCtx bs₁ es bs' es' block)) := by
  obtain ⟨bs₀, hbs, h⟩ := Option.bind_eq_some_iff.mp h
  obtain ⟨es₀, hes, h⟩ := Option.bind_eq_some_iff.mp h
  obtain ⟨statedb, -, h⟩ := Option.bind_eq_some_iff.mp h
  obtain ⟨p, hevents, h⟩ := Option.bind_eq_some_iff.mp h
  obtain ⟨bs₁, hfinalize, hend⟩ := Option.bind_eq_some_iff.mp h
  obtain rfl := BlockState.copy_eq_some hbs
  obtain rfl := EpochState.copy_eq_some hes
  refine ⟨p, bs₁, hevents, hfinalize, ?_⟩
  rw [(applied_beginBlock.applyEvents hevents).es_eq] at hend
  split at hend
  · rename_i hskip
    obtain ⟨⟨bs₂, es₂⟩, hstore, hend⟩ := Option.bind_eq_some_iff.mp hend
    cases hend
    obtain ⟨rfl, rfl⟩ := setBlockEpochState_eq_some hstore
    exact .inl ⟨hskip, rfl, rfl, rfl⟩
  · rename_i hskip
    obtain ⟨⟨⟨bs₂, es₂⟩, block⟩, hprocess, hend⟩ := Option.bind_eq_some_iff.mp hend
    cases hend
    exact .inr ⟨Bool.not_eq_true _ ▸ hskip, block, rfl, processBlock_stages hprocess⟩

/-- A block as far as the cheaters are concerned. -/
theorem step_eq_some {b : BlockInput} {o : Outcome} (h : step W bs es b = some ((bs', es'), o)) :
    ∃ p bs₁, Applied W.hashing b.cBlock bs es b.events.reverse p ∧ Finalized bs b.cBlock bs₁ ∧
      ((p.skipBlock = true ∧ o = .skipped ∧ bs' = bs₁ ∧ es' = es) ∨
        (p.skipBlock = false ∧
          ∃ block, o = .processed block ∧ Executed W p.blockCtx bs₁ es bs' es' block)) := by
  obtain ⟨p, bs₁, hevents, hfinalize, hend⟩ := step_stages h
  have happlied := applied_beginBlock.applyEvents hevents
  rw [List.append_nil] at happlied
  refine ⟨p, bs₁, happlied, happlied.finalize hfinalize, ?_⟩
  rcases hend with hskip | ⟨hskip, block, ho, hstages⟩
  · exact .inl hskip
  · exact .inr ⟨hskip, block, ho, hstages.executed⟩

end Zilionixx
