import Zilionixx.BlockStep

/-!
# Runs of blocks from genesis

`apply_genesis.go` executes the first block, which seals the epoch before the
first one. From then on blocks follow each other; whatever the events, the
cheaters and the EVM are, the block state and the epoch state fit together
whenever a block begins.
-/

namespace Zilionixx

/-! ## Genesis -/

/-- `pos.NewBuilder().Build()` -/
def noValidators : Validators where
  sortedIDs := []
  get _ := 0
  totalWeight := 0
  getIdx _ := 0
  get_eq_zero _ _ := rfl
  nodup := .nil
  getIdx_of_getElem? _ _ h := by cases h

/-- `applyEpoch0Genesis`: the last genesis block, and the root to start from. -/
def highestBlock (g : Genesis) : BlockCtx × Hash :=
  g.blocks.getLast?.getD (⟨0, 0, EventID.zero⟩, copyBytes 32 [])

/-- `applyEpoch0Genesis`, with the root of the EVM genesis. -/
def applyEpoch0Genesis (applyEvmGenesis : Genesis → Hash → Option Hash) (g : Genesis) :
    Option (Hash × BlockState × EpochState) := do
  -- apply EVM genesis
  let root ← applyEvmGenesis g (highestBlock g).2
  let states ← setBlockEpochState
    { lastBlock := (highestBlock g).1
      finalizedStateRoot := root
      epochGas := 0
      epochCheaters := []
      validatorStates := []
      nextValidatorProfiles := ∅
      dirtyRules := g.rules
      advanceEpochs := 0 }
    { epoch := g.firstEpoch - 1
      epochStart := g.prevEpochTime
      prevEpochStart := g.prevEpochTime - 1
      epochStateRoot := copyBytes 32 []
      validators := noValidators
      validatorStates := []
      validatorProfiles := ∅
      rules := g.rules }
  pure (root, states)

/-- The end of `applyEpoch1Genesis`, after the epoch is sealed; `none` is also the
error that a genesis transaction is reverted or skipped. -/
def finishGenesis (W : World) (evm : Evm) (ctx : BlockCtx) (state : evm.State) (bs : BlockState)
    (es : EpochState) : Option (BlockState × EpochState) := do
  -- execute post-internal transactions
  let internalTxs := popPostInternalTxs es true (evm.nonce state)
  let (state, bs) ← executeTxs W evm state (internalTxs.map .internal) true bs
  let (evmBlock, skippedTxs, receipts) ← evm.finalize state
  if receipts.any (·.status = 0) || skippedTxs.length ≠ 0 then none
  else setBlockEpochState { bs with finalizedStateRoot := evmBlock.root, lastBlock := ctx } es

/-- `applyEpoch1Genesis`: the stored states after genesis. -/
def applyEpoch1Genesis (W : World) (evm : Evm) (applyEvmGenesis : Genesis → Hash → Option Hash)
    (g : Genesis) : Option (BlockState × EpochState) := do
  let (root, bs, es) ← applyEpoch0Genesis applyEvmGenesis g
  let statedb ← evm.stateDB root
  let ctx : BlockCtx := ⟨bs.lastBlock.idx + 1, g.time, EventID.zero⟩
  let state := evm.start ctx es.rules statedb
  -- execute genesis-internal transactions
  let genesisInternalTxs ← popGenesisInternalTxs g es (evm.nonce state)
  let (state, bs) ← executeTxs W evm state (genesisInternalTxs.map .internal) true bs
  -- execute pre-internal transactions
  let (bs, preInternalTxs) ← popPreInternalTxs ctx bs es true (evm.nonce state)
  let (state, bs) ← executeTxs W evm state (preInternalTxs.map .internal) true bs
  -- seal the epoch
  let (bs, es) ← Sealer.sealEpoch W.builder ctx bs es
  finishGenesis W evm ctx state bs es

/-! ## The invariant -/

/-- The states of the validators run in parallel to the validators, and the epoch
has started before the last block, or with it. -/
structure StatesFit (bs : BlockState) (es : EpochState) : Prop where
  blockStates : bs.validatorStates.length = es.validators.len
  epochStates : es.validatorStates.length = es.validators.len
  epochStart : es.epochStart ≤ bs.lastBlock.time

/-- The states at the begin of an epoch: nobody has been reported yet. -/
structure EpochBegin (bs : BlockState) (es : EpochState) : Prop where
  fit : StatesFit bs es
  epochCheaters : bs.epochCheaters = []

variable {W : World} {evm : Evm} {g : Genesis} {ctx : BlockCtx} {bs bs' : BlockState}
  {es es' : EpochState} {block : ProcessedBlock} {b : BlockInput} {o : Outcome}

theorem finishGenesis_eq_some {state : evm.State}
    (h : finishGenesis W evm ctx state bs es = some (bs', es')) :
    es' = es ∧ bs'.lastBlock = ctx ∧ SameCheaters bs bs' := by
  obtain ⟨⟨state₁, bs₁⟩, hexecute, h⟩ := Option.bind_eq_some_iff.mp h
  obtain ⟨⟨evmBlock, skippedTxs, receipts⟩, -, h⟩ := Option.bind_eq_some_iff.mp h
  simp only at h
  split at h
  · cases h
  · obtain ⟨rfl, rfl⟩ := setBlockEpochState_eq_some h
    have hsame := SameCheaters.of_pendingChange (.executeTxs hexecute)
    exact ⟨rfl, rfl, hsame.epochCheaters, hsame.marks⟩

/-- Genesis begins an epoch. -/
theorem epochBegin_genesis {applyEvmGenesis : Genesis → Hash → Option Hash}
    (h : applyEpoch1Genesis W evm applyEvmGenesis g = some (bs, es)) : EpochBegin bs es := by
  obtain ⟨⟨root, bs₀, es₀⟩, -, h⟩ := Option.bind_eq_some_iff.mp h
  obtain ⟨statedb, -, h⟩ := Option.bind_eq_some_iff.mp h
  obtain ⟨genesisTxs, -, h⟩ := Option.bind_eq_some_iff.mp h
  obtain ⟨⟨state₁, bs₁⟩, -, h⟩ := Option.bind_eq_some_iff.mp h
  obtain ⟨⟨bs₂, preTxs⟩, -, h⟩ := Option.bind_eq_some_iff.mp h
  obtain ⟨⟨state₃, bs₃⟩, -, h⟩ := Option.bind_eq_some_iff.mp h
  obtain ⟨⟨bs₄, es₄⟩, hseal, h⟩ := Option.bind_eq_some_iff.mp h
  obtain ⟨rfl, hlast, hsame⟩ := finishGenesis_eq_some h
  obtain ⟨⟨-, hstart⟩, ⟨-, hcheaters⟩, hblock, hepoch⟩ := Sealer.sealEpoch_eq_some hseal
  refine ⟨⟨hsame.length.trans hblock, hepoch, ?_⟩, hsame.epochCheaters.trans hcheaters⟩
  rw [hlast, hstart]
  exact UInt64.le_refl _

/-- A block that is not skipped makes the states fit, and begins an epoch if it seals one. -/
theorem Executed.fit (h : Executed W ctx bs es bs' es' block)
    (hblock : bs.validatorStates.length = es.validators.len)
    (hepoch : es.validatorStates.length = es.validators.len) (hstart : es.epochStart ≤ ctx.time) :
    StatesFit bs' es' ∧
      ((block.sealing = true ∧ EpochBegin bs' es' ∧ es'.epoch = es.epoch + 1) ∨
        (block.sealing = false ∧ es' = es)) := by
  obtain ⟨nonce, bs₁, bs₂, bs₃, hpre, hsame, hseal, hsame'⟩ := h.states
  rcases sealIf_eq_some hseal with ⟨hsealing, hseal⟩ | ⟨hsealing, rfl, rfl⟩
  · obtain ⟨⟨hnext, hstart⟩, ⟨-, hcheaters⟩, hblock, hepoch⟩ := Sealer.sealEpoch_eq_some hseal
    have hfit : StatesFit bs' es' := by
      refine ⟨hsame'.length.trans hblock, hepoch, ?_⟩
      rw [h.lastBlock, hstart]
      exact UInt64.le_refl _
    exact ⟨hfit, .inl ⟨hsealing, ⟨hfit, hsame'.epochCheaters.trans hcheaters⟩, hnext⟩⟩
  · obtain ⟨states, calls, hwrite, rfl, -⟩ := popPreInternalTxs_eq_some hpre
    have hlength : bs'.validatorStates.length = bs.validatorStates.length :=
      (hsame'.length.trans hsame.length).trans (length_writeCheaters hwrite)
    exact ⟨⟨hlength.trans hblock, hepoch, h.lastBlock ▸ hstart⟩, .inr ⟨hsealing, rfl⟩⟩

/-- What a block does, by its outcome. -/
def BlockEffect (W : World) (b : BlockInput) (bs : BlockState) (es : EpochState) (bs' : BlockState)
    (es' : EpochState) : Outcome → Prop
  | .processed block =>
    (block.ctx.idx = bs.lastBlock.idx + 1 ∧ bs.lastBlock.time < block.ctx.time ∧
        bs'.lastBlock = block.ctx ∧ block.block.time = block.ctx.time) ∧
      -- the duration of the epoch does not wrap
      (es.epochStart ≤ block.ctx.time ∧
        (block.ctx.time - es.epochStart).toNat = block.ctx.time.toNat - es.epochStart.toNat) ∧
      (block.sealing = true → es'.epoch = es.epoch + 1) ∧ (block.sealing = false → es' = es)
  | .skipped =>
    (bs'.lastBlock = bs.lastBlock ∧ bs'.finalizedStateRoot = bs.finalizedStateRoot ∧ es' = es ∧
        bs'.nextValidatorProfiles = bs.nextValidatorProfiles ∧ bs'.dirtyRules = bs.dirtyRules) ∧
      -- if any event is applied, then the Atropos is
      ((b.events ≠ [] → ∃ e ∈ b.events, e.id = b.cBlock.atropos) →
        ∀ e ∈ b.events, e.noTxs W.hashing = true)

/-- A block is skipped only if no event has transactions. -/
theorem Applied.noTxs_of_skip {H : Hashing} {cBlock : ConsensusBlock} {events : List Event}
    {p : BlockProcessing} (h : Applied H cBlock bs es events p) (hskip : p.skipBlock = true)
    (hatropos : events ≠ [] → ∃ e ∈ events, e.id = cBlock.atropos) :
    ∀ e ∈ events, e.noTxs H = true := by
  intro e he
  obtain ⟨a, ha, hid⟩ := hatropos (List.ne_nil_of_mem he)
  have hfound : p.atroposDegenerate = false := by
    rw [h.atroposDegenerate, Option.isNone_eq_false_iff, List.find?_isSome]
    exact ⟨a, ha, decide_eq_true hid.symm⟩
  have hempty : p.confirmedEvents.length = 0 := by
    rw [BlockProcessing.skipBlock, hfound, Bool.false_or] at hskip
    simp only [Bool.and_eq_true, decide_eq_true_eq] at hskip
    exact hskip.1.1
  by_contra htxs
  have hmem : e.id ∈ p.confirmedEvents := by
    rw [h.confirmedEvents, List.mem_reverse]
    refine List.mem_map_of_mem (List.mem_filter.mpr ⟨he, ?_⟩)
    rw [Bool.eq_false_of_not_eq_true htxs]
    rfl
  rw [List.eq_nil_of_length_eq_zero hempty] at hmem
  cases hmem

/-- A block keeps the invariant. -/
theorem StatesFit.step (h : StatesFit bs es) (htime : bs.lastBlock.time < maxUint64)
    (hstep : step W bs es b = some ((bs', es'), o)) :
    StatesFit bs' es' ∧ BlockEffect W b bs es bs' es' o := by
  obtain ⟨p, bs₁, happlied, hfinal, hskip | hprocess⟩ := step_eq_some hstep
  · obtain ⟨hskip, rfl, rfl, rfl⟩ := hskip
    obtain ⟨gas, states, rfl⟩ := hfinal.eq
    refine ⟨⟨hfinal.same.length.trans h.blockStates, h.epochStates, h.epochStart⟩,
      ⟨rfl, rfl, rfl, rfl, rfl⟩, fun hatropos e he => ?_⟩
    refine happlied.noTxs_of_skip hskip (fun hne => ?_) e (List.mem_reverse.mpr he)
    obtain ⟨a, ha, hid⟩ := hatropos fun h => hne (List.reverse_eq_nil_iff.mpr h)
    exact ⟨a, List.mem_reverse.mpr ha, hid⟩
  · obtain ⟨-, block, rfl, hexecuted⟩ := hprocess
    obtain ⟨hidx, hlater⟩ := happlied.blockCtx htime
    have hstart : es.epochStart ≤ p.blockCtx.time :=
      UInt64.le_trans h.epochStart (UInt64.le_of_lt hlater)
    obtain ⟨hfit, hsealed⟩ :=
      hexecuted.fit (hfinal.same.length.trans h.blockStates) h.epochStates hstart
    rw [← hexecuted.ctx_eq] at hidx hlater hstart
    refine ⟨hfit, ⟨hidx, hlater, hexecuted.lastBlock.trans hexecuted.ctx_eq.symm,
      hexecuted.time_eq.trans (congrArg _ hexecuted.ctx_eq.symm)⟩,
      ⟨hstart, UInt64.toNat_sub_of_le _ _ hstart⟩, ?_, ?_⟩
    · intro hsealing
      rcases hsealed with ⟨-, -, hnext⟩ | ⟨hnot, -⟩
      · exact hnext
      · rw [hsealing] at hnot
        cases hnot
    · intro hsealing
      rcases hsealed with ⟨hnot, -, -⟩ | ⟨-, heq⟩
      · rw [hsealing] at hnot
        cases hnot
      · exact heq

/-- The states with which blocks begin: those after genesis, and those after a
block, as long as the time of a block is not the last one there is. -/
inductive Reachable (W : World) : BlockState → EpochState → Prop where
  | genesis {evm : Evm} {applyEvmGenesis : Genesis → Hash → Option Hash} {g : Genesis}
      {bs : BlockState} {es : EpochState}
      (apply : applyEpoch1Genesis W evm applyEvmGenesis g = some (bs, es)) : Reachable W bs es
  | block {bs bs' : BlockState} {es es' : EpochState} {b : BlockInput} {o : Outcome}
      (before : Reachable W bs es) (time : bs.lastBlock.time < maxUint64)
      (step : step W bs es b = some ((bs', es'), o)) : Reachable W bs' es'

theorem Reachable.fit (h : Reachable W bs es) : StatesFit bs es := by
  induction h with
  | genesis apply => exact (epochBegin_genesis apply).fit
  | block _ time step ih => exact (ih.step time step).1

/-- **Block and epoch state invariant.** Whenever a block begins, the states run in
parallel to the validators and the epoch has started. The block then takes the
next index and a later time, and a new epoch begins just if it seals one; or it
is skipped, and then nothing is lost. -/
theorem block_epoch_invariant (W : World) (bs : BlockState) (es : EpochState)
    (h : Reachable W bs es) :
    (bs.validatorStates.length = es.validators.len ∧
        es.validatorStates.length = es.validators.len) ∧
      es.epochStart ≤ bs.lastBlock.time ∧
      ∀ b bs' es' o, bs.lastBlock.time < maxUint64 → step W bs es b = some ((bs', es'), o) →
        BlockEffect W b bs es bs' es' o :=
  ⟨⟨h.fit.blockStates, h.fit.epochStates⟩, h.fit.epochStart,
    fun _ _ _ _ htime hstep => (h.fit.step htime hstep).2⟩

/-- A genesis for examples. -/
def sampleGenesis : Genesis where
  blocks := []
  validators := []
  delegations := []
  firstEpoch := 1
  prevEpochTime := 0
  time := 1
  totalSupply := 0
  driverOwner := copyBytes 20 []
  rules := mainNetRules

theorem applyEpoch1Genesis_sample :
    applyEpoch1Genesis sampleWorld sampleEvm (fun _ root => some root) sampleGenesis =
      some (sampleBlockState, sampleEpochState) := rfl

/-- A block in which some cheaters are observed. -/
def sampleBlock (cheaters : List ValidatorID) : BlockInput where
  cBlock := ⟨sampleAtropos.id, cheaters⟩
  events := [sampleAtropos]
  evm := sampleEvm
  getEventPayload _ := none

theorem block_epoch_invariant_sampleBlock :
    ∃ bs es block,
      step sampleWorld sampleBlockState sampleEpochState (sampleBlock [1]) =
        some ((bs, es), .processed block) ∧
      bs.lastBlock.idx = 2 ∧ es.epoch = 2 ∧ Reachable sampleWorld bs es := by
  have hgenesis : Reachable sampleWorld sampleBlockState sampleEpochState :=
    .genesis applyEpoch1Genesis_sample
  obtain ⟨⟨⟨bs, es⟩, o⟩, hstep, ho⟩ :
      ∃ r, step sampleWorld sampleBlockState sampleEpochState (sampleBlock [1]) = some r ∧
        r.2.seals = true := by
    decide +kernel
  have htime : sampleBlockState.lastBlock.time < maxUint64 := by decide
  have hreach := hgenesis.block htime hstep
  obtain ⟨-, -, heffect⟩ := block_epoch_invariant _ _ _ hgenesis
  have heffect := heffect _ _ _ _ htime hstep
  cases o with
  | skipped => cases ho
  | processed block =>
    obtain ⟨⟨hidx, -, hlast, -⟩, -, hsealing, -⟩ := heffect
    exact ⟨bs, es, block, hstep, (congrArg _ hlast).trans hidx, hsealing ho, hreach⟩

end Zilionixx
