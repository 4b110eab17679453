import Zilionixx.EventModule

/-!
# `drivermodule`: the driver contract and the node

`driver_txs.go`. The node tells the driver contract about cheaters and sealed
epochs in internal transactions, and hears from it about changes of validators
and rules in logs.

The calls to the contract are kept as they are made; how they are packed into
bytes is up to the ABI.
-/

namespace Zilionixx

open ByteNumber

/-! ## Calls and transactions -/

/-- `zilionixx.BlocksMissed` -/
structure BlocksMissed where
  blocksNum : UInt64
  period : Timestamp
  deriving DecidableEq

/-- `drivercall.ValidatorEpochMetric` -/
structure ValidatorEpochMetric where
  missed : BlocksMissed
  uptime : Timestamp
  originatedTxFee : ℤ
  deriving DecidableEq

/-- `gpos.Validator` -/
structure GenesisValidator where
  id : ValidatorID
  address : Address
  pubKey : PubKey
  creationTime : Timestamp
  creationEpoch : UInt32
  deactivatedTime : Timestamp
  deactivatedEpoch : UInt32
  status : UInt64
  deriving DecidableEq

/-- `genesis.Delegation` -/
structure Delegation where
  stake : ℤ
  rewards : ℤ
  lockedStake : ℤ
  lockupFromEpoch : UInt32
  lockupEndTime : Timestamp
  lockupDuration : Timestamp
  earlyUnlockPenalty : ℤ
  deriving DecidableEq

/-- The calls that internal transactions make. -/
inductive DriverCall where
  /-- `drivercall.DeactivateValidator` -/
  | deactivateValidator (validatorID : ValidatorID) (status : UInt64)
  /-- `drivercall.SealEpoch` -/
  | sealEpoch (metrics : List ValidatorEpochMetric)
  /-- `drivercall.SealEpochValidators` -/
  | sealEpochValidators (validators : List ValidatorID)
  /-- `drivercall.SetGenesisValidator` -/
  | setGenesisValidator (v : GenesisValidator)
  /-- `drivercall.SetGenesisDelegation` -/
  | setGenesisDelegation (delegator : Address) (validatorID : ValidatorID) (d : Delegation)
  /-- `netinitcall.InitializeAll` -/
  | initializeAll (sealedEpoch : UInt32) (totalSupply : ℤ) (owner : Address)
  deriving DecidableEq

/-- An internal transaction. -/
structure InternalTx where
  nonce : UInt64
  call : DriverCall
  deriving DecidableEq

/-- The transactions of a block: internal ones, and those of events. -/
inductive BlockTx where
  | internal (tx : InternalTx)
  | event (tx : Transaction)
  deriving DecidableEq

namespace BlockTx

/-- `tx.Gas()` -/
def gas : BlockTx → UInt64
  | internal _ => 10000000000
  | event tx => tx.gas

/-- `tx.GasPrice()` -/
def gasPrice : BlockTx → ℤ
  | internal _ => 0
  | event tx => tx.gasPrice

end BlockTx

/-- The transactions that `internalTxBuilder` makes of some calls. It starts
without a nonce and asks the state for one; `stateNonce` is what it gets. -/
def internalTxBuilder (stateNonce : UInt64) : UInt64 → List DriverCall → List InternalTx
  | _, [] => []
  | nonce, call :: calls =>
    let nonce := if nonce = maxUint64 then stateNonce else nonce
    ⟨nonce, call⟩ :: internalTxBuilder stateNonce (nonce + 1) calls

/-! ## Internal transactions -/

/-- `drivertype.DoublesignBit` -/
def doublesignBit : UInt64 := 128

/-- `DriverTxPreTransactor.PopInternalTxs`: write cheaters. The states are
those of the block, also for the others who hold them; `none` is an index out of
range. -/
def writeCheaters (validators : Validators) :
    List ValidatorID → List ValidatorBlockState →
      Option (List ValidatorBlockState × List DriverCall)
  | [], states => some (states, [])
  | validatorID :: cheaters, states =>
    match states[validators.getIdx validatorID]? with
    | none => none
    | some info =>
      if info.cheater then writeCheaters validators cheaters states
      else
        (writeCheaters validators cheaters
          (states.set (validators.getIdx validatorID) { info with cheater := true })).map
          fun (states, calls) => (states, .deactivateValidator validatorID doublesignBit :: calls)

/-- `maxBlockIdx` -/
def maxBlockIdx (a b : UInt64) : UInt64 := if a > b then a else b

/-- `DriverTxPreTransactor.PopInternalTxs`: the metric of a validator. -/
def epochMetric (block : BlockCtx) (es : EpochState) (info : ValidatorBlockState) :
    ValidatorEpochMetric :=
  let missed : BlocksMissed :=
    { blocksNum := maxBlockIdx block.idx info.lastBlock - info.lastBlock
      period := maxTimestamp block.time info.lastOnlineTime - info.lastOnlineTime }
  -- forgive downtime if below `BlockMissedSlack`
  if missed.blocksNum ≤ es.rules.economy.blockMissedSlack then
    let prevOnlineTime := maxTimestamp info.lastOnlineTime es.epochStart
    { missed := ⟨0, 0⟩
      uptime := info.uptime + (maxTimestamp block.time prevOnlineTime - prevOnlineTime)
      originatedTxFee := info.originated }
  else
    { missed := missed
      uptime := info.uptime
      originatedTxFee := info.originated }

/-- `DriverTxPreTransactor.PopInternalTxs`: push data into Driver before epoch sealing. -/
def sealingCalls (block : BlockCtx) (es : EpochState) (states : List ValidatorBlockState)
    (sealing : Bool) : Option (List DriverCall) :=
  if sealing then do
    let metrics ← (List.range es.validators.len).mapM fun i =>
      states[i]?.map (epochMetric block es)
    pure [.sealEpoch metrics]
  else pure []

/-- `DriverTxPreTransactor.PopInternalTxs`, with the block state it leaves. -/
def popPreInternalTxs (block : BlockCtx) (bs : BlockState) (es : EpochState) (sealing : Bool)
    (stateNonce : UInt64) : Option (BlockState × List InternalTx) := do
  let (states, cheaterCalls) ← writeCheaters es.validators bs.epochCheaters bs.validatorStates
  let sealCalls ← sealingCalls block es states sealing
  pure ({ bs with validatorStates := states },
    internalTxBuilder stateNonce maxUint64 (cheaterCalls ++ sealCalls))

/-- `DriverTxTransactor.PopInternalTxs`: push data into Driver after epoch sealing. -/
def popPostInternalTxs (es : EpochState) (sealing : Bool) (stateNonce : UInt64) : List InternalTx :=
  internalTxBuilder stateNonce maxUint64
    (if sealing then [.sealEpochValidators es.validators.sortedIDs] else [])

/-- The genesis of a network, as far as its internal transactions and the first
states need it. -/
structure Genesis where
  /-- `Blocks`, in the order of `ForEach`, with the root of each -/
  blocks : List (BlockCtx × Hash)
  validators : List GenesisValidator
  /-- `Delegations`, in the order of `ForEach` -/
  delegations : List (Address × ValidatorID × Delegation)
  firstEpoch : UInt32
  prevEpochTime : Timestamp
  time : Timestamp
  totalSupply : ℤ
  driverOwner : Address
  rules : Rules

/-- `DriverTxGenesisTransactor.PopInternalTxs`; `none` is the panic on an empty delegation. -/
def popGenesisInternalTxs (g : Genesis) (es : EpochState) (stateNonce : UInt64) :
    Option (List InternalTx) :=
  if g.delegations.all fun (_, _, d) => d.stake ≠ 0 then
    some <| internalTxBuilder stateNonce maxUint64 <|
      -- initialization
      [.initializeAll (es.epoch - 1) g.totalSupply g.driverOwner] ++
      -- push genesis validators
      g.validators.map .setGenesisValidator ++
      -- push genesis delegations
      g.delegations.map fun (addr, toValidatorID, d) => .setGenesisDelegation addr toValidatorID d
  else none

/-! ## Receipts -/

/-- `types.Receipt` -/
structure Receipt where
  status : UInt64
  cumulativeGasUsed : UInt64
  txHash : Hash
  gasUsed : UInt64
  deriving DecidableEq

/-- `DriverTxListener.OnNewReceipt`; `none` is an index out of range. -/
def onNewReceipt (es : EpochState) (bs : BlockState) (tx : BlockTx) (r : Receipt)
    (originator : ValidatorID) : Option BlockState :=
  if originator = 0 then some bs
  else do
    let originatorIdx := es.validators.getIdx originator
    let info ← bs.validatorStates[originatorIdx]?
    -- track originated fee
    let txFee := r.gasUsed.toNat * tx.gasPrice
    -- track gas power refunds
    let notUsedGas := tx.gas - r.gasUsed
    let dirtyGasRefund :=
      if notUsedGas ≠ 0 then info.dirtyGasRefund + notUsedGas else info.dirtyGasRefund
    pure
      { bs with
        validatorStates := bs.validatorStates.set originatorIdx
          { info with
            originated := info.originated + txFee
            dirtyGasRefund := dirtyGasRefund } }

/-! ## Logs -/

/-- `types.Log` -/
structure Log where
  address : Address
  topics : List Hash
  data : Slice

/-- `s[low:high]`; `none` is the panic beyond the capacity. -/
def Slice.sub (s : Slice) (low high : UInt64) : Option (List UInt8) :=
  if low ≤ high ∧ high.toNat ≤ s.backing.length then
    some ((s.backing.take high.toNat).drop low.toNat)
  else none

/-- `new(big.Int).SetBytes(bs).Uint64()` -/
def uint64Of (bs : List UInt8) : UInt64 := UInt64.ofNat (ofBE bs)

/-- `decodeDataBytes`: a panic, `io.ErrUnexpectedEOF`, or some bytes. -/
def decodeDataBytes (l : Log) : Option (Option (List UInt8)) :=
  let len := UInt64.ofNat l.data.data.length
  if l.data.data.length < 32 then some none
  else do
    let start := uint64Of (← l.data.sub 24 32)
    if start + 32 > len then pure none
    else
      let size := uint64Of (← l.data.sub (start + 24) (start + 32))
      if start + 32 + size > len then pure none
      else some <$> l.data.sub (start + 32) (start + 32 + size)

/-- What the driver module uses from outside this repository. -/
structure DriverExternal where
  /-- `driverpos.Topics.UpdateValidatorWeight`, a hash of the signature -/
  updateValidatorWeight : Hash
  /-- `driverpos.Topics.UpdateValidatorPubkey` -/
  updateValidatorPubkey : Hash
  /-- `driverpos.Topics.UpdateNetworkRules` -/
  updateNetworkRules : Hash
  /-- `driverpos.Topics.AdvanceEpochs` -/
  advanceEpochs : Hash
  /-- `json.Unmarshal` into given rules; `none` is an error -/
  unmarshalRules : List UInt8 → Rules → Option Rules

/-- `driver.ContractAddress` -/
def driverAddress : Address := copyBytes 20 [0xd1, 0x00, 0xa0, 0x1e]

/-- `zilionixx.UpdateRules`; on an error the rules stay as they are. -/
def updateRules (D : DriverExternal) (src : Rules) (diff : List UInt8) : Option Rules := do
  let changed ← src.copy
  match D.unmarshalRules diff changed with
  | none => pure src
  -- protect readonly fields
  | some changed => pure { changed with networkID := src.networkID, name := src.name }

/-- `validatorpk.FromBytes`, where an error leaves an empty key. -/
def PubKey.fromBytes : List UInt8 → PubKey
  | [] => ⟨0, []⟩
  | b :: bs => ⟨b, bs⟩

/-- A validator ID in a topic. -/
def topicValidatorID (topic : Hash) : ValidatorID := (uint64Of topic.toList).toUInt32

/-- `OnNewLog`: track validator weight changes. -/
def trackWeight (D : DriverExternal) (l : Log) (topic : Hash) (bs : BlockState) : BlockState :=
  match l.topics[1]? with
  | some topic₁ =>
    if topic = D.updateValidatorWeight ∧ l.data.data.length ≥ 32 then
      let validatorID := topicValidatorID topic₁
      let weight : ℤ := ofBE (l.data.data.take 32)
      let profiles := bs.nextValidatorProfiles
      if weight = 0 then { bs with nextValidatorProfiles := profiles.erase validatorID }
      else
        let pubKey := ((profiles.lookup validatorID).map DriverValidator.pubKey).getD ⟨0, []⟩
        { bs with nextValidatorProfiles := profiles.insert validatorID ⟨weight, pubKey⟩ }
    else bs
  | none => bs

/-- `OnNewLog`: track validator pubkey changes. The second component says whether
the function returns here. -/
def trackPubkey (D : DriverExternal) (l : Log) (topic : Hash) (bs : BlockState) :
    Option (BlockState × Bool) :=
  match l.topics[1]? with
  | some topic₁ =>
    if topic = D.updateValidatorPubkey then do
      let validatorID := topicValidatorID topic₁
      match ← decodeDataBytes l, bs.nextValidatorProfiles.lookup validatorID with
      | some pubkey, some profile =>
        let profile := { profile with pubKey := PubKey.fromBytes pubkey }
        pure ({ bs with
          nextValidatorProfiles := bs.nextValidatorProfiles.insert validatorID profile }, false)
      | _, _ => pure (bs, true)
    else pure (bs, false)
  | none => pure (bs, false)

/-- `OnNewLog`: update rules. An error is logged, and the function returns. -/
def trackRules (D : DriverExternal) (l : Log) (topic : Hash) (bs : BlockState) :
    Option (BlockState × Bool) :=
  if topic = D.updateNetworkRules ∧ l.data.data.length ≥ 64 then do
    match ← decodeDataBytes l with
    | none => pure (bs, true)
    | some diff =>
      let rules ← updateRules D bs.dirtyRules diff
      pure ({ bs with dirtyRules := rules }, (D.unmarshalRules diff bs.dirtyRules).isNone)
  else pure (bs, false)

/-- `maxAdvanceEpochs` -/
def maxAdvanceEpochs : UInt32 := 65536

/-- `OnNewLog`: advance epochs. -/
def trackAdvanceEpochs (D : DriverExternal) (l : Log) (topic : Hash) (bs : BlockState) :
    BlockState :=
  if topic = D.advanceEpochs ∧ l.data.data.length ≥ 32 then
    -- `epochsNum < 2 ^ 24` to avoid overflow
    let epochsNum := uint64Of ((l.data.data.take 32).drop 29)
    let advanceEpochs := bs.advanceEpochs + epochsNum.toUInt32
    { bs with
      advanceEpochs :=
        if advanceEpochs > maxAdvanceEpochs then maxAdvanceEpochs else advanceEpochs }
  else bs

/-- `DriverTxListener.OnNewLog`; `none` is a panic. -/
def onNewLog (D : DriverExternal) (bs : BlockState) (l : Log) : Option BlockState :=
  if l.address ≠ driverAddress then some bs
  else do
    let topic ← l.topics.head?
    let bs := trackWeight D l topic bs
    match ← trackPubkey D l topic bs with
    | (bs, true) => pure bs
    | (bs, false) =>
      match ← trackRules D l topic bs with
      | (bs, true) => pure bs
      | (bs, false) => pure (trackAdvanceEpochs D l topic bs)

/-! ## What logs and receipts change -/

section Cases

variable {D : DriverExternal} {l : Log} {topic : Hash} {bs bs' : BlockState} {returned : Bool}

/-- What a log may do to a weight: nothing, remove the validator, or set a positive weight. -/
theorem trackWeight_cases (D : DriverExternal) (l : Log) (topic : Hash) (bs : BlockState) :
    trackWeight D l topic bs = bs ∨
      (∃ id, trackWeight D l topic bs =
        { bs with nextValidatorProfiles := bs.nextValidatorProfiles.erase id }) ∨
      ∃ id profile, 0 < profile.weight ∧ trackWeight D l topic bs =
        { bs with nextValidatorProfiles := bs.nextValidatorProfiles.insert id profile } := by
  unfold trackWeight
  split
  · split
    · simp only
      split
      · exact .inr (.inl ⟨_, rfl⟩)
      · rename_i hne
        have hpos : (0 : ℤ) < ofBE (l.data.data.take 32) := by omega
        exact .inr (.inr ⟨_, _, hpos, rfl⟩)
    · exact .inl rfl
  · exact .inl rfl

/-- A public key is set in a profile that exists, and otherwise nothing changes. The function
returns only on a log of that kind. -/
theorem trackPubkey_cases (h : trackPubkey D l topic bs = some (bs', returned)) :
    (returned = true → topic = D.updateValidatorPubkey) ∧
      (bs' = bs ∨ ∃ id profile pubKey, bs.nextValidatorProfiles.lookup id = some profile ∧ bs' =
        { bs with
          nextValidatorProfiles :=
            bs.nextValidatorProfiles.insert id { profile with pubKey := pubKey } }) := by
  unfold trackPubkey at h
  split at h
  · split at h
    · rename_i htopic
      obtain ⟨decoded, -, h⟩ := Option.bind_eq_some_iff.mp h
      refine ⟨fun _ => htopic, ?_⟩
      split at h
      · rename_i hprofile
        cases h
        exact .inr ⟨_, _, _, hprofile, rfl⟩
      · cases h
        exact .inl rfl
    · cases h
      exact ⟨nofun, .inl rfl⟩
  · cases h
    exact ⟨nofun, .inl rfl⟩

/-- The rules change by the diff of a log of that kind, and otherwise nothing changes. -/
theorem trackRules_cases (h : trackRules D l topic bs = some (bs', returned)) :
    (∃ diff rules, (topic = D.updateNetworkRules ∧ 64 ≤ l.data.data.length ∧
        decodeDataBytes l = some (some diff)) ∧
        updateRules D bs.dirtyRules diff = some rules ∧ bs' = { bs with dirtyRules := rules }) ∨
      (∀ diff, ¬ (topic = D.updateNetworkRules ∧ 64 ≤ l.data.data.length ∧
        decodeDataBytes l = some (some diff))) ∧ bs' = bs := by
  unfold trackRules at h
  split at h
  · rename_i hlog
    obtain ⟨decoded, hdecoded, h⟩ := Option.bind_eq_some_iff.mp h
    cases decoded with
    | none =>
      cases h
      refine .inr ⟨fun diff hdiff => ?_, rfl⟩
      cases hdecoded.symm.trans hdiff.2.2
    | some diff =>
      obtain ⟨rules, hrules, h⟩ := Option.bind_eq_some_iff.mp h
      cases h
      exact .inl ⟨diff, rules, ⟨hlog.1, hlog.2, hdecoded⟩, hrules, rfl⟩
  · rename_i hlog
    cases h
    exact .inr ⟨fun _ hdiff => hlog ⟨hdiff.1, hdiff.2.1⟩, rfl⟩

/-- The sum may wrap, but it is limited after that. -/
theorem trackAdvanceEpochs_cases (D : DriverExternal) (l : Log) (topic : Hash) (bs : BlockState) :
    trackAdvanceEpochs D l topic bs = bs ∨
      ∃ n, n ≤ maxAdvanceEpochs ∧
        trackAdvanceEpochs D l topic bs = { bs with advanceEpochs := n } := by
  unfold trackAdvanceEpochs
  split
  · refine .inr ⟨_, ?_, rfl⟩
    split
    · exact UInt32.le_refl _
    · rename_i hle
      exact UInt32.not_lt.mp hle
  · exact .inl rfl

end Cases

/-- What holds of each part of `OnNewLog` holds of the whole. -/
theorem onNewLog_rel {D : DriverExternal} {l : Log} {bs bs' : BlockState}
    {R : BlockState → BlockState → Prop} (hrefl : ∀ bs, R bs bs)
    (htrans : ∀ {bs₁ bs₂ bs₃}, R bs₁ bs₂ → R bs₂ bs₃ → R bs₁ bs₃)
    (hweight : ∀ topic bs, R bs (trackWeight D l topic bs))
    (hpubkey : ∀ topic bs bs' returned, trackPubkey D l topic bs = some (bs', returned) → R bs bs')
    (hrules : ∀ topic bs bs' returned, trackRules D l topic bs = some (bs', returned) → R bs bs')
    (hadvance : ∀ topic bs, R bs (trackAdvanceEpochs D l topic bs))
    (h : onNewLog D bs l = some bs') : R bs bs' := by
  rw [onNewLog] at h
  split at h
  · cases h
    exact hrefl bs
  · obtain ⟨topic, -, h⟩ := Option.bind_eq_some_iff.mp h
    obtain ⟨⟨bs₁, returned₁⟩, h₁, h⟩ := Option.bind_eq_some_iff.mp h
    have hR₁ := htrans (hweight topic bs) (hpubkey topic _ _ _ h₁)
    cases returned₁ with
    | true =>
      cases h
      exact hR₁
    | false =>
      obtain ⟨⟨bs₂, returned₂⟩, h₂, h⟩ := Option.bind_eq_some_iff.mp h
      have hR₂ := htrans hR₁ (hrules topic _ _ _ h₂)
      cases returned₂ with
      | true =>
        cases h
        exact hR₂
      | false =>
        cases h
        exact htrans hR₂ (hadvance topic bs₂)

/-- Nothing has changed but what takes effect with the next epoch. -/
def PendingChange (bs bs' : BlockState) : Prop :=
  ∃ profiles rules advanceEpochs, bs' =
    { bs with
      nextValidatorProfiles := profiles
      dirtyRules := rules
      advanceEpochs := advanceEpochs }

namespace PendingChange

variable {D : DriverExternal} {l : Log} {topic : Hash} {bs bs' bs'' : BlockState} {returned : Bool}

theorem refl (bs : BlockState) : PendingChange bs bs := ⟨_, _, _, rfl⟩

theorem trans (h : PendingChange bs bs') (h' : PendingChange bs' bs'') :
    PendingChange bs bs'' := by
  obtain ⟨_, _, _, rfl⟩ := h
  obtain ⟨_, _, _, rfl⟩ := h'
  exact ⟨_, _, _, rfl⟩

theorem trackWeight : PendingChange bs (trackWeight D l topic bs) := by
  obtain h | ⟨_, h⟩ | ⟨_, _, -, h⟩ := trackWeight_cases D l topic bs
  · rw [h]
    exact .refl bs
  · rw [h]
    exact ⟨_, _, _, rfl⟩
  · rw [h]
    exact ⟨_, _, _, rfl⟩

theorem trackPubkey (h : trackPubkey D l topic bs = some (bs', returned)) :
    PendingChange bs bs' := by
  obtain ⟨-, rfl | ⟨_, _, _, -, rfl⟩⟩ := trackPubkey_cases h
  · exact .refl bs'
  · exact ⟨_, _, _, rfl⟩

theorem trackRules (h : trackRules D l topic bs = some (bs', returned)) :
    PendingChange bs bs' := by
  obtain ⟨_, _, -, -, rfl⟩ | ⟨-, rfl⟩ := trackRules_cases h
  · exact ⟨_, _, _, rfl⟩
  · exact .refl bs'

theorem trackAdvanceEpochs : PendingChange bs (trackAdvanceEpochs D l topic bs) := by
  obtain h | ⟨_, -, h⟩ := trackAdvanceEpochs_cases D l topic bs
  · rw [h]
    exact .refl bs
  · rw [h]
    exact ⟨_, _, _, rfl⟩

theorem onNewLog (h : onNewLog D bs l = some bs') : PendingChange bs bs' :=
  onNewLog_rel refl trans (fun _ _ => trackWeight) (fun _ _ _ _ => trackPubkey)
    (fun _ _ _ _ => trackRules) (fun _ _ => trackAdvanceEpochs) h

/-- A whole list of logs. -/
theorem onNewLogs {logs : List Log} (h : logs.foldlM (Zilionixx.onNewLog D) bs = some bs') :
    PendingChange bs bs' := by
  induction logs generalizing bs with
  | nil =>
    cases h
    exact .refl _
  | cons l logs ih =>
    rw [List.foldlM_cons] at h
    obtain ⟨bs₁, hlog, h⟩ := Option.bind_eq_some_iff.mp h
    exact (onNewLog hlog).trans (ih h)

end PendingChange

/-- A receipt changes the states of the validators only, and there only the fees and
the refunds. -/
theorem onNewReceipt_eq_some {α : Type} {f : ValidatorBlockState → α}
    (hf : ∀ info originated refund,
      f { info with originated := originated, dirtyGasRefund := refund } = f info)
    {es : EpochState} {bs bs' : BlockState} {tx : BlockTx} {r : Receipt}
    {originator : ValidatorID} (h : onNewReceipt es bs tx r originator = some bs') :
    ∃ states, bs' = { bs with validatorStates := states } ∧
      states.map f = bs.validatorStates.map f := by
  unfold onNewReceipt at h
  split at h
  · cases h
    exact ⟨_, rfl, rfl⟩
  · obtain ⟨info, hinfo, h⟩ := Option.bind_eq_some_iff.mp h
    refine ⟨_, (Option.some.inj h).symm, ?_⟩
    -- what is written is what was there
    have hsame : (bs.validatorStates.map f)[es.validators.getIdx originator]? = some (f info) := by
      rw [List.getElem?_map, hinfo, Option.map_some]
    obtain ⟨hlt, hsame⟩ := List.getElem?_eq_some_iff.mp hsame
    rw [List.map_set, hf, ← hsame]
    exact List.set_getElem_self hlt

/-! ## Cheaters -/

/-- A validator is marked as a cheater. -/
def IsCheater (validators : Validators) (states : List ValidatorBlockState) (v : ValidatorID) :
    Prop :=
  (states.map ValidatorBlockState.cheater)[validators.getIdx v]? = some true

instance (validators : Validators) (states : List ValidatorBlockState) (v : ValidatorID) :
    Decidable (IsCheater validators states v) :=
  inferInstanceAs (Decidable (_ = _))

/-- Whether a call is `DeactivateValidator` of a validator. -/
def DriverCall.deactivates (v : ValidatorID) : DriverCall → Bool
  | deactivateValidator validatorID _ => validatorID = v
  | _ => false

/-- How often a validator is deactivated. -/
def deactivations (v : ValidatorID) (txs : List InternalTx) : ℕ :=
  txs.countP fun tx => tx.call.deactivates v

variable {validators : Validators} {cheaters : List ValidatorID}
  {states states' : List ValidatorBlockState} {calls : List DriverCall} {v : ValidatorID}

theorem call_internalTxBuilder (stateNonce nonce : UInt64) (calls : List DriverCall) :
    (internalTxBuilder stateNonce nonce calls).map InternalTx.call = calls := by
  induction calls generalizing nonce with
  | nil => rfl
  | cons call calls ih => rw [internalTxBuilder, List.map_cons, ih]

theorem deactivations_internalTxBuilder (stateNonce nonce : UInt64) (calls : List DriverCall) :
    deactivations v (internalTxBuilder stateNonce nonce calls) =
      calls.countP fun call => call.deactivates v := by
  conv_rhs => rw [← call_internalTxBuilder stateNonce nonce calls, List.countP_map]
  rfl

/-- Marking a cheater marks nobody else. -/
theorem isCheater_set {c : ValidatorID} {info : ValidatorBlockState}
    (hc : c ∈ validators.sortedIDs) (hv : v ∈ validators.sortedIDs)
    (hinfo : states[validators.getIdx c]? = some info) :
    IsCheater validators
      (states.set (validators.getIdx c) { info with cheater := true }) v ↔
      IsCheater validators states v ∨ v = c := by
  have hlt := (List.getElem?_eq_some_iff.mp hinfo).1
  by_cases heq : v = c
  · subst heq
    refine iff_of_true ?_ (.inr rfl)
    rw [IsCheater, List.getElem?_map, List.getElem?_set_self hlt]
    rfl
  · have hidx : validators.getIdx c ≠ validators.getIdx v :=
      fun h => heq (Validators.getIdx_inj hv hc h.symm)
    rw [or_iff_left heq, IsCheater, List.getElem?_map, List.getElem?_set_ne hidx, IsCheater,
      List.getElem?_map]

/-- Writing cheaters changes nothing but the marks. -/
theorem map_writeCheaters {α : Type} {f : ValidatorBlockState → α}
    (hf : ∀ info, f { info with cheater := true } = f info)
    (h : writeCheaters validators cheaters states = some (states', calls)) :
    states'.map f = states.map f := by
  fun_induction writeCheaters validators cheaters states generalizing states' calls with
  | case1 states =>
    cases h
    rfl
  | case2 => cases h
  | case3 c cheaters states info hinfo hmarked ih => exact ih h
  | case4 c cheaters states info hinfo hmarked ih =>
    obtain ⟨⟨states₁, calls₁⟩, hrest, h⟩ := Option.map_eq_some_iff.mp h
    cases h
    obtain ⟨hlt, rfl⟩ := List.getElem?_eq_some_iff.mp hinfo
    rw [ih hrest, List.map_set, hf, ← List.getElem_map f (h := by rwa [List.length_map])]
    exact List.set_getElem_self _

theorem length_writeCheaters
    (h : writeCheaters validators cheaters states = some (states', calls)) :
    states'.length = states.length := by
  have hmap := map_writeCheaters (f := fun _ => ()) (fun _ => rfl) h
  simpa using congrArg List.length hmap

/-- Only cheaters are deactivated. -/
theorem mem_writeCheaters (h : writeCheaters validators cheaters states = some (states', calls)) :
    ∀ call ∈ calls, ∃ c ∈ cheaters, call = .deactivateValidator c doublesignBit := by
  fun_induction writeCheaters validators cheaters states generalizing states' calls with
  | case1 states =>
    cases h
    exact List.forall_mem_nil _
  | case2 => cases h
  | case3 c cheaters states info hinfo hmarked ih =>
    intro call hcall
    obtain ⟨c', hc', heq⟩ := ih h call hcall
    exact ⟨c', List.mem_cons_of_mem _ hc', heq⟩
  | case4 c cheaters states info hinfo hmarked ih =>
    obtain ⟨⟨states₁, calls₁⟩, hrest, h⟩ := Option.map_eq_some_iff.mp h
    cases h
    refine List.forall_mem_cons.mpr ⟨⟨c, List.mem_cons_self, rfl⟩, fun call hcall => ?_⟩
    obtain ⟨c', hc', heq⟩ := ih hrest call hcall
    exact ⟨c', List.mem_cons_of_mem _ hc', heq⟩

/-- **Each cheater is deactivated once.** All cheaters are marked, and those that
were not marked before are deactivated, however often they are listed. -/
theorem writeCheaters_spec (hcheaters : ∀ c ∈ cheaters, c ∈ validators.sortedIDs)
    (hv : v ∈ validators.sortedIDs)
    (h : writeCheaters validators cheaters states = some (states', calls)) :
    (IsCheater validators states' v ↔ IsCheater validators states v ∨ v ∈ cheaters) ∧
      calls.countP (fun call => call.deactivates v) =
        if v ∈ cheaters ∧ ¬ IsCheater validators states v then 1 else 0 := by
  fun_induction writeCheaters validators cheaters states generalizing states' calls with
  | case1 states =>
    cases h
    simp
  | case2 => cases h
  | case3 c cheaters states info hinfo hmarked ih =>
    obtain ⟨hc, hcheaters⟩ := List.forall_mem_cons.mp hcheaters
    obtain ⟨hflag, hcount⟩ := ih hcheaters h
    have hmarked : IsCheater validators states c := by
      rw [IsCheater, List.getElem?_map, hinfo, Option.map_some, hmarked]
    rw [hflag, hcount]
    by_cases heq : v = c
    · subst heq
      simp [hmarked]
    · simp [heq]
  | case4 c cheaters states info hinfo hmarked ih =>
    obtain ⟨hc, hcheaters⟩ := List.forall_mem_cons.mp hcheaters
    obtain ⟨⟨states₁, calls₁⟩, hrest, h⟩ := Option.map_eq_some_iff.mp h
    cases h
    obtain ⟨hflag, hcount⟩ := ih hcheaters hrest
    have hunmarked : ¬ IsCheater validators states c := by
      rw [IsCheater, List.getElem?_map, hinfo, Option.map_some, Option.some.injEq]
      exact hmarked
    simp only [isCheater_set hc hv hinfo] at hflag hcount
    rw [hflag, List.countP_cons, hcount]
    by_cases heq : v = c
    · subst heq
      simp [hunmarked, DriverCall.deactivates]
    · simp [heq, Ne.symm heq, DriverCall.deactivates]

end Zilionixx
