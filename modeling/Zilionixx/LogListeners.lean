import Zilionixx.BlockCallbacks

/-!
# The listeners of logs

Each log of a block goes to three listeners (`onNewLogAll`): the driver module, the watcher of
the network version (`verwatcher`) and the history of stakers and delegations (`sfcapi`). They
slice the data of the log at fixed places, after a check of its length, and one of them at
places which the log says. A slice beyond the capacity and a topic beyond the last one are
panics, which stop the node.

The checks do not always imply the bounds. It is stated here for which logs they do.
-/

namespace Zilionixx

open ByteNumber

/-! ## Slices -/

namespace Slice

variable {s : Slice} {low high : UInt64}

/-- Slicing is checked against the capacity. -/
theorem isSome_sub :
    (s.sub low high).isSome = true ↔ low ≤ high ∧ high.toNat ≤ s.backing.length := by
  rw [sub]
  split
  · rename_i h
    exact ⟨fun _ => h, fun _ => rfl⟩
  · rename_i h
    exact ⟨nofun, fun h' => absurd h' h⟩

theorem length_le_backing (s : Slice) : s.data.length ≤ s.backing.length := by
  rw [backing, List.length_append]
  exact Nat.le_add_right _ _

/-- Within the length, a slice is one of the elements. -/
theorem sub_of_le (hlow : low ≤ high) (hhigh : high.toNat ≤ s.data.length) :
    s.sub low high = some ((s.data.take high.toNat).drop low.toNat) := by
  rw [sub, if_pos ⟨hlow, hhigh.trans s.length_le_backing⟩, backing,
    List.take_append_of_le_length hhigh]

theorem sub_of_lt (h : high < low) : s.sub low high = none :=
  if_neg fun h' => absurd h'.1 (UInt64.not_le.mpr h)

end Slice

/-! ## `sfcapi` -/

namespace Sfcapi

/-- `SfcStaker`, as far as it is stored -/
structure SfcStaker where
  createdEpoch : UInt32
  createdTime : Timestamp
  deactivatedEpoch : UInt32
  deactivatedTime : Timestamp
  address : Address
  status : UInt64
  deriving DecidableEq

/-- `DelegationID` -/
structure DelegationID where
  delegator : Address
  stakerID : ValidatorID
  deriving DecidableEq

/-- `Store`, as far as logs change it. What is stored are no negative numbers. -/
structure Store where
  stakers : ValidatorID → Option SfcStaker
  /-- the amount of a delegation -/
  delegations : DelegationID → Option ℕ
  delegationOldRewards : DelegationID → ℕ
  stakerDelegationsOldRewards : ValidatorID → ℕ

/-- `Topics`, hashes of the signatures -/
structure Topics where
  claimedRewards : Hash
  restakedRewards : Hash
  createdValidator : Hash
  deactivatedValidator : Hash
  changedValidatorStatus : Hash
  delegated : Hash
  undelegated : Hash

/-- `sfc.ContractAddress` -/
def sfcAddress : Address := copyBytes 20 [0xfc, 0x00, 0xfa, 0xce]

/-- `common.BytesToAddress(topic[12:])` -/
def topicAddress (topic : Hash) : Address :=
  ⟨topic.toList.drop 12, by rw [List.length_drop, topic.toList_length]⟩

/-- `inter.FromUnix(int64(word.Uint64()))` -/
def unixTime (word : List UInt8) : Timestamp := uint64Of word * second

namespace Store

/-- `SetSfcStaker` -/
def setSfcStaker (s : Store) (stakerID : ValidatorID) (staker : SfcStaker) : Store :=
  { s with stakers := Function.update s.stakers stakerID (some staker) }

/-- `SetSfcDelegation`, `DelSfcDelegation` -/
def setSfcDelegation (s : Store) (id : DelegationID) (amount : Option ℕ) : Store :=
  { s with delegations := Function.update s.delegations id amount }

/-- `IncDelegationClaimedRewards`, `IncStakerDelegationsClaimedRewards` -/
def incClaimedRewards (s : Store) (id : DelegationID) (diff : ℕ) : Store :=
  { s with
    delegationOldRewards :=
      Function.update s.delegationOldRewards id (s.delegationOldRewards id + diff)
    stakerDelegationsOldRewards := Function.update s.stakerDelegationsOldRewards id.stakerID
      (s.stakerDelegationsOldRewards id.stakerID + diff) }

end Store

section Handlers

variable (T : Topics) (l : Log) (topic : Hash) (s : Store)

/-- `OnNewLog`: add new stakers. Here and below, `none` is a panic. -/
def addStaker : Option Store :=
  if topic = T.createdValidator ∧ l.topics.length > 2 ∧ l.data.data.length ≥ 32 then do
    let stakerID := topicValidatorID (← l.topics[1]?)
    let address := topicAddress (← l.topics[2]?)
    let createdEpoch := uint64Of (← l.data.sub 0 32)
    let createdTime := unixTime (← l.data.sub 32 64)
    let staker :=
      { createdEpoch := createdEpoch.toUInt32
        createdTime := createdTime
        deactivatedEpoch := 0
        deactivatedTime := 0
        address := address
        status := 0 }
    pure (s.setSfcStaker stakerID staker)
  else pure s

/-- `OnNewLog`: add/increase delegations. -/
def addDelegation : Option Store :=
  if topic = T.delegated ∧ l.topics.length > 2 ∧ l.data.data.length ≥ 32 then do
    let address := topicAddress (← l.topics[1]?)
    let toStakerID := topicValidatorID (← l.topics[2]?)
    let amount := ofBE (← l.data.sub 0 32)
    let id := ⟨address, toStakerID⟩
    pure (s.setSfcDelegation id (some (amount + (s.delegations id).getD 0)))
  else pure s

/-- `OnNewLog`: deactivate stakes. The second component says whether the function returns. -/
def deactivateStaker : Option (Store × Bool) :=
  if topic = T.deactivatedValidator ∧ l.topics.length > 1 then do
    let stakerID := topicValidatorID (← l.topics[1]?)
    let deactivatedEpoch := uint64Of (← l.data.sub 0 32)
    let deactivatedTime := unixTime (← l.data.sub 32 64)
    match s.stakers stakerID with
    | none => pure (s, true)
    | some staker =>
      let staker :=
        { staker with
          deactivatedEpoch := deactivatedEpoch.toUInt32
          deactivatedTime := deactivatedTime }
      pure (s.setSfcStaker stakerID staker, false)
  else pure (s, false)

/-- `OnNewLog`: change status. -/
def changeStatus : Option (Store × Bool) :=
  if topic = T.changedValidatorStatus ∧ l.topics.length > 1 then do
    let stakerID := topicValidatorID (← l.topics[1]?)
    let status := uint64Of (← l.data.sub 0 32)
    match s.stakers stakerID with
    | none => pure (s, true)
    | some staker => pure (s.setSfcStaker stakerID { staker with status := status }, false)
  else pure (s, false)

/-- `OnNewLog`: decrease delegations. -/
def subDelegation : Option (Store × Bool) :=
  if topic = T.undelegated ∧ l.topics.length > 2 ∧ l.data.data.length ≥ 32 then do
    let address := topicAddress (← l.topics[1]?)
    let toStakerID := topicValidatorID (← l.topics[2]?)
    let amount := ofBE (← l.data.sub 0 32)
    let id := ⟨address, toStakerID⟩
    match s.delegations id with
    | none => pure (s, true)
    | some delegation =>
      -- nothing is left of it if the difference is not positive
      pure (s.setSfcDelegation id
        (if delegation > amount then some (delegation - amount) else none), false)
  else pure (s, false)

/-- `OnNewLog`: track rewards. -/
def trackRewards : Option Store :=
  if (topic = T.claimedRewards ∨ topic = T.restakedRewards) ∧
      l.topics.length > 2 ∧ l.data.data.length ≥ 96 then do
    let address := topicAddress (← l.topics[1]?)
    let stakerID := topicValidatorID (← l.topics[2]?)
    let reward0 := ofBE (← l.data.sub 0 32)
    let reward1 := ofBE (← l.data.sub 32 64)
    let reward2 := ofBE (← l.data.sub 64 96)
    pure (s.incClaimedRewards ⟨address, stakerID⟩ (reward0 + reward1 + reward2))
  else pure s

end Handlers

/-- A handler after which the function goes on. -/
def goOn (handler : Store → Option Store) (s : Store) : Option (Store × Bool) :=
  (handler s).map fun s => (s, false)

/-- One handler after the other, until one returns. -/
def handle : List (Store → Option (Store × Bool)) → Store → Option Store
  | [], s => some s
  | handler :: handlers, s =>
    match handler s with
    | none => none
    | some (s, true) => some s
    | some (s, false) => handle handlers s

/-- `sfcapi.OnNewLog` -/
def onNewLog (T : Topics) (s : Store) (l : Log) : Option Store :=
  if l.address ≠ sfcAddress then some s
  else do
    let topic ← l.topics[0]?
    handle [goOn (addStaker T l topic), goOn (addDelegation T l topic), deactivateStaker T l topic,
      changeStatus T l topic, subDelegation T l topic, goOn (trackRewards T l topic)] s

end Sfcapi

/-! ## `verwatcher` -/

namespace Verwatcher

/-- `verwatcher.Store` -/
structure Store where
  networkVersion : UInt64
  missedVersion : UInt64
  deriving DecidableEq

/-- `version.AsU64`, of version 1.0.2 -/
def version : UInt64 := 1 * 1000000000000 + 0 * 1000000 + 2

/-- A newer version was activated: the node is stopped (`none`), or it keeps the first version
that it has missed. -/
def missVersion (shutDownIfNotUpgraded : Bool) (s : Store) (netVersion : UInt64) : Option Store :=
  if netVersion > version then
    if shutDownIfNotUpgraded then none
    else if s.missedVersion = 0 then some { s with missedVersion := netVersion }
    else some s
  else some s

/-- `VerWarcher.OnNewLog`; what is printed is left out. -/
def onNewLog (updateNetworkVersion : Hash) (shutDownIfNotUpgraded : Bool) (s : Store) (l : Log) :
    Option Store :=
  if l.address ≠ driverAddress then some s
  else do
    let topic ← l.topics[0]?
    if topic = updateNetworkVersion ∧ l.data.data.length ≥ 32 then
      let netVersion := uint64Of (← l.data.sub 24 32)
      missVersion shutDownIfNotUpgraded { s with networkVersion := netVersion } netVersion
    else pure s

end Verwatcher

/-! ## `decodeDataBytes` -/

namespace Log

/-- The length of the data. -/
def len (l : Log) : ℕ := l.data.data.length

/-- The number in eight bytes of the data. -/
def wordAt (l : Log) (i : ℕ) : ℕ := ofBE ((l.data.data.take (i + 8)).drop i)

/-- Where the word before the bytes starts. -/
def start (l : Log) : ℕ := l.wordAt 24

/-- The number of bytes, which is read at a sum that wraps. -/
def size (l : Log) : ℕ := l.wordAt ((l.start + 24) % 2 ^ 64)

variable (l : Log)

theorem len_lt : l.len < 2 ^ 63 := by
  have := l.data.bounded
  rw [len]
  omega

theorem wordAt_lt (i : ℕ) : l.wordAt i < 2 ^ 64 := by
  refine (ofBE_lt _).trans_le ?_
  have hlen : ((l.data.data.take (i + 8)).drop i).length ≤ 8 := by
    rw [List.length_drop, List.length_take]
    omega
  exact Nat.pow_le_pow_right (by decide) hlen

end Log

/-- A word that is sliced out of the data. -/
theorem uint64Of_sub (l : Log) (low high : UInt64) (h : high.toNat = low.toNat + 8)
    (hlen : high.toNat ≤ l.len) :
    ∃ bs, l.data.sub low high = some bs ∧ (uint64Of bs).toNat = l.wordAt low.toNat := by
  have hlow : low ≤ high := UInt64.le_iff_toNat_le.mpr (by omega)
  refine ⟨_, Slice.sub_of_le hlow hlen, ?_⟩
  rw [h, uint64Of]
  exact UInt64.toNat_ofNat_of_lt' (l.wordAt_lt _)

/-- `decodeDataBytes` with sums that wrap. -/
theorem decodeDataBytes_eq (l : Log) :
    decodeDataBytes l =
      if l.len < 32 then some none
      else if (l.start + 32) % 2 ^ 64 > l.len then some none
      else if (l.start + 32) % 2 ^ 64 < (l.start + 24) % 2 ^ 64 then none
      else if (l.start + 32 + l.size) % 2 ^ 64 > l.len then some none
      else if (l.start + 32 + l.size) % 2 ^ 64 < (l.start + 32) % 2 ^ 64 then none
      else some (some
        ((l.data.data.take ((l.start + 32 + l.size) % 2 ^ 64)).drop
          ((l.start + 32) % 2 ^ 64))) := by
  have hlen : (UInt64.ofNat l.data.data.length).toNat = l.len :=
    UInt64.toNat_ofNat_of_lt' (l.len_lt.trans (by decide))
  rw [decodeDataBytes]
  by_cases hshort : l.len < 32
  · rw [if_pos hshort]
    exact if_pos hshort
  rw [if_neg hshort, if_neg (show ¬ l.data.data.length < 32 from hshort)]
  obtain ⟨bs, hbs, hstart⟩ := uint64Of_sub l 24 32 rfl (Nat.le_of_not_lt hshort)
  rw [hbs, Option.bind_eq_bind, Option.bind_some]
  generalize uint64Of bs = st at hstart
  have hst : st.toNat = l.start := hstart
  have h32 : (st + 32).toNat = (l.start + 32) % 2 ^ 64 := by
    rw [UInt64.toNat_add, hst]
    rfl
  have h24 : (st + 24).toNat = (l.start + 24) % 2 ^ 64 := by
    rw [UInt64.toNat_add, hst]
    rfl
  have hbeyond : ∀ x : UInt64, x > UInt64.ofNat l.data.data.length ↔ x.toNat > l.len := by
    intro x
    rw [gt_iff_lt, UInt64.lt_iff_toNat_lt, hlen]
  by_cases hstart : (l.start + 32) % 2 ^ 64 > l.len
  · rw [if_pos hstart, if_pos ((hbeyond _).mpr (h32 ▸ hstart))]
    rfl
  rw [if_neg hstart, if_neg (mt (hbeyond _).mp (h32 ▸ hstart))]
  by_cases hword : (l.start + 32) % 2 ^ 64 < (l.start + 24) % 2 ^ 64
  · rw [if_pos hword, Slice.sub_of_lt (UInt64.lt_iff_toNat_lt.mpr (by rwa [h32, h24]))]
    rfl
  rw [if_neg hword]
  obtain ⟨bs', hbs', hsize⟩ := uint64Of_sub l (st + 24) (st + 32) (by rw [h32, h24]; omega)
    (by rw [h32]; exact Nat.le_of_not_lt hstart)
  rw [hbs', Option.bind_some]
  generalize uint64Of bs' = sz at hsize
  rw [h24] at hsize
  have hsum : (st + 32 + sz).toNat = (l.start + 32 + l.size) % 2 ^ 64 := by
    rw [UInt64.toNat_add, h32, hsize, Nat.mod_add_mod]
    rfl
  by_cases hend : (l.start + 32 + l.size) % 2 ^ 64 > l.len
  · rw [if_pos hend, if_pos ((hbeyond _).mpr (hsum ▸ hend))]
    rfl
  rw [if_neg hend, if_neg (mt (hbeyond _).mp (hsum ▸ hend))]
  by_cases hbytes : (l.start + 32 + l.size) % 2 ^ 64 < (l.start + 32) % 2 ^ 64
  · rw [if_pos hbytes, Slice.sub_of_lt (UInt64.lt_iff_toNat_lt.mpr (by rwa [hsum, h32]))]
    rfl
  rw [if_neg hbytes, Slice.sub_of_le, hsum, h32]
  · rfl
  · rw [UInt64.le_iff_toNat_le, hsum, h32]
    exact Nat.le_of_not_lt hbytes
  · rw [hsum]
    exact Nat.le_of_not_lt hend

/-- `decodeDataBytes` returns an error, or exactly the bytes that the log says, which are in
the data. -/
def DecodesExactly (l : Log) : Prop :=
  ∃ decoded, decodeDataBytes l = some decoded ∧ ∀ bytes, decoded = some bytes →
    l.start + 32 + l.size ≤ l.len ∧
      bytes = (l.data.data.take (l.start + 32 + l.size)).drop (l.start + 32)

/-- No sum passes the check of the length only because it has wrapped, and the word with the
size is not torn apart by the end of the numbers. -/
def Log.NoWrap (l : Log) : Prop :=
  32 ≤ l.len → (l.start + 32) % 2 ^ 64 ≤ l.len →
    (l.start + 32 < 2 ^ 64 ∨ 2 ^ 64 ≤ l.start + 24) ∧
      ((l.start + 32 + l.size) % 2 ^ 64 ≤ l.len → l.start + 32 + l.size < 2 ^ 64)

theorem decodesExactly_iff (l : Log) : DecodesExactly l ↔ l.NoWrap := by
  have hstart : l.start < 2 ^ 64 := l.wordAt_lt _
  rw [DecodesExactly, decodeDataBytes_eq, Log.NoWrap]
  by_cases hshort : l.len < 32
  · rw [if_pos hshort]
    exact ⟨fun _ h => absurd hshort (Nat.not_lt.mpr h), fun _ => ⟨none, rfl, nofun⟩⟩
  rw [if_neg hshort]
  by_cases hbeyond : (l.start + 32) % 2 ^ 64 > l.len
  · rw [if_pos hbeyond]
    exact ⟨fun _ _ h => absurd hbeyond (Nat.not_lt.mpr h), fun _ => ⟨none, rfl, nofun⟩⟩
  rw [if_neg hbeyond]
  by_cases hword : (l.start + 32) % 2 ^ 64 < (l.start + 24) % 2 ^ 64
  · -- the word with the size starts before the end of the numbers, and ends after it
    rw [if_pos hword]
    constructor
    · rintro ⟨_, h, -⟩
      cases h
    · intro h
      have := (h (Nat.le_of_not_lt hshort) (Nat.le_of_not_lt hbeyond)).1
      omega
  rw [if_neg hword]
  by_cases hend : (l.start + 32 + l.size) % 2 ^ 64 > l.len
  · rw [if_pos hend]
    refine ⟨fun _ _ _ => ⟨by omega, fun h => absurd hend (Nat.not_lt.mpr h)⟩,
      fun _ => ⟨none, rfl, nofun⟩⟩
  rw [if_neg hend]
  by_cases hbytes : (l.start + 32 + l.size) % 2 ^ 64 < (l.start + 32) % 2 ^ 64
  · -- the bytes would end before they start
    rw [if_pos hbytes]
    constructor
    · rintro ⟨_, h, -⟩
      cases h
    · intro h
      have := (h (Nat.le_of_not_lt hshort) (Nat.le_of_not_lt hbeyond)).2 (Nat.le_of_not_lt hend)
      omega
  rw [if_neg hbytes]
  constructor
  · rintro ⟨_, h, hexact⟩ _ _
    obtain ⟨hle, -⟩ := hexact _ (Option.some.inj h).symm
    have := l.len_lt
    omega
  · intro h
    have hsum := (h (Nat.le_of_not_lt hshort) (Nat.le_of_not_lt hbeyond)).2 (Nat.le_of_not_lt hend)
    rw [Nat.mod_eq_of_lt hsum,
      Nat.mod_eq_of_lt (Nat.lt_of_le_of_lt (Nat.le_add_right _ _) hsum)] at *
    refine ⟨_, rfl, fun bytes hbytes => ?_⟩
    exact ⟨Nat.le_of_not_lt hend, (Option.some.inj hbytes).symm⟩

/-- Bytes are decoded if and only if they are in the data. -/
theorem decodeDataBytes_eq_some {l : Log} (h : l.NoWrap) :
    ∃ decoded, decodeDataBytes l = some decoded ∧
      (decoded.isSome = true ↔ l.start + 32 + l.size ≤ l.len) := by
  obtain ⟨decoded, hdecoded, hexact⟩ := (decodesExactly_iff l).mpr h
  refine ⟨decoded, hdecoded, fun hsome => ?_, fun hle => ?_⟩
  · obtain ⟨bytes, hbytes⟩ := Option.isSome_iff_exists.mp hsome
    exact (hexact bytes hbytes).1
  · have hlen := l.len_lt
    rw [decodeDataBytes_eq, if_neg (by omega), if_neg (by omega), if_neg (by omega),
      if_neg (by omega),
      if_neg (by omega)] at hdecoded
    cases hdecoded
    rfl

/-! ## The slices of the driver module -/

section Driver

variable (D : DriverExternal) (l : Log) (topic : Hash) (bs : BlockState)

/-- `OnNewLog`: track validator weight changes, with the slices that are taken. -/
def trackWeightSliced : Option BlockState :=
  if topic = D.updateValidatorWeight ∧ l.topics.length > 1 ∧ l.data.data.length ≥ 32 then do
    let validatorID := topicValidatorID (← l.topics[1]?)
    let weight : ℤ := ofBE (← l.data.sub 0 32)
    let profiles := bs.nextValidatorProfiles
    if weight = 0 then pure { bs with nextValidatorProfiles := profiles.erase validatorID }
    else
      let pubKey := ((profiles.lookup validatorID).map DriverValidator.pubKey).getD ⟨0, []⟩
      pure { bs with nextValidatorProfiles := profiles.insert validatorID ⟨weight, pubKey⟩ }
  else pure bs

/-- `OnNewLog`: advance epochs, with the slice that is taken. -/
def trackAdvanceEpochsSliced : Option BlockState :=
  if topic = D.advanceEpochs ∧ l.data.data.length ≥ 32 then do
    let epochsNum := uint64Of (← l.data.sub 29 32)
    let advanceEpochs := bs.advanceEpochs + epochsNum.toUInt32
    pure
      { bs with
        advanceEpochs :=
          if advanceEpochs > maxAdvanceEpochs then maxAdvanceEpochs else advanceEpochs }
  else pure bs

/-- `DriverTxListener.OnNewLog`, with all slices that are taken. -/
def onNewLogSliced : Option BlockState :=
  if l.address ≠ driverAddress then some bs
  else do
    let topic ← l.topics[0]?
    let bs ← trackWeightSliced D l topic bs
    match ← trackPubkey D l topic bs with
    | (bs, true) => pure bs
    | (bs, false) =>
      match ← trackRules D l topic bs with
      | (bs, true) => pure bs
      | (bs, false) => trackAdvanceEpochsSliced D l topic bs

theorem trackWeightSliced_eq :
    trackWeightSliced D l topic bs = some (trackWeight D l topic bs) := by
  rw [trackWeightSliced, trackWeight]
  by_cases h : 1 < l.topics.length
  · rw [List.getElem?_eq_getElem h]
    by_cases hlog : topic = D.updateValidatorWeight ∧ l.data.data.length ≥ 32
    · have hsub : l.data.sub 0 32 = some ((l.data.data.take 32).drop 0) :=
        Slice.sub_of_le (by decide) hlog.2
      rw [if_pos ⟨hlog.1, h, hlog.2⟩, hsub]
      simp only [if_pos hlog, Option.bind_eq_bind, Option.bind_some, List.drop_zero]
      split <;> rfl
    · rw [if_neg fun h' => hlog ⟨h'.1, h'.2.2⟩]
      simp only [if_neg hlog]
      rfl
  · rw [if_neg fun h' => h h'.2.1, List.getElem?_eq_none (Nat.le_of_not_lt h)]
    rfl

theorem trackAdvanceEpochsSliced_eq :
    trackAdvanceEpochsSliced D l topic bs = some (trackAdvanceEpochs D l topic bs) := by
  rw [trackAdvanceEpochsSliced, trackAdvanceEpochs]
  split
  · rename_i h
    have hsub : l.data.sub 29 32 = some ((l.data.data.take 32).drop 29) :=
      Slice.sub_of_le (by decide) h.2
    rw [hsub]
    rfl
  · rfl

/-- The checks of the driver module imply the bounds of its own slices. -/
theorem onNewLogSliced_eq : onNewLogSliced D l bs = onNewLog D bs l := by
  rw [onNewLogSliced, onNewLog, List.head?_eq_getElem?]
  simp only [trackWeightSliced_eq, trackAdvanceEpochsSliced_eq]
  rfl

variable {l} {decoded : Option (List UInt8)}

theorem dirtyRules_trackWeight : (trackWeight D l topic bs).dirtyRules = bs.dirtyRules := by
  obtain h | ⟨_, h⟩ | ⟨_, _, -, h⟩ := trackWeight_cases D l topic bs
  · rw [h]
  · rw [h]
  · rw [h]

theorem isSome_trackPubkey (hdecoded : decodeDataBytes l = some decoded) :
    (trackPubkey D l topic bs).isSome = true := by
  rw [trackPubkey, hdecoded]
  split
  · split
    · rw [Option.bind_eq_bind, Option.bind_some]
      split <;> rfl
    · rfl
  · rfl

variable {D topic bs} in
/-- The public key of a validator changes, and not the rules. The function returns only on a
log of that kind. -/
theorem dirtyRules_trackPubkey {bs' : BlockState} {returned : Bool}
    (h : trackPubkey D l topic bs = some (bs', returned)) :
    bs'.dirtyRules = bs.dirtyRules ∧ (returned = true → topic = D.updateValidatorPubkey) := by
  obtain ⟨hreturned, rfl | ⟨_, _, _, -, rfl⟩⟩ := trackPubkey_cases h
  · exact ⟨rfl, hreturned⟩
  · exact ⟨rfl, hreturned⟩

/-- Rules are copied if there is a diff, which takes a gas price. -/
theorem isSome_trackRules (hdecoded : decodeDataBytes l = some decoded) :
    (trackRules D l topic bs).isSome = true ↔
      (topic = D.updateNetworkRules → 64 ≤ l.len → decoded.isSome = true →
        bs.dirtyRules.economy.minGasPrice.isSome = true) := by
  rw [trackRules, hdecoded]
  by_cases hlog : topic = D.updateNetworkRules ∧ l.data.data.length ≥ 64
  · rw [if_pos hlog, Option.bind_eq_bind, Option.bind_some]
    have hlen : 64 ≤ l.len := hlog.2
    cases decoded with
    | none => simp
    | some diff =>
      cases hprice : bs.dirtyRules.economy.minGasPrice with
      | none => simp [hlog.1, hlen, updateRules, Rules.copy, hprice]
      | some price =>
        simp only [updateRules, Rules.copy, hprice, Option.map_some, Option.bind_eq_bind,
          Option.bind_some]
        split <;> simp
  · rw [if_neg hlog]
    exact ⟨fun _ htopic hlen => absurd ⟨htopic, hlen⟩ hlog, fun _ => rfl⟩

/-- The driver module does not panic on a log that does not wrap, if the log has a topic and,
for a log with new rules, the rules have a gas price. -/
theorem isSome_onNewLog (hD : D.updateValidatorPubkey ≠ D.updateNetworkRules) (h : l.NoWrap) :
    (onNewLog D bs l).isSome = true ↔
      (l.address = driverAddress → l.topics ≠ [] ∧
        (l.topics[0]? = some D.updateNetworkRules → 64 ≤ l.len → l.start + 32 + l.size ≤ l.len →
          bs.dirtyRules.economy.minGasPrice.isSome = true)) := by
  rw [onNewLog]
  by_cases haddress : l.address = driverAddress
  swap
  · rw [if_pos haddress]
    exact ⟨fun _ h' => absurd h' haddress, fun _ => rfl⟩
  rw [if_neg (not_not.mpr haddress)]
  simp only [haddress, true_imp_iff]
  cases htopics : l.topics with
  | nil => simp
  | cons topic topics =>
    obtain ⟨decoded, hdecoded, hsome⟩ := decodeDataBytes_eq_some h
    obtain ⟨⟨bs', returned⟩, hpubkey⟩ := Option.isSome_iff_exists.mp
      (isSome_trackPubkey D topic (trackWeight D l topic bs) hdecoded)
    obtain ⟨hrules, hreturned⟩ := dirtyRules_trackPubkey hpubkey
    rw [dirtyRules_trackWeight] at hrules
    have hiff := isSome_trackRules D topic bs' hdecoded
    rw [hrules, hsome] at hiff
    simp only [List.head?_cons, Option.bind_eq_bind, Option.bind_some, hpubkey,
      List.getElem?_cons_zero,
      Option.some.injEq, ne_eq, reduceCtorEq, not_false_eq_true, true_and]
    rw [← hiff]
    cases returned with
    | true =>
      -- it is no log with new rules
      have hne : topic ≠ D.updateNetworkRules :=
        fun htopic => hD ((hreturned rfl).symm.trans htopic)
      exact ⟨fun _ => hiff.mpr fun htopic => absurd htopic hne, fun _ => rfl⟩
    | false =>
      cases hpair : trackRules D l topic bs' with
      | none => simp [hpair]
      | some pair =>
        obtain ⟨bs'', returned⟩ := pair
        cases returned <;> simp [hpair]

end Driver

/-! ## The slices of `sfcapi` -/

section Panics

variable {α β : Type} {x : Option α} {f : α → Option β} {P : Prop}

/-- There is no panic in a step, and none in what follows. -/
theorem isSome_bind_iff (hf : ∀ a, (f a).isSome = true ↔ P) :
    (x >>= f).isSome = true ↔ x.isSome = true ∧ P := by
  cases x with
  | none => simp
  | some a => simpa using hf a

theorem isSome_ite_iff {c : Prop} [Decidable c] {a : α} :
    (if c then x else pure a).isSome = true ↔ (c → x.isSome = true) := by
  by_cases h : c <;> simp [h]

end Panics

namespace Sfcapi

variable {T : Topics} {l : Log} {topic : Hash} {s : Store}

theorem isSome_topic {i : ℕ} : (l.topics[i]?).isSome = true ↔ i < l.topics.length := by
  simp

theorem isSome_sub_32 : (l.data.sub 0 32).isSome = true ↔ 32 ≤ l.data.backing.length :=
  Slice.isSome_sub.trans (and_iff_right (by decide))

theorem isSome_sub_64 : (l.data.sub 32 64).isSome = true ↔ 64 ≤ l.data.backing.length :=
  Slice.isSome_sub.trans (and_iff_right (by decide))

theorem isSome_sub_96 : (l.data.sub 64 96).isSome = true ↔ 96 ≤ l.data.backing.length :=
  Slice.isSome_sub.trans (and_iff_right (by decide))

theorem len_le_backing : l.len ≤ l.data.backing.length := l.data.length_le_backing

/-- When each handler returns. -/
theorem isSome_addStaker :
    (addStaker T l topic s).isSome = true ↔
      (topic = T.createdValidator → 2 < l.topics.length → 32 ≤ l.len →
        64 ≤ l.data.backing.length) := by
  rw [addStaker, isSome_ite_iff, isSome_bind_iff fun _ => isSome_bind_iff fun _ =>
    isSome_bind_iff fun _ => isSome_bind_iff fun _ => iff_of_true rfl trivial]
  rw [isSome_topic, isSome_topic, isSome_sub_32, isSome_sub_64]
  constructor
  · intro h htopic htopics hlen
    exact (h ⟨htopic, htopics, hlen⟩).2.2.2.1
  · rintro h ⟨htopic, htopics, hlen⟩
    have := h htopic htopics hlen
    exact ⟨Nat.lt_of_succ_lt htopics, htopics, by omega, this, trivial⟩

theorem isSome_addDelegation : (addDelegation T l topic s).isSome = true := by
  rw [addDelegation, isSome_ite_iff, isSome_bind_iff fun _ => isSome_bind_iff fun _ =>
    isSome_bind_iff fun _ => iff_of_true rfl trivial]
  rw [isSome_topic, isSome_topic, isSome_sub_32]
  rintro ⟨-, htopics, hlen⟩
  exact ⟨Nat.lt_of_succ_lt htopics, htopics, Nat.le_trans hlen len_le_backing, trivial⟩

theorem isSome_deactivateStaker :
    (deactivateStaker T l topic s).isSome = true ↔
      (topic = T.deactivatedValidator → 1 < l.topics.length → 64 ≤ l.data.backing.length) := by
  rw [deactivateStaker, isSome_ite_iff, isSome_bind_iff fun _ => isSome_bind_iff fun _ =>
    isSome_bind_iff fun _ => iff_of_true (by split <;> rfl) trivial]
  rw [isSome_topic, isSome_sub_32, isSome_sub_64]
  constructor
  · intro h htopic htopics
    exact (h ⟨htopic, htopics⟩).2.2.1
  · rintro h ⟨htopic, htopics⟩
    have := h htopic htopics
    exact ⟨htopics, by omega, this, trivial⟩

theorem isSome_changeStatus :
    (changeStatus T l topic s).isSome = true ↔
      (topic = T.changedValidatorStatus → 1 < l.topics.length → 32 ≤ l.data.backing.length) := by
  rw [changeStatus, isSome_ite_iff, isSome_bind_iff fun _ => isSome_bind_iff fun _ =>
    iff_of_true (by split <;> rfl) trivial]
  rw [isSome_topic, isSome_sub_32]
  constructor
  · intro h htopic htopics
    exact (h ⟨htopic, htopics⟩).2.1
  · rintro h ⟨htopic, htopics⟩
    exact ⟨htopics, h htopic htopics, trivial⟩

theorem isSome_subDelegation : (subDelegation T l topic s).isSome = true := by
  rw [subDelegation, isSome_ite_iff, isSome_bind_iff fun _ => isSome_bind_iff fun _ =>
    isSome_bind_iff fun _ => iff_of_true (by dsimp only; split <;> rfl) trivial]
  rw [isSome_topic, isSome_topic, isSome_sub_32]
  rintro ⟨-, htopics, hlen⟩
  exact ⟨Nat.lt_of_succ_lt htopics, htopics, Nat.le_trans hlen len_le_backing, trivial⟩

theorem isSome_trackRewards : (trackRewards T l topic s).isSome = true := by
  rw [trackRewards, isSome_ite_iff, isSome_bind_iff fun _ => isSome_bind_iff fun _ =>
    isSome_bind_iff fun _ => isSome_bind_iff fun _ => isSome_bind_iff fun _ =>
      iff_of_true rfl trivial]
  rw [isSome_topic, isSome_topic, isSome_sub_32, isSome_sub_64, isSome_sub_96]
  rintro ⟨-, htopics, hlen⟩
  have hle : 96 ≤ l.data.backing.length := Nat.le_trans hlen len_le_backing
  exact ⟨Nat.lt_of_succ_lt htopics, htopics, by omega, by omega, hle, trivial⟩

/-- A handler that returns has had a log of its kind. -/
theorem deactivateStaker_returned {s' : Store}
    (h : deactivateStaker T l topic s = some (s', true)) :
    topic = T.deactivatedValidator ∧ 1 < l.topics.length := by
  rw [deactivateStaker] at h
  split at h
  · assumption
  · cases h

/-- Handlers go on until one returns. -/
theorem isSome_handle_cons {handler : Store → Option (Store × Bool)}
    {handlers : List (Store → Option (Store × Bool))} :
    (handle (handler :: handlers) s).isSome = true ↔
      ∃ s' returned, handler s = some (s', returned) ∧
        (returned = false → (handle handlers s').isSome = true) := by
  rw [handle]
  split
  · rename_i h
    simp [h]
  · rename_i h
    simp [h]
  · rename_i h
    simp [h]

/-- Nothing panics if no handler does. -/
theorem isSome_handle {handlers : List (Store → Option (Store × Bool))}
    (h : ∀ handler ∈ handlers, ∀ s, (handler s).isSome = true) (s : Store) :
    (handle handlers s).isSome = true := by
  induction handlers generalizing s with
  | nil => rfl
  | cons handler handlers ih =>
    rw [isSome_handle_cons]
    obtain ⟨⟨s', returned⟩, hs'⟩ := Option.isSome_iff_exists.mp (h handler List.mem_cons_self s)
    exact ⟨s', returned, hs', fun _ => ih (fun f hf => h f (List.mem_cons_of_mem _ hf)) s'⟩

/-- There is as much of the data as the handlers slice: two words for a validator that is
created or deactivated, and one for its status. -/
structure Sliceable (T : Topics) (l : Log) (topic : Hash) : Prop where
  created : topic = T.createdValidator → 2 < l.topics.length → 32 ≤ l.len →
    64 ≤ l.data.backing.length
  deactivated : topic = T.deactivatedValidator → 1 < l.topics.length → 64 ≤ l.data.backing.length
  changed : topic = T.changedValidatorStatus → 1 < l.topics.length → 32 ≤ l.data.backing.length

theorem isSome_handlers :
    (handle [goOn (addStaker T l topic), goOn (addDelegation T l topic), deactivateStaker T l topic,
      changeStatus T l topic, subDelegation T l topic,
      goOn (trackRewards T l topic)] s).isSome = true ↔
      Sliceable T l topic := by
  constructor
  · intro h
    obtain ⟨s₁, returned₁, h₁, h⟩ := isSome_handle_cons.mp h
    obtain ⟨_, hstaker, ⟨⟩⟩ := Option.map_eq_some_iff.mp h₁
    have hcreated := isSome_addStaker.mp (Option.isSome_of_mem hstaker)
    obtain ⟨s₂, returned₂, h₂, h⟩ := isSome_handle_cons.mp (h rfl)
    obtain ⟨_, -, ⟨⟩⟩ := Option.map_eq_some_iff.mp h₂
    obtain ⟨s₃, returned₃, h₃, h⟩ := isSome_handle_cons.mp (h rfl)
    have hdeactivated := isSome_deactivateStaker.mp (Option.isSome_of_mem h₃)
    refine ⟨hcreated, hdeactivated, ?_⟩
    cases returned₃ with
    | true =>
      intro _ htopics
      have := hdeactivated (deactivateStaker_returned h₃).1 htopics
      omega
    | false =>
      obtain ⟨s₄, returned₄, h₄, -⟩ := isSome_handle_cons.mp (h rfl)
      exact isSome_changeStatus.mp (Option.isSome_of_mem h₄)
  · intro h
    refine isSome_handle (fun handler hmem s => ?_) s
    simp only [List.mem_cons, List.not_mem_nil, or_false] at hmem
    obtain rfl | rfl | rfl | rfl | rfl | rfl := hmem
    · exact Option.isSome_map.trans (isSome_addStaker.mpr h.created)
    · exact Option.isSome_map.trans isSome_addDelegation
    · exact isSome_deactivateStaker.mpr h.deactivated
    · exact isSome_changeStatus.mpr h.changed
    · exact isSome_subDelegation
    · exact Option.isSome_map.trans isSome_trackRewards

theorem isSome_onNewLog :
    (onNewLog T s l).isSome = true ↔
      (l.address = sfcAddress → ∃ topic, l.topics[0]? = some topic ∧ Sliceable T l topic) := by
  rw [onNewLog]
  by_cases haddress : l.address = sfcAddress
  · rw [if_neg (not_not.mpr haddress)]
    cases l.topics[0]? with
    | none => simp [haddress]
    | some topic =>
      rw [Option.bind_eq_bind, Option.bind_some, isSome_handlers]
      simp [haddress]
  · rw [if_pos haddress]
    exact ⟨fun _ h => absurd h haddress, fun _ => rfl⟩

end Sfcapi

theorem Verwatcher.isSome_missVersion {s : Verwatcher.Store} {netVersion : UInt64} :
    (Verwatcher.missVersion false s netVersion).isSome = true := by
  rw [missVersion]
  split
  · simp only [Bool.false_eq_true, if_false]
    split <;> rfl
  · rfl

theorem Verwatcher.isSome_onNewLog {updateNetworkVersion : Hash} {s : Verwatcher.Store} {l : Log} :
    (Verwatcher.onNewLog updateNetworkVersion false s l).isSome = true ↔
      (l.address = driverAddress → l.topics ≠ []) := by
  rw [Verwatcher.onNewLog]
  by_cases haddress : l.address = driverAddress
  swap
  · rw [if_pos haddress]
    exact ⟨fun _ h => absurd h haddress, fun _ => rfl⟩
  rw [if_neg (not_not.mpr haddress)]
  cases htopics : l.topics with
  | nil => simp [haddress]
  | cons topic topics =>
    refine iff_of_true ?_ fun _ => List.cons_ne_nil _ _
    rw [List.getElem?_cons_zero, Option.bind_eq_bind, Option.bind_some]
    split
    · rename_i h
      have hsub : l.data.sub 24 32 = some ((l.data.data.take 32).drop 24) :=
        Slice.sub_of_le (by decide) h.2
      rw [hsub]
      exact isSome_missVersion
    · rfl

/-! ## All listeners -/

/-- **The logs on which no listener panics** and the bytes of a log are decoded exactly. The
log has a topic, if it is from the driver or the SFC contract; no offset or size in it wraps;
the data is not shorter than the slices of `sfcapi`; and rules that are changed have a gas
price. -/
theorem listeners_return_iff (D : DriverExternal)
    (hD : D.updateValidatorPubkey ≠ D.updateNetworkRules) (T : Sfcapi.Topics)
    (updateNetworkVersion : Hash) (bs : BlockState) (versions : Verwatcher.Store)
    (store : Sfcapi.Store) (l : Log) :
    ((onNewLogSliced D l bs).isSome = true ∧
        (Verwatcher.onNewLog updateNetworkVersion false versions l).isSome = true ∧
        (Sfcapi.onNewLog T store l).isSome = true ∧ DecodesExactly l) ↔
      (l.NoWrap ∧
        (l.address = driverAddress → l.topics ≠ [] ∧
          (l.topics[0]? = some D.updateNetworkRules → 64 ≤ l.len → l.start + 32 + l.size ≤ l.len →
            bs.dirtyRules.economy.minGasPrice.isSome = true)) ∧
        (l.address = Sfcapi.sfcAddress →
          ∃ topic, l.topics[0]? = some topic ∧ Sfcapi.Sliceable T l topic)) := by
  rw [decodesExactly_iff, onNewLogSliced_eq, Verwatcher.isSome_onNewLog, Sfcapi.isSome_onNewLog]
  constructor
  · rintro ⟨hdriver, -, hsfc, hwrap⟩
    exact ⟨hwrap, (isSome_onNewLog D bs hD hwrap).mp hdriver, hsfc⟩
  · rintro ⟨hwrap, hdriver, hsfc⟩
    exact ⟨(isSome_onNewLog D bs hD hwrap).mpr hdriver, fun h => (hdriver h).1, hsfc, hwrap⟩

instance (l : Log) : Decidable l.NoWrap := inferInstanceAs (Decidable (_ → _ → _))

/-- Topics for examples. -/
def sampleTopics : Sfcapi.Topics where
  claimedRewards := copyBytes 32 [6]
  restakedRewards := copyBytes 32 [7]
  createdValidator := copyBytes 32 [8]
  deactivatedValidator := copyBytes 32 [9]
  changedValidatorStatus := copyBytes 32 [10]
  delegated := copyBytes 32 [11]
  undelegated := copyBytes 32 [12]

/-- Nothing is stored. -/
def emptyStore : Sfcapi.Store := ⟨fun _ => none, fun _ => none, fun _ => 0, fun _ => 0⟩

/-- A word of 32 bytes. -/
def wordOf (n : ℕ) : List UInt8 := (padded 32 n).reverse

/-- A public key of one byte for the validator 1. -/
def pubkeyLog : Log where
  address := driverAddress
  topics := [copyBytes 32 [2], copyBytes 32 (wordOf 1)]
  data := ⟨wordOf 32 ++ wordOf 1 ++ [0xc0], [], by decide⟩

theorem listeners_return_pubkeyLog :
    (onNewLogSliced sampleWorld.driver pubkeyLog sampleBlockState).isSome = true ∧
      (Verwatcher.onNewLog (copyBytes 32 [5]) false ⟨0, 0⟩ pubkeyLog).isSome = true ∧
      (Sfcapi.onNewLog sampleTopics emptyStore pubkeyLog).isSome = true ∧
      DecodesExactly pubkeyLog := by
  refine (listeners_return_iff sampleWorld.driver (by decide) sampleTopics (copyBytes 32 [5])
    sampleBlockState ⟨0, 0⟩ emptyStore pubkeyLog).mpr ⟨by decide +kernel, fun _ => ⟨by decide, ?_⟩,
      ?_⟩
  · intro h
    exact absurd h (by decide)
  · intro h
    exact absurd h (by decide)

/-- A validator is created, at an epoch and without a time. -/
def shortLog : Log where
  address := Sfcapi.sfcAddress
  topics := [copyBytes 32 [8], copyBytes 32 (wordOf 1), copyBytes 32 (wordOf 2)]
  data := ⟨wordOf 5, [], by decide⟩

/-- A log without topics. -/
def bareLog (address : Address) : Log := { shortLog with address := address, topics := [] }

/-- A public key whose offset wraps. -/
def wrappingLog (start : ℕ) (h : (wordOf start).length = 32) : Log where
  address := driverAddress
  topics := [copyBytes 32 [2], copyBytes 32 (wordOf 1)]
  data := ⟨wordOf start, [], by rw [h]; decide⟩

/-- Without a topic all listeners panic, and `sfcapi` on a log that passes its check of the
length. An offset that wraps is a panic, or other bytes than the log says. -/
theorem listeners_panic :
    onNewLogSliced sampleWorld.driver (bareLog driverAddress) sampleBlockState = none ∧
      Verwatcher.onNewLog (copyBytes 32 [5]) false ⟨0, 0⟩ (bareLog driverAddress) = none ∧
      Sfcapi.onNewLog sampleTopics emptyStore (bareLog Sfcapi.sfcAddress) = none ∧
      Sfcapi.onNewLog sampleTopics emptyStore shortLog = none ∧
      onNewLogSliced sampleWorld.driver
          (wrappingLog (2 ^ 64 - 32) (by decide +kernel)) sampleBlockState =
        none ∧
      ¬ DecodesExactly (wrappingLog (2 ^ 64 - 8) (by decide +kernel)) := by
  refine ⟨rfl, rfl, rfl, by decide +kernel, by decide +kernel, ?_⟩
  rw [decodesExactly_iff]
  decide +kernel

end Zilionixx
