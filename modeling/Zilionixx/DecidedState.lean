import Mathlib.Data.Finmap
import Zilionixx.EventCheck

/-!
# `blockproc`: block states and epoch states

`decided_state.go`: what is kept from block to block and from epoch to epoch.
The slices of the two states run in parallel to the validators of the epoch.
-/

namespace Zilionixx

/-- `hash.ZeroEvent` -/
def EventID.zero : EventID := ⟨0, 0, List.Vector.replicate 24 0⟩

/-- `drivertype.Validator` -/
structure DriverValidator where
  weight : ℤ
  pubKey : PubKey
  deriving DecidableEq

/-- `ValidatorProfiles` -/
abbrev ValidatorProfiles := Finmap fun _ : ValidatorID => DriverValidator

/-- `ValidatorBlockState` -/
structure ValidatorBlockState where
  cheater : Bool
  lastEvent : EventID
  uptime : Timestamp
  lastOnlineTime : Timestamp
  lastGasPowerLeft : GasPowerLeft
  lastBlock : UInt64
  dirtyGasRefund : UInt64
  originated : ℤ
  deriving DecidableEq

/-- `ValidatorEpochState` -/
structure ValidatorEpochState where
  gasRefund : UInt64
  prevEpochEvent : EventID
  deriving DecidableEq

/-- `BlockCtx` -/
structure BlockCtx where
  idx : UInt64
  time : Timestamp
  atropos : EventID
  deriving DecidableEq

/-- `BlockState` -/
structure BlockState where
  lastBlock : BlockCtx
  finalizedStateRoot : Hash
  epochGas : UInt64
  epochCheaters : List ValidatorID
  validatorStates : List ValidatorBlockState
  nextValidatorProfiles : ValidatorProfiles
  dirtyRules : Rules
  advanceEpochs : UInt32
  deriving DecidableEq

/-- `EpochState` -/
structure EpochState where
  epoch : UInt32
  epochStart : Timestamp
  prevEpochStart : Timestamp
  epochStateRoot : Hash
  validators : Validators
  validatorStates : List ValidatorEpochState
  validatorProfiles : ValidatorProfiles
  rules : Rules

/-- `BlockState.Copy` -/
def BlockState.copy (bs : BlockState) : Option BlockState := do
  let dirtyRules ← bs.dirtyRules.copy
  pure { bs with dirtyRules := dirtyRules }

/-- `EpochState.Copy` -/
def EpochState.copy (es : EpochState) : Option EpochState := do
  let rules ← es.rules.copy
  pure { es with rules := rules }

/-- A copy is the same value. -/
theorem BlockState.copy_eq_some {bs bs' : BlockState} (h : bs.copy = some bs') : bs' = bs := by
  obtain ⟨rules, hrules, h⟩ := Option.bind_eq_some_iff.mp h
  rw [Rules.copy_eq_some hrules] at h
  exact (Option.some.inj h).symm

/-- A copy is the same value. -/
theorem EpochState.copy_eq_some {es es' : EpochState} (h : es.copy = some es') : es' = es := by
  obtain ⟨rules, hrules, h⟩ := Option.bind_eq_some_iff.mp h
  rw [Rules.copy_eq_some hrules] at h
  exact (Option.some.inj h).symm

/-- The state of the first epoch with a single validator, for examples. -/
def sampleEpochState : EpochState where
  epoch := 1
  epochStart := 1
  prevEpochStart := 0
  epochStateRoot := copyBytes 32 []
  validators := sampleValidators
  validatorStates := [⟨0, EventID.zero⟩]
  validatorProfiles := ∅
  rules := mainNetRules

end Zilionixx
