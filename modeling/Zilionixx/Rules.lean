import Zilionixx.Event

/-!
# Network rules and validator groups

`zilionixx/rules.go`, as far as the event checks and the block processing read
it, and the interface of `pos.Validators` from `zilion-base`.
-/

namespace Zilionixx

/-- `idx.ValidatorID` -/
abbrev ValidatorID := UInt32

/-- `time.Second`, in the nanoseconds of `inter.Timestamp`. -/
def second : UInt64 := 1000000000

/-! ## Rules -/

/-- `GasPowerRules` -/
structure GasPowerRules where
  allocPerSec : UInt64
  maxAllocPeriod : Timestamp
  startupAllocPeriod : Timestamp
  minStartupGas : UInt64
  deriving DecidableEq

/-- `GasRules` -/
structure GasRules where
  maxEventGas : UInt64
  eventGas : UInt64
  parentGas : UInt64
  extraDataGas : UInt64
  deriving DecidableEq

/-- `EpochsRules` -/
structure EpochsRules where
  maxEpochGas : UInt64
  maxEpochDuration : Timestamp
  deriving DecidableEq

/-- `DagRules` -/
structure DagRules where
  maxParents : UInt32
  /-- maximum number of parents with no gas cost -/
  maxFreeParents : UInt32
  maxExtraData : UInt32
  deriving DecidableEq

/-- `EconomyRules` -/
structure EconomyRules where
  blockMissedSlack : UInt64
  gas : GasRules
  /-- `none` is `nil` -/
  minGasPrice : Option ℤ
  shortGasPower : GasPowerRules
  longGasPower : GasPowerRules
  deriving DecidableEq

/-- `BlocksRules` -/
structure BlocksRules where
  /-- technical hard limit, gas is mostly governed by gas power allocation -/
  maxBlockGas : UInt64
  maxEmptyBlockSkipPeriod : Timestamp
  deriving DecidableEq

/-- `Upgrades` -/
structure Upgrades where
  berlin : Bool
  deriving DecidableEq

/-- `Rules` -/
structure Rules where
  name : String
  networkID : UInt64
  dag : DagRules
  epochs : EpochsRules
  blocks : BlocksRules
  economy : EconomyRules
  upgrades : Upgrades
  deriving DecidableEq

/-- `DefaultEventGas` -/
def defaultEventGas : UInt64 := 28000

/-- `DefaultDagRules` -/
def defaultDagRules : DagRules where
  maxParents := 10
  maxFreeParents := 3
  maxExtraData := 128

/-- `DefaultEpochsRules` -/
def defaultEpochsRules : EpochsRules where
  maxEpochGas := 1500000000
  maxEpochDuration := 4 * 3600 * second

/-- `DefaultGasRules` -/
def defaultGasRules : GasRules where
  maxEventGas := 10000000 + defaultEventGas
  eventGas := defaultEventGas
  parentGas := 2400
  extraDataGas := 25

/-- `DefaulLongGasPowerRules` -/
def defaulLongGasPowerRules : GasPowerRules where
  allocPerSec := 100 * defaultEventGas
  maxAllocPeriod := 60 * 60 * second
  startupAllocPeriod := 5 * second
  minStartupGas := defaultEventGas * 20

/-- `DefaultShortGasPowerRules`: 2x faster allocation rate, 6x lower max
accumulated gas power. -/
def defaultShortGasPowerRules : GasPowerRules :=
  let cfg := defaulLongGasPowerRules
  { cfg with
    allocPerSec := cfg.allocPerSec * 2
    startupAllocPeriod := cfg.startupAllocPeriod / 2
    maxAllocPeriod := cfg.maxAllocPeriod / (2 * 6) }

/-- `DefaultEconomyRules` -/
def defaultEconomyRules : EconomyRules where
  blockMissedSlack := 50
  gas := defaultGasRules
  minGasPrice := some 1000000000
  shortGasPower := defaultShortGasPowerRules
  longGasPower := defaulLongGasPowerRules

/-- `MainNetRules` -/
def mainNetRules : Rules where
  name := "main"
  networkID := 0x5a
  dag := defaultDagRules
  epochs := defaultEpochsRules
  blocks := { maxBlockGas := 20500000, maxEmptyBlockSkipPeriod := 60 * second }
  economy := defaultEconomyRules
  upgrades := { berlin := false }

/-- `Copy`; `none` is the panic on a `nil` gas price. -/
def Rules.copy (r : Rules) : Option Rules := r.economy.minGasPrice.map fun _ => r

theorem Rules.copy_eq_some {r r' : Rules} (h : r.copy = some r') : r' = r := by
  obtain ⟨_, -, h⟩ := Option.map_eq_some_iff.mp h
  exact h.symm

/-! ## Validators -/

/-- `pos.Validators`: the validators of an epoch with their weights, in the
order of their indexes. -/
structure Validators where
  /-- `SortedIDs` -/
  sortedIDs : List ValidatorID
  /-- `Get`: the weight of a validator, 0 if it is none -/
  get : ValidatorID → UInt32
  /-- `TotalWeight` -/
  totalWeight : UInt32
  /-- `GetIdx` -/
  getIdx : ValidatorID → ℕ
  /-- the weight of another ID is 0 -/
  get_eq_zero : ∀ id, id ∉ sortedIDs → get id = 0
  /-- an ID has one index -/
  nodup : sortedIDs.Nodup
  /-- `GetIdx` finds the index of each validator -/
  getIdx_of_getElem? : ∀ i id, sortedIDs[i]? = some id → getIdx id = i

namespace Validators

/-- `Len` -/
def len (vv : Validators) : ℕ := vv.sortedIDs.length

/-- `Exists` -/
def contains (vv : Validators) (id : ValidatorID) : Bool := id ∈ vv.sortedIDs

variable {vv : Validators} {id id' : ValidatorID}

/-- `GetIdx` of a validator is its place. -/
theorem getElem?_getIdx (h : id ∈ vv.sortedIDs) : vv.sortedIDs[vv.getIdx id]? = some id := by
  obtain ⟨i, hi⟩ := List.mem_iff_getElem?.mp h
  rwa [vv.getIdx_of_getElem? i id hi]

theorem getIdx_lt (h : id ∈ vv.sortedIDs) : vv.getIdx id < vv.len :=
  (List.getElem?_eq_some_iff.mp (getElem?_getIdx h)).1

/-- Validators have different indexes. -/
theorem getIdx_inj (h : id ∈ vv.sortedIDs) (h' : id' ∈ vv.sortedIDs)
    (heq : vv.getIdx id = vv.getIdx id') : id = id' :=
  Option.some.inj ((getElem?_getIdx h).symm.trans (heq ▸ getElem?_getIdx h'))

/-- Validators with their weights, in the order of a list. -/
def ofWeights (weights : List (ValidatorID × UInt32)) (nodup : (weights.map Prod.fst).Nodup) :
    Validators where
  sortedIDs := weights.map Prod.fst
  get id := (weights.lookup id).getD 0
  totalWeight := (weights.map Prod.snd).foldl (· + ·) 0
  getIdx id := (weights.map Prod.fst).idxOf id
  get_eq_zero id h := by
    have hnone : weights.lookup id = none := by
      refine List.lookup_eq_none_iff.mpr fun p hp => bne_iff_ne.mpr ?_
      rintro rfl
      exact h (List.mem_map_of_mem hp)
    rw [hnone]
    rfl
  nodup := nodup
  getIdx_of_getElem? i id h := by
    obtain ⟨hlt, rfl⟩ := List.getElem?_eq_some_iff.mp h
    exact nodup.idxOf_getElem i hlt

end Validators

end Zilionixx
