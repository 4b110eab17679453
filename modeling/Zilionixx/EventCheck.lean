import Zilionixx.Rules

/-!
# `eventcheck`: the checks an event passes before it is processed

`basiccheck`, `epochcheck`, `parentscheck`, `gaspowercheck` and `heavycheck`,
and `Checkers.Validate`, which runs them one after the other. Each of the first
three starts with the check of the same name in `zilion-base`; these, and what
is used of go-ethereum, come in as an `External`.

A check returns an error or nothing, and it can panic: an index out of range, a
`nil` event, a division by zero.
-/

namespace Zilionixx

/-- The errors of the checkers. -/
inductive CheckError where
  /-- `ErrZeroTime`: "event has zero timestamp" -/
  | zeroTime
  /-- `ErrNegativeValue`: "negative value" -/
  | negativeValue
  /-- `ErrIntrinsicGas`: "intrinsic gas too low" -/
  | intrinsicGas
  /-- `vm.ErrOutOfGas` -/
  | outOfGas
  /-- `ErrGasUintOverflow` -/
  | gasUintOverflow
  /-- `ErrTooManyParents`: "event has too many parents" -/
  | tooManyParents
  /-- `ErrTooBigGasUsed`: "event uses too much gas power" -/
  | tooBigGasUsed
  /-- `ErrWrongGasUsed`: "event has incorrect gas power" -/
  | wrongGasUsed
  /-- `ErrUnderpriced`: "event transaction underpriced" -/
  | underpriced
  /-- `ErrTooBigExtra`: "event extra data is too large" -/
  | tooBigExtra
  /-- `ErrUnsupportedTxType`: "unsupported tx type" -/
  | unsupportedTxType
  /-- `ErrPastTime`: "event has lower claimed time than self-parent" -/
  | pastTime
  /-- `ErrWrongGasPowerLeft`: "event has wrong GasPowerLeft" -/
  | wrongGasPowerLeft
  /-- `ErrWrongEventSig`: "event has wrong signature" -/
  | wrongEventSig
  /-- `ErrMalformedTxSig`: "tx has wrong signature" -/
  | malformedTxSig
  /-- `ErrWrongTxHash`: "tx has wrong txs Merkle tree root" -/
  | wrongTxHash
  /-- `ErrHugeValue` of `zilion-base` -/
  | hugeValue
  /-- `ErrNotRelevant` of `zilion-base` -/
  | notRelevant
  /-- `ErrAuth` of `zilion-base` -/
  | auth
  /-- `ErrWrongSelfParent` of `zilion-base` -/
  | wrongSelfParent
  /-- any other error of `zilion-base` -/
  | base (text : String)
  deriving DecidableEq

/-- What a check computes. -/
abbrev Checked := Except (Fault CheckError)

namespace Checked

/-- Return the error `err` if `bad`. -/
def refuse (bad : Prop) [Decidable bad] (err : CheckError) : Checked Unit :=
  if bad then .error (.error err) else .ok ()

/-- A value, or a panic. -/
def orPanic {α : Type} : Option α → Checked α
  | none => .error .panic
  | some a => .ok a

/-- The loop `for _, x := range xs { if err := f(x); err != nil { return err } }` -/
def forEach {α : Type} (f : α → Checked Unit) : List α → Checked Unit
  | [] => .ok ()
  | x :: xs => do
    f x
    forEach f xs

variable {α β : Type}

/-- A check passes if all its parts do. -/
theorem bind_eq_ok {ε : Type} {m : Except ε α} {k : α → Except ε β} {b : β} :
    (m >>= k) = .ok b ↔ ∃ a, m = .ok a ∧ k a = .ok b := by
  rcases m with f | a
  · exact ⟨fun h => (by cases h), fun ⟨_, h, _⟩ => by cases h⟩
  · exact ⟨fun h => ⟨a, rfl, h⟩, fun ⟨_, h, hk⟩ => by cases h; exact hk⟩

theorem seq_eq_ok {m : Checked Unit} {k : Checked β} {b : β} :
    (m >>= fun _ => k) = .ok b ↔ m = .ok () ∧ k = .ok b := by
  rw [bind_eq_ok]
  exact ⟨fun ⟨_, hm, hk⟩ => ⟨hm, hk⟩, fun ⟨hm, hk⟩ => ⟨(), hm, hk⟩⟩

theorem refuse_eq_ok {bad : Prop} [Decidable bad] {err : CheckError} :
    refuse bad err = .ok () ↔ ¬ bad := by
  rw [refuse]
  split
  · exact ⟨fun h => (by cases h), fun h => absurd ‹bad› h⟩
  · exact ⟨fun _ => ‹¬ bad›, fun _ => rfl⟩

theorem orPanic_eq_ok {o : Option α} {a : α} : orPanic o = .ok a ↔ o = some a := by
  cases o with
  | none => exact ⟨fun h => (by cases h), fun h => by cases h⟩
  | some a' => exact ⟨fun h => by cases h; rfl, fun h => by cases h; rfl⟩

/-- A loop passes if all rounds do. -/
theorem forEach_eq_ok {f : α → Checked Unit} {xs : List α} :
    forEach f xs = .ok () ↔ ∀ x ∈ xs, f x = .ok () := by
  induction xs with
  | nil => exact ⟨fun _ x hx => (by cases hx), fun _ => rfl⟩
  | cons x xs ih => rw [forEach, seq_eq_ok, ih, List.forall_mem_cons]

end Checked

open Checked

/-- `validatorpk.PubKey` -/
structure PubKey where
  /-- `Type` -/
  type : UInt8
  /-- `Raw` -/
  raw : List UInt8
  deriving DecidableEq

/-- `validatorpk.Types.Secp256k1` -/
def secp256k1 : UInt8 := 0xc0

/-- What the checkers use from outside this repository. -/
structure External where
  /-- `basiccheck.Checker.Validate` of `zilion-base` -/
  basicValidate : EventPayload → Checked Unit
  /-- `epochcheck.Checker.Validate` of `zilion-base` -/
  epochValidate : EventPayload → Checked Unit
  /-- `parentscheck.Checker.Validate` of `zilion-base` -/
  parentsValidate : Event → List Event → Checked Unit
  /-- `SelfParent` of `dag.BaseEvent` -/
  selfParent : EventHeader → Option EventID
  /-- `IsSelfParent` of `dag.BaseEvent` -/
  isSelfParent : EventHeader → EventID → Bool
  /-- `crypto.VerifySignature` -/
  verifySignature : List UInt8 → Hash → Signature → Bool
  /-- whether `types.Sender` finds a sender -/
  hasSender : Transaction → Bool

/-- An instance for examples: only a wrong lamport is refused. -/
def sampleExternal : External where
  basicValidate _ := .ok ()
  epochValidate _ := .ok ()
  parentsValidate e parents :=
    refuse (e.lamport.toNat ≠ 1 + (parents.map fun p => p.lamport.toNat).foldr max 0)
      (.base "wrong Lamport time")
  selfParent e := if e.seq ≤ 1 then none else e.parents.head?
  isSelfParent e id := e.parents.head? = some id
  verifySignature _ _ _ := true
  hasSender _ := true

/-! ## Intrinsic gas -/

/-- `params.TxGas` -/
def txGas : UInt64 := 21000

/-- `params.TxGasContractCreation` -/
def txGasContractCreation : UInt64 := 53000

/-- `params.TxDataNonZeroGasEIP2028` -/
def txDataNonZeroGas : UInt64 := 16

/-- `params.TxDataZeroGas` -/
def txDataZeroGas : UInt64 := 4

/-- `params.TxAccessListAddressGas` -/
def txAccessListAddressGas : UInt64 := 2400

/-- `params.TxAccessListStorageKeyGas` -/
def txAccessListStorageKeyGas : UInt64 := 1900

/-- The largest `uint64`. -/
def maxUint64 : UInt64 := 0xffffffffffffffff

/-- The price of transactional data in `IntrinsicGas`. -/
def dataGas (gas : UInt64) (data : List UInt8) : Except CheckError UInt64 :=
  -- zero and non-zero bytes are priced differently
  let nz := UInt64.ofNat (data.countP (· ≠ 0))
  if (maxUint64 - gas) / txDataNonZeroGas < nz then .error .outOfGas
  else
    let gas := gas + nz * txDataNonZeroGas
    let z := UInt64.ofNat data.length - nz
    if (maxUint64 - gas) / txDataZeroGas < z then .error .gasUintOverflow
    else .ok (gas + z * txDataZeroGas)

/-- `AccessList()` of a transaction; `none` is `nil`. -/
def TxKind.accessListOf : TxKind → Option (List AccessTuple)
  | .accessList _ list => some list
  | _ => none

/-- `evmcore.IntrinsicGas` -/
def intrinsicGas (data : List UInt8) (accessList : Option (List AccessTuple))
    (isContractCreation : Bool) : Except CheckError UInt64 :=
  let gas := if isContractCreation then txGasContractCreation else txGas
  match if data.length > 0 then dataGas gas data else .ok gas with
  | .error err => .error err
  | .ok gas =>
    match accessList with
    | none => .ok gas
    | some list =>
      .ok (gas + UInt64.ofNat list.length * txAccessListAddressGas +
        UInt64.ofNat (list.map fun t => t.storageKeys.length).sum * txAccessListStorageKeyGas)

/-! ## `basiccheck` -/

namespace GasPowerLeft

/-- `Max` -/
def max (g : GasPowerLeft) : UInt64 :=
  let m := g.gas 0
  let m := if m < g.gas 0 then g.gas 0 else m
  if m < g.gas 1 then g.gas 1 else m

end GasPowerLeft

namespace Basiccheck

/-- `math.MaxInt64` -/
def maxInt64 : UInt64 := 0x7fffffffffffffff

/-- `validateTx` -/
def validateTx (tx : Transaction) : Checked Unit := do
  refuse (tx.value < 0 ∨ tx.gasPrice < 0) .negativeValue
  -- ensure the transaction has more gas than the basic tx fee
  match intrinsicGas tx.data tx.kind.accessListOf tx.toAddress.isNone with
  | .error err => .error (.error err)
  | .ok intrGas => refuse (tx.gas < intrGas) .intrinsicGas

/-- `checkTxs` -/
def checkTxs (e : EventPayload) : Checked Unit := Checked.forEach validateTx e.txs

/-- `Validate` -/
def validate (X : External) (e : EventPayload) : Checked Unit := do
  X.basicValidate e
  refuse (e.gasPowerUsed ≥ maxInt64 - 1 ∨ e.gasPowerLeft.max ≥ maxInt64 - 1) .hugeValue
  refuse (e.creationTime ≤ 0 ∨ e.medianTime ≤ 0) .zeroTime
  checkTxs e

end Basiccheck

/-! ## `epochcheck` -/

namespace Epochcheck

/-- The loop over the transactions in `CalcGasPowerUsed`. -/
def txsGas (txs : List Transaction) : UInt64 := txs.foldl (fun gas tx => gas + tx.gas) 0

/-- `CalcGasPowerUsed` -/
def calcGasPowerUsed (e : EventPayload) (rules : Rules) : UInt64 :=
  let parentsNum := UInt32.ofNat e.parents.length
  let parentsGas :=
    if parentsNum > rules.dag.maxFreeParents then
      (parentsNum - rules.dag.maxFreeParents).toUInt64 * rules.economy.gas.parentGas
    else 0
  let extraGas := UInt64.ofNat e.extra.length * rules.economy.gas.extraDataGas
  txsGas e.txs + parentsGas + extraGas + rules.economy.gas.eventGas

/-- `checkGas` -/
def checkGas (e : EventPayload) (rules : Rules) : Checked Unit := do
  refuse (e.gasPowerUsed > rules.economy.gas.maxEventGas) .tooBigGasUsed
  refuse (e.gasPowerUsed ≠ calcGasPowerUsed e rules) .wrongGasUsed

/-- The body of the loop in `CheckTxs`. -/
def checkTx (rules : Rules) (tx : Transaction) : Checked Unit := do
  let maxType : UInt8 := if rules.upgrades.berlin then 1 else 0
  refuse (tx.type > maxType) .unsupportedTxType
  let minGasPrice ← orPanic rules.economy.minGasPrice
  refuse (tx.gasPrice < minGasPrice) .underpriced

/-- `CheckTxs` -/
def checkTxs (txs : List Transaction) (rules : Rules) : Checked Unit :=
  Checked.forEach (checkTx rules) txs

/-- `Validate`; `rules` and `epoch` are what `GetEpochRules` returns. -/
def validate (X : External) (rules : Rules) (epoch : UInt32) (e : EventPayload) :
    Checked Unit := do
  X.epochValidate e
  -- check the epoch of the rules to prevent a race condition
  refuse (e.epoch ≠ epoch) .notRelevant
  refuse (UInt32.ofNat e.parents.length > rules.dag.maxParents) .tooManyParents
  refuse (UInt32.ofNat e.extra.length > rules.dag.maxExtraData) .tooBigExtra
  checkGas e rules
  checkTxs e.txs rules

end Epochcheck

/-! ## `parentscheck` -/

namespace Parentscheck

/-- The part of `Validate` about the self-parent. -/
def checkSelfParent (X : External) (e : Event) (parents : List Event) : Checked Unit := do
  let selfParent ← orPanic parents.head?
  -- sanity check, self-parent is always first, it's how it's stored
  refuse (X.isSelfParent e.toEventHeader selfParent.id = false) .wrongSelfParent
  refuse (e.creationTime ≤ selfParent.creationTime) .pastTime

/-- `Validate` -/
def validate (X : External) (e : Event) (parents : List Event) : Checked Unit := do
  X.parentsValidate e parents
  if (X.selfParent e.toEventHeader).isSome then checkSelfParent X e parents else .ok ()

end Parentscheck

/-! ## `gaspowercheck` -/

namespace Gaspowercheck

/-- `ValidatorState`. `PrevEpochEvent` is an interface: `none` is `nil`, and
`some none` an interface that holds a `nil` event, which is not `nil`. -/
structure ValidatorState where
  /-- `PrevEpochEvent` -/
  prevEpochEvent : Option (Option Event)
  /-- `GasRefund` -/
  gasRefund : UInt64

/-- `Config` -/
structure Config where
  idx : Fin 2
  allocPerSec : UInt64
  maxAllocPeriod : Timestamp
  minEnsuredAlloc : UInt64
  startupAllocPeriod : Timestamp
  minStartupGas : UInt64

/-- `ValidationContext` -/
structure ValidationContext where
  epoch : UInt32
  configs : Fin 2 → Config
  epochStart : Timestamp
  validators : Validators
  validatorStates : List ValidatorState
  /-- each configuration knows its place -/
  configs_idx : ∀ i, (configs i).idx = i

/-- `calcValidatorGasPowerPerSec`: the rate, the maximum and the startup gas
power; `none` is a division by zero. -/
def calcValidatorGasPowerPerSec (validator : ValidatorID) (validators : Validators)
    (config : Config) : Option (UInt64 × UInt64 × UInt64) :=
  let stake := validators.get validator
  if stake = 0 then some (0, 0, 0)
  else if validators.totalWeight = 0 then none
  else
    let perSec := UInt64.ofNat
      (config.allocPerSec.toNat * stake.toNat / validators.totalWeight.toNat)
    let maxGasPower := perSec * (config.maxAllocPeriod / second)
    let maxGasPower :=
      if maxGasPower < config.minEnsuredAlloc then config.minEnsuredAlloc else maxGasPower
    let startup := perSec * (config.startupAllocPeriod / second)
    let startup := if startup < config.minStartupGas then config.minStartupGas else startup
    some (perSec, maxGasPower, startup)

/-- `CalcValidatorGasPower` -/
def calcValidatorGasPower (X : External) (e : EventHeader) (eTime prevTime : Timestamp)
    (prevGasPowerLeft : UInt64) (validators : Validators) (config : Config) : Option UInt64 := do
  let (gasPowerPerSec, maxGasPower, startup) ←
    calcValidatorGasPowerPerSec e.creator validators config
  let prevGasPowerLeft :=
    if X.selfParent e = none ∧ prevGasPowerLeft < startup then startup else prevGasPowerLeft
  let prevTime := if prevTime > eTime then eTime else prevTime
  let gasPowerAllocated := (eTime - prevTime).toNat * gasPowerPerSec.toNat / second.toNat
  let gasPower := UInt64.ofNat gasPowerAllocated + prevGasPowerLeft
  pure (if gasPower > maxGasPower then maxGasPower else gasPower)

/-- The gas power and the time that `calcGasPower` starts from; `none` is an
index out of range or a `nil` event. -/
def prevGasPower (X : External) (e : EventHeader) (selfParent : Option Event)
    (ctx : ValidationContext) (config : Config) : Option (UInt64 × Timestamp) :=
  if (X.selfParent e).isSome then
    selfParent.map fun p => (p.gasPowerLeft.gas config.idx, p.medianTime)
  else do
    let validatorState ← ctx.validatorStates[ctx.validators.getIdx e.creator]?
    match validatorState.prevEpochEvent with
    | some prev => do
      let prev ← prev
      pure (prev.gasPowerLeft.gas config.idx + validatorState.gasRefund, prev.medianTime)
    | none => pure (0 + validatorState.gasRefund, ctx.epochStart)

/-- `calcGasPower` -/
def calcGasPower (X : External) (e : EventHeader) (selfParent : Option Event)
    (ctx : ValidationContext) (config : Config) : Option UInt64 := do
  let (prevGasPowerLeft, prevTime) ← prevGasPower X e selfParent ctx config
  calcValidatorGasPower X e e.medianTime prevTime prevGasPowerLeft ctx.validators config

/-- `CalcGasPower` -/
def CalcGasPower (X : External) (ctx : ValidationContext) (e : EventHeader)
    (selfParent : Option Event) : Checked GasPowerLeft := do
  -- check that all the data is for the same epoch
  refuse (ctx.epoch ≠ e.epoch) .notRelevant
  let gas0 ← orPanic (calcGasPower X e selfParent ctx (ctx.configs 0))
  let gas1 ← orPanic (calcGasPower X e selfParent ctx (ctx.configs 1))
  pure ⟨![gas0, gas1]⟩

/-- `Validate` -/
def validate (X : External) (ctx : ValidationContext) (e : EventHeader)
    (selfParent : Option Event) : Checked Unit := do
  let gasPowers ← CalcGasPower X ctx e selfParent
  refuse (e.gasPowerLeft.gas 0 + e.gasPowerUsed ≠ gasPowers.gas 0) .wrongGasPowerLeft
  refuse (e.gasPowerLeft.gas 1 + e.gasPowerUsed ≠ gasPowers.gas 1) .wrongGasPowerLeft

end Gaspowercheck

/-! ## `heavycheck` -/

namespace Heavycheck

/-- `verifySignature` -/
def verifySignature (X : External) (e : EventPayload) (pubkey : PubKey) : Bool :=
  if pubkey.type ≠ secp256k1 then false
  else X.verifySignature pubkey.raw e.hashToSign e.sig

/-- `Validate`; `addrs` and `epoch` are what `GetEpochPubKeys` returns. -/
def validate (X : External) (H : Hashing) (addrs : ValidatorID → Option PubKey) (epoch : UInt32)
    (e : EventPayload) : Checked Unit := do
  refuse (e.epoch ≠ epoch) .notRelevant
  match addrs e.creator with
  | none => .error (.error .auth)
  | some addr => do
    -- event sig
    refuse (verifySignature X e addr = false) .wrongEventSig
    -- pre-cache tx sig
    Checked.forEach (fun tx => refuse (X.hasSender tx = false) .malformedTxSig) e.txs
    -- Merkle tree
    refuse (e.txHash ≠ H.deriveSha e.txs) .wrongTxHash

end Heavycheck

/-! ## All the checks -/

/-- `Checkers`, with what its readers return. -/
structure Checkers where
  /-- `GetEpochRules` -/
  epochRules : Rules
  /-- the epoch of the rules -/
  rulesEpoch : UInt32
  /-- `GetValidationContext` -/
  validationContext : Gaspowercheck.ValidationContext
  /-- `GetEpochPubKeys` -/
  epochPubKeys : ValidatorID → Option PubKey
  /-- the epoch of the public keys -/
  pubKeysEpoch : UInt32

/-- A run on given inputs can be evaluated. -/
instance decidableReturns {α : Type} (o : Option α) (p : α → Prop) [DecidablePred p] :
    Decidable (∃ a, o = some a ∧ p a) :=
  decidable_of_iff (o.any fun a => p a) (by simp [Option.any_eq_true])

theorem index_of_getElem?_singleton {α : Type} {x y : α} {i : ℕ} (h : [x][i]? = some y) :
    0 = i := by
  have hlt := (List.getElem?_eq_some_iff.mp h).1
  exact (Nat.lt_one_iff.mp hlt).symm

/-- A single validator of weight 1, for examples. -/
def sampleValidators : Validators where
  sortedIDs := [1]
  get id := if id = 1 then 1 else 0
  totalWeight := 1
  getIdx _ := 0
  get_eq_zero _ h := if_neg fun heq => h (List.mem_singleton.mpr heq)
  nodup := by decide
  getIdx_of_getElem? _ _ h := index_of_getElem?_singleton h

/-- A context for examples, where nothing but the startup gas is allocated. -/
def sampleContext : Gaspowercheck.ValidationContext where
  epoch := 1
  configs i :=
    { idx := i
      allocPerSec := 0
      maxAllocPeriod := 0
      minEnsuredAlloc := defaultGasRules.maxEventGas
      startupAllocPeriod := 0
      minStartupGas := defaultEventGas }
  epochStart := 1
  validators := sampleValidators
  validatorStates := [⟨none, 0⟩]
  configs_idx _ := rfl

/-- Checkers for examples. -/
def sampleCheckers : Checkers where
  epochRules := mainNetRules
  rulesEpoch := 1
  validationContext := sampleContext
  epochPubKeys id := if id = 1 then some ⟨secp256k1, []⟩ else none
  pubKeysEpoch := 1

/-- The `selfParent` of `Checkers.Validate`. -/
def Checkers.selfParent (X : External) (e : EventPayload) (parents : List Event) :
    Checked (Option Event) :=
  if (X.selfParent e.toEventHeader).isSome then do
    let p ← orPanic parents.head?
    pure (some p)
  else pure none

/-- `Checkers.Validate` -/
def Checkers.validate (v : Checkers) (X : External) (H : Hashing) (e : EventPayload)
    (parents : List Event) : Checked Unit := do
  Basiccheck.validate X e
  Epochcheck.validate X v.epochRules v.rulesEpoch e
  Parentscheck.validate X e.event parents
  let selfParent ← Checkers.selfParent X e parents
  Gaspowercheck.validate X v.validationContext e.toEventHeader selfParent
  Heavycheck.validate X H v.epochPubKeys v.pubKeysEpoch e

/-! ## What the checks leave -/

/-- Priced data never makes a transaction cheaper: the sum is kept below `2 ^ 64`. -/
theorem le_dataGas {gas g : UInt64} {data : List UInt8} (h : dataGas gas data = .ok g) :
    gas ≤ g := by
  rw [dataGas] at h
  simp only at h
  generalize UInt64.ofNat (data.countP (· ≠ 0)) = nz at h
  generalize UInt64.ofNat data.length - nz = z at h
  split at h
  · cases h
  rename_i hnz
  split at h
  · cases h
  rename_i hz
  rw [Except.ok.injEq] at h
  have hmul : ∀ {g n m : UInt64}, 0 < m.toNat → ¬ (maxUint64 - g) / m < n → g ≤ g + n * m := by
    intro g n m hm hle
    have hg := g.toNat_lt
    have hmax : (maxUint64 - g).toNat = 2 ^ 64 - 1 - g.toNat :=
      UInt64.toNat_sub_of_le _ _ (UInt64.le_iff_toNat_le.mpr (by show g.toNat ≤ 2 ^ 64 - 1; omega))
    rw [UInt64.lt_iff_toNat_lt, UInt64.toNat_div, hmax, Nat.not_lt,
      Nat.le_div_iff_mul_le hm] at hle
    rw [UInt64.le_iff_toNat_le, UInt64.toNat_add, UInt64.toNat_mul,
      Nat.mod_eq_of_lt (show n.toNat * m.toNat < 2 ^ 64 by omega),
      Nat.mod_eq_of_lt (by omega)]
    omega
  rw [← h]
  exact UInt64.le_trans (hmul (by decide) hnz) (hmul (by decide) hz)

theorem txGas_le_intrinsicGas {data : List UInt8} {creation : Bool} {g : UInt64}
    (h : intrinsicGas data none creation = .ok g) : txGas ≤ g := by
  have hstart : txGas ≤ if creation then txGasContractCreation else txGas := by
    cases creation <;> decide
  rw [intrinsicGas] at h
  simp only at h
  split at h
  · cases h
  · rename_i gas hgas
    rw [Except.ok.injEq] at h
    subst h
    split at hgas
    · exact UInt64.le_trans hstart (le_dataGas hgas)
    · rw [Except.ok.injEq] at hgas
      rwa [← hgas]

/-- A legacy transaction that passes has gas for at least the basic fee. -/
theorem Basiccheck.gas_of_validateTx {tx : Transaction} (h : validateTx tx = .ok ())
    (hkind : tx.kind = .legacy) : txGas ≤ tx.gas := by
  rw [validateTx, seq_eq_ok] at h
  obtain ⟨-, h⟩ := h
  have hnone : tx.kind.accessListOf = none := by rw [hkind]; rfl
  rw [hnone] at h
  split at h
  · cases h
  · rename_i intrGas hintr
    exact UInt64.le_trans (txGas_le_intrinsicGas hintr) (UInt64.not_lt.mp (refuse_eq_ok.mp h))

variable {X : External} {e : EventPayload}

/-- What the basic check leaves. -/
theorem Basiccheck.validate_eq_ok :
    validate X e = .ok () ↔
      X.basicValidate e = .ok () ∧
      (e.gasPowerUsed < maxInt64 - 1 ∧ e.gasPowerLeft.max < maxInt64 - 1) ∧
      (0 < e.creationTime ∧ 0 < e.medianTime) ∧ ∀ tx ∈ e.txs, validateTx tx = .ok () := by
  simp only [validate, seq_eq_ok, refuse_eq_ok, checkTxs, forEach_eq_ok, not_or, ge_iff_le,
    UInt64.not_le]

/-- All that the epoch check checks. -/
theorem Epochcheck.validate_eq_ok {rules : Rules} {epoch : UInt32} :
    validate X rules epoch e = .ok () ↔
      X.epochValidate e = .ok () ∧ e.epoch = epoch ∧
      UInt32.ofNat e.parents.length ≤ rules.dag.maxParents ∧
      UInt32.ofNat e.extra.length ≤ rules.dag.maxExtraData ∧
      (e.gasPowerUsed ≤ rules.economy.gas.maxEventGas ∧
        e.gasPowerUsed = calcGasPowerUsed e rules) ∧
      ∀ tx ∈ e.txs, checkTx rules tx = .ok () := by
  simp only [validate, checkGas, checkTxs, seq_eq_ok, refuse_eq_ok, forEach_eq_ok, gt_iff_lt,
    UInt32.not_lt, UInt64.not_lt, ne_eq, not_not]

theorem Heavycheck.txHash_of_validate {H : Hashing} {addrs : ValidatorID → Option PubKey}
    {epoch : UInt32} (h : validate X H addrs epoch e = .ok ()) : e.txHash = H.deriveSha e.txs := by
  rw [validate, seq_eq_ok] at h
  obtain ⟨-, h⟩ := h
  split at h
  · cases h
  · simp only [seq_eq_ok, refuse_eq_ok, ne_eq, not_not] at h
    exact h.2.2

theorem Parentscheck.base_of_validate {e : Event} {parents : List Event}
    (h : validate X e parents = .ok ()) : X.parentsValidate e parents = .ok () :=
  (seq_eq_ok.mp h).1

/-- Each check is passed. -/
theorem Checkers.validate_eq_ok {v : Checkers} {H : Hashing} {parents : List Event} :
    v.validate X H e parents = .ok () ↔
      Basiccheck.validate X e = .ok () ∧
      Epochcheck.validate X v.epochRules v.rulesEpoch e = .ok () ∧
      Parentscheck.validate X e.event parents = .ok () ∧
      (∃ selfParent, Checkers.selfParent X e parents = .ok selfParent ∧
        Gaspowercheck.validate X v.validationContext e.toEventHeader selfParent = .ok ()) ∧
      Heavycheck.validate X H v.epochPubKeys v.pubKeysEpoch e = .ok () := by
  rw [Checkers.validate, seq_eq_ok, seq_eq_ok, seq_eq_ok, bind_eq_ok]
  simp only [seq_eq_ok]
  constructor
  · rintro ⟨hbasic, hepoch, hparents, selfParent, hself, hgas, hheavy⟩
    exact ⟨hbasic, hepoch, hparents, ⟨selfParent, hself, hgas⟩, hheavy⟩
  · rintro ⟨hbasic, hepoch, hparents, ⟨selfParent, hself, hgas⟩, hheavy⟩
    exact ⟨hbasic, hepoch, hparents, selfParent, hself, hgas, hheavy⟩

end Zilionixx
