import Zilionixx.GasPower

/-!
# The gas power of an emitted event

The emitter lets the service fill in a new event (`buildEvent`) and then adds
transactions to it, as long as there is gas power for them (`emitter/txs.go`). It
counts the gas power as it goes; the checks compute the same from the finished event.
-/

namespace Zilionixx

namespace GasPowerLeft

/-- `Min` -/
def min (g : GasPowerLeft) : UInt64 :=
  let m := g.gas 0
  let m := if m > g.gas 0 then g.gas 0 else m
  if m > g.gas 1 then g.gas 1 else m

/-- `Sub` -/
def sub (g : GasPowerLeft) (diff : UInt64) : GasPowerLeft := ⟨fun i => g.gas i - diff⟩

theorem min_le (g : GasPowerLeft) (i : Fin 2) : g.min ≤ g.gas i := by
  rw [min]
  simp only [gt_iff_lt, UInt64.lt_irrefl, if_false]
  fin_cases i
  · split
    · exact UInt64.le_of_lt ‹_›
    · exact UInt64.le_refl _
  · split
    · exact UInt64.le_refl _
    · exact UInt64.not_lt.mp ‹_›

/-- What is at most the minimum is subtracted from both kinds without wrapping. -/
theorem toNat_gas_sub {g : GasPowerLeft} {diff : UInt64} (h : diff ≤ g.min) (i : Fin 2) :
    ((g.sub diff).gas i).toNat + diff.toNat = (g.gas i).toNat := by
  have hle : diff ≤ g.gas i := UInt64.le_trans h (g.min_le i)
  rw [sub, UInt64.toNat_sub_of_le _ _ hle, Nat.sub_add_cancel (UInt64.le_iff_toNat_le.mp hle)]

end GasPowerLeft

namespace MutableEventPayload

/-- A mutable event as an `EventPayloadI`; the checks of gas do not read the ID, the hash
and the size. -/
def asPayload (e : MutableEventPayload) : EventPayload := e.build (copyBytes 32 []) 0

/-- `CalcGasPowerUsed` of a mutable event -/
def calcGasPowerUsed (e : MutableEventPayload) (rules : Rules) : UInt64 :=
  Epochcheck.calcGasPowerUsed e.asPayload rules

end MutableEventPayload

/-! ## `buildEvent` -/

/-- The errors of `buildEvent`. -/
inductive BuildError where
  /-- an error of the vector index -/
  | index (text : String)
  /-- an error of `CalcGasPower` -/
  | check (err : CheckError)
  /-- `ErrNotEnoughGasPower`: "not enough gas power" -/
  | notEnoughGasPower
  /-- an error of the consensus engine -/
  | engine (text : String)
  deriving DecidableEq

/-- What `buildEvent` reads from the service. -/
structure EventBuilder where
  external : External
  /-- `VersionToPublish` of the emitter -/
  versionToPublish : List UInt8
  /-- `GetRules` -/
  rules : Rules
  /-- the hash of the epoch state -/
  epochHash : Hash
  /-- `Add` of the vector index, and the `MedianTime` from the start of the epoch -/
  index : EventHeader → Except String Timestamp
  /-- `GetEvent` of the store -/
  getEvent : EventID → Option Event
  /-- `GetValidationContext` of the gas power check -/
  validationContext : Gaspowercheck.ValidationContext
  /-- `Build` of the consensus engine, which sets the frame -/
  engineBuild : EventHeader → Except String UInt32

namespace EventBuilder

/-- The self-parent that the gas power check is given. -/
def selfParent (S : EventBuilder) (e : EventHeader) : Option Event :=
  (S.external.selfParent e).bind S.getEvent

/-- The node version, with "v-" in front of it, if it is published and not too long. -/
def setVersion (S : EventBuilder) (e : MutableEventPayload) : MutableEventPayload :=
  let version := [0x76, 0x2d] ++ S.versionToPublish
  if e.seq ≤ 1 ∧ S.versionToPublish.length > 0 ∧
      UInt32.ofNat version.length ≤ S.rules.dag.maxExtraData then
    { e with extra := version }
  else e

/-- `PrevEpochHash` -/
def setPrevEpochHash (S : EventBuilder) (e : MutableEventPayload) : MutableEventPayload :=
  if e.lamport ≤ 1 then { e with prevEpochHash := some S.epochHash } else e

/-- An error, in `buildEvent`. -/
def failWith {ε α : Type} (wrap : ε → Fault BuildError) (m : Except ε α) :
    Except (Fault BuildError) α :=
  m.mapError wrap

/-- The initial gas power of an event. -/
def setGasPower (S : EventBuilder) (e : MutableEventPayload) :
    Except (Fault BuildError) MutableEventPayload := do
  let gasPowerUsed := e.calcGasPowerUsed S.rules
  let e := { e with gasPowerUsed := gasPowerUsed }
  let availableGasPower ← failWith (fun | .panic => .panic | .error err => .error (.check err))
    (Gaspowercheck.CalcGasPower S.external S.validationContext e.toEventHeader
      (S.selfParent e.toEventHeader))
  if e.gasPowerUsed > availableGasPower.min then .error (.error .notEnoughGasPower)
  else pure { e with gasPowerLeft := availableGasPower.sub e.gasPowerUsed }

/-- `buildEvent` -/
def buildEvent (S : EventBuilder) (e : MutableEventPayload) :
    Except (Fault BuildError) MutableEventPayload := do
  let e := S.setPrevEpochHash (S.setVersion e)
  let medianTime ← failWith (.error ∘ .index) (S.index e.toEventHeader)
  let e ← S.setGasPower { e with medianTime := medianTime }
  let frame ← failWith (.error ∘ .engine) (S.engineBuild e.toEventHeader)
  pure { e with frame := frame }

end EventBuilder

/-! ## `maxGasPowerToUse` -/

/-- `emitter.Config`, as far as it is read for transactions. -/
structure TxsConfig where
  limitedTpsThreshold : UInt64
  noTxsThreshold : UInt64

/-- `max64` -/
def max64 (a b : UInt64) : UInt64 := if a > b then a else b

/-- What the emitter reads to add transactions. -/
structure Originator where
  external : External
  config : TxsConfig
  /-- `GetRules` -/
  rules : Rules
  validators : Validators
  /-- the gas power that is used by events which are not confirmed -/
  pendingGas : UInt64
  /-- `GetRecommendedGasPrice` -/
  recommendedGasPrice : ℤ
  /-- `types.Sender`, with the error dropped -/
  sender : Transaction → Address
  /-- `originatedTxs.TotalOf` -/
  totalOf : Address → ℤ
  /-- `isMyTxTurn`, which reads the clock, at a pass through the loop of `addTxs` -/
  isMyTxTurn : ℕ → Transaction → Bool
  /-- `Has` of the pool, at a pass through the loop -/
  has : ℕ → Transaction → Bool

namespace Originator

variable (em : Originator)

/-- The allocation that is expected in the near future. -/
def estimatedAlloc (e : MutableEventPayload) : Option UInt64 :=
  Gaspowercheck.calcValidatorGasPower em.external e.toEventHeader e.creationTime e.medianTime 0
    em.validators
    { idx := Gaspowercheck.longTermGas
      allocPerSec := em.rules.economy.longGasPower.allocPerSec * 4 / 5
      maxAllocPeriod := 60 * second
      minEnsuredAlloc := 0
      startupAllocPeriod := 0
      minStartupGas := 0 }

/-- "Smooth TPS if power isn't big"; `none` stands for `return 0`. -/
def smoothTps (gasPowerLeft maxGasToUse : UInt64) : Option UInt64 :=
  let upperThreshold := em.config.limitedTpsThreshold
  let downThreshold := em.config.noTxsThreshold
  if gasPowerLeft < downThreshold then none
  else
    let newGasPowerLeft := if gasPowerLeft > maxGasToUse then gasPowerLeft - maxGasToUse else 0
    let x1 := if newGasPowerLeft < downThreshold then downThreshold else newGasPowerLeft
    let x2 := if gasPowerLeft > upperThreshold then upperThreshold else gasPowerLeft
    let trespassingPart := if x2 > x1 then x2 - x1 else 0
    let healthyPart := if gasPowerLeft > x2 then gasPowerLeft - x2 else 0
    let smoothGasToUse := healthyPart + trespassingPart / 2
    some (if maxGasToUse > smoothGasToUse then smoothGasToUse else maxGasToUse)

/-- The smoothing is on if there is room between the thresholds; the outer `none` is a
division by zero. -/
def smoothGas (e : MutableEventPayload) (maxGasToUse : UInt64) : Option (Option UInt64) :=
  if em.config.limitedTpsThreshold > em.config.noTxsThreshold then
    (em.estimatedAlloc e).map fun alloc => em.smoothTps (e.gasPowerLeft.min + alloc) maxGasToUse
  else some (some maxGasToUse)

/-- The most gas power that events which are not confirmed may use. -/
def maxPendingGas : UInt64 :=
  max64 (em.rules.blocks.maxBlockGas * 3 / 5)
    (em.rules.economy.gas.maxEventGas +
      em.rules.economy.gas.eventGas * UInt64.ofNat em.validators.len)

/-- "pendingGas should be below MaxBlockGas"; `none` stands for `return 0`. -/
def limitPending (maxGasToUse : UInt64) : Option UInt64 :=
  if em.maxPendingGas ≤ em.pendingGas then none
  else if em.maxPendingGas < em.pendingGas + maxGasToUse then
    some (em.maxPendingGas - em.pendingGas)
  else some maxGasToUse

/-- "No txs if power is low"; `none` stands for `return 0`. -/
def limitLeft (left maxGasToUse : UInt64) : Option UInt64 :=
  let threshold := em.config.noTxsThreshold
  if left ≤ threshold then none
  else if left < threshold + maxGasToUse then some (left - threshold)
  else some maxGasToUse

/-- `maxGasPowerToUse`; `none` is a division by zero. -/
def maxGasPowerToUse (e : MutableEventPayload) : Option UInt64 := do
  let left := e.gasPowerLeft.min
  let maxEventGas := em.rules.economy.gas.maxEventGas
  let maxGasToUse := if maxEventGas > left then left else maxEventGas
  let smooth ← em.smoothGas e maxGasToUse
  pure ((smooth.bind fun g => (em.limitPending g).bind (em.limitLeft left)).getD 0)

end Originator

/-! ## `addTxs` -/

/-- `types.TransactionsByPriceAndNonce`: what `Peek` returns, and what is left after `Pop`
and after `Shift`. -/
inductive SortedTxs where
  | empty
  | peek (tx : Transaction) (pop shift : SortedTxs)

/-- What is done with a transaction of the pool. -/
inductive TxChoice where
  /-- end the loop -/
  | stop
  /-- leave out the transaction, and those of its sender -/
  | pop
  /-- add the transaction -/
  | add

/-- A transaction is added to an event. -/
def MutableEventPayload.addTx (e : MutableEventPayload) (tx : Transaction) : MutableEventPayload :=
  { e with
    gasPowerUsed := e.gasPowerUsed + tx.gas
    gasPowerLeft := e.gasPowerLeft.sub tx.gas
    txs := e.txs ++ [tx] }

namespace Originator

variable (em : Originator)

/-- The body of the loop in `addTxs`, at a pass; `none` is a panic. -/
def chooseTx (maxGasUsed : UInt64) (pass : ℕ) (e : MutableEventPayload) (tx : Transaction) :
    Option TxChoice :=
  match Epochcheck.checkTxs [tx] em.rules with
  | .error .panic => none
  -- check transaction epoch rules
  | .error (.error _) => some .pop
  | .ok () =>
    -- check transaction gas price against the soft limit
    if tx.gasPrice < em.recommendedGasPrice then some .pop
    -- check there's enough gas power to originate the transaction
    else if tx.gas ≥ e.gasPowerLeft.min ∨ e.gasPowerUsed + tx.gas ≥ maxGasUsed then
      -- stop if cannot originate even an empty transaction
      if txGas ≥ e.gasPowerLeft.min ∨ e.gasPowerUsed + txGas ≥ maxGasUsed then some .stop
      else some .pop
    -- check not conflicted with already originated txs (in any connected event)
    else if em.totalOf (em.sender tx) ≠ 0 then some .pop
    -- my turn, i.e. try to not include the same tx simultaneously by different validators
    else if em.isMyTxTurn pass tx = false then some .pop
    -- check transaction is not outdated
    else if em.has pass tx = false then some .pop
    else some .add

/-- The loop in `addTxs`. -/
def addTxsLoop (maxGasUsed : UInt64) :
    ℕ → SortedTxs → MutableEventPayload → Option MutableEventPayload
  | _, .empty, e => some e
  | pass, .peek tx pop shift, e =>
    match em.chooseTx maxGasUsed pass e tx with
    | none => none
    | some .stop => some e
    | some .pop => addTxsLoop maxGasUsed (pass + 1) pop e
    | some .add => addTxsLoop maxGasUsed (pass + 1) shift (e.addTx tx)

/-- `addTxs` -/
def addTxs (e : MutableEventPayload) (sorted : SortedTxs) : Option MutableEventPayload := do
  let maxGasUsed ← em.maxGasPowerToUse e
  if maxGasUsed ≤ e.gasPowerUsed then pure e else em.addTxsLoop maxGasUsed 0 sorted e

/-! ## What is added -/

/-- Transactions are added one after the other, each within the gas power that is left and
below a limit on the one that is used. -/
inductive Extends (maxGasUsed : UInt64) : MutableEventPayload → MutableEventPayload → Prop where
  | refl (e : MutableEventPayload) : Extends maxGasUsed e e
  | add {e e' : MutableEventPayload} {tx : Transaction} (left : tx.gas < e.gasPowerLeft.min)
      (used : e.gasPowerUsed + tx.gas < maxGasUsed) (rest : Extends maxGasUsed (e.addTx tx) e') :
      Extends maxGasUsed e e'

variable {em} {e e' : MutableEventPayload} {maxGasUsed : UInt64} {e : MutableEventPayload}

theorem chooseTx_eq_add {pass : ℕ} {tx : Transaction}
    (h : em.chooseTx maxGasUsed pass e tx = some .add) :
    tx.gas < e.gasPowerLeft.min ∧ e.gasPowerUsed + tx.gas < maxGasUsed := by
  unfold chooseTx at h
  split at h
  · cases h
  · cases h
  · split at h
    · cases h
    split at h
    · split at h <;> cases h
    · rename_i hgas
      rw [not_or, UInt64.not_le, UInt64.not_le] at hgas
      exact hgas

theorem extends_of_addTxsLoop {pass : ℕ} {sorted : SortedTxs}
    (h : em.addTxsLoop maxGasUsed pass sorted e = some e') :
    Extends maxGasUsed e e' := by
  induction sorted generalizing pass e with
  | empty =>
    cases h
    exact .refl _
  | peek tx pop shift ihpop ihshift =>
    rw [addTxsLoop] at h
    cases hchoice : em.chooseTx maxGasUsed pass e tx with
    | none =>
      rw [hchoice] at h
      cases h
    | some choice =>
      rw [hchoice] at h
      cases choice with
      | stop =>
        cases h
        exact .refl _
      | pop => exact ihpop h
      | add =>
        obtain ⟨hleft, hused⟩ := chooseTx_eq_add hchoice
        exact .add hleft hused (ihshift h)

theorem extends_of_addTxs {sorted : SortedTxs} (h : em.addTxs e sorted = some e') :
    ∃ maxGasUsed, em.maxGasPowerToUse e = some maxGasUsed ∧ Extends maxGasUsed e e' := by
  obtain ⟨maxGasUsed, hmax, h⟩ := Option.bind_eq_some_iff.mp h
  refine ⟨maxGasUsed, hmax, ?_⟩
  split at h
  · cases h
    exact .refl _
  · exact extends_of_addTxsLoop h

/-- What adding transactions leaves as it was. -/
theorem Extends.header (h : Extends maxGasUsed e e') :
    e'.toEventHeader = { e.toEventHeader with
      gasPowerUsed := e'.gasPowerUsed, gasPowerLeft := e'.gasPowerLeft } := by
  induction h with
  | refl => rfl
  | add _ _ _ ih => exact ih

/-- Every transaction is added below the limit, so that the event is below it. -/
theorem Extends.used_lt (h : Extends maxGasUsed e e') : e' = e ∨ e'.gasPowerUsed < maxGasUsed := by
  induction h with
  | refl => exact .inl rfl
  | add _ used _ ih =>
    rcases ih with rfl | hlt
    · exact .inr used
    · exact .inr hlt

/-! ## The limit -/

theorem cut_le (a m : UInt64) : (if a > m then m else a) ≤ a :=
  UInt64.le_iff_toNat_le.mpr (Gaspowercheck.toNat_cut_le a m).2

/-- A limit that is cut to what is missing is lowered, also if the sum wraps. -/
theorem sub_le_of_lt_add {a b g : UInt64} (hab : b < a) (h : a < b + g) : a - b ≤ g := by
  rw [UInt64.lt_iff_toNat_lt] at hab h
  rw [UInt64.toNat_add] at h
  rw [UInt64.le_iff_toNat_le,
    UInt64.toNat_sub_of_le _ _ (UInt64.le_of_lt (UInt64.lt_iff_toNat_lt.mpr hab))]
  have := g.toNat_lt
  have := b.toNat_lt
  omega

theorem smoothTps_le {gasPowerLeft g g' : UInt64} (h : em.smoothTps gasPowerLeft g = some g') :
    g' ≤ g := by
  unfold smoothTps at h
  simp only [Option.ite_none_left_eq_some, Option.some.injEq] at h
  rw [← h.2]
  exact cut_le _ _

theorem smoothGas_le {g g' : UInt64} (h : em.smoothGas e g = some (some g')) : g' ≤ g := by
  unfold smoothGas at h
  split at h
  · obtain ⟨alloc, -, h⟩ := Option.map_eq_some_iff.mp h
    exact smoothTps_le h
  · cases h
    exact UInt64.le_refl _

theorem limitPending_le {g g' : UInt64} (h : em.limitPending g = some g') : g' ≤ g := by
  unfold limitPending at h
  split at h
  · cases h
  · rename_i hpending
    split at h
    · cases h
      exact sub_le_of_lt_add (UInt64.not_le.mp hpending) ‹_›
    · cases h
      exact UInt64.le_refl _

theorem limitLeft_le {left g g' : UInt64} (h : em.limitLeft left g = some g') : g' ≤ g := by
  unfold limitLeft at h
  simp only at h
  split at h
  · cases h
  · rename_i hleft
    split at h
    · cases h
      exact sub_le_of_lt_add (UInt64.not_le.mp hleft) ‹_›
    · cases h
      exact UInt64.le_refl _

/-- Each cut lowers the limit, and it starts from `MaxEventGas`. -/
theorem maxGasPowerToUse_le {g : UInt64} (h : em.maxGasPowerToUse e = some g) :
    g ≤ em.rules.economy.gas.maxEventGas := by
  obtain ⟨smooth, hsmooth, h⟩ := Option.bind_eq_some_iff.mp h
  obtain rfl := Option.some.inj h
  cases hcut : smooth.bind fun g => (em.limitPending g).bind (em.limitLeft e.gasPowerLeft.min) with
  -- `return 0`
  | none => exact UInt64.zero_le
  | some g₃ =>
    obtain ⟨g₁, rfl, hlimits⟩ := Option.bind_eq_some_iff.mp hcut
    obtain ⟨g₂, hpending, hleft⟩ := Option.bind_eq_some_iff.mp hlimits
    have h₃ : g₃ ≤ g₁ := UInt64.le_trans (limitLeft_le hleft) (limitPending_le hpending)
    exact UInt64.le_trans h₃ (UInt64.le_trans (smoothGas_le hsmooth) (cut_le _ _))

end Originator

/-! ## The accounts of an event -/

/-- **The invariant of the emitter.** The gas power that is used is the gas of the event, and
with what is left of each kind it makes up what was available; both in unbounded integers. -/
structure Accounted (rules : Rules) (available : GasPowerLeft)
    (e : MutableEventPayload) : Prop where
  used : e.gasPowerUsed.toNat = Epochcheck.gasOf (e.parents.length % 2 ^ 32) e.asPayload rules
  left : ∀ i, (e.gasPowerLeft.gas i).toNat + e.gasPowerUsed.toNat = (available.gas i).toNat

namespace Accounted

variable {rules : Rules} {available : GasPowerLeft} {e e' : MutableEventPayload}

theorem calcGasPowerUsed (h : Accounted rules available e) :
    e.gasPowerUsed = e.calcGasPowerUsed rules := by
  have hcalc : (e.calcGasPowerUsed rules).toNat = e.gasPowerUsed.toNat % 2 ^ 64 := by
    rw [h.used]
    exact Epochcheck.toNat_calcGasPowerUsed e.asPayload rules
  rw [Nat.mod_eq_of_lt e.gasPowerUsed.toNat_lt] at hcalc
  exact (UInt64.toNat_inj.mp hcalc).symm

theorem gasOf_addTx (n : ℕ) (e : MutableEventPayload) (tx : Transaction) (rules : Rules) :
    Epochcheck.gasOf n (e.addTx tx).asPayload rules =
      Epochcheck.gasOf n e.asPayload rules + tx.gas.toNat := by
  simp only [Epochcheck.gasOf, MutableEventPayload.asPayload, MutableEventPayload.build,
    MutableEventPayload.addTx, List.map_append, List.map_cons, List.map_nil, List.sum_append,
    List.sum_singleton]
  ring

/-- A transaction for which there is gas power left keeps the accounts. -/
theorem addTx (h : Accounted rules available e) {tx : Transaction}
    (hgas : tx.gas ≤ e.gasPowerLeft.min) : Accounted rules available (e.addTx tx) := by
  have hleft := GasPowerLeft.toNat_gas_sub hgas
  have hused : (e.gasPowerUsed + tx.gas).toNat = e.gasPowerUsed.toNat + tx.gas.toNat := by
    -- the sum is at most what was available of the first kind
    rw [UInt64.toNat_add, Nat.mod_eq_of_lt]
    have := h.left 0
    have := hleft 0
    have := (available.gas 0).toNat_lt
    omega
  refine ⟨?_, fun i => ?_⟩
  · rw [gasOf_addTx]
    exact hused.trans (congrArg (· + _) h.used)
  · have := h.left i
    have := hleft i
    have hi : ((e.addTx tx).gasPowerLeft.gas i).toNat + (e.addTx tx).gasPowerUsed.toNat =
        ((e.gasPowerLeft.sub tx.gas).gas i).toNat + (e.gasPowerUsed.toNat + tx.gas.toNat) :=
      congrArg (_ + ·) hused
    omega

/-- `addTxs` keeps the accounts. -/
theorem of_extends {maxGasUsed : UInt64} (h : Accounted rules available e)
    (hext : Originator.Extends maxGasUsed e e') : Accounted rules available e' := by
  induction hext with
  | refl => exact h
  | add left _ _ ih => exact ih (h.addTx (UInt64.le_of_lt left))

/-- The sums of the gas power check are those of the accounts. -/
theorem left_add_used (h : Accounted rules available e) (i : Fin 2) :
    e.gasPowerLeft.gas i + e.gasPowerUsed = available.gas i := by
  apply UInt64.toNat_inj.mp
  rw [UInt64.toNat_add, h.left i, Nat.mod_eq_of_lt (available.gas i).toNat_lt]

end Accounted

/-- `SelfParent` of `dag.BaseEvent` reads nothing but the sequence number and the parents. -/
def External.ReadsSelfParent (X : External) : Prop :=
  ∀ e e' : EventHeader, e.seq = e'.seq → e.parents = e'.parents → X.selfParent e = X.selfParent e'

namespace EventBuilder

variable {S : EventBuilder} {e e' : MutableEventPayload}

theorem failWith_eq_ok {ε α : Type} {wrap : ε → Fault BuildError} {m : Except ε α} {a : α} :
    failWith wrap m = .ok a ↔ m = .ok a := by
  cases m <;> simp [failWith, Except.mapError]

/-- The gas power of a validator does not depend on what its event uses, nor on the frame. -/
theorem calcGasPower_with (hX : S.external.ReadsSelfParent) (e : EventHeader) (used : UInt64)
    (left : GasPowerLeft) (frame : UInt32) :
    Gaspowercheck.CalcGasPower S.external S.validationContext
        { e with gasPowerUsed := used, gasPowerLeft := left, frame := frame }
        (S.selfParent { e with gasPowerUsed := used, gasPowerLeft := left, frame := frame }) =
      Gaspowercheck.CalcGasPower S.external S.validationContext e (S.selfParent e) := by
  have hself := hX { e with gasPowerUsed := used, gasPowerLeft := left, frame := frame } e rfl rfl
  simp only [selfParent, Gaspowercheck.CalcGasPower, Gaspowercheck.calcGasPower,
    Gaspowercheck.prevGasPower, Gaspowercheck.calcValidatorGasPower, hself]

/-- What `buildEvent` finds out about an event. -/
theorem buildEvent_eq_ok (h : S.buildEvent e = .ok e') :
    ∃ (e₀ : MutableEventPayload) (available : GasPowerLeft) (frame : UInt32),
      (∃ medianTime, e₀ = { S.setPrevEpochHash (S.setVersion e) with medianTime := medianTime }) ∧
      Gaspowercheck.CalcGasPower S.external S.validationContext
        { e₀.toEventHeader with gasPowerUsed := e₀.calcGasPowerUsed S.rules }
        (S.selfParent { e₀.toEventHeader with gasPowerUsed := e₀.calcGasPowerUsed S.rules }) =
          .ok available ∧
      e₀.calcGasPowerUsed S.rules ≤ available.min ∧
      e' = { e₀ with
        gasPowerUsed := e₀.calcGasPowerUsed S.rules
        gasPowerLeft := available.sub (e₀.calcGasPowerUsed S.rules)
        frame := frame } := by
  obtain ⟨medianTime, -, h⟩ := Checked.bind_eq_ok.mp h
  obtain ⟨e₁, hgas, h⟩ := Checked.bind_eq_ok.mp h
  obtain ⟨frame, -, h⟩ := Checked.bind_eq_ok.mp h
  obtain ⟨available, hcalc, hgas⟩ := Checked.bind_eq_ok.mp hgas
  split at hgas
  · cases hgas
  · rename_i hmin
    cases hgas
    cases h
    exact ⟨_, available, frame, ⟨medianTime, rfl⟩, failWith_eq_ok.mp hcalc, UInt64.not_lt.mp hmin,
      rfl⟩

/-- A built event has its accounts, with what the gas power check allows it. -/
theorem accounted_of_buildEvent (hX : S.external.ReadsSelfParent) (h : S.buildEvent e = .ok e')
    (hbase : Epochcheck.exactGas e'.asPayload S.rules < 2 ^ 64) :
    ∃ available, Gaspowercheck.CalcGasPower S.external S.validationContext e'.toEventHeader
        (S.selfParent e'.toEventHeader) = .ok available ∧ Accounted S.rules available e' := by
  obtain ⟨e₀, available, frame, -, hcalc, hmin, rfl⟩ := buildEvent_eq_ok h
  have hexact : (e₀.calcGasPowerUsed S.rules).toNat =
      Epochcheck.gasOf (e₀.parents.length % 2 ^ 32) e₀.asPayload S.rules := by
    have hfits := Nat.lt_of_le_of_lt (Epochcheck.gasOf_le_exactGas e₀.asPayload S.rules) hbase
    exact (Epochcheck.toNat_calcGasPowerUsed _ _).trans (Nat.mod_eq_of_lt hfits)
  refine ⟨available, ?_, hexact, GasPowerLeft.toNat_gas_sub hmin⟩
  rw [calcGasPower_with hX]
  exact (calcGasPower_with hX _ _ e₀.gasPowerLeft e₀.frame).symm.trans hcalc

end EventBuilder

/-- The gas power check accepts an event whose accounts are about what it computes. -/
theorem Accounted.validate {X : External} {ctx : Gaspowercheck.ValidationContext} {rules : Rules}
    {available : GasPowerLeft} {e : MutableEventPayload} {selfParent : Option Event}
    (h : Accounted rules available e)
    (hcalc : Gaspowercheck.CalcGasPower X ctx e.toEventHeader selfParent = .ok available) :
    Gaspowercheck.validate X ctx e.toEventHeader selfParent = .ok () := by
  unfold Gaspowercheck.validate
  rw [Checked.bind_eq_ok]
  refine ⟨available, hcalc, ?_⟩
  rw [Checked.seq_eq_ok, Checked.refuse_eq_ok, Checked.refuse_eq_ok, not_not, not_not]
  exact ⟨h.left_add_used 0, h.left_add_used 1⟩

/-- **The emitter and the checks agree on gas power.** An event that is built and then
extended with transactions of the pool uses just the gas power that `CalcGasPowerUsed`
computes, in unbounded integers, and with what is left of each kind it makes up what
`CalcGasPower` computes, so that the gas power check accepts it; with a transaction added
it uses less than `MaxEventGas`. -/
theorem emitted_gasPower (S : EventBuilder) (em : Originator) (hX : S.external.ReadsSelfParent)
    (hrules : em.rules = S.rules) (e e₁ e₂ : MutableEventPayload) (sorted : SortedTxs)
    (hbuild : S.buildEvent e = .ok e₁)
    (hbase : Epochcheck.exactGas e₁.asPayload S.rules < 2 ^ 64)
    (hadd : em.addTxs e₁ sorted = some e₂) :
    e₂.gasPowerUsed = e₂.calcGasPowerUsed S.rules ∧
      e₂.gasPowerUsed.toNat =
        Epochcheck.gasOf (e₂.parents.length % 2 ^ 32) e₂.asPayload S.rules ∧
      (∃ available, Gaspowercheck.CalcGasPower S.external S.validationContext e₂.toEventHeader
          (S.selfParent e₂.toEventHeader) = .ok available ∧
        ∀ i, (e₂.gasPowerLeft.gas i).toNat + e₂.gasPowerUsed.toNat = (available.gas i).toNat) ∧
      Gaspowercheck.validate S.external S.validationContext e₂.toEventHeader
        (S.selfParent e₂.toEventHeader) = .ok () ∧
      (e₂.txs ≠ e₁.txs → e₂.gasPowerUsed < S.rules.economy.gas.maxEventGas) := by
  obtain ⟨available, hcalc, haccounted⟩ := EventBuilder.accounted_of_buildEvent hX hbuild hbase
  obtain ⟨maxGasUsed, hmax, hextends⟩ := Originator.extends_of_addTxs hadd
  have haccounted₂ := haccounted.of_extends hextends
  have hcalc₂ : Gaspowercheck.CalcGasPower S.external S.validationContext e₂.toEventHeader
      (S.selfParent e₂.toEventHeader) = .ok available := by
    rw [hextends.header, ← hcalc]
    exact EventBuilder.calcGasPower_with hX e₁.toEventHeader _ _ e₁.frame
  refine ⟨haccounted₂.calcGasPowerUsed, haccounted₂.used, ⟨available, hcalc₂, haccounted₂.left⟩,
    haccounted₂.validate hcalc₂, fun hadded => ?_⟩
  rcases hextends.used_lt with rfl | hlt
  · exact absurd rfl hadded
  · rw [← hrules]
    exact UInt64.lt_of_lt_of_le hlt (Originator.maxGasPowerToUse_le hmax)

/-- A service for examples, where the validator starts with gas power for a few events. -/
def sampleBuilder : EventBuilder where
  external := sampleExternal
  versionToPublish := [0x31]
  rules := mainNetRules
  epochHash := copyBytes 32 [1]
  index _ := .ok 1
  getEvent _ := none
  validationContext :=
    { sampleContext with
      configs i := { sampleContext.configs i with minStartupGas := 4 * defaultEventGas } }
  engineBuild _ := .ok 1

/-- An emitter for examples, to which every transaction is welcome. -/
def sampleOriginator : Originator where
  external := sampleExternal
  config := ⟨0, 0⟩
  rules := mainNetRules
  validators := sampleValidators
  pendingGas := 0
  recommendedGasPrice := 0
  sender _ := copyBytes 20 []
  totalOf _ := 0
  isMyTxTurn _ _ := true
  has _ _ := true

/-- The first event of a validator, before it is built. -/
def firstEvent : MutableEventPayload :=
  { blankEvent with epoch := 1, lamport := 1, creator := 1, seq := 1, creationTime := 1 }

/-- A transfer, and one for which there is no gas power left. -/
def twoTransfers : SortedTxs :=
  .peek (Epochcheck.transferWith 21000) .empty (.peek (Epochcheck.transferWith 70000) .empty .empty)

theorem emitted_gasPower_twoTransfers :
    ∃ e₁ e₂, sampleBuilder.buildEvent firstEvent = .ok e₁ ∧
      sampleOriginator.addTxs e₁ twoTransfers = some e₂ ∧
      e₂.txs = [Epochcheck.transferWith 21000] ∧
      Gaspowercheck.validate sampleExternal sampleBuilder.validationContext e₂.toEventHeader
        (sampleBuilder.selfParent e₂.toEventHeader) = .ok () ∧
      e₂.gasPowerUsed < mainNetRules.economy.gas.maxEventGas := by
  have hbuild : ∃ e₁, sampleBuilder.buildEvent firstEvent = .ok e₁ ∧
      Epochcheck.exactGas e₁.asPayload mainNetRules < 2 ^ 64 ∧
      ∃ e₂, sampleOriginator.addTxs e₁ twoTransfers = some e₂ ∧
        e₂.txs = [Epochcheck.transferWith 21000] ∧ e₂.txs ≠ e₁.txs :=
    ⟨_, rfl, by decide +kernel, by decide +kernel⟩
  obtain ⟨e₁, hbuild, hbase, e₂, hadd, htxs, hadded⟩ := hbuild
  have hX : sampleExternal.ReadsSelfParent := by
    intro e e' hseq hparents
    simp only [sampleExternal, hseq, hparents]
  obtain ⟨-, -, -, hvalidate, hlt⟩ := emitted_gasPower sampleBuilder sampleOriginator hX rfl
    firstEvent e₁ e₂ twoTransfers hbuild hbase hadd
  exact ⟨e₁, e₂, hbuild, hadd, htxs, hvalidate, hlt hadded⟩

end Zilionixx
