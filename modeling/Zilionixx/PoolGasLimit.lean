import Mathlib.Order.Bounds.Basic
import Zilionixx.GasPower

/-!
# The gas limit of the transaction pool

The pool takes a transaction if its gas is at most `MaxGasLimit`, which subtracts from
`MaxEventGas` what an event may cost without transactions. `CalcGasPowerUsed` computes the
cost of an event from what is in it. Here the two are compared: the limit is the largest one
with which every event with a single transaction is below `MaxEventGas`.
-/

namespace Zilionixx

/-- `MaxGasLimit`: what an event costs without transactions. -/
def maxEmptyEventGas (rules : Rules) : UInt64 :=
  rules.economy.gas.eventGas +
    (rules.dag.maxParents - rules.dag.maxFreeParents).toUInt64 * rules.economy.gas.parentGas +
    rules.dag.maxExtraData.toUInt64 * rules.economy.gas.extraDataGas

/-- `EvmStateReader.MaxGasLimit` -/
def maxGasLimit (rules : Rules) : UInt64 :=
  if rules.economy.gas.maxEventGas < maxEmptyEventGas rules then 0
  else rules.economy.gas.maxEventGas - maxEmptyEventGas rules

/-! ## The overhead in natural numbers -/

/-- The most that an event may cost without transactions. -/
def exactEmptyEventGas (rules : Rules) : ℕ :=
  rules.economy.gas.eventGas.toNat +
    (rules.dag.maxParents.toNat - rules.dag.maxFreeParents.toNat) *
      rules.economy.gas.parentGas.toNat +
    rules.dag.maxExtraData.toNat * rules.economy.gas.extraDataGas.toNat

/-- An event with just one transaction, and with no more parents and bytes than the rules allow. -/
structure SingleTx (rules : Rules) (tx : Transaction) (e : EventPayload) : Prop where
  txs : e.txs = [tx]
  parents : e.parents.length ≤ rules.dag.maxParents.toNat
  extra : e.extra.length ≤ rules.dag.maxExtraData.toNat

section

variable {rules : Rules} {tx : Transaction} {e : EventPayload}

theorem toNat_maxEmptyEventGas (hfree : rules.dag.maxFreeParents ≤ rules.dag.maxParents)
    (hgas : exactEmptyEventGas rules < 2 ^ 64) :
    (maxEmptyEventGas rules).toNat = exactEmptyEventGas rules := by
  rw [maxEmptyEventGas, UInt64.toNat_add, UInt64.toNat_add, UInt64.toNat_mul, UInt64.toNat_mul,
    UInt32.toNat_toUInt64, UInt32.toNat_toUInt64, UInt32.toNat_sub_of_le _ _ hfree]
  rw [exactEmptyEventGas] at hgas ⊢
  omega

/-- The gas of an event is that of its transaction, and at most the overhead beside. -/
theorem SingleTx.exactGas_le (h : SingleTx rules tx e) :
    Epochcheck.exactGas e rules ≤ tx.gas.toNat + exactEmptyEventGas rules := by
  have hparents := Nat.mul_le_mul_right rules.economy.gas.parentGas.toNat
    (Nat.sub_le_sub_right h.parents rules.dag.maxFreeParents.toNat)
  have hextra := Nat.mul_le_mul_right rules.economy.gas.extraDataGas.toNat h.extra
  rw [Epochcheck.exactGas, Epochcheck.gasOf, h.txs, List.map_singleton, List.sum_singleton,
    exactEmptyEventGas]
  omega

theorem SingleTx.toNat_calcGasPowerUsed (h : SingleTx rules tx e)
    (hgas : Epochcheck.exactGas e rules < 2 ^ 64) :
    (Epochcheck.calcGasPowerUsed e rules).toNat = Epochcheck.exactGas e rules := by
  have hparents : e.parents.length < 2 ^ 32 :=
    Nat.lt_of_le_of_lt h.parents rules.dag.maxParents.toNat_lt
  rw [Epochcheck.toNat_calcGasPowerUsed, Nat.mod_eq_of_lt hparents]
  exact Nat.mod_eq_of_lt hgas

/-- The event that costs the most. -/
def fullEvent (rules : Rules) (tx : Transaction) : EventPayload :=
  { blankEvent with
    txs := [tx]
    parents := List.replicate rules.dag.maxParents.toNat EventID.zero
    extra := List.replicate rules.dag.maxExtraData.toNat 0 }.build (copyBytes 32 []) 0

theorem singleTx_fullEvent (rules : Rules) (tx : Transaction) :
    SingleTx rules tx (fullEvent rules tx) where
  txs := rfl
  parents := List.length_replicate.le
  extra := List.length_replicate.le

theorem exactGas_fullEvent (rules : Rules) (tx : Transaction) :
    Epochcheck.exactGas (fullEvent rules tx) rules = tx.gas.toNat + exactEmptyEventGas rules := by
  have hparents : (fullEvent rules tx).parents.length = rules.dag.maxParents.toNat :=
    List.length_replicate
  have hextra : (fullEvent rules tx).extra.length = rules.dag.maxExtraData.toNat :=
    List.length_replicate
  rw [Epochcheck.exactGas, Epochcheck.gasOf, (singleTx_fullEvent rules tx).txs, List.map_singleton,
    List.sum_singleton, hparents, hextra, exactEmptyEventGas]
  omega

/-- What the pool takes leaves room for the overhead. -/
theorem toNat_maxGasLimit (hfree : rules.dag.maxFreeParents ≤ rules.dag.maxParents)
    (hgas : exactEmptyEventGas rules < 2 ^ 64) (hpos : 0 < maxGasLimit rules) :
    (maxGasLimit rules).toNat + exactEmptyEventGas rules = rules.economy.gas.maxEventGas.toNat := by
  rw [maxGasLimit] at hpos ⊢
  split at hpos
  · cases hpos
  · rename_i hle
    rw [UInt64.not_lt] at hle
    rw [if_neg (UInt64.not_lt.mpr hle), UInt64.toNat_sub_of_le _ _ hle]
    rw [UInt64.le_iff_toNat_le, toNat_maxEmptyEventGas hfree hgas] at hle
    rw [toNat_maxEmptyEventGas hfree hgas]
    omega

/-- With a larger limit there is an event that is too expensive by one. -/
theorem exists_exactGas_eq_succ (hfree : rules.dag.maxFreeParents ≤ rules.dag.maxParents)
    (hgas : exactEmptyEventGas rules < 2 ^ 64) (hpos : 0 < maxGasLimit rules) {limit : UInt64}
    (hlimit : maxGasLimit rules < limit) :
    ∃ tx e, tx.gas ≤ limit ∧ SingleTx rules tx e ∧
      Epochcheck.exactGas e rules = rules.economy.gas.maxEventGas.toNat + 1 := by
  have hmax := toNat_maxGasLimit hfree hgas hpos
  rw [UInt64.lt_iff_toNat_lt] at hlimit
  obtain ⟨gas, hsucc⟩ : ∃ gas : UInt64, gas.toNat = (maxGasLimit rules).toNat + 1 :=
    ⟨_, UInt64.toNat_ofNat_of_lt' (Nat.lt_of_le_of_lt hlimit limit.toNat_lt)⟩
  refine ⟨Epochcheck.transferWith gas, fullEvent rules _, ?_, singleTx_fullEvent rules _, ?_⟩
  · rw [UInt64.le_iff_toNat_le]
    exact hsucc.trans_le hlimit
  · rw [exactGas_fullEvent, ← hmax]
    exact (congrArg (· + exactEmptyEventGas rules) hsucc).trans (Nat.add_right_comm _ _ _)

end

/-- **The limit of the pool is the limit of events.** If `MaxGasLimit` is positive, then every
event with a transaction of at most that gas, and with at most `MaxParents` parents and
`MaxExtraData` bytes, uses at most `MaxEventGas`, in sums that do not wrap; and there is no
larger limit of which this is true. -/
theorem isGreatest_maxGasLimit (rules : Rules)
    (hfree : rules.dag.maxFreeParents ≤ rules.dag.maxParents)
    (hgas : exactEmptyEventGas rules < 2 ^ 64) (hpos : 0 < maxGasLimit rules) :
    IsGreatest
      {limit : UInt64 | ∀ tx : Transaction, tx.gas ≤ limit →
        ∀ e : EventPayload, SingleTx rules tx e → Epochcheck.exactGas e rules < 2 ^ 64 ∧
          Epochcheck.calcGasPowerUsed e rules ≤ rules.economy.gas.maxEventGas}
      (maxGasLimit rules) := by
  have hlimit := toNat_maxGasLimit hfree hgas hpos
  have hmax := rules.economy.gas.maxEventGas.toNat_lt
  refine ⟨?_, ?_⟩
  · intro tx htx e he
    rw [UInt64.le_iff_toNat_le] at htx
    have hexact := he.exactGas_le
    have hlt : Epochcheck.exactGas e rules < 2 ^ 64 := by omega
    rw [UInt64.le_iff_toNat_le, he.toNat_calcGasPowerUsed hlt]
    exact ⟨hlt, by omega⟩
  · intro limit hfits
    by_contra hlarger
    rw [UInt64.not_le] at hlarger
    obtain ⟨tx, e, htx, he, hexact⟩ := exists_exactGas_eq_succ hfree hgas hpos hlarger
    obtain ⟨hlt, hle⟩ := hfits tx htx e he
    rw [UInt64.le_iff_toNat_le, he.toNat_calcGasPowerUsed hlt] at hle
    omega

/-- With the rules of the main net. -/
theorem isGreatest_maxGasLimit_mainNetRules :
    (maxGasLimit mainNetRules).toNat + exactEmptyEventGas mainNetRules =
        mainNetRules.economy.gas.maxEventGas.toNat ∧
      ∀ tx : Transaction, tx.gas ≤ maxGasLimit mainNetRules → ∀ e : EventPayload,
        SingleTx mainNetRules tx e →
          Epochcheck.calcGasPowerUsed e mainNetRules ≤ mainNetRules.economy.gas.maxEventGas := by
  refine ⟨by decide, ?_⟩
  intro tx htx e he
  exact ((isGreatest_maxGasLimit mainNetRules (by decide) (by decide) (by decide)).1 tx htx e he).2

end Zilionixx
