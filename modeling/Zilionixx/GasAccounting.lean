import Zilionixx.StateTransition

/-!
# Gas and fees of a state transition

A message buys all its gas from the pool and pays for it. What the interpreter leaves of
it, less a tenth, and the refund go back to the pool and to the sender. The counters of
`state_transition.go` and `gaspool.go` are machine words; `transitionDbChecked` stops
where one of them would wrap, and never does.

A message that is refused because its gas does not cover the intrinsic gas has bought its
gas by then, and it stays bought. It gets no receipt, so the pool of a batch goes down by
more than the receipts say.
-/

namespace Zilionixx

/-- Addition of `uint64`; `none` if it wraps. -/
def checkedAdd (a b : UInt64) : Option UInt64 :=
  if a.toNat + b.toNat < 2 ^ 64 then some (a + b) else none

/-- Subtraction of `uint64`; `none` if it wraps. -/
def checkedSub (a b : UInt64) : Option UInt64 :=
  if b ≤ a then some (a - b) else none

theorem checkedAdd_of_lt {a b : UInt64} (h : a.toNat + b.toNat < 2 ^ 64) :
    checkedAdd a b = some (a + b) := if_pos h

theorem checkedSub_of_le {a b : UInt64} (h : b ≤ a) : checkedSub a b = some (a - b) := if_pos h

theorem toNat_add_of_lt {a b : UInt64} (h : a.toNat + b.toNat < 2 ^ 64) :
    (a + b).toNat = a.toNat + b.toNat := by
  rw [UInt64.toNat_add, Nat.mod_eq_of_lt h]

namespace VM

variable (V : VM)

/-! ## Checked arithmetic -/

/-- `refundGas` and `gasUsed` -/
def refundGasChecked (msg : Message) (gas : UInt64) (s : V.StateDB) (gp : UInt64) :
    Option (V.StateDB × UInt64 × UInt64) := do
  let gasUsed ← checkedSub msg.gas gas
  let refund := gasUsed / 2
  let refund := if refund > V.getRefund s then V.getRefund s else refund
  let gas ← checkedAdd gas refund
  let s := V.addBalance s msg.sender (gas.toNat * msg.gasPrice)
  let gp ← checkedAdd gp gas
  let gasUsed ← checkedSub msg.gas gas
  pure (s, gp, gasUsed)

/-- The charge of 10% of the gas that is not used. -/
def chargeChecked (msg : Message) (gas : UInt64) : Option UInt64 :=
  if msg.sender = zeroAddress then some gas else checkedSub gas (gas / 10)

/-- `TransitionDb`, after the gas is bought. -/
def spendChecked (ctx : BlockCtx) (net : Rules) (msg : Message) (s : V.StateDB) (gp : UInt64) :
    Option (V.StateDB × UInt64 × Except TxError (UInt64 × Bool)) :=
  match intrinsicGas msg.data msg.accessList msg.toAddress.isNone with
  | .error err => some (s, gp, .error (.check err))
  | .ok gas =>
    if msg.gas < gas then some (s, gp, .error .intrinsicGas)
    else do
      let gas ← checkedSub msg.gas gas
      let (s, gas, failed) := V.execute ctx net msg gas s
      let gas ← chargeChecked msg gas
      let (s, gp, usedGas) ← V.refundGasChecked msg gas s gp
      pure (s, gp, .ok (usedGas, failed))

/-- `TransitionDb` -/
def transitionDbChecked (ctx : BlockCtx) (net : Rules) (msg : Message) (s : V.StateDB)
    (gp : UInt64) : Option (V.StateDB × UInt64 × Except TxError (UInt64 × Bool)) :=
  match V.preCheck msg s gp with
  | .error err => some (s, gp, .error err)
  | .ok (s, _) => do
    let gp ← checkedSub gp msg.gas
    V.spendChecked ctx net msg s gp

/-! ## A single message -/

/-- The interpreter returns at most the gas it is given. -/
structure Frugal : Prop where
  call_le : ∀ ctx net msg gas s, (V.call ctx net msg gas s).2.1 ≤ gas
  create_le : ∀ ctx net msg gas s, (V.create ctx net msg gas s).2.1 ≤ gas

/-- Balances are exact. -/
structure ExactBalances : Prop where
  balance_subBalance : ∀ s a x, V.getBalance (V.subBalance s a x) a = V.getBalance s a - x
  balance_addBalance : ∀ s a x, V.getBalance (V.addBalance s a x) a = V.getBalance s a + x

/-- The gas of a message covers its intrinsic gas. -/
def coversIntrinsicGas (msg : Message) : Bool :=
  match intrinsicGas msg.data msg.accessList msg.toAddress.isNone with
  | .error _ => false
  | .ok gas => gas ≤ msg.gas

/-- The state when the gas of a message is bought. -/
def bought (msg : Message) (s : V.StateDB) : V.StateDB :=
  V.subBalance s msg.sender (msg.gas.toNat * msg.gasPrice)

variable {V} {ctx : BlockCtx} {net : Rules} {msg : Message} {s s' : V.StateDB}
  {gp gp' gas usedGas : UInt64}

theorem Frugal.execute_le (hfrugal : V.Frugal) (ctx : BlockCtx) (net : Rules) (msg : Message)
    (gas : UInt64) (s : V.StateDB) : (V.execute ctx net msg gas s).2.1 ≤ gas := by
  unfold execute
  cases msg.toAddress with
  | none => exact hfrugal.create_le ..
  | some _ => exact hfrugal.call_le ..

theorem sub_le {a b : UInt64} (h : b ≤ a) : a - b ≤ a := by
  rw [UInt64.le_iff_toNat_le, UInt64.toNat_sub_of_le _ _ h]
  exact Nat.sub_le ..

theorem div_le (a b : UInt64) : a / b ≤ a := by
  rw [UInt64.le_iff_toNat_le, UInt64.toNat_div]
  exact Nat.div_le_self ..

theorem chargeChecked_eq (msg : Message) (gas : UInt64) :
    chargeChecked msg gas = some (if msg.sender = zeroAddress then gas else gas - gas / 10) := by
  unfold chargeChecked
  split
  · rfl
  · exact checkedSub_of_le (div_le ..)

theorem charge_le (msg : Message) (gas : UInt64) :
    (if msg.sender = zeroAddress then gas else gas - gas / 10) ≤ gas := by
  split
  · exact UInt64.le_refl _
  · exact sub_le (div_le ..)

/-- The refund counter is capped, so that a message gets back at most what it has bought. -/
theorem add_refund_le (hgas : gas ≤ msg.gas) (counter : UInt64) :
    gas.toNat + (if (msg.gas - gas) / 2 > counter then counter else (msg.gas - gas) / 2).toNat ≤
      msg.gas.toNat := by
  have hle := UInt64.le_iff_toNat_le.mp hgas
  have hhalf : ((msg.gas - gas) / 2).toNat = (msg.gas.toNat - gas.toNat) / 2 := by
    rw [UInt64.toNat_div, UInt64.toNat_sub_of_le _ _ hgas]
    rfl
  split
  · rename_i hcapped
    have := UInt64.lt_iff_toNat_lt.mp hcapped
    omega
  · omega

/-- A message gets back at most the gas that it has bought, and the pool can take it. -/
theorem refundGas_of_le (hgas : gas ≤ msg.gas) (hpool : gp.toNat + msg.gas.toNat < 2 ^ 64) :
    ∃ left, left ≤ msg.gas ∧
      V.refundGas msg gas s gp =
        some (V.addBalance s msg.sender (left.toNat * msg.gasPrice), gp + left, msg.gas - left) ∧
      V.refundGasChecked msg gas s gp = V.refundGas msg gas s gp := by
  have hrefund := add_refund_le hgas (V.getRefund s)
  unfold refundGas refundGasChecked
  rw [checkedSub_of_le hgas]
  simp only [Option.bind_eq_bind, Option.bind_some]
  generalize (if (msg.gas - gas) / 2 > V.getRefund s then V.getRefund s
    else (msg.gas - gas) / 2) = refund at hrefund ⊢
  have hlt := msg.gas.toNat_lt
  have hsum : (gas + refund).toNat = gas.toNat + refund.toNat := toNat_add_of_lt (by omega)
  have hle : gas + refund ≤ msg.gas := by
    rw [UInt64.le_iff_toNat_le, hsum]
    exact hrefund
  have hfits : ¬gp > maxUint64 - (gas + refund) := by
    have hmax : maxUint64.toNat = 2 ^ 64 - 1 := rfl
    have hmax' : gas + refund ≤ maxUint64 := by
      rw [UInt64.le_iff_toNat_le]
      omega
    rw [gt_iff_lt, UInt64.not_lt, UInt64.le_iff_toNat_le, UInt64.toNat_sub_of_le _ _ hmax']
    omega
  refine ⟨gas + refund, hle, if_neg hfits, ?_⟩
  rw [if_neg hfits, checkedAdd_of_lt (by omega)]
  simp only [Option.bind_some]
  rw [checkedAdd_of_lt (by omega)]
  simp only [Option.bind_some]
  rw [checkedSub_of_le hle]
  rfl

theorem preCheck_le (h : V.preCheck msg s gp = .ok (s', gp')) :
    s' = V.bought msg s ∧ gp' = gp - msg.gas ∧ msg.gas ≤ gp := by
  unfold preCheck buyGas at h
  simp only at h
  split at h
  · cases h
  · split at h
    · cases h
    · split at h
      · cases h
      · split at h
        · cases h
        · rename_i hpool
          cases h
          exact ⟨rfl, rfl, UInt64.not_lt.mp hpool⟩

/-- Everything that `TransitionDb` can do. -/
inductive Transits (V : VM) (ctx : BlockCtx) (net : Rules) (msg : Message) (s : V.StateDB)
    (gp : UInt64) : V.StateDB × UInt64 × Except TxError (UInt64 × Bool) → Prop where
  /-- the message is refused and nothing happens -/
  | refused {err : TxError} : V.preCheck msg s gp = .error err →
      Transits V ctx net msg s gp (s, gp, .error err)
  /-- the message is refused when its gas is bought -/
  | unpaid {err : TxError} {gp' : UInt64} : V.preCheck msg s gp = .ok (V.bought msg s, gp') →
      msg.gas ≤ gp → coversIntrinsicGas msg = false →
      Transits V ctx net msg s gp (V.bought msg s, gp - msg.gas, .error err)
  /-- the message is executed; some gas is left and goes back -/
  | executed {gas left gp' : UInt64} : V.preCheck msg s gp = .ok (V.bought msg s, gp') →
      msg.gas ≤ gp →
      intrinsicGas msg.data msg.accessList msg.toAddress.isNone = .ok gas → gas ≤ msg.gas →
      left ≤ msg.gas →
      Transits V ctx net msg s gp
        (V.addBalance (V.execute ctx net msg (msg.gas - gas) (V.bought msg s)).1 msg.sender
            (left.toNat * msg.gasPrice),
          gp - msg.gas + left,
          .ok (msg.gas - left, (V.execute ctx net msg (msg.gas - gas) (V.bought msg s)).2.2))

theorem transits (hfrugal : V.Frugal) (ctx : BlockCtx) (net : Rules) (msg : Message)
    (s : V.StateDB) (gp : UInt64) :
    ∃ out, V.transitionDb ctx net msg s gp = some out ∧
      V.transitionDbChecked ctx net msg s gp = some out ∧ Transits V ctx net msg s gp out := by
  unfold transitionDb transitionDbChecked spendChecked
  cases hcheck : V.preCheck msg s gp with
  | error err => exact ⟨_, rfl, rfl, .refused hcheck⟩
  | ok bought =>
    obtain ⟨hbought, hgp, hpool⟩ := preCheck_le hcheck
    obtain ⟨s₁, gp₁⟩ := bought
    subst hbought hgp
    simp only [checkedSub_of_le hpool, Option.bind_eq_bind, Option.bind_some]
    cases hintrinsic : intrinsicGas msg.data msg.accessList msg.toAddress.isNone with
    | error err =>
      exact ⟨_, rfl, rfl, .unpaid hcheck hpool (by simp [coversIntrinsicGas, hintrinsic])⟩
    | ok gas =>
      by_cases hlow : msg.gas < gas
      · simp only [if_pos hlow]
        exact ⟨_, rfl, rfl, .unpaid hcheck hpool
          (by simpa [coversIntrinsicGas, hintrinsic] using hlow)⟩
      · have hgas : gas ≤ msg.gas := UInt64.not_lt.mp hlow
        have hpool' : (gp - msg.gas).toNat + msg.gas.toNat < 2 ^ 64 := by
          have := gp.toNat_lt
          have := UInt64.le_iff_toNat_le.mp hpool
          rw [UInt64.toNat_sub_of_le _ _ hpool]
          omega
        have hleft := hfrugal.execute_le ctx net msg (msg.gas - gas) (V.bought msg s)
        simp only [if_neg hlow, checkedSub_of_le hgas, Option.bind_some, chargeChecked_eq]
        obtain ⟨left, hle, hrefund, hchecked⟩ := refundGas_of_le
          (s := (V.execute ctx net msg (msg.gas - gas) (V.bought msg s)).1)
          (UInt64.le_trans (charge_le msg _) (UInt64.le_trans hleft (sub_le hgas))) hpool'
        rw [hchecked, hrefund]
        exact ⟨_, rfl, rfl, .executed hcheck hpool hintrinsic hgas hle⟩

/-! ## What is used and what is paid -/

/-- The gas that a message buys though it is refused. -/
def lostGas (V : VM) (msg : Message) (s : V.StateDB) (gp : UInt64) : ℕ :=
  match V.preCheck msg s gp with
  | .error _ => 0
  | .ok _ => if coversIntrinsicGas msg then 0 else msg.gas.toNat

/-- The gas that a result says is used. -/
def usedGasOf (result : Except TxError (UInt64 × Bool)) : ℕ :=
  match result with
  | .error _ => 0
  | .ok (usedGas, _) => usedGas.toNat

/-- What leaves the pool is used or lost. -/
theorem Transits.pool {result : Except TxError (UInt64 × Bool)}
    (h : V.Transits ctx net msg s gp (s', gp', result)) :
    gp'.toNat + usedGasOf result + V.lostGas msg s gp = gp.toNat := by
  cases h with
  | refused hcheck => simp [usedGasOf, lostGas, hcheck]
  | unpaid hcheck hpool hcovers =>
    have hle := UInt64.le_iff_toNat_le.mp hpool
    simp only [usedGasOf, lostGas, hcheck, hcovers, UInt64.toNat_sub_of_le _ _ hpool,
      Bool.false_eq_true, if_false]
    omega
  | executed hcheck hpool hintrinsic hgas hleft =>
    have hle := UInt64.le_iff_toNat_le.mp hpool
    have hleft' := UInt64.le_iff_toNat_le.mp hleft
    have hlt := gp.toNat_lt
    have hcovers : coversIntrinsicGas msg = true := by
      simpa [coversIntrinsicGas, hintrinsic] using hgas
    have hsub := UInt64.toNat_sub_of_le _ _ hpool
    rw [toNat_add_of_lt (by omega)]
    simp only [usedGasOf, lostGas, hcheck, hcovers, UInt64.toNat_sub_of_le _ _ hleft, if_true]
    omega

/-- The change of the sender's balance by the execution alone. -/
def evmEffect (V : VM) (ctx : BlockCtx) (net : Rules) (msg : Message) (gas : UInt64)
    (s : V.StateDB) : ℤ :=
  V.getBalance (V.execute ctx net msg gas s).1 msg.sender - V.getBalance s msg.sender

/-- The result of a message is exact: what the pool has lost is used, and it is paid for. -/
structure Accounted (V : VM) (ctx : BlockCtx) (net : Rules) (msg : Message) (s : V.StateDB)
    (gp : UInt64) (s' : V.StateDB) (gp' usedGas : UInt64) : Prop where
  used_le : usedGas ≤ msg.gas
  pool : gp'.toNat + usedGas.toNat = gp.toNat
  balance : ∃ gas, intrinsicGas msg.data msg.accessList msg.toAddress.isNone = .ok gas ∧
    V.getBalance s' msg.sender = V.getBalance s msg.sender +
      V.evmEffect ctx net msg (msg.gas - gas) (V.bought msg s) - usedGas.toNat * msg.gasPrice

theorem Transits.accounted (hbalances : V.ExactBalances) {failed : Bool}
    (h : V.Transits ctx net msg s gp (s', gp', .ok (usedGas, failed))) :
    V.Accounted ctx net msg s gp s' gp' usedGas := by
  have hpool := h.pool
  cases h with
  | @executed gas left _ hcheck _ hintrinsic hgas hleft =>
    have hcovers : coversIntrinsicGas msg = true := by
      simpa [coversIntrinsicGas, hintrinsic] using hgas
    refine ⟨sub_le hleft, ?_, gas, hintrinsic, ?_⟩
    · simpa [usedGasOf, lostGas, hcheck, hcovers] using hpool
    · rw [hbalances.balance_addBalance, evmEffect, bought, hbalances.balance_subBalance,
        UInt64.toNat_sub_of_le _ _ hleft, Nat.cast_sub (UInt64.le_iff_toNat_le.mp hleft)]
      ring

/-! ## Intrinsic gas -/

/-- The data and the access list of a message, counted. -/
def entries (msg : Message) : ℕ :=
  msg.data.length + (msg.accessList.getD []).length +
    ((msg.accessList.getD []).map fun t => t.storageKeys.length).sum

/-- The intrinsic gas of a message as a number. -/
def intrinsicSum (msg : Message) : ℕ :=
  (if msg.toAddress.isNone then 53000 else 21000) +
    16 * msg.data.countP (· ≠ 0) + 4 * (msg.data.length - msg.data.countP (· ≠ 0)) +
    2400 * (msg.accessList.getD []).length +
    1900 * ((msg.accessList.getD []).map fun t => t.storageKeys.length).sum

/-- Adding the price of `n` entries, when the sum fits. -/
theorem toNat_add_mul (gas n price : UInt64) (h : gas.toNat + n.toNat * price.toNat < 2 ^ 64) :
    (gas + n * price).toNat = gas.toNat + n.toNat * price.toNat := by
  rw [UInt64.toNat_add, UInt64.toNat_mul, Nat.mod_eq_of_lt (a := n.toNat * price.toNat) (by omega),
    Nat.mod_eq_of_lt h]

/-- The guards of `IntrinsicGas` let a sum pass that fits. -/
theorem not_lt_of_fits {gas n price : UInt64} (hprice : 0 < price.toNat)
    (h : gas.toNat + n.toNat * price.toNat < 2 ^ 64) : ¬(maxUint64 - gas) / price < n := by
  have hmax : (maxUint64 - gas).toNat = 2 ^ 64 - 1 - gas.toNat :=
    UInt64.toNat_sub_of_le _ _ (UInt64.le_iff_toNat_le.mpr (by show gas.toNat ≤ 2 ^ 64 - 1; omega))
  rw [UInt64.lt_iff_toNat_lt, UInt64.toNat_div, hmax, Nat.not_lt, Nat.le_div_iff_mul_le hprice]
  omega

theorem dataGas_eq {gas : UInt64} {data : List UInt8} (hgas : gas.toNat ≤ 53000)
    (hdata : data.length ≤ 2 ^ 48) :
    ∃ gas', dataGas gas data = .ok gas' ∧ gas'.toNat =
      gas.toNat + 16 * data.countP (· ≠ 0) + 4 * (data.length - data.countP (· ≠ 0)) := by
  have hcount : data.countP (· ≠ 0) ≤ data.length := List.countP_le_length
  unfold dataGas
  generalize data.countP (· ≠ 0) = nz at hcount ⊢
  have hnz : (UInt64.ofNat nz).toNat = nz := UInt64.toNat_ofNat_of_lt' (by rw [UInt64.size]; omega)
  have hlength : (UInt64.ofNat data.length).toNat = data.length :=
    UInt64.toNat_ofNat_of_lt' (by rw [UInt64.size]; omega)
  have hz : (UInt64.ofNat data.length - UInt64.ofNat nz).toNat = data.length - nz := by
    rw [UInt64.toNat_sub_of_le _ _ (by rw [UInt64.le_iff_toNat_le]; omega), hnz, hlength]
  have h16 : txDataNonZeroGas.toNat = 16 := rfl
  have h4 : txDataZeroGas.toNat = 4 := rfl
  have hfirst := toNat_add_mul gas (UInt64.ofNat nz) txDataNonZeroGas (by rw [hnz, h16]; omega)
  have hsecond := toNat_add_mul (gas + UInt64.ofNat nz * txDataNonZeroGas)
    (UInt64.ofNat data.length - UInt64.ofNat nz) txDataZeroGas
    (by rw [hfirst, hz, hnz, h16, h4]; omega)
  refine ⟨_, ?_, hsecond.trans (by rw [hfirst, hz, hnz, h16, h4]; omega)⟩
  simp only
  rw [if_neg (not_lt_of_fits (by decide) (by rw [hnz, h16]; omega)),
    if_neg (not_lt_of_fits (by decide) (by rw [hfirst, hz, hnz, h16, h4]; omega))]

/-- The intrinsic gas is an exact sum for every message that fits into memory. -/
theorem intrinsicGas_eq {msg : Message} (h : entries msg ≤ 2 ^ 48) :
    ∃ gas, intrinsicGas msg.data msg.accessList msg.toAddress.isNone = .ok gas ∧
      gas.toNat = intrinsicSum msg := by
  unfold entries at h
  have hstart : (if msg.toAddress.isNone then txGasContractCreation else txGas).toNat =
      if msg.toAddress.isNone then 53000 else 21000 := by
    split <;> rfl
  have hstart_le : (if msg.toAddress.isNone then 53000 else 21000) ≤ 53000 := by
    split <;> omega
  unfold intrinsicGas intrinsicSum
  generalize (if msg.toAddress.isNone then txGasContractCreation else txGas) = start at hstart ⊢
  obtain ⟨gas, hgas, hsum⟩ : ∃ gas,
      (if msg.data.length > 0 then dataGas start msg.data else .ok start) = .ok gas ∧
        gas.toNat = start.toNat + 16 * msg.data.countP (· ≠ 0) +
          4 * (msg.data.length - msg.data.countP (· ≠ 0)) := by
    split
    · exact dataGas_eq (by omega) (by omega)
    · rename_i hnone
      rw [List.eq_nil_of_length_eq_zero (Nat.eq_zero_of_not_pos hnone)]
      exact ⟨start, rfl, rfl⟩
  have hcount : msg.data.countP (· ≠ 0) ≤ msg.data.length := List.countP_le_length
  simp only [hgas]
  cases haccess : msg.accessList with
  | none => exact ⟨gas, rfl, by simp [hsum, hstart]⟩
  | some list =>
    rw [haccess, Option.getD_some] at h
    refine ⟨_, rfl, ?_⟩
    rw [Option.getD_some]
    generalize (list.map fun t => t.storageKeys.length).sum = keys at h ⊢
    have hlength : (UInt64.ofNat list.length).toNat = list.length :=
      UInt64.toNat_ofNat_of_lt' (by rw [UInt64.size]; omega)
    have hkeys : (UInt64.ofNat keys).toNat = keys :=
      UInt64.toNat_ofNat_of_lt' (by rw [UInt64.size]; omega)
    have haddress : txAccessListAddressGas.toNat = 2400 := rfl
    have hkey : txAccessListStorageKeyGas.toNat = 1900 := rfl
    have hfirst := toNat_add_mul gas (UInt64.ofNat list.length) txAccessListAddressGas
      (by rw [hlength, haddress]; omega)
    rw [hlength, haddress] at hfirst
    rw [toNat_add_mul _ _ _ (by rw [hfirst, hkeys, hkey]; omega), hfirst, hkeys, hkey, hsum, hstart]
    omega

/-! ## A batch of transactions -/

/-- The gas that the messages of a batch buy though they are refused. -/
def lostGasIn (V : VM) (W : World) (ctx : BlockCtx) (net : Rules) (internal : Bool) :
    List BlockTx → ℕ → Processing V.transition → ℕ
  | [], _, _ => 0
  | tx :: txs, i, p =>
    (V.message net internal tx).elim 0 (fun msg => V.lostGas msg p.statedb p.gp) +
      (applyTransaction W ctx net internal p i tx).elim 0
        (lostGasIn V W ctx net internal txs (i + 1))

/-- The gas of receipts in all, as a number. -/
def totalGasUsed (receipts : List Receipt) : ℕ := (receipts.map fun r => r.gasUsed.toNat).sum

theorem totalGasUsed_append (receipts receipts' : List Receipt) :
    totalGasUsed (receipts ++ receipts') = totalGasUsed receipts + totalGasUsed receipts' := by
  rw [totalGasUsed, List.map_append, List.sum_append]
  rfl

variable {W : World} {internal : Bool} {tx : BlockTx} {txs : List BlockTx} {i : ℕ}
  {p p' : Processing V.transition}

theorem pool_applyTransaction (hfrugal : V.Frugal)
    (h : applyTransaction W ctx net internal p i tx = some p') :
    ∃ receipts, p'.receipts = p.receipts ++ receipts ∧
      p'.gp.toNat + totalGasUsed receipts +
        (V.message net internal tx).elim 0 (fun msg => V.lostGas msg p.statedb p.gp) =
          p.gp.toNat := by
  obtain ⟨⟨statedb, gp, result⟩, hmessage, h⟩ := Option.bind_eq_some_iff.mp h
  obtain ⟨msg, hmsg, hmessage⟩ := Option.bind_eq_some_iff.mp hmessage
  obtain ⟨out, htransition, hmessage⟩ := Option.bind_eq_some_iff.mp hmessage
  obtain ⟨_, hsome, -, hout⟩ := transits hfrugal ctx net msg p.statedb p.gp
  cases htransition.symm.trans hsome
  obtain ⟨s₁, gp₁, outcome⟩ := out
  have hpool := hout.pool
  rw [hmsg, Option.elim_some]
  cases outcome with
  | error err =>
    cases hmessage
    cases h
    exact ⟨[], (List.append_nil _).symm, hpool⟩
  | ok used =>
    cases hmessage
    cases h
    exact ⟨_, rfl, hpool⟩

/-- What leaves the pool in a batch is used, as the receipts say, or lost. -/
theorem pool_process (hfrugal : V.Frugal) (h : process W ctx net internal txs i p = some p') :
    ∃ receipts, p'.receipts = p.receipts ++ receipts ∧
      p'.gp.toNat + totalGasUsed receipts + V.lostGasIn W ctx net internal txs i p =
        p.gp.toNat := by
  induction txs generalizing i p with
  | nil =>
    cases h
    exact ⟨[], (List.append_nil _).symm, rfl⟩
  | cons tx txs ih =>
    obtain ⟨p₁, hstep, h⟩ := Option.bind_eq_some_iff.mp h
    obtain ⟨receipts₁, hreceipts₁, hpool₁⟩ := pool_applyTransaction hfrugal hstep
    obtain ⟨receipts, hreceipts, hpool⟩ := ih h
    refine ⟨receipts₁ ++ receipts, ?_, ?_⟩
    · rw [hreceipts, hreceipts₁, List.append_assoc]
    · rw [totalGasUsed_append, lostGasIn, hstep, Option.elim_some]
      omega

/-- Nothing is lost if every message covers its intrinsic gas. -/
theorem lostGasIn_eq_zero
    (h : ∀ tx ∈ txs, ∀ msg, V.message net internal tx = some msg → coversIntrinsicGas msg = true)
    (i : ℕ) (p : Processing V.transition) : V.lostGasIn W ctx net internal txs i p = 0 := by
  induction txs generalizing i p with
  | nil => rfl
  | cons tx txs ih =>
    have hfirst :
        (V.message net internal tx).elim 0 (fun msg => V.lostGas msg p.statedb p.gp) = 0 := by
      cases hmsg : V.message net internal tx with
      | none => rfl
      | some msg =>
        rw [Option.elim_some, lostGas, h tx List.mem_cons_self msg hmsg]
        split <;> rfl
    have hrest : (applyTransaction W ctx net internal p i tx).elim 0
        (V.lostGasIn W ctx net internal txs (i + 1)) = 0 := by
      cases applyTransaction W ctx net internal p i tx with
      | none => rfl
      | some p₁ => exact ih (fun tx hmem => h tx (List.mem_cons_of_mem _ hmem)) _ _
    rw [lostGasIn, hfirst, hrest]

/-- Transactions that pass the basic checks of events cover their intrinsic gas. -/
theorem covers_of_validateTx {t : Transaction} (h : Basiccheck.validateTx t = .ok ())
    (a : Address) (checkNonce : Bool) : coversIntrinsicGas (t.newMessage a checkNonce) = true := by
  rw [Basiccheck.validateTx, Checked.seq_eq_ok] at h
  obtain ⟨-, h⟩ := h
  unfold coversIntrinsicGas
  change (match intrinsicGas t.data t.kind.accessListOf t.toAddress.isNone with
    | .error _ => false
    | .ok gas => decide (gas ≤ t.gas)) = true
  cases hgas : intrinsicGas t.data t.kind.accessListOf t.toAddress.isNone with
  | error err =>
    rw [hgas] at h
    cases h
  | ok gas =>
    rw [hgas] at h
    simpa [Checked.refuse] using h

theorem message_event {t : Transaction} (h : V.message net internal (.event t) = some msg) :
    ∃ a checkNonce, msg = t.newMessage a checkNonce := by
  rw [message] at h
  split at h
  · cases h
    exact ⟨_, _, rfl⟩
  · obtain ⟨a, -, hmsg⟩ := asMessage_eq_some h
    exact ⟨a, true, hmsg⟩

end VM

open VM

/-- **Gas accounting.** A transition never stops, and no counter of gas wraps. If it returns
a result, at most the gas of the message is used, the pool has decreased by the used gas,
and the sender has paid for just that. In a batch, the pool has decreased by the gas of the
receipts exactly if no refused message has bought gas; so it is if the messages cover their
intrinsic gas, as the transactions of checked events do. -/
theorem gas_accounted (V : VM) (hfrugal : V.Frugal) (hbalances : V.ExactBalances) :
    (∀ ctx net msg s gp, ∃ out, V.transitionDb ctx net msg s gp = some out ∧
      V.transitionDbChecked ctx net msg s gp = some out) ∧
    (∀ msg, entries msg ≤ 2 ^ 48 →
      ∃ gas, intrinsicGas msg.data msg.accessList msg.toAddress.isNone = .ok gas ∧
        gas.toNat = intrinsicSum msg) ∧
    (∀ ctx net msg s gp s' gp' usedGas failed,
      V.transitionDb ctx net msg s gp = some (s', gp', .ok (usedGas, failed)) →
      V.Accounted ctx net msg s gp s' gp' usedGas) ∧
    ∀ (W : World) ctx net internal txs i (p p' : Processing V.transition),
      process W ctx net internal txs i p = some p' →
      (∃ receipts, p'.receipts = p.receipts ++ receipts ∧
        p'.gp.toNat + totalGasUsed receipts + V.lostGasIn W ctx net internal txs i p = p.gp.toNat ∧
        (p'.gp.toNat + totalGasUsed receipts = p.gp.toNat ↔
          V.lostGasIn W ctx net internal txs i p = 0)) ∧
      ((∀ tx ∈ txs, ∀ msg, V.message net internal tx = some msg → coversIntrinsicGas msg = true) →
        V.lostGasIn W ctx net internal txs i p = 0) ∧
      ((∀ tx ∈ txs, ∃ t, tx = .event t ∧ Basiccheck.validateTx t = .ok ()) →
        V.lostGasIn W ctx net internal txs i p = 0) := by
  refine ⟨?_, fun msg => intrinsicGas_eq, ?_, ?_⟩
  · intro ctx net msg s gp
    obtain ⟨out, hout, hchecked, -⟩ := transits hfrugal ctx net msg s gp
    exact ⟨out, hout, hchecked⟩
  · intro ctx net msg s gp s' gp' usedGas failed h
    obtain ⟨out, hout, -, htransits⟩ := transits hfrugal ctx net msg s gp
    cases h.symm.trans hout
    exact htransits.accounted hbalances
  · intro W ctx net internal txs i p p' h
    obtain ⟨receipts, hreceipts, hpool⟩ := pool_process hfrugal h
    refine ⟨⟨receipts, hreceipts, hpool, ?_⟩, fun hcovers => lostGasIn_eq_zero hcovers i p, ?_⟩
    · constructor <;> omega
    · intro hchecked
      refine lostGasIn_eq_zero (fun tx hmem msg hmsg => ?_) i p
      obtain ⟨t, rfl, hvalid⟩ := hchecked tx hmem
      obtain ⟨a, checkNonce, rfl⟩ := message_event hmsg
      exact covers_of_validateTx hvalid a checkNonce

theorem payVM_frugal : payVM.Frugal where
  call_le ctx net msg gas s := by
    unfold payVM
    dsimp only
    split <;> exact UInt64.le_refl _
  create_le ctx net msg gas s := by
    unfold payVM
    dsimp only
    split <;> exact UInt64.le_refl _

theorem payVM_exactBalances : payVM.ExactBalances where
  balance_subBalance := payVM_laws.balance_subBalance
  balance_addBalance s a x := by simp [Accounts.pay]

/-- A transfer of 7 with 60000 gas: 21000 are intrinsic, and a tenth of the rest is charged. -/
theorem gas_accounted_payTx :
    ∃ s' gp' failed, payVM.transitionDb ⟨1, 1, EventID.zero⟩ mainNetRules
        ((payTx (some zeroAddress) 7).newMessage payer true) payStart.statedb payStart.gp =
          some (s', gp', .ok (24900, failed)) ∧
      payVM.getBalance s' payer = 1000000 - 7 - 24900 ∧ gp'.toNat + 24900 = 1000000 := by
  have hrun : (payVM.transitionDb ⟨1, 1, EventID.zero⟩ mainNetRules
      ((payTx (some zeroAddress) 7).newMessage payer true) payStart.statedb payStart.gp).any
        (fun out => out.2.2.toOption.any (·.1 = 24900)) = true := by
    decide +kernel
  obtain ⟨⟨s', gp', result⟩, hrun, hresult⟩ := (Option.any_eq_true _ _).mp hrun
  rcases result with err | ⟨usedGas, failed⟩
  · cases hresult
  obtain rfl : usedGas = 24900 := of_decide_eq_true hresult
  obtain ⟨-, -, haccounted, -⟩ := gas_accounted payVM payVM_frugal payVM_exactBalances
  obtain ⟨-, hpool, gas, hgas, hbalance⟩ := haccounted _ _ _ _ _ _ _ _ _ hrun
  refine ⟨s', gp', failed, hrun, ?_, hpool⟩
  cases hgas
  exact hbalance.trans (by decide +kernel)

/-- A transaction with less than the intrinsic gas is skipped, but it has paid for its gas,
which has left the pool. -/
theorem gas_lost :
    payVM.Frugal ∧ payVM.ExactBalances ∧
      ∃ p', process nonceWorld ⟨1, 1, EventID.zero⟩ mainNetRules false
          [.event { payTx (some zeroAddress) 7 with gas := 20000 }] 0 payStart = some p' ∧
        p'.receipts = [] ∧ p'.skipped = [0] ∧ p'.gp = 980000 ∧
        payVM.getBalance p'.statedb payer = 980000 := by
  obtain ⟨p', hp', hreceipts, h⟩ : ∃ p', process nonceWorld ⟨1, 1, EventID.zero⟩ mainNetRules false
      [.event { payTx (some zeroAddress) 7 with gas := 20000 }] 0 payStart = some p' ∧
        p'.receipts.length = 0 ∧ p'.skipped = [0] ∧ p'.gp = 980000 ∧
        payVM.getBalance p'.statedb payer = 980000 := by
    decide +kernel
  exact ⟨payVM_frugal, payVM_exactBalances, p', hp', List.eq_nil_of_length_eq_zero hreceipts, h⟩

end Zilionixx
