import Zilionixx.EvmModule

/-!
# `evmcore.StateTransition`: applying a message

`state_transition.go`, with the messages that `Process` makes of transactions. The
accounts and the interpreter are those of go-ethereum and a parameter here (`VM`);
`VM.transition` is the transition that `StateProcessor` runs on.

A sender that cannot pay the value of a transaction is no reason to skip it. The
nonce of the sender is set before a call; with a contract creation it is up to
`Create`, which does not come to that if the value cannot be paid.
-/

namespace Zilionixx

/-- `types.Message` -/
structure Message where
  sender : Address
  toAddress : Option Address
  nonce : UInt64
  value : ℤ
  gas : UInt64
  gasPrice : ℤ
  data : List UInt8
  accessList : Option (List AccessTuple)
  checkNonce : Bool

/-- The accounts and the interpreter of go-ethereum. -/
structure VM where
  StateDB : Type
  getNonce : StateDB → Address → UInt64
  setNonce : StateDB → Address → UInt64 → StateDB
  getBalance : StateDB → Address → ℤ
  subBalance : StateDB → Address → ℤ → StateDB
  addBalance : StateDB → Address → ℤ → StateDB
  getRefund : StateDB → UInt64
  prepareAccessList : StateDB → Message → StateDB
  /-- `EVM.Create` with an amount of gas: the gas that is left, and whether it fails -/
  create : BlockCtx → Rules → Message → UInt64 → StateDB → StateDB × UInt64 × Bool
  /-- `EVM.Call` with an amount of gas: the gas that is left, and whether it fails -/
  call : BlockCtx → Rules → Message → UInt64 → StateDB → StateDB × UInt64 × Bool
  getLogs : StateDB → BlockTx → List Log
  /-- `Finalise` -/
  finalise : StateDB → StateDB
  /-- the address that has signed a transaction for a network -/
  sender : UInt64 → Transaction → Option Address
  /-- the bytes of a call -/
  calldata : DriverCall → List UInt8
  /-- `StateDB` at a root; `none` is an error -/
  stateDB : Hash → Option StateDB
  /-- `Commit` -/
  commit : StateDB → Option Hash
  /-- `types.DeriveSha` -/
  deriveSha : List BlockTx → Hash
  /-- `types.EmptyRootHash` -/
  emptyRootHash : Hash

/-- The zero address, which sends internal transactions. -/
def zeroAddress : Address := copyBytes 20 []

/-- `netinit.ContractAddress` -/
def netinitAddress : Address := copyBytes 20 [0xd1, 0x00, 0x5e, 0xed]

/-- The contract that an internal transaction calls. -/
def DriverCall.contract : DriverCall → Address
  | initializeAll .. => netinitAddress
  | _ => driverAddress

/-- The errors with which a transaction is skipped. -/
inductive TxError where
  /-- `ErrNonceTooHigh`: "nonce too high" -/
  | nonceTooHigh
  /-- `ErrNonceTooLow`: "nonce too low" -/
  | nonceTooLow
  /-- `ErrInsufficientFunds`: "insufficient funds for gas * price + value" -/
  | insufficientFunds
  /-- `ErrGasLimitReached`: "gas limit reached" -/
  | gasLimitReached
  /-- `ErrIntrinsicGas`: "intrinsic gas too low" -/
  | intrinsicGas
  /-- an error of `IntrinsicGas` -/
  | check (err : CheckError)

/-- `types.NewMessage` with the fields of a transaction -/
def Transaction.newMessage (tx : Transaction) (sender : Address) (checkNonce : Bool) : Message where
  sender := sender
  toAddress := tx.toAddress
  nonce := tx.nonce
  value := tx.value
  gas := tx.gas
  gasPrice := tx.gasPrice
  data := tx.data
  accessList := tx.kind.accessListOf
  checkNonce := checkNonce

namespace VM

variable (V : VM)

/-- `tx.AsMessage` with the signer of the rules: access lists come with Berlin. -/
def asMessage (net : Rules) (tx : Transaction) : Option Message :=
  let sender := match tx.kind with
    | .legacy => V.sender net.networkID tx
    | .accessList _ _ => if net.upgrades.berlin then V.sender net.networkID tx else none
    | .other _ => none
  sender.map fun sender => tx.newMessage sender true

/-- The message of a transaction in `Process`; `none` is an error. -/
def message (net : Rules) (internal : Bool) : BlockTx → Option Message
  | .event tx => if internal then some (tx.newMessage zeroAddress false) else V.asMessage net tx
  | .internal tx =>
    if internal then
      some
        { sender := zeroAddress
          toAddress := some tx.call.contract
          nonce := tx.nonce
          value := 0
          gas := (BlockTx.internal tx).gas
          gasPrice := 0
          data := V.calldata tx.call
          accessList := none
          checkNonce := false }
    -- there is no signature
    else none

/-- `buyGas`: the state and the gas pool. -/
def buyGas (msg : Message) (s : V.StateDB) (gp : UInt64) : Except TxError (V.StateDB × UInt64) :=
  let mgval := msg.gas.toNat * msg.gasPrice
  if V.getBalance s msg.sender < mgval then .error .insufficientFunds
  else if gp < msg.gas then .error .gasLimitReached
  else .ok (V.subBalance s msg.sender mgval, gp - msg.gas)

/-- `preCheck` -/
def preCheck (msg : Message) (s : V.StateDB) (gp : UInt64) : Except TxError (V.StateDB × UInt64) :=
  -- make sure this transaction's nonce is correct
  if msg.checkNonce ∧ V.getNonce s msg.sender < msg.nonce then .error .nonceTooHigh
  else if msg.checkNonce ∧ V.getNonce s msg.sender > msg.nonce then .error .nonceTooLow
  else V.buyGas msg s gp

/-- `refundGas`, and the gas that is used; `none` is the panic of the gas pool. -/
def refundGas (msg : Message) (gas : UInt64) (s : V.StateDB) (gp : UInt64) :
    Option (V.StateDB × UInt64 × UInt64) :=
  -- apply refund counter, capped to half of the used gas
  let refund := (msg.gas - gas) / 2
  let refund := if refund > V.getRefund s then V.getRefund s else refund
  let gas := gas + refund
  -- return wei for remaining gas, exchanged at the original rate
  let s := V.addBalance s msg.sender (gas.toNat * msg.gasPrice)
  if gp > maxUint64 - gas then none else some (s, gp + gas, msg.gas - gas)

/-- The initial access list is set up with Berlin. -/
def setUpAccessList (net : Rules) (msg : Message) (s : V.StateDB) : V.StateDB :=
  if net.upgrades.berlin then V.prepareAccessList s msg else s

/-- `TransitionDb`, after the gas is bought and the intrinsic gas is paid. -/
def execute (ctx : BlockCtx) (net : Rules) (msg : Message) (gas : UInt64) (s : V.StateDB) :
    V.StateDB × UInt64 × Bool :=
  let s := V.setUpAccessList net msg s
  match msg.toAddress with
  | none => V.create ctx net msg gas s
  -- increment the nonce for the next transaction
  | some _ => V.call ctx net msg gas (V.setNonce s msg.sender (V.getNonce s msg.sender + 1))

/-- `TransitionDb`: the state, the gas pool and the result, which is an error, or the
used gas and whether the execution failed. What has been bought stays bought also with
an error. -/
def transitionDb (ctx : BlockCtx) (net : Rules) (msg : Message) (s : V.StateDB) (gp : UInt64) :
    Option (V.StateDB × UInt64 × Except TxError (UInt64 × Bool)) :=
  match V.preCheck msg s gp with
  | .error err => some (s, gp, .error err)
  | .ok (s, gp) =>
    match intrinsicGas msg.data msg.accessList msg.toAddress.isNone with
    | .error err => some (s, gp, .error (.check err))
    | .ok gas =>
      if msg.gas < gas then some (s, gp, .error .intrinsicGas)
      else
        let (s, gas, failed) := V.execute ctx net msg (msg.gas - gas) s
        -- use 10% of not used gas
        let gas := if msg.sender = zeroAddress then gas else gas - gas / 10
        (V.refundGas msg gas s gp).map fun (s, gp, usedGas) => (s, gp, .ok (usedGas, failed))

/-- `ApplyMessage` in `applyTransaction`, with `Finalise` after it. -/
def applyMessage (ctx : BlockCtx) (net : Rules) (internal : Bool) (tx : BlockTx) (s : V.StateDB)
    (gp : UInt64) : Option (V.StateDB × UInt64 × MessageResult) := do
  let msg ← V.message net internal tx
  match ← V.transitionDb ctx net msg s gp with
  | (s, gp, .error _) => pure (s, gp, .skipped)
  | (s, gp, .ok (usedGas, failed)) =>
    pure (V.finalise s, gp, .executed usedGas failed (V.getLogs s tx))

/-- The transition that `StateProcessor` runs on. -/
@[reducible] def transition : Transition where
  StateDB := V.StateDB
  stateDB := V.stateDB
  nonce s := V.getNonce s zeroAddress
  applyMessage := V.applyMessage
  commit := V.commit
  deriveSha := V.deriveSha
  emptyRootHash := V.emptyRootHash

/-! ## What is assumed of go-ethereum -/

/-- An account that signs transactions; it has no code. -/
def Signs (a : Address) : Prop := ∃ networkID tx, V.sender networkID tx = some a

/-- What is assumed about nonces and balances. Nothing lowers the nonce of an account
that signs transactions; `Create` increments the nonce of its caller, unless the caller
cannot pay the value: then nothing happens, and all the gas is left. -/
structure Laws : Prop where
  nonce_setNonce : ∀ s a n b, V.getNonce (V.setNonce s a n) b = if b = a then n else V.getNonce s b
  nonce_subBalance : ∀ s a x b, V.getNonce (V.subBalance s a x) b = V.getNonce s b
  nonce_addBalance : ∀ s a x b, V.getNonce (V.addBalance s a x) b = V.getNonce s b
  nonce_prepareAccessList : ∀ s msg b, V.getNonce (V.prepareAccessList s msg) b = V.getNonce s b
  balance_subBalance : ∀ s a x, V.getBalance (V.subBalance s a x) a = V.getBalance s a - x
  balance_prepareAccessList : ∀ s msg a,
    V.getBalance (V.prepareAccessList s msg) a = V.getBalance s a
  call_le : ∀ ctx net msg gas s a, V.Signs a →
    V.getNonce s a ≤ V.getNonce (V.call ctx net msg gas s).1 a
  create_le : ∀ ctx net msg gas s a, V.Signs a → a ≠ msg.sender →
    V.getNonce s a ≤ V.getNonce (V.create ctx net msg gas s).1 a
  create_lt : ∀ ctx net msg gas s, V.Signs msg.sender → msg.value ≤ V.getBalance s msg.sender →
    V.getNonce s msg.sender ≠ maxUint64 →
    V.getNonce s msg.sender < V.getNonce (V.create ctx net msg gas s).1 msg.sender
  create_insufficient : ∀ ctx net msg gas s, V.getBalance s msg.sender < msg.value →
    V.create ctx net msg gas s = (s, gas, true)
  nonce_finalise : ∀ s a, V.Signs a → V.getNonce (V.finalise s) a = V.getNonce s a
  nonce_commit : ∀ s root s' a, V.Signs a → V.commit s = some root → V.stateDB root = some s' →
    V.getNonce s' a = V.getNonce s a

variable {V} {ctx : BlockCtx} {net : Rules} {msg : Message} {s s' : V.StateDB} {gp gp' gas : UInt64}
  {a : Address}

theorem asMessage_eq_some {tx : Transaction} (h : V.asMessage net tx = some msg) :
    ∃ a, V.sender net.networkID tx = some a ∧ msg = tx.newMessage a true := by
  obtain ⟨a, hsender, rfl⟩ := Option.map_eq_some_iff.mp h
  refine ⟨a, ?_, rfl⟩
  cases hkind : tx.kind with
  | legacy => simpa only [hkind] using hsender
  | accessList _ _ =>
    simp only [hkind, Option.ite_none_right_eq_some] at hsender
    exact hsender.2
  | other _ => simp only [hkind, reduceCtorEq] at hsender

theorem buyGas_eq_ok (h : V.buyGas msg s gp = .ok (s', gp')) :
    s' = V.subBalance s msg.sender (msg.gas.toNat * msg.gasPrice) := by
  unfold buyGas at h
  simp only at h
  split at h
  · cases h
  · split at h
    · cases h
    · cases h
      rfl

theorem preCheck_eq_ok (h : V.preCheck msg s gp = .ok (s', gp')) :
    (msg.checkNonce = true → V.getNonce s msg.sender = msg.nonce) ∧
      s' = V.subBalance s msg.sender (msg.gas.toNat * msg.gasPrice) := by
  unfold preCheck at h
  split at h
  · cases h
  · rename_i hhigh
    split at h
    · cases h
    · rename_i hlow
      refine ⟨fun hcheck => ?_, buyGas_eq_ok h⟩
      exact UInt64.le_antisymm (UInt64.not_lt.mp fun hgt => hlow ⟨hcheck, hgt⟩)
        (UInt64.not_lt.mp fun hlt => hhigh ⟨hcheck, hlt⟩)

theorem refundGas_eq_some {usedGas : UInt64}
    (h : V.refundGas msg gas s gp = some (s', gp', usedGas)) :
    ∃ amount, s' = V.addBalance s msg.sender amount := by
  unfold refundGas at h
  simp only [Option.ite_none_left_eq_some, Option.some.injEq, Prod.mk.injEq] at h
  exact ⟨_, h.2.1.symm⟩

/-- What `TransitionDb` does to the state: with an error at most gas is bought; else the
message is executed between the buying and the refund. -/
theorem transitionDb_eq_some {result : Except TxError (UInt64 × Bool)}
    (h : V.transitionDb ctx net msg s gp = some (s', gp', result)) :
    (∃ err, result = .error err ∧
        (s' = s ∨ s' = V.subBalance s msg.sender (msg.gas.toNat * msg.gasPrice))) ∨
      ∃ r, result = .ok r ∧ (msg.checkNonce = true → V.getNonce s msg.sender = msg.nonce) ∧
        ∃ gas amount, s' = V.addBalance (V.execute ctx net msg gas
          (V.subBalance s msg.sender (msg.gas.toNat * msg.gasPrice))).1 msg.sender amount := by
  unfold transitionDb at h
  split at h
  · cases h
    exact .inl ⟨_, rfl, .inl rfl⟩
  · rename_i s₁ gp₁ hcheck
    obtain ⟨hnonce, rfl⟩ := preCheck_eq_ok hcheck
    split at h
    · cases h
      exact .inl ⟨_, rfl, .inr rfl⟩
    · split at h
      · cases h
        exact .inl ⟨_, rfl, .inr rfl⟩
      · obtain ⟨⟨s₂, gp₂, usedGas⟩, hrefund, h⟩ := Option.map_eq_some_iff.mp h
        obtain ⟨amount, rfl⟩ := refundGas_eq_some hrefund
        cases h
        exact .inr ⟨_, rfl, hnonce, _, amount, rfl⟩

/-- A message whose nonce is used is refused, and nothing happens. -/
theorem transitionDb_of_nonce_lt (hcheck : msg.checkNonce = true)
    (h : msg.nonce < V.getNonce s msg.sender) :
    V.transitionDb ctx net msg s gp = some (s, gp, .error .nonceTooLow) := by
  have hhigh : ¬(msg.checkNonce = true ∧ V.getNonce s msg.sender < msg.nonce) :=
    fun hlt => UInt64.lt_asymm h hlt.2
  unfold transitionDb preCheck
  rw [if_neg hhigh, if_pos ⟨hcheck, h⟩]

/-! ## Nonces -/

theorem ne_maxUint64_of_lt {x y : UInt64} (h : x < y) : x ≠ maxUint64 := by
  rintro rfl
  have hlt := UInt64.lt_iff_toNat_lt.mp h
  have hmax : maxUint64.toNat = 2 ^ 64 - 1 := rfl
  have := y.toNat_lt
  omega

theorem lt_add_one_of_ne_maxUint64 {x : UInt64} (h : x ≠ maxUint64) : x < x + 1 := by
  have hne : x.toNat ≠ 2 ^ 64 - 1 := fun heq => h (UInt64.toNat_inj.mp heq)
  have := x.toNat_lt
  rw [UInt64.lt_iff_toNat_lt, UInt64.toNat_add, UInt64.toNat_one, Nat.mod_eq_of_lt (by omega)]
  omega

namespace Laws

variable (laws : V.Laws)

include laws

theorem nonce_setUpAccessList (net : Rules) (msg : Message) (s : V.StateDB) (a : Address) :
    V.getNonce (V.setUpAccessList net msg s) a = V.getNonce s a := by
  unfold setUpAccessList
  split
  · exact laws.nonce_prepareAccessList ..
  · rfl

theorem balance_setUpAccessList (net : Rules) (msg : Message) (s : V.StateDB) (a : Address) :
    V.getBalance (V.setUpAccessList net msg s) a = V.getBalance s a := by
  unfold setUpAccessList
  split
  · exact laws.balance_prepareAccessList ..
  · rfl

/-- The creation of a contract uses the nonce of its sender if the value can be paid. -/
theorem lt_create_iff (hsigns : V.Signs msg.sender) :
    V.getNonce s msg.sender < V.getNonce (V.create ctx net msg gas s).1 msg.sender ↔
      V.getNonce s msg.sender ≠ maxUint64 ∧ ¬V.getBalance s msg.sender < msg.value := by
  constructor
  · intro hlt
    refine ⟨ne_maxUint64_of_lt hlt, fun hpoor => ?_⟩
    rw [laws.create_insufficient _ _ _ _ _ hpoor] at hlt
    exact UInt64.lt_irrefl _ hlt
  · rintro ⟨hmax, hpays⟩
    exact laws.create_lt _ _ _ _ _ hsigns (not_lt.mp hpays) hmax

/-- A call uses the nonce of its sender. -/
theorem lt_call_iff (hsigns : V.Signs msg.sender) :
    V.getNonce s msg.sender < V.getNonce (V.call ctx net msg gas
        (V.setNonce s msg.sender (V.getNonce s msg.sender + 1))).1 msg.sender ↔
      V.getNonce s msg.sender ≠ maxUint64 := by
  refine ⟨ne_maxUint64_of_lt, fun hmax => ?_⟩
  have hcall := laws.call_le ctx net msg gas
    (V.setNonce s msg.sender (V.getNonce s msg.sender + 1)) msg.sender hsigns
  rw [laws.nonce_setNonce, if_pos rfl] at hcall
  exact UInt64.lt_of_lt_of_le (lt_add_one_of_ne_maxUint64 hmax) hcall

/-- An execution uses the nonce of its sender, but for the creation of a contract whose
value cannot be paid. -/
theorem lt_execute_iff (hsigns : V.Signs msg.sender) :
    V.getNonce s msg.sender < V.getNonce (V.execute ctx net msg gas s).1 msg.sender ↔
      V.getNonce s msg.sender ≠ maxUint64 ∧
        ¬(msg.toAddress = none ∧ V.getBalance s msg.sender < msg.value) := by
  rw [← laws.nonce_setUpAccessList net msg, ← laws.balance_setUpAccessList net msg]
  unfold execute
  cases msg.toAddress with
  | none => simpa using laws.lt_create_iff hsigns
  | some _ => simpa using laws.lt_call_iff hsigns

/-- An execution does not lower the nonce of an account that signs transactions. -/
theorem le_execute (hsigns : V.Signs a) (hmax : V.getNonce s a ≠ maxUint64) :
    V.getNonce s a ≤ V.getNonce (V.execute ctx net msg gas s).1 a := by
  rw [← laws.nonce_setUpAccessList net msg] at hmax ⊢
  unfold execute
  cases msg.toAddress with
  | none =>
    by_cases hpoor : V.getBalance (V.setUpAccessList net msg s) msg.sender < msg.value
    · simp only [laws.create_insufficient _ _ _ _ _ hpoor]
      exact UInt64.le_refl _
    · by_cases hsender : a = msg.sender
      · subst hsender
        exact UInt64.le_of_lt ((laws.lt_create_iff hsigns).mpr ⟨hmax, hpoor⟩)
      · exact laws.create_le _ _ _ _ _ _ hsigns hsender
  | some _ =>
    by_cases hsender : a = msg.sender
    · subst hsender
      exact UInt64.le_of_lt ((laws.lt_call_iff hsigns).mpr hmax)
    · refine UInt64.le_trans (UInt64.le_of_eq ?_) (laws.call_le _ _ _ _ _ _ hsigns)
      rw [laws.nonce_setNonce, if_neg hsender]

end Laws

variable {W : World} {internal : Bool} {tx : BlockTx} {i : ℕ} {p p' : Processing V.transition}

/-- An applied transaction is skipped, with at most gas bought, or executed. -/
theorem applyTransaction_cases (h : applyTransaction W ctx net internal p i tx = some p') :
    ∃ msg, V.message net internal tx = some msg ∧
      ((p'.receipts = p.receipts ∧ (p'.statedb = p.statedb ∨
          p'.statedb = V.subBalance p.statedb msg.sender (msg.gas.toNat * msg.gasPrice))) ∨
        ((msg.checkNonce = true → V.getNonce p.statedb msg.sender = msg.nonce) ∧
          ∃ gas amount, p'.statedb = V.finalise (V.addBalance (V.execute ctx net msg gas
            (V.subBalance p.statedb msg.sender (msg.gas.toNat * msg.gasPrice))).1
              msg.sender amount))) := by
  obtain ⟨⟨statedb, gp, result⟩, hmessage, h⟩ := Option.bind_eq_some_iff.mp h
  obtain ⟨msg, hmsg, hmessage⟩ := Option.bind_eq_some_iff.mp hmessage
  obtain ⟨⟨s₁, gp₁, outcome⟩, htransition, hmessage⟩ := Option.bind_eq_some_iff.mp hmessage
  refine ⟨msg, hmsg, ?_⟩
  rcases transitionDb_eq_some htransition with
    ⟨err, rfl, hstate⟩ | ⟨r, rfl, hnonce, gas, amount, rfl⟩
  · cases hmessage
    cases h
    exact .inl ⟨rfl, hstate⟩
  · cases hmessage
    cases h
    exact .inr ⟨hnonce, gas, amount, rfl⟩

/-- The states that follow a state, in its block and in later ones, while the nonce of an
account does not wrap. -/
inductive Later (V : VM) (a : Address) : V.StateDB → V.StateDB → Prop where
  | refl (s : V.StateDB) : Later V a s s
  /-- a transaction is applied, internal or not -/
  | apply {s : V.StateDB} {W : World} {ctx : BlockCtx} {net : Rules} {internal : Bool}
      {p p' : Processing V.transition} {i : ℕ} {tx : BlockTx} :
      Later V a s p.statedb → V.getNonce p.statedb a ≠ maxUint64 →
      applyTransaction W ctx net internal p i tx = some p' → Later V a s p'.statedb
  /-- the state is committed and opened again -/
  | reopen {s t t' : V.StateDB} {root : Hash} :
      Later V a s t → V.commit t = some root → V.stateDB root = some t' → Later V a s t'

/-- A nonce that no execution lowers is not lowered by applying a transaction. -/
theorem Laws.le_applied (laws : V.Laws)
    (hfinalise : ∀ s, V.getNonce (V.finalise s) a = V.getNonce s a)
    (hexecute : ∀ msg gas s, V.getNonce s a ≠ maxUint64 →
      V.getNonce s a ≤ V.getNonce (V.execute ctx net msg gas s).1 a)
    (hmax : V.getNonce p.statedb a ≠ maxUint64)
    (h : applyTransaction W ctx net internal p i tx = some p') :
    V.getNonce p.statedb a ≤ V.getNonce p'.statedb a := by
  obtain ⟨msg, -, ⟨-, hstate | hstate⟩ | ⟨-, gas, amount, hstate⟩⟩ := applyTransaction_cases h
  · rw [hstate]
    exact UInt64.le_refl _
  · rw [hstate, laws.nonce_subBalance]
    exact UInt64.le_refl _
  · rw [hstate, hfinalise, laws.nonce_addBalance]
    rw [← laws.nonce_subBalance] at hmax ⊢
    exact hexecute msg gas _ hmax

theorem Later.nonce_le (laws : V.Laws) (hsigns : V.Signs a) (h : Later V a s s') :
    V.getNonce s a ≤ V.getNonce s' a := by
  induction h with
  | refl => exact UInt64.le_refl _
  | apply _ hmax happly ih =>
    exact UInt64.le_trans ih (laws.le_applied (fun s => laws.nonce_finalise _ _ hsigns)
      (fun _ _ _ => laws.le_execute hsigns) hmax happly)
  | reopen _ hcommit hopen ih =>
    exact UInt64.le_trans ih (UInt64.le_of_eq (laws.nonce_commit _ _ _ _ hsigns hcommit hopen).symm)

/-- What it takes for the execution of a transaction to use its nonce: there is a next
nonce, and a contract creation can pay its value when the gas is bought. -/
def UsesNonce (V : VM) (tx : Transaction) (s : V.StateDB) (a : Address) : Prop :=
  tx.nonce ≠ maxUint64 ∧
    ¬(tx.toAddress = none ∧ V.getBalance s a - tx.gas.toNat * tx.gasPrice < tx.value)

theorem Laws.lt_executed_iff (laws : V.Laws) {msg : Message} (hsigns : V.Signs msg.sender)
    (amount : ℤ) :
    V.getNonce s msg.sender < V.getNonce (V.finalise (V.addBalance (V.execute ctx net msg gas
        (V.subBalance s msg.sender (msg.gas.toNat * msg.gasPrice))).1 msg.sender amount))
          msg.sender ↔
      V.getNonce s msg.sender ≠ maxUint64 ∧ ¬(msg.toAddress = none ∧
        V.getBalance s msg.sender - msg.gas.toNat * msg.gasPrice < msg.value) := by
  rw [laws.nonce_finalise _ _ hsigns, laws.nonce_addBalance,
    ← laws.nonce_subBalance s msg.sender (msg.gas.toNat * msg.gasPrice), ← laws.balance_subBalance]
  exact laws.lt_execute_iff hsigns

/-- The nonce of an executed transaction is that of its sender, and is used or not. -/
theorem Laws.executed (laws : V.Laws) {tx : Transaction}
    (h : applyTransaction W ctx net false p i (.event tx) = some p')
    (hexecuted : p'.receipts ≠ p.receipts) :
    ∃ a, V.sender net.networkID tx = some a ∧
      (tx.nonce < V.getNonce p'.statedb a ↔ V.UsesNonce tx p.statedb a) := by
  obtain ⟨msg, hmsg, ⟨hskipped, -⟩ | ⟨hnonce, gas, amount, hstate⟩⟩ := applyTransaction_cases h
  · exact absurd hskipped hexecuted
  obtain ⟨a, hsender, rfl⟩ := asMessage_eq_some hmsg
  have hnonce : V.getNonce p.statedb a = tx.nonce := hnonce rfl
  refine ⟨a, hsender, ?_⟩
  unfold UsesNonce
  rw [hstate, ← hnonce]
  have hsigns : V.Signs (tx.newMessage a true).sender := ⟨_, _, hsender⟩
  exact laws.lt_executed_iff hsigns amount

/-- A transaction whose nonce is used is skipped with an error about the nonce, if it can
be read at all. -/
theorem applyTransaction_of_nonce_lt {tx : Transaction}
    (hsender : V.sender net.networkID tx = some a)
    (h : tx.nonce < V.getNonce p.statedb a) :
    (∀ msg, V.asMessage net tx = some msg →
        V.transitionDb ctx net msg p.statedb p.gp = some (p.statedb, p.gp, .error .nonceTooLow)) ∧
      applyTransaction W ctx net false p i (.event tx) =
        (V.asMessage net tx).map fun _ => { p with skipped := p.skipped ++ [UInt32.ofNat i] } := by
  have hrefused : ∀ msg, V.asMessage net tx = some msg →
      V.transitionDb ctx net msg p.statedb p.gp = some (p.statedb, p.gp, .error .nonceTooLow) := by
    intro msg hmsg
    obtain ⟨b, hb, rfl⟩ := asMessage_eq_some hmsg
    cases hsender.symm.trans hb
    exact transitionDb_of_nonce_lt rfl h
  refine ⟨hrefused, ?_⟩
  unfold applyTransaction
  cases hmsg : V.asMessage net tx with
  | none => simp [applyMessage, message, hmsg]
  | some msg => simp [applyMessage, message, hmsg, hrefused msg hmsg]

end VM

open VM

/-- The nonce of the sender is beyond that of an executed transaction exactly if the
transaction uses it. Then the transaction is skipped, with an error about the nonce,
wherever it is applied later on the network. -/
theorem executed_once_iff (W : World) (V : VM) (laws : V.Laws) (ctx : BlockCtx) (net : Rules)
    (p p' : Processing V.transition) (i : ℕ) (tx : Transaction)
    (h : applyTransaction W ctx net false p i (.event tx) = some p')
    (hexecuted : p'.receipts ≠ p.receipts) :
    ∃ a, V.sender net.networkID tx = some a ∧
      (tx.nonce < V.getNonce p'.statedb a ↔ V.UsesNonce tx p.statedb a) ∧
      (V.UsesNonce tx p.statedb a →
        ∀ (ctx' : BlockCtx) (net' : Rules) (q : Processing V.transition) (j : ℕ),
          V.Later a p'.statedb q.statedb → net'.networkID = net.networkID →
          (∀ msg, V.asMessage net' tx = some msg →
            V.transitionDb ctx' net' msg q.statedb q.gp =
              some (q.statedb, q.gp, .error .nonceTooLow)) ∧
          applyTransaction W ctx' net' false q j (.event tx) =
            (V.asMessage net' tx).map fun _ =>
              { q with skipped := q.skipped ++ [UInt32.ofNat j] }) := by
  obtain ⟨a, hsender, hiff⟩ := laws.executed h hexecuted
  refine ⟨a, hsender, hiff, fun huses ctx' net' q j hlater hnet => ?_⟩
  have hlt : tx.nonce < V.getNonce q.statedb a :=
    UInt64.lt_of_lt_of_le (hiff.mpr huses) (hlater.nonce_le laws ⟨_, _, hsender⟩)
  exact applyTransaction_of_nonce_lt (hnet ▸ hsender) hlt

/-! ## A machine without code -/

/-- An account that signs transactions. -/
def payer : Address := copyBytes 20 [1]

/-- Nonces and balances. -/
abbrev Accounts := Address → UInt64 × ℤ

/-- A balance changes by an amount. -/
def Accounts.pay (s : Accounts) (a : Address) (amount : ℤ) : Accounts :=
  Function.update s a ((s a).1, (s a).2 + amount)

/-- Messages move their value, and roots keep a short nonce of the `payer`. -/
@[reducible] def payVM : VM where
  StateDB := Accounts
  getNonce s a := (s a).1
  setNonce s a n := Function.update s a (n, (s a).2)
  getBalance s a := (s a).2
  subBalance s a amount := s.pay a (-amount)
  addBalance s a amount := s.pay a amount
  getRefund _ := 0
  prepareAccessList s _ := s
  create _ _ msg gas s :=
    if (s msg.sender).2 < msg.value then (s, gas, true)
    else
      (Function.update s msg.sender ((s msg.sender).1 + 1, (s msg.sender).2 - msg.value),
        gas, false)
  call _ _ msg gas s :=
    if (s msg.sender).2 < msg.value then (s, gas, true)
    else
      ((s.pay msg.sender (-msg.value)).pay (msg.toAddress.getD zeroAddress) msg.value, gas, false)
  getLogs _ _ := []
  finalise s := s
  sender _ _ := some payer
  calldata _ := []
  stateDB root := some (Function.update (fun _ => (0, 0)) payer (root.head.toUInt64, 0))
  commit s := if (s payer).1 < 256 then some (copyBytes 32 [(s payer).1.toUInt8]) else none
  deriveSha _ := copyBytes 32 []
  emptyRootHash := copyBytes 32 []

theorem Accounts.nonce_pay (s : Accounts) (a : Address) (amount : ℤ) (b : Address) :
    (s.pay a amount b).1 = (s b).1 := by
  unfold Accounts.pay
  by_cases hb : b = a
  · subst hb
    rw [Function.update_self]
  · rw [Function.update_of_ne hb]

/-- A root keeps a short nonce. -/
theorem toUInt64_head_copyBytes {n : UInt64} (hshort : n < 256) :
    (copyBytes 32 [n.toUInt8]).head.toUInt64 = n := by
  have hhead : (copyBytes 32 [n.toUInt8]).head = n.toUInt8 := rfl
  rw [hhead, UInt64.toUInt64_toUInt8]
  exact UInt64.toNat_inj.mp (Nat.mod_eq_of_lt (UInt64.lt_iff_toNat_lt.mp hshort))

theorem payVM_laws : payVM.Laws where
  nonce_setNonce s a n b := by
    by_cases hb : b = a
    · subst hb
      simp
    · simp [hb]
  nonce_subBalance _ _ _ _ := Accounts.nonce_pay ..
  nonce_addBalance _ _ _ _ := Accounts.nonce_pay ..
  nonce_prepareAccessList _ _ _ := rfl
  balance_subBalance s a x := by simp [Accounts.pay, sub_eq_add_neg]
  balance_prepareAccessList _ _ _ := rfl
  call_le ctx net msg gas s a _ := by
    refine UInt64.le_of_eq ?_
    simp only [payVM]
    split
    · rfl
    · rw [Accounts.nonce_pay, Accounts.nonce_pay]
  create_le ctx net msg gas s a _ hsender := by
    refine UInt64.le_of_eq ?_
    simp only [payVM]
    split
    · rfl
    · simp only [Function.update_of_ne hsender]
  create_lt ctx net msg gas s _ hpays hmax := by
    simp only [payVM]
    rw [if_neg (not_lt.mpr hpays)]
    simp only [Function.update_self]
    exact lt_add_one_of_ne_maxUint64 hmax
  create_insufficient ctx net msg gas s hpoor := if_pos hpoor
  nonce_finalise _ _ _ := rfl
  nonce_commit s root s' a hsigns hcommit hopen := by
    obtain ⟨_, _, hsender⟩ := hsigns
    cases hsender
    obtain ⟨hshort, hroot⟩ := Option.ite_none_right_eq_some.mp hcommit
    cases hroot
    cases hopen
    simp only [Function.update_self, toUInt64_head_copyBytes hshort]

/-- A legacy transaction of the `payer`. -/
def payTx (toAddress : Option Address) (value : ℤ) : Transaction :=
  { nonce := 0, gas := 60000, gasPrice := 1, value := value, toAddress := toAddress, data := [],
    v := 0, r := 0, s := 0, kind := .legacy }

/-- The start of a block, when everyone has a million. -/
def payStart : Processing payVM.transition where
  statedb _ := (0, 1000000)
  gp := 1000000
  usedGas := 0
  receipts := []
  allLogs := []
  skipped := []

/-- A payment is executed, and skipped when it comes again. -/
theorem executed_once_payTx :
    ∃ p', applyTransaction nonceWorld ⟨1, 1, EventID.zero⟩ mainNetRules false payStart 0
          (.event (payTx (some zeroAddress) 7)) = some p' ∧
      0 < payVM.getNonce p'.statedb payer ∧
      applyTransaction nonceWorld ⟨1, 1, EventID.zero⟩ mainNetRules false p' 1
        (.event (payTx (some zeroAddress) 7)) = some { p' with skipped := p'.skipped ++ [1] } := by
  obtain ⟨p', hp', hreceipts⟩ : ∃ p', applyTransaction nonceWorld ⟨1, 1, EventID.zero⟩ mainNetRules
      false payStart 0 (.event (payTx (some zeroAddress) 7)) = some p' ∧
        p'.receipts.length = 1 := by
    decide +kernel
  have hexecuted : p'.receipts ≠ payStart.receipts := by
    intro hnone
    rw [hnone] at hreceipts
    exact absurd hreceipts (by decide)
  obtain ⟨a, ha, hiff, hskipped⟩ :=
    executed_once_iff nonceWorld payVM payVM_laws _ _ _ _ _ _ hp' hexecuted
  cases ha
  have huses : payVM.UsesNonce (payTx (some zeroAddress) 7) payStart.statedb payer :=
    ⟨by decide, fun h => absurd h.1 (by decide)⟩
  refine ⟨p', hp', hiff.mpr huses, ?_⟩
  exact (hskipped huses _ _ p' 1 (.refl _) rfl).2

/-- A transaction that creates a contract with more value than its sender has is executed
twice in one block. -/
theorem executed_twice :
    payVM.Laws ∧
      ∃ p', process nonceWorld ⟨1, 1, EventID.zero⟩ mainNetRules false
          [.event (payTx none 7000000), .event (payTx none 7000000)] 0 payStart = some p' ∧
        p'.receipts.length = 2 ∧ p'.skipped = [] ∧ payVM.getNonce p'.statedb payer = 0 :=
  ⟨payVM_laws, by decide +kernel⟩

end Zilionixx
