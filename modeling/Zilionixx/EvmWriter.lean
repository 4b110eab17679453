import Zilionixx.DriverModule
import Zilionixx.Routine

/-!
# `evmwriter`: the precompile that writes accounts

The driver contract changes accounts through a precompiled contract (`evm_writer.go`): it
sets a balance, copies or exchanges code, writes a storage slot, or increases a nonce. `Run`
reads a method and its arguments from the input, takes gas in several steps, and calls the
state.

What an input asks for is stated as a format (`Write.Asked`), and what it should do as a relation of
the accounts before and after (`Write.Effect`). `Run` is a routine that could fail after it
has written something, so that a refused call leaves no trace only because it makes all checks
first.
-/

namespace Zilionixx

namespace EvmWriter

open ByteNumber Routine

/-! ## The state -/

/-- An account, as far as it can be written. -/
structure Account where
  balance : ℤ
  nonce : UInt64
  /-- no code is the empty code -/
  code : List UInt8
  storage : Hash → Hash

/-- One account is changed. -/
def onAccount (accounts : Address → Account) (acc : Address) (f : Account → Account) :
    Address → Account :=
  Function.update accounts acc (f (accounts acc))

theorem onAccount_self (accounts : Address → Account) (acc : Address) (f : Account → Account) :
    onAccount accounts acc f acc = f (accounts acc) := Function.update_self _ _ _

theorem onAccount_of_ne (accounts : Address → Account) {acc a : Address} (f : Account → Account)
    (h : a ≠ acc) : onAccount accounts acc f a = accounts a := Function.update_of_ne h _ _

/-- `vm.StateDB`, as far as the contract uses it. -/
structure StateDB where
  State : Type
  /-- `GetBalance`, `GetNonce`, `GetCode` and `GetState` -/
  account : State → Address → Account
  addBalance : State → Address → ℤ → State
  subBalance : State → Address → ℤ → State
  setNonce : State → Address → UInt64 → State
  setCode : State → Address → List UInt8 → State
  setState : State → Address → Hash → Hash → State
  account_addBalance : ∀ s acc amount, account (addBalance s acc amount) =
    onAccount (account s) acc fun a => { a with balance := a.balance + amount }
  account_subBalance : ∀ s acc amount, account (subBalance s acc amount) =
    onAccount (account s) acc fun a => { a with balance := a.balance - amount }
  account_setNonce : ∀ s acc nonce, account (setNonce s acc nonce) =
    onAccount (account s) acc fun a => { a with nonce := nonce }
  account_setCode : ∀ s acc code, account (setCode s acc code) =
    onAccount (account s) acc fun a => { a with code := code }
  account_setState : ∀ s acc key value, account (setState s acc key value) =
    onAccount (account s) acc fun a => { a with storage := Function.update a.storage key value }

/-! ## `Run` -/

/-- The errors that `Run` returns. -/
inductive VmError where
  /-- `vm.ErrExecutionReverted` -/
  | executionReverted
  /-- `vm.ErrOutOfGas` -/
  | outOfGas
  deriving DecidableEq

/-- `params.CallValueTransferGas` -/
def callValueTransferGas : UInt64 := 9000

/-- `params.CreateGas` -/
def createGas : UInt64 := 32000

/-- `params.CreateDataGas` -/
def createDataGas : UInt64 := 200

/-- `params.MemoryGas` -/
def memoryGas : UInt64 := 3

/-- `params.SstoreSetGasEIP2200` -/
def sstoreSetGas : UInt64 := 20000

/-- `setBalance(address,uint256)` -/
def setBalanceMethodID : List UInt8 := [0xe3, 0x04, 0x43, 0xbc]

/-- `copyCode(address,address)` -/
def copyCodeMethodID : List UInt8 := [0xd6, 0xa0, 0xc7, 0xaf]

/-- `swapCode(address,address)` -/
def swapCodeMethodID : List UInt8 := [0x07, 0x69, 0x0b, 0x2a]

/-- `setStorage(address,bytes32,bytes32)` -/
def setStorageMethodID : List UInt8 := [0x39, 0xe5, 0x03, 0xab]

/-- `incNonce(address,uint256)` -/
def incNonceMethodID : List UInt8 := [0x79, 0xbe, 0xad, 0x38]

/-- Gas is taken, if there is enough of it. -/
def useGas (suppliedGas cost : UInt64) : Except (Fault VmError) UInt64 :=
  if suppliedGas < cost then .error (.error .outOfGas) else .ok (suppliedGas - cost)

/-- A check, without which the execution is reverted. -/
def ensure (c : Prop) [Decidable c] : Except (Fault VmError) Unit :=
  if c then .ok () else .error (.error .executionReverted)

/-- `input[low:high]` -/
def sub (input : List UInt8) (low high : ℕ) : Except (Fault VmError) (List UInt8) :=
  if low ≤ high ∧ high ≤ input.length then .ok ((input.take high).drop low) else .error .panic

/-- `common.BytesToAddress`, `common.BytesToHash`: the last bytes, after zeros if there are
not enough. -/
def bytesTo (n : ℕ) (bs : List UInt8) : List.Vector UInt8 n :=
  ⟨(List.replicate n 0 ++ bs).drop bs.length, by simp⟩

section Methods

variable (S : StateDB) (origin : Address) (input : List UInt8) (suppliedGas : UInt64)

/-- setBalance -/
def setBalance : Routine S.State (Fault VmError) UInt64 := do
  let suppliedGas ← check (useGas suppliedGas callValueTransferGas)
  check (ensure (input.length = 64))
  let acc := bytesTo 20 (← check (sub input 12 32))
  let input ← check (sub input 32 input.length)
  let value : ℤ := ofBE (← check (sub input 0 32))
  -- origin balance shouldn't decrease during its transaction
  check (ensure (acc ≠ origin))
  let balance ← read fun s => (S.account s acc).balance
  write fun s =>
    if balance ≥ value then S.subBalance s acc (balance - value)
    else S.addBalance s acc (value - balance)
  pure suppliedGas

/-- The gas for a code. -/
def codeCost (code : List UInt8) : UInt64 :=
  UInt64.ofNat code.length * (createDataGas + memoryGas)

/-- copyCode -/
def copyCode : Routine S.State (Fault VmError) UInt64 := do
  let suppliedGas ← check (useGas suppliedGas createGas)
  check (ensure (input.length = 64))
  let accTo := bytesTo 20 (← check (sub input 12 32))
  let input ← check (sub input 32 input.length)
  let accFrom := bytesTo 20 (← check (sub input 12 32))
  let code ← read fun s => (S.account s accFrom).code
  let suppliedGas ← check (useGas suppliedGas (codeCost code))
  write fun s => if accTo ≠ accFrom then S.setCode s accTo code else s
  pure suppliedGas

/-- swapCode -/
def swapCode : Routine S.State (Fault VmError) UInt64 := do
  let suppliedGas ← check (useGas suppliedGas (2 * createGas))
  check (ensure (input.length = 64))
  let acc0 := bytesTo 20 (← check (sub input 12 32))
  let input ← check (sub input 32 input.length)
  let acc1 := bytesTo 20 (← check (sub input 12 32))
  let code0 ← read fun s => (S.account s acc0).code
  let code1 ← read fun s => (S.account s acc1).code
  -- 50% discount because trie size won't increase after pruning
  let suppliedGas ← check (useGas suppliedGas ((codeCost code0 + codeCost code1) / 2))
  write fun s => if acc0 ≠ acc1 then S.setCode s acc0 code1 else s
  write fun s => if acc0 ≠ acc1 then S.setCode s acc1 code0 else s
  pure suppliedGas

/-- setStorage -/
def setStorage : Routine S.State (Fault VmError) UInt64 := do
  let suppliedGas ← check (useGas suppliedGas sstoreSetGas)
  check (ensure (input.length = 96))
  let acc := bytesTo 20 (← check (sub input 12 32))
  let input ← check (sub input 32 input.length)
  let key := bytesTo 32 (← check (sub input 0 32))
  let input ← check (sub input 32 input.length)
  let value := bytesTo 32 (← check (sub input 0 32))
  write fun s => S.setState s acc key value
  pure suppliedGas

/-- incNonce -/
def incNonce : Routine S.State (Fault VmError) UInt64 := do
  let suppliedGas ← check (useGas suppliedGas callValueTransferGas)
  check (ensure (input.length = 64))
  let acc := bytesTo 20 (← check (sub input 12 32))
  let input ← check (sub input 32 input.length)
  let value := ofBE (← check (sub input 0 32))
  -- origin nonce shouldn't change during its transaction
  check (ensure (acc ≠ origin))
  -- don't allow large nonce increasing to prevent a nonce overflow
  check (ensure (value < 256))
  check (ensure (0 < value))
  let nonce ← read fun s => (S.account s acc).nonce
  write fun s => S.setNonce s acc (nonce + UInt64.ofNat value)
  pure suppliedGas

/-- The method that an input begins with. -/
def method (methodID : List UInt8) : Routine S.State (Fault VmError) UInt64 :=
  if methodID = setBalanceMethodID then setBalance S origin input suppliedGas
  else if methodID = copyCodeMethodID then copyCode S input suppliedGas
  else if methodID = swapCodeMethodID then swapCode S input suppliedGas
  else if methodID = setStorageMethodID then setStorage S input suppliedGas
  else if methodID = incNonceMethodID then incNonce S origin input suppliedGas
  else check (.error (.error .executionReverted))

/-- `PreCompiledContract.Run`; an error is returned with no gas. -/
def run (caller : Address) : Routine S.State (Fault VmError) UInt64 := do
  check (ensure (caller = driverAddress))
  check (ensure (4 ≤ input.length))
  let methodID ← check (sub input 0 4)
  let args ← check (sub input 4 input.length)
  method S origin args suppliedGas methodID

end Methods

/-- The gas that `Run` returns. -/
def returnedGas : Except (Fault VmError) UInt64 → UInt64
  | .ok suppliedGas => suppliedGas
  | .error _ => 0

/-! ## What the contract is for -/

/-- What an input may ask for. -/
inductive Write where
  | setBalance (acc : Address) (value : ℕ)
  | copyCode (accTo accFrom : Address)
  | swapCode (acc0 acc1 : Address)
  | setStorage (acc : Address) (key value : Hash)
  | incNonce (acc : Address) (diff : ℕ)

namespace Write

/-- The method of a call. -/
def methodID : Write → List UInt8
  | setBalance _ _ => setBalanceMethodID
  | copyCode _ _ => copyCodeMethodID
  | swapCode _ _ => swapCodeMethodID
  | setStorage _ _ _ => setStorageMethodID
  | incNonce _ _ => incNonceMethodID

/-- The format of the arguments: words of 32 bytes. Of the word for an account, the first 12
bytes may be anything. -/
def Layout (args : List UInt8) : Write → Prop
  | setBalance acc value | incNonce acc value =>
    ∃ (pad : List.Vector UInt8 12) (word : Hash),
      args = pad.toList ++ acc.toList ++ word.toList ∧ value = ofBE word.toList
  | copyCode acc acc' | swapCode acc acc' =>
    ∃ pad pad' : List.Vector UInt8 12,
      args = pad.toList ++ acc.toList ++ (pad'.toList ++ acc'.toList)
  | setStorage acc key value =>
    ∃ pad : List.Vector UInt8 12,
      args = pad.toList ++ acc.toList ++ (key.toList ++ value.toList)

/-- What an input asks for: it is a method and its arguments. -/
def Asked (w : Write) (input : List UInt8) : Prop :=
  ∃ args, input = w.methodID ++ args ∧ w.Layout args

/-- The one effect of a method on the accounts. All the others, and all other fields, are as
they were. -/
def Effect (before after : Address → Account) : Write → Prop
  | setBalance acc value => after = onAccount before acc fun a => { a with balance := value }
  | copyCode accTo accFrom =>
    after = onAccount before accTo fun a => { a with code := (before accFrom).code }
  | swapCode acc0 acc1 =>
    (after acc0 = { before acc0 with code := (before acc1).code } ∧
      after acc1 = { before acc1 with code := (before acc0).code }) ∧
      ∀ a, a ≠ acc0 → a ≠ acc1 → after a = before a
  | setStorage acc key value =>
    after = onAccount before acc fun a =>
      { a with storage := Function.update a.storage key value }
  | incNonce acc diff =>
    (1 ≤ diff ∧ diff ≤ 255) ∧
      ∃ nonce : UInt64, nonce.toNat = (before acc).nonce.toNat + diff ∧
        after = onAccount before acc fun a => { a with nonce := nonce }

/-- The gas that a method takes. -/
def cost (before : Address → Account) : Write → ℕ
  | setBalance _ _ => 9000
  | copyCode _ accFrom => 32000 + (before accFrom).code.length * 203
  | swapCode acc0 acc1 =>
    64000 + ((before acc0).code.length * 203 + (before acc1).code.length * 203) / 2
  | setStorage _ _ _ => 20000
  | incNonce _ _ => 9000

end Write

/-- **Atomic and confined**: `Run` returns an error and the state is unchanged, or the driver
contract has called it, and the state has changed by what the input asks for and nothing else.
The balance and the nonce of the origin are the same, and the gas that is returned is what is
left of the gas that was supplied. -/
def Confined (S : StateDB) (s : S.State) (caller origin : Address) (input : List UInt8)
    (suppliedGas : UInt64) : Prop :=
  (returnedGas (run S origin input suppliedGas caller s).1 ≤ suppliedGas) ∧
  Keeps s (fun fault => fault ≠ .panic)
    (fun gas s' =>
      caller = driverAddress ∧
      ((S.account s' origin).balance = (S.account s origin).balance ∧
        (S.account s' origin).nonce = (S.account s origin).nonce) ∧
      ∃ w : Write, w.Asked input ∧ w.Effect (S.account s) (S.account s') ∧
        gas.toNat + w.cost (S.account s) = suppliedGas.toNat)
    (run S origin input suppliedGas caller) s

/-! ## Slices of words -/

theorem sub_left {left : List UInt8} {n : ℕ} (h : left.length = n) (right : List UInt8) :
    sub (left ++ right) 0 n = .ok left := by
  have hn : n ≤ (left ++ right).length := by
    rw [List.length_append, h]
    exact Nat.le_add_right _ _
  rw [sub, if_pos ⟨Nat.zero_le _, hn⟩, List.take_left' h, List.drop_zero]

theorem sub_right {left right : List UInt8} {n m : ℕ} (h : left.length = n)
    (hm : (left ++ right).length = m) : sub (left ++ right) n m = .ok right := by
  have hn : n ≤ m := by
    rw [← hm, List.length_append, h]
    exact Nat.le_add_right _ _
  rw [sub, if_pos ⟨hn, hm.ge⟩, ← hm, List.take_length, List.drop_left' h]

theorem sub_self (word : Hash) : sub word.toList 0 32 = .ok word.toList := by
  have hword := sub_left word.toList_length []
  rwa [List.append_nil] at hword

section Words

variable (pad : List.Vector UInt8 12) (acc : Address) (rest : List UInt8)

theorem length_account : (pad.toList ++ acc.toList).length = 32 := by
  rw [List.length_append, pad.toList_length, acc.toList_length]

theorem length_words : (pad.toList ++ acc.toList ++ rest).length = 32 + rest.length := by
  rw [List.length_append, length_account]

/-- An address is the end of its word. -/
theorem sub_account : sub (pad.toList ++ acc.toList ++ rest) 12 32 = .ok acc.toList := by
  have hlen : 32 ≤ (pad.toList ++ acc.toList ++ rest).length := by
    rw [length_words]
    exact Nat.le_add_right _ _
  rw [sub, if_pos ⟨by decide, hlen⟩, List.take_left' (length_account pad acc),
    List.drop_left' pad.toList_length]

theorem sub_account_self : sub (pad.toList ++ acc.toList) 12 32 = .ok acc.toList := by
  have hacc := sub_account pad acc []
  rwa [List.append_nil] at hacc

variable {pad acc rest}

theorem account_inj {pad' : List.Vector UInt8 12} {acc' : Address}
    (h : pad.toList ++ acc.toList = pad'.toList ++ acc'.toList) : acc = acc' := by
  have hpad : pad.toList.length = pad'.toList.length := by
    rw [pad.toList_length, pad'.toList_length]
  exact List.Vector.toList_injective (List.append_inj_right h hpad)

/-- The words of an input are determined by it. -/
theorem words_inj {pad' : List.Vector UInt8 12} {acc' : Address} {rest' : List UInt8}
    (h : pad.toList ++ acc.toList ++ rest = pad'.toList ++ acc'.toList ++ rest') :
    acc = acc' ∧ rest = rest' := by
  have hlen : (pad.toList ++ acc.toList).length = (pad'.toList ++ acc'.toList).length := by
    rw [length_account, length_account]
  obtain ⟨haccount, hrest⟩ := List.append_inj h hlen
  exact ⟨account_inj haccount, hrest⟩

theorem bytesTo_toList {n : ℕ} (v : List.Vector UInt8 n) : bytesTo n v.toList = v := by
  apply List.Vector.toList_injective
  exact List.drop_left' (by rw [List.length_replicate, v.toList_length])

/-- Arguments that are long enough begin with the word of an account. -/
theorem exists_words {args : List UInt8} {n : ℕ} (h : args.length = 32 + n) :
    ∃ (pad : List.Vector UInt8 12) (acc : Address) (rest : List.Vector UInt8 n),
      args = pad.toList ++ acc.toList ++ rest.toList := by
  refine ⟨⟨args.take 12, ?_⟩, ⟨(args.drop 12).take 20, ?_⟩, ⟨(args.drop 12).drop 20, ?_⟩, ?_⟩
  · rw [List.length_take]
    omega
  · rw [List.length_take, List.length_drop]
    omega
  · rw [List.length_drop, List.length_drop]
    omega
  · rw [List.append_assoc]
    exact ((congrArg _ (List.take_append_drop 20 _)).trans (List.take_append_drop 12 args)).symm

/-- Two words. -/
theorem exists_append {n m : ℕ} (v : List.Vector UInt8 (n + m)) :
    ∃ (v₁ : List.Vector UInt8 n) (v₂ : List.Vector UInt8 m), v.toList = v₁.toList ++ v₂.toList := by
  refine ⟨⟨v.toList.take n, ?_⟩, ⟨v.toList.drop n, ?_⟩, (List.take_append_drop n _).symm⟩
  · rw [List.length_take, v.toList_length]
    omega
  · rw [List.length_drop, v.toList_length]
    omega

end Words

/-! ## The checks -/

section Checks

variable {S : StateDB} {s : S.State} {ends : UInt64 → S.State → Prop}

/-- A routine fails with an error and nothing written, or ends as it should. -/
abbrev Ends (s : S.State) (ends : UInt64 → S.State → Prop)
    (m : Routine S.State (Fault VmError) UInt64) : Prop :=
  Keeps s (fun fault => fault ≠ .panic) ends m s

/-- A check is a condition of what follows. -/
theorem ends_ensure {c : Prop} [Decidable c] {f : Unit → Routine S.State (Fault VmError) UInt64} :
    Ends s ends (check (ensure c) >>= f) ↔ (c → Ends s ends (f ())) := by
  rw [Ends, keeps_check_bind, ensure]
  split
  · rename_i hc
    exact ⟨fun h _ => h.2 () rfl, fun h => ⟨nofun, fun _ _ => h hc⟩⟩
  · rename_i hc
    simp [hc]

/-- So is the gas that is taken. -/
theorem ends_useGas {suppliedGas cost : UInt64}
    {f : UInt64 → Routine S.State (Fault VmError) UInt64} :
    Ends s ends (check (useGas suppliedGas cost) >>= f) ↔
      (cost ≤ suppliedGas → Ends s ends (f (suppliedGas - cost))) := by
  rw [Ends, keeps_check_bind, useGas]
  split
  · rename_i hlt
    simp [UInt64.not_le.mpr hlt]
  · rename_i hlt
    simp [UInt64.not_lt.mp hlt]

theorem ends_check {α : Type} {x : Except (Fault VmError) α} {a : α} (hx : x = .ok a)
    {f : α → Routine S.State (Fault VmError) UInt64} :
    Ends s ends (check x >>= f) ↔ Ends s ends (f a) := by
  rw [Ends, keeps_check_bind, hx]
  simp

theorem ends_read {α : Type} {get : S.State → α}
    {f : α → Routine S.State (Fault VmError) UInt64} :
    Ends s ends (read get >>= f) ↔ Ends s ends (f (get s)) := keeps_read_bind

end Checks

/-! ## Gas -/

section Gas

variable {suppliedGas a b : UInt64} {n : ℕ}

/-- Gas that is taken in two steps is enough if it is in one. -/
theorem enough_iff (h : a.toNat + b.toNat = n) :
    (a ≤ suppliedGas ∧ b ≤ suppliedGas - a) ↔ n ≤ suppliedGas.toNat := by
  constructor
  · rintro ⟨ha, hb⟩
    rw [UInt64.le_iff_toNat_le, UInt64.toNat_sub_of_le _ _ ha] at hb
    rw [UInt64.le_iff_toNat_le] at ha
    omega
  · intro hn
    have ha : a ≤ suppliedGas := UInt64.le_iff_toNat_le.mpr (by omega)
    refine ⟨ha, ?_⟩
    rw [UInt64.le_iff_toNat_le, UInt64.toNat_sub_of_le _ _ ha]
    omega

theorem left_eq (h : a.toNat + b.toNat = n) :
    suppliedGas - a - b = suppliedGas - UInt64.ofNat n := by
  rw [← h, UInt64.ofNat_add, UInt64.ofNat_toNat, UInt64.ofNat_toNat]
  simp only [UInt64.sub_eq_add_neg, UInt64.neg_add, UInt64.add_assoc]

/-- The cost of code does not wrap. -/
theorem toNat_codeCost {code : List UInt8} (h : code.length < 2 ^ 40) :
    (codeCost code).toNat = code.length * 203 := by
  have hlen : (UInt64.ofNat code.length).toNat = code.length :=
    UInt64.toNat_ofNat_of_lt' (Nat.lt_trans h (by decide))
  rw [codeCost, UInt64.toNat_mul, hlen]
  exact Nat.mod_eq_of_lt (Nat.lt_trans (Nat.mul_lt_mul_of_pos_right h (by decide)) (by decide))

theorem toNat_halfCost {code code' : List UInt8} (h : code.length < 2 ^ 40)
    (h' : code'.length < 2 ^ 40) :
    ((codeCost code + codeCost code') / 2).toNat =
      (code.length * 203 + code'.length * 203) / 2 := by
  rw [UInt64.toNat_div, UInt64.toNat_add, toNat_codeCost h, toNat_codeCost h', Nat.mod_eq_of_lt]
  · rfl
  · omega

end Gas

/-! ## What the methods do -/

namespace Write

/-- The calls that are not refused. -/
def Allowed (origin : Address) : Write → Prop
  | setBalance acc _ => acc ≠ origin
  | incNonce acc diff => acc ≠ origin ∧ diff < 256 ∧ 0 < diff
  | _ => True

/-- What a call writes. -/
def perform (S : StateDB) (s : S.State) : Write → S.State
  | setBalance acc value =>
    if (S.account s acc).balance ≥ value then
      S.subBalance s acc ((S.account s acc).balance - value)
    else S.addBalance s acc (value - (S.account s acc).balance)
  | copyCode accTo accFrom =>
    if accTo ≠ accFrom then S.setCode s accTo (S.account s accFrom).code else s
  | swapCode acc0 acc1 =>
    if acc0 ≠ acc1 then
      S.setCode (S.setCode s acc0 (S.account s acc1).code) acc1 (S.account s acc0).code
    else s
  | setStorage acc key value => S.setState s acc key value
  | incNonce acc diff => S.setNonce s acc ((S.account s acc).nonce + UInt64.ofNat diff)

end Write

section Performs

variable {S : StateDB} {s : S.State} {origin : Address} {args : List UInt8} {suppliedGas : UInt64}
  {ends : UInt64 → S.State → Prop}

/-- A call of the method ends as it should, if it is allowed and there is enough gas. -/
def Performs (s : S.State) (origin : Address) (suppliedGas : UInt64)
    (ends : UInt64 → S.State → Prop) (methodID args : List UInt8) : Prop :=
  ∀ w : Write, w.methodID = methodID → w.Layout args → w.Allowed origin →
    w.cost (S.account s) ≤ suppliedGas.toNat →
      ends (suppliedGas - UInt64.ofNat (w.cost (S.account s))) (w.perform S s)

/-- Arguments of a wrong length are refused. -/
theorem ends_of_length_ne {cost : UInt64} {n : ℕ}
    {f : UInt64 → Unit → Routine S.State (Fault VmError) UInt64} (h : args.length ≠ n) :
    Ends s ends (check (useGas suppliedGas cost) >>= fun gas =>
      check (ensure (args.length = n)) >>= f gas) := by
  rw [ends_useGas, ends_ensure]
  intro _ hn
  exact absurd hn h

/-- Two words for accounts. -/
theorem exists_accounts (h : args.length = 32 + (12 + 20)) :
    ∃ (acc acc' : Address) (pad pad' : List.Vector UInt8 12),
      args = pad.toList ++ acc.toList ++ (pad'.toList ++ acc'.toList) := by
  obtain ⟨pad, acc, word, rfl⟩ := exists_words h
  obtain ⟨pad', acc', hword⟩ := exists_append word
  exact ⟨acc, acc', pad, pad', by rw [hword]⟩

/-- A method is known from what it does with arguments in its format, if all arguments of
the right length are in it and others are refused. -/
theorem ends_iff_performs {m : Routine S.State (Fault VmError) UInt64} {methodID : List UInt8}
    {n : ℕ}
    (hrefused : args.length ≠ n → Ends s ends m)
    (hformat : args.length = n → ∃ w : Write, w.methodID = methodID ∧ w.Layout args)
    (hends : ∀ w : Write, w.methodID = methodID → w.Layout args →
      (Ends s ends m ↔ (w.cost (S.account s) ≤ suppliedGas.toNat → w.Allowed origin →
        ends (suppliedGas - UInt64.ofNat (w.cost (S.account s))) (w.perform S s)))) :
    Ends s ends m ↔ Performs s origin suppliedGas ends methodID args := by
  constructor
  · intro h w hid hlayout hallowed hcost
    exact (hends w hid hlayout).mp h hcost hallowed
  · intro h
    by_cases hlen : args.length = n
    · obtain ⟨w, hid, hlayout⟩ := hformat hlen
      exact (hends w hid hlayout).mpr fun hcost hallowed => h w hid hlayout hallowed hcost
    · exact hrefused hlen

/-- Each method does what its input asks for. -/
theorem ends_setBalance :
    Ends s ends (setBalance S origin args suppliedGas) ↔
      Performs s origin suppliedGas ends setBalanceMethodID args := by
  refine ends_iff_performs ends_of_length_ne (fun hlen => ?_) fun w hid hlayout => ?_
  · obtain ⟨pad, acc, word, hargs⟩ := exists_words (n := 32) hlen
    exact ⟨.setBalance acc _, rfl, pad, word, hargs, rfl⟩
  · cases w with
    | setBalance acc value =>
      obtain ⟨pad, word, rfl, rfl⟩ := hlayout
      have hlen : (pad.toList ++ acc.toList ++ word.toList).length = 64 := by
        rw [length_words, word.toList_length]
      rw [setBalance, ends_useGas, ends_ensure, ends_check (sub_account pad acc _),
        ends_check (sub_right (length_account pad acc) rfl),
        ends_check (sub_self word), ends_ensure, bytesTo_toList]
      exact imp_congr_right fun _ => ⟨fun h => h hlen, fun h _ => h⟩
    | _ => cases hid

theorem ends_copyCode (hcode : ∀ acc, (S.account s acc).code.length < 2 ^ 40) :
    Ends s ends (copyCode S args suppliedGas) ↔
      Performs s origin suppliedGas ends copyCodeMethodID args := by
  refine ends_iff_performs ends_of_length_ne (fun hlen => ?_) fun w hid hlayout => ?_
  · obtain ⟨accTo, accFrom, hpads⟩ := exists_accounts hlen
    exact ⟨.copyCode accTo accFrom, rfl, hpads⟩
  · cases w with
    | copyCode accTo accFrom =>
      obtain ⟨pad, pad', rfl⟩ := hlayout
      have hlen : (pad.toList ++ accTo.toList ++ (pad'.toList ++ accFrom.toList)).length = 64 := by
        rw [length_words, length_account]
      have hcost : createGas.toNat + (codeCost (S.account s accFrom).code).toNat =
          (Write.copyCode accTo accFrom).cost (S.account s) := by
        rw [toNat_codeCost (hcode accFrom)]
        rfl
      rw [copyCode, ends_useGas, ends_ensure, ends_check (sub_account pad accTo _),
        ends_check (sub_right (length_account pad accTo) rfl),
        ends_check (sub_account_self pad' accFrom), ends_read, ends_useGas, bytesTo_toList,
        bytesTo_toList, ← enough_iff hcost, ← left_eq hcost, and_imp]
      exact imp_congr_right fun _ => ⟨fun h hgas _ => h hlen hgas, fun h _ hgas => h hgas trivial⟩
    | _ => cases hid

theorem ends_swapCode (hcode : ∀ acc, (S.account s acc).code.length < 2 ^ 40) :
    Ends s ends (swapCode S args suppliedGas) ↔
      Performs s origin suppliedGas ends swapCodeMethodID args := by
  refine ends_iff_performs ends_of_length_ne (fun hlen => ?_) fun w hid hlayout => ?_
  · obtain ⟨acc0, acc1, hpads⟩ := exists_accounts hlen
    exact ⟨.swapCode acc0 acc1, rfl, hpads⟩
  · cases w with
    | swapCode acc0 acc1 =>
      obtain ⟨pad, pad', rfl⟩ := hlayout
      have hlen : (pad.toList ++ acc0.toList ++ (pad'.toList ++ acc1.toList)).length = 64 := by
        rw [length_words, length_account]
      have hcost : (2 * createGas).toNat +
            ((codeCost (S.account s acc0).code + codeCost (S.account s acc1).code) / 2).toNat =
          (Write.swapCode acc0 acc1).cost (S.account s) := by
        rw [toNat_halfCost (hcode acc0) (hcode acc1)]
        rfl
      -- the source tests the accounts once, the routine before each write
      have hperform : (Write.swapCode acc0 acc1).perform S s =
          if acc0 ≠ acc1 then
            S.setCode (if acc0 ≠ acc1 then S.setCode s acc0 (S.account s acc1).code else s) acc1
              (S.account s acc0).code
          else (if acc0 ≠ acc1 then S.setCode s acc0 (S.account s acc1).code else s) := by
        rw [Write.perform]
        split <;> rfl
      rw [swapCode, ends_useGas, ends_ensure, ends_check (sub_account pad acc0 _),
        ends_check (sub_right (length_account pad acc0) rfl),
        ends_check (sub_account_self pad' acc1), ends_read, ends_read, ends_useGas, bytesTo_toList,
        bytesTo_toList, ← enough_iff hcost, ← left_eq hcost, and_imp, hperform]
      exact imp_congr_right fun _ => ⟨fun h hgas _ => h hlen hgas, fun h _ hgas => h hgas trivial⟩
    | _ => cases hid

theorem ends_setStorage :
    Ends s ends (setStorage S args suppliedGas) ↔
      Performs s origin suppliedGas ends setStorageMethodID args := by
  refine ends_iff_performs ends_of_length_ne (fun hlen => ?_) fun w hid hlayout => ?_
  · obtain ⟨pad, acc, words, rfl⟩ := exists_words (n := 32 + 32) hlen
    obtain ⟨key, value, hwords⟩ := exists_append words
    exact ⟨.setStorage acc key value, rfl, pad, by rw [hwords]⟩
  · cases w with
    | setStorage acc key value =>
      obtain ⟨pad, rfl⟩ := hlayout
      have hrest : (key.toList ++ value.toList).length = 64 := by
        rw [List.length_append, key.toList_length, value.toList_length]
      have hlen : (pad.toList ++ acc.toList ++ (key.toList ++ value.toList)).length = 96 := by
        rw [length_words, hrest]
      rw [setStorage, ends_useGas, ends_ensure, ends_check (sub_account pad acc _),
        ends_check (sub_right (length_account pad acc) rfl),
        ends_check (sub_left key.toList_length _), ends_check (sub_right key.toList_length rfl),
        ends_check (sub_self value), bytesTo_toList, bytesTo_toList, bytesTo_toList]
      exact imp_congr_right fun _ => ⟨fun h _ => h hlen, fun h _ => h trivial⟩
    | _ => cases hid

theorem ends_incNonce :
    Ends s ends (incNonce S origin args suppliedGas) ↔
      Performs s origin suppliedGas ends incNonceMethodID args := by
  refine ends_iff_performs ends_of_length_ne (fun hlen => ?_) fun w hid hlayout => ?_
  · obtain ⟨pad, acc, word, hargs⟩ := exists_words (n := 32) hlen
    exact ⟨.incNonce acc _, rfl, pad, word, hargs, rfl⟩
  · cases w with
    | incNonce acc diff =>
      obtain ⟨pad, word, rfl, rfl⟩ := hlayout
      have hlen : (pad.toList ++ acc.toList ++ word.toList).length = 64 := by
        rw [length_words, word.toList_length]
      rw [incNonce, ends_useGas, ends_ensure, ends_check (sub_account pad acc _),
        ends_check (sub_right (length_account pad acc) rfl),
        ends_check (sub_self word), ends_ensure, ends_ensure, ends_ensure, bytesTo_toList,
        Write.Allowed, and_imp, and_imp]
      exact imp_congr_right fun _ => ⟨fun h => h hlen, fun h _ => h⟩
    | _ => cases hid

/-- **What the contract does**: a call of the driver that is allowed and has enough gas is
performed, and nothing else is. -/
theorem ends_run {caller : Address} {input : List UInt8}
    (hcode : ∀ acc, (S.account s acc).code.length < 2 ^ 40) :
    Ends s ends (run S origin input suppliedGas caller) ↔
      (caller = driverAddress → ∀ w : Write, w.Asked input → w.Allowed origin →
        w.cost (S.account s) ≤ suppliedGas.toNat →
          ends (suppliedGas - UInt64.ofNat (w.cost (S.account s))) (w.perform S s)) := by
  have hmethod : ∀ methodID args, Ends s ends (method S origin args suppliedGas methodID) ↔
      Performs s origin suppliedGas ends methodID args := by
    intro methodID args
    rw [method]
    split_ifs with h₁ h₂ h₃ h₄ h₅
    · rw [h₁, ends_setBalance]
    · rw [h₂, ends_copyCode hcode]
    · rw [h₃, ends_swapCode hcode]
    · rw [h₄, ends_setStorage]
    · rw [h₅, ends_incNonce]
    · -- no method has this ID
      refine ⟨fun _ w hid => ?_, fun _ => ⟨nofun, rfl⟩⟩
      cases w with
      | setBalance => exact absurd hid.symm h₁
      | copyCode => exact absurd hid.symm h₂
      | swapCode => exact absurd hid.symm h₃
      | setStorage => exact absurd hid.symm h₄
      | incNonce => exact absurd hid.symm h₅
  rw [run, ends_ensure, ends_ensure]
  refine imp_congr_right fun _ => ?_
  constructor
  · rintro h w ⟨args, rfl, hlayout⟩
    have hid : w.methodID.length = 4 := by cases w <;> rfl
    have hlen : (w.methodID ++ args).length = 4 + args.length := by rw [List.length_append, hid]
    have hend := h (by rw [hlen]; exact Nat.le_add_right _ _)
    rw [ends_check (sub_left hid args), ends_check (sub_right hid rfl), hmethod] at hend
    exact hend w rfl hlayout
  · intro h hlen
    obtain ⟨methodID, args, hid, rfl⟩ :
        ∃ methodID args, methodID.length = 4 ∧ input = methodID ++ args :=
      ⟨input.take 4, input.drop 4, List.length_take_of_le hlen,
        (List.take_append_drop 4 input).symm⟩
    rw [ends_check (sub_left hid args), ends_check (sub_right hid rfl), hmethod]
    rintro w rfl hlayout
    exact h w ⟨args, rfl, hlayout⟩

end Performs

/-! ## Atomic and confined -/

namespace Write

/-- An input asks for one thing at most. -/
theorem Asked.unique {input : List UInt8} {w w' : Write} (h : w.Asked input) (h' : w'.Asked input) :
    w = w' := by
  obtain ⟨args, rfl, hlayout⟩ := h
  obtain ⟨args', hinput, hlayout'⟩ := h'
  have hlen : w.methodID.length = w'.methodID.length := by cases w <;> cases w' <;> rfl
  obtain ⟨hid, rfl⟩ := List.append_inj hinput hlen
  cases w with
  | setBalance acc value =>
    obtain ⟨pad, word, rfl, rfl⟩ := hlayout
    cases w' with
    | setBalance acc' value' =>
      obtain ⟨pad', word', hwords, rfl⟩ := hlayout'
      obtain ⟨rfl, hword⟩ := words_inj hwords
      rw [hword]
    | _ => cases hid
  | incNonce acc value =>
    obtain ⟨pad, word, rfl, rfl⟩ := hlayout
    cases w' with
    | incNonce acc' value' =>
      obtain ⟨pad', word', hwords, rfl⟩ := hlayout'
      obtain ⟨rfl, hword⟩ := words_inj hwords
      rw [hword]
    | _ => cases hid
  | copyCode acc₁ acc₂ =>
    obtain ⟨pad₁, pad₂, rfl⟩ := hlayout
    cases w' with
    | copyCode acc₁' acc₂' =>
      obtain ⟨pad₁', pad₂', hwords⟩ := hlayout'
      obtain ⟨rfl, hrest⟩ := words_inj hwords
      rw [account_inj hrest]
    | _ => cases hid
  | swapCode acc₁ acc₂ =>
    obtain ⟨pad₁, pad₂, rfl⟩ := hlayout
    cases w' with
    | swapCode acc₁' acc₂' =>
      obtain ⟨pad₁', pad₂', hwords⟩ := hlayout'
      obtain ⟨rfl, hrest⟩ := words_inj hwords
      rw [account_inj hrest]
    | _ => cases hid
  | setStorage acc key value =>
    obtain ⟨pad, rfl⟩ := hlayout
    cases w' with
    | setStorage acc' key' value' =>
      obtain ⟨pad', hwords⟩ := hlayout'
      obtain ⟨rfl, hrest⟩ := words_inj hwords
      have hkey : key.toList.length = key'.toList.length := by
        rw [key.toList_length, key'.toList_length]
      obtain ⟨hk, hv⟩ := List.append_inj hrest hkey
      rw [List.Vector.toList_injective hk, List.Vector.toList_injective hv]
    | _ => cases hid

variable {S : StateDB} {s : S.State} {origin : Address} {w : Write}

/-- What is performed is the effect of the method, if no nonce wraps. -/
theorem effect_perform (hallowed : w.Allowed origin)
    (hnonce : ∀ acc diff, w = incNonce acc diff → (S.account s acc).nonce.toNat + diff < 2 ^ 64) :
    w.Effect (S.account s) (S.account (w.perform S s)) := by
  cases w with
  | setBalance acc value =>
    rw [Effect, perform]
    split
    · rw [S.account_subBalance, onAccount, onAccount, sub_sub_cancel]
    · rw [S.account_addBalance, onAccount, onAccount, add_sub_cancel]
  | copyCode accTo accFrom =>
    rw [Effect, perform]
    split
    · exact S.account_setCode _ _ _
    · rename_i hsame
      rw [not_not.mp hsame]
      exact (Function.update_eq_self _ _).symm
  | swapCode acc0 acc1 =>
    rw [Effect, perform]
    split
    · rename_i hne
      rw [S.account_setCode, S.account_setCode]
      refine ⟨⟨?_, ?_⟩, fun a h0 h1 => ?_⟩
      · rw [onAccount_of_ne _ _ hne, onAccount_self]
      · rw [onAccount_self, onAccount_of_ne _ _ hne.symm]
      · rw [onAccount_of_ne _ _ h1, onAccount_of_ne _ _ h0]
    · rename_i hsame
      rw [not_not.mp hsame]
      exact ⟨⟨rfl, rfl⟩, fun _ _ _ => rfl⟩
  | setStorage acc key value => exact S.account_setState _ _ _ _
  | incNonce acc diff =>
    refine ⟨⟨hallowed.2.2, Nat.le_of_lt_succ hallowed.2.1⟩, _, ?_, S.account_setNonce _ _ _⟩
    have hdiff : (UInt64.ofNat diff).toNat = diff :=
      UInt64.toNat_ofNat_of_lt' (Nat.lt_trans hallowed.2.1 (by decide))
    rw [UInt64.toNat_add, hdiff]
    exact Nat.mod_eq_of_lt (hnonce acc diff rfl)

/-- A change of an account that is not the origin, or that keeps its balance and nonce. -/
theorem origin_onAccount {accounts : Address → Account} {acc : Address} {f : Account → Account}
    (h : acc ≠ origin ∨ ∀ a, (f a).balance = a.balance ∧ (f a).nonce = a.nonce) :
    (onAccount accounts acc f origin).balance = (accounts origin).balance ∧
      (onAccount accounts acc f origin).nonce = (accounts origin).nonce := by
  by_cases hacc : acc = origin
  · obtain hne | hkeeps := h
    · exact absurd hacc hne
    · rw [hacc, onAccount_self]
      exact hkeeps _
  · rw [onAccount_of_ne _ _ (Ne.symm hacc)]
    exact ⟨rfl, rfl⟩

/-- Code is no balance and no nonce. -/
theorem origin_setCode (origin : Address) (s : S.State) (acc : Address) (code : List UInt8) :
    (S.account (S.setCode s acc code) origin).balance = (S.account s origin).balance ∧
      (S.account (S.setCode s acc code) origin).nonce = (S.account s origin).nonce := by
  rw [S.account_setCode]
  exact origin_onAccount (.inr fun _ => ⟨rfl, rfl⟩)

/-- The origin keeps its balance and its nonce. -/
theorem origin_perform (hallowed : w.Allowed origin) :
    (S.account (w.perform S s) origin).balance = (S.account s origin).balance ∧
      (S.account (w.perform S s) origin).nonce = (S.account s origin).nonce := by
  cases w with
  | setBalance acc value =>
    rw [perform]
    split
    · rw [S.account_subBalance]
      exact origin_onAccount (.inl hallowed)
    · rw [S.account_addBalance]
      exact origin_onAccount (.inl hallowed)
  | copyCode accTo accFrom =>
    rw [perform]
    split
    · exact origin_setCode origin s _ _
    · exact ⟨rfl, rfl⟩
  | swapCode acc0 acc1 =>
    rw [perform]
    split
    · have h0 := origin_setCode origin s acc0 (S.account s acc1).code
      have h1 := origin_setCode origin
        (S.setCode s acc0 (S.account s acc1).code) acc1 (S.account s acc0).code
      exact ⟨h1.1.trans h0.1, h1.2.trans h0.2⟩
    · exact ⟨rfl, rfl⟩
  | setStorage acc key value =>
    rw [perform, S.account_setState]
    exact origin_onAccount (.inr fun _ => ⟨rfl, rfl⟩)
  | incNonce acc diff =>
    rw [perform, S.account_setNonce]
    exact origin_onAccount (.inl hallowed.1)

end Write

section Confined

variable (S : StateDB) (s : S.State) (caller origin : Address) (input : List UInt8)
  (suppliedGas : UInt64)

theorem toNat_left {suppliedGas : UInt64} {cost : ℕ} (h : cost ≤ suppliedGas.toNat) :
    (suppliedGas - UInt64.ofNat cost).toNat + cost = suppliedGas.toNat := by
  have hcost : (UInt64.ofNat cost).toNat = cost :=
    UInt64.toNat_ofNat_of_lt' (Nat.lt_of_le_of_lt h suppliedGas.toNat_lt)
  have hle : UInt64.ofNat cost ≤ suppliedGas := UInt64.le_iff_toNat_le.mpr (by rwa [hcost])
  rw [UInt64.toNat_sub_of_le _ _ hle, hcost, Nat.sub_add_cancel h]

/-- No gas is made. -/
theorem returnedGas_le (hcode : ∀ acc, (S.account s acc).code.length < 2 ^ 40) :
    returnedGas (run S origin input suppliedGas caller s).1 ≤ suppliedGas := by
  have hends : Ends s (fun gas _ => gas ≤ suppliedGas) (run S origin input suppliedGas caller) := by
    rw [ends_run hcode]
    intro _ w _ _ hcost
    exact UInt64.le_iff_toNat_le.mpr (Nat.le.intro (toNat_left hcost))
  rw [Ends, Keeps] at hends
  match hrun : run S origin input suppliedGas caller s with
  | (.ok gas, s') =>
    rw [hrun] at hends
    exact hends
  | (.error fault, s') => exact UInt64.zero_le

/-- **The contract is atomic and confined** unless it increases a nonce beyond `uint64`. It
allows increases below 256 only, but it does not look at the nonce. -/
theorem confined_iff (hcode : ∀ acc, (S.account s acc).code.length < 2 ^ 40) :
    Confined S s caller origin input suppliedGas ↔
      ∀ acc diff, (Write.incNonce acc diff).Asked input → caller = driverAddress →
        acc ≠ origin → 0 < diff → diff < 256 → callValueTransferGas ≤ suppliedGas →
          (S.account s acc).nonce.toNat + diff < 2 ^ 64 := by
  constructor
  · rintro ⟨-, hends⟩ acc diff hasked hcaller hne hpos hlt hgas
    obtain ⟨-, -, w, hw, heffect, -⟩ :=
      (ends_run hcode).mp hends hcaller (.incNonce acc diff) hasked ⟨hne, hlt, hpos⟩ hgas
    obtain rfl := hasked.unique hw
    obtain ⟨-, nonce, hnonce, -⟩ := heffect
    rw [← hnonce]
    exact nonce.toNat_lt
  · intro h
    refine ⟨returnedGas_le S s caller origin input suppliedGas hcode, (ends_run hcode).mpr ?_⟩
    intro hcaller w hasked hallowed hcost
    refine ⟨hcaller, w.origin_perform hallowed, w, hasked, w.effect_perform hallowed ?_,
      toNat_left hcost⟩
    rintro acc diff rfl
    exact h acc diff hasked hcaller hallowed.1 hallowed.2.2 hallowed.2.1 hcost

end Confined

/-- Accounts in a function. -/
def accountsDB : StateDB where
  State := Address → Account
  account s := s
  addBalance s acc amount := onAccount s acc fun a => { a with balance := a.balance + amount }
  subBalance s acc amount := onAccount s acc fun a => { a with balance := a.balance - amount }
  setNonce s acc nonce := onAccount s acc fun a => { a with nonce := nonce }
  setCode s acc code := onAccount s acc fun a => { a with code := code }
  setState s acc key value :=
    onAccount s acc fun a => { a with storage := Function.update a.storage key value }
  account_addBalance _ _ _ := rfl
  account_subBalance _ _ _ := rfl
  account_setNonce _ _ _ := rfl
  account_setCode _ _ _ := rfl
  account_setState _ _ _ _ := rfl

/-- All accounts have the same nonce, and nothing else. -/
def nonceState (nonce : UInt64) : accountsDB.State :=
    fun _ => ⟨0, nonce, [], fun _ => copyBytes 32 []⟩

/-- The nonce of the account 1 is increased by 1. -/
def incNonceInput : List UInt8 :=
  incNonceMethodID ++ ((List.replicate 31 0 ++ [1]) ++ (List.replicate 31 0 ++ [1]))

/-- The account 1. -/
def account1 : Address := bytesTo 20 [1]

theorem incNonceInput_asked : (Write.incNonce account1 1).Asked incNonceInput := by
  refine ⟨_, rfl, copyBytes 12 [], bytesTo 32 [1], by decide, by decide +kernel⟩

theorem confined_incNonce :
    Confined accountsDB (nonceState 5) driverAddress (bytesTo 20 []) incNonceInput 10000 := by
  refine (confined_iff accountsDB (nonceState 5) driverAddress (bytesTo 20 []) incNonceInput 10000
    fun _ => Nat.two_pow_pos 40).mpr ?_
  intro acc diff hasked _ _ _ hdiff _
  have hnonce : (5 : UInt64).toNat + diff < 2 ^ 64 := by
    have h5 : (5 : UInt64).toNat = 5 := rfl
    omega
  exact hnonce

/-- The largest nonce wraps to zero. -/
theorem incNonce_wraps :
    (∀ acc, (accountsDB.account (nonceState maxUint64) acc).code.length < 2 ^ 40) ∧
      ((run accountsDB (bytesTo 20 []) incNonceInput 10000 driverAddress
        (nonceState maxUint64)).2 account1).nonce = 0 ∧
      ¬ Confined accountsDB (nonceState maxUint64) driverAddress (bytesTo 20 []) incNonceInput
        10000 := by
  have hcode : ∀ acc, (accountsDB.account (nonceState maxUint64) acc).code.length < 2 ^ 40 :=
    fun _ => Nat.two_pow_pos 40
  refine ⟨hcode, by decide +kernel, fun h => ?_⟩
  have hends : Ends (nonceState maxUint64) _ _ := h.2
  obtain ⟨-, -, w, hw, heffect, -⟩ := (ends_run hcode).mp hends rfl (.incNonce account1 1)
    incNonceInput_asked ⟨by decide, by decide, by decide⟩ (by decide)
  obtain rfl := incNonceInput_asked.unique hw
  obtain ⟨-, nonce, hnonce, -⟩ := heffect
  have hlt := nonce.toNat_lt
  rw [hnonce] at hlt
  exact absurd hlt (by decide)

end EvmWriter

end Zilionixx
