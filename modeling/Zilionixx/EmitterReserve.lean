import Zilionixx.EmitterTxs
import Zilionixx.GasAccounting

/-!
# The gas reserve of the emitter, and the cap on pending gas

`maxGasPowerToUse` cuts the gas of a new event several times: to `MaxEventGas`, to a
smoothed rate, to what may be pending, and to what is left above `NoTxsThreshold`. Each
cut only lowers it, so the last two bounds hold of the result (`Budget`), and the loop of
`addTxs` stays below the result.

The cuts are differences of machine words. `maxGasPowerToUseChecked` and `addTxsChecked`
stop where a subtraction wraps, and never do.
-/

namespace Zilionixx

namespace GasPowerLeft

/-- The minimum is one of the two. -/
theorem exists_gas_eq_min (g : GasPowerLeft) : ∃ i, g.gas i = g.min := by
  rw [min]
  simp only [gt_iff_lt, UInt64.lt_irrefl, if_false]
  split
  · exact ⟨1, rfl⟩
  · exact ⟨0, rfl⟩

theorem min_sub_le {g : GasPowerLeft} {diff : UInt64} (h : diff ≤ g.min) :
    (g.sub diff).min ≤ g.min := by
  obtain ⟨i, hi⟩ := g.exists_gas_eq_min
  rw [← hi] at h ⊢
  exact UInt64.le_trans ((g.sub diff).min_le i) (VM.sub_le h)

end GasPowerLeft

/-! ## Checked subtractions -/

/-- What `a` exceeds `b` by. -/
def checkedExcess (a b : UInt64) : Option UInt64 := if a > b then checkedSub a b else some 0

theorem checkedExcess_eq (a b : UInt64) :
    checkedExcess a b = some (if a > b then a - b else 0) := by
  unfold checkedExcess
  split
  · exact checkedSub_of_le (UInt64.le_of_lt ‹_›)
  · rfl

/-- `Sub` -/
def GasPowerLeft.subChecked (g : GasPowerLeft) (diff : UInt64) : Option GasPowerLeft := do
  let short ← checkedSub (g.gas 0) diff
  let long ← checkedSub (g.gas 1) diff
  pure ⟨![short, long]⟩

theorem GasPowerLeft.subChecked_eq {g : GasPowerLeft} {diff : UInt64} (h : diff ≤ g.min) :
    g.subChecked diff = some (g.sub diff) := by
  rw [subChecked, checkedSub_of_le (UInt64.le_trans h (g.min_le 0)),
    checkedSub_of_le (UInt64.le_trans h (g.min_le 1))]
  refine congrArg some (congrArg GasPowerLeft.mk (funext fun i => ?_))
  fin_cases i <;> rfl

namespace Originator

variable (em : Originator)

/-- `smoothTps`; the outer `none` is a subtraction that wraps, here and below. -/
def smoothTpsChecked (gasPowerLeft maxGasToUse : UInt64) : Option (Option UInt64) :=
  let upperThreshold := em.config.limitedTpsThreshold
  let downThreshold := em.config.noTxsThreshold
  if gasPowerLeft < downThreshold then some none
  else do
    let newGasPowerLeft ← checkedExcess gasPowerLeft maxGasToUse
    let x1 := if newGasPowerLeft < downThreshold then downThreshold else newGasPowerLeft
    let x2 := if gasPowerLeft > upperThreshold then upperThreshold else gasPowerLeft
    let trespassingPart ← checkedExcess x2 x1
    let healthyPart ← checkedExcess gasPowerLeft x2
    let smoothGasToUse := healthyPart + trespassingPart / 2
    pure (some (if maxGasToUse > smoothGasToUse then smoothGasToUse else maxGasToUse))

/-- `smoothGas` -/
def smoothGasChecked (e : MutableEventPayload) (maxGasToUse : UInt64) :
    Option (Option (Option UInt64)) :=
  if em.config.limitedTpsThreshold > em.config.noTxsThreshold then
    match em.estimatedAlloc e with
    | none => some none
    | some alloc => (em.smoothTpsChecked (e.gasPowerLeft.min + alloc) maxGasToUse).map some
  else some (some (some maxGasToUse))

/-- `limitPending` -/
def limitPendingChecked (maxGasToUse : UInt64) : Option (Option UInt64) :=
  if em.maxPendingGas ≤ em.pendingGas then some none
  else if em.maxPendingGas < em.pendingGas + maxGasToUse then
    (checkedSub em.maxPendingGas em.pendingGas).map some
  else some (some maxGasToUse)

/-- `limitLeft` -/
def limitLeftChecked (left maxGasToUse : UInt64) : Option (Option UInt64) :=
  let threshold := em.config.noTxsThreshold
  if left ≤ threshold then some none
  else if left < threshold + maxGasToUse then (checkedSub left threshold).map some
  else some (some maxGasToUse)

/-- The last two cuts, one after the other. -/
def limitsChecked (left : UInt64) : Option UInt64 → Option (Option UInt64)
  | none => some none
  | some g => do
    match ← em.limitPendingChecked g with
    | none => pure none
    | some g => em.limitLeftChecked left g

/-- `maxGasPowerToUse` -/
def maxGasPowerToUseChecked (e : MutableEventPayload) : Option (Option UInt64) := do
  let left := e.gasPowerLeft.min
  let maxEventGas := em.rules.economy.gas.maxEventGas
  let maxGasToUse := if maxEventGas > left then left else maxEventGas
  match ← em.smoothGasChecked e maxGasToUse with
  | none => pure none
  | some smooth => (em.limitsChecked left smooth).map fun g => some (g.getD 0)

/-- A transaction is added to an event. -/
def addTxChecked (e : MutableEventPayload) (tx : Transaction) : Option MutableEventPayload := do
  let gasPowerLeft ← e.gasPowerLeft.subChecked tx.gas
  pure { e with
    gasPowerUsed := e.gasPowerUsed + tx.gas
    gasPowerLeft := gasPowerLeft
    txs := e.txs ++ [tx] }

/-- The loop in `addTxs`. -/
def addTxsLoopChecked (maxGasUsed : UInt64) :
    ℕ → SortedTxs → MutableEventPayload → Option (Option MutableEventPayload)
  | _, .empty, e => some (some e)
  | pass, .peek tx pop shift, e =>
    match em.chooseTx maxGasUsed pass e tx with
    | none => some none
    | some .stop => some (some e)
    | some .pop => addTxsLoopChecked maxGasUsed (pass + 1) pop e
    | some .add => do
      let e ← addTxChecked e tx
      addTxsLoopChecked maxGasUsed (pass + 1) shift e

/-- `addTxs` -/
def addTxsChecked (e : MutableEventPayload) (sorted : SortedTxs) :
    Option (Option MutableEventPayload) := do
  match ← em.maxGasPowerToUseChecked e with
  | none => pure none
  | some maxGasUsed =>
    if maxGasUsed ≤ e.gasPowerUsed then pure (some e)
    else em.addTxsLoopChecked maxGasUsed 0 sorted e

theorem smoothTpsChecked_eq (gasPowerLeft maxGasToUse : UInt64) :
    em.smoothTpsChecked gasPowerLeft maxGasToUse =
      some (em.smoothTps gasPowerLeft maxGasToUse) := by
  unfold smoothTpsChecked smoothTps
  simp only [checkedExcess_eq, Option.bind_eq_bind, Option.bind_some]
  split <;> rfl

theorem smoothGasChecked_eq (e : MutableEventPayload) (maxGasToUse : UInt64) :
    em.smoothGasChecked e maxGasToUse = some (em.smoothGas e maxGasToUse) := by
  unfold smoothGasChecked smoothGas
  simp only [smoothTpsChecked_eq]
  split
  · cases em.estimatedAlloc e <;> rfl
  · rfl

theorem limitPendingChecked_eq (g : UInt64) :
    em.limitPendingChecked g = some (em.limitPending g) := by
  unfold limitPendingChecked limitPending
  split
  · rfl
  · rename_i hpending
    rw [checkedSub_of_le (UInt64.le_of_lt (UInt64.not_le.mp hpending))]
    split <;> rfl

theorem limitLeftChecked_eq (left g : UInt64) :
    em.limitLeftChecked left g = some (em.limitLeft left g) := by
  unfold limitLeftChecked limitLeft
  simp only
  split
  · rfl
  · rename_i hleft
    rw [checkedSub_of_le (UInt64.le_of_lt (UInt64.not_le.mp hleft))]
    split <;> rfl

theorem limitsChecked_eq (left : UInt64) (smooth : Option UInt64) :
    em.limitsChecked left smooth =
      some (smooth.bind fun g => (em.limitPending g).bind (em.limitLeft left)) := by
  cases smooth with
  | none => rfl
  | some g =>
    rw [limitsChecked, limitPendingChecked_eq]
    cases hpending : em.limitPending g with
    | none => simp [hpending]
    | some g => simp [hpending, limitLeftChecked_eq]

/-- No subtraction of `maxGasPowerToUse` wraps. -/
theorem maxGasPowerToUseChecked_eq (e : MutableEventPayload) :
    em.maxGasPowerToUseChecked e = some (em.maxGasPowerToUse e) := by
  unfold maxGasPowerToUseChecked maxGasPowerToUse
  simp only [smoothGasChecked_eq, Option.bind_eq_bind, Option.bind_some]
  cases em.smoothGas e _ with
  | none => rfl
  | some smooth => simp [limitsChecked_eq]

theorem addTxChecked_eq {e : MutableEventPayload} {tx : Transaction}
    (h : tx.gas ≤ e.gasPowerLeft.min) : addTxChecked e tx = some (e.addTx tx) := by
  rw [addTxChecked, GasPowerLeft.subChecked_eq h]
  rfl

theorem addTxsLoopChecked_eq (maxGasUsed : UInt64) (pass : ℕ) (sorted : SortedTxs)
    (e : MutableEventPayload) :
    em.addTxsLoopChecked maxGasUsed pass sorted e =
      some (em.addTxsLoop maxGasUsed pass sorted e) := by
  induction sorted generalizing pass e with
  | empty => rfl
  | peek tx pop shift ihpop ihshift =>
    rw [addTxsLoopChecked, addTxsLoop]
    cases hchoice : em.chooseTx maxGasUsed pass e tx with
    | none => rfl
    | some choice =>
      cases choice with
      | stop => rfl
      | pop => exact ihpop _ _
      | add =>
        -- the choice has compared the gas with what is left
        have hgas := UInt64.le_of_lt (chooseTx_eq_add hchoice).1
        simp only [addTxChecked_eq hgas, Option.bind_eq_bind, Option.bind_some]
        exact ihshift _ _

/-- No subtraction of `addTxs` wraps. -/
theorem addTxsChecked_eq (e : MutableEventPayload) (sorted : SortedTxs) :
    em.addTxsChecked e sorted = some (em.addTxs e sorted) := by
  unfold addTxsChecked addTxs
  simp only [maxGasPowerToUseChecked_eq, Option.bind_eq_bind, Option.bind_some]
  cases em.maxGasPowerToUse e with
  | none => rfl
  | some maxGasUsed =>
    simp only [Option.bind_some, addTxsLoopChecked_eq]
    split <;> rfl

/-! ## The budget -/

/-- The most gas that may be pending, in unbounded integers. -/
def exactMaxPendingGas : ℕ :=
  max (em.rules.blocks.maxBlockGas.toNat * 3 / 5)
    (em.rules.economy.gas.maxEventGas.toNat +
      em.rules.economy.gas.eventGas.toNat * em.validators.len)

/-- A bound on the gas that an event may use. -/
structure Budget (left budget : UInt64) : Prop where
  pending : em.pendingGas.toNat + budget.toNat ≤ em.maxPendingGas.toNat
  reserve : em.config.noTxsThreshold.toNat + budget.toNat ≤ left.toNat

variable {em}

/-- A bound that is cut to what is missing to a limit. -/
theorem add_cut_le {limit base g g' : UInt64} (hbase : base < limit) (hlimit : limit.toNat < 2 ^ 63)
    (hg : g.toNat < 2 ^ 63) (hg' : (if limit < base + g then limit - base else g) = g') :
    base.toNat + g'.toNat ≤ limit.toNat := by
  have hlt := UInt64.lt_iff_toNat_lt.mp hbase
  have hsum : (base + g).toNat = base.toNat + g.toNat := toNat_add_of_lt (by omega)
  subst hg'
  split
  · rw [UInt64.toNat_sub_of_le _ _ (UInt64.le_of_lt hbase)]
    omega
  · rename_i hle
    rw [← hsum]
    exact UInt64.le_iff_toNat_le.mp (UInt64.not_lt.mp hle)

theorem limitPending_add_le {g g' : UInt64} (hmax : em.maxPendingGas.toNat < 2 ^ 63)
    (hg : g.toNat < 2 ^ 63) (h : em.limitPending g = some g') :
    em.pendingGas.toNat + g'.toNat ≤ em.maxPendingGas.toNat := by
  rw [limitPending, Option.ite_none_left_eq_some, ← apply_ite some, Option.some.injEq] at h
  exact add_cut_le (UInt64.not_le.mp h.1) hmax hg h.2

theorem limitLeft_add_le {left g g' : UInt64} (hleft : left.toNat < 2 ^ 63)
    (hg : g.toNat < 2 ^ 63) (h : em.limitLeft left g = some g') :
    em.config.noTxsThreshold.toNat + g'.toNat ≤ left.toNat := by
  simp only [limitLeft] at h
  rw [Option.ite_none_left_eq_some, ← apply_ite some, Option.some.injEq] at h
  exact add_cut_le (UInt64.not_le.mp h.1) hleft hg h.2

/-- What `maxGasPowerToUse` returns is a budget, unless it is zero. -/
theorem budget_of_maxGasPowerToUse {e : MutableEventPayload} {g : UInt64}
    (hmax : em.maxPendingGas.toNat < 2 ^ 63) (hleft : e.gasPowerLeft.min.toNat < 2 ^ 63)
    (h : em.maxGasPowerToUse e = some g) (hg : 0 < g) : em.Budget e.gasPowerLeft.min g := by
  obtain ⟨smooth, hsmooth, h⟩ := Option.bind_eq_some_iff.mp h
  obtain rfl := Option.some.inj h
  cases hcut : smooth.bind fun g => (em.limitPending g).bind (em.limitLeft e.gasPowerLeft.min) with
  | none =>
    rw [hcut] at hg
    exact absurd hg (UInt64.lt_irrefl 0)
  | some g₃ =>
    obtain ⟨g₁, rfl, hlimits⟩ := Option.bind_eq_some_iff.mp hcut
    obtain ⟨g₂, hpending, hlimit⟩ := Option.bind_eq_some_iff.mp hlimits
    -- the first two cuts leave less than 2 ^ 63, so that no sum wraps in the others
    have h₁ : g₁.toNat < 2 ^ 63 := by
      have hle := UInt64.le_iff_toNat_le.mp (smoothGas_le hsmooth)
      have hfirst := (Gaspowercheck.toNat_cut_le em.rules.economy.gas.maxEventGas
        e.gasPowerLeft.min).1
      omega
    have h₂ : g₂.toNat ≤ g₁.toNat := UInt64.le_iff_toNat_le.mp (limitPending_le hpending)
    have h₃ : g₃.toNat ≤ g₂.toNat := UInt64.le_iff_toNat_le.mp (limitLeft_le hlimit)
    refine ⟨?_, limitLeft_add_le hleft (by omega) hlimit⟩
    have hsum := limitPending_add_le hmax h₁ hpending
    change em.pendingGas.toNat + g₃.toNat ≤ _
    omega

/-- If a transaction is added, the budget was not used up before. -/
theorem below_of_addTxs {e e' : MutableEventPayload} {sorted : SortedTxs}
    (h : em.addTxs e sorted = some e') (hadded : e'.txs ≠ e.txs) :
    ∃ budget, em.maxGasPowerToUse e = some budget ∧ e.gasPowerUsed < budget ∧
      Extends budget e e' := by
  obtain ⟨budget, hbudget, h⟩ := Option.bind_eq_some_iff.mp h
  refine ⟨budget, hbudget, ?_⟩
  split at h
  · cases h
    exact absurd rfl hadded
  · exact ⟨UInt64.not_le.mp ‹_›, extends_of_addTxsLoop h⟩

/-- While transactions are added, what is used and what is left of a kind add up to the
same, and the budget is not reached. -/
theorem Extends.accounts {budget : UInt64} {e e' : MutableEventPayload} (h : Extends budget e e')
    (hbudget : budget.toNat < 2 ^ 63) (hused : e.gasPowerUsed < budget)
    (hleft : e.gasPowerLeft.min.toNat < 2 ^ 63) :
    e'.gasPowerUsed < budget ∧ ∀ i, (e'.gasPowerLeft.gas i).toNat + e'.gasPowerUsed.toNat =
      (e.gasPowerLeft.gas i).toNat + e.gasPowerUsed.toNat := by
  induction h with
  | refl => exact ⟨hused, fun i => rfl⟩
  | @add e e' tx left used rest ih =>
    have hgas := UInt64.le_of_lt left
    have hmin := UInt64.le_iff_toNat_le.mp (GasPowerLeft.min_sub_le hgas)
    obtain ⟨hlt, hsum⟩ := ih used (Nat.lt_of_le_of_lt hmin hleft)
    refine ⟨hlt, fun i => (hsum i).trans ?_⟩
    have hkind := GasPowerLeft.toNat_gas_sub hgas i
    have hadd : (e.gasPowerUsed + tx.gas).toNat = e.gasPowerUsed.toNat + tx.gas.toNat := by
      have := UInt64.lt_iff_toNat_lt.mp left
      have := UInt64.lt_iff_toNat_lt.mp hused
      exact toNat_add_of_lt (by omega)
    change ((e.gasPowerLeft.sub tx.gas).gas i).toNat + (e.gasPowerUsed + tx.gas).toNat = _
    omega

/-- Wrapping only lowers the cap on pending gas. -/
theorem maxPendingGas_le (em : Originator) : em.maxPendingGas.toNat ≤ em.exactMaxPendingGas := by
  have hblock : (em.rules.blocks.maxBlockGas * 3 / 5).toNat ≤
      em.rules.blocks.maxBlockGas.toNat * 3 / 5 := by
    rw [UInt64.toNat_div, UInt64.toNat_mul]
    exact Nat.div_le_div_right (Nat.mod_le _ _)
  have hevent : (em.rules.economy.gas.maxEventGas +
        em.rules.economy.gas.eventGas * UInt64.ofNat em.validators.len).toNat ≤
      em.rules.economy.gas.maxEventGas.toNat +
        em.rules.economy.gas.eventGas.toNat * em.validators.len := by
    rw [UInt64.toNat_add, UInt64.toNat_mul, UInt64.toNat_ofNat']
    refine (Nat.mod_le _ _).trans (Nat.add_le_add_left ((Nat.mod_le _ _).trans ?_) _)
    exact Nat.mul_le_mul_left _ (Nat.mod_le _ _)
  rw [maxPendingGas, max64, exactMaxPendingGas]
  split
  · exact hblock.trans (Nat.le_max_left _ _)
  · exact hevent.trans (Nat.le_max_right _ _)

end Originator

/-- **The gas reserve and the cap on pending gas.** No subtraction wraps in
`maxGasPowerToUse` and `addTxs`. If `addTxs` adds a transaction, then more gas power than
`NoTxsThreshold` is left of each kind, and the pending gas with that of the event is below
the cap; where the cap itself wraps, it is lower than it should be. -/
theorem emitter_keeps_reserve (em : Originator) (e : MutableEventPayload) (sorted : SortedTxs) :
    em.maxGasPowerToUseChecked e = some (em.maxGasPowerToUse e) ∧
      em.addTxsChecked e sorted = some (em.addTxs e sorted) ∧
      (em.maxPendingGas.toNat < 2 ^ 63 → e.gasPowerLeft.min.toNat < 2 ^ 63 →
        ∀ e', em.addTxs e sorted = some e' → e'.txs ≠ e.txs →
          em.config.noTxsThreshold < e'.gasPowerLeft.min ∧
          em.pendingGas.toNat + e'.gasPowerUsed.toNat < em.maxPendingGas.toNat ∧
          em.maxPendingGas.toNat ≤ em.exactMaxPendingGas) := by
  refine ⟨em.maxGasPowerToUseChecked_eq e, em.addTxsChecked_eq e sorted, ?_⟩
  intro hmax hleft e' hadd hadded
  obtain ⟨budget, hbudget, hpassed, hextends⟩ := Originator.below_of_addTxs hadd hadded
  have hpos : 0 < budget := UInt64.lt_of_le_of_lt UInt64.zero_le hpassed
  obtain ⟨hpending, hreserve⟩ := Originator.budget_of_maxGasPowerToUse hmax hleft hbudget hpos
  obtain ⟨hlt, hsum⟩ := hextends.accounts (by omega) hpassed hleft
  have hused := UInt64.lt_iff_toNat_lt.mp hlt
  refine ⟨?_, by omega, em.maxPendingGas_le⟩
  obtain ⟨i, hi⟩ := e'.gasPowerLeft.exists_gas_eq_min
  have hkind := UInt64.le_iff_toNat_le.mp (e.gasPowerLeft.min_le i)
  have hi' := hsum i
  rw [← hi, UInt64.lt_iff_toNat_lt]
  omega

/-- An emitter that keeps a reserve of 30000 gas. -/
def reserveOriginator : Originator :=
  { sampleOriginator with config := ⟨0, 30000⟩, pendingGas := 1000 }

theorem emitter_keeps_reserve_twoTransfers :
    ∃ e₁ e₂, sampleBuilder.buildEvent firstEvent = .ok e₁ ∧
      reserveOriginator.addTxs e₁ twoTransfers = some e₂ ∧
      e₂.txs = [Epochcheck.transferWith 21000] ∧ 30000 < e₂.gasPowerLeft.min ∧
      1000 + e₂.gasPowerUsed.toNat < reserveOriginator.maxPendingGas.toNat := by
  have hbuild : ∃ e₁, sampleBuilder.buildEvent firstEvent = .ok e₁ ∧
      e₁.gasPowerLeft.min.toNat < 2 ^ 63 ∧
      ∃ e₂, reserveOriginator.addTxs e₁ twoTransfers = some e₂ ∧
        e₂.txs = [Epochcheck.transferWith 21000] ∧ e₂.txs ≠ e₁.txs :=
    ⟨_, rfl, by decide +kernel, by decide +kernel⟩
  obtain ⟨e₁, hbuild, hleft, e₂, hadd, htxs, hadded⟩ := hbuild
  obtain ⟨-, -, hreserve⟩ := emitter_keeps_reserve reserveOriginator e₁ twoTransfers
  obtain ⟨hthreshold, hpending, -⟩ := hreserve (by decide +kernel) hleft e₂ hadd hadded
  exact ⟨e₁, e₂, hbuild, hadd, htxs, hthreshold, hpending⟩

end Zilionixx
