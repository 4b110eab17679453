import Zilionixx.BlockRun
import Zilionixx.EvmStateReader

/-!
# Gas refunds and originated fees

For each receipt, the gas that was not used is refunded to the originator of the
transaction, and the fee is counted as originated by it. Both are kept in the
state of the validator, at the index it has in the current epoch. When the epoch is
sealed, the refund moves to the state of the new epoch, and the validator to its new
index; the receipts of that block come after.
-/

namespace Zilionixx

/-! ## Calls of `OnNewReceipt` -/

/-- A call of `OnNewReceipt`. -/
structure ReceiptCall where
  tx : BlockTx
  receipt : Receipt
  originator : ValidatorID

namespace ReceiptCall

/-- The gas to refund, `tx.Gas() - r.GasUsed`. -/
def notUsedGas (c : ReceiptCall) : ℕ := c.tx.gas.toNat - c.receipt.gasUsed.toNat

/-- The fee, `r.GasUsed * tx.GasPrice()`. -/
def txFee (c : ReceiptCall) : ℤ := c.receipt.gasUsed.toNat * c.tx.gasPrice

end ReceiptCall

/-- The calls of `OnNewReceipt` that `onNewReceipts` makes. -/
def receiptCalls (es : EpochState) (creatorOf : Hash → ValidatorID) :
    List BlockTx → List Receipt → List ReceiptCall
  | tx :: txs, r :: receipts =>
    let creator := creatorOf r.txHash
    let creator := if creator ≠ 0 ∧ es.validators.get creator = 0 then 0 else creator
    ⟨tx, r, creator⟩ :: receiptCalls es creatorOf txs receipts
  | _, _ => []

/-- The calls of `OnNewReceipt` in a block, with the epoch state that is stored
after the block. -/
def Outcome.receiptCalls (W : World) (es : EpochState) : Outcome → List ReceiptCall
  | skipped => []
  | processed block =>
    Zilionixx.receiptCalls es (eventCreator W block.blockEvents) block.evmBlock.transactions
      block.receipts

/-- The calls in a block with a given originator. -/
def credited (W : World) (v : ValidatorID) (r : EpochState × Outcome) : List ReceiptCall :=
  (r.2.receiptCalls W r.1).filter fun c => c.originator = v

/-- The `GasRefund` that a validator is assigned when a block seals the epoch. -/
def assigned (v : ValidatorID) (r : EpochState × Outcome) : List UInt64 :=
  if r.2.seals then
    (r.1.validatorStates[r.1.validators.getIdx v]?.map ValidatorEpochState.gasRefund).toList
  else []

/-- Blocks over any number of epochs, with the epoch state after each block and what
becomes of the block. -/
inductive Run (W : World) :
    BlockState → EpochState → List (EpochState × Outcome) → BlockState → EpochState → Prop where
  | nil (bs : BlockState) (es : EpochState) : Run W bs es [] bs es
  | cons {bs bs₁ bs' : BlockState} {es es₁ es' : EpochState} {b : BlockInput} {o : Outcome}
      {blocks : List (EpochState × Outcome)} (step : step W bs es b = some ((bs₁, es₁), o))
      (rest : Run W bs₁ es₁ blocks bs' es') : Run W bs es ((es₁, o) :: blocks) bs' es'

variable {W : World} {bs bs' : BlockState} {es es' : EpochState} {b : BlockInput} {o : Outcome}
  {v : ValidatorID} {info info' : ValidatorBlockState} {calls : List ReceiptCall}
  {calls' : List ReceiptCall}

/-! ## Receipts -/

/-- What a validator has got from some calls. -/
structure Credits (calls : List ReceiptCall) (info info' : ValidatorBlockState) : Prop where
  dirtyGasRefund : info'.dirtyGasRefund.toNat =
    info.dirtyGasRefund.toNat + (calls.map ReceiptCall.notUsedGas).sum
  originated : info'.originated = info.originated + (calls.map ReceiptCall.txFee).sum

/-- The gas of these calls can be refunded without wrapping around. -/
structure Refundable (calls : List ReceiptCall) (info : ValidatorBlockState) : Prop where
  gasUsed : ∀ c ∈ calls, c.receipt.gasUsed ≤ c.tx.gas
  sum : info.dirtyGasRefund.toNat + (calls.map ReceiptCall.notUsedGas).sum < 2 ^ 64

theorem Credits.nil (info : ValidatorBlockState) : Credits [] info info where
  dirtyGasRefund := rfl
  originated := (add_zero _).symm

theorem Credits.append {info'' : ValidatorBlockState} (h : Credits calls info info')
    (h' : Credits calls' info' info'') :
    Credits (calls ++ calls') info info'' where
  dirtyGasRefund := by
    rw [h'.dirtyGasRefund, h.dirtyGasRefund, List.map_append, List.sum_append, Nat.add_assoc]
  originated := by
    rw [h'.originated, h.originated, List.map_append, List.sum_append, add_assoc]

theorem Refundable.left (h : Refundable (calls ++ calls') info) :
    Refundable calls info := by
  obtain ⟨hgas, hsum⟩ := h
  rw [List.map_append, List.sum_append] at hsum
  exact ⟨fun c hc => hgas c (List.mem_append_left _ hc), by omega⟩

theorem Refundable.right (h : Refundable (calls ++ calls') info)
    (hdirty : info'.dirtyGasRefund.toNat ≤ info.dirtyGasRefund.toNat + (calls.map
      ReceiptCall.notUsedGas).sum) :
    Refundable calls' info' := by
  obtain ⟨hgas, hsum⟩ := h
  rw [List.map_append, List.sum_append] at hsum
  exact ⟨fun c hc => hgas c (List.mem_append_right _ hc), by omega⟩

/-- The originator of a call is credited. -/
theorem Refundable.credits {c : ReceiptCall} (h : Refundable [c] info) :
    Credits [c] info
      { info with
        originated := info.originated + c.receipt.gasUsed.toNat * c.tx.gasPrice
        dirtyGasRefund :=
          if c.tx.gas - c.receipt.gasUsed ≠ 0 then
            info.dirtyGasRefund + (c.tx.gas - c.receipt.gasUsed)
          else info.dirtyGasRefund } := by
  have hgas := h.gasUsed c List.mem_cons_self
  have hsum := h.sum
  rw [List.map_singleton, List.sum_singleton] at hsum
  refine ⟨?_, by rw [List.map_singleton, List.sum_singleton]; rfl⟩
  have hsub : (c.tx.gas - c.receipt.gasUsed).toNat = c.notUsedGas :=
    UInt64.toNat_sub_of_le _ _ hgas
  rw [List.map_singleton, List.sum_singleton]
  simp only
  split
  · rw [UInt64.toNat_add, hsub, Nat.mod_eq_of_lt hsum]
  · rename_i hzero
    rw [← hsub, not_not.mp hzero]
    rfl

/-- One call credits its originator, and nobody else. -/
theorem onNewReceipt_credits {c : ReceiptCall}
    (h : onNewReceipt es bs c.tx c.receipt c.originator = some bs')
    (hv : v ∈ es.validators.sortedIDs) (hne : v ≠ 0)
    (hc : c.originator = 0 ∨ c.originator ∈ es.validators.sortedIDs)
    (hinfo : bs.validatorStates[es.validators.getIdx v]? = some info)
    (hrefund : Refundable ([c].filter fun c => c.originator = v) info) :
    ∃ info', bs'.validatorStates[es.validators.getIdx v]? = some info' ∧
      Credits ([c].filter fun c => c.originator = v) info info' := by
  unfold onNewReceipt at h
  by_cases heq : c.originator = v
  · rw [heq, if_neg hne] at h
    obtain ⟨info₁, hinfo₁, h⟩ := Option.bind_eq_some_iff.mp h
    obtain rfl := Option.some.inj (hinfo.symm.trans hinfo₁)
    obtain rfl := Option.some.inj h
    rw [List.filter_singleton, decide_eq_true heq, cond_true] at hrefund ⊢
    exact ⟨_, List.getElem?_set_self (List.getElem?_eq_some_iff.mp hinfo).1, hrefund.credits⟩
  · rw [List.filter_singleton, decide_eq_false heq, cond_false]
    refine ⟨info, ?_, .nil info⟩
    split at h
    · obtain rfl := Option.some.inj h
      exact hinfo
    · rename_i hzero
      obtain ⟨info₁, hinfo₁, h⟩ := Option.bind_eq_some_iff.mp h
      obtain rfl := Option.some.inj h
      -- two validators have two indexes
      have hidx : es.validators.getIdx c.originator ≠ es.validators.getIdx v :=
        fun hidx => heq (Validators.getIdx_inj (hc.resolve_left hzero) hv hidx)
      rw [List.getElem?_set_ne hidx]
      exact hinfo

/-- The originator of a call is a validator of the epoch, or there is none. -/
theorem originator_mem (es : EpochState) (creator : ValidatorID) :
    (if creator ≠ 0 ∧ es.validators.get creator = 0 then 0 else creator) = 0 ∨
      (if creator ≠ 0 ∧ es.validators.get creator = 0 then 0 else creator) ∈
        es.validators.sortedIDs := by
  split
  · exact .inl rfl
  · rename_i h
    by_cases hzero : creator = 0
    · exact .inl hzero
    · refine .inr (by_contra fun hmem => ?_)
      exact h ⟨hzero, es.validators.get_eq_zero creator hmem⟩

/-- All the receipts of a block. -/
theorem onNewReceipts_credits {creatorOf : Hash → ValidatorID} {txs : List BlockTx}
    {receipts : List Receipt} (h : onNewReceipts es creatorOf txs receipts bs = some bs')
    (hv : v ∈ es.validators.sortedIDs) (hne : v ≠ 0)
    (hinfo : bs.validatorStates[es.validators.getIdx v]? = some info)
    (hrefund : Refundable
      ((receiptCalls es creatorOf txs receipts).filter fun c => c.originator = v) info) :
    ∃ info', bs'.validatorStates[es.validators.getIdx v]? = some info' ∧
      Credits ((receiptCalls es creatorOf txs receipts).filter fun c => c.originator = v)
        info info' := by
  fun_induction onNewReceipts es creatorOf txs receipts bs generalizing info with
  | case1 txs bs =>
    obtain rfl := Option.some.inj h
    have hnil : receiptCalls es creatorOf txs [] = [] := by
      rw [receiptCalls]
      simp
    rw [hnil]
    exact ⟨info, hinfo, .nil info⟩
  | case2 => cases h
  | case3 tx txs r receipts bs creator₀ creator =>
    rename_i ih
    obtain ⟨bs₁, hreceipt, h⟩ := Option.bind_eq_some_iff.mp h
    rw [receiptCalls, ← List.singleton_append, List.filter_append] at hrefund ⊢
    obtain ⟨info₁, hinfo₁, hfirst⟩ := onNewReceipt_credits (c := ⟨tx, r, creator⟩) hreceipt hv hne
      (originator_mem es _) hinfo hrefund.left
    obtain ⟨info₂, hinfo₂, hrest⟩ := ih _ h hinfo₁ (hrefund.right hfirst.dirtyGasRefund.le)
    exact ⟨info₂, hinfo₂, hfirst.append hrest⟩

/-! ## Blocks -/

/-- What receipts and sealing change. -/
def account (info : ValidatorBlockState) : UInt64 × ℤ := (info.dirtyGasRefund, info.originated)

/-- Events change no account. -/
theorem Applied.account_finalize {H : Hashing} {cBlock : ConsensusBlock} {events : List Event}
    {p : BlockProcessing} {ctx : BlockCtx} (h : Applied H cBlock bs es events p)
    (hfinalize : p.eventProcessor.finalize ctx = some bs') :
    bs'.validatorStates.map account = bs.validatorStates.map account := by
  obtain ⟨highest, states, -, hstates, rfl⟩ := ValidatorEventsProcessor.finalize_eq_some hfinalize
  obtain ⟨gas, hgas⟩ := h.processor_bs
  have haccount := ValidatorEventsProcessor.map_updateStates (f := account) (fun _ _ => rfl) hstates
  rw [haccount, hgas]
  rfl

/-- Neither do cheaters and logs. -/
theorem account_popPreInternalTxs {ctx : BlockCtx} {sealing : Bool} {nonce : UInt64}
    {txs : List InternalTx} {bs₁ : BlockState}
    (h : popPreInternalTxs ctx bs es sealing nonce = some (bs₁, txs)) (h' : PendingChange bs₁ bs') :
    bs'.validatorStates.map account = bs.validatorStates.map account := by
  obtain ⟨states, calls, hwrite, rfl, -⟩ := popPreInternalTxs_eq_some h
  obtain ⟨_, _, _, rfl⟩ := h'
  exact map_writeCheaters (f := account) (fun _ => rfl) hwrite

/-- The refunds that are assigned and those that are still dirty are what there was
before, and what the receipts bring. -/
structure Balanced (refunds : List UInt64) (calls : List ReceiptCall)
    (info info' : ValidatorBlockState) : Prop where
  refunds : (refunds.map UInt64.toNat).sum + info'.dirtyGasRefund.toNat =
    info.dirtyGasRefund.toNat + (calls.map ReceiptCall.notUsedGas).sum
  originated : info'.originated = info.originated + (calls.map ReceiptCall.txFee).sum

theorem Credits.balanced (h : Credits calls info info') : Balanced [] calls info info' where
  refunds := (Nat.zero_add _).trans h.dirtyGasRefund
  originated := h.originated

/-- The state of a validator that stays, before the receipts of a block: it is as
before, or the refund has been assigned. -/
theorem Stages.before_receipts {ctx : BlockCtx} {block : ProcessedBlock} {bs₁ bs₂ bs₃ : BlockState}
    {nonce : UInt64} (hold : v ∈ es.validators.sortedIDs) (hnew : v ∈ es'.validators.sortedIDs)
    (hpre : popPreInternalTxs ctx bs es block.sealing nonce = some (bs₁, block.preInternalTxs))
    (hlogs : PendingChange bs₁ bs₂)
    (hseal : sealIf W block.sealing ctx bs₂ es = some (bs₃, es'))
    (hinfo : bs.validatorStates[es.validators.getIdx v]? = some info) :
    ∃ info₃, bs₃.validatorStates[es'.validators.getIdx v]? = some info₃ ∧
      Balanced (assigned v (es', .processed block)) [] info info₃ := by
  obtain ⟨info₂, hinfo₂, haccount⟩ :=
    getElem?_of_map_eq (account_popPreInternalTxs hpre hlogs) hinfo
  obtain ⟨hdirty, horiginated⟩ := Prod.mk.inj haccount
  rcases sealIf_eq_some hseal with ⟨hsealing, hseal⟩ | ⟨hsealing, rfl, rfl⟩
  · obtain ⟨info₂', hinfo₂', hinfo₃, hrefund⟩ := Sealer.inherit_sealEpoch hseal hold hnew
    obtain rfl := Option.some.inj (hinfo₂.symm.trans hinfo₂')
    have hassigned : assigned v (es', .processed block) = [info.dirtyGasRefund] := by
      rw [assigned, Outcome.seals, hsealing, if_pos rfl, hrefund, ← hdirty]
      rfl
    refine ⟨_, hinfo₃, ?_, ?_⟩
    · rw [hassigned]
      simp
    · simpa using horiginated
  · have hassigned : assigned v (es', .processed block) = [] := by
      rw [assigned, Outcome.seals, hsealing]
      rfl
    refine ⟨info₂, hinfo₂, ?_, ?_⟩
    · rw [hassigned, hdirty]
      simp
    · simpa using horiginated

/-- **A block neither loses nor duplicates a refund.** -/
theorem step_balanced (h : step W bs es b = some ((bs', es'), o))
    (hold : v ∈ es.validators.sortedIDs) (hnew : v ∈ es'.validators.sortedIDs) (hne : v ≠ 0)
    (hinfo : bs.validatorStates[es.validators.getIdx v]? = some info)
    (hrefund : Refundable (credited W v (es', o)) info) :
    ∃ info', bs'.validatorStates[es'.validators.getIdx v]? = some info' ∧
      Balanced (assigned v (es', o)) (credited W v (es', o)) info info' := by
  obtain ⟨p, bs₁, hevents, hfinalize, hend⟩ := step_stages h
  obtain ⟨info₁, hinfo₁, haccount⟩ :=
    getElem?_of_map_eq ((applied_beginBlock.applyEvents hevents).account_finalize hfinalize) hinfo
  obtain ⟨hdirty, horiginated⟩ := Prod.mk.inj haccount
  rcases hend with ⟨-, rfl, rfl, rfl⟩ | ⟨-, block, rfl, hstages⟩
  · refine ⟨info₁, hinfo₁, ?_⟩
    exact Credits.balanced ⟨congrArg _ hdirty, horiginated.trans (add_zero _).symm⟩
  · obtain ⟨nonce, bs₂, bs₃, bs₄, bs₅, bs₆, hpre, hlogs, hseal, hlogs', hreceipts, rfl⟩ :=
      hstages.states
    obtain ⟨info₄, hinfo₄, hbefore⟩ := Stages.before_receipts hold hnew hpre hlogs hseal hinfo₁
    have hrefunds := hbefore.refunds
    rw [hdirty] at hrefunds
    have hinfo₅ : bs₅.validatorStates[es'.validators.getIdx v]? = some info₄ := by
      obtain ⟨_, _, _, rfl⟩ := hlogs'
      exact hinfo₄
    -- nothing more is dirty than before, so that the receipts do not wrap either
    have hrefund₄ : Refundable (credited W v (es', .processed block)) info₄ := by
      refine ⟨hrefund.gasUsed, Nat.lt_of_le_of_lt ?_ hrefund.sum⟩
      have : info₄.dirtyGasRefund.toNat ≤ info.dirtyGasRefund.toNat := by
        rw [List.map_nil, List.sum_nil] at hrefunds
        omega
      omega
    obtain ⟨info₆, hinfo₆, hcredits⟩ := onNewReceipts_credits hreceipts hnew hne hinfo₅ hrefund₄
    refine ⟨info₆, hinfo₆, ?_, ?_⟩
    · have := hcredits.dirtyGasRefund
      rw [List.map_nil, List.sum_nil] at hrefunds
      rw [this, ← Nat.add_assoc, hrefunds]
      rfl
    · rw [hcredits.originated, hbefore.originated, horiginated, List.map_nil, List.sum_nil,
        add_zero]
      rfl

theorem Balanced.append {refunds refunds' : List UInt64} {info'' : ValidatorBlockState}
    (h : Balanced refunds calls info info') (h' : Balanced refunds' calls' info' info'') :
    Balanced (refunds ++ refunds') (calls ++ calls') info info'' where
  refunds := by
    have h₁ := h.refunds
    have h₂ := h'.refunds
    rw [List.map_append, List.sum_append, List.map_append, List.sum_append]
    omega
  originated := by
    rw [h'.originated, h.originated, List.map_append, List.sum_append, add_assoc]

theorem Run.balanced {blocks : List (EpochState × Outcome)} (h : Run W bs es blocks bs' es')
    (hne : v ≠ 0) (hmem : v ∈ es.validators.sortedIDs)
    (hstays : ∀ r ∈ blocks, v ∈ r.1.validators.sortedIDs)
    (hinfo : bs.validatorStates[es.validators.getIdx v]? = some info)
    (hrefund : Refundable (blocks.flatMap (credited W v)) info) :
    ∃ info', bs'.validatorStates[es'.validators.getIdx v]? = some info' ∧
      Balanced (blocks.flatMap (assigned v)) (blocks.flatMap (credited W v)) info info' := by
  induction h generalizing info with
  | nil bs es => exact ⟨info, hinfo, (Credits.nil info).balanced⟩
  | cons step rest ih =>
    obtain ⟨hnew, hstays⟩ := List.forall_mem_cons.mp hstays
    rw [List.flatMap_cons] at hrefund
    obtain ⟨info₁, hinfo₁, hfirst⟩ := step_balanced step hmem hnew hne hinfo hrefund.left
    have hdirty := hfirst.refunds
    obtain ⟨info', hinfo', hrest⟩ := ih hnew hstays hinfo₁ (hrefund.right (by omega))
    exact ⟨info', hinfo', hfirst.append hrest⟩

/-- **Gas refunds and originated fees are conserved.** Over any blocks, and for every
validator `v` that stays: what is assigned to `v` when epochs are sealed, and what is
still dirty, is what has been dirty, and the gas that the receipts of `v` have not
used; and `v` originates exactly the fees of these receipts. -/
theorem gas_refunds_conserved (W : World) (bs bs' : BlockState) (es es' : EpochState)
    (blocks : List (EpochState × Outcome)) (hrun : Run W bs es blocks bs' es') (v : ValidatorID)
    (hne : v ≠ 0) (hmem : v ∈ es.validators.sortedIDs)
    (hstays : ∀ r ∈ blocks, v ∈ r.1.validators.sortedIDs) (info : ValidatorBlockState)
    (hinfo : bs.validatorStates[es.validators.getIdx v]? = some info)
    (hgas : ∀ c ∈ blocks.flatMap (credited W v), c.receipt.gasUsed ≤ c.tx.gas)
    (hsum : info.dirtyGasRefund.toNat +
      ((blocks.flatMap (credited W v)).map ReceiptCall.notUsedGas).sum < 2 ^ 64) :
    ∃ info', bs'.validatorStates[es'.validators.getIdx v]? = some info' ∧
      ((blocks.flatMap (assigned v)).map UInt64.toNat).sum + info'.dirtyGasRefund.toNat =
        info.dirtyGasRefund.toNat +
          ((blocks.flatMap (credited W v)).map ReceiptCall.notUsedGas).sum ∧
      info'.originated =
        info.originated + ((blocks.flatMap (credited W v)).map ReceiptCall.txFee).sum := by
  obtain ⟨info', hinfo', hbalanced⟩ := hrun.balanced hne hmem hstays hinfo ⟨hgas, hsum⟩
  exact ⟨info', hinfo', hbalanced.refunds, hbalanced.originated⟩

/-- A store with an event that has a transaction of 30000 gas. -/
def refundStore : ChainStore :=
  { sampleStore with
    getEventPayload := fun id =>
      if id = samplePayload.id then
        some { samplePayload with txs := samplePayload.txs.map fun tx => { tx with gas := 30000 } }
      else none }

/-- A block of `refundStore`, in which some cheaters are observed. -/
def refundBlock (W : World) (event : Event) (cheaters : List ValidatorID) : BlockInput where
  cBlock := ⟨event.id, cheaters⟩
  events := [event]
  evm := evmModule W (skipTransition isFirst) (refundStore.headerHash (skipTransition isFirst))
  getEventPayload := refundStore.getEventPayload

/-- A transaction of the validator in the first block uses 21000 of 30000 gas, and the
second block seals the epoch. -/
theorem gas_refunds_conserved_refundBlock :
    ∃ blocks bs es info, Run nonceWorld sampleBlockState sampleEpochState blocks bs es ∧
      bs.validatorStates[es.validators.getIdx 1]? = some info ∧
      blocks.flatMap (assigned 1) = [9000] ∧ info.dirtyGasRefund = 0 ∧
      info.originated = 21000 * 1000 := by
  have hrun : (step nonceWorld sampleBlockState sampleEpochState
      (refundBlock nonceWorld { sampleAtropos with txHash := copyBytes 32 [1] } [])).any (fun r =>
        (step nonceWorld r.1.1 r.1.2 (refundBlock nonceWorld sampleAtropos [1])).any (fun r' =>
          let blocks := [(r.1.2, r.2), (r'.1.2, r'.2)]
          let calls := blocks.flatMap (credited nonceWorld 1)
          blocks.all (fun r => 1 ∈ r.1.validators.sortedIDs) &&
            calls.all (fun c => c.receipt.gasUsed ≤ c.tx.gas) &&
            (calls.map ReceiptCall.notUsedGas).sum = 9000 &&
            (calls.map ReceiptCall.txFee).sum = 21000 * 1000 &&
            blocks.flatMap (assigned 1) = [9000])) = true := by decide +kernel
  obtain ⟨⟨⟨bs₁, es₁⟩, o₁⟩, hstep, hrun⟩ := (Option.any_eq_true _ _).mp hrun
  obtain ⟨⟨⟨bs₂, es₂⟩, o₂⟩, hstep', hrun⟩ := (Option.any_eq_true _ _).mp hrun
  simp only [Bool.and_eq_true, decide_eq_true_eq, List.all_eq_true] at hrun
  obtain ⟨⟨⟨⟨hstays, hgas⟩, hsum⟩, hfee⟩, hassigned⟩ := hrun
  have hblocks := Run.cons hstep (.cons hstep' (.nil bs₂ es₂))
  obtain ⟨info, hinfo, hrefunds, horiginated⟩ := gas_refunds_conserved nonceWorld _ _ _ _ _ hblocks
    1 (by decide) (by decide) hstays _ rfl hgas (by rw [hsum]; decide)
  refine ⟨_, bs₂, es₂, info, hblocks, hinfo, hassigned, ?_, ?_⟩
  · rw [hassigned, hsum] at hrefunds
    have hrefunds : 9000 + info.dirtyGasRefund.toNat = 0 + 9000 := hrefunds
    exact UInt64.toNat_inj.mp (by simpa using hrefunds)
  · rw [horiginated, hfee]
    rfl

/-- Validators for examples, with the ID that stands for no originator. -/
def zeroValidators : Validators where
  sortedIDs := [0]
  get id := if id = 0 then 1 else 0
  totalWeight := 1
  getIdx _ := 0
  get_eq_zero _ h := if_neg fun heq => h (List.mem_singleton.mpr heq)
  nodup := by decide
  getIdx_of_getElem? _ _ h := index_of_getElem?_singleton h

/-- A validator with ID 0 would not be refunded. -/
theorem gas_refunds_not_conserved_zero :
    ∃ W bs es blocks bs' es' info, Run W bs es blocks bs' es' ∧ 0 ∈ es.validators.sortedIDs ∧
      (∀ r ∈ blocks, 0 ∈ r.1.validators.sortedIDs) ∧
      bs.validatorStates[es.validators.getIdx 0]? = some info ∧
      (∀ c ∈ blocks.flatMap (credited W 0), c.receipt.gasUsed ≤ c.tx.gas) ∧
      info.dirtyGasRefund.toNat +
        ((blocks.flatMap (credited W 0)).map ReceiptCall.notUsedGas).sum < 2 ^ 64 ∧
      ∀ info', bs'.validatorStates[es'.validators.getIdx 0]? = some info' →
        ((blocks.flatMap (assigned 0)).map UInt64.toNat).sum + info'.dirtyGasRefund.toNat ≠
          info.dirtyGasRefund.toNat +
            ((blocks.flatMap (credited W 0)).map ReceiptCall.notUsedGas).sum := by
  have hrun : (step { nonceWorld with builder := ⟨fun _ => zeroValidators⟩ } sampleBlockState
      { sampleEpochState with validators := zeroValidators }
      (refundBlock nonceWorld { sampleAtropos with creator := 0 } [0])).any (fun r =>
        let blocks := [(r.1.2, r.2)]
        let calls := blocks.flatMap (credited nonceWorld 0)
        blocks.all (fun r => 0 ∈ r.1.validators.sortedIDs) &&
          calls.all (fun c => c.receipt.gasUsed ≤ c.tx.gas) &&
          (calls.map ReceiptCall.notUsedGas).sum = 3 * (10000000000 - 21000) &&
          blocks.flatMap (assigned 0) = [0] &&
          (r.1.1.validatorStates[r.1.2.validators.getIdx 0]?.all fun info =>
            info.dirtyGasRefund = 0)) = true := by decide +kernel
  obtain ⟨⟨⟨bs, es⟩, o⟩, hstep, hrun⟩ := (Option.any_eq_true _ _).mp hrun
  simp only [Bool.and_eq_true, decide_eq_true_eq, List.all_eq_true, Option.all_eq_true] at hrun
  obtain ⟨⟨⟨⟨hstays, hgas⟩, hsum⟩, hassigned⟩, hdirty⟩ := hrun
  refine ⟨_, _, _, _, bs, es, Sealer.newValidatorState ⟨1, 1, EventID.zero⟩,
    .cons hstep (.nil bs es), by decide, hstays, rfl, hgas, ?_, fun info hinfo => ?_⟩
  · exact Nat.lt_of_le_of_lt (Nat.add_le_add_left hsum.le _) (by decide)
  · rw [hassigned, hdirty info hinfo]
    exact fun heq => absurd (heq.trans (congrArg _ hsum)) (by decide)

end Zilionixx
