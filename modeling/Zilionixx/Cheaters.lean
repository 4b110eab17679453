import Zilionixx.BlockRun

/-!
# Cheaters are punished once

A cheater is reported with a block, which may be skipped. The report is kept
until a block is executed: that block deactivates the cheater and seals the
epoch, so that no other block of the epoch does. The mark of a cheater stays
with the validator, at whatever index it has in later epochs.
-/

namespace Zilionixx

/-- The internal transactions of a block. -/
def Outcome.internalTxs : Outcome → List InternalTx
  | skipped => []
  | processed block => block.preInternalTxs ++ block.internalTxs

variable {W : World} {bs bs' bs₁ : BlockState} {es es' es₁ : EpochState} {b : BlockInput}
  {o : Outcome} {v : ValidatorID}

theorem mem_mergeCheaters {a b : List ValidatorID} : v ∈ mergeCheaters a b ↔ v ∈ a ∨ v ∈ b := by
  rw [mergeCheaters]
  split
  · rename_i hb
    rw [List.eq_nil_of_length_eq_zero hb]
    simp
  · split
    · rename_i ha
      rw [List.eq_nil_of_length_eq_zero ha]
      simp
    · rw [List.mem_append, List.mem_filter, decide_eq_true_eq]
      by_cases hv : v ∈ a
      · simp [hv]
      · simp [hv]

/-! ## One block -/

/-- No mark is lost when cheaters are written. -/
theorem isCheater_writeCheaters {validators : Validators} {cheaters : List ValidatorID}
    {states states' : List ValidatorBlockState} {calls : List DriverCall}
    (h : writeCheaters validators cheaters states = some (states', calls))
    (hv : IsCheater validators states v) : IsCheater validators states' v := by
  fun_induction writeCheaters validators cheaters states generalizing states' calls with
  | case1 states =>
    cases h
    exact hv
  | case2 => cases h
  | case3 c cheaters states info hinfo hmarked ih => exact ih h hv
  | case4 c cheaters states info hinfo hmarked ih =>
    obtain ⟨⟨states₁, calls₁⟩, hrest, h⟩ := Option.map_eq_some_iff.mp h
    cases h
    refine ih hrest ?_
    rw [IsCheater, List.map_set]
    by_cases hidx : validators.getIdx c = validators.getIdx v
    · rw [hidx, List.getElem?_set_self]
      exact (List.getElem?_eq_some_iff.mp hv).1
    · rw [List.getElem?_set_ne hidx]
      exact hv

/-- What an executed block does about cheaters. -/
theorem Executed.punishes {ctx : BlockCtx} {block : ProcessedBlock}
    (h : Executed W ctx bs es bs' es' block) :
    ∃ states calls bs₂ bs₃,
      writeCheaters es.validators bs.epochCheaters bs.validatorStates = some (states, calls) ∧
      (∀ v, deactivations v (Outcome.processed block).internalTxs =
        calls.countP fun call => call.deactivates v) ∧
      SameCheaters { bs with validatorStates := states } bs₂ ∧
      sealIf W block.sealing ctx bs₂ es = some (bs₃, es') ∧ SameCheaters bs₃ bs' := by
  obtain ⟨nonce, bs₁, bs₂, bs₃, hpre, hsame, hseal, hsame'⟩ := h.states
  obtain ⟨states, calls, hwrite, rfl, hcount⟩ := popPreInternalTxs_eq_some hpre
  obtain ⟨nonce', hpost⟩ := h.internalTxs
  refine ⟨states, calls, bs₂, bs₃, hwrite, fun v => ?_, hsame, hseal, hsame'⟩
  calc deactivations v (block.preInternalTxs ++ block.internalTxs)
      = deactivations v block.preInternalTxs + deactivations v block.internalTxs :=
        List.countP_append
    _ = calls.countP (fun call => call.deactivates v) := by
        rw [hcount, hpost, deactivations_popPostInternalTxs, Nat.add_zero]

/-- A block that does not seal the epoch punishes nobody: the reports are kept. -/
theorem step_unsealed (h : step W bs es b = some ((bs', es'), o)) (ho : o.seals = false) :
    es' = es ∧ bs'.epochCheaters = mergeCheaters bs.epochCheaters b.cBlock.cheaters ∧
      bs'.validatorStates.map ValidatorBlockState.cheater =
        bs.validatorStates.map ValidatorBlockState.cheater ∧
      ∀ v, deactivations v o.internalTxs = 0 := by
  obtain ⟨p, bs₁, -, hfinal, hskip | hprocess⟩ := step_eq_some h
  · obtain ⟨-, rfl, rfl, rfl⟩ := hskip
    exact ⟨rfl, hfinal.same.epochCheaters, hfinal.same.marks, fun _ => rfl⟩
  · obtain ⟨-, block, rfl, hexecuted⟩ := hprocess
    have hsealing : block.sealing = false := ho
    -- with cheaters the epoch would be sealed
    have hnone : bs₁.epochCheaters = [] := by
      by_contra hne
      rw [hexecuted.sealing_eq, Sealer.epochSealing_of_cheaters hne] at hsealing
      cases hsealing
    obtain ⟨states, calls, bs₂, bs₃, hwrite, hcount, hsame, hseal, hsame'⟩ := hexecuted.punishes
    rw [hnone] at hwrite
    cases hwrite
    rcases sealIf_eq_some hseal with ⟨hnot, -⟩ | ⟨-, rfl, rfl⟩
    · rw [hsealing] at hnot
      cases hnot
    · have hlater := hsame.trans hsame'
      refine ⟨rfl, hlater.epochCheaters.trans hfinal.same.epochCheaters,
        hlater.marks.trans hfinal.same.marks, fun v => ?_⟩
      rw [hcount]
      rfl

/-- A block with cheaters is skipped or seals the epoch. -/
theorem seals_of_cheaters {block : ProcessedBlock}
    (h : step W bs es b = some ((bs', es'), .processed block))
    (hv : v ∈ mergeCheaters bs.epochCheaters b.cBlock.cheaters) : block.sealing = true := by
  obtain ⟨p, bs₁, -, hfinal, ⟨-, ho, -⟩ | ⟨-, block', ho, hexecuted⟩⟩ := step_eq_some h
  · cases ho
  · cases ho
    rw [hexecuted.sealing_eq]
    refine Sealer.epochSealing_of_cheaters (List.ne_nil_of_mem (a := v) ?_)
    rw [hfinal.same.epochCheaters]
    exact hv

/-- Only those who are reported are punished. -/
theorem deactivations_eq_zero (h : step W bs es b = some ((bs', es'), o))
    (hv : v ∉ mergeCheaters bs.epochCheaters b.cBlock.cheaters) :
    deactivations v o.internalTxs = 0 := by
  obtain ⟨p, bs₁, -, hfinal, ⟨-, rfl, -⟩ | ⟨-, block, rfl, hexecuted⟩⟩ := step_eq_some h
  · rfl
  · obtain ⟨states, calls, -, -, hwrite, hcount, -⟩ := hexecuted.punishes
    have hcheaters : bs₁.epochCheaters = mergeCheaters bs.epochCheaters b.cBlock.cheaters :=
      hfinal.same.epochCheaters
    rw [hcount, List.countP_eq_zero]
    intro call hcall
    obtain ⟨c, hc, rfl⟩ := mem_writeCheaters hwrite call hcall
    rw [hcheaters] at hc
    rw [DriverCall.deactivates, decide_eq_true_eq]
    rintro rfl
    exact hv hc

/-- A block that is executed punishes those who are reported and not yet marked,
once, and marks them. -/
theorem deactivations_of_cheater {block : ProcessedBlock}
    (h : step W bs es b = some ((bs', es'), .processed block))
    (hcheaters : ∀ c ∈ mergeCheaters bs.epochCheaters b.cBlock.cheaters,
      c ∈ es.validators.sortedIDs)
    (hv : v ∈ mergeCheaters bs.epochCheaters b.cBlock.cheaters) :
    deactivations v (Outcome.processed block).internalTxs =
        (if IsCheater es.validators bs.validatorStates v then 0 else 1) ∧
      (v ∈ es'.validators.sortedIDs → IsCheater es'.validators bs'.validatorStates v) := by
  have hsealing := seals_of_cheaters h hv
  obtain ⟨p, bs₁, -, hfinal, ⟨-, ho, -⟩ | ⟨-, block', ho, hexecuted⟩⟩ := step_eq_some h
  · cases ho
  cases ho
  obtain ⟨states, calls, bs₂, bs₃, hwrite, hcount, hsame, hseal, hsame'⟩ := hexecuted.punishes
  have hepoch : bs₁.epochCheaters = mergeCheaters bs.epochCheaters b.cBlock.cheaters :=
    hfinal.same.epochCheaters
  rw [hepoch] at hwrite
  obtain ⟨hmarks, hcalls⟩ := writeCheaters_spec hcheaters (hcheaters v hv) hwrite
  have hbefore : IsCheater es.validators bs₁.validatorStates v ↔
      IsCheater es.validators bs.validatorStates v := hfinal.same.isCheater_iff
  constructor
  · rw [hcount, hcalls]
    simp only [hbefore, hv, true_and, ite_not]
  · intro hnew
    rcases sealIf_eq_some hseal with ⟨-, hseal⟩ | ⟨hnot, -⟩
    · rw [hsame'.isCheater_iff, Sealer.isCheater_sealEpoch hseal (hcheaters v hv) hnew,
        hsame.isCheater_iff]
      exact hmarks.mpr (.inr hv)
    · rw [hsealing] at hnot
      cases hnot

/-- A mark stays, also when the epoch is sealed, as long as the validator does. -/
theorem isCheater_step (h : step W bs es b = some ((bs', es'), o))
    (hold : v ∈ es.validators.sortedIDs) (hnew : v ∈ es'.validators.sortedIDs)
    (hv : IsCheater es.validators bs.validatorStates v) :
    IsCheater es'.validators bs'.validatorStates v := by
  obtain ⟨p, bs₁, -, hfinal, ⟨-, -, rfl, rfl⟩ | ⟨-, block, rfl, hexecuted⟩⟩ := step_eq_some h
  · exact hfinal.same.isCheater_iff.mpr hv
  · obtain ⟨states, calls, bs₂, bs₃, hwrite, -, hsame, hseal, hsame'⟩ := hexecuted.punishes
    have hwritten : IsCheater es.validators bs₂.validatorStates v :=
      hsame.isCheater_iff.mpr
        (isCheater_writeCheaters hwrite (hfinal.same.isCheater_iff.mpr hv))
    rw [hsame'.isCheater_iff]
    rcases sealIf_eq_some hseal with ⟨-, hseal⟩ | ⟨-, rfl, rfl⟩
    · exact (Sealer.isCheater_sealEpoch hseal hold hnew).mpr hwritten
    · exact hwritten

/-! ## The blocks of an epoch -/

/-- The states with which an epoch begins: those after genesis, and those after a
block that seals the epoch before. -/
inductive Begins (W : World) : BlockState → EpochState → Prop where
  | genesis {evm : Evm} {applyEvmGenesis : Genesis → Hash → Option Hash} {g : Genesis}
      {bs : BlockState} {es : EpochState}
      (apply : applyEpoch1Genesis W evm applyEvmGenesis g = some (bs, es)) : Begins W bs es
  | sealed {bs bs' : BlockState} {es es' : EpochState} {b : BlockInput} {o : Outcome}
      (step : step W bs es b = some ((bs', es'), o)) (seals : o.seals = true) : Begins W bs' es'

/-- Blocks, with what becomes of each: the last one may seal the epoch. -/
inductive EpochRun (W : World) :
    BlockState → EpochState → List (BlockInput × Outcome) → BlockState → EpochState → Prop where
  | nil (bs : BlockState) (es : EpochState) : EpochRun W bs es [] bs es
  | cons {bs bs₁ bs' : BlockState} {es es₁ es' : EpochState} {b : BlockInput} {o : Outcome}
      {blocks : List (BlockInput × Outcome)} (step : step W bs es b = some ((bs₁, es₁), o))
      (last : o.seals = true → blocks = []) (rest : EpochRun W bs₁ es₁ blocks bs' es') :
      EpochRun W bs es ((b, o) :: blocks) bs' es'

/-- Blocks while a validator stays, over any number of epochs. -/
inductive Stays (W : World) (v : ValidatorID) :
    BlockState → EpochState → BlockState → EpochState → Prop where
  | refl {bs : BlockState} {es : EpochState} (mem : v ∈ es.validators.sortedIDs) :
      Stays W v bs es bs es
  | block {bs bs₁ bs' : BlockState} {es es₁ es' : EpochState} {b : BlockInput} {o : Outcome}
      (before : Stays W v bs es bs₁ es₁) (step : step W bs₁ es₁ b = some ((bs', es'), o))
      (mem : v ∈ es'.validators.sortedIDs) : Stays W v bs es bs' es'

theorem Stays.mem (h : Stays W v bs es bs' es') : v ∈ es'.validators.sortedIDs := by
  cases h with
  | refl mem => exact mem
  | block _ _ mem => exact mem

theorem Stays.isCheater (h : Stays W v bs es bs' es')
    (hv : IsCheater es.validators bs.validatorStates v) :
    IsCheater es'.validators bs'.validatorStates v := by
  induction h with
  | refl _ => exact hv
  | block before step mem ih => exact isCheater_step step before.mem mem (ih hv)

theorem Begins.epochCheaters (h : Begins W bs es) : bs.epochCheaters = [] := by
  cases h with
  | genesis apply => exact (epochBegin_genesis apply).epochCheaters
  | sealed step seals =>
    obtain ⟨p, bs₁, -, -, ⟨-, rfl, -⟩ | ⟨-, block, rfl, hexecuted⟩⟩ := step_eq_some step
    · cases seals
    · obtain ⟨nonce, bs₂, bs₃, bs₄, -, -, hseal, hsame⟩ := hexecuted.states
      rcases sealIf_eq_some hseal with ⟨-, hseal⟩ | ⟨hnot, -⟩
      · obtain ⟨-, ⟨-, hcheaters⟩, -⟩ := Sealer.sealEpoch_eq_some hseal
        exact hsame.epochCheaters.trans hcheaters
      · cases seals.symm.trans hnot

/-- After blocks none of which seals the epoch: everybody who has been reported is
kept in the list, and nobody has been punished. -/
structure Pending (bs : BlockState) (es : EpochState) (blocks : List (BlockInput × Outcome))
    (bs' : BlockState) (es' : EpochState) : Prop where
  es_eq : es' = es
  marks : bs'.validatorStates.map ValidatorBlockState.cheater =
    bs.validatorStates.map ValidatorBlockState.cheater
  reported : ∀ v, v ∈ bs'.epochCheaters ↔
    v ∈ bs.epochCheaters ∨ ∃ x ∈ blocks, v ∈ x.1.cBlock.cheaters
  unpunished : ∀ x ∈ blocks, ∀ v, deactivations v x.2.internalTxs = 0

theorem Pending.cons {blocks : List (BlockInput × Outcome)}
    (h : step W bs es b = some ((bs₁, es₁), o)) (ho : o.seals = false)
    (hrest : Pending bs₁ es₁ blocks bs' es') : Pending bs es ((b, o) :: blocks) bs' es' := by
  obtain ⟨rfl, hcheaters, hmarks, hzero⟩ := step_unsealed h ho
  refine ⟨hrest.es_eq, hrest.marks.trans hmarks, fun v => ?_,
    List.forall_mem_cons.mpr ⟨hzero, hrest.unpunished⟩⟩
  rw [hrest.reported, hcheaters, mem_mergeCheaters, or_assoc, List.exists_mem_cons_iff]

theorem append_cons_of_getElem? {α : Type*} {l : List α} {i : ℕ} {x : α} (h : l[i]? = some x) :
    ∃ before after, l = before ++ x :: after ∧ before.length = i := by
  obtain ⟨hlt, rfl⟩ := List.getElem?_eq_some_iff.mp h
  refine ⟨l.take i, l.drop (i + 1), ?_, List.length_take_of_le (Nat.le_of_lt hlt)⟩
  rw [← List.drop_eq_getElem_cons hlt, List.take_append_drop]

/-- A block of an epoch, with those before it, which do not seal the epoch. -/
theorem EpochRun.split {before after : List (BlockInput × Outcome)}
    (h : EpochRun W bs es (before ++ (b, o) :: after) bs' es') :
    ∃ bs₁ es₁ bs₂ es₂, Pending bs es before bs₁ es₁ ∧
      step W bs₁ es₁ b = some ((bs₂, es₂), o) ∧
      (o.seals = true → after = [] ∧ bs' = bs₂ ∧ es' = es₂) := by
  induction before generalizing bs es with
  | nil =>
    cases h with
    | cons step last rest =>
      refine ⟨bs, es, _, _, ⟨rfl, rfl, fun v => by simp, List.forall_mem_nil _⟩, step, ?_⟩
      intro ho
      obtain rfl := last ho
      cases rest
      exact ⟨rfl, rfl, rfl⟩
  | cons x before ih =>
    obtain ⟨b', o'⟩ := x
    cases h with
    | cons step last rest =>
      obtain ⟨bs₁, es₁, bs₂, es₂, hpending, hstep, hafter⟩ := ih rest
      -- another block follows
      have ho : o'.seals = false := by
        by_contra hne
        cases before with
        | nil => cases last (Bool.eq_true_of_not_eq_false hne)
        | cons => cases last (Bool.eq_true_of_not_eq_false hne)
      exact ⟨bs₁, es₁, bs₂, es₂, hpending.cons step ho, hstep, hafter⟩

/-- The cheaters of a block are those reported since the epoch began. -/
theorem Pending.mem_mergeCheaters_iff {before : List (BlockInput × Outcome)}
    (hbegin : Begins W bs es) (h : Pending bs es before bs₁ es₁) {v : ValidatorID} :
    v ∈ mergeCheaters bs₁.epochCheaters b.cBlock.cheaters ↔
      ∃ x ∈ before ++ [(b, o)], v ∈ x.1.cBlock.cheaters := by
  rw [mem_mergeCheaters, h.reported, hbegin.epochCheaters]
  simp [or_and_right, exists_or]

/-- **Every cheater is punished exactly once.** Over the blocks of an epoch, with
any cheaters among its validators: when a block is executed after a report of `v`,
or with it, then it seals the epoch, and it alone deactivates `v`, once, unless `v`
has been marked when the epoch began. Nobody else is deactivated, and a mark stays as
long as the validator does. -/
theorem cheaters_punished_once (W : World) (bs bs' : BlockState) (es es' : EpochState)
    (blocks : List (BlockInput × Outcome)) (hbegin : Begins W bs es)
    (hrun : EpochRun W bs es blocks bs' es')
    (hcheaters : ∀ x ∈ blocks, ∀ c ∈ x.1.cBlock.cheaters, c ∈ es.validators.sortedIDs) :
    (∀ (v : ValidatorID) (i j : ℕ) (x : BlockInput × Outcome) (b : BlockInput)
      (block : ProcessedBlock), blocks[i]? = some x → v ∈ x.1.cBlock.cheaters → i ≤ j →
      blocks[j]? = some (b, .processed block) →
      block.sealing = true ∧
        deactivations v (Outcome.processed block).internalTxs =
          (if IsCheater es.validators bs.validatorStates v then 0 else 1) ∧
        (∀ (k : ℕ) (y : BlockInput × Outcome), k ≠ j → blocks[k]? = some y →
          deactivations v y.2.internalTxs = 0) ∧
        (v ∈ es'.validators.sortedIDs → IsCheater es'.validators bs'.validatorStates v)) ∧
      (∀ v, (∀ x ∈ blocks, v ∉ x.1.cBlock.cheaters) →
        ∀ x ∈ blocks, deactivations v x.2.internalTxs = 0) ∧
      ∀ v bs₁ es₁ bs₂ es₂, Stays W v bs₁ es₁ bs₂ es₂ →
        IsCheater es₁.validators bs₁.validatorStates v →
        IsCheater es₂.validators bs₂.validatorStates v := by
  refine ⟨?_, ?_, fun v _ _ _ _ hstays => hstays.isCheater⟩
  · intro v i j x b block hi hv hij hj
    obtain ⟨before, after, rfl, rfl⟩ := append_cons_of_getElem? hj
    obtain ⟨bs₁, es₁, bs₂, es₂, hpending, hstep, hafter⟩ := hrun.split
    obtain rfl := hpending.es_eq
    have hmem : x ∈ before ++ [(b, Outcome.processed block)] := by
      rcases Nat.lt_or_eq_of_le hij with hlt | rfl
      · rw [List.getElem?_append_left hlt] at hi
        exact List.mem_append_left _ (List.mem_of_getElem? hi)
      · obtain rfl := Option.some.inj (hi.symm.trans hj)
        exact List.mem_append_right _ List.mem_cons_self
    have hv' := (hpending.mem_mergeCheaters_iff hbegin).mpr ⟨x, hmem, hv⟩
    have hsealing := seals_of_cheaters hstep hv'
    obtain ⟨rfl, rfl, rfl⟩ := hafter hsealing
    obtain ⟨hcount, hmarked⟩ := deactivations_of_cheater hstep
      (fun c hc => by
        obtain ⟨y, hy, hcy⟩ := (hpending.mem_mergeCheaters_iff hbegin).mp hc
        exact hcheaters y hy c hcy) hv'
    refine ⟨hsealing, ?_, fun k y hk hy => ?_, hmarked⟩
    · have hmarks : IsCheater es₁.validators bs₁.validatorStates v ↔
          IsCheater es₁.validators bs.validatorStates v := by
        rw [IsCheater, hpending.marks, IsCheater]
      simp only [hcount, hmarks]
    · have hlt : k < before.length := by
        have := (List.getElem?_eq_some_iff.mp hy).1
        rw [List.length_append, List.length_singleton] at this
        omega
      rw [List.getElem?_append_left hlt] at hy
      exact hpending.unpunished y (List.mem_of_getElem? hy) v
  · intro v hv x hx
    obtain ⟨before, after, rfl⟩ := List.append_of_mem hx
    obtain ⟨bs₁, es₁, bs₂, es₂, hpending, hstep, -⟩ := hrun.split
    refine deactivations_eq_zero hstep fun hmerged => ?_
    obtain ⟨y, hy, hvy⟩ := (hpending.mem_mergeCheaters_iff hbegin).mp hmerged
    have hsub : (before ++ [x]).Sublist (before ++ x :: after) := by simp
    exact hv y (hsub.subset hy) hvy

/-- The first reports are with a block that is skipped, as its Atropos is not applied;
the next block is executed. -/
theorem cheaters_punished_once_sampleBlock :
    ∃ bs es o, EpochRun sampleWorld sampleBlockState sampleEpochState
        [({ sampleBlock [1, 1] with events := [] }, .skipped), (sampleBlock [1], o)] bs es ∧
      deactivations 1 o.internalTxs = 1 := by
  have hbegin : Begins sampleWorld sampleBlockState sampleEpochState :=
    .genesis applyEpoch1Genesis_sample
  have hskipped : step sampleWorld sampleBlockState sampleEpochState
      { sampleBlock [1, 1] with events := [] } =
        some
          (({ sampleBlockState with epochCheaters := [1, 1] }, sampleEpochState), .skipped) := rfl
  obtain ⟨⟨⟨bs, es⟩, o⟩, hstep, ho⟩ : ∃ r, step sampleWorld
      { sampleBlockState with epochCheaters := [1, 1] } sampleEpochState (sampleBlock [1]) =
        some r ∧ r.2.seals = true := by
    decide +kernel
  have hrun := EpochRun.cons hskipped (fun h => by cases h)
    (.cons hstep (fun _ => rfl) (.nil bs es))
  refine ⟨bs, es, o, hrun, ?_⟩
  cases o with
  | skipped => cases ho
  | processed block =>
    have hvalidator : 1 ∈ sampleEpochState.validators.sortedIDs := by decide
    obtain ⟨hpunished, -, -⟩ := cheaters_punished_once _ _ _ _ _ _ hbegin hrun fun x hx c hc => by
      have hone : c = 1 := by
        rcases List.mem_pair.mp hx with rfl | rfl
        · simpa using List.mem_pair.mp hc
        · exact List.mem_singleton.mp hc
      exact hone ▸ hvalidator
    exact (hpunished 1 0 1 _ _ block rfl List.mem_cons_self (Nat.zero_le 1) rfl).2.1

end Zilionixx
