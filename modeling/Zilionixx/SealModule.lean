import Zilionixx.DriverModule

/-!
# `sealmodule`: sealing an epoch

`sealer.go`. An epoch is sealed when it is used up or when there are cheaters.
The validators of the next epoch are selected from their profiles; a validator
that stays keeps its state, at its new index.
-/

namespace Zilionixx

/-- `pos.BigBuilder`, as far as it is used: the validators that are built from
some weights. -/
structure BigBuilder where
  build : (ValidatorID → Option ℤ) → Validators

/-- Mapping a list, with each result. -/
theorem forall₂_of_mapM {α β : Type} {f : α → Option β} {xs : List α} {ys : List β}
    (h : xs.mapM f = some ys) : List.Forall₂ (fun x y => f x = some y) xs ys := by
  induction xs generalizing ys with
  | nil =>
    cases h
    exact .nil
  | cons x xs ih =>
    rw [List.mapM_cons] at h
    obtain ⟨y, hy, h⟩ := Option.bind_eq_some_iff.mp h
    obtain ⟨ys', hys, h⟩ := Option.bind_eq_some_iff.mp h
    obtain rfl := Option.some.inj h
    exact .cons hy (ih hys)

/-- Lists that look the same through `f` have elements that do. -/
theorem getElem?_of_map_eq {α β : Type} {f : α → β} {xs ys : List α} {i : ℕ} {x : α}
    (h : ys.map f = xs.map f) (hx : xs[i]? = some x) : ∃ y, ys[i]? = some y ∧ f y = f x := by
  have hi : (ys.map f)[i]? = some (f x) := by rw [h, List.getElem?_map, hx, Option.map_some]
  rw [List.getElem?_map] at hi
  exact Option.map_eq_some_iff.mp hi

theorem getElem?_of_mapM {α β : Type} {f : α → Option β} {xs : List α} {ys : List β} {i : ℕ} {x : α}
    (h : xs.mapM f = some ys) (hx : xs[i]? = some x) : ys[i]? = f x := by
  have hforall := forall₂_of_mapM h
  obtain ⟨hlt, rfl⟩ := List.getElem?_eq_some_iff.mp hx
  have hlt' := hforall.length_eq ▸ hlt
  rw [List.getElem?_eq_getElem hlt']
  exact (hforall.get hlt hlt').symm

namespace Sealer

/-- `EpochSealing` -/
def epochSealing (block : BlockCtx) (bs : BlockState) (es : EpochState) : Bool :=
  bs.epochGas ≥ es.rules.epochs.maxEpochGas ||
    (block.time - es.epochStart) ≥ es.rules.epochs.maxEpochDuration ||
    bs.advanceEpochs > 0 ||
    bs.epochCheaters.length ≠ 0

/-- The state of a validator that was none before. -/
def newValidatorState (block : BlockCtx) : ValidatorBlockState where
  cheater := false
  lastEvent := EventID.zero
  uptime := 0
  lastOnlineTime := block.time
  lastGasPowerLeft := ⟨![0, 0]⟩
  lastBlock := block.idx
  dirtyGasRefund := 0
  originated := 0

/-- `SealEpoch`: the body of the loop over the new validators. -/
def inherit (block : BlockCtx) (bs : BlockState) (oldValidators : Validators)
    (valID : ValidatorID) :
    Option (ValidatorBlockState × ValidatorEpochState) :=
  if oldValidators.contains valID then do
    -- inherit validator's state from previous epoch
    let info ← bs.validatorStates[oldValidators.getIdx valID]?
    pure ({ info with dirtyGasRefund := 0, uptime := 0 }, ⟨info.dirtyGasRefund, info.lastEvent⟩)
  else pure (newValidatorState block, ⟨0, EventID.zero⟩)

/-- `SealEpoch`; `none` is an index out of range or a `nil` gas price. -/
def sealEpoch (B : BigBuilder) (block : BlockCtx) (bs : BlockState) (es : EpochState) :
    Option (BlockState × EpochState) := do
  -- select new validators
  let newValidators :=
    B.build fun v => (bs.nextValidatorProfiles.lookup v).map DriverValidator.weight
  -- build new []ValidatorEpochState and []ValidatorBlockState
  let states ← newValidators.sortedIDs.mapM (inherit block bs es.validators)
  -- dirty data becomes active
  let rules ← bs.dirtyRules.copy
  pure
    ({ bs with
        validatorStates := states.map Prod.fst
        epochGas := 0
        epochCheaters := []
        advanceEpochs := if bs.advanceEpochs > 0 then bs.advanceEpochs - 1 else bs.advanceEpochs },
      { epoch := es.epoch + 1
        epochStart := block.time
        prevEpochStart := es.epochStart
        epochStateRoot := bs.finalizedStateRoot
        validators := newValidators
        validatorStates := states.map Prod.snd
        validatorProfiles := bs.nextValidatorProfiles
        rules := rules })

variable {B : BigBuilder} {block : BlockCtx} {bs bs' : BlockState} {es es' : EpochState}
  {v : ValidatorID}

theorem epochSealing_of_cheaters (h : bs.epochCheaters ≠ []) : epochSealing block bs es = true := by
  simp [epochSealing, h]

/-- What sealing leaves: a new epoch that starts with this block, and states that
run in parallel to the new validators. -/
theorem sealEpoch_eq_some (h : sealEpoch B block bs es = some (bs', es')) :
    (es'.epoch = es.epoch + 1 ∧ es'.epochStart = block.time) ∧
      (bs'.lastBlock = bs.lastBlock ∧ bs'.epochCheaters = []) ∧
      (bs'.validatorStates.length = es'.validators.len ∧
        es'.validatorStates.length = es'.validators.len) := by
  obtain ⟨states, hstates, h⟩ := Option.bind_eq_some_iff.mp h
  obtain ⟨rules, -, h⟩ := Option.bind_eq_some_iff.mp h
  have hlen := (forall₂_of_mapM hstates).length_eq
  cases h
  refine ⟨⟨rfl, rfl⟩, ⟨rfl, rfl⟩, ?_, ?_⟩
  · exact (List.length_map _).trans hlen.symm
  · exact (List.length_map _).trans hlen.symm

/-- The states of a new validator are what it inherits. -/
theorem getElem?_sealEpoch (h : sealEpoch B block bs es = some (bs', es'))
    (hnew : v ∈ es'.validators.sortedIDs) :
    ∃ states, inherit block bs es.validators v = some states ∧
      bs'.validatorStates[es'.validators.getIdx v]? = some states.1 ∧
      es'.validatorStates[es'.validators.getIdx v]? = some states.2 := by
  obtain ⟨states, hstates, h⟩ := Option.bind_eq_some_iff.mp h
  obtain ⟨rules, -, h⟩ := Option.bind_eq_some_iff.mp h
  cases h
  have hidx := Validators.getElem?_getIdx hnew
  have hinherit := getElem?_of_mapM hstates hidx
  obtain ⟨hlt, -⟩ := List.getElem?_eq_some_iff.mp hidx
  have hlt' := (forall₂_of_mapM hstates).length_eq ▸ hlt
  rw [List.getElem?_eq_getElem hlt'] at hinherit
  refine ⟨_, hinherit.symm, ?_, ?_⟩
  · rw [List.getElem?_map, List.getElem?_eq_getElem hlt']
    rfl
  · rw [List.getElem?_map, List.getElem?_eq_getElem hlt']
    rfl

/-- A validator that stays keeps its state, at its new index. -/
theorem inherit_sealEpoch (h : sealEpoch B block bs es = some (bs', es'))
    (hold : v ∈ es.validators.sortedIDs) (hnew : v ∈ es'.validators.sortedIDs) :
    ∃ info, bs.validatorStates[es.validators.getIdx v]? = some info ∧
      bs'.validatorStates[es'.validators.getIdx v]? =
        some { info with dirtyGasRefund := 0, uptime := 0 } ∧
      es'.validatorStates[es'.validators.getIdx v]? =
        some ⟨info.dirtyGasRefund, info.lastEvent⟩ := by
  obtain ⟨states, hinherit, hblock, hepoch⟩ := getElem?_sealEpoch h hnew
  have hcontains : es.validators.contains v = true := decide_eq_true hold
  rw [inherit, if_pos hcontains] at hinherit
  obtain ⟨info, hinfo, hstates⟩ := Option.bind_eq_some_iff.mp hinherit
  cases hstates
  exact ⟨info, hinfo, hblock, hepoch⟩

/-- A validator that enters starts with this block. -/
theorem enter_sealEpoch (h : sealEpoch B block bs es = some (bs', es'))
    (hold : v ∉ es.validators.sortedIDs) (hnew : v ∈ es'.validators.sortedIDs) :
    bs'.validatorStates[es'.validators.getIdx v]? = some (newValidatorState block) ∧
      es'.validatorStates[es'.validators.getIdx v]? = some ⟨0, EventID.zero⟩ := by
  obtain ⟨states, hinherit, hblock, hepoch⟩ := getElem?_sealEpoch h hnew
  have hcontains : ¬es.validators.contains v = true := fun h => hold (of_decide_eq_true h)
  rw [inherit, if_neg hcontains] at hinherit
  cases hinherit
  exact ⟨hblock, hepoch⟩

/-- A validator that stays is marked as a cheater just as before. -/
theorem isCheater_sealEpoch (h : sealEpoch B block bs es = some (bs', es'))
    (hold : v ∈ es.validators.sortedIDs) (hnew : v ∈ es'.validators.sortedIDs) :
    IsCheater es'.validators bs'.validatorStates v ↔
      IsCheater es.validators bs.validatorStates v := by
  obtain ⟨info, hinfo, hinfo', -⟩ := inherit_sealEpoch h hold hnew
  rw [IsCheater, IsCheater, List.getElem?_map, hinfo', List.getElem?_map, hinfo]
  rfl

end Sealer

end Zilionixx
