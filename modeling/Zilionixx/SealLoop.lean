import Zilionixx.SealModule

/-!
# `SealEpoch` as a loop over arrays

`sealEpoch` maps the new validators to their states. The code of `sealer.go` fills two new
arrays by the new indexes while it reads the old array by the old ones, and it overwrites
the fields of the two states one after another; the weights come from a map, in any order.
Both give the same result.
-/

namespace Zilionixx

/-! ## `pos.BigBuilder` and its calls -/

/-- `pos.BigBuilder` with its calls -/
structure BuilderCalls where
  State : Type
  newBigBuilder : State
  set : State → ValidatorID → ℤ → State
  build : State → Validators

namespace BuilderCalls

variable (P : BuilderCalls)

/-- The calls of `Set` in a loop. -/
def setAll (weights : List (ValidatorID × ℤ)) : P.State :=
  weights.foldl (fun s x => P.set s x.1 x.2) P.newBigBuilder

/-- What is assumed: if every ID is set once, what is built depends on the weights, and not
on the order in which they are set. -/
def Builds (B : BigBuilder) : Prop :=
  ∀ weights, (weights.map Prod.fst).Nodup →
    P.build (P.setAll weights) = B.build fun v => weights.lookup v

end BuilderCalls

/-- An order in which `range` goes through a map. -/
structure ValidatorProfiles.Enumerated (profiles : ValidatorProfiles)
    (order : List (ValidatorID × DriverValidator)) : Prop where
  nodup : (order.map Prod.fst).Nodup
  mem_iff : ∀ v x, (v, x) ∈ order ↔ profiles.lookup v = some x

theorem ValidatorProfiles.Enumerated.lookup {profiles : ValidatorProfiles}
    {order : List (ValidatorID × DriverValidator)} (h : Enumerated profiles order)
      (v : ValidatorID) :
    (order.map fun x => (x.1, x.2.weight)).lookup v =
      (profiles.lookup v).map DriverValidator.weight := by
  cases hlookup : profiles.lookup v with
  | none =>
    refine List.lookup_eq_none_iff.mpr fun p hp => bne_iff_ne.mpr ?_
    obtain ⟨⟨u, x⟩, hmem, rfl⟩ := List.mem_map.mp hp
    rintro rfl
    rw [(h.mem_iff _ _).mp hmem] at hlookup
    cases hlookup
  | some x =>
    obtain ⟨before, after, rfl⟩ := List.append_of_mem ((h.mem_iff v x).mpr hlookup)
    refine List.lookup_eq_some_iff.mpr
      ⟨before.map fun x => (x.1, x.2.weight), after.map fun x => (x.1, x.2.weight), by simp, ?_⟩
    intro p hp
    obtain ⟨⟨u, y⟩, hmem, rfl⟩ := List.mem_map.mp hp
    have hnodup := h.nodup
    rw [List.map_append, List.nodup_append] at hnodup
    exact bne_iff_ne.mpr (hnodup.2.2 u (List.mem_map_of_mem hmem) v (by simp)).symm

namespace Sealer

/-- The zero value of `ValidatorBlockState`, with `Originated` -/
def defaultBlockState : ValidatorBlockState where
  cheater := false
  lastEvent := EventID.zero
  uptime := 0
  lastOnlineTime := 0
  lastGasPowerLeft := ⟨![0, 0]⟩
  lastBlock := 0
  dirtyGasRefund := 0
  originated := 0

/-- The zero value of `ValidatorEpochState` -/
def defaultEpochState : ValidatorEpochState := ⟨0, EventID.zero⟩

/-- `newValidatorBlockStates` and `newValidatorEpochStates` -/
abbrev Arrays := List ValidatorBlockState × List ValidatorEpochState

/-- The body of the loop, for the new validator at an index. -/
def sealStep (block : BlockCtx) (bs : BlockState) (oldValidators : Validators) (arrays : Arrays)
    (x : ValidatorID × ℕ) : Option Arrays :=
  let (valID, newValIdx) := x
  -- default values
  let blockStates := arrays.1.set newValIdx defaultBlockState
  if !oldValidators.contains valID then
    -- new validator
    some
      ((blockStates.modify newValIdx fun s => { s with lastBlock := block.idx }).modify newValIdx
          fun s => { s with lastOnlineTime := block.time },
        arrays.2)
  else do
    let info ← bs.validatorStates[oldValidators.getIdx valID]?
    let blockStates := blockStates.set newValIdx info
    let blockStates := blockStates.modify newValIdx fun s => { s with dirtyGasRefund := 0 }
    let blockStates := blockStates.modify newValIdx fun s => { s with uptime := 0 }
    let epochStates := arrays.2.modify newValIdx fun s =>
      { s with gasRefund := info.dirtyGasRefund }
    let epochStates := epochStates.modify newValIdx fun s =>
      { s with prevEpochEvent := info.lastEvent }
    pure (blockStates, epochStates)

/-- The loop over the new validators. -/
def sealArrays (block : BlockCtx) (bs : BlockState) (oldValidators newValidators : Validators) :
    Option Arrays :=
  newValidators.sortedIDs.zipIdx.foldlM (sealStep block bs oldValidators)
    (List.replicate newValidators.len defaultBlockState,
      List.replicate newValidators.len defaultEpochState)

/-- `SealEpoch`, with an order of the profiles. -/
def sealEpochLoop (P : BuilderCalls) (order : List (ValidatorID × DriverValidator))
    (block : BlockCtx)
    (bs : BlockState) (es : EpochState) : Option (BlockState × EpochState) := do
  -- select new validators
  let oldValidators := es.validators
  let newValidators := P.build (P.setAll (order.map fun x => (x.1, x.2.weight)))
  let es := { es with validators := newValidators }
  let es := { es with validatorProfiles := bs.nextValidatorProfiles }
  -- build new []ValidatorEpochState and []ValidatorBlockState
  let (blockStates, epochStates) ← sealArrays block bs oldValidators newValidators
  let es := { es with validatorStates := epochStates }
  let bs := { bs with validatorStates := blockStates }
  let es := { es with validators := newValidators }
  -- dirty data becomes active
  let es := { es with prevEpochStart := es.epochStart }
  let es := { es with epochStart := block.time }
  let rules ← bs.dirtyRules.copy
  let es := { es with rules := rules }
  let es := { es with epochStateRoot := bs.finalizedStateRoot }
  let bs := { bs with epochGas := 0 }
  let bs := { bs with epochCheaters := [] }
  let newEpoch : UInt32 := es.epoch + 1
  let es := { es with epoch := newEpoch }
  let bs := if bs.advanceEpochs > 0 then { bs with advanceEpochs := bs.advanceEpochs - 1 } else bs
  pure (bs, es)

variable {B : BigBuilder} {block : BlockCtx} {bs bs' : BlockState} {es es' : EpochState}

theorem modify_length {α : Type} (xs : List α) (y : α) (ys : List α) (f : α → α) :
    (xs ++ y :: ys).modify xs.length f = xs ++ f y :: ys := by
  induction xs with
  | nil => rfl
  | cons x xs ih => simpa using ih

theorem set_length {α : Type} (xs : List α) (y z : α) (ys : List α) :
    (xs ++ y :: ys).set xs.length z = xs ++ z :: ys := by
  rw [List.set_append_right _ _ le_rfl, Nat.sub_self, List.set_cons_zero]

/-- One round fills one place of each array. -/
theorem sealStep_eq (block : BlockCtx) (bs : BlockState) (old : Validators) (v : ValidatorID)
    (xs ys : List ValidatorBlockState) (zs ws : List ValidatorEpochState) (b : ValidatorBlockState)
    (hlength : xs.length = zs.length) :
    sealStep block bs old (xs ++ b :: ys, zs ++ defaultEpochState :: ws) (v, xs.length) =
      (inherit block bs old v).map fun new => (xs ++ new.1 :: ys, zs ++ new.2 :: ws) := by
  unfold sealStep inherit
  simp only [set_length, modify_length]
  by_cases hold : old.contains v
  · simp only [hold, Bool.not_true, Bool.false_eq_true, if_false, if_true, hlength, modify_length]
    cases bs.validatorStates[old.getIdx v]? with
    | none => rfl
    | some info => rfl
  · simp only [hold, Bool.not_false, if_true]
    rfl

/-- The loop, when the arrays are filled up to a place. -/
theorem foldlM_sealStep (block : BlockCtx) (bs : BlockState) (old : Validators)
    (ids : List ValidatorID) (done : List (ValidatorBlockState × ValidatorEpochState)) :
    (ids.zipIdx done.length).foldlM (sealStep block bs old)
        (done.map Prod.fst ++ List.replicate ids.length defaultBlockState,
          done.map Prod.snd ++ List.replicate ids.length defaultEpochState) =
      (ids.mapM (inherit block bs old)).map fun new =>
        ((done ++ new).map Prod.fst, (done ++ new).map Prod.snd) := by
  induction ids generalizing done with
  | nil => simp
  | cons v ids ih =>
    have hstep := sealStep_eq block bs old v (done.map Prod.fst)
      (List.replicate ids.length defaultBlockState) (done.map Prod.snd)
      (List.replicate ids.length defaultEpochState) defaultBlockState (by simp)
    rw [List.length_map] at hstep
    rw [List.zipIdx_cons, List.length_cons, List.replicate_succ, List.replicate_succ,
      List.foldlM_cons, hstep, List.mapM_cons]
    cases inherit block bs old v with
    | none => rfl
    | some new =>
      have ih := ih (done ++ [new])
      simp only [List.length_append, List.length_singleton, List.map_append, List.map_cons,
        List.map_nil, List.append_assoc, List.singleton_append] at ih
      simp only [Option.map_some, Option.bind_eq_bind, Option.bind_some]
      rw [ih]
      cases ids.mapM (inherit block bs old) with
      | none => rfl
      | some rest => simp

/-- The arrays are the states that `inherit` finds for the new validators. -/
theorem sealArrays_eq (block : BlockCtx) (bs : BlockState) (old new : Validators) :
    sealArrays block bs old new =
      (new.sortedIDs.mapM (inherit block bs old)).map fun states =>
        (states.map Prod.fst, states.map Prod.snd) :=
  foldlM_sealStep block bs old new.sortedIDs []

/-- The loop computes `sealEpoch`, whatever the order of the map. -/
theorem sealEpochLoop_eq {P : BuilderCalls} (hbuilds : P.Builds B)
    {order : List (ValidatorID × DriverValidator)}
    (horder : bs.nextValidatorProfiles.Enumerated order) :
    sealEpochLoop P order block bs es = sealEpoch B block bs es := by
  have hnew : P.build (P.setAll (order.map fun x => (x.1, x.2.weight))) =
      B.build fun v => (bs.nextValidatorProfiles.lookup v).map DriverValidator.weight := by
    have hnodup : ((order.map fun x => (x.1, x.2.weight)).map Prod.fst).Nodup := by
      rw [List.map_map]
      exact horder.nodup
    rw [hbuilds _ hnodup]
    exact congrArg B.build (funext horder.lookup)
  unfold sealEpochLoop sealEpoch
  simp only [hnew, sealArrays_eq]
  generalize B.build (fun v => (bs.nextValidatorProfiles.lookup v).map DriverValidator.weight) = new
  cases new.sortedIDs.mapM (inherit block bs es.validators) with
  | none => rfl
  | some states =>
    cases bs.dirtyRules.copy with
    | none => rfl
    | some rules =>
      by_cases hadvance : bs.advanceEpochs > 0 <;> simp [hadvance]

/-! ## Migration -/

theorem isSome_mapM {α β : Type} {f : α → Option β} {xs : List α} :
    (xs.mapM f).isSome ↔ ∀ x ∈ xs, (f x).isSome := by
  induction xs with
  | nil => simp
  | cons x xs ih =>
    rw [List.mapM_cons, List.forall_mem_cons, ← ih]
    cases f x with
    | none => simp
    | some y =>
      cases xs.mapM f with
      | none => simp
      | some ys => simp

/-- The code runs through if the validators that stay have a state, and the gas price is
not `nil`. -/
theorem isSome_sealEpoch :
    (sealEpoch B block bs es).isSome ↔
      (∀ v ∈ (B.build fun v => (bs.nextValidatorProfiles.lookup v).map
          DriverValidator.weight).sortedIDs,
        v ∈ es.validators.sortedIDs → es.validators.getIdx v < bs.validatorStates.length) ∧
      bs.dirtyRules.economy.minGasPrice.isSome := by
  have hinherit : ∀ v, (inherit block bs es.validators v).isSome ↔
      (v ∈ es.validators.sortedIDs → es.validators.getIdx v < bs.validatorStates.length) := by
    intro v
    unfold inherit Validators.contains
    by_cases hold : v ∈ es.validators.sortedIDs
    · cases hinfo : bs.validatorStates[es.validators.getIdx v]? with
      | none => simpa [hold] using List.getElem?_eq_none_iff.mp hinfo
      | some info => simpa [hold] using (List.getElem?_eq_some_iff.mp hinfo).1
    · simp [hold]
  have hcopy : bs.dirtyRules.copy.isSome ↔ bs.dirtyRules.economy.minGasPrice.isSome := by
    rw [Rules.copy, Option.isSome_map]
  rw [← hcopy, ← forall₂_congr fun v _ => hinherit v, ← isSome_mapM, sealEpoch]
  cases List.mapM (inherit block bs es.validators) _ with
  | none => simp
  | some states =>
    cases bs.dirtyRules.copy with
    | none => simp
    | some rules => simp

/-- The states after sealing, by the identity of the validators. -/
structure Migrated (B : BigBuilder) (block : BlockCtx) (bs : BlockState) (es : EpochState)
    (bs' : BlockState) (es' : EpochState) : Prop where
  validators : es'.validators =
    B.build fun v => (bs.nextValidatorProfiles.lookup v).map DriverValidator.weight
  length_blockStates : bs'.validatorStates.length = es'.validators.len
  length_epochStates : es'.validatorStates.length = es'.validators.len
  staying : ∀ v ∈ es.validators.sortedIDs, v ∈ es'.validators.sortedIDs →
    ∃ info, bs.validatorStates[es.validators.getIdx v]? = some info ∧
      bs'.validatorStates[es'.validators.getIdx v]? =
        some { info with dirtyGasRefund := 0, uptime := 0 } ∧
      es'.validatorStates[es'.validators.getIdx v]? = some ⟨info.dirtyGasRefund, info.lastEvent⟩
  entering : ∀ v ∉ es.validators.sortedIDs, v ∈ es'.validators.sortedIDs →
    bs'.validatorStates[es'.validators.getIdx v]? = some (newValidatorState block) ∧
      es'.validatorStates[es'.validators.getIdx v]? = some ⟨0, EventID.zero⟩
  blockState : bs' =
    { bs with
      validatorStates := bs'.validatorStates
      epochGas := 0
      epochCheaters := []
      advanceEpochs := bs'.advanceEpochs }
  advanceEpochs : bs'.advanceEpochs.toNat = bs.advanceEpochs.toNat - 1
  epochState : es' =
    { epoch := es.epoch + 1
      epochStart := block.time
      prevEpochStart := es.epochStart
      epochStateRoot := bs.finalizedStateRoot
      validators := es'.validators
      validatorStates := es'.validatorStates
      validatorProfiles := bs.nextValidatorProfiles
      rules := bs.dirtyRules }

theorem toNat_decrement (n : UInt32) : (if n > 0 then n - 1 else n).toNat = n.toNat - 1 := by
  split
  · rename_i hpos
    have hle : 1 ≤ n := by
      have := UInt32.lt_iff_toNat_lt.mp hpos
      rw [UInt32.le_iff_toNat_le]
      exact this
    rw [UInt32.toNat_sub_of_le _ _ hle]
    rfl
  · rename_i hzero
    have hzero : n = 0 := UInt32.le_antisymm (UInt32.not_lt.mp hzero) UInt32.zero_le
    rw [hzero]
    rfl

theorem migrated_of_sealEpoch (h : sealEpoch B block bs es = some (bs', es')) :
    Migrated B block bs es bs' es' := by
  obtain ⟨-, -, hblock, hepoch⟩ := sealEpoch_eq_some h
  have hstaying := fun v => inherit_sealEpoch (v := v) h
  have hentering := fun v => enter_sealEpoch (v := v) h
  obtain ⟨states, -, h⟩ := Option.bind_eq_some_iff.mp h
  obtain ⟨rules, hrules, h⟩ := Option.bind_eq_some_iff.mp h
  obtain rfl := Rules.copy_eq_some hrules
  cases h
  exact ⟨rfl, hblock, hepoch, hstaying, hentering, rfl, toNat_decrement _, rfl⟩

end Sealer

open Sealer

/-- **Sealing migrates the states of validators by identity.** In whatever order the profiles
come, the loop gives one result, and it is that of `sealEpoch`. There is a result if the
validators that stay have a state and the gas price is set. A validator that stays has its
own state, with the uptime and the refund moved on, and one that enters a fresh state. -/
theorem sealEpoch_migrates (B : BigBuilder) (P : BuilderCalls) (hbuilds : P.Builds B)
    (block : BlockCtx) (bs : BlockState) (es : EpochState)
    (order : List (ValidatorID × DriverValidator))
    (horder : bs.nextValidatorProfiles.Enumerated order) :
    sealEpochLoop P order block bs es = sealEpoch B block bs es ∧
      ((sealEpochLoop P order block bs es).isSome ↔
        (∀ v ∈ (B.build fun v => (bs.nextValidatorProfiles.lookup v).map
            DriverValidator.weight).sortedIDs,
          v ∈ es.validators.sortedIDs → es.validators.getIdx v < bs.validatorStates.length) ∧
        bs.dirtyRules.economy.minGasPrice.isSome) ∧
      ∀ bs' es', sealEpochLoop P order block bs es = some (bs', es') →
        Migrated B block bs es bs' es' := by
  have hloop : sealEpochLoop P order block bs es = sealEpoch B block bs es :=
    sealEpochLoop_eq hbuilds horder
  rw [hloop]
  exact ⟨rfl, isSome_sealEpoch, fun bs' es' => migrated_of_sealEpoch⟩

/-- A builder that collects the weights. -/
def BuilderCalls.ofBuilder (B : BigBuilder) : BuilderCalls where
  State := List (ValidatorID × ℤ)
  newBigBuilder := []
  set s v weight := s ++ [(v, weight)]
  build s := B.build fun v => s.lookup v

theorem BuilderCalls.builds_ofBuilder (B : BigBuilder) : (ofBuilder B).Builds B := by
  have hfold : ∀ weights s : List (ValidatorID × ℤ),
      weights.foldl (fun s x => s ++ [(x.1, x.2)]) s = s ++ weights := by
    intro weights
    induction weights with
    | nil => simp
    | cons x weights ih =>
      intro s
      rw [List.foldl_cons, ih, List.append_assoc]
      rfl
  intro weights _
  exact congrArg (fun s : List (ValidatorID × ℤ) => B.build fun v => s.lookup v) (hfold weights [])

/-- A builder for the first and the third validator: the one with more weight comes first, and of
equal weights the first one. -/
def moveBuilder : BigBuilder where
  build weights :=
    let weight v := UInt32.ofNat ((weights v).getD 0).toNat
    if weight 1 < weight 3 then .ofWeights [(3, weight 3), (1, weight 1)] (by simp)
    else .ofWeights [(1, weight 1), (3, weight 3)] (by simp)

/-- The second validator leaves, the first one moves to its place, and a third one enters. -/
def moveBlockState : BlockState where
  lastBlock := ⟨1, 1, EventID.zero⟩
  finalizedStateRoot := copyBytes 32 []
  epochGas := 7
  epochCheaters := [2]
  validatorStates :=
    [{ newValidatorState ⟨1, 1, EventID.zero⟩ with uptime := 5, dirtyGasRefund := 6 },
      { newValidatorState ⟨1, 1, EventID.zero⟩ with cheater := true }]
  nextValidatorProfiles :=
    ((∅ : ValidatorProfiles).insert 1 ⟨1, ⟨0, []⟩⟩).insert 3 ⟨2, ⟨0, []⟩⟩
  dirtyRules := mainNetRules
  advanceEpochs := 2

/-- An epoch of two validators. -/
def moveEpochState : EpochState :=
  { sampleEpochState with
    validators := .ofWeights [(1, 1), (2, 1)] (by decide)
    validatorStates := [⟨0, EventID.zero⟩, ⟨0, EventID.zero⟩] }

theorem enumerated_moveBlockState :
    moveBlockState.nextValidatorProfiles.Enumerated [(3, ⟨2, ⟨0, []⟩⟩), (1, ⟨1, ⟨0, []⟩⟩)] where
  nodup := by decide
  mem_iff v x := by
    simp only [moveBlockState]
    by_cases h3 : v = 3
    · subst h3
      simp [Finmap.lookup_insert, eq_comm]
    · rw [Finmap.lookup_insert_of_ne _ h3]
      by_cases h1 : v = 1
      · subst h1
        simp [Finmap.lookup_insert, eq_comm]
      · simp [Finmap.lookup_insert_of_ne, h1, h3]

theorem sealEpoch_migrates_move :
    ∃ bs' es', sealEpochLoop (.ofBuilder moveBuilder) [(3, ⟨2, ⟨0, []⟩⟩), (1, ⟨1, ⟨0, []⟩⟩)]
        ⟨2, 9, EventID.zero⟩ moveBlockState moveEpochState = some (bs', es') ∧
      es'.validators.sortedIDs = [3, 1] ∧ bs'.advanceEpochs.toNat = 1 ∧
      es'.validatorStates[1]? = some ⟨6, EventID.zero⟩ ∧
      bs'.validatorStates[0]? = some (newValidatorState ⟨2, 9, EventID.zero⟩) := by
  obtain ⟨-, hsome, hmigrated⟩ := sealEpoch_migrates moveBuilder (.ofBuilder moveBuilder)
    (BuilderCalls.builds_ofBuilder _) ⟨2, 9, EventID.zero⟩ moveBlockState moveEpochState _
    enumerated_moveBlockState
  have hplaces : ∀ v ∈ [(3 : ValidatorID), 1], v ∈ moveEpochState.validators.sortedIDs →
      moveEpochState.validators.getIdx v < moveBlockState.validatorStates.length :=
    List.forall_mem_cons.mpr ⟨by decide, List.forall_mem_cons.mpr ⟨by decide,
      List.forall_mem_nil _⟩⟩
  obtain ⟨⟨bs', es'⟩, hrun⟩ := Option.isSome_iff_exists.mp (hsome.mpr ⟨hplaces, by decide⟩)
  have h := hmigrated bs' es' hrun
  have hnew : es'.validators = .ofWeights [(3, 2), (1, 1)] (by decide) := h.validators
  have hstaying := h.staying 1 (by decide) (by rw [hnew]; decide)
  have hentering := h.entering 3 (by decide) (by rw [hnew]; decide)
  obtain ⟨info, hinfo, -, hepoch⟩ := hstaying
  rw [hnew] at hepoch hentering
  refine ⟨bs', es', hrun, by rw [hnew]; rfl, h.advanceEpochs, ?_, hentering.1⟩
  cases hinfo
  exact hepoch

end Zilionixx
