import Mathlib.Data.List.Perm.Basic
import Zilionixx.DecidedState

/-!
# `eventmodule`: the events a block confirms

`confirmed_events_processor.go`. While the events of a block are confirmed one
by one, the highest event of each validator is kept; at the end of the block it
updates the state of the validator, unless the validator is a cheater.

The order of the events matters only among events of one validator with one
sequence number. Such a validator is a cheater, so that the order does not
matter in the end (`finalize_perm`).
-/

namespace Zilionixx

/-- `inter.MaxTimestamp` -/
def maxTimestamp (x y : Timestamp) : Timestamp := if x > y then x else y

/-- `ValidatorEventsProcessor` -/
structure ValidatorEventsProcessor where
  es : EpochState
  bs : BlockState
  validatorHighestEvents : List (Option Event)

namespace ValidatorEventsProcessor

/-- `ValidatorEventsModule.Start` -/
def start (bs : BlockState) (es : EpochState) : ValidatorEventsProcessor where
  es := es
  bs := bs
  validatorHighestEvents := List.replicate es.validators.len none

/-- The higher one of two events; the earlier one if they are equally high. -/
def higher : Option Event → Event → Option Event
  | none, e => some e
  | some prev, e => if e.seq > prev.seq then some e else some prev

/-- `ProcessConfirmedEvent`; `none` is an index out of range. -/
def processConfirmedEvent (p : ValidatorEventsProcessor) (e : Event) :
    Option ValidatorEventsProcessor := do
  let creatorIdx := p.es.validators.getIdx e.creator
  let prev ← p.validatorHighestEvents[creatorIdx]?
  pure
    { p with
      validatorHighestEvents := p.validatorHighestEvents.set creatorIdx (higher prev e)
      bs := { p.bs with epochGas := p.bs.epochGas + e.gasPowerUsed } }

/-- The first loop in `Finalize`: cheaters have no highest event. -/
def eraseCheaters (validators : Validators) :
    List ValidatorID → List (Option Event) → Option (List (Option Event))
  | [], highest => some highest
  | v :: cheaters, highest =>
    if validators.getIdx v < highest.length then
      eraseCheaters validators cheaters (highest.set (validators.getIdx v) none)
    else none

/-- The uptime of a validator that has been online at `medianTime`. -/
def uptimeAt (es : EpochState) (block : BlockCtx) (info : ValidatorBlockState)
    (medianTime : Timestamp) : Timestamp :=
  if block.idx ≤ info.lastBlock + es.rules.economy.blockMissedSlack then
    let prevOnlineTime :=
      if es.rules.upgrades.berlin then maxTimestamp info.lastOnlineTime es.epochStart
      else info.lastOnlineTime
    if medianTime > prevOnlineTime then info.uptime + (medianTime - prevOnlineTime) else info.uptime
  else info.uptime

/-- The body of the second loop in `Finalize`. -/
def updateInfo (es : EpochState) (block : BlockCtx) (info : ValidatorBlockState) (e : Event) :
    ValidatorBlockState :=
  { info with
    uptime := uptimeAt es block info e.medianTime
    lastGasPowerLeft := e.gasPowerLeft
    lastOnlineTime := e.medianTime
    lastBlock := block.idx
    lastEvent := e.id }

/-- The second loop in `Finalize`; `none` is an index out of range. -/
def updateStates (es : EpochState) (block : BlockCtx) :
    List (Option Event) → List ValidatorBlockState → Option (List ValidatorBlockState)
  | [], states => some states
  | none :: highest, [] => updateStates es block highest []
  | some _ :: _, [] => none
  | none :: highest, info :: states => do
    let states ← updateStates es block highest states
    pure (info :: states)
  | some e :: highest, info :: states => do
    let states ← updateStates es block highest states
    pure (updateInfo es block info e :: states)

/-- `Finalize` -/
def finalize (p : ValidatorEventsProcessor) (block : BlockCtx) : Option BlockState := do
  let highest ← eraseCheaters p.es.validators p.bs.epochCheaters p.validatorHighestEvents
  let states ← updateStates p.es block highest p.bs.validatorStates
  pure { p.bs with validatorStates := states }

/-! ## What is left unchanged -/

variable {p p' : ValidatorEventsProcessor} {e : Event} {es : EpochState} {bs bs' : BlockState}
  {validators : Validators} {block : BlockCtx}

theorem processConfirmedEvent_eq_some (h : p.processConfirmedEvent e = some p') :
    p'.es = p.es ∧ p'.bs = { p.bs with epochGas := p.bs.epochGas + e.gasPowerUsed } := by
  obtain ⟨prev, -, h⟩ := Option.bind_eq_some_iff.mp h
  obtain rfl := Option.some.inj h
  exact ⟨rfl, rfl⟩

/-- A validator has its state as before, or updated by an event. -/
theorem getElem?_updateStates {highest : List (Option Event)}
    {states states' : List ValidatorBlockState}
    (h : updateStates es block highest states = some states') (i : ℕ) :
    states'[i]? = match highest[i]? with
      | some (some e) => states[i]?.map fun info => updateInfo es block info e
      | _ => states[i]? := by
  fun_induction updateStates es block highest states generalizing states' i with
  | case1 states =>
    obtain rfl := Option.some.inj h
    rfl
  | case2 highest ih =>
    -- there are no states, and none come
    have hnone : ∀ i, states'[i]? = none := fun i => by
      rw [ih h i]
      split
      · rfl
      · rfl
    rw [hnone]
    split
    · rfl
    · rfl
  | case3 => cases h
  | case4 highest info states ih =>
    obtain ⟨states', hstates, h⟩ := Option.bind_eq_some_iff.mp h
    obtain rfl := Option.some.inj h
    cases i with
    | zero => rfl
    | succ i => simpa using ih hstates i
  | case5 e highest info states ih =>
    obtain ⟨states', hstates, h⟩ := Option.bind_eq_some_iff.mp h
    obtain rfl := Option.some.inj h
    cases i with
    | zero => rfl
    | succ i => simpa using ih hstates i

/-- What an event does not change stays as it is. -/
theorem map_updateStates {α : Type} {f : ValidatorBlockState → α} {highest : List (Option Event)}
    {states states' : List ValidatorBlockState}
    (hf : ∀ info e, f (updateInfo es block info e) = f info)
    (h : updateStates es block highest states = some states') :
    states'.map f = states.map f := by
  refine List.ext_getElem? fun i => ?_
  rw [List.getElem?_map, getElem?_updateStates h, List.getElem?_map]
  split
  · rw [Option.map_map]
    exact Option.map_congr fun info _ => hf info _
  · rfl

/-- `Finalize` changes the states of the validators only. -/
theorem finalize_eq_some (h : p.finalize block = some bs) :
    ∃ highest states,
      eraseCheaters p.es.validators p.bs.epochCheaters p.validatorHighestEvents = some highest ∧
      updateStates p.es block highest p.bs.validatorStates = some states ∧
      bs = { p.bs with validatorStates := states } := by
  obtain ⟨highest, hhighest, h⟩ := Option.bind_eq_some_iff.mp h
  obtain ⟨states, hstates, h⟩ := Option.bind_eq_some_iff.mp h
  exact ⟨highest, states, hhighest, hstates, (Option.some.inj h).symm⟩

/-! ## The order of the events -/

/-- The highest one of the events at an index. -/
inductive HighestAt (validators : Validators) (events : List Event) (i : ℕ) :
    Option Event → Prop where
  | none (absent : ∀ e ∈ events, validators.getIdx e.creator ≠ i) :
      HighestAt validators events i none
  | some {high : Event} (mem : high ∈ events) (idx : validators.getIdx high.creator = i)
      (le : ∀ e ∈ events, validators.getIdx e.creator = i → e.seq ≤ high.seq) :
      HighestAt validators events i (some high)

theorem HighestAt.higher {events : List Event} {prev : Option Event}
    (h : HighestAt validators events (validators.getIdx e.creator) prev) :
    HighestAt validators (e :: events) (validators.getIdx e.creator) (higher prev e) := by
  cases h with
  | none absent =>
    refine .some List.mem_cons_self rfl (List.forall_mem_cons.mpr ⟨fun _ => UInt32.le_refl _, ?_⟩)
    exact fun e' he' hidx => absurd hidx (absent e' he')
  | @some high mem idx le =>
    rw [ValidatorEventsProcessor.higher]
    split
    · rename_i hgt
      refine .some List.mem_cons_self rfl (List.forall_mem_cons.mpr ⟨fun _ => UInt32.le_refl _, ?_⟩)
      exact fun e' he' hidx => UInt32.le_trans (le e' he' hidx) (UInt32.le_of_lt hgt)
    · rename_i hle
      exact .some (List.mem_cons_of_mem _ mem) idx
        (List.forall_mem_cons.mpr ⟨fun _ => UInt32.not_lt.mp hle, le⟩)

theorem HighestAt.skip {events : List Event} {i : ℕ} {prev : Option Event}
    (h : HighestAt validators events i prev) (hne : validators.getIdx e.creator ≠ i) :
    HighestAt validators (e :: events) i prev := by
  cases h with
  | none absent => exact .none (List.forall_mem_cons.mpr ⟨hne, absent⟩)
  | some mem idx le =>
    exact .some (List.mem_cons_of_mem _ mem) idx
      (List.forall_mem_cons.mpr ⟨fun h => absurd h hne, le⟩)

/-- What the processor has after some events, the newest first. -/
structure Processed (bs : BlockState) (es : EpochState) (events : List Event)
    (p : ValidatorEventsProcessor) : Prop where
  es_eq : p.es = es
  bs_eq : p.bs =
    { bs with epochGas := events.foldr (fun e gas => gas + e.gasPowerUsed) bs.epochGas }
  length : p.validatorHighestEvents.length = es.validators.len
  highest : ∀ i prev, p.validatorHighestEvents[i]? = some prev →
    HighestAt es.validators events i prev

theorem processed_start : Processed bs es [] (start bs es) where
  es_eq := rfl
  bs_eq := rfl
  length := List.length_replicate
  highest i prev h := by
    obtain rfl := (List.mem_replicate.mp (List.mem_of_getElem? h)).2
    exact .none (List.forall_mem_nil _)

theorem Processed.processConfirmedEvent {events : List Event} (h : Processed bs es events p)
    (hcreator : e.creator ∈ es.validators.sortedIDs) :
    ∃ p', p.processConfirmedEvent e = some p' ∧ Processed bs es (e :: events) p' := by
  have hlt : es.validators.getIdx e.creator < p.validatorHighestEvents.length :=
    h.length ▸ Validators.getIdx_lt hcreator
  obtain ⟨prev, hprev⟩ : ∃ prev,
      p.validatorHighestEvents[es.validators.getIdx e.creator]? = some prev :=
    ⟨_, List.getElem?_eq_getElem hlt⟩
  refine ⟨_, by rw [ValidatorEventsProcessor.processConfirmedEvent, h.es_eq, hprev]; rfl, ?_⟩
  refine ⟨rfl, by rw [h.bs_eq]; rfl, (List.length_set ..).trans h.length, ?_⟩
  intro i prev' hi
  by_cases hidx : es.validators.getIdx e.creator = i
  · subst hidx
    rw [List.getElem?_set_self hlt] at hi
    obtain rfl := Option.some.inj hi
    exact (h.highest _ _ hprev).higher
  · rw [List.getElem?_set_ne hidx] at hi
    exact (h.highest _ _ hi).skip hidx

/-- The cheaters are erased whatever was at their indexes. -/
theorem eraseCheaters_congr {cheaters : List ValidatorID} {highest highest' : List (Option Event)}
    (hlen : highest.length = highest'.length)
    (h : ∀ i, i ∉ cheaters.map validators.getIdx → highest[i]? = highest'[i]?) :
    eraseCheaters validators cheaters highest = eraseCheaters validators cheaters highest' := by
  induction cheaters generalizing highest highest' with
  | nil => rw [List.ext_getElem? fun i => h i (List.not_mem_nil)]
  | cons v cheaters ih =>
    rw [eraseCheaters, eraseCheaters, hlen]
    split
    · refine ih (by rw [List.length_set, List.length_set, hlen]) fun i hi => ?_
      by_cases hv : validators.getIdx v = i
      · subst hv
        rw [List.getElem?_set, List.getElem?_set, hlen, if_pos rfl, if_pos rfl]
      · rw [List.getElem?_set_ne hv, List.getElem?_set_ne hv]
        exact h i (by rw [List.map_cons]; exact List.not_mem_cons_of_ne_of_not_mem (Ne.symm hv) hi)
    · rfl

/-- Events of one creator with one sequence number are of a cheater. -/
def TiesCheat (cheaters : List ValidatorID) (events : List Event) : Prop :=
  ∀ e ∈ events, ∀ e' ∈ events, e ≠ e' → e.creator = e'.creator → e.seq = e'.seq →
    e.creator ∈ cheaters

/-- Apart from cheaters, the highest events are determined by the set of events. -/
theorem HighestAt.unique {events events' : List Event} {i : ℕ} {cheaters : List ValidatorID}
    {o o' : Option Event} (hmem : ∀ e, e ∈ events ↔ e ∈ events')
    (hcreators : ∀ e ∈ events, e.creator ∈ validators.sortedIDs) (hties : TiesCheat cheaters events)
    (hi : i ∉ cheaters.map validators.getIdx) (h : HighestAt validators events i o)
    (h' : HighestAt validators events' i o') : o = o' := by
  cases h with
  | none absent =>
    cases h' with
    | none _ => rfl
    | some mem' idx' _ => exact absurd idx' (absent _ ((hmem _).mpr mem'))
  | @some high mem idx le =>
    cases h' with
    | none absent' => exact absurd idx (absent' _ ((hmem _).mp mem))
    | @some high' mem' idx' le' =>
      have mem' := (hmem _).mpr mem'
      by_contra hne
      have hcreator : high.creator = high'.creator :=
        Validators.getIdx_inj (hcreators _ mem) (hcreators _ mem') (idx.trans idx'.symm)
      have hseq : high.seq = high'.seq :=
        UInt32.le_antisymm (le' _ ((hmem _).mp mem) idx) (le _ mem' idx')
      -- a tie, so that the creator is a cheater and its index is erased
      have hcheat := hties _ mem _ mem' (fun heq => hne (congrArg Option.some heq)) hcreator hseq
      exact hi (idx ▸ List.mem_map_of_mem hcheat)

/-- The order in which events are confirmed does not matter for `Finalize`. -/
theorem finalize_perm {events events' : List Event} (hperm : events.Perm events')
    (hcreators : ∀ e ∈ events, e.creator ∈ es.validators.sortedIDs)
    (hties : TiesCheat bs.epochCheaters events) (h : Processed bs es events p)
    (h' : Processed bs es events' p') : p.finalize block = p'.finalize block := by
  have hcomm : LeftCommutative fun (e : Event) (gas : UInt64) => gas + e.gasPowerUsed :=
    ⟨fun a b c => by
      rw [UInt64.add_assoc, UInt64.add_comm b.gasPowerUsed, UInt64.add_assoc]⟩
  have hgas : events.foldr (fun e gas => gas + e.gasPowerUsed) bs.epochGas =
      events'.foldr (fun e gas => gas + e.gasPowerUsed) bs.epochGas := hperm.foldr_eq _
  have hbs : p.bs = p'.bs := by rw [h.bs_eq, h'.bs_eq, hgas]
  have hcheaters : p.bs.epochCheaters = bs.epochCheaters := by rw [h.bs_eq]
  have herase : eraseCheaters p.es.validators p.bs.epochCheaters p.validatorHighestEvents =
      eraseCheaters p'.es.validators p'.bs.epochCheaters p'.validatorHighestEvents := by
    rw [← hbs, h.es_eq, h'.es_eq, hcheaters]
    have hlen : p.validatorHighestEvents.length = p'.validatorHighestEvents.length :=
      h.length.trans h'.length.symm
    refine eraseCheaters_congr hlen fun i hi => ?_
    by_cases hlt : i < p.validatorHighestEvents.length
    · have hlt' : i < p'.validatorHighestEvents.length := hlen ▸ hlt
      have hget := List.getElem?_eq_getElem hlt
      have hget' := List.getElem?_eq_getElem hlt'
      rw [hget, hget', (h.highest i _ hget).unique (fun e => hperm.mem_iff) hcreators hties hi
        (h'.highest i _ hget')]
    · rw [List.getElem?_eq_none (Nat.not_lt.mp hlt),
        List.getElem?_eq_none (hlen ▸ Nat.not_lt.mp hlt)]
  rw [finalize, finalize, herase, hbs, h.es_eq, h'.es_eq]

end ValidatorEventsProcessor

end Zilionixx
