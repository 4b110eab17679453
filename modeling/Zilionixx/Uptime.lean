import Zilionixx.Cheaters

/-!
# The uptime of a validator

With each block, the highest event of a validator that it confirms says that the
validator has been online until the median time of the event. The time since it was
online before is added to its uptime, unless too many blocks were missed. When the
epoch is sealed, the uptime is reported to the driver, together with the time since
the validator was online, unless too many blocks are missing.

The time of the last event counts as the time when the validator was online, also if
it is an earlier time than before.
-/

namespace Zilionixx

open ValidatorEventsProcessor

/-! ## The events of a validator -/

/-- The highest event at an index, of those that a block confirms. -/
def highestEvent (vv : Validators) (i : ℕ) (events : List Event) : Option Event :=
  (events.filter fun e => vv.getIdx e.creator = i).foldl higher none

/-- The event that updates the state of a validator: none for a cheater. -/
def seenEvent (vv : Validators) (v : ValidatorID) (cheaters : List ValidatorID)
    (events : List Event) : Option Event :=
  if vv.getIdx v ∈ cheaters.map vv.getIdx then none else highestEvent vv (vv.getIdx v) events

/-- The events that update the state of a validator during the blocks of an epoch,
with the cheaters that are known before. -/
def seenEvents (vv : Validators) (v : ValidatorID) : List ValidatorID → List BlockInput → List Event
  | _, [] => []
  | cheaters, b :: blocks =>
    let cheaters := mergeCheaters cheaters b.cBlock.cheaters
    (seenEvent vv v cheaters b.events).toList ++ seenEvents vv v cheaters blocks

/-- The largest median time of some events, 0 if there are none. -/
def largestMedianTime (events : List Event) : ℕ :=
  (events.map fun e => e.medianTime.toNat).foldr max 0

variable {W : World} {H : Hashing} {bs bs' : BlockState} {es es' : EpochState} {ctx : BlockCtx}
  {v : ValidatorID} {info info' : ValidatorBlockState} {seen : List Event} {e : Event}

/-- The highest events of the processor, while events are applied. -/
theorem getElem?_validatorHighestEvents {events : List Event} {p p' : BlockProcessing} {i : ℕ}
    {prev : Option Event} (h : events.foldlM (BlockProcessing.applyEvent H) p = some p')
    (hprev : p.eventProcessor.validatorHighestEvents[i]? = some prev) :
    p'.eventProcessor.validatorHighestEvents[i]? =
      some ((events.filter fun e => p.eventProcessor.es.validators.getIdx e.creator = i).foldl
        higher prev) := by
  induction events generalizing p prev with
  | nil =>
    obtain rfl := Option.some.inj h
    exact hprev
  | cons e events ih =>
    rw [List.foldlM_cons] at h
    obtain ⟨p₁, hstep, h⟩ := Option.bind_eq_some_iff.mp h
    obtain ⟨processor, hprocessor, hstep⟩ := Option.bind_eq_some_iff.mp hstep
    obtain ⟨prev₀, hprev₀, hprocessor⟩ := Option.bind_eq_some_iff.mp hprocessor
    obtain rfl := Option.some.inj hprocessor
    obtain rfl := Option.some.inj hstep
    by_cases hidx : p.eventProcessor.es.validators.getIdx e.creator = i
    · subst hidx
      obtain rfl := Option.some.inj (hprev.symm.trans hprev₀)
      rw [List.filter_cons_of_pos (by simp), List.foldl_cons]
      have hrest := ih h (List.getElem?_set_self (List.getElem?_eq_some_iff.mp hprev).1)
      exact hrest
    · rw [List.filter_cons_of_neg (by simpa using hidx)]
      have hrest := ih h ((List.getElem?_set_ne hidx).trans hprev)
      exact hrest

theorem getElem?_eraseCheaters {vv : Validators} {cheaters : List ValidatorID}
    {highest highest' : List (Option Event)} {i : ℕ} {o : Option Event}
    (h : eraseCheaters vv cheaters highest = some highest') (ho : highest[i]? = some o) :
    highest'[i]? = some (if i ∈ cheaters.map vv.getIdx then none else o) := by
  fun_induction eraseCheaters vv cheaters highest generalizing o with
  | case1 highest =>
    obtain rfl := Option.some.inj h
    exact ho
  | case2 c cheaters highest hlt ih =>
    by_cases hidx : vv.getIdx c = i
    · subst hidx
      rw [ih h (List.getElem?_set_self hlt)]
      simp
    · rw [ih h ((List.getElem?_set_ne hidx).trans ho)]
      simp [Ne.symm hidx]
  | case3 => cases h

/-- The state of a validator after a block: updated by the event, if there is one. -/
def observe (es : EpochState) (ctx : BlockCtx) (info : ValidatorBlockState) :
    Option Event → ValidatorBlockState
  | some e => updateInfo es ctx info e
  | none => info

theorem getElem?_finalize {cBlock : ConsensusBlock} {events : List Event} {p : BlockProcessing}
    (hevents : events.foldlM (BlockProcessing.applyEvent H) (beginBlock cBlock bs es) = some p)
    (hfinalize : p.eventProcessor.finalize ctx = some bs') (hv : v ∈ es.validators.sortedIDs)
    (hinfo : bs.validatorStates[es.validators.getIdx v]? = some info) :
    bs'.validatorStates[es.validators.getIdx v]? = some (observe es ctx info
      (seenEvent es.validators v (mergeCheaters bs.epochCheaters cBlock.cheaters) events)) := by
  have happlied := applied_beginBlock.applyEvents hevents
  obtain ⟨gas, hgas⟩ := happlied.processor_bs
  obtain ⟨highest, states, herase, hstates, rfl⟩ := finalize_eq_some hfinalize
  have hstart : (beginBlock cBlock bs es).eventProcessor.validatorHighestEvents[
      es.validators.getIdx v]? = some none :=
    List.getElem?_replicate_of_lt (Validators.getIdx_lt hv)
  have hhighest := getElem?_eraseCheaters herase (getElem?_validatorHighestEvents hevents hstart)
  rw [happlied.processor_es, hgas] at hstates hhighest
  change states[es.validators.getIdx v]? = _
  have hseen : highest[es.validators.getIdx v]? = some (seenEvent es.validators v
      (mergeCheaters bs.epochCheaters cBlock.cheaters) events) := hhighest
  have hbefore : ({ withCheaters bs cBlock with epochGas := gas } :
      BlockState).validatorStates[es.validators.getIdx v]? = some info := hinfo
  rw [getElem?_updateStates hstates, hseen, hbefore]
  cases seenEvent es.validators v (mergeCheaters bs.epochCheaters cBlock.cheaters) events with
  | none => rfl
  | some e => rfl

/-! ## Blocks -/

/-- What the uptime depends on. -/
def clock (info : ValidatorBlockState) : Timestamp × Timestamp × UInt64 :=
  (info.uptime, info.lastOnlineTime, info.lastBlock)

/-- A block that does not seal the epoch leaves the clock as its event sets it. -/
theorem step_clock {b : BlockInput} {o : Outcome} (h : step W bs es b = some ((bs', es'), o))
    (ho : o.seals = false) (hv : v ∈ es.validators.sortedIDs)
    (hinfo : bs.validatorStates[es.validators.getIdx v]? = some info) :
    ∃ ctx info', bs'.validatorStates[es.validators.getIdx v]? = some info' ∧
      clock info' = clock (observe es ctx info (seenEvent es.validators v
        (mergeCheaters bs.epochCheaters b.cBlock.cheaters) b.events)) := by
  obtain ⟨p, bs₁, hevents, hfinalize, hend⟩ := step_stages h
  have hinfo₁ := getElem?_finalize hevents hfinalize hv hinfo
  refine ⟨p.blockCtx, ?_⟩
  rcases hend with ⟨-, rfl, rfl, rfl⟩ | ⟨-, block, rfl, hstages⟩
  · exact ⟨_, hinfo₁, rfl⟩
  · obtain ⟨nonce, bs₂, bs₃, bs₄, bs₅, bs₆, hpre, hlogs, hseal, hlogs', hreceipts, rfl⟩ :=
      hstages.states
    rcases sealIf_eq_some hseal with ⟨hnot, -⟩ | ⟨-, rfl, rfl⟩
    · cases ho.symm.trans hnot
    obtain ⟨states, calls, hwrite, rfl, -⟩ := popPreInternalTxs_eq_some hpre
    obtain ⟨states', rfl, hstates'⟩ :=
      onNewReceipts_eq_some (f := clock) (fun _ _ _ => rfl) hreceipts
    obtain ⟨_, _, _, rfl⟩ := hlogs
    obtain ⟨_, _, _, rfl⟩ := hlogs'
    exact getElem?_of_map_eq
      (hstates'.trans (map_writeCheaters (f := clock) (fun _ => rfl) hwrite)) hinfo₁

/-- What a block that seals the epoch reports to the driver. -/
theorem step_sealEpoch {b : BlockInput} {block : ProcessedBlock}
    (h : step W bs es b = some ((bs', es'), .processed block)) (hsealing : block.sealing = true)
    (hv : v ∈ es.validators.sortedIDs)
    (hinfo : bs.validatorStates[es.validators.getIdx v]? = some info) :
    ∃ calls metrics info',
      block.preInternalTxs.map InternalTx.call = calls ++ [DriverCall.sealEpoch metrics] ∧
      (∀ call ∈ calls, ∃ c, call = DriverCall.deactivateValidator c doublesignBit) ∧
      metrics[es.validators.getIdx v]? = some (epochMetric block.ctx es info') ∧
      clock info' = clock (observe es block.ctx info (seenEvent es.validators v
        (mergeCheaters bs.epochCheaters b.cBlock.cheaters) b.events)) := by
  obtain ⟨p, bs₁, hevents, hfinalize, ⟨-, ho, -⟩ | ⟨-, block', ho, hstages⟩⟩ := step_stages h
  · cases ho
  cases ho
  have hinfo₁ := getElem?_finalize hevents hfinalize hv hinfo
  rw [← hstages.ctx_eq] at hinfo₁
  obtain ⟨nonce, bs₂, bs₃, bs₄, bs₅, bs₆, hpre, -⟩ := hstages.states
  rw [hsealing] at hpre
  obtain ⟨⟨states, calls⟩, hwrite, hpre⟩ := Option.bind_eq_some_iff.mp hpre
  obtain ⟨sealCalls, hseal, hpre⟩ := Option.bind_eq_some_iff.mp hpre
  obtain ⟨metrics, hmetrics, hseal⟩ := Option.bind_eq_some_iff.mp hseal
  obtain rfl := Option.some.inj hseal
  obtain ⟨-, htxs⟩ := Prod.mk.inj (Option.some.inj hpre)
  obtain ⟨info', hinfo', hclock⟩ :=
    getElem?_of_map_eq (map_writeCheaters (f := clock) (fun _ => rfl) hwrite) hinfo₁
  refine ⟨calls, metrics, info', ?_, fun call hcall => ?_, ?_, hclock⟩
  · rw [← htxs, call_internalTxBuilder]
  · obtain ⟨c, -, hc⟩ := mem_writeCheaters hwrite call hcall
    exact ⟨c, hc⟩
  · have hlt := Validators.getIdx_lt hv
    rw [getElem?_of_mapM hmetrics (List.getElem?_range hlt), hinfo', hstages.ctx_eq]
    rfl

/-! ## The bound -/

theorem toNat_maxTimestamp (x y : Timestamp) :
    (maxTimestamp x y).toNat = max x.toNat y.toNat := by
  rw [maxTimestamp]
  split
  · rename_i hgt
    exact (max_eq_left (Nat.le_of_lt (UInt64.lt_iff_toNat_lt.mp hgt))).symm
  · rename_i hle
    exact (max_eq_right (UInt64.le_iff_toNat_le.mp (UInt64.not_lt.mp hle))).symm

/-- The subtractions of `uptimeAt`, minuend and subtrahend. -/
def uptimeSubtractions (es : EpochState) (block : BlockCtx) (info : ValidatorBlockState)
    (medianTime : Timestamp) : List (UInt64 × UInt64) :=
  let prevOnlineTime :=
    if es.rules.upgrades.berlin then maxTimestamp info.lastOnlineTime es.epochStart
    else info.lastOnlineTime
  if block.idx ≤ info.lastBlock + es.rules.economy.blockMissedSlack ∧
    medianTime > prevOnlineTime then
    [(medianTime, prevOnlineTime)]
  else []

/-- The subtractions of `epochMetric`, minuend and subtrahend. -/
def metricSubtractions (block : BlockCtx) (es : EpochState) (info : ValidatorBlockState) :
    List (UInt64 × UInt64) :=
  let prevOnlineTime := maxTimestamp info.lastOnlineTime es.epochStart
  [(maxBlockIdx block.idx info.lastBlock, info.lastBlock),
    (maxTimestamp block.time info.lastOnlineTime, info.lastOnlineTime)] ++
  if maxBlockIdx block.idx info.lastBlock - info.lastBlock ≤ es.rules.economy.blockMissedSlack then
    [(maxTimestamp block.time prevOnlineTime, prevOnlineTime)]
  else []

/-- `uptimeAt` adds the differences of these. -/
theorem uptimeAt_eq (es : EpochState) (block : BlockCtx) (info : ValidatorBlockState)
    (medianTime : Timestamp) :
    uptimeAt es block info medianTime =
      (uptimeSubtractions es block info medianTime).foldl (fun uptime p => uptime + (p.1 - p.2))
        info.uptime := by
  simp only [uptimeAt, uptimeSubtractions, ite_and]
  generalize (if es.rules.upgrades.berlin then _ else _) = prevOnlineTime
  split
  · split <;> rfl
  · rfl

/-- `epochMetric` has the first two differences, or adds the third one to the uptime. -/
theorem epochMetric_eq (block : BlockCtx) (es : EpochState) (info : ValidatorBlockState) :
    ∃ blocks period rest, metricSubtractions block es info = blocks :: period :: rest ∧
      epochMetric block es info =
        { missed := if rest = [] then ⟨blocks.1 - blocks.2, period.1 - period.2⟩ else ⟨0, 0⟩
          uptime := rest.foldl (fun uptime p => uptime + (p.1 - p.2)) info.uptime
          originatedTxFee := info.originated } := by
  refine ⟨_, _, _, rfl, ?_⟩
  dsimp only [epochMetric]
  split <;> rfl

theorem le_maxTimestamp (x y : Timestamp) : y ≤ maxTimestamp x y := by
  rw [UInt64.le_iff_toNat_le, toNat_maxTimestamp]
  exact Nat.le_max_right _ _

theorem uptimeSubtractions_le (es : EpochState) (block : BlockCtx) (info : ValidatorBlockState)
    (medianTime : Timestamp) : ∀ p ∈ uptimeSubtractions es block info medianTime, p.2 ≤ p.1 := by
  intro p hp
  obtain ⟨⟨-, hgt⟩, hp⟩ := List.mem_ite_nil_right.mp hp
  obtain rfl := List.mem_singleton.mp hp
  exact UInt64.le_of_lt hgt

theorem metricSubtractions_le (block : BlockCtx) (es : EpochState) (info : ValidatorBlockState) :
    ∀ p ∈ metricSubtractions block es info, p.2 ≤ p.1 := by
  intro p hp
  rw [metricSubtractions] at hp
  rcases List.mem_append.mp hp with hp | hp
  · rcases List.mem_pair.mp hp with rfl | rfl
    -- `maxBlockIdx` and `MaxTimestamp` are the same function
    · exact le_maxTimestamp _ _
    · exact le_maxTimestamp _ _
  · obtain ⟨-, hp⟩ := List.mem_ite_nil_right.mp hp
    obtain rfl := List.mem_singleton.mp hp
    exact le_maxTimestamp _ _

/-- Without any event the uptime is zero. Otherwise the validator was online at the
median time of the last event, and its uptime is at most what has passed until then. -/
structure Online (start : Timestamp) (seen : List Event) (info : ValidatorBlockState) : Prop where
  nil : seen = [] → info.uptime = 0
  last : ∀ e, seen.getLast? = some e → info.lastOnlineTime = e.medianTime ∧
    info.uptime.toNat ≤ info.lastOnlineTime.toNat - start.toNat

theorem Online.of_clock {start : Timestamp} (h : Online start seen info)
    (hclock : clock info' = clock info) : Online start seen info' := by
  obtain ⟨huptime, honline, -⟩ : info'.uptime = info.uptime ∧
      info'.lastOnlineTime = info.lastOnlineTime ∧ info'.lastBlock = info.lastBlock := by
    simpa [clock] using hclock
  exact ⟨fun hnil => huptime.trans (h.nil hnil), by rw [huptime, honline]; exact h.last⟩

theorem Online.uptime_le {start : Timestamp} (h : Online start seen info) :
    info.uptime.toNat = 0 ∨ info.uptime.toNat ≤ info.lastOnlineTime.toNat - start.toNat ∧
      ∃ e ∈ seen, info.lastOnlineTime = e.medianTime := by
  cases hlast : seen.getLast? with
  | none =>
    rw [h.nil (List.getLast?_eq_none_iff.mp hlast)]
    exact .inl rfl
  | some e =>
    obtain ⟨honline, huptime⟩ := h.last e hlast
    exact .inr ⟨huptime, e, List.mem_of_getLast? hlast, honline⟩

/-- An event that is not earlier than those before adds no time that has been counted. -/
theorem Online.uptimeAt_le (h : Online es.epochStart seen info)
    (hberlin : es.rules.upgrades.berlin = true)
    (hlater : ∀ e' ∈ seen, e'.medianTime ≤ e.medianTime) :
    (uptimeAt es ctx info e.medianTime).toNat ≤ e.medianTime.toNat - es.epochStart.toNat := by
  have hbefore : info.uptime.toNat = 0 ∨
      info.uptime.toNat ≤ info.lastOnlineTime.toNat - es.epochStart.toNat ∧
        info.lastOnlineTime.toNat ≤ e.medianTime.toNat := by
    rcases h.uptime_le with hzero | ⟨huptime, e', he', honline⟩
    · exact .inl hzero
    · exact .inr ⟨huptime, honline ▸ UInt64.le_iff_toNat_le.mp (hlater e' he')⟩
  rw [uptimeAt, if_pos hberlin]
  split
  · simp only
    split
    · rename_i hgt
      have hprev := toNat_maxTimestamp info.lastOnlineTime es.epochStart
      have hsub := UInt64.toNat_sub_of_le _ _ (UInt64.le_of_lt hgt)
      have hgt := UInt64.lt_iff_toNat_lt.mp hgt
      have hlt := e.medianTime.toNat_lt
      rw [UInt64.toNat_add, hsub, Nat.mod_eq_of_lt (by omega)]
      omega
    · omega
  · omega

theorem Online.observe {o : Option Event} (h : Online es.epochStart seen info) (ctx : BlockCtx)
    (hberlin : es.rules.upgrades.berlin = true)
    (hmono : (seen ++ o.toList).Pairwise fun e e' => e.medianTime ≤ e'.medianTime) :
    Online es.epochStart (seen ++ o.toList) (observe es ctx info o) := by
  cases o with
  | none =>
    rw [Option.toList_none, List.append_nil]
    exact h
  | some e =>
    rw [Option.toList_some] at hmono ⊢
    have hlater : ∀ e' ∈ seen, e'.medianTime ≤ e.medianTime := fun e' he' =>
      (List.pairwise_append.mp hmono).2.2 e' he' e List.mem_cons_self
    refine ⟨fun hnil => absurd hnil (by simp), fun e' he' => ?_⟩
    rw [List.getLast?_append_of_ne_nil _ (List.cons_ne_nil _ _)] at he'
    obtain rfl := Option.some.inj he'
    exact ⟨rfl, h.uptimeAt_le hberlin hlater⟩

theorem le_largestMedianTime (he : e ∈ seen) : e.medianTime.toNat ≤ largestMedianTime seen := by
  induction seen with
  | nil => cases he
  | cons e' seen ih =>
    rw [largestMedianTime, List.map_cons, List.foldr_cons]
    rcases List.mem_cons.mp he with rfl | he
    · exact Nat.le_max_left _ _
    · exact (ih he).trans (Nat.le_max_right _ _)

/-- What is reported when the epoch is sealed. -/
theorem Online.reported_le (h : Online es.epochStart seen info) :
    (epochMetric ctx es info).uptime.toNat ≤
      max ctx.time.toNat (largestMedianTime seen) - es.epochStart.toNat := by
  have hbefore : info.uptime.toNat = 0 ∨
      info.uptime.toNat ≤ info.lastOnlineTime.toNat - es.epochStart.toNat ∧
        info.lastOnlineTime.toNat ≤ largestMedianTime seen := by
    rcases h.uptime_le with hzero | ⟨huptime, e', he', honline⟩
    · exact .inl hzero
    · exact .inr ⟨huptime, honline ▸ le_largestMedianTime he'⟩
  rw [epochMetric]
  split
  · have hprev := toNat_maxTimestamp info.lastOnlineTime es.epochStart
    have hmax := toNat_maxTimestamp ctx.time (maxTimestamp info.lastOnlineTime es.epochStart)
    have hsub := UInt64.toNat_sub_of_le _ _
      (le_maxTimestamp ctx.time (maxTimestamp info.lastOnlineTime es.epochStart))
    have hlt := (maxTimestamp ctx.time (maxTimestamp info.lastOnlineTime es.epochStart)).toNat_lt
    simp only
    rw [UInt64.toNat_add, hsub, Nat.mod_eq_of_lt (by omega)]
    omega
  · simp only
    omega

/-! ## The blocks of an epoch -/

theorem EpochRun.reported {blocks : List (BlockInput × Outcome)} {b : BlockInput}
    {block : ProcessedBlock}
    (h : EpochRun W bs es (blocks ++ [(b, Outcome.processed block)]) bs' es')
    (hsealing : block.sealing = true) (hberlin : es.rules.upgrades.berlin = true)
    (hv : v ∈ es.validators.sortedIDs)
    (hinfo : bs.validatorStates[es.validators.getIdx v]? = some info)
    (honline : Online es.epochStart seen info)
    (hmono : (seen ++ seenEvents es.validators v bs.epochCheaters
      (blocks.map Prod.fst ++ [b])).Pairwise fun e e' => e.medianTime ≤ e'.medianTime) :
    ∃ calls metrics metric,
      block.preInternalTxs.map InternalTx.call = calls ++ [DriverCall.sealEpoch metrics] ∧
      (∀ call ∈ calls, ∃ c, call = DriverCall.deactivateValidator c doublesignBit) ∧
      metrics[es.validators.getIdx v]? = some metric ∧
      metric.uptime.toNat ≤ max block.ctx.time.toNat (largestMedianTime (seen ++
        seenEvents es.validators v bs.epochCheaters (blocks.map Prod.fst ++ [b]))) -
          es.epochStart.toNat := by
  induction blocks generalizing bs info seen with
  | nil =>
    cases h with
    | cons step last rest =>
      obtain ⟨calls, metrics, info', hcalls, hdeactivate, hmetric, hclock⟩ :=
        step_sealEpoch step hsealing hv hinfo
      rw [List.map_nil, List.nil_append, seenEvents, seenEvents, List.append_nil] at hmono ⊢
      exact ⟨calls, metrics, _, hcalls, hdeactivate, hmetric,
        ((honline.observe _ hberlin hmono).of_clock hclock).reported_le⟩
  | cons x blocks ih =>
    obtain ⟨b₀, o⟩ := x
    cases h with
    | cons step last rest =>
      -- another block follows
      have ho : o.seals = false := by
        by_contra hne
        have hnil := last (Bool.eq_true_of_not_eq_false hne)
        simp at hnil
      obtain ⟨rfl, hcheaters, -, -⟩ := step_unsealed step ho
      obtain ⟨ctx, info₁, hinfo₁, hclock⟩ := step_clock step ho hv hinfo
      rw [List.map_cons, List.cons_append, seenEvents, ← hcheaters, ← List.append_assoc] at hmono ⊢
      rw [← hcheaters] at hclock
      have hfirst := honline.observe ctx hberlin (List.pairwise_append.mp hmono).1
      exact ih rest hinfo₁ (hfirst.of_clock hclock) hmono

/-- **Uptime does not exceed the epoch while median times do not go back.** Over the
blocks of an epoch with the Berlin upgrade, of which the last one seals it: no
subtraction wraps, and if each event of `v` that counts is not earlier than those
before, then the uptime of `v` that is reported to the driver is at most the time from
the start of the epoch to the last block, or to the largest of these median times. -/
theorem uptime_le_epoch (W : World) (bs bs' : BlockState) (es es' : EpochState)
    (blocks : List (BlockInput × Outcome)) (b : BlockInput) (block : ProcessedBlock)
    (hrun : EpochRun W bs es (blocks ++ [(b, .processed block)]) bs' es')
    (hsealing : block.sealing = true) (hberlin : es.rules.upgrades.berlin = true)
    (v : ValidatorID) (hv : v ∈ es.validators.sortedIDs) (info : ValidatorBlockState)
    (hinfo : bs.validatorStates[es.validators.getIdx v]? = some info) (huptime : info.uptime = 0)
    (hmono : (seenEvents es.validators v bs.epochCheaters (blocks.map Prod.fst ++ [b])).Pairwise
      fun e e' => e.medianTime ≤ e'.medianTime) :
    (∃ calls metrics metric,
      block.preInternalTxs.map InternalTx.call = calls ++ [.sealEpoch metrics] ∧
      (∀ call ∈ calls, ∃ c, call = .deactivateValidator c doublesignBit) ∧
      metrics[es.validators.getIdx v]? = some metric ∧
      metric.uptime.toNat ≤ max block.ctx.time.toNat (largestMedianTime
        (seenEvents es.validators v bs.epochCheaters (blocks.map Prod.fst ++ [b]))) -
          es.epochStart.toNat) ∧
    ∀ (es : EpochState) (ctx : BlockCtx) (info : ValidatorBlockState) (medianTime : Timestamp),
      ∀ p ∈ uptimeSubtractions es ctx info medianTime ++ metricSubtractions ctx es info,
        p.2 ≤ p.1 := by
  have honline : Online es.epochStart [] info := ⟨fun _ => huptime, fun _ h => by cases h⟩
  have hreported := hrun.reported hsealing hberlin hv hinfo honline hmono
  rw [List.nil_append] at hreported
  refine ⟨hreported, ?_⟩
  intro es ctx info medianTime p hp
  rcases List.mem_append.mp hp with hp | hp
  · exact uptimeSubtractions_le es ctx info medianTime p hp
  · exact metricSubtractions_le ctx es info p hp

/-- An epoch with the Berlin upgrade that is sealed with the second event. -/
def berlinEpochState : EpochState :=
  { sampleEpochState with
    rules :=
      { mainNetRules with
        epochs := { mainNetRules.epochs with maxEpochGas := 40000 }
        blocks := { mainNetRules.blocks with maxEmptyBlockSkipPeriod := 0 }
        upgrades := { berlin := true } } }

/-- A block that confirms one event, with a given median time. -/
def medianBlock (seq : UInt32) (medianTime : Timestamp) : BlockInput where
  cBlock := ⟨sampleAtropos.id, []⟩
  events := [{ sampleAtropos with seq := seq, medianTime := medianTime }]
  evm := sampleEvm
  getEventPayload _ := none

theorem uptime_le_epoch_medianBlock :
    ∃ o block bs es, EpochRun sampleWorld sampleBlockState berlinEpochState
        [(medianBlock 1 50, o), (medianBlock 2 100, .processed block)] bs es ∧
      ∃ calls metrics metric,
        block.preInternalTxs.map InternalTx.call = calls ++ [.sealEpoch metrics] ∧
        metrics[0]? = some metric ∧ metric.uptime.toNat ≤ 100 - 1 := by
  have hrun : (step sampleWorld sampleBlockState berlinEpochState (medianBlock 1 50)).any (fun r =>
      !r.2.seals && (step sampleWorld r.1.1 r.1.2 (medianBlock 2 100)).any (fun r' =>
        r'.2.processedWith fun block => block.sealing && block.ctx.time = 100)) = true := by
    decide +kernel
  obtain ⟨⟨⟨bs₁, es₁⟩, o⟩, hstep, hrun⟩ := (Option.any_eq_true _ _).mp hrun
  obtain ⟨ho, hrun⟩ := (Bool.and_eq_true _ _).mp hrun
  obtain ⟨bs₂, es₂, block, hstep', hblock⟩ := exists_processed hrun
  obtain ⟨hsealing, htime⟩ := (Bool.and_eq_true _ _).mp hblock
  have hblocks := EpochRun.cons hstep (fun hseals => by rw [hseals] at ho; cases ho)
    (.cons hstep' (fun _ => rfl) (.nil bs₂ es₂))
  have hmono : (seenEvents sampleValidators 1 [] [medianBlock 1 50, medianBlock 2 100]).Pairwise
      fun e e' => e.medianTime ≤ e'.medianTime := by decide
  obtain ⟨⟨calls, metrics, metric, hcalls, -, hmetric, hle⟩, -⟩ :=
    uptime_le_epoch sampleWorld _ _ _ _
    [(medianBlock 1 50, o)] (medianBlock 2 100) block hblocks hsealing rfl 1 (by decide) _ rfl rfl
    hmono
  refine ⟨o, block, bs₂, es₂, hblocks, calls, metrics, metric, hcalls, hmetric, ?_⟩
  rw [of_decide_eq_true htime] at hle
  exact hle

/-- The second event has an earlier median time: what has passed between the two is
counted twice. -/
theorem uptime_exceeds_epoch :
    ∃ o block bs es, EpochRun sampleWorld sampleBlockState berlinEpochState
        [(medianBlock 1 100, o), (medianBlock 2 50, .processed block)] bs es ∧
      block.sealing = true ∧
      ∃ metrics metric, .sealEpoch metrics ∈ block.preInternalTxs.map InternalTx.call ∧
        metrics[berlinEpochState.validators.getIdx 1]? = some metric ∧
        max block.ctx.time.toNat (largestMedianTime (seenEvents berlinEpochState.validators 1
          sampleBlockState.epochCheaters [medianBlock 1 100, medianBlock 2 50])) -
            berlinEpochState.epochStart.toNat < metric.uptime.toNat := by
  have hrun : (step sampleWorld sampleBlockState berlinEpochState (medianBlock 1 100)).any (fun r =>
      !r.2.seals && (step sampleWorld r.1.1 r.1.2 (medianBlock 2 50)).any (fun r' =>
        r'.2.processedWith fun block => block.sealing && block.ctx.time = 101 &&
          block.preInternalTxs.map InternalTx.call = [.sealEpoch [⟨⟨0, 0⟩, 150, 0⟩]])) = true := by
    decide +kernel
  obtain ⟨⟨⟨bs₁, es₁⟩, o⟩, hstep, hrun⟩ := (Option.any_eq_true _ _).mp hrun
  obtain ⟨ho, hrun⟩ := (Bool.and_eq_true _ _).mp hrun
  obtain ⟨bs₂, es₂, block, hstep', hblock⟩ := exists_processed hrun
  simp only [Bool.and_eq_true, decide_eq_true_eq] at hblock
  obtain ⟨⟨hsealing, htime⟩, hcalls⟩ := hblock
  have hblocks := EpochRun.cons hstep (fun hseals => by rw [hseals] at ho; cases ho)
    (.cons hstep' (fun _ => rfl) (.nil bs₂ es₂))
  refine ⟨o, block, bs₂, es₂, hblocks, hsealing, _, ⟨⟨0, 0⟩, 150, 0⟩,
    hcalls ▸ List.mem_cons_self, rfl, ?_⟩
  rw [htime]
  decide

end Zilionixx
