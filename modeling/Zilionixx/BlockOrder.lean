import Zilionixx.BlockCallbacks

/-!
# The order in which events are applied

The consensus applies the events of a block in some order. What becomes of the
block does not depend on it: the events are sorted before they are executed,
and an event that is kept because it came first is one of a cheater.
-/

namespace Zilionixx

/-! ## Sorting -/

namespace EventOrder

variable (O : EventOrder)

theorem not_less_trans {a b c : EventID} (hab : O.less b a = false) (hbc : O.less c b = false) :
    O.less c a = false := by
  by_contra hca
  rw [Bool.not_eq_false] at hca
  by_cases heq : a = b
  · rw [heq, hbc] at hca
    cases hca
  · rcases O.connected a b heq with h | h
    · rw [O.trans c a b hca h] at hbc
      cases hbc
    · rw [h] at hab
      cases hab

theorem not_less_total (a b : EventID) : O.less b a = false ∨ O.less a b = false := by
  rcases hab : O.less a b with _ | _
  · exact .inr rfl
  · refine .inl (Bool.eq_false_iff.mpr fun hba => ?_)
    have := O.trans a b a hab hba
    rw [O.irrefl] at this
    cases this

/-- A sorted list is determined by its elements. -/
theorem sort_perm {events events' : List EventID} (h : events.Perm events') :
    O.sort events = O.sort events' := by
  have hsorted : ∀ events, (O.sort events).Pairwise fun a b => (!O.less b a) = true :=
    List.pairwise_mergeSort
      (fun a b c hab hbc => by
        rw [Bool.not_eq_true'] at hab hbc ⊢
        exact O.not_less_trans hab hbc)
      fun a b => by
        rw [Bool.or_eq_true, Bool.not_eq_true', Bool.not_eq_true']
        exact O.not_less_total a b
  refine List.Perm.eq_of_pairwise (fun a b _ _ hab hba => ?_) (hsorted events) (hsorted events')
    ((List.mergeSort_perm ..).trans (h.trans (List.mergeSort_perm ..).symm))
  rw [Bool.not_eq_true'] at hab hba
  by_contra hne
  rcases O.connected a b hne with h | h
  · rw [h] at hba
    cases hba
  · rw [h] at hab
    cases hab

end EventOrder

/-! ## Applying events -/

variable {W : World} {cBlock : ConsensusBlock} {bs : BlockState} {es : EpochState}
  {events events' : List Event} {p p' : BlockProcessing}

/-- Events of validators can be applied. -/
theorem applyEvents (H : Hashing)
    (hp : ValidatorEventsProcessor.Processed (withCheaters bs cBlock) es events' p.eventProcessor)
    (hcreators : ∀ e ∈ events, e.creator ∈ es.validators.sortedIDs) :
    ∃ p', events.foldlM (BlockProcessing.applyEvent H) p = some p' ∧
      ValidatorEventsProcessor.Processed (withCheaters bs cBlock) es (events.reverse ++ events')
        p'.eventProcessor := by
  induction events generalizing events' p with
  | nil => exact ⟨p, rfl, hp⟩
  | cons e events ih =>
    obtain ⟨hcreator, hcreators⟩ := List.forall_mem_cons.mp hcreators
    obtain ⟨processor, hstep, hprocessed⟩ := hp.processConfirmedEvent hcreator
    rw [List.foldlM_cons, BlockProcessing.applyEvent, hstep, List.reverse_cons, List.append_assoc]
    exact ih hprocessed hcreators

/-- Of events with different IDs, at most one is found. -/
theorem find?_perm (hperm : events.Perm events') (hids : (events.map Event.id).Nodup)
    (id : EventID) : events.find? (id = ·.id) = events'.find? (id = ·.id) := by
  rcases hfind : events.find? (id = ·.id) with _ | e
  · rw [hfind]
    refine (List.find?_eq_none.mpr fun e he => ?_).symm
    exact List.find?_eq_none.mp hfind e (hperm.mem_iff.mpr he)
  · have hid : id = e.id := by simpa using List.find?_some hfind
    have hmem := List.mem_of_find?_eq_some hfind
    rcases hfind' : events'.find? (id = ·.id) with _ | e'
    · exact absurd (decide_eq_true hid) (List.find?_eq_none.mp hfind' e (hperm.mem_iff.mp hmem))
    · have hid' : id = e'.id := by simpa using List.find?_some hfind'
      have hmem' := hperm.mem_iff.mpr (List.mem_of_find?_eq_some hfind')
      rw [hfind, hfind', List.inj_on_of_nodup_map hids hmem hmem' (hid.symm.trans hid')]

/-- `EndBlock` sees of the events only what does not depend on their order. -/
structure Alike (O : EventOrder) (p p' : BlockProcessing) : Prop where
  es_eq : p.es = p'.es
  blockCtx_eq : p.blockCtx = p'.blockCtx
  skipBlock_eq : p.skipBlock = p'.skipBlock
  sort_eq : O.sort p.confirmedEvents = O.sort p'.confirmedEvents

theorem Applied.alike {H : Hashing} (O : EventOrder) (hperm : events.Perm events')
    (hids : (events.map Event.id).Nodup) (h : Applied H cBlock bs es events p)
    (h' : Applied H cBlock bs es events' p') : Alike O p p' := by
  have hfind := find?_perm hperm hids cBlock.atropos
  have htime : p.atroposTime = p'.atroposTime := by rw [h.atroposTime, h'.atroposTime, hfind]
  have hdegenerate : p.atroposDegenerate = p'.atroposDegenerate := by
    rw [h.atroposDegenerate, h'.atroposDegenerate, hfind]
  have hconfirmed : p.confirmedEvents.Perm p'.confirmedEvents := by
    rw [h.confirmedEvents, h'.confirmedEvents]
    exact (List.reverse_perm _).trans
      (((hperm.filter _).map _).trans (List.reverse_perm _).symm)
  have hctx : p.blockCtx = p'.blockCtx := by
    rw [BlockProcessing.blockCtx, BlockProcessing.blockCtx, h.bs_eq, h'.bs_eq, h.cBlock_eq,
      h'.cBlock_eq, htime]
  have hskip : p.skipBlock = p'.skipBlock := by
    rw [BlockProcessing.skipBlock, BlockProcessing.skipBlock, hctx, hdegenerate,
      hconfirmed.length_eq, h.bs_eq, h'.bs_eq, h.es_eq, h'.es_eq, h.cBlock_eq, h'.cBlock_eq]
  exact ⟨h.es_eq.trans h'.es_eq.symm, hctx, hskip, O.sort_perm hconfirmed⟩

theorem Alike.endBlock_eq (h : Alike W.order p p')
    (hfinalize : p.eventProcessor.finalize p.blockCtx = p'.eventProcessor.finalize p'.blockCtx)
    (evm : Evm) (getEventPayload : EventID → Option EventPayload) (statedb : evm.State) :
    endBlock W evm getEventPayload statedb p = endBlock W evm getEventPayload statedb p' := by
  have hprocess : ∀ bs, processBlock W evm getEventPayload p.blockCtx p.confirmedEvents statedb bs
      p.es =
        processBlock W evm getEventPayload p'.blockCtx p'.confirmedEvents statedb bs p'.es := by
    intro bs
    simp only [processBlock, blockFn, h.sort_eq, h.blockCtx_eq, h.es_eq]
  simp only [endBlock, hfinalize, h.skipBlock_eq, hprocess]
  rw [h.es_eq]

/-- **The order of the events does not matter.** When the events of a block are
applied in another order, it is skipped or not as before, has the same context,
the same events after sorting and spilling, and the same states, both from the
event processor and in the end. Confirmed events have different IDs and, by the
epoch check, creators that are validators of the epoch; a creator of two events
with one sequence number is supposed to be among the cheaters. -/
theorem block_order_irrelevant (W : World) (cBlock : ConsensusBlock) (bs : BlockState)
    (es : EpochState) (events events' : List Event) (hperm : events.Perm events')
    (hids : (events.map Event.id).Nodup)
    (hcreators : ∀ e ∈ events, e.creator ∈ es.validators.sortedIDs)
    (hties : ValidatorEventsProcessor.TiesCheat
      (mergeCheaters bs.epochCheaters cBlock.cheaters) events) :
    ∃ p p',
      events.foldlM (BlockProcessing.applyEvent W.hashing) (beginBlock cBlock bs es) = some p ∧
      events'.foldlM (BlockProcessing.applyEvent W.hashing) (beginBlock cBlock bs es) = some p' ∧
      p.skipBlock = p'.skipBlock ∧ p.blockCtx = p'.blockCtx ∧
      (∀ getEventPayload rules,
        spillBlockEvents getEventPayload (W.order.sort p.confirmedEvents) rules =
          spillBlockEvents getEventPayload (W.order.sort p'.confirmedEvents) rules) ∧
      p.eventProcessor.finalize p.blockCtx = p'.eventProcessor.finalize p'.blockCtx ∧
      ∀ evm getEventPayload statedb,
        endBlock W evm getEventPayload statedb p = endBlock W evm getEventPayload statedb p' := by
  have hcreators' : ∀ e ∈ events', e.creator ∈ es.validators.sortedIDs :=
    fun e he => hcreators e (hperm.mem_iff.mpr he)
  obtain ⟨p, hrun, hp⟩ := applyEvents (p := beginBlock cBlock bs es) W.hashing
    ValidatorEventsProcessor.processed_start hcreators
  obtain ⟨p', hrun', hp'⟩ := applyEvents (p := beginBlock cBlock bs es) W.hashing
    ValidatorEventsProcessor.processed_start hcreators'
  rw [List.append_nil] at hp hp'
  have hreverse : events.reverse.Perm events'.reverse :=
    (List.reverse_perm _).trans (hperm.trans (List.reverse_perm _).symm)
  have hids' : (events.reverse.map Event.id).Nodup := by
    rwa [List.map_reverse, List.nodup_reverse]
  have halike : Alike W.order p p' := by
    have h := applied_beginBlock.applyEvents hrun
    have h' := applied_beginBlock.applyEvents hrun'
    rw [List.append_nil] at h h'
    exact h.alike W.order hreverse hids' h'
  have hfinalize : p.eventProcessor.finalize p.blockCtx =
      p'.eventProcessor.finalize p'.blockCtx := by
    rw [← halike.blockCtx_eq]
    refine ValidatorEventsProcessor.finalize_perm hreverse ?_ ?_ hp hp'
    · exact fun e he => hcreators e (List.mem_reverse.mp he)
    · exact fun e he e' he' =>
        hties e (List.mem_reverse.mp he) e' (List.mem_reverse.mp he')
  exact ⟨p, p', hrun, hrun', halike.skipBlock_eq, halike.blockCtx_eq,
    fun _ _ => by rw [halike.sort_eq], hfinalize, halike.endBlock_eq hfinalize⟩

/-- An event with a transaction; of a fork, as its sequence number is always the same. -/
def forkEvent (n : UInt8) : Event :=
  { sampleAtropos with
    txHash := copyBytes 32 [1]
    id := ⟨1, 1, copyBytes 24 [n]⟩ }

theorem block_order_irrelevant_fork :
    ∃ p p',
      [forkEvent 1, forkEvent 2].foldlM (BlockProcessing.applyEvent sampleWorld.hashing)
        (beginBlock ⟨(forkEvent 1).id, [1]⟩ sampleBlockState sampleEpochState) = some p ∧
      [forkEvent 2, forkEvent 1].foldlM (BlockProcessing.applyEvent sampleWorld.hashing)
        (beginBlock ⟨(forkEvent 1).id, [1]⟩ sampleBlockState sampleEpochState) = some p' ∧
      p.confirmedEvents ≠ p'.confirmedEvents ∧ p.skipBlock = false ∧
      ∀ evm getEventPayload statedb, endBlock sampleWorld evm getEventPayload statedb p =
        endBlock sampleWorld evm getEventPayload statedb p' := by
  obtain ⟨p, p', hrun, hrun', -, -, -, -, hend⟩ := block_order_irrelevant sampleWorld
    ⟨(forkEvent 1).id, [1]⟩ sampleBlockState sampleEpochState [forkEvent 1, forkEvent 2]
    [forkEvent 2, forkEvent 1] (.swap ..) (by decide) (by decide)
    (fun e he _ _ _ _ _ => by
      rcases List.mem_pair.mp he with rfl | rfl <;> exact List.mem_singleton_self 1)
  have hp := applied_beginBlock.applyEvents hrun
  have hp' := applied_beginBlock.applyEvents hrun'
  refine ⟨p, p', hrun, hrun', ?_, ?_, hend⟩
  · rw [hp.confirmedEvents, hp'.confirmedEvents]
    decide
  · rw [BlockProcessing.skipBlock, hp.atroposDegenerate, hp.cBlock_eq]
    simp

end Zilionixx
