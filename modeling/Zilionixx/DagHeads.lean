import Zilionixx.Node

/-!
# Heads and last events of an epoch

The two indexes in the store of an epoch are kept event by event, and the emitter builds on them.
What they are for is said here in terms of the accepted events: the heads are those that are not a
parent of any (`headsOf`), and the last event of a validator is the one that was accepted last
(`lastOf`).

A head that is erased never has to come back, since parents are accepted before their children; and
an event is accepted once, since the table of events still has it.
-/

namespace Zilionixx

variable {H : Hashing} {R : Rlp} {V : Type}

/-! ## What the indexes are for -/

/-- The events that are not a parent of any of the events. -/
def headsOf (accepted : List EventPayload) : Finset EventID :=
  (accepted.map fun e => e.id).toFinset.filter fun id => ∀ e ∈ accepted, id ∉ e.parents

/-- The last event of a validator, in the order in which they were accepted. -/
def lastOf (accepted : List EventPayload) (vid : ValidatorID) : Option EventID :=
  (accepted.filter fun e => e.creator = vid).getLast?.map fun e => e.id

/-- Parents come before their children, and no event comes twice. -/
inductive ParentsFirst : List EventPayload → Prop
  | nil : ParentsFirst []
  | snoc {accepted : List EventPayload} {e : EventPayload} (earlier : ParentsFirst accepted)
    (parents : ∀ p ∈ e.parents, p ∈ accepted.map fun e => e.id)
    (fresh : e.id ∉ accepted.map fun e => e.id) : ParentsFirst (accepted ++ [e])

variable {accepted : List EventPayload} {e : EventPayload}

theorem ParentsFirst.closed (h : ParentsFirst accepted) :
    ∀ e ∈ accepted, ∀ p ∈ e.parents, p ∈ accepted.map fun e => e.id := by
  induction h with
  | nil => simp
  | @snoc accepted e _ parents _ ih =>
    intro b hb p hp
    rw [List.map_append, List.mem_append]
    rcases List.mem_append.mp hb with hb | hb
    · exact .inl (ih b hb p hp)
    · obtain rfl := List.mem_singleton.mp hb
      exact .inl (parents p hp)

theorem ParentsFirst.nodup (h : ParentsFirst accepted) : (accepted.map fun e => e.id).Nodup := by
  induction h with
  | nil => exact List.nodup_nil
  | @snoc accepted e _ _ fresh ih =>
    rw [List.map_append]
    exact ih.append (List.nodup_singleton _) (List.disjoint_singleton.mpr fresh)

/-- A head is no parent. -/
theorem mem_headsOf {id : EventID} :
    id ∈ headsOf accepted ↔ id ∈ accepted.map (fun e => e.id) ∧ ∀ e ∈ accepted, id ∉ e.parents := by
  rw [headsOf, Finset.mem_filter, List.mem_toFinset]

/-- One more event: its parents are heads no longer, and it is one. -/
theorem headsOf_append (h : ParentsFirst (accepted ++ [e])) :
    headsOf (accepted ++ [e]) = EpochStore.processEventHeads (headsOf accepted) e := by
  generalize hwhole : accepted ++ [e] = whole at h
  cases h with
  | nil => simp at hwhole
  | @snoc accepted' e' earlier parents fresh =>
    obtain ⟨rfl, heq⟩ := List.append_inj' hwhole rfl
    obtain rfl : e = e' := by simpa using heq
    ext id
    simp only [EpochStore.processEventHeads, Finset.mem_insert, Finset.mem_sdiff, mem_headsOf,
      List.mem_toFinset, List.map_append, List.mem_append, List.map_cons, List.map_nil,
      List.mem_singleton, or_imp, forall_and, forall_eq]
    constructor
    · rintro ⟨hid | rfl, hold, hnew⟩
      · exact .inr ⟨⟨hid, hold⟩, hnew⟩
      · exact .inl rfl
    · rintro (rfl | ⟨⟨hid, hold⟩, hnew⟩)
      · -- the parents of the events before it, and its own, were accepted before it
        exact ⟨.inr rfl, fun b hb hp => fresh (earlier.closed b hb _ hp),
          fun hp => fresh (parents _ hp)⟩
      · exact ⟨.inl hid, hold, hnew⟩

/-- A new event is the last one of its creator. -/
theorem lastOf_append (vid : ValidatorID) :
    lastOf (accepted ++ [e]) vid = if vid = e.creator then some e.id else lastOf accepted vid := by
  rw [lastOf, lastOf, List.filter_append]
  by_cases hvid : vid = e.creator
  · subst hvid
    simp
  · rw [if_neg hvid, List.filter_cons_of_neg (by simpa using Ne.symm hvid), List.filter_nil,
      List.append_nil]

/-! ## The store of the epoch -/

/-- The store of the epoch has the heads and the last events of the accepted events. -/
def EpochStore.Indexes (es : EpochStore) (accepted : List EventPayload) : Prop :=
  ∃ lasts, es.Holds (headsOf accepted) lasts ∧ ∀ vid, lasts.lookup vid = lastOf accepted vid

namespace EpochStore

variable {es es' : EpochStore}

theorem indexes_fresh (epoch : UInt32) : (fresh epoch).Indexes [] :=
  ⟨∅, ⟨rfl, rfl⟩, fun _ => rfl⟩

/-- An event is added to the index. -/
theorem Indexes.connect (h : es.Indexes accepted) (hfirst : ParentsFirst (accepted ++ [e])) :
    ∃ es', es.connect e = some es' ∧ es'.epoch = es.epoch ∧ es'.Indexes (accepted ++ [e]) := by
  obtain ⟨lasts, hholds, hlasts⟩ := h
  obtain ⟨es', hes', hepoch, hholds'⟩ := hholds.connect e
  refine ⟨es', hes', hepoch, processLastEvent lasts e, headsOf_append hfirst ▸ hholds',
    fun vid => ?_⟩
  rw [lastOf_append, processLastEvent]
  by_cases hvid : vid = e.creator
  · rw [hvid, Finmap.lookup_insert, if_pos rfl]
  · rw [Finmap.lookup_insert_of_ne _ hvid, if_neg hvid, hlasts]

theorem Indexes.flush (h : es.Indexes accepted) : es.flush.Indexes accepted := by
  obtain ⟨lasts, hholds, hlasts⟩ := h
  exact ⟨lasts, hholds.flush, hlasts⟩

/-- What is flushed is read back. -/
theorem Indexes.reload_flush (h : es.Indexes accepted) :
    ∃ es', es.flush.reload = some es' ∧ es'.epoch = es.epoch ∧ es'.Indexes accepted := by
  obtain ⟨lasts, hholds, hlasts⟩ := h
  obtain ⟨es', hes', hepoch, hholds'⟩ := hholds.reload_flush
  exact ⟨es', hes', hepoch, lasts, hholds', hlasts⟩

/-- What `GetHeads` and `GetLastEvents` return. -/
theorem Indexes.get (h : es.Indexes accepted) :
    es.getHeads.map Prod.fst = some (headsOf accepted) ∧
      ∃ lasts, es.getLastEvents.map Prod.fst = some lasts ∧
        ∀ vid, lasts.lookup vid = lastOf accepted vid := by
  obtain ⟨lasts, hholds, hlasts⟩ := h
  refine ⟨by rw [getHeads, hholds.heads]; rfl, lasts, by rw [getLastEvents, hholds.lasts]; rfl,
    hlasts⟩

end EpochStore

/-! ## Along every run -/

namespace Node

variable {n₀ n n' : Node V} {env : NodeEnv V}

/-- The store of the epoch is closed, and opened again from its database. -/
def reloadEpochStore (n : Node V) : Option (Node V) :=
  n.flush.epochStore.reload.map fun es => { n.flush with epochStore := es }

/-- The event is connected, whether `Commit` fails or not. -/
def accepts : Except ProcessError Unit → Prop
  | .ok () | .error (.commit _) => True
  | .error _ => False

/-- A node after some calls, and the events that were accepted in its epoch. Parents come first. -/
inductive Reached (H : Hashing) (R : Rlp) (n₀ : Node V) : Node V → List EventPayload → Prop
  | start : Reached H R n₀ n₀ []
  | refused {n n' : Node V} {accepted : List EventPayload} {env : NodeEnv V} {e : LoadedEvent}
    {r : Except ProcessError Unit} (before : Reached H R n₀ n accepted)
    (call : n.processEvent H R env e = some (n', r)) (result : ¬accepts r) :
    Reached H R n₀ n' accepted
  | accepted {n n' : Node V} {accepted : List EventPayload} {env : NodeEnv V} {e : LoadedEvent}
    {r : Except ProcessError Unit} (before : Reached H R n₀ n accepted)
    (call : n.processEvent H R env e = some (n', r)) (result : accepts r)
    (parents : ∀ p ∈ e.event.parents, p ∈ accepted.map fun e => e.id) (epoch : n'.epoch = n.epoch) :
    Reached H R n₀ n' (accepted ++ [e.event])
  /-- the last event of an epoch -/
  | sealed {n n' : Node V} {accepted : List EventPayload} {env : NodeEnv V} {e : LoadedEvent}
    {r : Except ProcessError Unit} (before : Reached H R n₀ n accepted)
    (call : n.processEvent H R env e = some (n', r)) (result : accepts r)
    (epoch : n'.epoch ≠ n.epoch) : Reached H R n₀ n' []
  | flush {n : Node V} {accepted : List EventPayload} (before : Reached H R n₀ n accepted) :
    Reached H R n₀ n.flush accepted
  | reload {n n' : Node V} {accepted : List EventPayload} (before : Reached H R n₀ n accepted)
    (call : n.reloadEpochStore = some n') : Reached H R n₀ n' accepted

/-- The indexes are those of the accepted events, which are all in the table. -/
structure InEpoch (n : Node V) (accepted : List EventPayload) : Prop where
  epoch : n.epochStore.epoch = n.epoch
  indexes : n.epochStore.Indexes accepted
  parentsFirst : ParentsFirst accepted
  stored : ∀ e ∈ accepted, n.events.hasEvent e.id = true

theorem refused_of_not_accepts {e : LoadedEvent} {r : Except ProcessError Unit}
    (h : n.processEvent H R env e = some (n', r)) (hr : ¬accepts r) : Refused H R env n e n' := by
  rcases processEvent_cases h with ⟨_, -, -, hrefused⟩ | ⟨hcommit, -⟩
  · exact hrefused
  · rcases r with err | ⟨⟩
    · obtain ⟨text, rfl⟩ := hcommit err rfl
      exact absurd trivial hr
    · exact absurd trivial hr

theorem connected_of_accepts {e : LoadedEvent} {r : Except ProcessError Unit}
    (h : n.processEvent H R env e = some (n', r)) (hr : accepts r) :
    ∃ n₁, Connected H R env n e n₁ ∧ (n' = n₁ ∨ n' = n₁.flush) := by
  rcases processEvent_cases h with ⟨err, rfl, herr, -⟩ | ⟨-, hconnected⟩
  · cases err <;> first | exact absurd rfl (herr _) | exact absurd hr id
  · exact hconnected

theorem InEpoch.refused {e : LoadedEvent} (h : n.InEpoch accepted) (hr : Refused H R env n e n') :
    n'.InEpoch accepted := by
  obtain ⟨hepoch, hstore, hevents⟩ := hr.frame
  refine ⟨by rw [hstore, hepoch, h.epoch], hstore ▸ h.indexes, h.parentsFirst, fun e he => ?_⟩
  rw [EventStore.hasEvent, hevents]
  exact h.stored e he

theorem InEpoch.flush (h : n.InEpoch accepted) : n.flush.InEpoch accepted :=
  ⟨(EpochStore.flush_epoch _).trans h.epoch, h.indexes.flush, h.parentsFirst, h.stored⟩

theorem InEpoch.reload (h : n.InEpoch accepted) (hn' : n.reloadEpochStore = some n') :
    n'.InEpoch accepted := by
  obtain ⟨es, hes, hepoch, hindexes⟩ := h.indexes.reload_flush
  obtain ⟨es', hes', rfl⟩ := Option.map_eq_some_iff.mp hn'
  obtain rfl : es = es' := Option.some.inj (hes.symm.trans hes')
  exact ⟨hepoch.trans h.epoch, hindexes, h.parentsFirst, h.stored⟩

/-- An event that is not in the table yet, with its parents accepted, comes next. -/
theorem InEpoch.parentsFirst_append (h : n.InEpoch accepted)
    (hnone : n.events.hasEvent e.id = false)
    (hparents : ∀ p ∈ e.parents, p ∈ accepted.map fun e => e.id) :
      ParentsFirst (accepted ++ [e]) := by
  refine .snoc h.parentsFirst hparents fun hid => ?_
  obtain ⟨b, hb, hid⟩ := List.mem_map.mp hid
  have hstored := h.stored b hb
  rw [hid, hnone] at hstored
  cases hstored

theorem InEpoch.connected {e : LoadedEvent} (h : n.InEpoch accepted) (hc : Connected H R env n e n')
    (hparents : ∀ p ∈ e.event.parents, p ∈ accepted.map fun e => e.id)
    (hepoch : n'.epoch = n.epoch) :
    n'.InEpoch (accepted ++ [e.event]) := by
  obtain ⟨hnone, hhas, -, es, hes, hcases⟩ := hc.frame
  have hfirst := h.parentsFirst_append hnone hparents
  obtain ⟨es', hes', hsame, hindexes⟩ := h.indexes.connect hfirst
  obtain rfl : es = es' := Option.some.inj (hes.symm.trans hes')
  rcases hcases with ⟨-, hstore⟩ | ⟨hnew, -⟩
  · refine ⟨by rw [hstore, hsame, h.epoch, hepoch], hstore ▸ hindexes, hfirst, fun b hb => ?_⟩
    rw [hhas]
    rcases List.mem_append.mp hb with hb | hb
    · rw [h.stored b hb, Bool.or_true]
    · rw [List.mem_singleton.mp hb, decide_eq_true rfl, Bool.true_or]
  · exact absurd hepoch hnew

theorem inEpoch_of_connected {e : LoadedEvent} (hc : Connected H R env n e n')
    (hepoch : n'.epoch ≠ n.epoch) : n'.InEpoch [] := by
  obtain ⟨-, -, -, es, -, hcases⟩ := hc.frame
  rcases hcases with ⟨hsame, -⟩ | ⟨-, hstore⟩
  · exact absurd hsame hepoch
  · exact ⟨by rw [hstore]; rfl, hstore ▸ EpochStore.indexes_fresh _, .nil, by simp⟩

/-- The store indexes the epoch, along every run. -/
theorem Reached.inEpoch (h : Reached H R n₀ n accepted) (hstart : n₀.epochStore = .fresh n₀.epoch) :
    n.InEpoch accepted := by
  induction h with
  | start => exact ⟨by rw [hstart]; rfl, hstart ▸ EpochStore.indexes_fresh _, .nil, by simp⟩
  | refused _ call result ih => exact ih.refused (refused_of_not_accepts call result)
  | accepted _ call result parents epoch ih =>
    obtain ⟨n₁, hc, rfl | rfl⟩ := connected_of_accepts call result
    · exact ih.connected hc parents epoch
    · exact (ih.connected hc parents epoch).flush
  | sealed _ call result epoch =>
    obtain ⟨n₁, hc, rfl | rfl⟩ := connected_of_accepts call result
    · exact inEpoch_of_connected hc epoch
    · exact (inEpoch_of_connected hc epoch).flush
  | flush _ ih => exact ih.flush
  | reload _ call ih => exact ih.reload call

end Node

/-- **DAG heads and last events.** Along every run, over the epochs, flushes and reloads of the
store included, the heads are the accepted events of the epoch that are not a parent of any of them,
and the last event of a validator is its most recently accepted one. Flushing and reloading gives
the same heads and last events. The event that comes next, also one that ends the epoch, is indexed
in the same way in the store of its epoch. -/
theorem heads_and_last_events (H : Hashing) (R : Rlp) (n₀ n : Node V) (accepted : List EventPayload)
    (hstart : n₀.epochStore = .fresh n₀.epoch) (h : Node.Reached H R n₀ n accepted) :
    (accepted.map fun e => e.id).Nodup ∧ n.getEpochStore n.epoch = some n.epochStore ∧
    n.epochStore.getHeads.map Prod.fst = some (headsOf accepted) ∧
    n.epochStore.flushHeads.loadHeads = some (headsOf accepted) ∧
    (∃ lasts, n.epochStore.getLastEvents.map Prod.fst = some lasts ∧
      n.epochStore.flushLastEvents.loadLastEvents = some lasts ∧
      ∀ vid, lasts.lookup vid = lastOf accepted vid) ∧
    (∃ n', n.reloadEpochStore = some n') ∧
    ∀ (env : NodeEnv V) (e : LoadedEvent) (n' : Node V) (r : Except ProcessError Unit),
      n.processEvent H R env e = some (n', r) → Node.accepts r →
      (∀ p ∈ e.event.parents, p ∈ accepted.map fun e => e.id) →
      ∃ es, n.epochStore.connect e.event = some es ∧
        es.getHeads.map Prod.fst = some (headsOf (accepted ++ [e.event])) ∧
        ∃ lasts, es.getLastEvents.map Prod.fst = some lasts ∧
          ∀ vid, lasts.lookup vid = lastOf (accepted ++ [e.event]) vid := by
  have hin := h.inEpoch hstart
  obtain ⟨lasts, hholds, hlasts⟩ := hin.indexes
  obtain ⟨es, hes, -⟩ := hin.indexes.reload_flush
  refine ⟨hin.parentsFirst.nodup, if_pos hin.epoch, hin.indexes.get.1,
    EpochStore.loadHeads_flushHeads hholds.heads,
    ⟨lasts, by rw [EpochStore.getLastEvents, hholds.lasts]; rfl,
      EpochStore.loadLastEvents_flushLastEvents hholds.lasts, hlasts⟩,
    ⟨_, congrArg (Option.map _) hes⟩, ?_⟩
  intro env e n' r hcall hr hparents
  obtain ⟨n₁, hc, -⟩ := Node.connected_of_accepts hcall hr
  have hfirst := hin.parentsFirst_append hc.frame.1 hparents
  obtain ⟨es', hes', -, hindexes⟩ := hin.indexes.connect hfirst
  exact ⟨es', hes', hindexes.get⟩

/-- The event is indexed and processed. -/
def calmNodeEnv : NodeEnv ℕ where
  epochcheck _ := .ok ()
  add _ index := (index + 1, none)
  medianTime _ _ := 1
  engine _ := .ok ⟨1, copyBytes 32 []⟩
  reads := []
  nextIndex := 0
  commit := some none

/-- A node in the first epoch that has read the highest lamport. -/
def Node.Open (n : Node ℕ) : Prop :=
  n.stopped = false ∧ n.epoch = 1 ∧ ∃ highest, n.highestLamport.cache = some highest

theorem Node.Open.flush {n : Node ℕ} (h : n.Open) : n.flush.Open := by
  obtain ⟨hstopped, hepoch, highest, hcache⟩ := h
  exact ⟨hstopped, hepoch, highest, by simp only [Node.flush, HighestLamport.flush, hcache]⟩

/-- An event that is not there yet is accepted. -/
theorem Node.InEpoch.exists_processEvent {n : Node ℕ} {accepted : List EventPayload}
    {e : MutableEventPayload} {h : Hash} {s : ℕ} (hin : n.InEpoch accepted) (hopen : n.Open)
    (hnone : n.events.hasEvent (e.build h s).id = false)
    (hencodable : e.Encodable sampleHashing ∧ e.Writable sampleHashing)
    (hfix : fixEventTxHashes (.fresh (e.build h s)) = some (.fresh (e.build h s)))
    (htime : e.medianTime = 1 ∧ e.prevEpochHash = none)
    (hparents : ∀ p ∈ e.parents, p ∈ accepted.map fun e => e.id) :
    ∃ n', n.processEvent sampleHashing sampleRlp calmNodeEnv (.fresh (e.build h s)) =
        some (n', .ok ()) ∧ n'.Open ∧
      ∀ id, n'.events.hasEvent id = (decide (id = (e.build h s).id) || n.events.hasEvent id) := by
  obtain ⟨hstopped, hepoch, highest, hcache⟩ := hopen
  obtain ⟨store, hset⟩ := exists_setEvent hencodable.1 hencodable.2 n.events h s
  have hsaved : (calmNodeEnv.toProcessEnv n).processSavedEvent (e.build h s) =
      .ok ⟨1, copyBytes 32 []⟩ := if_neg (not_not.mpr htime.1)
  have hsave := saveAndProcessEvent_eq calmNodeEnv n hfix hset rfl
  have hfirst := hin.parentsFirst_append (e := e.build h s) hnone hparents
  obtain ⟨es, hes, -⟩ := hin.indexes.connect hfirst
  obtain ⟨n₁, hconnect, hn₁, hevents⟩ :
      ∃ n₁, (n.settle calmNodeEnv (e.build h s) store (.ok ⟨1, copyBytes 32 []⟩)).connect
          calmNodeEnv (e.build h s) ⟨1, copyBytes 32 []⟩ = some n₁ ∧ n₁.Open ∧
            n₁.events = store := by
    simp only [connect, settle, getEpochStore, if_pos (hin.epoch.trans hepoch), Option.bind_eq_bind,
      Option.bind_some, hes, HighestLamport.get, hcache, hepoch, ne_eq, not_true, if_false]
    refine ⟨_, rfl, ⟨hstopped, rfl, Option.isSome_iff_exists.mp ?_⟩, ?_⟩
    · dsimp only
      split
      · rfl
      · exact Option.isSome_iff_exists.mpr ⟨highest, hcache⟩
    · rfl
  refine ⟨n₁.flush, ?_, hn₁.flush, fun id => hevents ▸ EventStore.hasEvent_setEvent hset id⟩
  have hcheck : calmNodeEnv.epochcheck (e.build h s) = .ok () := rfl
  have hprev : (e.build h s).prevEpochHash = none := htime.2
  simp only [LoadedEvent.fresh, hsaved] at hsave
  simp [processEvent, hstopped, LoadedEvent.fresh, hnone, hcheck, hprev, hsave, hconnect]
  rfl

/-- The first node, when it has read the highest lamport. -/
def openNode : Node ℕ := { firstNode with highestLamport := ⟨none, some 0⟩ }

/-- An event is accepted, the store is opened again, and a child of the event is accepted. -/
theorem heads_and_last_events_receivedEvent :
    ∃ n child, Node.Reached sampleHashing sampleRlp openNode n [receivedEvent.event, child] ∧
      child.parents = [receivedEvent.event.id] ∧
      n.epochStore.getHeads.map Prod.fst = some {child.id} ∧
      n.epochStore.flushHeads.loadHeads = some {child.id} ∧
      ∃ lasts, n.epochStore.getLastEvents.map Prod.fst = some lasts ∧
        n.epochStore.flushLastEvents.loadLastEvents = some lasts ∧
        lasts.lookup 1 = some child.id := by
  have hstart : Node.Reached sampleHashing sampleRlp openNode openNode [] := .start
  obtain ⟨n₁, hfirst, hopen, hhas⟩ := (hstart.inEpoch rfl).exists_processEvent
    ⟨rfl, rfl, 0, rfl⟩ rfl
    startEvent_encodable (rfl : fixEventTxHashes receivedEvent = some receivedEvent) ⟨rfl, rfl⟩
    (List.forall_mem_nil _)
  have hreached₁ := hstart.accepted hfirst trivial (List.forall_mem_nil _) hopen.2.1
  obtain ⟨n₂, hreload⟩ := (heads_and_last_events _ _ _ _ _ rfl hreached₁).2.2.2.2.2.1
  have hreached₂ := hreached₁.reload hreload
  obtain ⟨es, -, rfl⟩ := Option.map_eq_some_iff.mp hreload
  have hparents : ∀ p ∈ checkedEvent.parents, p ∈ [receivedEvent.event].map fun e => e.id := by
    decide
  obtain ⟨n₃, hsecond, hopen', -⟩ := (hreached₂.inEpoch rfl).exists_processEvent
    (h := copyBytes 32 [1]) (s := 229) hopen.flush ((hhas _).trans rfl) checkedEvent_encodable rfl
    ⟨rfl, rfl⟩ hparents
  have hreached₃ := hreached₂.accepted hsecond trivial hparents (hopen'.2.1.trans hopen.2.1.symm)
  obtain ⟨-, -, hheads, hload, ⟨lasts, hget, hlasts, hlookup⟩, -⟩ :=
    heads_and_last_events _ _ _ _ _ rfl hreached₃
  have hchild : headsOf [receivedEvent.event, checkedEvent.build (copyBytes 32 [1]) 229] =
      {(checkedEvent.build (copyBytes 32 [1]) 229).id} := by decide
  exact ⟨n₃, _, hreached₃, rfl, hheads.trans (congrArg some hchild),
    hload.trans (congrArg some hchild), lasts, hget, hlasts, hlookup 1⟩

end Zilionixx
