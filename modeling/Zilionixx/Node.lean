import Zilionixx.EpochStore
import Zilionixx.EventStore

/-!
# `processEvent` on the store

`processEvent` of `c_event_callbacks.go` again, on what the service really keeps: the table of
events with its caches, the store of the epoch, the highest lamport, and the vector index with the
part of it that is not flushed. An event is written to the table and to the index before it is fully
validated, and each exit has to undo what was done so far.

While an event is processed the caches change at will: the index and the consensus engine read
events, and entries are dropped. After the event is deleted, all of this looks as if the event had
never been there (`delEvent_reads`), and so a rejected event leaves no trace.
-/

namespace Zilionixx

variable {H : Hashing} {R : Rlp} {V : Type}

namespace EventStore

/-- What happens to the store while an event is processed. -/
inductive Read where
  | getEventPayload (id : EventID)
  | getEvent (id : EventID)
  /-- the cache drops an event -/
  | evictEvent (id : EventID)
  /-- the cache drops a header -/
  | evictHeader (id : EventID)

/-- The entry that is read or dropped. -/
def Read.id : Read → EventID
  | .getEventPayload id | .getEvent id | .evictEvent id | .evictHeader id => id

/-- As an operation of the store. -/
def Read.toOp : Read → Op
  | .getEventPayload id => .getEventPayload id
  | .getEvent id => .getEvent id
  | .evictEvent id => .evictEvent id
  | .evictHeader id => .evictHeader id

/-- Some reads, one after the other. -/
def reads (H : Hashing) (R : Rlp) (s : EventStore) (rs : List Read) : Option EventStore :=
  s.run H R (rs.map Read.toOp)

/-- `HasEvent` -/
def hasEvent (s : EventStore) (id : EventID) : Bool := (s.events id).isSome

end EventStore

/-- `vecmt.Index`, in whatever form `V`: changes are kept in memory until they are flushed. -/
structure DagIndexer (V : Type) where
  flushed : V
  /-- with the changes that are not flushed -/
  current : V

namespace DagIndexer

/-- `DropNotFlushed` -/
def dropNotFlushed (d : DagIndexer V) : DagIndexer V := { d with current := d.flushed }

/-- `Flush` -/
def flush (d : DagIndexer V) : DagIndexer V := { d with flushed := d.current }

/-- `Reset`, to the index of another epoch -/
def reset (index : V) : DagIndexer V := ⟨index, index⟩

end DagIndexer

/-- The highest lamport in the store. -/
structure HighestLamport where
  /-- `table.HighestLamport`, which has one entry -/
  table : Option (List UInt8)
  /-- `cache.HighestLamport` -/
  cache : Option UInt32

namespace HighestLamport

/-- `loadHighestLamport`; `none` is the panic of `BytesToLamport` on too few bytes. -/
def load (l : HighestLamport) : Option UInt32 :=
  match l.table with
  | none => some 0
  | some b => if b.length < 4 then none else some (.ofNat (ByteNumber.ofBE (b.take 4)))

/-- `GetHighestLamport` -/
def get (l : HighestLamport) : Option (UInt32 × HighestLamport) :=
  match l.cache with
  | some cached => some (cached, l)
  | none => l.load.map fun lamport => (lamport, { l with cache := some lamport })

/-- `SetHighestLamport` -/
def set (l : HighestLamport) (lamport : UInt32) : HighestLamport := { l with cache := some lamport }

/-- `FlushHighestLamport` -/
def flush (l : HighestLamport) : HighestLamport :=
  match l.cache with
  | none => l
  | some cached => { l with table := some (ByteNumber.fixedBE 4 cached.toNat) }

end HighestLamport

/-- The service with its store. -/
structure Node (V : Type) where
  stopped : Bool
  /-- `GetEpoch` -/
  epoch : UInt32
  /-- the hash of the epoch state -/
  epochHash : Hash
  events : EventStore
  dagIndexer : DagIndexer V
  epochStore : EpochStore
  highestLamport : HighestLamport
  /-- the epoch that the emitter was told last -/
  emitterEpoch : UInt32

/-- What a call of `processEvent` is told from outside. -/
structure NodeEnv (V : Type) where
  /-- `Epochcheck.Validate` -/
  epochcheck : EventPayload → Checked Unit
  /-- `Add` of the vector index, which may fail half way -/
  add : EventPayload → V → V × Option String
  /-- `MedianTime` of the vector index, from the start of the epoch -/
  medianTime : V → EventID → Timestamp
  /-- `Process` of the consensus engine, and the epoch after it. An error leaves the engine as it
  was. -/
  engine : EventPayload → Except String EpochInfo
  /-- what happens to the events in the store meanwhile -/
  reads : List EventStore.Read
  /-- the vector index of the next epoch -/
  nextIndex : V
  /-- the result of `Flush` of the databases, if `IsCommitNeeded` -/
  commit : Option (Option String)

namespace Node

/-- The part of `Commit` before the databases are flushed. -/
def flush (n : Node V) : Node V :=
  { n with highestLamport := n.highestLamport.flush, epochStore := n.epochStore.flush }

/-- `getEpochStore` -/
def getEpochStore (n : Node V) (epoch : UInt32) : Option EpochStore :=
  if n.epochStore.epoch = epoch then some n.epochStore else none

/-- `resetEpochStore`, and what else begins with an epoch. The database of a new epoch is empty. -/
def newEpoch (env : NodeEnv V) (n : Node V) (new : EpochInfo) : Node V :=
  { n with
    epoch := new.epoch
    epochHash := new.epochHash
    epochStore := .fresh new.epoch
    dagIndexer := .reset env.nextIndex
    emitterEpoch := new.epoch }

/-- `processSavedEvent`; `none` is a panic. -/
def processSavedEvent (H : Hashing) (R : Rlp) (env : NodeEnv V) (n : Node V) (e : EventPayload) :
    Option (Node V × Except ProcessError EpochInfo) := do
  let events ← n.events.reads H R env.reads
  let added := env.add e n.dagIndexer.current
  let n := { n with events := events, dagIndexer := { n.dagIndexer with current := added.1 } }
  match added.2 with
  | some text => pure (n, .error (.index text))
  | none =>
    -- check median time
    if e.medianTime ≠ env.medianTime added.1 e.id then pure (n, .error .wrongMedianTime)
    -- aBFT processing
    else pure (n, (env.engine e).mapError .engine)

/-- `saveAndProcessEvent` -/
def saveAndProcessEvent (H : Hashing) (R : Rlp) (env : NodeEnv V) (n : Node V) (e : LoadedEvent) :
    Option (Node V × Except ProcessError EpochInfo) := do
  let e ← fixEventTxHashes e
  -- indexing event
  let events ← n.events.setEvent H R e
  let (n, result) ← processSavedEvent H R env { n with events := events } e.event
  match result with
  | .error err =>
    pure ({ n with
      events := n.events.delEvent e.event.id
      dagIndexer := n.dagIndexer.dropNotFlushed }, .error err)
  | .ok new =>
    -- save event index after success
    pure ({ n with dagIndexer := n.dagIndexer.flush.dropNotFlushed }, .ok new)

/-- What `processEvent` does with an event that is processed, when the epoch is `new`. -/
def connect (env : NodeEnv V) (n : Node V) (e : EventPayload) (new : EpochInfo) :
    Option (Node V) := do
  -- index DAG heads and last events; those of another epoch are nil
  let epochStore ← n.getEpochStore n.epoch
  let epochStore ← epochStore.connect e
  let n := { n with epochStore := epochStore }
  if new.epoch ≠ n.epoch then
    pure ({ n with highestLamport := n.highestLamport.set 0 }.newEpoch env new)
  else
    let (highest, l) ← n.highestLamport.get
    pure { n with highestLamport := if e.lamport > highest then l.set e.lamport else l }

/-- The end of `processEvent`. -/
def commit (env : NodeEnv V) (n : Node V) : Node V × Except ProcessError Unit :=
  match env.commit with
  | none => (n, .ok ())
  | some none => (n.flush, .ok ())
  | some (some text) => (n.flush, .error (.commit text))

/-- `processEvent`; `none` is a panic. -/
def processEvent (H : Hashing) (R : Rlp) (env : NodeEnv V) (n : Node V) (e : LoadedEvent) :
    Option (Node V × Except ProcessError Unit) :=
  if n.stopped then some (n, .error .stopped)
  -- repeat the checks under the mutex which may depend on volatile data
  else if n.events.hasEvent e.event.id then some (n, .error .alreadyConnected)
  else
    match env.epochcheck e.event with
    | .error .panic => none
    | .error (.error err) => some (n, .error (.check err))
    | .ok () =>
      -- check prev epoch hash
      if e.event.prevEpochHash.any (· ≠ n.epochHash) then
        some ({ n with events := n.events.delEvent e.event.id }, .error .wrongEpochHash)
      else do
        let (n, result) ← saveAndProcessEvent H R env n e
        match result with
        | .error err => pure (n, .error err)
        | .ok new =>
          let n ← n.connect env e.event new
          pure (n.commit env)

end Node

/-! ## Deleting undoes -/

namespace EventStore

variable {s s' : EventStore} {x id : EventID} {rs : List Read} {r : Read}

/-- What a read does: nothing, an entry that is loaded, or one that is dropped. -/
theorem read_cases (h : s.step H R r.toOp = some s') :
    s' = s ∨ (∃ w, s.fetch H R r.id = some (some w) ∧ s' = s.cache r.id w) ∨
      s' = { s with cacheEvents := Function.update s.cacheEvents r.id none } ∨
      s' = { s with cacheHeaders := Function.update s.cacheHeaders r.id none } := by
  cases r with
  | getEventPayload id =>
    simp only [Read.toOp, step, EventStore.getEventPayload] at h
    split at h
    · exact .inl (Option.some.inj h).symm
    · split at h
      · cases h
      · exact .inl (Option.some.inj h).symm
      · rename_i w hw
        exact .inr (.inl ⟨w, hw, (Option.some.inj h).symm⟩)
  | getEvent id =>
    simp only [Read.toOp, step, EventStore.getEvent] at h
    split at h
    · exact .inl (Option.some.inj h).symm
    · split at h
      · cases h
      · exact .inl (Option.some.inj h).symm
      · rename_i w hw
        exact .inr (.inl ⟨w, hw, (Option.some.inj h).symm⟩)
  | evictEvent id => exact .inr (.inr (.inl (Option.some.inj h).symm))
  | evictHeader id => exact .inr (.inr (.inr (Option.some.inj h).symm))

/-- A read changes neither the table nor the caches of another event. -/
theorem read_frame (h : s.step H R r.toOp = some s') :
    s'.events = s.events ∧ ∀ id, r.id ≠ id →
      s'.cacheEvents id = s.cacheEvents id ∧ s'.cacheHeaders id = s.cacheHeaders id := by
  rcases read_cases h with rfl | ⟨w, -, rfl⟩ | rfl | rfl
  · exact ⟨rfl, fun id _ => ⟨rfl, rfl⟩⟩
  · exact ⟨rfl, fun id hid =>
      ⟨Function.update_of_ne (Ne.symm hid) .., Function.update_of_ne (Ne.symm hid) ..⟩⟩
  · exact ⟨rfl, fun id hid => ⟨Function.update_of_ne (Ne.symm hid) .., rfl⟩⟩
  · exact ⟨rfl, fun id hid => ⟨rfl, Function.update_of_ne (Ne.symm hid) ..⟩⟩

theorem cache_delEvent_self (w : LoadedEvent) : (s.cache x w).delEvent x = s.delEvent x := by
  simp only [EventStore.cache, delEvent, Function.update_idem]

theorem cache_delEvent_comm (hid : id ≠ x) (w : LoadedEvent) :
    (s.cache id w).delEvent x = (s.delEvent x).cache id w := by
  simp only [EventStore.cache, delEvent, Function.update_comm hid]

theorem fetch_delEvent (hid : id ≠ x) : (s.delEvent x).fetch H R id = s.fetch H R id :=
  fetch_congr (Function.update_of_ne hid ..)

/-- Reading commutes with deleting another event. -/
theorem read_delEvent_of_ne (hid : r.id ≠ x) :
    (s.delEvent x).step H R r.toOp = (s.step H R r.toOp).map (delEvent · x) := by
  cases r with
  | getEventPayload id =>
    replace hid : id ≠ x := hid
    have hcache : (s.delEvent x).cacheEvents id = s.cacheEvents id := Function.update_of_ne hid ..
    simp only [Read.toOp, step, EventStore.getEventPayload, hcache, fetch_delEvent hid]
    split
    · rfl
    · split
      · rfl
      · rfl
      · exact congrArg some (cache_delEvent_comm hid _).symm
  | getEvent id =>
    replace hid : id ≠ x := hid
    have hcache : (s.delEvent x).cacheHeaders id = s.cacheHeaders id := Function.update_of_ne hid ..
    simp only [Read.toOp, step, EventStore.getEvent, hcache, fetch_delEvent hid]
    split
    · rfl
    · split
      · rfl
      · rfl
      · exact congrArg some (cache_delEvent_comm hid _).symm
  | evictEvent id =>
    have hcomm := Function.update_comm (Ne.symm hid) none none s.cacheEvents
    exact congrArg (fun f => some (EventStore.mk _ f _)) hcomm
  | evictHeader id =>
    have hcomm := Function.update_comm (Ne.symm hid) none none s.cacheHeaders
    exact congrArg (fun f => some (EventStore.mk _ _ f)) hcomm

/-- Reading an event that is then deleted leaves nothing. -/
theorem delEvent_of_read (h : s.step H R r.toOp = some s') :
    s'.delEvent r.id = s.delEvent r.id := by
  rcases read_cases h with rfl | ⟨w, -, rfl⟩ | rfl | rfl
  · rfl
  · exact cache_delEvent_self w
  · simp only [delEvent, Function.update_idem]
  · simp only [delEvent, Function.update_idem]

theorem reads_cons :
    s.reads H R (r :: rs) = (s.step H R r.toOp).bind fun s => s.reads H R rs :=
  rfl

/-- What every read keeps is kept by all of them. -/
theorem reads_induction {P : EventStore → Prop}
    (hP : ∀ {s s' : EventStore} {r : Read}, P s → s.step H R r.toOp = some s' → P s') (hs : P s)
    (h : s.reads H R rs = some s') : P s' := by
  induction rs generalizing s with
  | nil => exact Option.some.inj h ▸ hs
  | cons r rs ih =>
    rw [reads_cons] at h
    obtain ⟨s₁, hstep, hrest⟩ := Option.bind_eq_some_iff.mp h
    exact ih (hP hs hstep) hrest

/-- Whatever is read, without the event it is as if some of it had been read from a store without
the event. -/
theorem delEvent_reads (h : s.reads H R rs = some s') :
    ∃ rs', rs'.Sublist rs ∧ (s.delEvent x).reads H R rs' = some (s'.delEvent x) := by
  induction rs generalizing s with
  | nil => exact ⟨[], .slnil, congrArg (fun s => some (delEvent s x)) (Option.some.inj h)⟩
  | cons r rs ih =>
    rw [reads_cons] at h
    obtain ⟨s₁, hstep, hrest⟩ := Option.bind_eq_some_iff.mp h
    obtain ⟨rs', hsub, hreads⟩ := ih hrest
    by_cases hid : r.id = x
    · subst hid
      exact ⟨rs', hsub.cons r, by rwa [← delEvent_of_read hstep]⟩
    · refine ⟨r :: rs', hsub.cons_cons r, ?_⟩
      rw [reads_cons, read_delEvent_of_ne hid, hstep]
      exact hreads

theorem reads_frame (h : s.reads H R rs = some s') :
    s'.events = s.events ∧ ∀ id, (∀ r ∈ rs, r.id ≠ id) →
      s'.cacheEvents id = s.cacheEvents id ∧ s'.cacheHeaders id = s.cacheHeaders id := by
  induction rs generalizing s with
  | nil =>
    cases h
    exact ⟨rfl, fun id _ => ⟨rfl, rfl⟩⟩
  | cons r rs ih =>
    rw [reads_cons] at h
    obtain ⟨s₁, hstep, hrest⟩ := Option.bind_eq_some_iff.mp h
    obtain ⟨hevents, hcaches⟩ := read_frame hstep
    obtain ⟨hevents', hcaches'⟩ := ih hrest
    refine ⟨hevents'.trans hevents, fun id hid => ?_⟩
    have hfirst := hcaches id (hid r List.mem_cons_self)
    have hlater := hcaches' id fun r' hr' => hid r' (List.mem_cons_of_mem r hr')
    exact ⟨hlater.1.trans hfirst.1, hlater.2.trans hfirst.2⟩

theorem setEvent_eq_some {e : LoadedEvent} (h : s.setEvent H R e = some s') :
    ∃ b, e.event.marshalBinary H = .ok b ∧
      s' = { s with events := Function.update s.events e.event.id (some (R.encode b)) }.cache
        e.event.id e := by
  rw [EventStore.setEvent] at h
  split at h
  · cases h
  · rename_i b hb
    exact ⟨b, hb, (Option.some.inj h).symm⟩

/-- A saved event is there, and no other one is added. -/
theorem hasEvent_setEvent {e : LoadedEvent} (h : s.setEvent H R e = some s') (id : EventID) :
    s'.hasEvent id = (decide (id = e.event.id) || s.hasEvent id) := by
  obtain ⟨b, -, rfl⟩ := setEvent_eq_some h
  by_cases hid : id = e.event.id
  · simp [EventStore.cache, hid, hasEvent]
  · simp [EventStore.cache, hid, hasEvent]

theorem delEvent_setEvent {e : LoadedEvent} (h : s.setEvent H R e = some s') :
    s'.delEvent e.event.id = s.delEvent e.event.id := by
  obtain ⟨b, -, rfl⟩ := setEvent_eq_some h
  simp only [EventStore.cache, delEvent, Function.update_idem]

theorem update_none_of_none {β : Type} {f : EventID → Option β} (h : f x = none) :
    Function.update f x none = f := by
  rw [← h, Function.update_eq_self]

/-- An event that is not in the table is not in the caches. -/
theorem Coherent.delEvent_of_none (hs : Coherent H R s) (hnone : s.events x = none) :
    s.delEvent x = s := by
  have hfetch : s.fetch H R x = some none := by rw [fetch, hnone]
  have hcache : s.cacheEvents x = none := by
    refine Option.eq_none_iff_forall_ne_some.mpr fun e he => ?_
    obtain ⟨n, hn⟩ := hs.events x e he
    rw [hfetch] at hn
    cases hn
  have hheaders : s.cacheHeaders x = none := by
    refine Option.eq_none_iff_forall_ne_some.mpr fun e he => ?_
    obtain ⟨w, hw, -⟩ := hs.headers x e he
    rw [hfetch] at hw
    cases hw
  simp only [EventStore.delEvent, update_none_of_none hnone, update_none_of_none hcache,
    update_none_of_none hheaders]

theorem Coherent.read (hs : Coherent H R s) (h : s.step H R r.toOp = some s') :
    Coherent H R s' := by
  cases r with
  | getEventPayload id =>
    obtain ⟨o, s₁, -, hget, hs₁, -⟩ := hs.getEventPayload id
    simp only [Read.toOp, EventStore.step, hget, Option.map_some, Option.some.injEq] at h
    exact h ▸ hs₁
  | getEvent id =>
    obtain ⟨o, s₁, hget, hs₁⟩ := hs.getEvent id
    simp only [Read.toOp, EventStore.step, hget, Option.map_some, Option.some.injEq] at h
    exact h ▸ hs₁
  | evictEvent id => exact Option.some.inj h ▸ hs.evictEvent id
  | evictHeader id => exact Option.some.inj h ▸ hs.evictHeader id

theorem Coherent.reads (hs : Coherent H R s) (h : s.reads H R rs = some s') :
    Coherent H R s' :=
  reads_induction (fun hs hstep => Coherent.read hs hstep) hs h

/-! ## Lookups -/

/-- `GetEvent` returns the header of what is in the table. -/
theorem Coherent.fst_getEvent (hs : Coherent H R s) (id : EventID) :
    (s.getEvent H R id).map Prod.fst =
      (s.fetch H R id).map (Option.map fun w => w.event.event) := by
  obtain ⟨o, ho⟩ := hs.fetched id
  rw [EventStore.getEvent]
  split
  · rename_i ev hev
    obtain ⟨w, hw, rfl⟩ := hs.headers id ev hev
    rw [hw]
    rfl
  · rw [ho]
    cases o <;> rfl

/-- `GetEventPayload` looks at nothing but its own entry. -/
theorem fst_getEventPayload_congr (hevents : s'.events id = s.events id)
    (hcache : s'.cacheEvents id = s.cacheEvents id) :
    (s'.getEventPayload H R id).map Prod.fst = (s.getEventPayload H R id).map Prod.fst := by
  rw [EventStore.getEventPayload, EventStore.getEventPayload, hcache, fetch_congr hevents]
  split
  · rfl
  · split <;> rfl

/-- The cache has the event as it is in the table, its size included. -/
def Exact (H : Hashing) (R : Rlp) (s : EventStore) (id : EventID) : Prop :=
  ∀ w, s.cacheEvents id = some w → s.fetch H R id = some (some w)

theorem Exact.read (hs : s.Exact H R id) (h : s.step H R r.toOp = some s') :
    s'.Exact H R id := by
  intro w hw
  rw [fetch_congr (congrFun (read_frame h).1 id)]
  by_cases hid : r.id = id
  · subst hid
    rcases read_cases h with rfl | ⟨w', hfetch, rfl⟩ | rfl | rfl
    · exact hs w hw
    · simp only [EventStore.cache, Function.update_self] at hw
      exact hw ▸ hfetch
    · exact absurd rfl (update_none_eq_some hw).1
    · exact hs w hw
  · rw [((read_frame h).2 id hid).1] at hw
    exact hs w hw

theorem Exact.reads (hs : s.Exact H R id) (h : s.reads H R rs = some s') :
    s'.Exact H R id :=
  reads_induction (P := (Exact H R · id)) (fun hs hstep => Exact.read hs hstep) hs h

theorem Exact.fst_getEventPayload (hs : s.Exact H R id) :
    (s.getEventPayload H R id).map Prod.fst = s.fetch H R id := by
  rw [EventStore.getEventPayload]
  split
  · rename_i w hw
    rw [hs w hw]
    rfl
  · rcases s.fetch H R id with _ | _ | w <;> rfl

theorem SameEvent.of_common {e₁ e₂ w : LoadedEvent} (h₁ : SameEvent e₁ w) (h₂ : SameEvent e₂ w) :
    SameEvent e₁ e₂ := by
  obtain ⟨n₁, rfl⟩ := h₁
  obtain ⟨n₂, h₂⟩ := h₂
  refine ⟨e₂.event.size, ?_⟩
  calc e₂ = (e₂.resize n₂).resize e₂.event.size := rfl
    _ = e₁.resize e₂.event.size := by rw [← h₂]; rfl

/-- Two coherent stores with one table give the same events, up to the cached size. -/
theorem Coherent.getEventPayload_rel (hs : Coherent H R s) (hs' : Coherent H R s')
    (hevents : s'.events = s.events) (id : EventID) :
    Option.Rel (Option.Rel SameEvent) ((s.getEventPayload H R id).map Prod.fst)
      ((s'.getEventPayload H R id).map Prod.fst) := by
  obtain ⟨r, s₁, o, hget, -, hfetch, hsame⟩ := hs.getEventPayload id
  obtain ⟨r', s₁', o', hget', -, hfetch', hsame'⟩ := hs'.getEventPayload id
  obtain rfl : o = o' := by
    rw [fetch_congr (congrFun hevents id), hfetch] at hfetch'
    exact Option.some.inj hfetch'
  rw [hget, hget']
  refine .some ?_
  cases hsame with
  | none =>
    cases hsame'
    exact .none
  | some h =>
    cases hsame' with
    | some h' => exact .some (h.of_common h')

end EventStore

/-! ## What a call does -/

/-- The call as `Service.processEvent` sees it. -/
def NodeEnv.toProcessEnv (env : NodeEnv V) (n : Node V) : ProcessEnv where
  epochcheck := env.epochcheck
  index e :=
    let added := env.add e n.dagIndexer.current
    added.2.elim (.ok (env.medianTime added.1 e.id)) .error
  engine := env.engine
  commit := env.commit.join

namespace Node

variable {env : NodeEnv V} {n n' : Node V} {e : LoadedEvent} {r : Except ProcessError Unit}

theorem processSavedEvent_eq (env : NodeEnv V) (n : Node V) (e : EventPayload) :
    processSavedEvent H R env n e = (n.events.reads H R env.reads).map fun events =>
      ({ n with
        events := events
        dagIndexer := { n.dagIndexer with current := (env.add e n.dagIndexer.current).1 } },
      (env.toProcessEnv n).processSavedEvent e) := by
  rw [processSavedEvent, ProcessEnv.processSavedEvent]
  cases n.events.reads H R env.reads with
  | none => rfl
  | some events =>
    cases hadd : (env.add e n.dagIndexer.current).2 with
    | some text =>
      have hindex : (env.toProcessEnv n).index e = .error text := by
        simp only [NodeEnv.toProcessEnv, hadd, Option.elim_some]
      rw [hindex]
      simp only [Option.bind_eq_bind, Option.bind_some, hadd]
      rfl
    | none =>
      have hindex : (env.toProcessEnv n).index e =
          .ok (env.medianTime (env.add e n.dagIndexer.current).1 e.id) := by
        simp only [NodeEnv.toProcessEnv, hadd, Option.elim_none]
      rw [hindex]
      simp only [Option.bind_eq_bind, Option.bind_some, hadd]
      split
      · rename_i htime
        exact congrArg some (Prod.ext rfl (if_pos htime).symm)
      · rename_i htime
        exact congrArg some (Prod.ext rfl (if_neg htime).symm)

/-- What `saveAndProcessEvent` leaves, when the store of events has come to `s`. If the rest fails
the event is deleted and the index is as it was flushed. -/
def settle (env : NodeEnv V) (n : Node V) (e : EventPayload) (s : EventStore) :
    Except ProcessError EpochInfo → Node V
  | .error _ => { n with events := s.delEvent e.id, dagIndexer := n.dagIndexer.dropNotFlushed }
  | .ok _ => { n with events := s, dagIndexer := .reset (env.add e n.dagIndexer.current).1 }

theorem saveAndProcessEvent_eq (env : NodeEnv V) (n : Node V) {e' : LoadedEvent} {s s' : EventStore}
    (hfix : fixEventTxHashes e = some e') (hset : n.events.setEvent H R e' = some s)
    (hread : s.reads H R env.reads = some s') :
    saveAndProcessEvent H R env n e =
      some (n.settle env e.event s' ((env.toProcessEnv n).processSavedEvent e.event),
        (env.toProcessEnv n).processSavedEvent e.event) := by
  have henv : env.toProcessEnv { n with events := s } = env.toProcessEnv n := rfl
  simp only [saveAndProcessEvent, hfix, Option.bind_eq_bind, Option.bind_some, hset,
    processSavedEvent_eq, hread, Option.map_some, event_of_fixEventTxHashes hfix, henv]
  cases (env.toProcessEnv n).processSavedEvent e.event <;> rfl

theorem saveAndProcessEvent_eq_some {result : Except ProcessError EpochInfo}
    (h : saveAndProcessEvent H R env n e = some (n', result)) :
    ∃ e' s s', fixEventTxHashes e = some e' ∧ n.events.setEvent H R e' = some s ∧
      s.reads H R env.reads = some s' ∧ result = (env.toProcessEnv n).processSavedEvent e.event ∧
      n' = n.settle env e.event s' result := by
  obtain ⟨e', hfix, hrest⟩ := Option.bind_eq_some_iff.mp h
  obtain ⟨s, hset, hrest⟩ := Option.bind_eq_some_iff.mp hrest
  obtain ⟨p, hsaved, -⟩ := Option.bind_eq_some_iff.mp hrest
  rw [processSavedEvent_eq] at hsaved
  obtain ⟨s', hread, -⟩ := Option.map_eq_some_iff.mp hsaved
  rw [saveAndProcessEvent_eq env n hfix hset hread] at h
  cases h
  exact ⟨e', s, s', hfix, hset, hread, rfl, rfl⟩

/-- What a call leaves that refuses the event: nothing was done, or an event that is not there was
deleted, or one that was saved. -/
inductive Refused (H : Hashing) (R : Rlp) (env : NodeEnv V) (n : Node V) (e : LoadedEvent) :
    Node V → Prop
  | untouched : Refused H R env n e n
  | deleted (absent : n.events.events e.event.id = none) :
    Refused H R env n e { n with events := n.events.delEvent e.event.id }
  | undone {e' : LoadedEvent} {s s' : EventStore} (absent : n.events.events e.event.id = none)
    (event : e'.event = e.event) (saved : n.events.setEvent H R e' = some s)
    (read : s.reads H R env.reads = some s') :
    Refused H R env n e
      { n with events := s'.delEvent e.event.id, dagIndexer := n.dagIndexer.dropNotFlushed }

/-- What a call leaves that connects the event, without the flush at its end. -/
inductive Connected (H : Hashing) (R : Rlp) (env : NodeEnv V) (n : Node V) (e : LoadedEvent) :
    Node V → Prop
  | intro {e' : LoadedEvent} {s s' : EventStore} {new : EpochInfo} {n' : Node V}
    (absent : n.events.events e.event.id = none) (fixed : fixEventTxHashes e = some e')
    (saved : n.events.setEvent H R e' = some s) (read : s.reads H R env.reads = some s')
    (connected : connect env
      { n with events := s', dagIndexer := .reset (env.add e.event n.dagIndexer.current).1 }
      e.event new = some n') :
    Connected H R env n e n'

theorem processSavedEvent_ne_commit {p : ProcessEnv} {x : EventPayload} {err : ProcessError}
    (h : p.processSavedEvent x = .error err) (text : String) : err ≠ .commit text := by
  rintro rfl
  rw [ProcessEnv.processSavedEvent] at h
  cases hindex : p.index x with
  | error text' =>
    rw [hindex] at h
    cases h
  | ok time =>
    rw [hindex] at h
    by_cases htime : x.medianTime ≠ time
    · exact absurd ((if_pos htime).symm.trans h) (by simp)
    · have hengine := (if_neg htime).symm.trans h
      cases hresult : p.engine x <;> rw [hresult] at hengine <;> cases hengine

theorem commit_cases (env : NodeEnv V) (n : Node V) :
    ((n.commit env).1 = n ∨ (n.commit env).1 = n.flush) ∧
      ∀ err, (n.commit env).2 = .error err → ∃ text, err = .commit text := by
  unfold commit
  split
  · exact ⟨.inl rfl, fun err h => by cases h⟩
  · exact ⟨.inr rfl, fun err h => by cases h⟩
  · rename_i text _
    exact ⟨.inr rfl, fun err h => ⟨text, by cases h; rfl⟩⟩

/-- An event is refused, or it is connected and there is no error but that of `Commit`. -/
theorem processEvent_cases (h : n.processEvent H R env e = some (n', r)) :
    (∃ err, r = .error err ∧ (∀ text, err ≠ .commit text) ∧ Refused H R env n e n') ∨
      (∀ err, r = .error err → ∃ text, err = .commit text) ∧
        ∃ n₁, Connected H R env n e n₁ ∧ (n' = n₁ ∨ n' = n₁.flush) := by
  unfold processEvent at h
  split at h
  · cases h
    exact .inl ⟨_, rfl, by simp, .untouched⟩
  · split at h
    · cases h
      exact .inl ⟨_, rfl, by simp, .untouched⟩
    · rename_i habsent
      have hnone : n.events.events e.event.id = none := Option.not_isSome_iff_eq_none.mp habsent
      split at h
      · cases h
      · cases h
        exact .inl ⟨_, rfl, by simp, .untouched⟩
      · split at h
        · cases h
          exact .inl ⟨_, rfl, by simp, .deleted hnone⟩
        · obtain ⟨⟨n₁, result⟩, hsave, h⟩ := Option.bind_eq_some_iff.mp h
          obtain ⟨e', s, s', hfix, hset, hread, hresult, rfl⟩ := saveAndProcessEvent_eq_some hsave
          cases result with
          | error err =>
            cases h
            exact .inl ⟨err, rfl, processSavedEvent_ne_commit hresult.symm,
              .undone hnone (event_of_fixEventTxHashes hfix) hset hread⟩
          | ok new =>
            obtain ⟨n₂, hconnect, h⟩ := Option.bind_eq_some_iff.mp h
            obtain ⟨hn', hr⟩ := commit_cases env n₂
            rw [show n₂.commit env = (n', r) from Option.some.inj h] at hn' hr
            exact .inr ⟨hr, n₂, .intro hnone hfix hset hread hconnect, hn'⟩

theorem Refused.frame (h : Refused H R env n e n') :
    n'.epoch = n.epoch ∧ n'.epochStore = n.epochStore ∧ n'.events.events = n.events.events := by
  cases h with
  | untouched => exact ⟨rfl, rfl, rfl⟩
  | deleted absent => exact ⟨rfl, rfl, EventStore.update_none_of_none absent⟩
  | @undone e' s s' absent event saved read =>
    refine ⟨rfl, rfl, ?_⟩
    have hdel := congrArg EventStore.events (EventStore.delEvent_setEvent saved)
    simp only [EventStore.delEvent, event] at hdel
    simp only [EventStore.delEvent, (EventStore.reads_frame read).1, hdel,
      EventStore.update_none_of_none absent]

theorem connect_eq_some {x : EventPayload} {new : EpochInfo} (h : n.connect env x new = some n') :
    n.epochStore.epoch = n.epoch ∧ ∃ es, n.epochStore.connect x = some es ∧
      (new.epoch ≠ n.epoch ∧ n' = { n with
          epochStore := es, highestLamport := n.highestLamport.set 0 }.newEpoch env new ∨
        new.epoch = n.epoch ∧ ∃ highest l, n.highestLamport.get = some (highest, l) ∧
          n' = { n with
            epochStore := es
            highestLamport := if x.lamport > highest then l.set x.lamport else l }) := by
  obtain ⟨es₀, hes₀, h⟩ := Option.bind_eq_some_iff.mp h
  obtain ⟨hepoch, ⟨⟩⟩ := Option.ite_none_right_eq_some.mp hes₀
  obtain ⟨es, hes, h⟩ := Option.bind_eq_some_iff.mp h
  refine ⟨hepoch, es, hes, ?_⟩
  by_cases hnew : new.epoch = n.epoch
  · rw [if_neg (not_not.mpr hnew)] at h
    obtain ⟨⟨highest, l⟩, hget, h⟩ := Option.bind_eq_some_iff.mp h
    exact .inr ⟨hnew, highest, l, hget, (Option.some.inj h).symm⟩
  · rw [if_pos hnew] at h
    exact .inl ⟨hnew, (Option.some.inj h).symm⟩

/-- The event is in the table, and the store of its epoch has connected it; if that epoch is over,
there is a fresh store. -/
theorem Connected.frame (h : Connected H R env n e n') :
    n.events.hasEvent e.event.id = false ∧
      (∀ id, n'.events.hasEvent id = (decide (id = e.event.id) || n.events.hasEvent id)) ∧
      n.epochStore.epoch = n.epoch ∧ ∃ es, n.epochStore.connect e.event = some es ∧
        (n'.epoch = n.epoch ∧ n'.epochStore = es ∨
          n'.epoch ≠ n.epoch ∧ n'.epochStore = .fresh n'.epoch) := by
  obtain ⟨absent, fixed, saved, read, connected⟩ := h
  rename_i e' s s' new
  have hhas : ∀ id, s'.hasEvent id = (decide (id = e.event.id) || n.events.hasEvent id) := by
    intro id
    rw [← event_of_fixEventTxHashes fixed, ← EventStore.hasEvent_setEvent saved,
      EventStore.hasEvent, (EventStore.reads_frame read).1, EventStore.hasEvent]
  obtain ⟨hepoch, es, hes, hn'⟩ := connect_eq_some connected
  refine ⟨by rw [EventStore.hasEvent, absent]; rfl, ?_⟩
  rcases hn' with ⟨hnew, rfl⟩ | ⟨hnew, highest, l, -, rfl⟩
  · exact ⟨hhas, hepoch, es, hes, .inr ⟨hnew, rfl⟩⟩
  · exact ⟨hhas, hepoch, es, hes, .inl ⟨rfl, rfl⟩⟩

/-! ## Rejected events -/

/-- Between two calls the caches agree with the table, and all of the index is flushed. -/
structure WF (H : Hashing) (R : Rlp) (n : Node V) : Prop where
  events : EventStore.Coherent H R n.events
  dagIndexer : n.dagIndexer.current = n.dagIndexer.flushed

/-- All that is left of a rejected event are some reads. -/
theorem Refused.eq (h : Refused H R env n e n') (hn : n.WF H R) :
    ∃ rs s, rs.Sublist env.reads ∧ n.events.reads H R rs = some s ∧
      n' = { n with events := s } := by
  cases h with
  | untouched => exact ⟨[], n.events, List.nil_sublist _, rfl, rfl⟩
  | deleted absent =>
    exact ⟨[], n.events, List.nil_sublist _, rfl, by rw [hn.events.delEvent_of_none absent]⟩
  | @undone e' s s' absent event saved read =>
    obtain ⟨rs, hsub, hreads⟩ := EventStore.delEvent_reads (x := e.event.id) read
    have hset : s.delEvent e.event.id = n.events := by
      rw [← event, EventStore.delEvent_setEvent saved, event, hn.events.delEvent_of_none absent]
    have hindex : n.dagIndexer.dropNotFlushed = n.dagIndexer :=
      congrArg (DagIndexer.mk _) hn.dagIndexer.symm
    rw [hset] at hreads
    exact ⟨rs, _, hsub, hreads, by rw [hindex]⟩

end Node

/-- **Rejected events leave no trace.** When `processEvent` returns an error other than one of
`Commit`, the lookups, the vector index, the heads and last events and the highest lamport are as
before. If the caches are left alone meanwhile, nothing at all has changed. If an event has to be
loaded again, `GetEventPayload` returns it with the size of what is stored, which is another one
only for an event that came in a longer form than it is written in. -/
theorem rejected_leaves_no_trace (H : Hashing) (R : Rlp) (env : NodeEnv V) (n n' : Node V)
    (e : LoadedEvent) (err : ProcessError) (hn : n.WF H R) (herr : ∀ text, err ≠ .commit text)
    (h : n.processEvent H R env e = some (n', .error err)) :
    (∀ id, n'.events.hasEvent id = n.events.hasEvent id ∧
      (n'.events.getEvent H R id).map Prod.fst = (n.events.getEvent H R id).map Prod.fst ∧
      Option.Rel (Option.Rel EventStore.SameEvent) ((n.events.getEventPayload H R id).map Prod.fst)
        ((n'.events.getEventPayload H R id).map Prod.fst) ∧
      ((∀ r ∈ env.reads, r.id ≠ id) ∨ n.events.Exact H R id →
        (n'.events.getEventPayload H R id).map Prod.fst =
          (n.events.getEventPayload H R id).map Prod.fst)) ∧
    n'.dagIndexer = n.dagIndexer ∧ n'.epochStore = n.epochStore ∧
    n'.highestLamport = n.highestLamport ∧ (env.reads = [] → n' = n) := by
  rcases Node.processEvent_cases h with ⟨_, hr, -, hrefused⟩ | ⟨hr, -⟩
  · obtain ⟨rs, s, hsub, hreads, rfl⟩ := hrefused.eq hn
    obtain ⟨hevents, hcaches⟩ := EventStore.reads_frame hreads
    have hs := hn.events.reads hreads
    refine ⟨fun id => ⟨?_, ?_, ?_, ?_⟩, rfl, rfl, rfl, ?_⟩
    · rw [EventStore.hasEvent, EventStore.hasEvent, hevents]
    · rw [hs.fst_getEvent, hn.events.fst_getEvent, EventStore.fetch_congr (congrFun hevents id)]
    · exact hn.events.getEventPayload_rel hs hevents id
    · rintro (hid | hexact)
      · have hcache := (hcaches id fun r hr => hid r (hsub.subset hr)).1
        exact EventStore.fst_getEventPayload_congr (congrFun hevents id) hcache
      · rw [(hexact.reads hreads).fst_getEventPayload, hexact.fst_getEventPayload,
          EventStore.fetch_congr (congrFun hevents id)]
    · intro hnil
      rw [hnil, List.sublist_nil] at hsub
      subst hsub
      cases hreads
      rfl
  · obtain ⟨text, rfl⟩ := hr err rfl
    exact absurd rfl (herr text)

/-- A node at the start of an epoch; its index is a number. -/
def firstNode : Node ℕ where
  stopped := false
  epoch := 1
  epochHash := copyBytes 32 []
  events := .empty
  dagIndexer := .reset 0
  epochStore := .fresh 1
  highestLamport := ⟨none, none⟩
  emitterEpoch := 1

/-- The index fails half way, and the caches drop the event meanwhile. -/
def strayEnv (id : EventID) : NodeEnv ℕ where
  epochcheck _ := .ok ()
  add _ index := (index + 1, some "parent not found")
  medianTime _ _ := 0
  engine _ := .error "frame mismatch"
  reads := [.getEvent id, .evictEvent id]
  nextIndex := 0
  commit := none

/-- An event that can be encoded is saved. -/
theorem exists_setEvent {e : MutableEventPayload} (hok : e.Encodable sampleHashing)
    (hw : e.Writable sampleHashing) (s : EventStore) (h : Hash) (size : ℕ) :
    ∃ s', s.setEvent sampleHashing sampleRlp (.fresh (e.build h size)) = some s' := by
  obtain ⟨raw, hraw⟩ := MutableEventPayload.marshalBinary_ok hok hw
  have hmarshal : (e.build h size).marshalBinary sampleHashing = .ok raw := hraw
  exact ⟨_, by rw [EventStore.setEvent, LoadedEvent.fresh, hmarshal]⟩

theorem startEvent_encodable :
    startEvent.Encodable sampleHashing ∧ startEvent.Writable sampleHashing := by
  have hparents : ∀ p ∈ startEvent.parents, p.epoch = startEvent.epoch ∧
      p.lamport ≤ startEvent.lamport := by decide
  have hhash : startEvent.txHash = sampleHashing.emptyTxHash ↔ startEvent.txs = [] := by decide
  have htxs : ∀ tx ∈ startEvent.txs, tx.Valid := List.forall_mem_nil _
  exact ⟨MutableEventPayload.Fits.encodable hparents hhash htxs
    ⟨by decide, by decide, by decide, List.forall_mem_nil _⟩,
    MutableEventPayload.writable_of_valid hparents hhash htxs⟩

theorem checkedEvent_encodable :
    checkedEvent.Encodable sampleHashing ∧ checkedEvent.Writable sampleHashing :=
  ⟨MutableEventPayload.encodable_of_unmarshalBinary unmarshalBinary_checkedRaw,
    writable_of_validate sampleExternal_checksLamport (parentsOf_checkedEvent (copyBytes 32 []) 0)
      (validate_checkedEvent _ _)⟩

/-- The first sample event as it is received. -/
def receivedEvent : LoadedEvent := .fresh (startEvent.build (copyBytes 32 []) 82)

/-- An event is refused by a node that has another one, which stays. -/
theorem rejected_leaves_no_trace_receivedEvent :
    ∃ (n n' : Node ℕ) (id : EventID),
      n.processEvent sampleHashing sampleRlp (strayEnv receivedEvent.event.id) receivedEvent =
        some (n', .error (.index "parent not found")) ∧
      n.events.hasEvent id = true ∧ n'.events.hasEvent id = true ∧
      n'.events.hasEvent receivedEvent.event.id = false ∧ n'.dagIndexer = .reset 0 ∧
      n'.epochStore = .fresh 1 := by
  obtain ⟨h, -, hsaved⟩ := exists_saved_checkedEvent
  have hop : ∀ e, EventStore.Op.setEvent (.fresh (checkedEvent.build h checkedRaw.data.length)) =
      .setEvent e → EventStore.Saved sampleExternal sampleHashing e := by
    rintro e ⟨⟩
    exact hsaved
  obtain ⟨s, hstored, hs⟩ :=
    EventStore.coherent_empty.step sampleExternal_checksLamport sampleRlp_roundTrip hop
  have hhas := EventStore.hasEvent_setEvent hstored
  have hnone : s.hasEvent receivedEvent.event.id = false := (hhas _).trans rfl
  obtain ⟨s', hset⟩ := exists_setEvent startEvent_encodable.1 startEvent_encodable.2 s
    (copyBytes 32 []) 82
  have hread : ∃ s'', s'.reads sampleHashing sampleRlp (strayEnv receivedEvent.event.id).reads =
      some s'' := by
    obtain ⟨raw, -, rfl⟩ := EventStore.setEvent_eq_some hset
    simp [strayEnv, EventStore.reads, EventStore.run, EventStore.step, EventStore.Read.toOp,
      EventStore.getEvent, EventStore.cache, receivedEvent]
  obtain ⟨s'', hread⟩ := hread
  have hprocess : ∃ n', ({ firstNode with events := s } : Node ℕ).processEvent sampleHashing
      sampleRlp (strayEnv receivedEvent.event.id) receivedEvent =
        some (n', .error (.index "parent not found")) := by
    have hsave := Node.saveAndProcessEvent_eq (strayEnv receivedEvent.event.id)
      { firstNode with events := s } (rfl : fixEventTxHashes receivedEvent = some receivedEvent)
      hset hread
    simp only [Node.processEvent, hnone, hsave]
    exact ⟨_, rfl⟩
  obtain ⟨n', hprocess⟩ := hprocess
  have htrace := rejected_leaves_no_trace sampleHashing sampleRlp _ _ n' _ _ ⟨hs, rfl⟩ (by simp)
    hprocess
  have hid : s.hasEvent (checkedEvent.build h checkedRaw.data.length).id = true := by
    rw [hhas, Bool.or_eq_true]
    exact .inl (decide_eq_true rfl)
  exact ⟨_, n', _, hprocess, hid, (htrace.1 _).1.trans hid, (htrace.1 _).1.trans hnone, htrace.2.1,
    htrace.2.2.1⟩

end Zilionixx
