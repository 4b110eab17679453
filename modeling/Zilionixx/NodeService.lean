import Zilionixx.Node
import Mathlib.Logic.Relation

/-!
# The node refines the service

`Service` has the events in one map and the heads and last events as they are; `Node` has tables,
caches and databases. Here every call of `processEvent` on a node is one on the service that it
represents, with the same result, so what holds for every run of the service holds for the node
(`represents_of_steps`). For events that passed the checks this includes that the caches agree with
the table between any two calls.
-/

namespace Zilionixx

variable {X : External} {H : Hashing} {R : Rlp} {V : Type}

/-- The event is the same, up to the cached size. -/
def SamePayload (w : LoadedEvent) (e : EventPayload) : Prop := ∃ size, w.event = { e with size }

namespace Node

variable {env : NodeEnv V} {n n' : Node V} {s s' : Service} {e : LoadedEvent}
  {r : Except ProcessError Unit}

/-- What the node keeps, read from its tables and caches, is what the service has. -/
structure Represents (H : Hashing) (R : Rlp) (n : Node V) (s : Service) :
    Prop extends n.WF H R where
  stopped : n.stopped = s.stopped
  epoch : n.epoch = s.epoch
  epochHash : n.epochHash = s.epochHash
  emitterEpoch : n.emitterEpoch = s.emitterEpoch
  payloads : ∀ id, ∃ o, n.events.fetch H R id = some o ∧ Option.Rel SamePayload o (s.events id)
  storeEpoch : n.epochStore.epoch = n.epoch
  indexes : ∃ lasts, n.epochStore.Holds s.heads lasts ∧ ∀ vid, lasts.lookup vid = s.lastEvents vid
  highestLamport : n.highestLamport.get.map Prod.fst = some s.highestLamport

theorem Represents.hasEvent (h : n.Represents H R s) (id : EventID) :
    n.events.hasEvent id = (s.events id).isSome := by
  obtain ⟨o, ho, hrel⟩ := h.payloads id
  have hsome : (s.events id).isSome = o.isSome := by
    generalize s.events id = p at hrel
    cases hrel <;> rfl
  rw [hsome, EventStore.hasEvent]
  rw [EventStore.fetch] at ho
  split at ho
  · rename_i hnone
    cases ho
    rw [hnone]
    rfl
  · rename_i buf hbuf
    obtain ⟨w, -, rfl⟩ := Option.map_eq_some_iff.mp ho
    rw [hbuf]
    rfl

/-- A refused event changes nothing. -/
theorem Represents.refused (h : n.Represents H R s) (hr : Refused H R env n e n') :
    n'.Represents H R s := by
  obtain ⟨rs, store, -, hreads, rfl⟩ := hr.eq h.toWF
  have hevents := (EventStore.reads_frame hreads).1
  refine { h with events := h.events.reads hreads, payloads := fun id => ?_ }
  rw [EventStore.fetch_congr (congrFun hevents id)]
  exact h.payloads id

end Node

namespace HighestLamport

theorem fst_get_flush (l : HighestLamport) {lamport : UInt32}
    (h : l.get.map Prod.fst = some lamport) : l.flush.get.map Prod.fst = some lamport := by
  unfold flush
  split
  · exact h
  · rename_i cached hcached
    simp only [get, hcached] at h ⊢
    exact h

/-- Once it is read it is in the cache. -/
theorem cache_of_get {l l' : HighestLamport} {lamport : UInt32} (h : l.get = some (lamport, l')) :
    l'.cache = some lamport := by
  rw [get] at h
  split at h
  · rename_i cached hcached
    cases h
    exact hcached
  · obtain ⟨_, -, heq⟩ := Option.map_eq_some_iff.mp h
    cases heq
    rfl

/-- The highest lamport of the connected events, one more included. -/
theorem fst_get_max {l l' : HighestLamport} {highest : UInt32} (h : l.get = some (highest, l'))
    (lamport : UInt32) :
    (if lamport > highest then l'.set lamport else l').get.map Prod.fst =
      some (max highest lamport) := by
  have hmax : max highest lamport = if highest ≤ lamport then lamport else highest := rfl
  rw [hmax]
  by_cases hlt : lamport > highest
  · rw [if_pos hlt, if_pos (UInt32.le_of_lt hlt)]
    rfl
  · have hcached : l'.get.map Prod.fst = some highest := by
      rw [get, cache_of_get h]
      rfl
    rw [if_neg hlt, hcached]
    by_cases hge : highest ≤ lamport
    · rw [if_pos hge, UInt32.le_antisymm hge (UInt32.not_lt.mp hlt)]
    · rw [if_neg hge]

end HighestLamport

namespace Node

variable {env : NodeEnv V} {n n' : Node V} {s s' : Service} {e : LoadedEvent}
  {r : Except ProcessError Unit}

theorem Represents.flush (h : n.Represents H R s) : n.flush.Represents H R s := by
  obtain ⟨lasts, hholds, hlasts⟩ := h.indexes
  exact { h with
    storeEpoch := (EpochStore.flush_epoch _).trans h.storeEpoch
    indexes := ⟨lasts, hholds.flush, hlasts⟩
    highestLamport := HighestLamport.fst_get_flush _ h.highestLamport }

/-- The event is in the table, and read back from it. -/
theorem Represents.saved (h : n.Represents H R s) {e' : LoadedEvent} {store store' : EventStore}
    (hX : X.ChecksLamport) (hR : R.RoundTrip) (he' : EventStore.Saved X H e')
    (hevent : e'.event = e.event) (hset : n.events.setEvent H R e' = some store)
    (hread : store.reads H R env.reads = some store') (index : V) :
    { n with events := store', dagIndexer := .reset index }.Represents H R
      (s.setEvent e.event) := by
  obtain ⟨raw, size, hraw, hload⟩ := EventStore.load_of_saved hX hR he'
  obtain ⟨store₁, hset₁, hcoherent⟩ := h.events.setEvent hraw hload
  obtain rfl : store = store₁ := Option.some.inj (hset.symm.trans hset₁)
  obtain ⟨b, hb, rfl⟩ := EventStore.setEvent_eq_some hset
  obtain rfl : b = raw := Except.ok.inj (hb.symm.trans hraw)
  refine { h with
    events := hcoherent.reads hread
    dagIndexer := rfl
    payloads := fun id => ?_ }
  rw [EventStore.fetch_congr (congrFun (EventStore.reads_frame hread).1 id)]
  by_cases hid : id = e'.event.id
  · subst hid
    have hpayload : (s.setEvent e.event).events e'.event.id = some e.event :=
      hevent ▸ Function.update_self ..
    refine ⟨some (e'.resize size), ?_, hpayload ▸ .some ⟨size, by rw [← hevent]; rfl⟩⟩
    simp only [EventStore.fetch, EventStore.cache, Function.update_self, hload, Option.map_some]
  · have hpayload : (s.setEvent e.event).events id = s.events id :=
      Function.update_of_ne (hevent ▸ hid) ..
    rw [EventStore.fetch_congr (s := n.events) (Function.update_of_ne hid ..), hpayload]
    exact h.payloads id

theorem Represents.connect {x : EventPayload} {new : EpochInfo} (h : n.Represents H R s)
    (hn' : n.connect env x new = some n') : n'.Represents H R ((s.setHeads x).setEpoch x new) := by
  obtain ⟨-, es, hes, hcases⟩ := connect_eq_some hn'
  obtain ⟨lasts, hholds, hlasts⟩ := h.indexes
  obtain ⟨es', hes', hepoch, hholds'⟩ := hholds.connect x
  obtain rfl : es = es' := Option.some.inj (hes.symm.trans hes')
  rw [Service.setEpoch]
  rcases hcases with ⟨hnew, rfl⟩ | ⟨hnew, highest, l, hget, rfl⟩
  · rw [if_pos (show new.epoch ≠ (s.setHeads x).epoch from h.epoch ▸ hnew)]
    exact { h with
      dagIndexer := rfl
      epoch := rfl
      epochHash := rfl
      emitterEpoch := rfl
      storeEpoch := rfl
      indexes := ⟨∅, ⟨rfl, rfl⟩, fun _ => rfl⟩
      highestLamport := rfl }
  · rw [if_neg (show ¬new.epoch ≠ (s.setHeads x).epoch from not_not.mpr (h.epoch ▸ hnew))]
    refine { h with
      storeEpoch := hepoch.trans h.storeEpoch
      indexes := ⟨_, hholds', fun vid => ?_⟩
      highestLamport := ?_ }
    · by_cases hvid : vid = x.creator
      · rw [hvid, EpochStore.processLastEvent, Finmap.lookup_insert]
        exact (Function.update_self x.creator (some x.id) s.lastEvents).symm
      · rw [EpochStore.processLastEvent, Finmap.lookup_insert_of_ne _ hvid, hlasts]
        exact (Function.update_of_ne hvid (some x.id) s.lastEvents).symm
    · obtain rfl : highest = s.highestLamport := by
        have hhighest := h.highestLamport
        rw [hget] at hhighest
        exact Option.some.inj hhighest
      exact HighestLamport.fst_get_max hget x.lamport

theorem Represents.commit (h : n.Represents H R s) (env : NodeEnv V) :
    (n.commit env).1.Represents H R s ∧
      (n.commit env).2 = env.commit.join.elim (.ok ()) fun text => .error (.commit text) := by
  unfold Node.commit
  split
  · rename_i hcommit
    exact ⟨h, by rw [hcommit]; rfl⟩
  · rename_i hcommit
    exact ⟨h.flush, by rw [hcommit]; rfl⟩
  · rename_i text hcommit
    exact ⟨h.flush, by rw [hcommit]; rfl⟩

theorem Represents.saveAndProcessEvent {result : Except ProcessError EpochInfo}
    (h : n.Represents H R s) (hX : X.ChecksLamport) (hR : R.RoundTrip)
    (hsaved : ∀ e', fixEventTxHashes e = some e' → EventStore.Saved X H e')
    (habsent : n.events.events e.event.id = none) (hnone : s.events e.event.id = none)
    (hcall : n.saveAndProcessEvent H R env e = some (n', result)) :
    ∃ s', s.saveAndProcessEvent (env.toProcessEnv n) e.event = (s', result) ∧
      n'.Represents H R s' := by
  obtain ⟨e', store, store', hfix, hset, hread, hresult, rfl⟩ := saveAndProcessEvent_eq_some hcall
  have hevent := event_of_fixEventTxHashes hfix
  unfold Service.saveAndProcessEvent
  rw [← hresult]
  cases result with
  | error err =>
    refine ⟨_, rfl, ?_⟩
    rw [Service.delEvent_setEvent hnone]
    exact h.refused (.undone habsent hevent hset hread)
  | ok new => exact ⟨_, rfl, h.saved hX hR (hsaved e' hfix) hevent hset hread _⟩

/-- A call on the node is one on the service that it represents. -/
theorem Represents.processEvent (h : n.Represents H R s) (hX : X.ChecksLamport) (hR : R.RoundTrip)
    (hsaved : ∀ e', fixEventTxHashes e = some e' → EventStore.Saved X H e')
    (hcall : n.processEvent H R env e = some (n', r)) :
    ∃ s', s.processEvent (env.toProcessEnv n) e.event = some (s', r) ∧ n'.Represents H R s' := by
  have hcheck : (env.toProcessEnv n).epochcheck = env.epochcheck := rfl
  unfold Node.processEvent at hcall
  unfold Service.processEvent
  rw [← h.stopped, ← h.hasEvent, ← h.epochHash, hcheck]
  by_cases hstopped : n.stopped
  · rw [if_pos hstopped] at hcall ⊢
    cases hcall
    exact ⟨s, rfl, h⟩
  rw [if_neg hstopped] at hcall ⊢
  by_cases hhas : n.events.hasEvent e.event.id
  · rw [if_pos hhas] at hcall ⊢
    cases hcall
    exact ⟨s, rfl, h⟩
  rw [if_neg hhas] at hcall ⊢
  have habsent : n.events.events e.event.id = none := Option.not_isSome_iff_eq_none.mp hhas
  have hnone : s.events e.event.id = none := by
    rw [h.hasEvent] at hhas
    exact Option.not_isSome_iff_eq_none.mp hhas
  rcases hepoch : env.epochcheck e.event with (_ | err) | _
  · rw [hepoch] at hcall
    cases hcall
  · rw [hepoch] at hcall
    cases hcall
    exact ⟨s, rfl, h⟩
  simp only [hepoch] at hcall ⊢
  by_cases hhash : e.event.prevEpochHash.any (· ≠ n.epochHash)
  · rw [if_pos hhash] at hcall ⊢
    cases hcall
    refine ⟨_, rfl, ?_⟩
    rw [Service.delEvent_of_none hnone]
    exact h.refused (.deleted habsent : Refused H R env n e _)
  rw [if_neg hhash] at hcall ⊢
  obtain ⟨⟨n₁, result⟩, hsave, hcall⟩ := Option.bind_eq_some_iff.mp hcall
  obtain ⟨s₁, hsave', hrep⟩ := h.saveAndProcessEvent hX hR hsaved habsent hnone hsave
  rw [hsave']
  cases result with
  | error err =>
    cases hcall
    exact ⟨_, rfl, hrep⟩
  | ok new =>
    obtain ⟨n₂, hconnect, hcall⟩ := Option.bind_eq_some_iff.mp hcall
    obtain ⟨hrep', hr⟩ := (hrep.connect hconnect).commit env
    rw [show n₂.commit env = (n', r) from Option.some.inj hcall] at hrep' hr
    exact ⟨_, congrArg (fun r => some (_, r)) hr.symm, hrep'⟩

/-- A call of `processEvent` with a checked event. -/
def Step (X : External) (H : Hashing) (R : Rlp) (n n' : Node V) : Prop :=
  ∃ env e r, (∀ e', fixEventTxHashes e = some e' → EventStore.Saved X H e') ∧
    n.processEvent H R env e = some (n', r)

/-- Every run of calls on the node is one on the service. -/
theorem represents_of_steps {n₀ : Node V} {s₀ : Service} (hX : X.ChecksLamport) (hR : R.RoundTrip)
    (h₀ : n₀.Represents H R s₀) (h : Relation.ReflTransGen (Step X H R) n₀ n) :
    ∃ s, Relation.ReflTransGen (fun s s' => ∃ env e r, Service.processEvent env s e = some (s', r))
      s₀ s ∧ n.Represents H R s := by
  induction h with
  | refl => exact ⟨s₀, .refl, h₀⟩
  | tail _ hstep ih =>
    obtain ⟨s, hruns, hrep⟩ := ih
    obtain ⟨env, e, r, hsaved, hcall⟩ := hstep
    obtain ⟨s', hcall', hrep'⟩ := hrep.processEvent hX hR hsaved hcall
    exact ⟨s', hruns.tail ⟨_, _, _, hcall'⟩, hrep'⟩

end Node

end Zilionixx
