import Mathlib.Data.Finset.Card
import Zilionixx.EmitterIntervals
import Zilionixx.EventCodec
import Zilionixx.Lru

/-!
# The counters of pending transactions

The emitter counts the gas and the transactions of the events that are connected and not
yet confirmed (`hooks.go`). The gas is a number that stops at zero; the transactions are
counted for each sender, in a cache that forgets senders when it is full and drops those
whose count comes to zero (`originatedtxs`).

Nothing is lost by that. A buffer with room for all pending senders is their multiset
(`Buffer.Counts`), and an event takes away what it has added before.
-/

namespace Zilionixx

/-! ## `originatedtxs.Buffer` -/

/-- `originatedtxs.Buffer` -/
structure Buffer where
  /-- sender address -> number of transactions -/
  senderCount : Lru Address ℤ

namespace Buffer

/-- `Inc` -/
def inc (ring : Buffer) (sender : Address) : Buffer :=
  match ring.senderCount.peek sender with
  | some cur => ⟨ring.senderCount.add sender (cur + 1)⟩
  | none => ⟨ring.senderCount.add sender 1⟩

/-- `Dec` -/
def dec (ring : Buffer) (sender : Address) : Buffer :=
  match ring.senderCount.peek sender with
  | none => ring
  | some cur =>
    if cur ≤ 1 then ⟨ring.senderCount.remove sender⟩
    else ⟨ring.senderCount.add sender (cur - 1)⟩

/-- `Clear` -/
def clear (ring : Buffer) : Buffer := ⟨ring.senderCount.purge⟩

/-- `TotalOf`, and the buffer after it, in which the sender has been used. -/
def totalOf (ring : Buffer) (sender : Address) : ℤ × Buffer :=
  ((ring.senderCount.get sender).1.getD 0, ⟨(ring.senderCount.get sender).2⟩)

/-- `Empty` -/
def empty (ring : Buffer) : Bool := ring.senderCount.len = 0

/-- The buffer holds the number of transactions of each sender. -/
def Counts (ring : Buffer) (senders : Multiset Address) : Prop :=
  ∀ a, ring.senderCount.peek a = if a ∈ senders then some (senders.count a : ℤ) else none

namespace Counts

variable {ring : Buffer} {senders : Multiset Address} {a : Address}

theorem clear (ring : Buffer) : Counts ring.clear 0 := fun _ => rfl

theorem mem_iff (h : Counts ring senders) : a ∈ ring.senderCount.entries ↔ a ∈ senders := by
  have ha := h a
  rw [Lru.peek] at ha
  rw [← AList.lookup_isSome, ha]
  split <;> simp_all

theorem len_eq (h : Counts ring senders) : ring.senderCount.len = senders.toFinset.card := by
  have hkeys : ring.senderCount.entries.keys.toFinset = senders.toFinset := by
    ext a
    rw [List.mem_toFinset, Multiset.mem_toFinset, ← AList.mem_keys, h.mem_iff]
  rw [← hkeys, List.toFinset_card_of_nodup ring.senderCount.entries.keys_nodup, Lru.length_keys]
  rfl

/-- A buffer with an entry put in front, and the senders that are changed by it. -/
theorem insert {l : Lru Address ℤ} {senders' : Multiset Address} (h : Counts ring senders)
    (hne : ∀ b ≠ a, senders'.count b = senders.count b) (ha : a ∈ senders')
    (hl : l.entries = ring.senderCount.entries.insert a (senders'.count a : ℤ)) :
    Counts ⟨l⟩ senders' := by
  intro b
  by_cases hb : b = a
  · subst hb
    rw [if_pos ha, Lru.peek, hl, AList.lookup_insert]
  · have hmem : b ∈ senders' ↔ b ∈ senders := by
      rw [← Multiset.count_pos, ← Multiset.count_pos, hne b hb]
    rw [Lru.peek, hl, AList.lookup_insert_ne hb, hne b hb]
    simp only [hmem]
    exact h b

/-- `Inc` counts one more transaction, if there is room for the sender. -/
theorem inc (h : Counts ring senders)
    (hfits : (a ::ₘ senders).toFinset.card ≤ ring.senderCount.size) :
    Counts (ring.inc a) (a ::ₘ senders) := by
  have hpeek := h a
  have hne : ∀ b ≠ a, (a ::ₘ senders).count b = senders.count b :=
    fun b hb => Multiset.count_cons_of_ne hb _
  unfold Buffer.inc
  by_cases hmem : a ∈ senders
  · rw [if_pos hmem] at hpeek
    rw [hpeek]
    refine h.insert hne (Multiset.mem_cons_self a _) ?_
    rw [Lru.entries_add (.inl (h.mem_iff.mpr hmem)), Multiset.count_cons_self]
    push_cast
    rfl
  · rw [if_neg hmem] at hpeek
    rw [hpeek]
    refine h.insert hne (Multiset.mem_cons_self a _) ?_
    have hroom : ring.senderCount.len < ring.senderCount.size := by
      rw [Multiset.toFinset_cons, Finset.card_insert_of_notMem (by simpa using hmem)] at hfits
      rw [h.len_eq]
      exact hfits
    rw [Lru.entries_add (.inr hroom), Multiset.count_cons_self, Multiset.count_eq_zero.mpr hmem]
    rfl

/-- `Dec` takes away a transaction that has been counted. -/
theorem dec (h : Counts ring (a ::ₘ senders)) : Counts (ring.dec a) senders := by
  have hpeek := h a
  have hne : ∀ b ≠ a, senders.count b = (a ::ₘ senders).count b :=
    fun b hb => (Multiset.count_cons_of_ne hb _).symm
  rw [if_pos (Multiset.mem_cons_self a _), Multiset.count_cons_self] at hpeek
  unfold Buffer.dec
  rw [hpeek]
  by_cases hmem : a ∈ senders
  · have hpos := Multiset.count_pos.mpr hmem
    simp only
    rw [if_neg (by omega)]
    refine h.insert hne hmem ?_
    rw [Lru.entries_add (.inl (h.mem_iff.mpr (Multiset.mem_cons_self a _)))]
    congr 1
    omega
  · -- the last one: the sender is dropped
    have hzero := Multiset.count_eq_zero.mpr hmem
    simp only
    rw [if_pos (by omega)]
    intro b
    by_cases hb : b = a
    · subst hb
      rw [if_neg hmem]
      exact AList.lookup_erase _ _
    · have hb' := h b
      rw [← hne b hb] at hb'
      simp only [Multiset.mem_cons, hb, false_or] at hb'
      exact (AList.lookup_erase_ne hb).trans hb'

theorem totalOf (h : Counts ring senders) (a : Address) :
    (ring.totalOf a).1 = senders.count a ∧ Counts (ring.totalOf a).2 senders := by
  constructor
  · rw [Buffer.totalOf, Lru.fst_get, h a]
    split
    · rfl
    · rename_i hmem
      rw [Multiset.count_eq_zero.mpr hmem]
      rfl
  · intro b
    exact (Lru.peek_get _ _ _).trans (h b)

theorem empty_iff (h : Counts ring senders) : ring.empty = true ↔ senders = 0 := by
  rw [Buffer.empty, decide_eq_true_eq, h.len_eq, Finset.card_eq_zero, Multiset.toFinset_eq_empty]

end Counts

theorem size_inc (ring : Buffer) (a : Address) :
    (ring.inc a).senderCount.size = ring.senderCount.size := by
  unfold inc
  split <;> rfl

theorem size_dec (ring : Buffer) (a : Address) :
    (ring.dec a).senderCount.size = ring.senderCount.size := by
  unfold dec
  split
  · rfl
  · split <;> rfl

theorem size_foldl {f : Buffer → Address → Buffer}
    (hf : ∀ ring a, (f ring a).senderCount.size = ring.senderCount.size) (as : List Address)
    (ring : Buffer) : (as.foldl f ring).senderCount.size = ring.senderCount.size := by
  induction as generalizing ring with
  | nil => rfl
  | cons a as ih => rw [List.foldl_cons, ih, hf]

/-- The transactions of an event are counted. -/
theorem Counts.foldl_inc {ring : Buffer} {senders : Multiset Address} (h : Counts ring senders)
    (as : List Address) (hfits : (senders + as).toFinset.card ≤ ring.senderCount.size) :
    Counts (as.foldl Buffer.inc ring) (senders + as) := by
  induction as generalizing ring senders with
  | nil => simpa using h
  | cons a as ih =>
    have hsplit : senders + ((a :: as : List Address) : Multiset Address) = a ::ₘ senders + as := by
      rw [← Multiset.cons_coe, Multiset.add_cons, Multiset.cons_add]
    rw [hsplit] at hfits ⊢
    refine ih (h.inc (Nat.le_trans (Finset.card_le_card ?_) hfits)) (by rwa [size_inc])
    exact Multiset.toFinset_subset.mpr (Multiset.subset_of_le (Multiset.le_add_right _ _))

/-- The transactions of an event are taken away. -/
theorem Counts.foldl_dec {ring : Buffer} {senders : Multiset Address} (as : List Address)
    (h : Counts ring (senders + as)) : Counts (as.foldl Buffer.dec ring) senders := by
  induction as generalizing ring with
  | nil => simpa using h
  | cons a as ih =>
    refine ih (Counts.dec (a := a) ?_)
    rwa [← Multiset.cons_coe, Multiset.add_cons] at h

end Buffer

/-! ## The hooks -/

/-- What the hooks read from the service. -/
structure HookWorld where
  hashing : Hashing
  /-- `types.Sender`, with the error dropped -/
  sender : Transaction → Address
  /-- `GetEventPayload` -/
  getEventPayload : EventID → Option EventPayload

/-- `Emitter`, with the buffer that makes it idle or not. -/
structure TrackingEmitter where
  em : Emitter
  originatedTxs : Buffer

/-- What `OnEventConnected` reads from the sync status. -/
structure ConnectedEnv where
  prevLocalEmittedID : EventID
  /-- `doublesign.DetectParallelInstance`, for the status after the event -/
  detectParallelInstance : Bool

/-- `isValidator`; `none` is a `nil` pointer. -/
def Emitter.isValidatorNow (em : Emitter) : Option Bool :=
  if em.config.validatorID = 0 then some false else em.validators.map em.isValidator

namespace TrackingEmitter

variable (W : HookWorld) (t : TrackingEmitter)

/-- `idle` -/
def idle : Bool := t.originatedTxs.empty

/-- `OnNewEpoch` -/
def onNewEpoch (validators : Validators) (epoch maxParents : UInt32) (prevEmitTime : ℤ)
    (age : Int64) : Option TrackingEmitter :=
  (t.em.onNewEpoch validators epoch maxParents prevEmitTime age).map fun em =>
    { em := em
      originatedTxs :=
        if t.em.isValidator validators then t.originatedTxs.clear else t.originatedTxs }

/-- The event was emitted by this validator, and not by this node. -/
def IsExternal (env : ConnectedEnv) (e : EventPayload) : Prop :=
  e.creator = t.em.config.validatorID ∧ env.prevLocalEmittedID ≠ e.id

instance (env : ConnectedEnv) (e : EventPayload) : Decidable (t.IsExternal env e) :=
  inferInstanceAs (Decidable (_ ∧ _))

/-- `OnEventConnected` of a validator. The protection against doublesigning may stop the
node (`none`). The indexers of `ancestor` are left out. -/
def connect (env : ConnectedEnv) (e : EventPayload) : Option TrackingEmitter :=
  if t.IsExternal env e ∧ env.detectParallelInstance then none
  else some
    { em :=
        { t.em with
          pendingGas := t.em.pendingGas + e.gasPowerUsed
          -- if there was any challenge, erase it
          challenges := t.em.challenges.filter fun c => c.1 ≠ e.creator
          -- mark validator as online
          offlineValidators := Function.update t.em.offlineValidators e.creator false }
      originatedTxs := (e.txs.map W.sender).foldl Buffer.inc t.originatedTxs }

/-- `OnEventConnected` -/
def onEventConnected (env : ConnectedEnv) (e : EventPayload) : Option TrackingEmitter := do
  match ← t.em.isValidatorNow with
  | false => pure t
  | true => t.connect W env e

/-- The senders of the transactions of a confirmed event; `none` is an event that is not
found. -/
def confirmedSenders (he : Event) : Option (List Address) :=
  if he.noTxs W.hashing then some []
  else (W.getEventPayload he.id).map fun e => e.txs.map W.sender

/-- `OnEventConfirmed` of a validator -/
def confirm (he : Event) : Option TrackingEmitter :=
  (confirmedSenders W he).map fun senders =>
    { em :=
        { t.em with
          pendingGas :=
            if t.em.pendingGas > he.gasPowerUsed then t.em.pendingGas - he.gasPowerUsed else 0 }
      originatedTxs := senders.foldl Buffer.dec t.originatedTxs }

/-- `OnEventConfirmed` -/
def onEventConfirmed (he : Event) : Option TrackingEmitter := do
  match ← t.em.isValidatorNow with
  | false => pure t
  | true => t.confirm W he

/-! ## Interleavings -/

/-- What happens to the counters during an epoch. -/
inductive Call where
  | onEventConnected (env : ConnectedEnv) (e : EventPayload)
  | onEventConfirmed (he : Event)
  /-- `addTxs` looks up a sender, which is used by that -/
  | totalOf (sender : Address)

/-- A call -/
def call : Call → Option TrackingEmitter
  | .onEventConnected env e => t.onEventConnected W env e
  | .onEventConfirmed he => t.onEventConfirmed W he
  | .totalOf sender => some { t with originatedTxs := (t.originatedTxs.totalOf sender).2 }

/-- One call after the other. -/
def run (calls : List Call) : Option TrackingEmitter := calls.foldlM (call W) t

end TrackingEmitter

open TrackingEmitter

/-- The events that are connected in some calls. -/
def connectedIn (calls : List Call) : List EventPayload :=
  calls.filterMap fun
    | .onEventConnected _ e => some e
    | _ => none

/-- The events that are confirmed in some calls. -/
def confirmedIn (calls : List Call) : List EventID :=
  calls.filterMap fun
    | .onEventConfirmed he => some he.id
    | _ => none

/-- The events that are connected and not yet confirmed. -/
def pendingIn (calls : List Call) : List EventPayload :=
  (connectedIn calls).filter fun e => e.id ∉ confirmedIn calls

/-- The gas of some events in all. -/
def gasOfEvents (events : List EventPayload) : ℕ := (events.map fun e => e.gasPowerUsed.toNat).sum

/-- The senders of the transactions of some events, one for each transaction. -/
def sendersOf (W : HookWorld) (events : List EventPayload) : List Address :=
  events.flatMap fun e => e.txs.map W.sender

/-- **An interleaving** of connected and confirmed events: each event is connected at most
once and confirmed at most once, after it is connected. At any time there is room in the
buffer for the senders that are pending, and the gas that is pending is a `uint64`. -/
structure Interleaving (W : HookWorld) (size : ℕ) (calls : List Call) : Prop where
  connected_once : ((connectedIn calls).map EventPayload.id).Nodup
  confirmed_once : (confirmedIn calls).Nodup
  connected_before : ∀ before he after, calls = before ++ .onEventConfirmed he :: after →
    ∃ e ∈ connectedIn before, he = e.event
  senders_lt : ∀ before, before <+: calls →
    (sendersOf W (pendingIn before)).toFinset.card < size
  gas_lt : ∀ before, before <+: calls → gasOfEvents (pendingIn before) < 2 ^ 64
  /-- what is connected is stored -/
  stored : ∀ e ∈ connectedIn calls, W.getEventPayload e.id = some e
  /-- an event that says so has no transactions, as all that are decoded
  (`MutableEventPayload.Encodable`) -/
  noTxs : ∀ e ∈ connectedIn calls, e.noTxs W.hashing = true → e.txs = []

/-- An event in front of those with other IDs. -/
theorem perm_cons_filter {events : List EventPayload} {e : EventPayload}
    (hnodup : (events.map EventPayload.id).Nodup) (he : e ∈ events) :
    (e :: events.filter fun e' => e'.id ≠ e.id).Perm events := by
  obtain ⟨before, after, rfl⟩ := List.append_of_mem he
  rw [List.map_append, List.map_cons] at hnodup
  have hothers : ∀ e' ∈ before ++ after, e'.id ≠ e.id := by
    have hperm := List.perm_middle.nodup_iff.mp hnodup
    intro e' hmem heq
    refine (List.nodup_cons.mp hperm).1 ?_
    rw [← heq, ← List.map_append]
    exact List.mem_map_of_mem hmem
  have hfilter : (before ++ e :: after).filter (fun e' => e'.id ≠ e.id) = before ++ after := by
    rw [List.filter_append, List.filter_cons_of_neg (by simp), ← List.filter_append]
    exact List.filter_eq_self.mpr fun e' hmem => by simpa using hothers e' hmem
  rw [hfilter]
  exact List.perm_middle.symm

section Pending

variable {W : HookWorld} {size : ℕ} {calls : List Call} {c : Call} {env : ConnectedEnv}
  {e : EventPayload} {he : Event}

theorem connectedIn_append (calls calls' : List Call) :
    connectedIn (calls ++ calls') = connectedIn calls ++ connectedIn calls' := List.filterMap_append

theorem confirmedIn_append (calls calls' : List Call) :
    confirmedIn (calls ++ calls') = confirmedIn calls ++ confirmedIn calls' := List.filterMap_append

theorem gasOfEvents_append (events events' : List EventPayload) :
    gasOfEvents (events ++ events') = gasOfEvents events + gasOfEvents events' := by
  rw [gasOfEvents, List.map_append, List.sum_append]
  rfl

theorem gasOfEvents_cons (e : EventPayload) (events : List EventPayload) :
    gasOfEvents (e :: events) = e.gasPowerUsed.toNat + gasOfEvents events := List.sum_cons

theorem gasOfEvents_perm {events events' : List EventPayload} (h : events.Perm events') :
    gasOfEvents events = gasOfEvents events' := (h.map _).sum_eq

theorem sendersOf_perm {events events' : List EventPayload} (h : events.Perm events') :
    (sendersOf W events : Multiset Address) = sendersOf W events' :=
  Multiset.coe_eq_coe.mpr (h.flatMap_right _)

/-- An event that is confirmed has been connected. -/
theorem Interleaving.mem_of_confirmed (h : Interleaving W size calls) {id : EventID}
    (hid : id ∈ confirmedIn calls) : id ∈ (connectedIn calls).map EventPayload.id := by
  obtain ⟨c, hc, hcid⟩ := List.mem_filterMap.mp hid
  cases c with
  | onEventConfirmed he =>
    cases hcid
    obtain ⟨before, after, rfl⟩ := List.append_of_mem hc
    obtain ⟨e, hmem, rfl⟩ := h.connected_before before he after rfl
    rw [connectedIn_append]
    exact List.mem_map.mpr ⟨e, List.mem_append_left _ hmem, rfl⟩
  | _ => cases hcid

theorem Interleaving.init (h : Interleaving W size (calls ++ [c])) : Interleaving W size calls where
  connected_once := by
    have := h.connected_once
    rw [connectedIn_append, List.map_append] at this
    exact this.of_append_left
  confirmed_once := by
    have := h.confirmed_once
    rw [confirmedIn_append] at this
    exact this.of_append_left
  connected_before before he after hsplit :=
    h.connected_before before he (after ++ [c]) (by rw [hsplit, List.append_assoc]; rfl)
  senders_lt before hbefore := h.senders_lt before (hbefore.trans (List.prefix_append _ _))
  gas_lt before hbefore := h.gas_lt before (hbefore.trans (List.prefix_append _ _))
  stored e he := h.stored e (by rw [connectedIn_append]; exact List.mem_append_left _ he)
  noTxs e he := h.noTxs e (by rw [connectedIn_append]; exact List.mem_append_left _ he)

/-- An event that is connected becomes pending. -/
theorem Interleaving.pendingIn_connected
    (h : Interleaving W size (calls ++ [Call.onEventConnected env e])) :
    pendingIn (calls ++ [Call.onEventConnected env e]) = pendingIn calls ++ [e] := by
  have hconnected : connectedIn (calls ++ [Call.onEventConnected env e]) =
      connectedIn calls ++ [e] := connectedIn_append _ _
  have hconfirmed : confirmedIn (calls ++ [Call.onEventConnected env e]) = confirmedIn calls :=
    (confirmedIn_append _ _).trans (List.append_nil _)
  have hnew : e.id ∉ confirmedIn calls := by
    intro hmem
    have hid := h.init.mem_of_confirmed hmem
    have hnodup := h.connected_once
    rw [hconnected, List.map_append] at hnodup
    exact (List.disjoint_of_nodup_append hnodup) hid (List.mem_singleton.mpr rfl)
  rw [pendingIn, hconnected, hconfirmed, List.filter_append]
  simp [pendingIn, hnew]

/-- An event that is confirmed was pending, and is not any more. -/
theorem Interleaving.pendingIn_confirmed
    (h : Interleaving W size (calls ++ [Call.onEventConfirmed he])) :
    ∃ e ∈ connectedIn calls, he = e.event ∧
      (e :: pendingIn (calls ++ [Call.onEventConfirmed he])).Perm (pendingIn calls) := by
  obtain ⟨e, hmem, rfl⟩ := h.connected_before calls he [] rfl
  refine ⟨e, hmem, rfl, ?_⟩
  have hconnected : connectedIn (calls ++ [Call.onEventConfirmed e.event]) = connectedIn calls :=
    (connectedIn_append _ _).trans (List.append_nil _)
  have hconfirmed : confirmedIn (calls ++ [Call.onEventConfirmed e.event]) =
      confirmedIn calls ++ [e.id] := confirmedIn_append _ _
  have hnew : e.id ∉ confirmedIn calls := by
    have hnodup := h.confirmed_once
    rw [hconfirmed] at hnodup
    exact fun hid => (List.disjoint_of_nodup_append hnodup) hid (List.mem_singleton.mpr rfl)
  have hpending : e ∈ pendingIn calls := List.mem_filter.mpr ⟨hmem, by simpa using hnew⟩
  have hfilter : pendingIn (calls ++ [Call.onEventConfirmed e.event]) =
      (pendingIn calls).filter fun e' => e'.id ≠ e.id := by
    rw [pendingIn, hconnected, hconfirmed, pendingIn, List.filter_filter]
    refine List.filter_congr fun e' _ => ?_
    simp [and_comm]
  have hnodup : ((pendingIn calls).map EventPayload.id).Nodup :=
    h.init.connected_once.sublist (List.filter_sublist.map _)
  rw [hfilter]
  exact perm_cons_filter hnodup hpending

end Pending

/-! ## The invariant -/

/-- **The counters are exact**: they count the gas and the transactions of some events. -/
structure Exact (W : HookWorld) (validators : Validators) (size : ℕ) (events : List EventPayload)
    (t : TrackingEmitter) : Prop where
  ofEpoch : t.em.validators = some validators
  isValidator : t.em.isValidator validators = true
  ofSize : t.originatedTxs.senderCount.size = size
  gas : t.em.pendingGas.toNat = gasOfEvents events
  senders : t.originatedTxs.Counts (sendersOf W events)

variable {validators : Validators}

theorem Emitter.recountValidators_keeps {em em' : Emitter} {age : Int64}
    (h : em.recountValidators validators age = some em') :
    em'.config = em.config ∧ em'.validators = em.validators ∧ em'.pendingGas = em.pendingGas := by
  unfold Emitter.recountValidators at h
  split at h
  · cases h
  · cases h
    exact ⟨rfl, rfl, rfl⟩

/-- An epoch starts with nothing that is pending. -/
theorem exact_onNewEpoch (W : HookWorld) {t t₀ : TrackingEmitter} {epoch maxParents : UInt32}
    {prevEmitTime : ℤ} {age : Int64} (hvalidator : t.em.isValidator validators = true)
    (h : t.onNewEpoch validators epoch maxParents prevEmitTime age = some t₀) :
    Exact W validators t.originatedTxs.senderCount.size [] t₀ := by
  obtain ⟨em, hem, rfl⟩ := Option.map_eq_some_iff.mp h
  have hentered : (t.em.enterEpoch validators epoch maxParents).isValidator validators = true :=
    hvalidator
  unfold Emitter.onNewEpoch at hem
  simp only [hentered] at hem
  obtain ⟨hconfig, hvalidators, hgas⟩ := Emitter.recountValidators_keeps hem
  simp only [if_pos hvalidator]
  refine ⟨hvalidators, ?_, rfl, ?_, Buffer.Counts.clear _⟩
  · rw [Emitter.isValidator, hconfig]
    exact hvalidator
  · rw [hgas]
    rfl

namespace Exact

variable {W : HookWorld} {validators : Validators} {size : ℕ} {events rest : List EventPayload}
  {t : TrackingEmitter} {e : EventPayload}

theorem isValidatorNow (h : Exact W validators size events t) :
    t.em.isValidatorNow = some true := by
  have hvalidator := h.isValidator
  rw [Emitter.isValidator, decide_eq_true_eq] at hvalidator
  rw [Emitter.isValidatorNow, if_neg hvalidator.1, h.ofEpoch, Option.map_some, h.isValidator]

/-- An event is connected, unless the node is stopped. -/
theorem connected (h : Exact W validators size events t) (env : ConnectedEnv)
    (hgas : gasOfEvents (events ++ [e]) < 2 ^ 64)
    (hsenders : (sendersOf W (events ++ [e])).toFinset.card ≤ size) :
    (t.onEventConnected W env e = none ∧ t.IsExternal env e ∧ env.detectParallelInstance = true) ∨
      ∃ t', t.onEventConnected W env e = some t' ∧ Exact W validators size (events ++ [e]) t' := by
  have hconnect : t.onEventConnected W env e = t.connect W env e := by
    rw [TrackingEmitter.onEventConnected, h.isValidatorNow]
    rfl
  rw [hconnect, TrackingEmitter.connect]
  split
  · rename_i hstop
    exact .inl ⟨rfl, hstop⟩
  refine .inr ⟨_, rfl, h.ofEpoch, h.isValidator, ?_, ?_, ?_⟩
  · rw [Buffer.size_foldl Buffer.size_inc]
    exact h.ofSize
  · -- the sum does not wrap
    rw [gasOfEvents_append, gasOfEvents_cons, ← h.gas] at hgas ⊢
    exact (UInt64.toNat_add _ _).trans (Nat.mod_eq_of_lt hgas)
  · have happend : sendersOf W (events ++ [e]) = sendersOf W events ++ e.txs.map W.sender := by
      rw [sendersOf, List.flatMap_append, List.flatMap_singleton]
      rfl
    rw [happend] at hsenders ⊢
    rw [← Multiset.coe_add]
    exact h.senders.foldl_inc _ (by rw [h.ofSize]; exact hsenders)

theorem confirmedSenders_eq (hstored : W.getEventPayload e.id = some e)
    (hnoTxs : e.noTxs W.hashing = true → e.txs = []) :
    confirmedSenders W e.event = some (e.txs.map W.sender) := by
  rw [confirmedSenders]
  split
  · rename_i hno
    rw [hnoTxs hno]
    rfl
  · change (W.getEventPayload e.id).map _ = _
    rw [hstored]
    rfl

/-- The gas stops at zero, but only when zero is what is left. -/
theorem toNat_sub_or_zero {pending used : UInt64} {left : ℕ}
    (h : pending.toNat = used.toNat + left) :
    (if pending > used then pending - used else 0).toNat = left := by
  split
  · rename_i hlt
    rw [UInt64.toNat_sub_of_le _ _ (UInt64.le_of_lt hlt), h, Nat.add_sub_cancel_left]
  · rename_i hle
    have hle' : pending.toNat ≤ used.toNat := Nat.le_of_not_lt hle
    rw [UInt64.toNat_zero]
    omega

/-- A pending event is confirmed. -/
theorem confirmed (h : Exact W validators size events t) (hperm : (e :: rest).Perm events)
    (hstored : W.getEventPayload e.id = some e)
    (hnoTxs : e.noTxs W.hashing = true → e.txs = []) :
    ∃ t', t.onEventConfirmed W e.event = some t' ∧ Exact W validators size rest t' := by
  have hgas : t.em.pendingGas.toNat = e.gasPowerUsed.toNat + gasOfEvents rest := by
    rw [h.gas, ← gasOfEvents_perm hperm, gasOfEvents_cons]
  rw [TrackingEmitter.onEventConfirmed, h.isValidatorNow]
  change ∃ t', t.confirm W e.event = some t' ∧ _
  rw [TrackingEmitter.confirm, confirmedSenders_eq hstored hnoTxs]
  refine ⟨_, rfl, h.ofEpoch, h.isValidator, ?_, ?_, ?_⟩
  · rw [Buffer.size_foldl Buffer.size_dec]
    exact h.ofSize
  · exact toNat_sub_or_zero hgas
  · refine Buffer.Counts.foldl_dec _ ?_
    have hcons : (sendersOf W (e :: rest) : Multiset Address) =
        sendersOf W rest + (e.txs.map W.sender : List Address) := by
      rw [sendersOf, List.flatMap_cons, ← Multiset.coe_add, add_comm]
      rfl
    rw [← hcons, sendersOf_perm hperm]
    exact h.senders

theorem looked (h : Exact W validators size events t) (sender : Address) :
    Exact W validators size events
      { t with originatedTxs := (t.originatedTxs.totalOf sender).2 } where
  ofEpoch := h.ofEpoch
  isValidator := h.isValidator
  ofSize := (Lru.size_get _ _).trans h.ofSize
  gas := h.gas
  senders := (h.senders.totalOf sender).2

/-- There are no transactions if and only if nobody has sent any. -/
theorem idle_iff (h : Exact W validators size events t) :
    t.idle = true ↔ ∀ e ∈ events, e.txs = [] := by
  rw [TrackingEmitter.idle, h.senders.empty_iff, Multiset.coe_eq_zero, sendersOf,
    List.flatMap_eq_nil_iff]
  simp only [List.map_eq_nil_iff]

end Exact

/-- The node is stopped on an event of its validator that it has not emitted. -/
def Stopped (W : HookWorld) (t₀ : TrackingEmitter) (calls : List Call) : Prop :=
  ∃ before env e after t, calls = before ++ .onEventConnected env e :: after ∧
    t₀.run W before = some t ∧ t.IsExternal env e ∧ env.detectParallelInstance = true

theorem Stopped.append {W : HookWorld} {t₀ : TrackingEmitter} {calls : List Call}
    (h : Stopped W t₀ calls) (calls' : List Call) : Stopped W t₀ (calls ++ calls') := by
  obtain ⟨before, env, e, after, t, rfl, h⟩ := h
  exact ⟨before, env, e, after ++ calls', t, by rw [List.append_assoc]; rfl, h⟩

theorem run_snoc (W : HookWorld) (t₀ : TrackingEmitter) (calls : List Call) (c : Call) :
    t₀.run W (calls ++ [c]) = (t₀.run W calls).bind fun t => t.call W c := by
  rw [TrackingEmitter.run, List.foldlM_append]
  cases h : calls.foldlM (call W) t₀ with
  | none => rw [TrackingEmitter.run, h]; rfl
  | some t => rw [TrackingEmitter.run, h]; exact bind_pure (t.call W c)

/-- The counters stay exact in every interleaving, up to where the node is stopped. -/
theorem run_exact {W : HookWorld} {size : ℕ} {t₀ : TrackingEmitter}
    (h₀ : Exact W validators size [] t₀) (calls : List Call) (h : Interleaving W size calls) :
    Stopped W t₀ calls ∨
      ∃ t, t₀.run W calls = some t ∧ Exact W validators size (pendingIn calls) t := by
  induction calls using List.reverseRecOn with
  | nil => exact .inr ⟨t₀, rfl, h₀⟩
  | append_singleton calls c ih =>
    obtain hstopped | ⟨t, hrun, ht⟩ := ih h.init
    · exact .inl (hstopped.append [c])
    rw [run_snoc, hrun]
    cases c with
    | onEventConnected env e =>
      have hsenders := h.senders_lt _ (List.prefix_refl _)
      have hgas := h.gas_lt _ (List.prefix_refl _)
      rw [h.pendingIn_connected] at hsenders hgas ⊢
      obtain ⟨_, hstop⟩ | hsome := ht.connected env hgas hsenders.le
      · exact .inl ⟨calls, env, e, [], t, rfl, hrun, hstop⟩
      · exact .inr hsome
    | onEventConfirmed he =>
      obtain ⟨e, hmem, rfl, hperm⟩ := h.pendingIn_confirmed
      exact .inr (ht.confirmed hperm (h.init.stored e hmem) (h.init.noTxs e hmem))
    | totalOf sender =>
      have hpending : pendingIn (calls ++ [Call.totalOf sender]) = pendingIn calls := by
        have hconnected : connectedIn (calls ++ [Call.totalOf sender]) = connectedIn calls :=
          (connectedIn_append _ _).trans (List.append_nil _)
        have hconfirmed : confirmedIn (calls ++ [Call.totalOf sender]) = confirmedIn calls :=
          (confirmedIn_append _ _).trans (List.append_nil _)
        rw [pendingIn, hconnected, hconfirmed, pendingIn]
      rw [hpending]
      exact .inr ⟨_, rfl, ht.looked sender⟩

/-- **The pending counters are exact.** In an epoch in which the node is a validator, after
any interleaving of connected and confirmed events, the gas, the number of transactions of
each sender and whether the emitter is idle are those of the events that are connected and
not yet confirmed. The node may only have been stopped before, by the protection against
doublesigning. -/
theorem pending_counters_exact (W : HookWorld) (t t₀ : TrackingEmitter) (validators : Validators)
    (epoch maxParents : UInt32) (prevEmitTime : ℤ) (age : Int64)
    (hvalidator : t.em.isValidator validators = true)
    (hepoch : t.onNewEpoch validators epoch maxParents prevEmitTime age = some t₀)
    (calls : List Call) (hcalls : Interleaving W t.originatedTxs.senderCount.size calls) :
    Stopped W t₀ calls ∨
      ∃ t', t₀.run W calls = some t' ∧
        t'.em.pendingGas.toNat = gasOfEvents (pendingIn calls) ∧
        (∀ sender, (t'.originatedTxs.totalOf sender).1 =
          ((sendersOf W (pendingIn calls)).count sender : ℤ)) ∧
        (t'.idle = true ↔ ∀ e ∈ pendingIn calls, e.txs = []) := by
  obtain hstopped | ⟨t', hrun, ht'⟩ := run_exact (exact_onNewEpoch W hvalidator hepoch) calls hcalls
  · exact .inl hstopped
  · refine .inr ⟨t', hrun, ht'.gas, fun sender => ?_, ht'.idle_iff⟩
    rw [(ht'.senders.totalOf sender).1, Multiset.coe_count]

/-- An event with one transaction, that uses as much gas as its Lamport time says. -/
def pendingEvent (lamport : UInt32) : EventPayload :=
  { sampleEvent with
    lamport := lamport
    gasPowerUsed := lamport.toUInt64 }.build (copyBytes 32 []) 0

/-- Events are found by their Lamport time, and all transactions have one sender. -/
def sampleHookWorld : HookWorld where
  hashing := sampleHashing
  sender _ := copyBytes 20 []
  getEventPayload id := some (pendingEvent id.lamport)

/-- Two events are connected, and the first one is confirmed. -/
def sampleCalls : List Call :=
  [.onEventConnected ⟨⟨0, 0, copyBytes 24 []⟩, false⟩ (pendingEvent 5),
    .onEventConnected ⟨⟨0, 0, copyBytes 24 []⟩, false⟩ (pendingEvent 3),
    .onEventConfirmed (pendingEvent 5).event]

theorem sampleCalls_interleaving : Interleaving sampleHookWorld 2 sampleCalls where
  connected_once := by decide +kernel
  confirmed_once := by decide +kernel
  connected_before before he after hsplit := by
    match before, hsplit with
    | [_, _], hsplit =>
      cases hsplit
      exact ⟨pendingEvent 5, by decide +kernel, rfl⟩
    | [], hsplit | [_], hsplit | [_, _, _], hsplit => cases hsplit
    | _ :: _ :: _ :: _ :: _, hsplit => cases hsplit
  senders_lt before hbefore := by
    have hall : ∀ before ∈ sampleCalls.inits,
        (sendersOf sampleHookWorld (pendingIn before)).toFinset.card < 2 := by decide +kernel
    exact hall before ((List.mem_inits _ _).mpr hbefore)
  gas_lt before hbefore := by
    have hall : ∀ before ∈ sampleCalls.inits, gasOfEvents (pendingIn before) < 2 ^ 64 := by
      decide +kernel
    exact hall before ((List.mem_inits _ _).mpr hbefore)
  stored := by decide +kernel
  noTxs := by decide +kernel

/-- An emitter with room for two senders. -/
def sampleTracking : TrackingEmitter := ⟨newEmitter defaultConfig 0, ⟨Lru.new 2⟩⟩

theorem sampleCalls_not_stopped (t₀ : TrackingEmitter) :
    ¬ Stopped sampleHookWorld t₀ sampleCalls := by
  rintro ⟨before, env, e, after, t, hsplit, -, -, hdetected⟩
  have hmem : Call.onEventConnected env e ∈ sampleCalls := by
    rw [hsplit]
    exact List.mem_append_right _ List.mem_cons_self
  simp only [sampleCalls, List.mem_cons, Call.onEventConnected.injEq, reduceCtorEq,
    List.not_mem_nil,
    or_false] at hmem
  obtain ⟨rfl, -⟩ | ⟨rfl, -⟩ := hmem <;> cases hdetected

/-- The second event is left: its gas and its transaction. -/
theorem pending_counters_exact_sampleCalls :
    ∃ t₀ t', sampleTracking.onNewEpoch sampleValidators 3 10 0 0 = some t₀ ∧
      t₀.run sampleHookWorld sampleCalls = some t' ∧ t'.em.pendingGas.toNat = 3 ∧
      (t'.originatedTxs.totalOf (copyBytes 20 [])).1 = 1 ∧ t'.idle ≠ true := by
  have hstart : (sampleTracking.onNewEpoch sampleValidators 3 10 0 0).isSome = true := by
    decide +kernel
  obtain ⟨t₀, ht₀⟩ := Option.isSome_iff_exists.mp hstart
  have hpending : pendingIn sampleCalls = [pendingEvent 3] := by decide +kernel
  obtain hstopped | ⟨t', hrun, hgas, hsenders, hidle⟩ :=
    pending_counters_exact sampleHookWorld sampleTracking t₀ sampleValidators 3 10 0 0
      (by decide +kernel) ht₀ sampleCalls sampleCalls_interleaving
  · exact absurd hstopped (sampleCalls_not_stopped t₀)
  rw [hpending] at hgas hsenders hidle
  refine ⟨t₀, t', ht₀, hrun, hgas.trans (by decide +kernel),
    (hsenders _).trans (by decide +kernel), ?_⟩
  rw [Ne, hidle]
  decide +kernel

end Zilionixx
