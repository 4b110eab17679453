import Mathlib.Data.List.MinMax
import Mathlib.Logic.Function.Basic
import Zilionixx.EventCheck
import Zilionixx.EventCodec

/-!
# The event store

`gossip/store_event.go`: a table of serialized events with two caches in front
of it, one of whole events and one of headers. Entries leave the caches at any
time.

An event that passed the checks is one the encoder does not refuse, in whatever
form it was received (`writable_of_validate`), so it is stored, and reading it
from the table gives the event that is in the cache. This holds along every run
of store operations (`run_coherent`).
-/

namespace Zilionixx

open Codec Checked

variable {X : External} {H : Hashing}

/-! ## Checked events can be marshalled -/

/-- The parents check of `zilion-base` compares the lamport with those of the
parents. -/
def External.ChecksLamport (X : External) : Prop :=
  ∀ e parents, X.parentsValidate e parents = .ok () →
    e.lamport.toNat = 1 + (parents.map fun p => p.lamport.toNat).foldr max 0

/-- The events passed to `Validate` are those the event names as its parents;
the ID of an event has its lamport in it. -/
structure ParentsOf (e : EventPayload) (parents : List Event) : Prop where
  ids : parents.map Event.id = e.parents
  lamports : ∀ p ∈ parents, p.id.lamport = p.lamport

/-- The union of the checks excludes everything the encoder refuses. -/
theorem writable_of_validate (hX : X.ChecksLamport) {v : Checkers} {e : EventPayload}
    {parents : List Event} (hparents : ParentsOf e parents)
    (h : v.validate X H e parents = .ok ()) : e.toMutableEventPayload.Writable H := by
  obtain ⟨hbasic, -, hparentsOk, -, hheavy⟩ := Checkers.validate_eq_ok.mp h
  refine ⟨?_, ?_, ?_⟩
  · -- every parent is one of the events the lamport is above of
    intro p hp
    rw [← hparents.ids] at hp
    obtain ⟨parent, hmem, rfl⟩ := List.mem_map.mp hp
    have hlamport : e.lamport.toNat = _ := hX _ _ (Parentscheck.base_of_validate hparentsOk)
    have hle : parent.lamport.toNat ≤ (parents.map fun p => p.lamport.toNat).foldr max 0 :=
      List.le_max_of_le' 0 (List.mem_map_of_mem hmem) (Nat.le_refl _)
    rw [hparents.lamports parent hmem, UInt32.le_iff_toNat_le]
    omega
  · intro tx htx hlegacy
    have hgas := Basiccheck.gas_of_validateTx
      ((Basiccheck.validate_eq_ok.mp hbasic).2.2.2 tx htx) hlegacy
    exact UInt64.lt_of_lt_of_le (by decide) hgas
  · intro hnil
    rw [noTxs_iff, Heavycheck.txHash_of_validate hheavy, hnil]
    rfl

/-- An accepted event that the encoder does not refuse is marshalled, in no more
bytes than it came in, and read back. -/
theorem EventPayload.marshalBinary_of_writable {raw : Slice} {e : EventPayload}
    (hread : EventPayload.unmarshalBinary H raw = .ok e)
    (hw : e.toMutableEventPayload.Writable H) :
    ∃ raw', e.marshalBinary H = .ok raw' ∧ raw'.length ≤ raw.data.length ∧
      ∀ s : Slice, s.data = raw' →
        EventPayload.unmarshalBinary H s = .ok { e with size := raw'.length } := by
  obtain ⟨hpayload, eventSer, hser, hbuilt⟩ := EventPayload.unmarshalBinaryWith_eq_ok.mp hread
  have hok := MutableEventPayload.encodable_of_unmarshalBinary hpayload
  obtain ⟨raw', hraw'⟩ := MutableEventPayload.marshalBinary_ok hok hw
  refine ⟨raw', hraw', length_marshal_le (MutableEventPayload.sized_payload _)
    MutableEventPayload.lawful_payload.shrinks hpayload hraw', ?_⟩
  rintro s rfl
  refine EventPayload.unmarshalBinaryWith_eq_ok.mpr
    ⟨MutableEventPayload.unmarshalBinary_to_lax
      (MutableEventPayload.unmarshalBinary_strict hok hraw'), eventSer, hser, ?_⟩
  rw [hbuilt]
  rfl

/-! ## Events in memory -/

/-- An `*inter.EventPayload`: the event, and for each of its transactions the
hash that `SetHash` gave it, if any. -/
structure LoadedEvent where
  event : EventPayload
  txHashes : List (Option Hash)
  deriving DecidableEq

namespace LoadedEvent

/-- An event as it comes from the decoder. -/
def fresh (e : EventPayload) : LoadedEvent := ⟨e, List.replicate e.txs.length none⟩

/-- `e.Txs()[pos].SetHash(h)`; `none` is an index out of range. -/
def setTxHash (e : LoadedEvent) (pos : ℕ) (h : Hash) : Option LoadedEvent :=
  if pos < e.event.txs.length then some { e with txHashes := e.txHashes.set pos (some h) }
  else none

/-- The same event with another cached size. -/
def resize (e : LoadedEvent) (n : ℕ) : LoadedEvent :=
  { e with event := { e.event with size := n } }

end LoadedEvent

/-- `fixTxHash1` -/
def fixTxHash1 : Hash := copyBytes 32
  [0xb6, 0x84, 0x0d, 0x4c, 0x0e, 0xb5, 0x62, 0xb0, 0xb1, 0x73, 0x17, 0x60, 0x22, 0x3d, 0x91, 0xb3,
    0x6e, 0xdc, 0x6c, 0x16, 0x09, 0x58, 0xe2, 0x3e, 0x77, 0x3e, 0x60, 0x58, 0xee, 0xa3, 0x04, 0x58]

/-- `fixTxEvent1` -/
def fixTxEvent1 : EventID := ⟨0x00001718, 0x000003d4, copyBytes 24
  [0xd3, 0x95, 0x5b, 0xf5, 0x92, 0xe1, 0x2f, 0xb8, 0x0a, 0x60, 0x57, 0x4f, 0xa4, 0xb1, 0x8b, 0xd5,
    0x80, 0x5b, 0x4c, 0x01, 0x0d, 0x75, 0xe8, 0x6d]⟩

/-- `fixTxHash2` -/
def fixTxHash2 : Hash := copyBytes 32
  [0x3a, 0xee, 0xde, 0x91, 0x74, 0x00, 0x93, 0xcb, 0x8f, 0xeb, 0x12, 0x96, 0xa3, 0x4c, 0xf7, 0x0d,
    0x86, 0xd2, 0xf8, 0x02, 0xcf, 0xf8, 0x60, 0xed, 0xd7, 0x98, 0x97, 0x8e, 0x94, 0xa4, 0x05, 0x34]

/-- `fixTxEvent2` -/
def fixTxEvent2 : EventID := ⟨0x0000179e, 0x00000c46, copyBytes 24
  [0x4d, 0x75, 0x6a, 0x76, 0x14, 0xd0, 0xca, 0x06, 0x7f, 0xcb, 0x37, 0xee, 0x44, 0x52, 0x00, 0x4b,
    0xf3, 0x08, 0xc9, 0xdf, 0x56, 0x1e, 0x85, 0xe8]⟩

/-- `fixTxEventPos1` -/
def fixTxEventPos1 : ℕ := 2

/-- `fixTxEventPos2` -/
def fixTxEventPos2 : ℕ := 0

/-- One of the two fixes in `fixEventTxHashes`. -/
def fixTxHash (id : EventID) (pos : ℕ) (h : Hash) (e : LoadedEvent) : Option LoadedEvent :=
  if e.event.id = id then e.setTxHash pos h else some e

/-- `fixEventTxHashes`; `none` is a panic. -/
def fixEventTxHashes (e : LoadedEvent) : Option LoadedEvent := do
  let e ← fixTxHash fixTxEvent1 fixTxEventPos1 fixTxHash1 e
  fixTxHash fixTxEvent2 fixTxEventPos2 fixTxHash2 e

theorem fixTxHash_resize (id : EventID) (pos : ℕ) (h : Hash) (e : LoadedEvent) (n : ℕ) :
    fixTxHash id pos h (e.resize n) = (fixTxHash id pos h e).map (LoadedEvent.resize · n) := by
  by_cases hid : e.event.id = id
  · by_cases hpos : pos < e.event.txs.length <;>
      simp [fixTxHash, LoadedEvent.setTxHash, LoadedEvent.resize, hid, hpos]
  · simp [fixTxHash, LoadedEvent.resize, hid]

theorem event_of_fixTxHash {id : EventID} {pos : ℕ} {h : Hash} {e e' : LoadedEvent}
    (hfix : fixTxHash id pos h e = some e') : e'.event = e.event := by
  rw [fixTxHash, LoadedEvent.setTxHash] at hfix
  split at hfix
  · split at hfix
    · cases hfix; rfl
    · cases hfix
  · cases hfix; rfl

/-- The size plays no role in it. -/
theorem fixEventTxHashes_resize (e : LoadedEvent) (n : ℕ) :
    fixEventTxHashes (e.resize n) = (fixEventTxHashes e).map (LoadedEvent.resize · n) := by
  simp only [fixEventTxHashes, Option.bind_eq_bind, fixTxHash_resize, Option.bind_map,
    Option.map_bind, Function.comp_def]

/-- It changes no event. -/
theorem event_of_fixEventTxHashes {e e' : LoadedEvent} (h : fixEventTxHashes e = some e') :
    e'.event = e.event := by
  rw [fixEventTxHashes, Option.bind_eq_bind, Option.bind_eq_some_iff] at h
  obtain ⟨e₁, h₁, h₂⟩ := h
  exact (event_of_fixTxHash h₂).trans (event_of_fixTxHash h₁)

/-! ## The store -/

/-- `rlp` of go-ethereum, on byte strings. -/
structure Rlp where
  /-- `rlp.Encode` of a byte string -/
  encode : List UInt8 → List UInt8
  /-- `rlp.DecodeBytes` with `Stream.Bytes`; `none` is an error -/
  decode : List UInt8 → Option Slice

/-- Decoding gives back the bytes that were encoded. -/
def Rlp.RoundTrip (R : Rlp) : Prop :=
  ∀ s : Slice, ∃ s', R.decode (R.encode s.data) = some s' ∧ s'.data = s.data

/-- The parts of `gossip.Store` that hold events. -/
structure EventStore where
  /-- `table.Events` -/
  events : EventID → Option (List UInt8)
  /-- `cache.Events` -/
  cacheEvents : EventID → Option LoadedEvent
  /-- `cache.EventsHeaders` -/
  cacheHeaders : EventID → Option Event

namespace EventStore

variable (H) (R : Rlp)

/-- A store with nothing in it. -/
def empty : EventStore := ⟨fun _ => none, fun _ => none, fun _ => none⟩

/-- Add an event to both caches. -/
def cache (s : EventStore) (id : EventID) (e : LoadedEvent) : EventStore :=
  { s with
    cacheEvents := Function.update s.cacheEvents id (some e)
    cacheHeaders := Function.update s.cacheHeaders id (some e.event.event) }

/-- `DelEvent` -/
def delEvent (s : EventStore) (id : EventID) : EventStore where
  events := Function.update s.events id none
  cacheEvents := Function.update s.cacheEvents id none
  cacheHeaders := Function.update s.cacheHeaders id none

/-- `SetEvent`; `none` is `Log.Crit` on an event that cannot be encoded. -/
def setEvent (s : EventStore) (e : LoadedEvent) : Option EventStore :=
  match e.event.marshalBinary H with
  | .error _ => none
  | .ok bytes =>
    some ({ s with events := Function.update s.events e.event.id (some (R.encode bytes)) }.cache
      e.event.id e)

/-- `rlp.Get` of an event and `fixEventTxHashes`; `none` is `Log.Crit` or a
panic. -/
def load (buf : List UInt8) : Option LoadedEvent := do
  let bytes ← R.decode buf
  match EventPayload.unmarshalBinary H bytes with
  | .error _ => none
  | .ok e => fixEventTxHashes (LoadedEvent.fresh e)

/-- What the table has for an ID; the outer `none` is a fault. -/
def fetch (s : EventStore) (id : EventID) : Option (Option LoadedEvent) :=
  match s.events id with
  | none => some none
  | some buf => (load H R buf).map some

/-- `GetEventPayload` -/
def getEventPayload (s : EventStore) (id : EventID) : Option (Option LoadedEvent × EventStore) :=
  match s.cacheEvents id with
  | some ev => some (some ev, s)
  | none =>
    match s.fetch H R id with
    | none => none
    | some none => some (none, s)
    | some (some w) => some (some w, s.cache id w)

/-- `GetEvent` -/
def getEvent (s : EventStore) (id : EventID) : Option (Option Event × EventStore) :=
  match s.cacheHeaders id with
  | some ev => some (some ev, s)
  | none =>
    match s.fetch H R id with
    | none => none
    | some none => some (none, s)
    | some (some w) => some (some w.event.event, s.cache id w)

/-- What happens to the store. -/
inductive Op where
  | setEvent (e : LoadedEvent)
  | delEvent (id : EventID)
  | getEventPayload (id : EventID)
  | getEvent (id : EventID)
  /-- the cache drops an event -/
  | evictEvent (id : EventID)
  /-- the cache drops a header -/
  | evictHeader (id : EventID)

/-- One operation; `none` is a fault. -/
def step (s : EventStore) : Op → Option EventStore
  | .setEvent e => s.setEvent H R e
  | .delEvent id => some (s.delEvent id)
  | .getEventPayload id => (s.getEventPayload H R id).map Prod.snd
  | .getEvent id => (s.getEvent H R id).map Prod.snd
  | .evictEvent id => some { s with cacheEvents := Function.update s.cacheEvents id none }
  | .evictHeader id => some { s with cacheHeaders := Function.update s.cacheHeaders id none }

/-- A run of operations. -/
def run (s : EventStore) : List Op → Option EventStore
  | [] => some s
  | op :: ops => do
    let s ← s.step H R op
    run s ops

/-- The store after a restart: the caches are empty. -/
def restart (s : EventStore) : EventStore := ⟨s.events, fun _ => none, fun _ => none⟩

/-! ## The caches agree with the table -/

variable {H R} {s : EventStore}

/-- The table can be read, and the caches hold what is read from it, up to the
cached size. -/
structure Coherent (H : Hashing) (R : Rlp) (s : EventStore) : Prop where
  fetched : ∀ id, ∃ o, s.fetch H R id = some o
  events : ∀ id e, s.cacheEvents id = some e → ∃ n, s.fetch H R id = some (some (e.resize n))
  headers : ∀ id e, s.cacheHeaders id = some e →
    ∃ w, s.fetch H R id = some (some w) ∧ w.event.event = e

theorem coherent_empty : Coherent H R empty where
  fetched _ := ⟨none, rfl⟩
  events _ _ h := by cases h
  headers _ _ h := by cases h

/-- What the table has depends on nothing else. -/
theorem fetch_congr {s s' : EventStore} {id : EventID} (h : s'.events id = s.events id) :
    s'.fetch H R id = s.fetch H R id := by
  rw [fetch, fetch, h]

/-- Putting what is in the table into the caches. -/
theorem Coherent.cache (hs : Coherent H R s) {id : EventID} {w : LoadedEvent} {n : ℕ}
    (hw : s.fetch H R id = some (some (w.resize n))) : Coherent H R (s.cache id w) where
  fetched := hs.fetched
  events id' e h := by
    by_cases hid : id' = id
    · subst hid
      simp only [EventStore.cache, Function.update_self, Option.some.injEq] at h
      exact ⟨n, h ▸ hw⟩
    · simp only [EventStore.cache, Function.update_of_ne hid] at h
      exact hs.events id' e h
  headers id' e h := by
    by_cases hid : id' = id
    · subst hid
      simp only [EventStore.cache, Function.update_self, Option.some.injEq] at h
      exact ⟨_, hw, h⟩
    · simp only [EventStore.cache, Function.update_of_ne hid] at h
      exact hs.headers id' e h

/-- Replacing or removing one entry of the table that is not cached. -/
theorem Coherent.update {s s' : EventStore} (hs : Coherent H R s) {id : EventID}
    {o : Option LoadedEvent} (hevents : ∀ id', id' ≠ id → s'.events id' = s.events id')
    (hfetch : s'.fetch H R id = some o)
    (hcache : ∀ id' e, s'.cacheEvents id' = some e → id' ≠ id ∧ s.cacheEvents id' = some e)
    (hheaders : ∀ id' e, s'.cacheHeaders id' = some e → id' ≠ id ∧ s.cacheHeaders id' = some e) :
    Coherent H R s' where
  fetched id' := by
    by_cases hid : id' = id
    · exact ⟨o, hid ▸ hfetch⟩
    · rw [fetch_congr (hevents id' hid)]
      exact hs.fetched id'
  events id' e h := by
    obtain ⟨hid, h⟩ := hcache id' e h
    rw [fetch_congr (hevents id' hid)]
    exact hs.events id' e h
  headers id' e h := by
    obtain ⟨hid, h⟩ := hheaders id' e h
    rw [fetch_congr (hevents id' hid)]
    exact hs.headers id' e h

theorem update_none_eq_some {α β : Type} [DecidableEq α] {f : α → Option β} {a a' : α} {b : β}
    (h : Function.update f a none a' = some b) : a' ≠ a ∧ f a' = some b := by
  by_cases ha : a' = a
  · rw [ha, Function.update_self] at h
    cases h
  · rw [Function.update_of_ne ha] at h
    exact ⟨ha, h⟩

theorem Coherent.delEvent (hs : Coherent H R s) (id : EventID) :
    Coherent H R (s.delEvent id) := by
  refine hs.update (o := none) (fun id' hid => Function.update_of_ne hid ..) ?_ ?_ ?_
  · simp only [fetch, EventStore.delEvent, Function.update_self]
  · exact fun id' e h => update_none_eq_some h
  · exact fun id' e h => update_none_eq_some h

/-- Setting an event that the table then gives back. -/
theorem Coherent.setEvent (hs : Coherent H R s) {e : LoadedEvent} {raw : List UInt8} {n : ℕ}
    (hraw : e.event.marshalBinary H = .ok raw) (hload : load H R (R.encode raw) = some (e.resize n))
    :
    ∃ s', s.setEvent H R e = some s' ∧ Coherent H R s' := by
  refine ⟨_, by rw [EventStore.setEvent, hraw], ?_⟩
  -- without the entries of the caches that are overwritten
  have hdropped : Coherent H R
      { s.delEvent e.event.id with
        events := Function.update s.events e.event.id (some (R.encode raw)) } := by
    refine hs.update (o := some (e.resize n)) (fun id' hid => Function.update_of_ne hid ..) ?_
      (fun id' e h => update_none_eq_some h) fun id' e h => update_none_eq_some h
    simp only [fetch, Function.update_self, hload, Option.map_some]
  have hstored : fetch H R
      { s.delEvent e.event.id with
        events := Function.update s.events e.event.id (some (R.encode raw)) } e.event.id =
      some (some (e.resize n)) := by
    simp only [fetch, Function.update_self, hload, Option.map_some]
  have hcached := hdropped.cache hstored
  simpa only [EventStore.cache, EventStore.delEvent, Function.update_idem] using hcached

/-- The same event, up to the cached size. -/
def SameEvent (e w : LoadedEvent) : Prop := ∃ n, w = e.resize n

/-- `GetEventPayload` returns what is in the table. -/
theorem Coherent.getEventPayload (hs : Coherent H R s) (id : EventID) :
    ∃ r s' o, s.getEventPayload H R id = some (r, s') ∧ Coherent H R s' ∧
      s.fetch H R id = some o ∧ Option.Rel SameEvent r o := by
  obtain ⟨o, ho⟩ := hs.fetched id
  rcases hcache : s.cacheEvents id with _ | e
  · rcases o with _ | w
    · exact ⟨none, s, none, by simp only [EventStore.getEventPayload, hcache, ho], hs, ho, .none⟩
    · exact ⟨some w, s.cache id w, some w, by simp only [EventStore.getEventPayload, hcache, ho],
        hs.cache (n := w.event.size) ho, ho, .some ⟨w.event.size, rfl⟩⟩
  · obtain ⟨n, hn⟩ := hs.events id e hcache
    exact ⟨some e, s, some (e.resize n), by simp only [EventStore.getEventPayload, hcache], hs, hn,
      .some ⟨n, rfl⟩⟩

theorem Coherent.getEvent (hs : Coherent H R s) (id : EventID) :
    ∃ r s', s.getEvent H R id = some (r, s') ∧ Coherent H R s' := by
  obtain ⟨o, ho⟩ := hs.fetched id
  rcases hcache : s.cacheHeaders id with _ | e
  · rcases o with _ | w
    · exact ⟨none, s, by simp only [EventStore.getEvent, hcache, ho], hs⟩
    · exact ⟨some w.event.event, s.cache id w, by simp only [EventStore.getEvent, hcache, ho],
        hs.cache (n := w.event.size) ho⟩
  · exact ⟨some e, s, by simp only [EventStore.getEvent, hcache], hs⟩

theorem Coherent.evictEvent (hs : Coherent H R s) (id : EventID) :
    Coherent H R { s with cacheEvents := Function.update s.cacheEvents id none } where
  fetched := hs.fetched
  events id' e h := hs.events id' e (update_none_eq_some h).2
  headers := hs.headers

theorem Coherent.evictHeader (hs : Coherent H R s) (id : EventID) :
    Coherent H R { s with cacheHeaders := Function.update s.cacheHeaders id none } where
  fetched := hs.fetched
  events := hs.events
  headers id' e h := hs.headers id' e (update_none_eq_some h).2

/-- The events that `saveAndProcessEvent` stores: accepted by the decoder and by
the checkers, with the hashes of their transactions fixed. -/
def Saved (X : External) (H : Hashing) (e : LoadedEvent) : Prop :=
  ∃ (raw : Slice) (e₀ : EventPayload) (v : Checkers) (parents : List Event),
    EventPayload.unmarshalBinary H raw = .ok e₀ ∧ ParentsOf e₀ parents ∧
    v.validate X H e₀ parents = .ok () ∧ fixEventTxHashes (LoadedEvent.fresh e₀) = some e

/-- What is loaded is what was saved, up to the size. -/
theorem load_of_saved (hX : X.ChecksLamport) (hR : R.RoundTrip) {e : LoadedEvent}
    (he : Saved X H e) :
    ∃ raw n, e.event.marshalBinary H = .ok raw ∧
      load H R (R.encode raw) = some (e.resize n) := by
  obtain ⟨raw, e₀, v, parents, hread, hparents, hvalid, hfix⟩ := he
  obtain ⟨raw', hraw', hlen, hback⟩ :=
    EventPayload.marshalBinary_of_writable hread (writable_of_validate hX hparents hvalid)
  refine ⟨raw', raw'.length, by rwa [event_of_fixEventTxHashes hfix], ?_⟩
  have hbound : raw'.length + ([] : List UInt8).length < 2 ^ 63 := by
    have := raw.bounded
    rw [List.length_nil]
    omega
  obtain ⟨s', hs', hdata⟩ := hR ⟨raw', [], hbound⟩
  rw [load, hs', Option.bind_eq_bind, Option.bind_some, hback s' hdata]
  exact (fixEventTxHashes_resize (LoadedEvent.fresh e₀) raw'.length).trans (by rw [hfix]; rfl)

/-- One operation neither faults nor breaks the invariant. -/
theorem Coherent.step (hs : Coherent H R s) (hX : X.ChecksLamport) (hR : R.RoundTrip) {op : Op}
    (hop : ∀ e, op = .setEvent e → Saved X H e) :
    ∃ s', s.step H R op = some s' ∧ Coherent H R s' := by
  cases op with
  | setEvent e =>
    obtain ⟨raw, n, hraw, hload⟩ := load_of_saved hX hR (hop e rfl)
    exact hs.setEvent hraw hload
  | delEvent id => exact ⟨_, rfl, hs.delEvent id⟩
  | getEventPayload id =>
    obtain ⟨r, s', -, hget, hs', -⟩ := hs.getEventPayload id
    exact ⟨s', by rw [EventStore.step, hget]; rfl, hs'⟩
  | getEvent id =>
    obtain ⟨r, s', hget, hs'⟩ := hs.getEvent id
    exact ⟨s', by rw [EventStore.step, hget]; rfl, hs'⟩
  | evictEvent id => exact ⟨_, rfl, hs.evictEvent id⟩
  | evictHeader id => exact ⟨_, rfl, hs.evictHeader id⟩

end EventStore

/-- What `rlp` puts in front of a byte string of a length. -/
def rlpHeader (n : ℕ) : List UInt8 :=
  if n ≤ 55 then [.ofNat (0x80 + n)]
  else .ofNat (0xb7 + (ByteNumber.toBE n).length) :: ByteNumber.toBE n

/-- A byte string in `rlp`; a small byte is its own. -/
def rlpString : List UInt8 → List UInt8
  | [x] => if x < 0x80 then [x] else [0x81, x]
  | b => rlpHeader b.length ++ b

/-- The byte string behind a header, which may not be the right one. -/
def rlpContent : List UInt8 → List UInt8
  | [] => []
  | x :: rest =>
    if x < 0x80 then [x] else if x ≤ 0xb7 then rest else rest.drop (x.toNat - 0xb7)

theorem rlpContent_header {s : List UInt8} (h : s.length < 2 ^ 63) :
    rlpContent (rlpHeader s.length ++ s) = s := by
  rw [rlpHeader]
  split
  · rw [List.singleton_append, rlpContent, if_neg, if_pos]
    · rw [UInt8.le_iff_toNat_le, UInt8.toNat_ofNat_of_lt' (show _ < 256 by omega)]
      exact Nat.add_le_add_left ‹_› 0x80
    · rw [UInt8.lt_iff_toNat_lt, UInt8.toNat_ofNat_of_lt' (show _ < 256 by omega)]
      exact Nat.not_lt.mpr (Nat.le_add_right ..)
  · have hlen : (ByteNumber.toBE s.length).length ≤ 8 := by
      rw [ByteNumber.length_toBE]
      exact ByteNumber.length_toLE_le (by omega)
    have hpos : 0 < (ByteNumber.toBE s.length).length := by
      refine List.length_pos_iff.mpr fun hnil => ?_
      have hzero := ByteNumber.ofBE_toBE s.length
      rw [hnil] at hzero
      have : s.length = 0 := hzero.symm
      omega
    have hx : (UInt8.ofNat (0xb7 + (ByteNumber.toBE s.length).length)).toNat = _ :=
      UInt8.toNat_ofNat_of_lt' (show _ < 256 by omega)
    rw [List.cons_append, rlpContent, if_neg, if_neg, hx, Nat.add_sub_cancel_left,
      List.drop_left]
    · rw [UInt8.le_iff_toNat_le, hx]
      exact Nat.not_le.mpr (Nat.lt_add_of_pos_right hpos)
    · rw [UInt8.lt_iff_toNat_lt, hx]
      exact Nat.not_lt.mpr (Nat.le_add_right_of_le (by decide))

/-- A byte string is behind its header. -/
theorem rlpContent_rlpString {s : List UInt8} (h : s.length < 2 ^ 63) :
    rlpContent (rlpString s) = s := by
  unfold rlpString
  split
  · split
    · exact if_pos ‹_›
    · rfl
  · exact rlpContent_header h

/-- `rlp` of byte strings; any other form is refused. -/
def sampleRlp : Rlp where
  encode := rlpString
  decode b :=
    if h : rlpString (rlpContent b) = b ∧ (rlpContent b).length + ([] : List UInt8).length < 2 ^ 63
    then some ⟨rlpContent b, [], h.2⟩ else none

theorem sampleRlp_roundTrip : sampleRlp.RoundTrip := by
  intro s
  have hlen := s.bounded
  have hcontent := rlpContent_rlpString (Nat.lt_of_le_of_lt (Nat.le_add_right ..) hlen)
  have hbound : (rlpContent (rlpString s.data)).length + ([] : List UInt8).length < 2 ^ 63 := by
    rw [hcontent, List.length_nil]
    omega
  exact ⟨_, dif_pos ⟨congrArg rlpString hcontent, hbound⟩, hcontent⟩

theorem sampleExternal_checksLamport : sampleExternal.ChecksLamport :=
  fun _ _ h => not_not.mp (refuse_eq_ok.mp h)

/-- The first event of the sample validator. -/
def startEvent : MutableEventPayload :=
  { blankEvent with
    epoch := 1
    lamport := 1
    creator := 1
    seq := 1
    frame := 1
    creationTime := 1
    medianTime := 1
    gasPowerUsed := 28000
    gasPowerLeft := ⟨![49000, 49000]⟩ }

/-- An event of the same validator that follows it, with a transfer. -/
def checkedEvent : MutableEventPayload :=
  { startEvent with
    lamport := 2
    seq := 2
    creationTime := 2
    gasPowerUsed := 49000
    gasPowerLeft := ⟨![0, 0]⟩
    parents := [(startEvent.build (copyBytes 32 []) 82).id]
    txHash := copyBytes 32 [1]
    txs := [{ nonce := 0, gas := 21000, gasPrice := 1000000000, value := 0,
              toAddress := some (copyBytes 20 [7]), data := [], v := 27, r := 5, s := 6,
              kind := .legacy }] }

/-- The bytes of the event. -/
def checkedBytes : List UInt8 :=
  [1, 2, 1, 2, 1, 2, 1, 0x68, 0xbf, 0, 0, 1, 1] ++ List.replicate 24 0 ++
    (1 :: List.replicate 95 0 ++ [1, 0, 8, 82, 4, 59, 154, 202, 0, 7]) ++ List.replicate 19 0 ++
    ([1, 27] ++ List.replicate 31 0) ++ (5 :: List.replicate 31 0 ++ [6])

/-- The event as it is sent: its bytes, then its bits. -/
def checkedRaw : Slice where
  data := checkedBytes ++ [0, 0, 2, 128, 8, 18, 68, 0] ++ [0x88]
  spare := []
  bounded := by decide +kernel

theorem unmarshalBinary_checkedRaw :
    MutableEventPayload.unmarshalBinary sampleHashing Decoder.lax checkedRaw =
      .ok checkedEvent := by
  refine unmarshalBinaryAdapter_eq_ok.mpr ⟨[0, 0, 2, 128, 8, 18, 68, 0], checkedBytes, 7, ?_,
    by decide, by decide, by decide +kernel⟩
  rw [pack, List.length_cons, compact, dif_pos (by decide)]
  rfl

/-- The parent of the event. -/
def checkedParent : Event := (startEvent.build (copyBytes 32 []) 82).event

theorem parentsOf_checkedEvent (h : Hash) (size : ℕ) :
    ParentsOf (checkedEvent.build h size) [checkedParent] :=
  ⟨rfl, fun p hp => by rw [List.mem_singleton.mp hp]; rfl⟩

/-- The event passes all the checks. -/
theorem validate_checkedEvent (h : Hash) (size : ℕ) :
    sampleCheckers.validate sampleExternal sampleHashing (checkedEvent.build h size)
      [checkedParent] = .ok () := by
  have hsizes : UInt32.ofNat 1 ≤ mainNetRules.dag.maxParents ∧
      UInt32.ofNat 0 ≤ mainNetRules.dag.maxExtraData := by decide
  have hgas : checkedEvent.gasPowerUsed ≤ mainNetRules.economy.gas.maxEventGas ∧
      checkedEvent.gasPowerUsed = Epochcheck.txsGas checkedEvent.txs + 0 +
        UInt64.ofNat 0 * mainNetRules.economy.gas.extraDataGas +
          mainNetRules.economy.gas.eventGas := by
    decide
  have hused : checkedEvent.gasPowerUsed < Basiccheck.maxInt64 - 1 ∧
      checkedEvent.gasPowerLeft.max < Basiccheck.maxInt64 - 1 := by decide
  have htime : 0 < checkedEvent.creationTime ∧ 0 < checkedEvent.medianTime := by decide
  have htxs : ∀ tx ∈ checkedEvent.txs, Basiccheck.validateTx tx = .ok () ∧
      Epochcheck.checkTx mainNetRules tx = .ok () := by decide
  have hbasic : Basiccheck.validate sampleExternal (checkedEvent.build h size) = .ok () :=
    Basiccheck.validate_eq_ok.mpr ⟨rfl, hused, htime, fun tx htx => (htxs tx htx).1⟩
  have hepoch : Epochcheck.validate sampleExternal mainNetRules 1 (checkedEvent.build h size) =
      .ok () :=
    Epochcheck.validate_eq_ok.mpr
      ⟨rfl, rfl, hsizes.1, hsizes.2, hgas, fun tx htx => (htxs tx htx).2⟩
  have hparents : Parentscheck.validate sampleExternal (checkedEvent.build h size).event
      [checkedParent] = .ok () := rfl
  have hpower : Gaspowercheck.validate sampleExternal sampleContext checkedEvent.toEventHeader
      (some checkedParent) = .ok () := rfl
  exact Checkers.validate_eq_ok.mpr ⟨hbasic, hepoch, hparents, ⟨some checkedParent, rfl, hpower⟩,
    rfl⟩

/-- The event is received and has passed the checks. -/
theorem exists_saved_checkedEvent :
    ∃ h, EventPayload.unmarshalBinary sampleHashing checkedRaw =
        .ok (checkedEvent.build h checkedRaw.data.length) ∧
      EventStore.Saved sampleExternal sampleHashing
        (.fresh (checkedEvent.build h checkedRaw.data.length)) := by
  obtain ⟨ser, hser⟩ := EventHeader.marshalBinary_ok (H := sampleHashing)
    (MutableEventPayload.encodable_of_unmarshalBinary unmarshalBinary_checkedRaw).header
    (by decide)
  have hread := EventPayload.unmarshalBinaryWith_of_header unmarshalBinary_checkedRaw hser
  exact ⟨_, hread, _, _, _, _, hread, parentsOf_checkedEvent _ _, validate_checkedEvent _ _, rfl⟩

end Zilionixx
