import Zilionixx.EventProcessing
import Zilionixx.FixedRecords
import Mathlib.Data.Finmap

/-!
# The store of an epoch

`gossip/store_epoch.go`, `store_heads.go` and `store_last_events.go`: the heads of the DAG, and the
last event of each validator. Both are kept in a cache, and a flush writes each to one entry of the
database, as sorted records one after the other. A new store on the database reads them again.

`none` is a panic: a slice out of range.
-/

namespace Zilionixx

open ByteNumber

namespace EventID

/-- `Bytes` -/
def bytes (id : EventID) : List UInt8 :=
  fixedBE 4 id.epoch.toNat ++ (fixedBE 4 id.lamport.toNat ++ id.tail.toList)

/-- `BytesToEvent` of 32 bytes -/
def ofBytes (b : List UInt8) : EventID where
  epoch := .ofNat (ofBE (b.take 4))
  lamport := .ofNat (ofBE ((b.drop 4).take 4))
  tail := copyBytes 24 (b.drop (4 + 4))

theorem length_fixedBE_toNat (n : UInt32) : (fixedBE 4 n.toNat).length = 4 :=
  length_fixedBE n.toNat_lt

@[simp] theorem length_bytes (id : EventID) : id.bytes.length = 32 := by
  rw [bytes, List.length_append, List.length_append, length_fixedBE_toNat, length_fixedBE_toNat,
    id.tail.toList_length]

/-- An ID is read back. -/
@[simp] theorem ofBytes_bytes (id : EventID) : ofBytes id.bytes = id := by
  have hepoch := length_fixedBE_toNat id.epoch
  have hlamport := length_fixedBE_toNat id.lamport
  rw [ofBytes, bytes, List.take_left' hepoch, ← List.drop_drop, List.drop_left' hepoch,
    List.take_left' hlamport, List.drop_left' hlamport, ofBE_fixedBE, ofBE_fixedBE,
    UInt32.ofNat_toNat, UInt32.ofNat_toNat, copyBytes_toList]

end EventID

/-- `map[idx.ValidatorID]hash.Event` -/
abbrev LastEvents := Finmap fun _ : ValidatorID => EventID

/-- A validator and its event, as they are stored. -/
def lastEventBytes (last : (_ : ValidatorID) × EventID) : List UInt8 :=
  fixedBE 4 last.1.toNat ++ last.2.bytes

/-- The validator and the event of a record: `BytesToValidatorID` and `BytesToEvent` -/
def lastEventOfBytes (b : List UInt8) : (_ : ValidatorID) × EventID :=
  ⟨.ofNat (ofBE (b.take 4)), EventID.ofBytes (b.drop 4)⟩

/-- `epochStore` -/
structure EpochStore where
  epoch : UInt32
  /-- `table.Heads`, which has one entry -/
  tableHeads : Option (List UInt8)
  /-- `table.LastEvents`, which has one entry -/
  tableLastEvents : Option (List UInt8)
  /-- `cache.Heads` -/
  cacheHeads : Option (Finset EventID)
  /-- `cache.LastEvents` -/
  cacheLastEvents : Option LastEvents

namespace EpochStore

/-- `loadHeads` -/
def loadHeads (es : EpochStore) : Option (Finset EventID) :=
  match es.tableHeads with
  | none => some ∅
  | some b => (FixedRecords.split 32 b.length b).map fun heads =>
    heads.foldl (fun res head => insert (EventID.ofBytes head) res) ∅

/-- `GetHeads` -/
def getHeads (es : EpochStore) : Option (Finset EventID × EpochStore) :=
  match es.cacheHeads with
  | some cached => some (cached, es)
  | none => es.loadHeads.map fun heads => (heads, { es with cacheHeads := some heads })

/-- `SetHeads` -/
def setHeads (es : EpochStore) (ids : Finset EventID) : EpochStore :=
  { es with cacheHeads := some ids }

/-- `FlushHeads`, which sorts the IDs -/
def flushHeads (es : EpochStore) : EpochStore :=
  match es.cacheHeads with
  | none => es
  | some ids => { es with tableHeads := some (FixedRecords.pack (ids.val.map EventID.bytes)) }

/-- `loadLastEvents` -/
def loadLastEvents (es : EpochStore) : Option LastEvents :=
  match es.tableLastEvents with
  | none => some ∅
  | some b => (FixedRecords.split (32 + 4) b.length b).map fun lasts =>
    lasts.foldl (fun res last => res.insert (lastEventOfBytes last).1 (lastEventOfBytes last).2) ∅

/-- `GetLastEvents` -/
def getLastEvents (es : EpochStore) : Option (LastEvents × EpochStore) :=
  match es.cacheLastEvents with
  | some cached => some (cached, es)
  | none => es.loadLastEvents.map fun lasts => (lasts, { es with cacheLastEvents := some lasts })

/-- `SetLastEvents` -/
def setLastEvents (es : EpochStore) (ids : LastEvents) : EpochStore :=
  { es with cacheLastEvents := some ids }

/-- `FlushLastEvents`, which sorts the records -/
def flushLastEvents (es : EpochStore) : EpochStore :=
  match es.cacheLastEvents with
  | none => es
  | some lasts =>
    { es with tableLastEvents := some (FixedRecords.pack (lasts.entries.map lastEventBytes)) }

/-- The part of `Commit` for the store. -/
def flush (es : EpochStore) : EpochStore := es.flushHeads.flushLastEvents

/-- `newEpochStore` on a database, which has the two tables -/
def newEpochStore (epoch : UInt32) (tableHeads tableLastEvents : Option (List UInt8)) :
    Option EpochStore := do
  let es : EpochStore := ⟨epoch, tableHeads, tableLastEvents, none, none⟩
  -- load the cache to avoid a race condition
  let (_, es) ← es.getHeads
  let (_, es) ← es.getLastEvents
  pure es

/-- A new store on the same database. -/
def reload (es : EpochStore) : Option EpochStore :=
  newEpochStore es.epoch es.tableHeads es.tableLastEvents

/-- A store on an empty database. -/
def fresh (epoch : UInt32) : EpochStore := ⟨epoch, none, none, some ∅, some ∅⟩

/-- `processEventHeads` -/
def processEventHeads (heads : Finset EventID) (e : EventPayload) : Finset EventID :=
  insert e.id (heads \ e.parents.toFinset)

/-- `processLastEvent` -/
def processLastEvent (lasts : LastEvents) (e : EventPayload) : LastEvents :=
  lasts.insert e.creator e.id

/-- What `processEvent` does to the store. -/
def connect (es : EpochStore) (e : EventPayload) : Option EpochStore := do
  let (heads, es) ← es.getHeads
  let es := es.setHeads (processEventHeads heads e)
  let (lasts, es) ← es.getLastEvents
  pure (es.setLastEvents (processLastEvent lasts e))

/-! ## Flush and reload -/

/-- The caches hold the heads and the last events. -/
structure Holds (es : EpochStore) (heads : Finset EventID) (lasts : LastEvents) : Prop where
  heads : es.cacheHeads = some heads
  lasts : es.cacheLastEvents = some lasts

variable {es : EpochStore} {heads : Finset EventID} {lasts : LastEvents}

/-- Heads and last events follow the event. -/
theorem Holds.connect (h : es.Holds heads lasts) (e : EventPayload) :
    ∃ es', es.connect e = some es' ∧ es'.epoch = es.epoch ∧
      es'.Holds (processEventHeads heads e) (processLastEvent lasts e) := by
  refine ⟨(es.setHeads (processEventHeads heads e)).setLastEvents (processLastEvent lasts e), ?_,
    rfl, rfl, rfl⟩
  simp only [EpochStore.connect, getHeads, h.heads, Option.bind_eq_bind, Option.bind_some, setHeads,
    getLastEvents, h.lasts]
  rfl

/-- Flushing changes nothing that is read. -/
theorem Holds.flush (h : es.Holds heads lasts) : es.flush.Holds heads lasts := by
  have hheads : es.flushHeads.cacheHeads = some heads := by rw [flushHeads, h.heads]
  have hlasts : es.flushHeads.cacheLastEvents = some lasts := by
    rw [flushHeads, h.heads]
    exact h.lasts
  rw [EpochStore.flush, flushLastEvents, hlasts]
  exact ⟨hheads, rfl⟩

theorem flush_epoch (es : EpochStore) : es.flush.epoch = es.epoch := by
  rw [EpochStore.flush, flushHeads, flushLastEvents]
  split <;> split <;> rfl

/-- The two indexes are flushed apart from each other. -/
theorem flush_tables (es : EpochStore) :
    es.flush.tableHeads = es.flushHeads.tableHeads ∧
      es.flush.tableLastEvents = es.flushLastEvents.tableLastEvents := by
  rw [EpochStore.flush, flushHeads, flushLastEvents, flushLastEvents]
  split <;> split <;> simp_all

theorem loadHeads_congr {es' : EpochStore} (h : es'.tableHeads = es.tableHeads) :
    es'.loadHeads = es.loadHeads := by
  rw [loadHeads, loadHeads, h]

theorem loadLastEvents_congr {es' : EpochStore} (h : es'.tableLastEvents = es.tableLastEvents) :
    es'.loadLastEvents = es.loadLastEvents := by
  rw [loadLastEvents, loadLastEvents, h]

theorem foldl_insert_ofBytes (records : List (List UInt8)) (res : Finset EventID) :
    records.foldl (fun res head => insert (EventID.ofBytes head) res) res =
      res ∪ (records.map EventID.ofBytes).toFinset := by
  induction records generalizing res with
  | nil => simp
  | cons r records ih =>
    rw [List.foldl_cons, ih, List.map_cons, List.toFinset_cons, Finset.insert_union,
      Finset.union_insert]

/-- The heads are read as they were written. -/
theorem loadHeads_flushHeads (h : es.cacheHeads = some heads) :
    es.flushHeads.loadHeads = some heads := by
  have hlen : ∀ r ∈ heads.val.map EventID.bytes, r.length = 32 := by
    intro r hr
    obtain ⟨id, -, rfl⟩ := Multiset.mem_map.mp hr
    exact id.length_bytes
  have hsplit := FixedRecords.split_pack (by decide) hlen
  rw [loadHeads, flushHeads, h]
  simp only [hsplit, Option.map_some, foldl_insert_ofBytes, Finset.empty_union]
  congr 1
  ext id
  simp only [List.mem_toFinset, List.mem_map, Multiset.mem_sort, Multiset.mem_map, Finset.mem_val]
  refine ⟨?_, fun hid => ⟨id.bytes, ⟨id, hid, rfl⟩, id.ofBytes_bytes⟩⟩
  rintro ⟨b, ⟨id', hid', rfl⟩, hb⟩
  rw [id'.ofBytes_bytes] at hb
  exact hb ▸ hid'

/-- The map of a list of entries with different keys. -/
theorem lookup_foldl_insert {entries : List ((_ : ValidatorID) × EventID)} (h : entries.NodupKeys)
    (res : LastEvents) (vid : ValidatorID) :
    (entries.foldl (fun res last => res.insert last.1 last.2) res).lookup vid =
      (entries.dlookup vid).or (res.lookup vid) := by
  induction entries generalizing res with
  | nil => simp
  | cons last entries ih =>
    obtain ⟨vid', id⟩ := last
    obtain ⟨hnot, hrest⟩ := List.nodupKeys_cons.mp h
    rw [List.foldl_cons, ih hrest]
    by_cases hvid : vid = vid'
    · subst hvid
      rw [List.dlookup_cons_eq, Finmap.lookup_insert, List.dlookup_eq_none.mpr hnot]
      rfl
    · rw [List.dlookup_cons_ne _ _ hvid, Finmap.lookup_insert_of_ne _ hvid]

theorem lastEventOfBytes_bytes (last : (_ : ValidatorID) × EventID) :
    lastEventOfBytes (lastEventBytes last) = last := by
  have hlen := EventID.length_fixedBE_toNat last.1
  rw [lastEventOfBytes, lastEventBytes, List.take_left' hlen, List.drop_left' hlen, ofBE_fixedBE,
    UInt32.ofNat_toNat, EventID.ofBytes_bytes]

/-- The last events are read as they were written. -/
theorem loadLastEvents_flushLastEvents (h : es.cacheLastEvents = some lasts) :
    es.flushLastEvents.loadLastEvents = some lasts := by
  have hlen : ∀ r ∈ lasts.entries.map lastEventBytes, r.length = 32 + 4 := by
    intro r hr
    obtain ⟨last, -, rfl⟩ := Multiset.mem_map.mp hr
    rw [lastEventBytes, List.length_append, EventID.length_fixedBE_toNat, EventID.length_bytes]
  have hsplit := FixedRecords.split_pack (by decide) hlen
  rw [loadLastEvents, flushLastEvents, h]
  simp only [hsplit, Option.map_some, Option.some.injEq]
  generalize hrecords : (lasts.entries.map lastEventBytes).sort (· ≤ ·) = records
  have hentries : (records.map lastEventOfBytes : Multiset _) = lasts.entries := by
    rw [← Multiset.map_coe, ← hrecords, Multiset.sort_eq, Multiset.map_map]
    simp [lastEventOfBytes_bytes]
  have hnodup : (records.map lastEventOfBytes).NodupKeys :=
    Multiset.coe_nodupKeys.mp (hentries ▸ lasts.nodupKeys)
  refine Finmap.ext_lookup fun vid => ?_
  have hfold := lookup_foldl_insert hnodup ∅ vid
  rw [List.foldl_map, Finmap.lookup_empty, Option.or_none] at hfold
  rw [hfold]
  refine Option.ext fun id => ?_
  rw [← Option.mem_def, ← Option.mem_def, List.mem_dlookup_iff hnodup, Finmap.mem_lookup_iff,
    ← hentries, Multiset.mem_coe]

/-- Flushing and reloading gives back the heads and the last events. -/
theorem Holds.reload_flush (h : es.Holds heads lasts) :
    ∃ es', es.flush.reload = some es' ∧ es'.epoch = es.epoch ∧ es'.Holds heads lasts := by
  have hheads :
      loadHeads ⟨es.flush.epoch, es.flush.tableHeads, es.flush.tableLastEvents, none, none⟩ =
      some heads :=
    (loadHeads_congr (flush_tables es).1).trans (loadHeads_flushHeads h.heads)
  have hlasts : loadLastEvents
      ⟨es.flush.epoch, es.flush.tableHeads, es.flush.tableLastEvents, some heads, none⟩ =
      some lasts :=
    (loadLastEvents_congr (flush_tables es).2).trans (loadLastEvents_flushLastEvents h.lasts)
  refine ⟨⟨es.flush.epoch, es.flush.tableHeads, es.flush.tableLastEvents, some heads, some lasts⟩,
    ?_, flush_epoch es, rfl, rfl⟩
  simp only [reload, newEpochStore, getHeads, hheads, Option.map_some, Option.bind_eq_bind,
    Option.bind_some, getLastEvents, hlasts]
  rfl

end EpochStore

end Zilionixx
