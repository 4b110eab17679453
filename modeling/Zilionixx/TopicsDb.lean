import Zilionixx.KvTable
import Zilionixx.Transaction
import Mathlib.Data.List.Count

/-!
# The index of logs

`topicsdb`: each log is stored under an ID of its block number, transaction hash and index, and
each of its topics, with its position and the ID, is a key of another table. The address is the
topic at position 0. A search walks over the keys for the first position of the pattern that is
not a wildcard, and looks up the keys for the later positions.

The tables are those of the database, with its iterators. There is no I/O error, and the
context is not cancelled. `none` is a panic.
-/

namespace Zilionixx

open ByteNumber

/-- `Hash` of an address -/
def Address.toHash (a : Address) : Hash :=
  ⟨List.replicate 12 0 ++ a.toList,
    by rw [List.length_append, List.length_replicate, a.toList_length]⟩

namespace Topicsdb

/-- `types.Log`, as far as the index stores it. -/
structure Log where
  blockNumber : UInt64
  txHash : Hash
  index : UInt64
  topics : List Hash
  blockHash : Hash
  address : Address
  data : List UInt8
  deriving DecidableEq

/-! ## Keys -/

/-- `MaxTopicsCount` -/
def maxTopicsCount : ℕ := 255

/-- A block number, a transaction hash and an index. -/
def logrecKeySize : ℕ := 8 + 32 + 8

/-- A topic, its position and a record ID. -/
def topicKeySize : ℕ := 32 + 1 + logrecKeySize

/-- `ID` of a log record -/
abbrev ID := List.Vector UInt8 logrecKeySize

/-- `uintToBytes`: big endian, in 8 bytes -/
def uintToBytes (n : UInt64) : List UInt8 := fixedBE 8 n.toNat

/-- `bytesToUint`, of as many bytes as there are -/
def bytesToUint (b : List UInt8) : UInt64 := .ofNat (ofBE b)

/-- `NewID` -/
def newID (block : UInt64) (tx : Hash) (logIndex : UInt64) : ID :=
  copyBytes logrecKeySize (uintToBytes block ++ tx.toList ++ uintToBytes logIndex)

namespace ID

/-- `BlockNumber` -/
def blockNumber (id : ID) : UInt64 := bytesToUint (id.toList.take 8)

/-- `TxHash` -/
def txHash (id : ID) : Hash := copyBytes 32 ((id.toList.drop 8).take 32)

/-- `Index` -/
def index (id : ID) : UInt64 := bytesToUint ((id.toList.drop (8 + 32)).take 8)

end ID

/-- `topicKey` -/
def topicKey (topic : Hash) (pos : UInt8) (logrec : ID) : List UInt8 :=
  topic.toList ++ [pos] ++ logrec.toList

/-- `extractLogrecID` -/
def extractLogrecID (key : List UInt8) : Option ID :=
  if key.length = topicKeySize then some (copyBytes logrecKeySize (key.drop (32 + 1))) else none

/-! ## `Push` -/

/-- `Index` -/
structure Index where
  /-- topic+topicN+(blockN+TxHash+logIndex) -> topic_count (where topicN=0 is for address) -/
  topic : KvTable UInt8 (List UInt8)
  /-- (blockN+TxHash+logIndex) -> ordered topic_count topics, blockHash, address, data -/
  logrec : KvTable UInt8 (List UInt8)

/-- `New`, on an empty database -/
def Index.new : Index := ⟨.empty, .empty⟩

/-- The calls of `pushIndex`, which count `pos`. -/
def pushIndex (id : ID) (count : List UInt8) :
    List Hash → UInt8 → KvTable UInt8 (List UInt8) → KvTable UInt8 (List UInt8)
  | [], _, t => t
  | topic :: topics, pos, t => pushIndex id count topics (pos + 1)
      (t.put (topicKey topic pos id) count)

namespace Log

/-- The key of the record. -/
def id (rec : Log) : ID := newID rec.blockNumber rec.txHash rec.index

/-- The topics that are stored: "to don't overflow the pos" -/
def storedTopics (rec : Log) : List Hash := rec.topics.take maxTopicsCount

/-- The record that is stored. -/
def buf (rec : Log) : List UInt8 :=
  (rec.storedTopics.map List.Vector.toList).flatten ++ rec.blockHash.toList ++ rec.address.toList ++
    rec.data

end Log

namespace Index

/-- The body of the loop in `Push`. -/
def pushLog (tt : Index) (rec : Log) : Index where
  topic := pushIndex rec.id [.ofNat rec.topics.length]
    (rec.address.toHash :: rec.storedTopics) 0 tt.topic
  logrec := tt.logrec.put rec.id.toList rec.buf

/-- `Push` -/
def push (tt : Index) (recs : List Log) : Index := recs.foldl pushLog tt

end Index

/-! ## The search -/

/-- `logrec` -/
structure Logrec where
  id : ID
  topicsCount : UInt8

/-- The loop of `fetch` over the topics: the hashes at the start of a buffer, and the rest of it. -/
def readTopics : ℕ → List UInt8 → Option (List Hash × List UInt8)
  | 0, buf => some ([], buf)
  | n + 1, buf =>
    if buf.length < 32 then none
    else do
      let (topics, rest) ← readTopics n (buf.drop 32)
      pure (copyBytes 32 (buf.take 32) :: topics, rest)

/-- `fetch` -/
def Logrec.fetch (rec : Logrec) (logrecTable : KvTable UInt8 (List UInt8)) : Option Log := do
  let buf ← logrecTable.get rec.id.toList
  let (topics, buf) ← readTopics rec.topicsCount.toNat buf
  if buf.length < 32 + 20 then none
  else
    pure {
      blockNumber := rec.id.blockNumber
      txHash := rec.id.txHash
      index := rec.id.index
      topics := topics
      blockHash := copyBytes 32 (buf.take 32)
      address := copyBytes 20 ((buf.drop 32).take 20)
      data := buf.drop (32 + 20) }

/-- A loop that ends early when its body says so; the flag is `gonext`. -/
def forEach {α σ : Type} (body : α → σ → Option (Bool × σ)) : List α → σ → Option (Bool × σ)
  | [], s => some (true, s)
  | a :: as, s => do
    let (gonext, s) ← body a s
    if gonext then forEach body as s else pure (false, s)

/-- `posToBytes` -/
def posToBytes (pos : UInt8) : List UInt8 := [pos]

namespace Index

variable (tt : Index) {σ : Type} (onMatched : Logrec → σ → Option (Bool × σ))
  (pattern : List (List Hash))

/-- `patternLen` -/
def patternLen : UInt8 := .ofNat pattern.length

/-- `walkNexts`, as long as there is fuel. -/
def walkNexts (rec : Logrec) : ℕ → UInt8 → σ → Option (Bool × σ)
  | 0, _, _ => none
  | fuel + 1, pos, s =>
    if pos ≥ patternLen pattern then onMatched rec s
    else do
      let variants ← pattern[pos.toNat]?
      if variants.length < 1 then walkNexts rec fuel (pos + 1) s
      else
        forEach (fun variant =>
          forEach (fun _ => walkNexts rec fuel (pos + 1))
            (tt.topic.iterate (topicKey variant pos rec.id) [])) variants s

/-- The keys of a variant in `walkFirst`. -/
def walkKeys (blockStart : Option (List UInt8)) (blockEnd : UInt64)
    (next : Logrec → σ → Option (Bool × σ)) :
    List (List UInt8 × List UInt8) → σ → Option (Bool × σ)
  | [], s => some (true, s)
  | (key, value) :: entries, s => do
    let topicCount ← value.head?
    if topicCount < patternLen pattern - 1 then walkKeys blockStart blockEnd next entries s
    else
      let id ← extractLogrecID key
      if blockStart.isSome ∧ id.blockNumber > blockEnd then pure (true, s)
      else
        let (gonext, s) ← next ⟨id, topicCount⟩ s
        if gonext then walkKeys blockStart blockEnd next entries s else pure (false, s)

/-- `walkFirst`, as long as there is fuel. -/
def walkFirst (blockStart : Option (List UInt8)) (blockEnd : UInt64) :
    ℕ → UInt8 → σ → Option (Bool × σ)
  | 0, _, _ => none
  | fuel + 1, pos, s =>
    if pos ≥ patternLen pattern then pure (true, s)
    else do
      let variants ← pattern[pos.toNat]?
      if variants.length < 1 then walkFirst blockStart blockEnd fuel (pos + 1) s
      else
        forEach (fun variant =>
          walkKeys pattern blockStart blockEnd
            (fun rec => tt.walkNexts onMatched pattern rec fuel (pos + 1))
            (tt.topic.iterate (variant.toList ++ posToBytes pos) (blockStart.getD []))) variants s

/-- `searchLazy` -/
def searchLazy (blockStart : Option (List UInt8)) (blockEnd : UInt64) (s : σ) : Option (Bool × σ) :=
  tt.walkFirst onMatched pattern blockStart blockEnd (maxTopicsCount + 1) 0 s

end Index

/-- The errors of a search. -/
inductive SearchError where
  /-- `ErrEmptyTopics`: "Empty topics" -/
  | emptyTopics
  deriving DecidableEq

/-- `limitPattern` -/
def limitPattern (pattern : List (List Hash)) : Except SearchError (List (List Hash)) :=
  let limited := pattern.take maxTopicsCount
  if limited.any fun variants => variants.length > 0 then .ok limited else .error .emptyTopics

namespace Index

variable (tt : Index) {σ : Type}

/-- `ForEachInBlocks`; `onLog` says whether to go on. -/
def forEachInBlocks (first last : UInt64) (pattern : List (List Hash)) (onLog : Log → σ → Bool × σ)
    (s : σ) : Except (Fault SearchError) σ :=
  if first > last then .ok s
  else
    match limitPattern pattern with
    | .error err => .error (.error err)
    | .ok pattern =>
      let onMatched := fun (rec : Logrec) s => (rec.fetch tt.logrec).map (onLog · s)
      match tt.searchLazy onMatched pattern (some (uintToBytes first)) last s with
      | none => .error .panic
      | some (_, s) => .ok s

/-- `FindInBlocks` -/
def findInBlocks (first last : UInt64) (pattern : List (List Hash)) :
    Except (Fault SearchError) (List Log) :=
  tt.forEachInBlocks first last pattern (fun l logs => (true, logs ++ [l])) []

end Index

/-! ## Keys -/

@[simp] theorem length_uintToBytes (n : UInt64) : (uintToBytes n).length = 8 :=
  length_fixedBE n.toNat_lt

/-- Eight bytes hold a number. -/
@[simp] theorem bytesToUint_uintToBytes (n : UInt64) : bytesToUint (uintToBytes n) = n := by
  rw [bytesToUint, uintToBytes, ofBE_fixedBE, UInt64.ofNat_toNat]

/-- The bytes of numbers are ordered as the numbers. -/
theorem uintToBytes_lt {m n : UInt64} : uintToBytes m < uintToBytes n ↔ m < n := by
  rw [lt_iff_ofBE_lt (by simp), uintToBytes, uintToBytes, ofBE_fixedBE, ofBE_fixedBE,
    UInt64.lt_iff_toNat_lt]

theorem uintToBytes_inj {m n : UInt64} : uintToBytes m = uintToBytes n ↔ m = n := by
  refine ⟨fun h => ?_, congrArg _⟩
  rw [← bytesToUint_uintToBytes m, h, bytesToUint_uintToBytes]

/-- The parts of an ID follow each other. -/
theorem toList_newID (block : UInt64) (tx : Hash) (logIndex : UInt64) :
    (newID block tx logIndex).toList =
      uintToBytes block ++ (tx.toList ++ uintToBytes logIndex) := by
  rw [newID, toList_copyBytes, List.append_assoc]
  simp [logrecKeySize]

namespace Log

variable (l : Log)

theorem toList_id :
    l.id.toList = uintToBytes l.blockNumber ++ (l.txHash.toList ++ uintToBytes l.index) :=
  toList_newID _ _ _

@[simp] theorem blockNumber_id : l.id.blockNumber = l.blockNumber := by
  rw [ID.blockNumber, toList_id, List.take_left' (by simp), bytesToUint_uintToBytes]

@[simp] theorem txHash_id : l.id.txHash = l.txHash := by
  rw [ID.txHash, toList_id, List.drop_left' (by simp), List.take_left' (by simp), copyBytes_toList]

@[simp] theorem index_id : l.id.index = l.index := by
  rw [ID.index, toList_id, ← List.append_assoc, List.drop_left' (by simp),
    List.take_of_length_le (by simp), bytesToUint_uintToBytes]

end Log

/-- All keys of the index have one length. -/
@[simp] theorem length_topicKey (topic : Hash) (pos : UInt8) (id : ID) :
    (topicKey topic pos id).length = topicKeySize := by
  rw [topicKey, List.length_append, List.length_append, topic.toList_length, id.toList_length]
  rfl

/-- A key has one topic, position and record. -/
theorem topicKey_inj {topic topic' : Hash} {pos pos' : UInt8} {id id' : ID}
    (h : topicKey topic pos id = topicKey topic' pos' id') :
      topic = topic' ∧ pos = pos' ∧ id = id' := by
  obtain ⟨hfront, hid⟩ := List.append_inj' h (by simp)
  obtain ⟨htopic, hpos⟩ := List.append_inj' hfront rfl
  exact ⟨List.Vector.eq _ _ htopic, (List.cons.inj hpos).1, List.Vector.eq _ _ hid⟩

/-- The record is found from the key. -/
theorem extractLogrecID_topicKey (topic : Hash) (pos : UInt8) (id : ID) :
    extractLogrecID (topicKey topic pos id) = some id := by
  rw [extractLogrecID, if_pos (length_topicKey topic pos id), topicKey, List.drop_left' (by simp),
    copyBytes_toList]

/-- Keys of one topic and position are ordered by the blocks. -/
theorem blockNumber_le_of_topicKey_lt {topic : Hash} {pos : UInt8} {l l' : Log}
    (h : topicKey topic pos l.id < topicKey topic pos l'.id) : l.blockNumber ≤ l'.blockNumber := by
  rw [topicKey, topicKey, KvTable.append_lt_append_left, l.toList_id, l'.toList_id,
    KvTable.append_lt_append (by simp), uintToBytes_lt, uintToBytes_inj] at h
  rcases h with h | ⟨h, -⟩
  · exact UInt64.le_of_lt h
  · exact UInt64.le_of_eq h

/-- The keys from a start block on. -/
theorem start_le_topicKey {topic : Hash} {pos : UInt8} {first : UInt64} {l : Log} :
    topic.toList ++ posToBytes pos ++ uintToBytes first ≤ topicKey topic pos l.id ↔
      first ≤ l.blockNumber := by
  rw [← List.not_lt, ← UInt64.not_lt, topicKey, posToBytes, KvTable.append_lt_append_left,
    l.toList_id,
    ← List.append_nil (uintToBytes first), KvTable.append_lt_append (by simp), uintToBytes_lt]
  simp [List.not_lt_nil]

/-! ## What the index holds -/

/-- The keys of topics from a position on. -/
def topicKeys (id : ID) : List Hash → UInt8 → List (List UInt8)
  | [], _ => []
  | topic :: topics, pos => topicKey topic pos id :: topicKeys id topics (pos + 1)

/-- Each topic gets one key, and other keys stay. -/
theorem get_pushIndex (id : ID) (count : List UInt8) (topics : List Hash) (pos : UInt8)
    (t : KvTable UInt8 (List UInt8)) (key : List UInt8) :
    (pushIndex id count topics pos t).get key =
      if key ∈ topicKeys id topics pos then some count else t.get key := by
  induction topics generalizing pos t with
  | nil => rw [pushIndex, topicKeys, if_neg List.not_mem_nil]
  | cons topic topics ih =>
    rw [pushIndex, ih, KvTable.get_put, topicKeys]
    by_cases hlater : key ∈ topicKeys id topics (pos + 1)
    · rw [if_pos hlater, if_pos (List.mem_cons_of_mem _ hlater)]
    · simp [hlater]

/-- The keys of a record, by position. -/
theorem mem_topicKeys {id : ID} {topics : List Hash} {pos : UInt8} {key : List UInt8} :
    key ∈ topicKeys id topics pos ↔
      ∃ n v, topics[n]? = some v ∧ key = topicKey v (pos + .ofNat n) id := by
  induction topics generalizing pos with
  | nil => simp [topicKeys]
  | cons topic topics ih =>
    have hnext : ∀ n, pos + 1 + UInt8.ofNat n = pos + .ofNat (n + 1) := fun n => by
      rw [UInt8.add_assoc, UInt8.add_comm 1, UInt8.ofNat_add]
      rfl
    have hzero : pos + UInt8.ofNat 0 = pos := UInt8.add_zero pos
    rw [topicKeys, List.mem_cons, ih]
    refine ⟨?_, ?_⟩
    · rintro (rfl | ⟨n, v, hv, rfl⟩)
      · exact ⟨0, topic, rfl, by rw [hzero]⟩
      · exact ⟨n + 1, v, hv, by rw [hnext]⟩
    · rintro ⟨n, v, hv, rfl⟩
      cases n with
      | zero =>
        cases hv
        exact .inl (congrArg (topicKey topic · id) hzero)
      | succ n => exact .inr ⟨n, v, hv, by rw [hnext]⟩

namespace Log

/-- The topic at a position, where the address is at 0. -/
def topicAt (l : Log) (pos : ℕ) : Option Hash := (l.address.toHash :: l.topics)[pos]?

/-- The keys of a log. -/
def keys (l : Log) : List (List UInt8) := topicKeys l.id (l.address.toHash :: l.storedTopics) 0

/-- A log with topics for which there are positions. -/
def Storable (l : Log) : Prop := l.topics.length ≤ maxTopicsCount

variable {l : Log}

theorem Storable.storedTopics_eq (h : l.Storable) : l.storedTopics = l.topics :=
  List.take_of_length_le h

theorem lt_of_topicAt {pos : ℕ} {v : Hash} (h : l.topicAt pos = some v) :
    pos < l.topics.length + 1 :=
  (List.getElem?_eq_some_iff.mp h).1

/-- A position fits its byte. -/
theorem Storable.lt_of_topicAt (h : l.Storable) {pos : ℕ} {v : Hash} (hv : l.topicAt pos = some v) :
    pos < 256 := by
  have hlt := Log.lt_of_topicAt hv
  have hle : l.topics.length ≤ 255 := h
  omega

/-- A key is written just for the topic at its position. -/
theorem Storable.mem_keys (h : l.Storable) {v : Hash} {pos : UInt8} {id : ID} :
    topicKey v pos id ∈ l.keys ↔ l.id = id ∧ l.topicAt pos.toNat = some v := by
  rw [keys, mem_topicKeys, h.storedTopics_eq]
  refine ⟨?_, ?_⟩
  · rintro ⟨n, v', hv, heq⟩
    obtain ⟨rfl, rfl, rfl⟩ := topicKey_inj heq
    have hn : n < 256 := h.lt_of_topicAt hv
    rw [UInt8.zero_add, UInt8.toNat_ofNat_of_lt' hn]
    exact ⟨rfl, hv⟩
  · rintro ⟨rfl, hv⟩
    exact ⟨pos.toNat, v, hv, by rw [UInt8.ofNat_toNat, UInt8.zero_add]⟩

theorem exists_of_mem_keys {key : List UInt8} (h : key ∈ l.keys) :
    ∃ v pos, key = topicKey v pos l.id := by
  obtain ⟨n, v, -, rfl⟩ := mem_topicKeys.mp h
  exact ⟨v, _, rfl⟩

end Log

namespace Index

/-- The index holds logs, and nothing else. -/
structure Holds (tt : Index) (logs : List Log) : Prop where
  /-- they have different IDs -/
  distinct : (logs.map Log.id).Nodup
  storable : ∀ l ∈ logs, l.Storable
  topic : ∀ key value, tt.topic.get key = some value ↔
    ∃ l ∈ logs, key ∈ l.keys ∧ value = [.ofNat l.topics.length]
  logrec : ∀ l ∈ logs, tt.logrec.get l.id.toList = some l.buf

/-- An empty index has no logs. -/
theorem holds_new : new.Holds [] where
  distinct := List.nodup_nil
  storable := by simp
  topic := by simp [new, KvTable.empty, KvTable.get]
  logrec := by simp

/-- A log with a new ID is added to those that are held. -/
theorem Holds.pushLog {tt : Index} {logs : List Log} (h : tt.Holds logs) {l : Log} (hl : l.Storable)
    (hnew : l.id ∉ logs.map Log.id) : (tt.pushLog l).Holds (logs ++ [l]) where
  distinct := by
    rw [List.map_append, List.nodup_append]
    refine ⟨h.distinct, List.nodup_singleton _, ?_⟩
    rintro id hid id' hid' rfl
    obtain rfl := List.mem_singleton.mp hid'
    exact hnew hid
  storable := by
    simp only [List.mem_append, List.mem_singleton]
    rintro l' (hl' | rfl)
    · exact h.storable l' hl'
    · exact hl
  topic key value := by
    have hget : (tt.pushLog l).topic.get key =
        if key ∈ l.keys then some [.ofNat l.topics.length] else tt.topic.get key :=
      get_pushIndex _ _ _ _ _ _
    rw [hget]
    by_cases hkey : key ∈ l.keys
    · rw [if_pos hkey, Option.some.injEq]
      refine ⟨fun hvalue => ⟨l, by simp, hkey, hvalue.symm⟩, ?_⟩
      rintro ⟨l', hl', hkey', rfl⟩
      rcases List.mem_append.mp hl' with hl' | hl'
      · -- another log has no key with this ID
        obtain ⟨v, pos, rfl⟩ := Log.exists_of_mem_keys hkey'
        obtain ⟨v', pos', heq⟩ := Log.exists_of_mem_keys hkey
        refine absurd ?_ hnew
        rw [← (topicKey_inj heq).2.2]
        exact List.mem_map_of_mem hl'
      · rw [List.mem_singleton.mp hl']
    · rw [if_neg hkey, h.topic]
      simp only [List.mem_append, List.mem_singleton]
      refine ⟨?_, ?_⟩
      · rintro ⟨l', hl', hrest⟩
        exact ⟨l', .inl hl', hrest⟩
      · rintro ⟨l', hl' | rfl, hkey', hvalue⟩
        · exact ⟨l', hl', hkey', hvalue⟩
        · exact absurd hkey' hkey
  logrec l' hl' := by
    have hget : (tt.pushLog l).logrec.get l'.id.toList =
        if l'.id.toList = l.id.toList then some l.buf else tt.logrec.get l'.id.toList :=
      KvTable.get_put _ _ _ _
    rw [hget]
    rcases List.mem_append.mp hl' with hl' | hl'
    · rw [if_neg, h.logrec l' hl']
      intro heq
      exact hnew (List.Vector.eq _ _ heq ▸ List.mem_map_of_mem hl')
    · rw [List.mem_singleton.mp hl', if_pos rfl]

/-- So are several logs, one after the other. -/
theorem Holds.push {tt : Index} {logs recs : List Log} (h : tt.Holds logs)
    (hrecs : ∀ l ∈ recs, l.Storable) (hnew : ((logs ++ recs).map Log.id).Nodup) :
    (tt.push recs).Holds (logs ++ recs) := by
  induction recs generalizing tt logs with
  | nil => rwa [List.append_nil]
  | cons l recs ih =>
    rw [List.append_cons] at hnew ⊢
    refine ih (h.pushLog (hrecs l List.mem_cons_self) ?_)
      (fun l' hl' => hrecs l' (List.mem_cons_of_mem _ hl')) hnew
    rw [List.map_append, List.map_append] at hnew
    intro hmem
    exact (List.nodup_append.mp (List.nodup_append.mp hnew).1).2.2 _ hmem _ List.mem_cons_self rfl

end Index

/-! ## `fetch` -/

/-- The topics of a record are read back. -/
theorem readTopics_append (topics : List Hash) (buf : List UInt8) :
    readTopics topics.length ((topics.map List.Vector.toList).flatten ++ buf) =
      some (topics, buf) := by
  induction topics with
  | nil => rfl
  | cons topic topics ih =>
    have hlen := topic.toList_length
    rw [List.length_cons, readTopics, List.map_cons, List.flatten_cons, List.append_assoc, if_neg]
    · rw [List.drop_left' hlen, List.take_left' hlen, ih, copyBytes_toList]
      rfl
    · rw [List.length_append, hlen]
      omega

/-- A held log is fetched as it was pushed. -/
theorem Index.Holds.fetch {tt : Index} {logs : List Log} (h : tt.Holds logs) {l : Log}
    (hl : l ∈ logs) :
    (⟨l.id, .ofNat l.topics.length⟩ : Logrec).fetch tt.logrec = some l := by
  have hstorable := h.storable l hl
  have hcount : (UInt8.ofNat l.topics.length).toNat = l.topics.length :=
    UInt8.toNat_ofNat_of_lt' (Nat.lt_succ_of_le hstorable)
  have hlen := l.blockHash.toList_length
  have hlen' := l.address.toList_length
  simp only [Logrec.fetch, h.logrec l hl, Option.bind_eq_bind, Option.bind_some, Log.buf,
    hstorable.storedTopics_eq, hcount, List.append_assoc, readTopics_append]
  rw [if_neg]
  · simp only [List.take_left' hlen, List.drop_left' hlen, List.take_left' hlen', ← List.drop_drop,
      List.drop_left' hlen', copyBytes_toList, Log.blockNumber_id, Log.txHash_id, Log.index_id]
    rfl
  · simp only [List.length_append, hlen, hlen']
    omega

end Topicsdb

end Zilionixx
