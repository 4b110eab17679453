import Zilionixx.ByteNumber
import Zilionixx.ChunkedReader
import Zilionixx.KvTable

/-!
# `utils/iodb`: databases as byte streams

`Write` dumps a database: for each entry the length of the key in four bytes, the key, the
length of the value in four bytes and the value. `Read` puts the entries of a dump into a
batch, which is written each time it has grown large. The end of the stream is where `Read`
ends; it does not see whether that is in the middle of the length of a key.
-/

namespace Zilionixx

namespace IoDb

open ByteNumber ChunkedReader

variable {σ : Type}

/-- `bigendian.Uint32ToBytes` of the 32 bits of a length -/
def lengthBytes (bs : List UInt8) : List UInt8 := fixedBE 4 (bs.length % 2 ^ 32)

/-! ## `Write` -/

/-- Writes one after the other, up to the first error. -/
def writeEach (writer : List UInt8 → σ → Option String × σ) :
    List (List UInt8) → σ → Option String × σ
  | [], out => (none, out)
  | bs :: rest, out =>
    match writer bs out with
    | (some err, out) => (some err, out)
    | (none, out) => writeEach writer rest out

/-- What `Write` writes for an entry. -/
def pieces (e : List UInt8 × List UInt8) : List (List UInt8) :=
  [lengthBytes e.1, e.1, lengthBytes e.2, e.2]

/-- `Write` -/
def write (writer : List UInt8 → σ → Option String × σ) (db : KvTable UInt8 (List UInt8))
    (out : σ) : Option String × σ :=
  writeEach writer ((db.iterate [] []).flatMap pieces) out

/-- A writer that keeps what it is given. -/
def appendTo (bs out : List UInt8) : Option String × List UInt8 := (none, out ++ bs)

/-! ## `Read` -/

/-- `kvdb.Batch`: its operations on a state, with the errors they return. -/
structure Batch (σ : Type) where
  put : List UInt8 → List UInt8 → σ → Option String × σ
  valueSize : σ → ℕ
  write : σ → Option String × σ
  reset : σ → σ

/-- `kvdb.IdealBatchSize` -/
def idealBatchSize : ℕ := 100 * 1024

/-- The errors of `Read`. -/
inductive ReadError where
  /-- of the reader -/
  | stream (stop : Stop)
  /-- of the batch -/
  | batch (text : String)
  deriving DecidableEq

/-- What `Read` finds in the stream. -/
inductive Found where
  /-- the end of the stream, instead of the length of a key -/
  | finished
  /-- an error -/
  | failed (stop : Stop)
  | record (key value : List UInt8) (next : IoReader UInt8)

/-- The part of `Read` that reads a record. -/
def readRecord (reader : IoReader UInt8) : Found :=
  match reader.readAll 4 with
  | (.error .eof, _) => .finished
  | (.error stop, _) => .failed stop
  | (.ok lenKey, reader) =>
    match reader.readAll (ofBE lenKey) with
    | (.error stop, _) => .failed stop
    | (.ok key, reader) =>
      match reader.readAll 4 with
      | (.error stop, _) => .failed stop
      | (.ok lenValue, reader) =>
        match reader.readAll (ofBE lenValue) with
        | (.error stop, _) => .failed stop
        | (.ok value, reader) => .record key value reader

/-- The part of `Read` that puts a record into the batch, and writes the batch when it is large. -/
def Batch.add (batch : Batch σ) (key value : List UInt8) (s : σ) : Option String × σ :=
  match batch.put key value s with
  | (some err, s) => (some err, s)
  | (none, s) =>
    if batch.valueSize s > idealBatchSize then
      match batch.write s with
      | (some err, s) => (some err, s)
      | (none, s) => (none, batch.reset s)
    else (none, s)

/-! ## The records of a stream -/

/-- A byte string with its length in front. -/
def framed (bs : List UInt8) : List UInt8 := lengthBytes bs ++ bs

/-- A complete record. -/
def record (e : List UInt8 × List UInt8) : List UInt8 := framed e.1 ++ framed e.2

/-- Complete records. -/
def dump (es : List (List UInt8 × List UInt8)) : List UInt8 := es.flatMap record

/-- The lengths of an entry fit into four bytes. -/
def Fits (e : List UInt8 × List UInt8) : Prop := e.1.length < 2 ^ 32 ∧ e.2.length < 2 ^ 32

theorem length_lengthBytes (bs : List UInt8) : (lengthBytes bs).length = 4 :=
  length_fixedBE (Nat.mod_lt _ (by decide))

theorem ofBE_lengthBytes {bs : List UInt8} (h : bs.length < 2 ^ 32) :
    ofBE (lengthBytes bs) = bs.length := by
  rw [lengthBytes, ofBE_fixedBE, Nat.mod_eq_of_lt h]

/-- Four bytes that give a length are those that are written for it. -/
theorem lengthBytes_eq {len bs : List UInt8} (hlen : len.length = 4)
    (hbs : bs.length = ofBE len) : lengthBytes bs = len ∧ bs.length < 2 ^ 32 := by
  have hlt : ofBE len < 2 ^ 32 := by
    have h := ofBE_lt len
    rwa [hlen] at h
  have hfixed := fixedBE_ofBE len
  rw [hlen] at hfixed
  rw [lengthBytes, hbs, Nat.mod_eq_of_lt hlt]
  exact ⟨hfixed, hlt⟩

variable {reader next : IoReader UInt8} {key value : List UInt8} {batch : Batch σ}

/-- What `Read` takes for a record is a complete one. -/
theorem readRecord_eq_record (h : readRecord reader = .record key value next) :
    reader.rest = record (key, value) ++ next.rest ∧ Fits (key, value) ∧
      next.stop = reader.stop := by
  unfold readRecord at h
  split at h
  · cases h
  · cases h
  rename_i lenKey reader₁ h₁
  split at h
  · cases h
  rename_i key' reader₂ h₂
  split at h
  · cases h
  rename_i lenValue reader₃ h₃
  split at h
  · cases h
  rename_i value' reader₄ h₄
  cases h
  obtain ⟨hlen₁, hrest₁, hstop₁⟩ := IoReader.readAll_eq_ok h₁
  obtain ⟨hlen₂, hrest₂, hstop₂⟩ := IoReader.readAll_eq_ok h₂
  obtain ⟨hlen₃, hrest₃, hstop₃⟩ := IoReader.readAll_eq_ok h₃
  obtain ⟨hlen₄, hrest₄, hstop₄⟩ := IoReader.readAll_eq_ok h₄
  obtain ⟨hkey, hkeyLt⟩ := lengthBytes_eq hlen₁ hlen₂
  obtain ⟨hvalue, hvalueLt⟩ := lengthBytes_eq hlen₃ hlen₄
  refine ⟨?_, ⟨hkeyLt, hvalueLt⟩, ?_⟩
  · rw [hrest₁, hrest₂, hrest₃, hrest₄, record, framed, framed, hkey, hvalue]
    simp only [List.append_assoc]
  · rw [hstop₄, hstop₃, hstop₂, hstop₁]

/-- A complete record is read. -/
theorem readRecord_of_append {tail : List UInt8} (hfits : Fits (key, value))
    (h : reader.rest = record (key, value) ++ tail) :
    ∃ next, readRecord reader = .record key value next ∧ next.rest = tail ∧
      next.stop = reader.stop := by
  have hsplit : reader.rest =
      lengthBytes key ++ (key ++ (lengthBytes value ++ (value ++ tail))) := by
    rw [h, record, framed, framed]
    simp only [List.append_assoc]
  obtain ⟨reader₁, h₁, hrest₁, hstop₁⟩ := IoReader.readAll_of_append hsplit
  obtain ⟨reader₂, h₂, hrest₂, hstop₂⟩ := IoReader.readAll_of_append hrest₁
  obtain ⟨reader₃, h₃, hrest₃, hstop₃⟩ := IoReader.readAll_of_append hrest₂
  obtain ⟨reader₄, h₄, hrest₄, hstop₄⟩ := IoReader.readAll_of_append hrest₃
  rw [length_lengthBytes] at h₁ h₃
  refine ⟨reader₄, ?_, hrest₄, ?_⟩
  · simp only [readRecord, h₁, ofBE_lengthBytes hfits.1, h₂, h₃, ofBE_lengthBytes hfits.2, h₄]
  · rw [hstop₄, hstop₃, hstop₂, hstop₁]

/-- `Read` comes to its end when fewer than four bytes are left. -/
theorem readRecord_eq_finished_iff :
    readRecord reader = .finished ↔ reader.stop = .eof ∧ reader.rest.length < 4 := by
  constructor
  · intro h
    unfold readRecord at h
    split at h
    · next h₁ =>
      obtain ⟨hstop, hlt⟩ := IoReader.readAll_eq_error h₁
      exact ⟨hstop.symm, hlt⟩
    · cases h
    split at h
    · cases h
    split at h
    · cases h
    split at h <;> cases h
  · rintro ⟨hstop, hlt⟩
    obtain ⟨next, h⟩ := IoReader.readAll_of_lt hlt
    rw [hstop] at h
    simp only [readRecord, h]

theorem length_rest_lt (h : readRecord reader = .record key value next) :
    next.rest.length < reader.rest.length := by
  obtain ⟨hrest, -⟩ := readRecord_eq_record h
  rw [hrest, record, framed, framed]
  simp only [List.length_append, length_lengthBytes]
  omega

/-- `Read`; the batch is reset whenever it returns -/
def read (batch : Batch σ) (reader : IoReader UInt8) (s : σ) : Option ReadError × σ :=
  match hfound : readRecord reader with
  | .finished =>
    let (err, s) := batch.write s
    (err.map .batch, batch.reset s)
  | .failed stop => (some (.stream stop), batch.reset s)
  | .record key value next =>
    have := length_rest_lt hfound
    match batch.add key value s with
    | (some err, s) => (some (.batch err), batch.reset s)
    | (none, s) => read batch next s
termination_by reader.rest.length

theorem read_of_finished {s : σ} (h : readRecord reader = .finished) :
    read batch reader s = ((batch.write s).1.map .batch, batch.reset (batch.write s).2) := by
  rw [read]
  split
  · rfl
  · next h' =>
    rw [h] at h'
    cases h'
  · next h' =>
    rw [h] at h'
    cases h'

theorem read_of_failed {s : σ} {stop : Stop} (h : readRecord reader = .failed stop) :
    read batch reader s = (some (.stream stop), batch.reset s) := by
  rw [read]
  split
  · next h' =>
    rw [h] at h'
    cases h'
  · next h' =>
    rw [h] at h'
    cases h'
    rfl
  · next h' =>
    rw [h] at h'
    cases h'

theorem read_of_record {s s' : σ} (h : readRecord reader = .record key value next)
    (hadd : batch.add key value s = (none, s')) :
    read batch reader s = read batch next s' := by
  conv_lhs => rw [read]
  split
  · next h' =>
    rw [h] at h'
    cases h'
  · next h' =>
    rw [h] at h'
    cases h'
  · next h' =>
    rw [h] at h'
    cases h'
    dsimp only
    rw [hadd]

/-! ## Batches -/

/-- The operations of a batch return no error. -/
structure Batch.Succeeds (batch : Batch σ) : Prop where
  put : ∀ key value s, (batch.put key value s).1 = none
  write : ∀ s, (batch.write s).1 = none

/-- A record is put into a batch, which may then be written and reset. -/
theorem Batch.Succeeds.add (h : batch.Succeeds) (key value : List UInt8) (s : σ) :
    ∃ s', batch.add key value s = (none, s') ∧
      (s' = (batch.put key value s).2 ∨
        s' = batch.reset (batch.write (batch.put key value s).2).2) := by
  have hput : batch.put key value s = (none, (batch.put key value s).2) :=
    Prod.ext (h.put key value s) rfl
  have hwrite : batch.write (batch.put key value s).2 =
      (none, (batch.write (batch.put key value s).2).2) := Prod.ext (h.write _) rfl
  rw [Batch.add, hput]
  dsimp only
  split
  · rw [hwrite]
    exact ⟨_, rfl, .inr rfl⟩
  · exact ⟨_, rfl, .inl rfl⟩

/-! ## Round trip -/

/-- A database and the entries that are put into a batch for it. -/
structure DbBatch where
  db : KvTable UInt8 (List UInt8)
  puts : List (List UInt8 × List UInt8)

/-- Entries are put into a database. -/
def putAll (db : KvTable UInt8 (List UInt8)) (es : List (List UInt8 × List UInt8)) :
    KvTable UInt8 (List UInt8) :=
  es.foldl (fun db e => db.put e.1 e.2) db

/-- A batch of a database, with whatever it says its size is. -/
def dbBatch (valueSize : DbBatch → ℕ) : Batch DbBatch where
  put key value s := (none, { s with puts := s.puts ++ [(key, value)] })
  valueSize := valueSize
  write s := (none, { s with db := putAll s.db s.puts })
  reset s := { s with puts := [] }

/-- What the database is with all that was put into the batch. -/
def DbBatch.flushed (s : DbBatch) : KvTable UInt8 (List UInt8) := putAll s.db s.puts

theorem succeeds_dbBatch (valueSize : DbBatch → ℕ) : (dbBatch valueSize).Succeeds :=
  ⟨fun _ _ _ => rfl, fun _ => rfl⟩

/-- Whether the batch is written or not, no entry is lost. -/
theorem add_dbBatch (valueSize : DbBatch → ℕ) (key value : List UInt8) (s : DbBatch) :
    ∃ s', (dbBatch valueSize).add key value s = (none, s') ∧
      s'.flushed = s.flushed.put key value := by
  have hput : putAll s.db (s.puts ++ [(key, value)]) = s.flushed.put key value := by
    rw [putAll, List.foldl_append]
    rfl
  obtain ⟨s', hadd, rfl | rfl⟩ := (succeeds_dbBatch valueSize).add key value s
  · exact ⟨_, hadd, hput⟩
  · exact ⟨_, hadd, hput⟩

theorem read_dump (valueSize : DbBatch → ℕ) {es : List (List UInt8 × List UInt8)}
    (hfits : ∀ e ∈ es, Fits e) (hstop : reader.stop = .eof) (hrest : reader.rest = dump es)
    (s : DbBatch) : read (dbBatch valueSize) reader s = (none, ⟨putAll s.flushed es, []⟩) := by
  induction es generalizing reader s with
  | nil =>
    have hend : readRecord reader = .finished :=
      readRecord_eq_finished_iff.mpr ⟨hstop, by rw [hrest]; decide⟩
    rw [read_of_finished hend]
    rfl
  | cons e es ih =>
    rw [dump, List.flatMap_cons] at hrest
    obtain ⟨next, hrecord, hnext, hnextStop⟩ :=
      readRecord_of_append (hfits e List.mem_cons_self) hrest
    obtain ⟨s', hadd, hflushed⟩ := add_dbBatch valueSize e.1 e.2 s
    rw [read_of_record hrecord hadd,
      ih (fun e' he' => hfits e' (List.mem_cons_of_mem _ he')) (hnextStop.trans hstop) hnext,
        hflushed]
    rfl

theorem writeEach_appendTo (ps : List (List UInt8)) (out : List UInt8) :
    writeEach appendTo ps out = (none, out ++ ps.flatten) := by
  induction ps generalizing out with
  | nil =>
    rw [List.flatten_nil, List.append_nil]
    rfl
  | cons bs ps ih =>
    rw [List.flatten_cons, ← List.append_assoc, ← ih]
    rfl

theorem write_appendTo (db : KvTable UInt8 (List UInt8)) :
    write appendTo db [] = (none, dump db.entries) := by
  have hpieces : ∀ e, (pieces e).flatMap id = record e := by
    intro e
    simp [pieces, record, framed]
  rw [write, writeEach_appendTo, KvTable.iterate_nil, List.nil_append, List.flatten_eq_flatMap,
    List.flatMap_assoc, dump, funext hpieces]

/-- **A dump is read back.** A database with keys and values shorter than 2³² bytes is written
without error, and what was written is read into an empty database, however it is delivered and
whenever the batch is large: there is no error, and the database is the same. -/
theorem read_write (db : KvTable UInt8 (List UInt8))
    (hfits : ∀ key value, db.get key = some value → key.length < 2 ^ 32 ∧ value.length < 2 ^ 32)
    (chunks : ℕ → Chunk) (valueSize : DbBatch → ℕ) :
    ∃ out, write appendTo db [] = (none, out) ∧
      read (dbBatch valueSize) ⟨out, .eof, chunks⟩ ⟨.empty, []⟩ = (none, ⟨db, []⟩) := by
  refine ⟨dump db.entries, write_appendTo db, ?_⟩
  have hentries : ∀ e ∈ db.entries, Fits e := by
    intro e he
    exact hfits e.1 e.2 (KvTable.mem_entries.mp he)
  rw [read_dump valueSize hentries rfl rfl]
  congr 2
  exact KvTable.foldl_put_empty db

/-- A database with an empty key and an empty value, among others. -/
def sampleDb : KvTable UInt8 (List UInt8) := ⟨[([], [7]), ([1], []), ([1, 2], [3])], by decide⟩

/-- The stream byte by byte, with the end reported along with the last one. -/
def byteByByte : ℕ → Chunk := fun _ => ⟨1, by decide, true⟩

theorem read_write_sampleDb :
    ∃ out, write appendTo sampleDb [] = (none, out) ∧
      read (dbBatch fun _ => 0) ⟨out, .eof, byteByByte⟩ ⟨.empty, []⟩ = (none, ⟨sampleDb, []⟩) := by
  refine read_write sampleDb ?_ byteByByte _
  intro key value hget
  have hmem := KvTable.mem_entries.mpr hget
  have hall : ∀ e ∈ sampleDb.entries, Fits e := by
    simp only [sampleDb, Fits]
    decide
  exact hall _ hmem

/-! ## Truncated dumps -/

/-- Complete records, and then fewer than four bytes. -/
def EndsIn (stream tail : List UInt8) : Prop :=
  ∃ es, (∀ e ∈ es, Fits e) ∧ stream = dump es ++ tail

/-- What `Read` takes for a whole dump. -/
theorem read_eq_none_iff (hbatch : batch.Succeeds) (hstop : reader.stop = .eof) (s : σ) :
    (read batch reader s).1 = none ↔ ∃ tail, tail.length < 4 ∧ EndsIn reader.rest tail := by
  induction hlen : reader.rest.length using Nat.strongRecOn generalizing reader s with
  | ind len ih =>
    cases hfound : readRecord reader with
    | finished =>
      rw [read_of_finished hfound, hbatch.write]
      refine iff_of_true rfl ⟨reader.rest, (readRecord_eq_finished_iff.mp hfound).2, [], ?_, rfl⟩
      exact fun _ h => absurd h List.not_mem_nil
    | failed stop =>
      rw [read_of_failed hfound]
      refine iff_of_false (Option.some_ne_none _) ?_
      rintro ⟨tail, htail, es, hfits, hrest⟩
      cases es with
      | nil =>
        rw [readRecord_eq_finished_iff.mpr ⟨hstop, by rw [hrest]; exact htail⟩] at hfound
        cases hfound
      | cons e es =>
        rw [dump, List.flatMap_cons, List.append_assoc] at hrest
        obtain ⟨next, hrecord, -⟩ := readRecord_of_append (hfits e List.mem_cons_self) hrest
        rw [hrecord] at hfound
        cases hfound
    | record key value next =>
      obtain ⟨s', hadd, -⟩ := hbatch.add key value s
      obtain ⟨hrest, hfits, hnext⟩ := readRecord_eq_record hfound
      rw [read_of_record hfound hadd,
        ih _ (hlen ▸ length_rest_lt hfound) (hnext.trans hstop) s' rfl]
      constructor
      · rintro ⟨tail, htail, es, hes, htailRest⟩
        refine ⟨tail, htail, (key, value) :: es, ?_, ?_⟩
        · exact List.forall_mem_cons.mpr ⟨hfits, hes⟩
        · rw [hrest, htailRest, dump, dump, List.flatMap_cons, List.append_assoc]
      · rintro ⟨tail, htail, es, hes, hstream⟩
        cases es with
        | nil =>
          rw [readRecord_eq_finished_iff.mpr ⟨hstop, by rw [hstream]; exact htail⟩] at hfound
          cases hfound
        | cons e es =>
          rw [dump, List.flatMap_cons, List.append_assoc] at hstream
          obtain ⟨next', hrecord, hnext', -⟩ :=
            readRecord_of_append (hes e List.mem_cons_self) hstream
          rw [hrecord] at hfound
          cases hfound
          exact ⟨tail, htail, es, fun e' he' => hes e' (List.mem_cons_of_mem _ he'), hnext'⟩

/-- One stream does not begin with two different records: both would be read. -/
theorem record_append_inj {e e' : List UInt8 × List UInt8} {tail tail' : List UInt8} (he : Fits e)
    (he' : Fits e') (h : record e ++ tail = record e' ++ tail') : e = e' ∧ tail = tail' := by
  obtain ⟨reader, hreader⟩ : ∃ reader : IoReader UInt8, reader.rest = record e ++ tail :=
    ⟨⟨record e ++ tail, .eof, fun _ => ⟨1, by decide, true⟩⟩, rfl⟩
  obtain ⟨next, hrecord, hnext, -⟩ := readRecord_of_append he hreader
  obtain ⟨next', hrecord', hnext', -⟩ := readRecord_of_append he' (hreader.trans h)
  rw [hrecord, Found.record.injEq] at hrecord'
  obtain ⟨hkey, hvalue, rfl⟩ := hrecord'
  exact ⟨Prod.ext hkey hvalue, hnext.symm.trans hnext'⟩

/-- Of two ways to cut records off a stream one goes on where the other ends. -/
theorem dump_append_cases {es es' : List (List UInt8 × List UInt8)} {tail tail' : List UInt8}
    (hes : ∀ e ∈ es, Fits e) (hes' : ∀ e ∈ es', Fits e) (h : dump es ++ tail = dump es' ++ tail') :
    (∃ more, es' = es ++ more ∧ tail = dump more ++ tail') ∨
      (∃ more, es = es' ++ more ∧ tail' = dump more ++ tail) := by
  induction es generalizing es' with
  | nil => exact .inl ⟨es', rfl, h⟩
  | cons e es ih =>
    cases es' with
    | nil => exact .inr ⟨e :: es, rfl, h.symm⟩
    | cons e' es' =>
      rw [dump, dump, List.flatMap_cons, List.flatMap_cons, List.append_assoc,
        List.append_assoc] at h
      obtain ⟨rfl, hrest⟩ :=
        record_append_inj (hes e List.mem_cons_self) (hes' e' List.mem_cons_self) h
      rcases ih (fun d hd => hes d (List.mem_cons_of_mem _ hd))
        (fun d hd => hes' d (List.mem_cons_of_mem _ hd)) hrest with
        ⟨more, rfl, htail⟩ | ⟨more, rfl, htail⟩
      · exact .inl ⟨more, rfl, htail⟩
      · exact .inr ⟨more, rfl, htail⟩

theorem length_dump_cons (e : List UInt8 × List UInt8) (es : List (List UInt8 × List UInt8)) :
    4 ≤ (dump (e :: es)).length := by
  rw [dump, List.flatMap_cons, record, framed, framed]
  simp only [List.length_append, length_lengthBytes]
  omega

/-- Complete records are not such with a few bytes after them. -/
theorem EndsIn.eq_nil {stream tail : List UInt8} (h : EndsIn stream []) (h' : EndsIn stream tail)
    (htail : tail.length < 4) : tail = [] := by
  obtain ⟨es, hes, rfl⟩ := h
  obtain ⟨es', hes', hstream⟩ := h'
  rcases dump_append_cases hes hes' hstream with ⟨more, -, hnil⟩ | ⟨more, -, rfl⟩
  · exact (List.append_eq_nil_iff.mp hnil.symm).2
  · cases more with
    | nil => rfl
    | cons e more =>
      have := length_dump_cons e more
      rw [List.append_nil] at htail
      omega

/-- A record that is cut after four bytes or more is not taken for the end. -/
theorem not_endsIn_of_part {es : List (List UInt8 × List UInt8)} {e : List UInt8 × List UInt8}
    {part tail : List UInt8} (hes : ∀ d ∈ e :: es, Fits d) (hpart : part <+: record e)
    (hne : part ≠ record e) (hlen : 4 ≤ part.length) (htail : tail.length < 4) :
    ¬EndsIn (dump es ++ part) tail := by
  rintro ⟨es', hes', hstream⟩
  obtain ⟨missing, hmissing⟩ := hpart
  rcases dump_append_cases (List.forall_mem_cons.mp hes).2 hes' hstream with
    ⟨more, rfl, hmore⟩ | ⟨more, -, rfl⟩
  · cases more with
    | nil =>
      rw [hmore] at hlen
      exact absurd htail (Nat.not_lt.mpr hlen)
    | cons d more =>
      -- a whole record in the part, which is then that record
      have hd := hes' d (List.mem_append_right _ List.mem_cons_self)
      rw [dump, List.flatMap_cons, List.append_assoc] at hmore
      have hrecord : record d ++ (more.flatMap record ++ tail ++ missing) = record e ++ [] := by
        rw [List.append_nil, ← hmissing, hmore]
        simp only [List.append_assoc]
      obtain ⟨-, hnil⟩ := record_append_inj hd (hes e List.mem_cons_self) hrecord
      apply hne
      rw [← hmissing, (List.append_eq_nil_iff.mp hnil).2, List.append_nil]
  · rw [List.length_append] at htail
    omega

/-- **When truncated dumps are rejected.** A stream for which `Read` returns no error consists
of complete records, unless it has one to three bytes after them. A dump that is cut in the
middle of a record is rejected if the cut is not in the four bytes of the length of the key. -/
theorem read_rejects_iff (batch : Batch σ) (hbatch : batch.Succeeds) (chunks : ℕ → Chunk) (s : σ) :
    (∀ stream, ((read batch ⟨stream, .eof, chunks⟩ s).1 = none → EndsIn stream []) ↔
      ¬∃ tail, 0 < tail.length ∧ tail.length < 4 ∧ EndsIn stream tail) ∧
    (∀ es e part, (∀ d ∈ e :: es, Fits d) → part <+: record e → part ≠ record e →
      ((read batch ⟨dump es ++ part, .eof, chunks⟩ s).1 ≠ none ↔ 4 ≤ part.length)) := by
  refine ⟨?_, ?_⟩
  · intro stream
    rw [read_eq_none_iff hbatch rfl]
    constructor
    · rintro hwhole ⟨tail, hpos, hlt, hends⟩
      rw [EndsIn.eq_nil (hwhole ⟨tail, hlt, hends⟩) hends hlt] at hpos
      cases hpos
    · rintro hnone ⟨tail, hlt, hends⟩
      rcases tail.eq_nil_or_concat with rfl | ⟨init, last, rfl⟩
      · exact hends
      · exact absurd ⟨_, by rw [List.length_concat]; exact Nat.succ_pos _, hlt, hends⟩ hnone
  · intro es e part hes hpart hne
    rw [Ne, read_eq_none_iff hbatch rfl]
    constructor
    · intro hnone
      by_contra hlt
      exact hnone ⟨part, Nat.not_le.mp hlt, es, (List.forall_mem_cons.mp hes).2, rfl⟩
    · rintro hlen ⟨tail, htail, hends⟩
      exact not_endsIn_of_part hes hpart hne hlen htail hends

/-- The record of an empty key. -/
theorem record_sample : record ([], [7]) = [0, 0, 0, 0, 0, 0, 0, 1, 7] := by decide

/-- A dump of one record, cut after the length of the key. -/
theorem read_rejects_iff_sample :
    [0, 0, 0, 0] <+: record ([], [7]) ∧
      (read (dbBatch fun _ => 0) ⟨[0, 0, 0, 0], .eof, byteByByte⟩ ⟨.empty, []⟩).1 ≠ none := by
  have hfits : ∀ d ∈ [(([] : List UInt8), [(7 : UInt8)])], Fits d := by
    simp only [Fits]
    decide
  have hpart : [0, 0, 0, 0] <+: record ([], [7]) := by
    rw [record_sample]
    decide
  refine ⟨hpart, ?_⟩
  refine ((read_rejects_iff _ (succeeds_dbBatch _) byteByByte _).2 [] _ _ hfits hpart ?_).mpr ?_
  · rw [record_sample]
    decide
  · decide

/-- A dump of one record, cut after its first byte, is taken for a dump of no record. -/
theorem read_accepts_truncated :
    [0] <+: record ([], [7]) ∧ ¬EndsIn [0] [] ∧
      read (dbBatch fun _ => 0) ⟨[0], .eof, byteByByte⟩ ⟨.empty, []⟩ = (none, ⟨.empty, []⟩) := by
  have hfinished : readRecord ⟨[0], .eof, byteByByte⟩ = .finished :=
    readRecord_eq_finished_iff.mpr ⟨rfl, by decide⟩
  refine ⟨?_, ?_, ?_⟩
  · rw [record_sample]
    decide
  · intro hwhole
    have hends : EndsIn [0] [0] := ⟨[], fun _ h => absurd h List.not_mem_nil, rfl⟩
    exact List.cons_ne_nil _ _ (hwhole.eq_nil hends (by decide))
  · rw [read_of_finished hfinished]
    rfl

end IoDb

end Zilionixx
