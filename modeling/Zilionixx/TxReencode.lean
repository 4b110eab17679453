import Zilionixx.Transaction
import Zilionixx.Cursor

/-!
# Writing a transaction that has been read

Six zero bits at its start announce a transaction that is not a legacy one. A legacy
transaction starts with the sizes of its nonce and its gas, three bits each, which are
not all zero as long as one of the two does not fit a byte. The writer is more strict
and refuses legacy transactions whose gas fits a byte, whatever the nonce. So the reader
returns transactions that cannot be written: with a nonce above 255, or with a marker in
front of a legacy transaction. Any other transaction is written and read back as it is.
-/

namespace Zilionixx

open Codec

/-! ## Reading up to the capacity -/

/-- A slice, extended to its capacity. -/
def Slice.widen (s : Slice) : Slice := ⟨s.backing, [], s.length_backing_lt⟩

/-- The reader on the whole of its backing array. A cursor behind it is put at its end,
where no byte can be read either. -/
def Reader.widen (r : Reader) : Reader :=
  { r with bytesR := ⟨r.bytesR.buf.widen, min r.bytesR.offset r.bytesR.buf.backing.length⟩ }

theorem Reader.bitsR_widen (r : Reader) : r.widen.bitsR = r.bitsR := rfl

theorem Reader.inBounds_widen (r : Reader) : r.widen.bytesR.InBounds := Nat.min_le_right _ _

theorem Reader.widen_skipBytes {r : Reader} {n : ℕ}
    (h : r.bytesR.offset + n ≤ r.bytesR.buf.backing.length) :
    (r.skipBytes n).widen = r.widen.skipBytes n := by
  have hfirst : min r.bytesR.offset r.bytesR.buf.backing.length = r.bytesR.offset :=
    Nat.min_eq_left (by omega)
  have hrest : min (r.bytesR.offset + n) r.bytesR.buf.backing.length = r.bytesR.offset + n :=
    Nat.min_eq_left h
  simp only [widen, skipBytes, hfirst, hrest]

theorem Reader.readByte_widen {r : Reader} {v : UInt8} {bytesR : FastReader}
    (h : r.bytesR.readByte = some (v, bytesR)) :
    bytesR = (r.skipBytes 1).bytesR ∧
      r.widen.bytesR.readByte = some (v, (r.skipBytes 1).widen.bytesR) := by
  obtain ⟨rfl, hrest⟩ := FastReader.readByte_eq_some h
  have hlength := congrArg List.length hrest
  rw [FastReader.length_rest, List.length_cons] at hlength
  have hcap : r.bytesR.offset + 1 ≤ r.bytesR.buf.backing.length := by
    rw [Slice.backing, List.length_append]
    omega
  have hoffset : r.widen.bytesR.offset = r.bytesR.offset := Nat.min_eq_left (by omega)
  have hwide : r.widen.bytesR.rest = v :: (r.bytesR.buf.backing.drop (r.bytesR.offset + 1)) := by
    have hget : r.bytesR.buf.data[r.bytesR.offset]? = some v := by
      have := congrArg (fun l : List UInt8 => l[0]?) hrest
      simpa [FastReader.rest] using this
    obtain ⟨hlt, hv⟩ := List.getElem?_eq_some_iff.mp hget
    change r.bytesR.buf.backing.drop r.widen.bytesR.offset = _
    rw [hoffset, List.drop_eq_getElem_cons (by omega)]
    congr 1
    rw [← hv]
    exact List.getElem_append_left hlt
  refine ⟨rfl, ?_⟩
  rw [widen_skipBytes hcap]
  exact FastReader.readByte_of_rest hwide

theorem Reader.read_widen {r : Reader} {n : ℕ} {bs : List UInt8}
    (h : r.bytesR.read n = some (bs, (r.skipBytes n).bytesR)) :
    r.widen.bytesR.read n = some (bs, (r.skipBytes n).widen.bytesR) := by
  rw [FastReader.read, Option.ite_none_right_eq_some] at h
  obtain ⟨hcap, h⟩ := h
  have hoffset : r.widen.bytesR.offset = r.bytesR.offset := Nat.min_eq_left (by omega)
  have hwide : r.widen.bytesR.offset + n ≤ r.widen.bytesR.buf.data.length := by
    rw [hoffset]
    exact hcap
  have hbs : r.widen.bytesR.rest.take n = bs := by
    rw [FastReader.rest, hoffset]
    exact (Prod.mk.inj (Option.some.inj h)).1
  rw [widen_skipBytes hcap, FastReader.read_eq hwide, hbs]
  rfl

variable {ε κ α : Type} {made : κ → Bool}

/-- What is read from a slice up to its capacity is read from its backing array. -/
theorem Decoder.run_widen {d : Decoder ε κ α} {r r' : Reader} {a : α}
    (h : Decoder.run made d r = .ok (a, r')) : Decoder.run made d r.widen = .ok (a, r'.widen) := by
  induction d generalizing r with
  | ret a =>
    cases h
    rfl
  | panic => cases h
  | fail e => cases h
  | readBits n k ih =>
    simp only [Decoder.run, Reader.bitsR_widen] at h ⊢
    cases hread : r.bitsR.read n with
    | none => simp [hread] at h
    | some x =>
      rw [hread] at h
      exact ih _ h
  | viewBits n k ih =>
    simp only [Decoder.run, Reader.bitsR_widen] at h ⊢
    cases hview : r.bitsR.view n with
    | none => simp [hview] at h
    | some v =>
      rw [hview] at h
      exact ih _ h
  | readByte k ih =>
    simp only [Decoder.run] at h ⊢
    cases hread : r.bytesR.readByte with
    | none => simp [hread] at h
    | some x =>
      obtain ⟨v, bytesR⟩ := x
      obtain ⟨rfl, hwide⟩ := Reader.readByte_widen hread
      rw [hread] at h
      rw [hwide]
      exact ih _ h
  | readBytes n k ih =>
    obtain ⟨bs, hread, hk⟩ := Decoder.run_readBytes_eq_ok h
    rw [Decoder.run, Reader.read_widen hread]
    exact ih _ hk
  | omitted c holds k ih =>
    simp only [Decoder.run] at h ⊢
    split at h
    · cases h
    · rename_i hc
      rw [if_neg hc]
      exact ih h

/-- Whatever is read from a reader is read from its streams, those of the backing array. -/
theorem Decoder.parse_of_run {d : Decoder ε κ α} {r r' : Reader} {a : α}
    (h : Decoder.run made d r = .ok (a, r')) :
    d.parse made r.widen.streams = some (a, r'.widen.streams) :=
  Decoder.run_sound (Decoder.run_widen h) r'.inBounds_widen

/-! ## Transactions -/

/-- The reader of what a writer has written, in a slice. -/
def Writer.reader (w : Writer) (bytes : Slice) : Reader :=
  ⟨BitsReader.new w.bitsW.bytes, FastReader.new bytes⟩

/-- What a new writer holds is what the encoder emits. -/
theorem emit_of_run {m : Encode Unit} {w : Writer} (hm : m.Sized)
    (hrun : Encoder.run m Writer.new = .ok ((), w)) :
    ∃ out, m.emit = some ((), out) ∧ w.Holds out := by
  rcases Encoder.run_emit hm Writer.holds_new with ⟨-, f, hfault⟩ | ⟨⟨⟩, out, w', hemit, hrun', hw⟩
  · rw [hrun] at hfault
    cases hfault
  · rw [hrun, Except.ok.injEq, Prod.mk.injEq] at hrun'
    obtain ⟨-, rfl⟩ := hrun'
    rw [Streams.empty_append] at hw
    exact ⟨out, hemit, hw⟩

/-- What is written to a new writer is read back. -/
theorem run_of_reads {m : Encode Unit} {d : Decode α} {a : α} {w : Writer} (hm : m.Sized)
    (hreads : Reads m d a) (hrun : Encoder.run m Writer.new = .ok ((), w)) {bytes : Slice}
    (hbytes : bytes.data = w.bytesW.buf) :
    ∃ r, Decoder.run Decoder.lax d (w.reader bytes) = .ok (a, r) := by
  obtain ⟨out, hemit, ⟨pad, -, hbits, -⟩, hbuf⟩ := emit_of_run hm hrun
  have hstreams : (w.reader bytes).streams = out ++ ⟨List.replicate pad false, []⟩ := by
    refine Streams.ext' hbits ?_
    rw [Streams.bytes_append, List.append_nil, ← hbuf, ← hbytes]
    rfl
  have hlax : ∀ c : MissingCheck, Decoder.lax c = true → Decoder.strict c = true := fun _ _ => rfl
  have hparse := Decoder.parse_mono hlax (hreads out hemit ⟨List.replicate pad false, []⟩)
  rw [← hstreams] at hparse
  obtain ⟨r, hrun, -, -⟩ := Decoder.run_complete hparse (Nat.zero_le _)
  exact ⟨r, hrun⟩

theorem Transaction.writable_iff (tx : Transaction) :
    tx.Writable ↔ ¬(tx.type = legacyTxType ∧ tx.gas ≤ 0xff) := by
  have htype : tx.type = legacyTxType ↔ tx.kind = .legacy := by
    cases hkind : tx.kind with
    | legacy => simp [Transaction.type, hkind]
    | accessList chainID list => simp [Transaction.type, hkind, legacyTxType, accessListTxType]
    | other t => simp [Transaction.type, hkind, legacyTxType, t.2.1]
  rw [htype, not_and, UInt64.not_le]
  rfl

/-- The transactions that fit the format are written, but for those that are refused. -/
theorem Transaction.Encodable.run_iff {tx : Transaction} (hok : tx.Encodable) :
    (∃ w, Encoder.run (transactionMarshalCSER tx) Writer.new = .ok ((), w)) ↔ tx.Writable := by
  rcases Encoder.run_emit (sized_transaction tx) Writer.holds_new with
    ⟨hnone, f, hfault⟩ | ⟨⟨⟩, out, w, hemit, hrun, -⟩
  · rw [hfault]
    constructor
    · rintro ⟨w, hw⟩
      cases hw
    intro hwritable
    obtain ⟨out, hemit⟩ := lawful_transaction.emits tx hok hwritable
    rw [hnone] at hemit
    cases hemit
  · refine ⟨fun _ => ?_, fun _ => ⟨w, hrun⟩⟩
    obtain ⟨⟨⟩, o₁, o', htype, -, -⟩ := Encoder.emit_bind_eq_some hemit
    exact writable_of_emit htype

/-- What is written for a transaction that has been read is not longer than what was read. -/
theorem length_buf_lt {s s' : Streams} {tx : Transaction} {w : Writer}
    (hparse : transactionUnmarshalCSER.parse Decoder.lax s = some (tx, s'))
    (hrun : Encoder.run (transactionMarshalCSER tx) Writer.new = .ok ((), w)) :
    w.bytesW.buf.length ≤ s.bytes.length := by
  obtain ⟨out, hemit, hw⟩ := emit_of_run (sized_transaction tx) hrun
  have hshorter := (shrinks_transaction _ _ _ _ hparse out hemit).bytes
  rw [Streams.bytes_append, List.length_append] at hshorter
  rw [hw.2]
  omega

/-- **Writing a transaction that has been read.** If a transaction is read, from any reader,
then it can be written exactly if it is not a legacy transaction with at most 255 gas. What
is written fits a slice, and the same transaction is read from it. -/
theorem reencode_iff (r r' : Reader) (tx : Transaction)
    (h : Decoder.run Decoder.lax transactionUnmarshalCSER r = .ok (tx, r')) :
    ((∃ w, Encoder.run (transactionMarshalCSER tx) Writer.new = .ok ((), w)) ↔
        ¬(tx.type = legacyTxType ∧ tx.gas ≤ 0xff)) ∧
      ∀ w, Encoder.run (transactionMarshalCSER tx) Writer.new = .ok ((), w) →
        w.bytesW.buf.length < 2 ^ 63 ∧
        ∀ bytes : Slice, bytes.data = w.bytesW.buf →
          ∃ r'', Decoder.run Decoder.lax transactionUnmarshalCSER (w.reader bytes) =
            .ok (tx, r'') := by
  have hparse := Decoder.parse_of_run h
  have hok : tx.Encodable := lawful_transaction.range _ _ _ _ hparse
  refine ⟨?_, fun w hw => ⟨?_, fun bytes hbytes => ?_⟩⟩
  · rw [hok.run_iff, tx.writable_iff]
  · refine Nat.lt_of_le_of_lt (length_buf_lt hparse hw) ?_
    refine Nat.lt_of_le_of_lt (Nat.le_of_eq (FastReader.length_rest _)) ?_
    exact Nat.lt_of_le_of_lt (Nat.sub_le _ _) r.bytesR.buf.length_backing_lt
  · exact run_of_reads (sized_transaction tx) (lawful_transaction.reads tx hok) hw hbytes

/-- A reader of streams given as bytes, with nothing behind them. -/
def readerOf (bbits : List UInt8) (bytes : Slice) : Reader :=
  ⟨BitsReader.new bbits, FastReader.new bytes⟩

/-- A legacy transaction without a recipient, data, price, value and signature, of which
only the nonce and the gas are not zero. -/
def bareTx (nonce gas : UInt64) : Transaction :=
  { nonce := nonce, gas := gas, gasPrice := 0, value := 0, toAddress := none, data := [],
    v := 0, r := 0, s := 0, kind := .legacy }

/-- The bytes of a `bareTx`: the nonce and the gas, and the signature. -/
def bareBytes (sizes : List UInt8) (h : sizes.length ≤ 16) : Slice :=
  ⟨sizes ++ List.replicate 64 0, [], by simp; omega⟩

theorem run_bareTx (bbits : List UInt8) (bytes : Slice) (tx : Transaction) (s : Streams)
    (h : transactionUnmarshalCSER.parse Decoder.lax ⟨BitList.unpack bbits, bytes.data⟩ =
      some (tx, s)) :
    ∃ r', Decoder.run Decoder.lax transactionUnmarshalCSER (readerOf bbits bytes) =
      .ok (tx, r') := by
  obtain ⟨r', hrun, -, -⟩ := Decoder.run_complete (r := readerOf bbits bytes) h (Nat.zero_le _)
  exact ⟨r', hrun⟩

/-- The nonce 1 and the gas 256 take one byte and two. -/
theorem reencode_bareTx :
    ∃ w bytes r'', Encoder.run (transactionMarshalCSER (bareTx 1 256)) Writer.new = .ok ((), w) ∧
      Decoder.run Decoder.lax transactionUnmarshalCSER (w.reader bytes) =
        .ok (bareTx 1 256, r'') := by
  obtain ⟨r', hrun⟩ := run_bareTx [8, 0, 0] (bareBytes [1, 0, 1] (by decide)) (bareTx 1 256)
    ⟨List.replicate 5 false, []⟩ (by decide +kernel)
  obtain ⟨hiff, hreads⟩ := reencode_iff _ _ _ hrun
  obtain ⟨w, hw⟩ := hiff.mpr (by decide)
  obtain ⟨hlength, hread⟩ := hreads w hw
  obtain ⟨r'', hr''⟩ := hread ⟨w.bytesW.buf, [], hlength⟩ rfl
  exact ⟨w, _, r'', hw, hr''⟩

/-- The nonce 256 and the gas 21 take two bytes and one: the reader returns a legacy
transaction that the writer refuses. -/
theorem reencode_refused :
    (∃ r r', Decoder.run Decoder.lax transactionUnmarshalCSER r = .ok (bareTx 256 21, r')) ∧
      Encoder.run (transactionMarshalCSER (bareTx 256 21)) Writer.new =
        .error (.error .legacyGasTooLow) := by
  refine ⟨⟨readerOf [1, 0, 0] (bareBytes [0, 1, 21] (by decide)), ?_⟩, rfl⟩
  exact run_bareTx _ _ _ ⟨List.replicate 5 false, []⟩ (by decide +kernel)

end Zilionixx
