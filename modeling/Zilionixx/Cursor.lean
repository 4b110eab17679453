import Zilionixx.Bits
import Zilionixx.Codec

/-!
# `utils/fast` and the two cursors of `cser`

`cser.Reader` and `cser.Writer` are a pair of cursors: a bit array from
`utils/bits` and a byte buffer from `utils/fast`. This file gives codec
programs their operational meaning on those cursors, `Decoder.run` and
`Encoder.run`, and shows that it refines the meaning on plain streams:

* `run_sound` / `run_complete` — a decoder run that stays inside its buffer is
  a reading of the streams, and every reading of the streams is such a run;
* `run_emit` — an encoder run appends exactly what the encoder emits.

A byte buffer is a Go slice, and slicing it is checked against its *capacity*,
not its length: `fast.Reader.Read` can run past the end of the body into the
bit section that follows it in memory. `run_offset_le` is why this is harmless:
the offset never moves back, so the final check for emptiness rejects such a
run.
-/

namespace Zilionixx

open Codec

/-- How a call ends when it does not return a value: it panics, or it returns
an error. -/
inductive Fault (ε : Type) where
  /-- a Go panic -/
  | panic
  /-- a returned error -/
  | error (e : ε)
  deriving DecidableEq

/-! ## Byte slices -/

/-- A Go byte slice: its elements, and what lies between its length and its
capacity. Lengths are Go `int`s. -/
structure Slice where
  /-- the elements -/
  data : List UInt8
  /-- the bytes of the backing array after the last element -/
  spare : List UInt8
  /-- a capacity is an `int` -/
  bounded : data.length + spare.length < 2 ^ 63

namespace Slice

/-- The backing array from the first element on. -/
def backing (s : Slice) : List UInt8 := s.data ++ s.spare

theorem length_backing_lt (s : Slice) : s.backing.length < 2 ^ 63 := by
  rw [backing, List.length_append]
  exact s.bounded

/-- `s[:n]`, for `n` up to the capacity. -/
def upTo (s : Slice) (n : ℕ) : Slice where
  data := s.backing.take n
  spare := s.backing.drop n
  bounded := by
    rw [← List.length_append, List.take_append_drop]
    exact s.length_backing_lt

@[simp] theorem backing_upTo (s : Slice) (n : ℕ) : (s.upTo n).backing = s.backing :=
  List.take_append_drop n _

theorem upTo_eq_of_backing {s t : Slice} (h : s.backing = t.backing) (n : ℕ) :
    s.upTo n = t.upTo n := by
  simp only [upTo, h]

theorem data_upTo {s : Slice} {n : ℕ} (h : n ≤ s.data.length) :
    (s.upTo n).data = s.data.take n :=
  List.take_append_of_le_length h

end Slice

/-! ## `fast.Reader` and `fast.Writer` -/

/-- `fast.Reader` -/
structure FastReader where
  /-- the buffer -/
  buf : Slice
  /-- the position of the cursor -/
  offset : ℕ

namespace FastReader

/-- `NewReader` -/
def new (bb : Slice) : FastReader := ⟨bb, 0⟩

/-- `Reader.Read`: the slice expression `buf[offset : offset+n]`, which panics
beyond the capacity. -/
def read (b : FastReader) (n : ℕ) : Option (List UInt8 × FastReader) :=
  if b.offset + n ≤ b.buf.backing.length then
    some ((b.buf.backing.drop b.offset).take n, { b with offset := b.offset + n })
  else none

/-- `Reader.ReadByte`: the index expression `buf[offset]`, which panics beyond
the length. -/
def readByte (b : FastReader) : Option (UInt8 × FastReader) :=
  match b.buf.data[b.offset]? with
  | none => none
  | some v => some (v, { b with offset := b.offset + 1 })

/-- `Reader.Position` -/
def position (b : FastReader) : ℕ := b.offset

/-- `Reader.Empty` -/
def empty (b : FastReader) : Bool := b.buf.data.length == b.offset

/-- The bytes not read yet. -/
def rest (b : FastReader) : List UInt8 := b.buf.data.drop b.offset

/-- The cursor has not run past the end of the buffer. -/
def InBounds (b : FastReader) : Prop := b.offset ≤ b.buf.data.length

theorem length_rest (b : FastReader) : b.rest.length = b.buf.data.length - b.offset :=
  List.length_drop

/-- A byte read is the first of the unread ones. -/
theorem readByte_eq_some {b b' : FastReader} {v : UInt8} (h : b.readByte = some (v, b')) :
    b' = { b with offset := b.offset + 1 } ∧ b.rest = v :: b'.rest := by
  unfold readByte at h
  split at h
  · cases h
  · rename_i hget
    rw [Option.some.injEq, Prod.mk.injEq] at h
    obtain ⟨rfl, rfl⟩ := h
    obtain ⟨hlt, hv⟩ := List.getElem?_eq_some_iff.mp hget
    refine ⟨rfl, ?_⟩
    rw [rest, List.drop_eq_getElem_cons hlt, hv]
    rfl

theorem readByte_of_rest {b : FastReader} {v : UInt8} {vs : List UInt8} (h : b.rest = v :: vs) :
    b.readByte = some (v, { b with offset := b.offset + 1 }) := by
  have hget : b.buf.data[b.offset]? = some v := by
    have := congrArg (fun l : List UInt8 => l[0]?) h
    simpa [rest] using this
  rw [readByte, hget]

/-- Inside the buffer, reading takes from the unread bytes. -/
theorem read_eq {b : FastReader} {n : ℕ} (h : b.offset + n ≤ b.buf.data.length) :
    b.read n = some (b.rest.take n, { b with offset := b.offset + n }) := by
  have hcap : b.offset + n ≤ b.buf.backing.length := by
    rw [Slice.backing, List.length_append]
    omega
  rw [read, if_pos hcap, rest, Slice.backing, List.drop_append_of_le_length (by omega),
    List.take_append_of_le_length]
  rw [List.length_drop]
  omega

theorem read_eq_some {b b' : FastReader} {n : ℕ} {vs : List UInt8}
    (h : b.read n = some (vs, b')) : b' = { b with offset := b.offset + n } := by
  unfold read at h
  split at h
  · rw [Option.some.injEq, Prod.mk.injEq] at h
    exact h.2.symm
  · cases h

/-- A bounded reader is empty exactly when nothing is left to read. -/
theorem empty_iff (b : FastReader) : b.empty = true ↔ b.InBounds ∧ b.rest = [] := by
  rw [empty, beq_iff_eq, InBounds, rest, List.drop_eq_nil_iff]
  omega

end FastReader

/-- `fast.Writer` -/
structure FastWriter where
  /-- the buffer -/
  buf : List UInt8

namespace FastWriter

/-- `Writer.WriteByte` -/
def writeByte (b : FastWriter) (v : UInt8) : FastWriter := ⟨b.buf ++ [v]⟩

/-- `Writer.Write` -/
def write (b : FastWriter) (v : List UInt8) : FastWriter := ⟨b.buf ++ v⟩

end FastWriter

/-! ## `cser.Reader` and runs of decoders -/

/-- `cser.Reader` -/
structure Reader where
  /-- the bit cursor -/
  bitsR : BitsReader
  /-- the byte cursor -/
  bytesR : FastReader

namespace Reader

/-- What is left to read. -/
def streams (r : Reader) : Streams := ⟨r.bitsR.rest, r.bytesR.rest⟩

/-- The reader after `n` bits. -/
def skipBits (r : Reader) (n : ℕ) : Reader :=
  { r with bitsR := r.bitsR.seek (r.bitsR.position + n) }

/-- The reader after `n` bytes. -/
def skipBytes (r : Reader) (n : ℕ) : Reader :=
  { r with bytesR := { r.bytesR with offset := r.bytesR.offset + n } }

theorem streams_skipBits (r : Reader) (n : ℕ) :
    (r.skipBits n).streams = ⟨r.streams.bits.drop n, r.streams.bytes⟩ := by
  rw [streams, skipBits, BitsReader.rest_seek]
  rfl

theorem streams_skipBytes (r : Reader) (n : ℕ) :
    (r.skipBytes n).streams = ⟨r.streams.bits, r.streams.bytes.drop n⟩ := by
  simp only [streams, skipBytes, FastReader.rest, List.drop_drop]

end Reader

section DecoderRun

variable {ε κ α : Type} {made : κ → Bool} {d : Decoder ε κ α}

/-- Run a decoder on the two cursors. The marked checks in `made` are made; the
program as written makes none of them (`run Decoder.lax`). -/
def Decoder.run (made : κ → Bool) : Decoder ε κ α → Reader → Except (Fault ε) (α × Reader)
  | .ret a, r => .ok (a, r)
  | .panic, _ => .error .panic
  | .fail e, _ => .error (.error e)
  | .readBits n k, r =>
    match r.bitsR.read n with
    | none => .error .panic
    | some (v, bitsR) => Decoder.run made (k v) { r with bitsR := bitsR }
  | .viewBits n k, r =>
    match r.bitsR.view n with
    | none => .error .panic
    | some v => Decoder.run made (k v) r
  | .readByte k, r =>
    match r.bytesR.readByte with
    | none => .error .panic
    | some (b, bytesR) => Decoder.run made (k b) { r with bytesR := bytesR }
  | .readBytes n k, r =>
    match r.bytesR.read n with
    | none => .error .panic
    | some (bs, bytesR) => Decoder.run made (k bs) { r with bytesR := bytesR }
  | .omitted c holds k, r =>
    if made c && !holds then .error .panic else Decoder.run made k r

/-- Bits are read as they are in the streams. -/
theorem Decoder.run_readBits (n : ℕ) (k : ℕ → Decoder ε κ α) (r : Reader) :
    Decoder.run made (.readBits n k) r =
      if n ≤ r.streams.bits.length then
        Decoder.run made (k (BitList.toNat (r.streams.bits.take n) % 2 ^ 64)) (r.skipBits n)
      else .error .panic := by
  have hread := r.bitsR.read_eq (n := n)
  by_cases hn : n ≤ r.bitsR.rest.length
  · rw [if_pos hn] at hread
    rw [if_pos (show n ≤ r.streams.bits.length from hn), Decoder.run, hread]
    rfl
  · rw [if_neg hn] at hread
    rw [if_neg (show ¬ n ≤ r.streams.bits.length from hn), Decoder.run, hread]

/-- Bits are seen as they are in the streams. -/
theorem Decoder.run_viewBits (n : ℕ) (k : ℕ → Decoder ε κ α) (r : Reader) :
    Decoder.run made (.viewBits n k) r =
      if n ≤ r.streams.bits.length then
        Decoder.run made (k (BitList.toNat (r.streams.bits.take n) % 2 ^ 64)) r
      else .error .panic := by
  have hview := r.bitsR.view_eq n
  by_cases hn : n ≤ r.bitsR.rest.length
  · rw [if_pos hn] at hview
    rw [if_pos (show n ≤ r.streams.bits.length from hn), Decoder.run, hview]
    rfl
  · rw [if_neg hn] at hview
    rw [if_neg (show ¬ n ≤ r.streams.bits.length from hn), Decoder.run, hview]

/-- Inversion of a read of a byte. -/
theorem Decoder.run_readByte_eq_ok {k : UInt8 → Decoder ε κ α} {r r' : Reader} {a : α}
    (h : Decoder.run made (.readByte k) r = .ok (a, r')) :
    ∃ b, r.streams.bytes = b :: (r.skipBytes 1).streams.bytes ∧
      Decoder.run made (k b) (r.skipBytes 1) = .ok (a, r') := by
  simp only [Decoder.run] at h
  split at h
  · cases h
  · rename_i b bytesR hread
    obtain ⟨rfl, hrest⟩ := FastReader.readByte_eq_some hread
    exact ⟨b, hrest, h⟩

/-- Inversion of a read of bytes: whatever it returns, the cursor moves on. -/
theorem Decoder.run_readBytes_eq_ok {n : ℕ} {k : List UInt8 → Decoder ε κ α} {r r' : Reader} {a : α}
    (h : Decoder.run made (.readBytes n k) r = .ok (a, r')) :
    ∃ bs, r.bytesR.read n = some (bs, (r.skipBytes n).bytesR) ∧
      Decoder.run made (k bs) (r.skipBytes n) = .ok (a, r') := by
  simp only [Decoder.run] at h
  split at h
  · cases h
  · rename_i bs bytesR hread
    obtain rfl := FastReader.read_eq_some hread
    exact ⟨bs, hread, h⟩

/-- A run keeps the buffer and never moves the byte cursor back. -/
theorem Decoder.run_offset_le :
    ∀ {r r' : Reader} {a : α}, Decoder.run made d r = .ok (a, r') →
      r'.bytesR.buf = r.bytesR.buf ∧ r.bytesR.offset ≤ r'.bytesR.offset := by
  induction d with
  | ret a =>
    intro r r' a' h
    rw [Decoder.run, Except.ok.injEq, Prod.mk.injEq] at h
    rw [← h.2]
    exact ⟨rfl, Nat.le_refl _⟩
  | panic => intro r r' a h; cases h
  | fail e => intro r r' a h; cases h
  | readBits n k ih =>
    intro r r' a h
    rw [Decoder.run_readBits] at h
    split at h
    · have hmoved := ih _ h
      exact hmoved
    · cases h
  | viewBits n k ih =>
    intro r r' a h
    rw [Decoder.run_viewBits] at h
    split at h
    · exact ih _ h
    · cases h
  | readByte k ih =>
    intro r r' a h
    obtain ⟨b, -, h⟩ := Decoder.run_readByte_eq_ok h
    obtain ⟨hbuf, hle⟩ := ih _ h
    exact ⟨hbuf, Nat.le_trans (Nat.le_succ _) hle⟩
  | readBytes n k ih =>
    intro r r' a h
    obtain ⟨bs, -, h⟩ := Decoder.run_readBytes_eq_ok h
    obtain ⟨hbuf, hle⟩ := ih _ h
    exact ⟨hbuf, Nat.le_trans (Nat.le_add_right _ _) hle⟩
  | omitted c holds k ih =>
    intro r r' a h
    simp only [Decoder.run] at h
    split at h
    · cases h
    · exact ih h

/-- Slicing goes up to the capacity, but if the run ends inside the buffer, this read was. -/
theorem Decoder.read_within {r r' : Reader} {a : α} {n : ℕ} {bs : List UInt8}
    (hread : r.bytesR.read n = some (bs, (r.skipBytes n).bytesR))
    (hrun : Decoder.run made d (r.skipBytes n) = .ok (a, r')) (hin : r'.bytesR.InBounds) :
    r.bytesR.offset + n ≤ r.bytesR.buf.data.length ∧ bs = r.bytesR.rest.take n := by
  obtain ⟨hbuf, hle⟩ := Decoder.run_offset_le hrun
  have hoff : r.bytesR.offset + n ≤ r.bytesR.buf.data.length := by
    rw [FastReader.InBounds, hbuf] at hin
    exact Nat.le_trans hle hin
  rw [FastReader.read_eq hoff, Option.some.injEq, Prod.mk.injEq] at hread
  exact ⟨hoff, hread.1.symm⟩

/-- **Soundness.** A run that ends inside the buffer reads the streams. -/
theorem Decoder.run_sound :
    ∀ {r r' : Reader} {a : α}, Decoder.run made d r = .ok (a, r') → r'.bytesR.InBounds →
      d.parse made r.streams = some (a, r'.streams) := by
  induction d with
  | ret a =>
    intro r r' a' h _
    rw [Decoder.run, Except.ok.injEq, Prod.mk.injEq] at h
    obtain ⟨rfl, rfl⟩ := h
    rfl
  | panic => intro r r' a h; cases h
  | fail e => intro r r' a h; cases h
  | readBits n k ih =>
    intro r r' a h hin
    rw [Decoder.run_readBits] at h
    rw [Decoder.parse, ← Reader.streams_skipBits]
    split at h
    · rename_i hn
      rw [if_pos hn]
      exact ih _ h hin
    · cases h
  | viewBits n k ih =>
    intro r r' a h hin
    rw [Decoder.run_viewBits] at h
    rw [Decoder.parse]
    split at h
    · rename_i hn
      rw [if_pos hn]
      exact ih _ h hin
    · cases h
  | readByte k ih =>
    intro r r' a h hin
    obtain ⟨b, hrest, h⟩ := Decoder.run_readByte_eq_ok h
    simp only [Decoder.parse, hrest]
    exact ih _ h hin
  | readBytes n k ih =>
    intro r r' a h hin
    obtain ⟨bs, hread, h⟩ := Decoder.run_readBytes_eq_ok h
    obtain ⟨hoff, rfl⟩ := Decoder.read_within hread h hin
    have hn : n ≤ r.streams.bytes.length := by
      rw [Reader.streams, FastReader.length_rest]
      omega
    rw [Decoder.parse, ← Reader.streams_skipBytes, if_pos hn]
    exact ih _ h hin
  | omitted c holds k ih =>
    intro r r' a h hin
    simp only [Decoder.run] at h
    by_cases hc : (made c && !holds) = true
    · rw [if_pos hc] at h
      cases h
    · rw [if_neg hc] at h
      rw [Decoder.parse, if_neg hc]
      exact ih h hin

/-- **Completeness.** Every reading of the streams is a run, which ends inside
the buffer with the rest of the streams left. -/
theorem Decoder.run_complete :
    ∀ {r : Reader} {a : α} {s : Streams}, d.parse made r.streams = some (a, s) →
      r.bytesR.InBounds →
      ∃ r', Decoder.run made d r = .ok (a, r') ∧ r'.streams = s ∧ r'.bytesR.InBounds := by
  induction d with
  | ret a =>
    intro r a' s h hin
    rw [Decoder.parse_ret, Option.some.injEq, Prod.mk.injEq] at h
    obtain ⟨rfl, rfl⟩ := h
    exact ⟨r, rfl, rfl, hin⟩
  | panic => intro r a s h; cases h
  | fail e => intro r a s h; cases h
  | readBits n k ih =>
    intro r a s h hin
    rw [Decoder.parse, ← Reader.streams_skipBits] at h
    rw [Decoder.run_readBits]
    split at h
    · rename_i hn
      rw [if_pos hn]
      exact ih _ h hin
    · cases h
  | viewBits n k ih =>
    intro r a s h hin
    rw [Decoder.parse] at h
    rw [Decoder.run_viewBits]
    split at h
    · rename_i hn
      rw [if_pos hn]
      exact ih _ h hin
    · cases h
  | readByte k ih =>
    intro r a s h hin
    simp only [Decoder.parse] at h
    split at h
    · cases h
    · rename_i v vs hrest
      have hread := FastReader.readByte_of_rest hrest
      have hlen := congrArg List.length hrest
      rw [Reader.streams, FastReader.length_rest, List.length_cons] at hlen
      have hskip : (r.skipBytes 1).streams = { r.streams with bytes := vs } := by
        rw [Reader.streams_skipBytes, hrest]
        rfl
      simp only [Decoder.run, hread]
      rw [← hskip] at h
      refine ih _ h ?_
      simp only [FastReader.InBounds]
      omega
  | readBytes n k ih =>
    intro r a s h hin
    rw [Decoder.parse, ← Reader.streams_skipBytes] at h
    split at h
    · rename_i hn
      have hlen : r.bytesR.offset + n ≤ r.bytesR.buf.data.length := by
        rw [Reader.streams, FastReader.length_rest] at hn
        rw [FastReader.InBounds] at hin
        omega
      simp only [Decoder.run, FastReader.read_eq hlen]
      exact ih _ h hlen
    · cases h
  | omitted c holds k ih =>
    intro r a s h hin
    rw [Decoder.parse] at h
    by_cases hc : (made c && !holds) = true
    · rw [if_pos hc] at h
      cases h
    · rw [if_neg hc] at h
      rw [Decoder.run, if_neg hc]
      exact ih h hin

end DecoderRun

/-! ## `cser.Writer` and runs of encoders -/

/-- `cser.Writer` -/
structure Writer where
  /-- the bit array being written -/
  bitsW : BitsWriter
  /-- the byte buffer being written -/
  bytesW : FastWriter

namespace Writer

/-- `NewWriter` -/
def new : Writer := ⟨BitsWriter.new, ⟨[]⟩⟩

/-- The writer holds these streams. -/
def Holds (w : Writer) (s : Streams) : Prop := w.bitsW.Holds s.bits ∧ w.bytesW.buf = s.bytes

theorem holds_new : new.Holds ∅ := ⟨BitsWriter.holds_new, rfl⟩

end Writer

section EncoderRun

variable {ε α : Type}

/-- Run an encoder on the two cursors. -/
def Encoder.run : Encoder ε α → Writer → Except (Fault ε) (α × Writer)
  | .ret a, w => .ok (a, w)
  | .panic, _ => .error .panic
  | .fail e, _ => .error (.error e)
  | .writeBits n v k, w => Encoder.run k { w with bitsW := w.bitsW.write n v }
  | .writeByte b k, w => Encoder.run k { w with bytesW := w.bytesW.writeByte b }
  | .writeBytes bs k, w => Encoder.run k { w with bytesW := w.bytesW.write bs }

theorem Encoder.run_ne_panic {m : Encoder ε α} :
    ∀ {w : Writer}, m.NoPanic → Encoder.run m w ≠ .error .panic := by
  induction m with
  | ret a => exact fun _ h => by cases h
  | panic => exact fun hm => hm.elim
  | fail e => exact fun _ h => by cases h
  | writeBits n v k ih => exact fun hm => ih hm
  | writeByte b k ih => exact fun hm => ih hm
  | writeBytes bs k ih => exact fun hm => ih hm

/-- A run of which the first step appends `o₁`. -/
theorem Encoder.run_emit_step {m k : Encoder ε α} {w w₁ : Writer} {s o₁ : Streams}
    (h : (k.emit = none ∧ ∃ f, Encoder.run k w₁ = .error f) ∨
      ∃ a o w', k.emit = some (a, o) ∧ Encoder.run k w₁ = .ok (a, w') ∧ w'.Holds (s ++ o₁ ++ o))
    (hrun : Encoder.run m w = Encoder.run k w₁)
    (hemit : m.emit = k.emit.map fun p => (p.1, o₁ ++ p.2)) :
    (m.emit = none ∧ ∃ f, Encoder.run m w = .error f) ∨
      ∃ a o w', m.emit = some (a, o) ∧ Encoder.run m w = .ok (a, w') ∧ w'.Holds (s ++ o) := by
  rw [hrun, hemit]
  rcases h with ⟨hnone, hfault⟩ | ⟨a, o, w', hsome, hok, hholds⟩
  · exact Or.inl ⟨by rw [hnone, Option.map_none], hfault⟩
  · rw [Streams.append_assoc] at hholds
    exact Or.inr ⟨a, o₁ ++ o, w', by rw [hsome, Option.map_some], hok, hholds⟩

/-- **A run appends what the encoder emits**, and ends with a fault exactly
when the encoder emits nothing. -/
theorem Encoder.run_emit {m : Encoder ε α} :
    ∀ {w : Writer} {s : Streams}, m.Sized → w.Holds s →
      (m.emit = none ∧ ∃ f, Encoder.run m w = .error f) ∨
      ∃ a o w', m.emit = some (a, o) ∧ Encoder.run m w = .ok (a, w') ∧ w'.Holds (s ++ o) := by
  induction m with
  | ret a =>
    intro w s _ h
    exact Or.inr ⟨a, ∅, w, rfl, rfl, by rw [Streams.append_empty]; exact h⟩
  | panic => intro w s _ _; exact Or.inl ⟨rfl, _, rfl⟩
  | fail e => intro w s _ _; exact Or.inl ⟨rfl, _, rfl⟩
  | writeBits n v k ih =>
    intro w s hs h
    obtain ⟨hn, hv, hk⟩ := hs
    have hstep :
        Writer.Holds { w with bitsW := w.bitsW.write n v } (s ++ ⟨BitList.ofNat n v, []⟩) :=
      ⟨h.1.write hn hv, by simp [h.2]⟩
    exact Encoder.run_emit_step (ih hk hstep) rfl rfl
  | writeByte b k ih =>
    intro w s hs h
    have hstep : Writer.Holds { w with bytesW := w.bytesW.writeByte b } (s ++ ⟨[], [b]⟩) :=
      ⟨by simpa using h.1, by simp [FastWriter.writeByte, h.2]⟩
    exact Encoder.run_emit_step (ih hs hstep) rfl rfl
  | writeBytes bs k ih =>
    intro w s hs h
    have hstep : Writer.Holds { w with bytesW := w.bytesW.write bs } (s ++ ⟨[], bs⟩) :=
      ⟨by simpa using h.1, by simp [FastWriter.write, h.2]⟩
    exact Encoder.run_emit_step (ih hs hstep) rfl rfl

end EncoderRun

end Zilionixx
