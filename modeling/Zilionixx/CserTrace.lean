import Zilionixx.CserBinary

/-!
# What an accepted decoding has read

A run of a decoder, recorded: how many bits it has taken, and which bytes each read has
returned, with the offset of the read. `UnmarshalBinaryAdapter` looks at the cursors only
when the decoder is done. For the bytes that is enough: the offset never moves back, so
if it stands at the end of the body, every read was inside the body (`Consumes`).

For the bits it is not. The test `NonReadBytes() > 1` lets a whole byte pass that has not
been read, if the bits before it fill their bytes.
-/

namespace Zilionixx

open Codec BitList

/-! ## Recorded runs -/

/-- What the reads of a run have returned. -/
structure ReadTrace where
  /-- how many bits have been taken -/
  bits : ℕ
  /-- the reads of bytes: the offset, and the bytes -/
  reads : List (ℕ × List UInt8)

namespace ReadTrace

/-- Nothing has been read. -/
def empty : ReadTrace := ⟨0, []⟩

/-- All the bytes, in reading order. -/
def bytes (t : ReadTrace) : List UInt8 := t.reads.flatMap Prod.snd

/-- Bits that are taken first. -/
def consBits (n : ℕ) (t : ReadTrace) : ReadTrace := { t with bits := n + t.bits }

/-- A read of bytes that comes first. -/
def consRead (offset : ℕ) (bs : List UInt8) (t : ReadTrace) : ReadTrace :=
  { t with reads := (offset, bs) :: t.reads }

theorem bytes_consRead (offset : ℕ) (bs : List UInt8) (t : ReadTrace) :
    (t.consRead offset bs).bytes = bs ++ t.bytes := List.flatMap_cons

end ReadTrace

variable {ε κ α : Type} {made : κ → Bool}

/-- The trace of a run that is continued. -/
def traceWith (f : ReadTrace → ReadTrace) (m : Except (Fault ε) (α × Reader × ReadTrace)) :
    Except (Fault ε) (α × Reader × ReadTrace) :=
  m.map fun x => (x.1, x.2.1, f x.2.2)

/-- `Decoder.run`, with what is read. -/
def Decoder.traced (made : κ → Bool) :
    Decoder ε κ α → Reader → Except (Fault ε) (α × Reader × ReadTrace)
  | .ret a, r => .ok (a, r, .empty)
  | .panic, _ => .error .panic
  | .fail e, _ => .error (.error e)
  | .readBits n k, r =>
    match r.bitsR.read n with
    | none => .error .panic
    | some (v, bitsR) =>
      traceWith (.consBits n) (Decoder.traced made (k v) { r with bitsR := bitsR })
  | .viewBits n k, r =>
    match r.bitsR.view n with
    | none => .error .panic
    | some v => Decoder.traced made (k v) r
  | .readByte k, r =>
    match r.bytesR.readByte with
    | none => .error .panic
    | some (b, bytesR) =>
      traceWith (.consRead r.bytesR.offset [b])
        (Decoder.traced made (k b) { r with bytesR := bytesR })
  | .readBytes n k, r =>
    match r.bytesR.read n with
    | none => .error .panic
    | some (bs, bytesR) =>
      traceWith (.consRead r.bytesR.offset bs)
        (Decoder.traced made (k bs) { r with bytesR := bytesR })
  | .omitted c holds k, r =>
    if made c && !holds then .error .panic else Decoder.traced made k r

/-- A recorded run without its trace. -/
def untraced (m : Except (Fault ε) (α × Reader × ReadTrace)) : Except (Fault ε) (α × Reader) :=
  m.map fun x => (x.1, x.2.1)

theorem untraced_traceWith (f : ReadTrace → ReadTrace)
    (m : Except (Fault ε) (α × Reader × ReadTrace)) : untraced (traceWith f m) = untraced m := by
  cases m <;> rfl

theorem traceWith_eq_ok {f : ReadTrace → ReadTrace} {m : Except (Fault ε) (α × Reader × ReadTrace)}
    {a : α} {r : Reader} {t : ReadTrace} (h : traceWith f m = .ok (a, r, t)) :
    ∃ t₁, m = .ok (a, r, t₁) ∧ t = f t₁ := by
  cases m with
  | error => cases h
  | ok x =>
    cases h
    exact ⟨x.2.2, rfl, rfl⟩

/-- Recording does not change a run. -/
theorem Decoder.untraced_traced (d : Decoder ε κ α) (r : Reader) :
    untraced (Decoder.traced made d r) = Decoder.run made d r := by
  induction d generalizing r with
  | ret a => rfl
  | panic => rfl
  | fail e => rfl
  | readBits n k ih =>
    simp only [Decoder.traced, Decoder.run]
    cases r.bitsR.read n with
    | none => rfl
    | some x => exact (untraced_traceWith _ _).trans (ih _ _)
  | viewBits n k ih =>
    simp only [Decoder.traced, Decoder.run]
    cases r.bitsR.view n with
    | none => rfl
    | some v => exact ih _ _
  | readByte k ih =>
    simp only [Decoder.traced, Decoder.run]
    cases r.bytesR.readByte with
    | none => rfl
    | some x => exact (untraced_traceWith _ _).trans (ih _ _)
  | readBytes n k ih =>
    simp only [Decoder.traced, Decoder.run]
    cases r.bytesR.read n with
    | none => rfl
    | some x => exact (untraced_traceWith _ _).trans (ih _ _)
  | omitted c holds k ih =>
    simp only [Decoder.traced, Decoder.run]
    split
    · rfl
    · exact ih _

/-- Tracing does not change a run. -/
theorem Decoder.run_of_traced {d : Decoder ε κ α} {r r' : Reader} {a : α} {t : ReadTrace}
    (h : Decoder.traced made d r = .ok (a, r', t)) : Decoder.run made d r = .ok (a, r') := by
  rw [← Decoder.untraced_traced, h]
  rfl

/-! ## Reads inside the buffer -/

/-- A read that returns elements of a slice, from its offset on. -/
def Within (data : List UInt8) (x : ℕ × List UInt8) : Prop :=
  x.1 + x.2.length ≤ data.length ∧ x.2 = (data.drop x.1).take x.2.length

/-- The second reader is left when the first has read what the trace says, all of it
inside the buffer. -/
structure Consumes (r r' : Reader) (t : ReadTrace) : Prop where
  buf : r'.bytesR.buf = r.bytesR.buf
  le : t.bits ≤ r.bitsR.rest.length
  bits : r'.bitsR.rest = r.bitsR.rest.drop t.bits
  bytes : r.bytesR.rest = t.bytes ++ r'.bytesR.rest
  within : ∀ x ∈ t.reads, Within r.bytesR.buf.data x

namespace Consumes

theorem refl (r : Reader) : Consumes r r .empty :=
  ⟨rfl, Nat.zero_le _, rfl, rfl, List.forall_mem_nil _⟩

variable {r r' : Reader} {t : ReadTrace}

theorem consBits {n : ℕ} (hn : n ≤ r.bitsR.rest.length) (h : Consumes (r.skipBits n) r' t) :
    Consumes r r' (t.consBits n) := by
  have hrest : (r.skipBits n).bitsR.rest = r.bitsR.rest.drop n := BitsReader.rest_seek _ _
  refine ⟨h.buf, ?_, ?_, h.bytes, h.within⟩
  · have hle := h.le
    rw [hrest, List.length_drop] at hle
    simp only [ReadTrace.consBits]
    omega
  · rw [h.bits, hrest, List.drop_drop]
    rfl

theorem consRead {n : ℕ} (hn : r.bytesR.offset + n ≤ r.bytesR.buf.data.length)
    (h : Consumes (r.skipBytes n) r' t) :
    Consumes r r' (t.consRead r.bytesR.offset (r.bytesR.rest.take n)) := by
  have hlength : (r.bytesR.rest.take n).length = n := by
    rw [List.length_take, FastReader.length_rest]
    omega
  have hrest : (r.skipBytes n).bytesR.rest = r.bytesR.rest.drop n := by
    simp only [FastReader.rest, Reader.skipBytes, List.drop_drop]
  refine ⟨h.buf, h.le, h.bits, ?_, List.forall_mem_cons.mpr ⟨⟨?_, ?_⟩, h.within⟩⟩
  · rw [ReadTrace.bytes_consRead, List.append_assoc, ← h.bytes, hrest, List.take_append_drop]
  · rw [hlength]
    exact hn
  · rw [hlength]
    rfl

end Consumes

/-- A run that ends inside the buffer has read inside the buffer only. -/
theorem Decoder.consumes_of_traced {d : Decoder ε κ α} {r r' : Reader} {a : α} {t : ReadTrace}
    (h : Decoder.traced made d r = .ok (a, r', t)) (hin : r'.bytesR.InBounds) :
    Consumes r r' t := by
  induction d generalizing r t with
  | ret a =>
    cases h
    exact Consumes.refl _
  | panic => cases h
  | fail e => cases h
  | readBits n k ih =>
    simp only [Decoder.traced, BitsReader.read_eq] at h
    by_cases hn : n ≤ r.bitsR.rest.length
    · rw [if_pos hn] at h
      obtain ⟨t₁, hk, rfl⟩ := traceWith_eq_ok h
      exact Consumes.consBits hn (ih _ hk)
    · rw [if_neg hn] at h
      cases h
  | viewBits n k ih =>
    simp only [Decoder.traced] at h
    cases hview : r.bitsR.view n with
    | none => simp [hview] at h
    | some v =>
      rw [hview] at h
      exact ih _ h
  | readByte k ih =>
    simp only [Decoder.traced] at h
    cases hread : r.bytesR.readByte with
    | none => simp [hread] at h
    | some x =>
      obtain ⟨v, bytesR⟩ := x
      rw [hread] at h
      obtain ⟨t₁, hk, rfl⟩ := traceWith_eq_ok h
      obtain ⟨rfl, hrest⟩ := FastReader.readByte_eq_some hread
      have hlength := congrArg List.length hrest
      rw [FastReader.length_rest, List.length_cons] at hlength
      have hbyte : [v] = r.bytesR.rest.take 1 := by
        rw [hrest]
        rfl
      rw [hbyte]
      exact Consumes.consRead (by omega) (ih _ hk)
  | readBytes n k ih =>
    simp only [Decoder.traced] at h
    cases hread : r.bytesR.read n with
    | none => simp [hread] at h
    | some x =>
      obtain ⟨bs, bytesR⟩ := x
      rw [hread] at h
      obtain ⟨t₁, hk, rfl⟩ := traceWith_eq_ok h
      obtain rfl := FastReader.read_eq_some hread
      obtain ⟨hoff, rfl⟩ := Decoder.read_within hread (Decoder.run_of_traced hk) hin
      exact Consumes.consRead hoff (ih _ hk)
  | omitted c holds k ih =>
    simp only [Decoder.traced] at h
    split at h
    · cases h
    · exact ih h

/-! ## Accepted byte strings -/

/-- `UnmarshalBinaryAdapter`, with what the decoder has read. -/
def unmarshalTraced (made : MissingCheck → Bool) (raw : Slice) (unmarshalCser : Decode α) :
    Except SerError (α × ReadTrace) :=
  match binaryToCSER raw with
  | .error f => .error f.recover
  | .ok (bbits, bbytes) =>
    match Decoder.traced made unmarshalCser ⟨BitsReader.new bbits, FastReader.new bbytes⟩ with
    | .error f => .error f.recover
    | .ok (a, bodyReader, t) =>
      match checkAllRead made bodyReader with
      | .error e => .error e
      | .ok () => .ok (a, t)

/-- Everything in the two sections has been read, but for a padding of zero bits. -/
structure AllRead (made : MissingCheck → Bool) (bbits bbytes : List UInt8)
    (t : ReadTrace) : Prop where
  padding : ∃ pad ≤ 8, (made .bitPadding = true → pad < 8) ∧ t.bits + pad = 8 * bbits.length ∧
    (unpack bbits).drop t.bits = List.replicate pad false
  bytes : t.bytes = bbytes
  within : ∀ x ∈ t.reads, Within bbytes x

/-- An accepted decoding has read everything in the sections. -/
theorem allRead_of_unmarshal {made : MissingCheck → Bool} {raw : Slice} {d : Decode α} {a : α}
    (h : unmarshalBinaryAdapter made raw d = .ok a) :
    ∃ t bbits bbytes, unmarshalTraced made raw d = .ok (a, t) ∧
      binaryToCSER raw = .ok (bbits, bbytes) ∧ raw.data = pack bbits bbytes.data ∧
      AllRead made bbits bbytes.data t := by
  rw [unmarshalBinaryAdapter] at h
  rcases hcser : binaryToCSER raw with f | ⟨bbits, bbytes⟩
  · rw [hcser] at h
    cases h
  simp only [hcser, ← Decoder.untraced_traced] at h
  rcases hrun : Decoder.traced made d ⟨BitsReader.new bbits, FastReader.new bbytes⟩ with
    f | ⟨b, r, t⟩
  · rw [hrun] at h
    cases h
  simp only [hrun, untraced, Except.map] at h
  rcases hall : checkAllRead made r with e | ⟨⟨⟩⟩
  · rw [hall] at h
    cases h
  rw [hall, Except.ok.injEq] at h
  subst h
  obtain ⟨hin, pad, hpad, hlt, hstreams⟩ := checkAllRead_eq_ok.mp hall
  have hconsumes := Decoder.consumes_of_traced hrun hin
  have hbits : (unpack bbits).drop t.bits = List.replicate pad false :=
    hconsumes.bits.symm.trans (congrArg Streams.bits hstreams)
  have hle : t.bits ≤ (unpack bbits).length := hconsumes.le
  have hlength := congrArg List.length hbits
  rw [List.length_drop, List.length_replicate] at hlength
  rw [length_unpack] at hlength hle
  have hbytes : bbytes.data = t.bytes ++ r.bytesR.rest := hconsumes.bytes
  rw [show r.bytesR.rest = [] from congrArg Streams.bytes hstreams, List.append_nil] at hbytes
  refine ⟨t, bbits, bbytes, ?_, rfl, (binaryToCSER_eq_ok.mp hcser).1,
    ⟨⟨pad, hpad, hlt, by omega, hbits⟩, hbytes.symm, hconsumes.within⟩⟩
  simp only [unmarshalTraced, hcser, hrun, hall]

/-- **Accepted decodes read the body, exactly once.** If `UnmarshalBinaryAdapter` accepts a
byte string, then the bytes that its decoder has read, one read after the other, are the
body section. Each read was inside the body, whatever lies behind it in memory. -/
theorem accepted_reads_body (raw : Slice) (d : Decode α) (a : α)
    (h : unmarshalBinaryAdapter Decoder.lax raw d = .ok a) :
    ∃ t bbits bbytes, unmarshalTraced Decoder.lax raw d = .ok (a, t) ∧
      binaryToCSER raw = .ok (bbits, bbytes) ∧ raw.data = pack bbits bbytes.data ∧
      t.reads.flatMap Prod.snd = bbytes.data ∧
      ∀ x ∈ t.reads, x.1 + x.2.length ≤ bbytes.data.length ∧
        x.2 = (bbytes.data.drop x.1).take x.2.length := by
  obtain ⟨t, bbits, bbytes, htraced, hcser, hraw, hall⟩ := allRead_of_unmarshal h
  exact ⟨t, bbits, bbytes, htraced, hcser, hraw, hall.bytes, hall.within⟩

/-- A decoder of a flag and two bytes. -/
def readFlagged : Decode (Bool × UInt8 × UInt8) := do
  let flag ← Reader.bool
  let x ← Reader.u8
  let y ← Reader.u8
  pure (flag, x, y)

/-- The bytes 7 and 9 with a set flag, and other memory behind. -/
def flaggedRaw : Slice := ⟨[7, 9, 1, 0x81], [1, 2, 3], by decide⟩

theorem data_flaggedRaw : flaggedRaw.data = pack [1] [7, 9] := by
  simp [flaggedRaw, pack, compact]

theorem unmarshal_flaggedRaw :
    unmarshalBinaryAdapter Decoder.lax flaggedRaw readFlagged = .ok (true, 7, 9) :=
  unmarshalBinaryAdapter_eq_ok.mpr ⟨[1], [7, 9], 7, data_flaggedRaw, by decide,
    fun h => absurd h (by decide), rfl⟩

theorem accepted_reads_body_flaggedRaw :
    ∃ t, unmarshalTraced Decoder.lax flaggedRaw readFlagged = .ok ((true, 7, 9), t) ∧
      t.reads.flatMap Prod.snd = [7, 9] := by
  obtain ⟨t, bbits, bbytes, htraced, -, hraw, hbytes, -⟩ :=
    accepted_reads_body flaggedRaw readFlagged _ unmarshal_flaggedRaw
  obtain ⟨-, hbody⟩ := pack_injective (data_flaggedRaw.symm.trans hraw)
  exact ⟨t, htraced, hbytes.trans hbody.symm⟩

/-- **The slack in the bit section.** If a decoder that has taken `k` bits is accepted, all
bits of the bit section after the `k`-th are zero. The section has as many bytes as it
takes for `k` bits, exactly if it does not have a whole byte more than `k` bits; it never
has if `k` is not a multiple of 8. -/
theorem bit_section_exact_iff (raw : Slice) (d : Decode α) (a : α)
    (h : unmarshalBinaryAdapter Decoder.lax raw d = .ok a) :
    ∃ t bbits bbytes, unmarshalTraced Decoder.lax raw d = .ok (a, t) ∧
      binaryToCSER raw = .ok (bbits, bbytes) ∧ raw.data = pack bbits bbytes.data ∧
      (∀ b ∈ (unpack bbits).drop t.bits, b = false) ∧
      (bbits.length = (t.bits + 7) / 8 ↔ ¬8 * bbits.length = t.bits + 8) ∧
      (¬8 ∣ t.bits → bbits.length = (t.bits + 7) / 8) := by
  obtain ⟨t, bbits, bbytes, htraced, hcser, hraw, hall⟩ := allRead_of_unmarshal h
  obtain ⟨pad, hpad, -, hlength, hbits⟩ := hall.padding
  refine ⟨t, bbits, bbytes, htraced, hcser, hraw, ?_, ?_, ?_⟩
  · rw [hbits]
    exact fun b hmem => List.eq_of_mem_replicate hmem
  · omega
  · omega

theorem bit_section_exact_flaggedRaw :
    ∃ t, unmarshalTraced Decoder.lax flaggedRaw readFlagged = .ok ((true, 7, 9), t) ∧
      (1 = (t.bits + 7) / 8 ↔ ¬8 * 1 = t.bits + 8) := by
  obtain ⟨t, bbits, bbytes, htraced, -, hraw, -, hexact, -⟩ :=
    bit_section_exact_iff flaggedRaw readFlagged _ unmarshal_flaggedRaw
  obtain ⟨rfl, -⟩ := pack_injective (data_flaggedRaw.symm.trans hraw)
  exact ⟨t, htraced, hexact⟩

/-- The byte 5, and a byte of bits that nobody reads. -/
def slackRaw : Slice := ⟨[5, 0, 0x81], [], by decide⟩

theorem data_slackRaw : slackRaw.data = pack [0] [5] := by
  simp [slackRaw, pack, compact]

/-- A decoder that takes no bits is accepted, though there is a byte of bits. -/
theorem bit_section_slack :
    unmarshalBinaryAdapter Decoder.lax slackRaw Reader.u8 = .ok 5 ∧
      ∃ t bbytes, unmarshalTraced Decoder.lax slackRaw Reader.u8 = .ok (5, t) ∧ t.bits = 0 ∧
        binaryToCSER slackRaw = .ok ([0], bbytes) ∧
          ([0] : List UInt8).length ≠ (t.bits + 7) / 8 := by
  have haccepted : unmarshalBinaryAdapter Decoder.lax slackRaw Reader.u8 = .ok 5 :=
    unmarshalBinaryAdapter_eq_ok.mpr ⟨[0], [5], 8, data_slackRaw, by decide,
      fun h => absurd h (by decide), rfl⟩
  obtain ⟨t, bbits, bbytes, htraced, hcser, hraw, -⟩ := allRead_of_unmarshal haccepted
  obtain ⟨rfl, -⟩ := pack_injective (data_slackRaw.symm.trans hraw)
  have hbits : t.bits = 0 := by
    simp only [unmarshalTraced, hcser, Reader.u8, Decoder.byte, Decoder.traced] at htraced
    cases hread : (FastReader.new bbytes).readByte with
    | none => simp [hread] at htraced
    | some x =>
      simp only [hread, traceWith, Except.map] at htraced
      split at htraced
      · cases htraced
      · rw [← (Prod.mk.inj (Except.ok.inj htraced)).2]
        rfl
  exact ⟨haccepted, t, bbytes, htraced, hbits, hcser, by simp [hbits]⟩

end Zilionixx
