import Mathlib.Data.UInt
import Zilionixx.CserBinary
import Zilionixx.Transaction

/-!
# `inter`: events and their serializer

`event.go` and `event_serializer.go`. An event is a header, which is what gets
hashed, with a signature and a list of transactions. Parents are written as a
lamport difference and the tail of their ID: the epoch and the lamport of a
parent are implied by those of the event.

The hash functions are not part of this repository; they come in as a
`Hashing`, about which nothing is assumed.
-/

namespace Zilionixx

open Codec

/-- `inter.Timestamp`, UNIX nanoseconds. -/
abbrev Timestamp := UInt64

/-- `inter.Signature` -/
abbrev Signature := List.Vector UInt8 64

/-- `hash.Event`, the ID of an event: epoch, lamport and the start of its hash. -/
structure EventID where
  /-- the first four bytes -/
  epoch : UInt32
  /-- the next four bytes -/
  lamport : UInt32
  /-- the other 24 bytes -/
  tail : List.Vector UInt8 24
  deriving DecidableEq

/-- There are gas power kinds; as a constant, it is one term in all modules. -/
instance neZero_two : NeZero 2 := ⟨by decide⟩

/-- `inter.GasPowerLeft`: short-term and long-term gas power. -/
structure GasPowerLeft where
  /-- `Gas` -/
  gas : Fin 2 → UInt64
  deriving DecidableEq

/-- The fields of `dag.BaseEvent` other than the ID, and those of
`extEventData`: what the serialization of an event header covers. -/
structure EventHeader where
  /-- `Epoch` -/
  epoch : UInt32
  /-- `Lamport` -/
  lamport : UInt32
  /-- `Creator` -/
  creator : UInt32
  /-- `Seq` -/
  seq : UInt32
  /-- `Frame` -/
  frame : UInt32
  /-- `creationTime` -/
  creationTime : Timestamp
  /-- `medianTime` -/
  medianTime : Timestamp
  /-- `gasPowerUsed` -/
  gasPowerUsed : UInt64
  /-- `gasPowerLeft` -/
  gasPowerLeft : GasPowerLeft
  /-- `Parents` -/
  parents : List EventID
  /-- `prevEpochHash` -/
  prevEpochHash : Option Hash
  /-- `txHash` -/
  txHash : Hash
  /-- `extra` -/
  extra : List UInt8
  deriving DecidableEq

/-- `inter.MutableEventPayload` -/
structure MutableEventPayload extends EventHeader where
  /-- `sig` -/
  sig : Signature
  /-- `txs` -/
  txs : List Transaction
  deriving DecidableEq

/-- `inter.EventPayload`: a payload with its cached ID, hash and size. -/
structure EventPayload extends MutableEventPayload where
  /-- `ID` -/
  id : EventID
  /-- `_hash`, returned by `HashToSign` -/
  hashToSign : Hash
  /-- `_size`, returned by `Size` -/
  size : ℕ
  deriving DecidableEq

/-- `inter.Event`: a header with its cached ID and hash. -/
structure Event extends EventHeader where
  /-- `ID` -/
  id : EventID
  /-- `_hash`, returned by `HashToSign` -/
  hashToSign : Hash
  deriving DecidableEq

/-- `e.Event` -/
def EventPayload.event (e : EventPayload) : Event := ⟨e.toEventHeader, e.id, e.hashToSign⟩

/-- The hash functions from outside this repository: SHA-256, and the root hash
of a list of transactions. -/
structure Hashing where
  /-- `sha256` -/
  sha256 : List UInt8 → Hash
  /-- `types.DeriveSha` -/
  deriveSha : List Transaction → Hash

namespace Hashing

/-- `EmptyTxHash` -/
def emptyTxHash (H : Hashing) : Hash := H.deriveSha []

/-- `eventHash` -/
def eventHash (H : Hashing) (eventSer : List UInt8) : Hash := H.sha256 eventSer

end Hashing

/-- `calcEventID` -/
def calcEventID (h : Hash) : List.Vector UInt8 24 := copyBytes 24 (h.toList.take 24)

/-! ## Header -/

namespace EventHeader

variable (H : Hashing)

/-- `NoTxs` -/
def noTxs (e : EventHeader) : Bool := e.txHash = H.emptyTxHash

/-- `medianTimeDiff` of `MarshalCSER` -/
def medianTimeDiff (e : EventHeader) : Int64 := e.creationTime.toInt64 - e.medianTime.toInt64

/-- One parent in `Event.MarshalCSER` -/
def marshalParent (lamport : UInt32) (p : EventID) : Encode Unit :=
  if lamport < p.lamport then Encoder.fail .serMalformedEvent
  else do
    -- lamport difference
    Writer.u32 (lamport - p.lamport)
    -- without epoch and lamport
    Writer.fixedBytes p.tail

/-- The transaction hash that `MarshalCSER` writes: none for `NoTxs`. -/
def writtenTxHash (txHash : Hash) : Option Hash :=
  if txHash = H.emptyTxHash then none else some txHash

/-- `Event.MarshalCSER` -/
def marshalCSER (e : EventHeader) : Encode Unit := do
  -- base fields
  Writer.u32 e.epoch
  Writer.u32 e.lamport
  Writer.u32 e.creator
  Writer.u32 e.seq
  Writer.u32 e.frame
  Writer.u64 e.creationTime
  Writer.i64 e.medianTimeDiff
  -- gas power
  Writer.u64 e.gasPowerUsed
  Writer.u64 (e.gasPowerLeft.gas 0)
  Writer.u64 (e.gasPowerLeft.gas 1)
  -- parents
  Writer.u32 (UInt32.ofNat e.parents.length)
  Encoder.forEach (marshalParent e.lamport) e.parents
  -- prev epoch hash
  Writer.optional e.prevEpochHash
  -- tx hash
  Writer.optional (writtenTxHash H e.txHash)
  -- extra
  Writer.sliceBytes e.extra

/-- `Event.MarshalBinary` -/
def marshalBinary (e : EventHeader) : Except (Fault SerError) (List UInt8) :=
  marshalBinaryAdapter (e.marshalCSER H)

/-- One parent in `eventUnmarshalCSER` -/
def unmarshalParent (epoch lamport : UInt32) : Decode EventID := do
  -- lamport difference
  let lamportDiff ← Reader.u32
  -- hash
  let h ← Reader.fixedBytes 24
  pure ⟨epoch, lamport - lamportDiff, h⟩

/-- The transaction hash in `eventUnmarshalCSER` -/
def unmarshalTxHash : Decode Hash := do
  let txHash ← Reader.optional 32
  match txHash with
  | none => pure H.emptyTxHash
  | some txHash =>
    if txHash = H.emptyTxHash then Decoder.fail .nonCanonicalEncoding else pure txHash

/-- `eventUnmarshalCSER`: the fields as they are read. -/
def unmarshalFields : Decode EventHeader := do
  -- base fields
  let epoch ← Reader.u32
  let lamport ← Reader.u32
  let creator ← Reader.u32
  let seq ← Reader.u32
  let frame ← Reader.u32
  let creationTime ← Reader.u64
  let medianTimeDiff ← Reader.i64
  -- gas power
  let gasPowerUsed ← Reader.u64
  let gasPowerLeft0 ← Reader.u64
  let gasPowerLeft1 ← Reader.u64
  -- parents
  let parentsNum ← Reader.u32
  let parents ← Decoder.times (unmarshalParent epoch lamport) parentsNum.toNat
  -- prev epoch hash
  let prevEpochHash ← Reader.optional 32
  -- tx hash
  let txHash ← unmarshalTxHash H
  -- extra
  let extra ← Reader.sliceBytes
  pure
    { epoch := epoch
      lamport := lamport
      creator := creator
      seq := seq
      frame := frame
      creationTime := creationTime
      medianTime := (creationTime.toInt64 - medianTimeDiff).toUInt64
      gasPowerUsed := gasPowerUsed
      gasPowerLeft := ⟨![gasPowerLeft0, gasPowerLeft1]⟩
      parents := parents
      prevEpochHash := prevEpochHash
      txHash := txHash
      extra := extra }

/-- `eventUnmarshalCSER`, marked: a lamport difference larger than the event's
lamport wraps around, and the parent gets a lamport above the event's. -/
def unmarshalCSER : Decode EventHeader :=
  (unmarshalFields H).marked .lamportDiff fun e => e.parents.all fun p => p.lamport ≤ e.lamport

end EventHeader

/-! ## Payload -/

namespace MutableEventPayload

variable (H : Hashing)

/-- The transactions in `EventPayload.MarshalCSER` -/
def marshalTxs (e : MutableEventPayload) : Encode Unit :=
  if e.noTxs H then pure ()
  else do
    -- txs size
    Writer.u56 e.txs.length
    -- txs
    Encoder.forEach transactionMarshalCSER e.txs

/-- `EventPayload.MarshalCSER` -/
def marshalCSER (e : MutableEventPayload) : Encode Unit :=
  if e.noTxs H ≠ (e.txs.length == 0) then Encoder.fail .serMalformedEvent
  else do
    e.toEventHeader.marshalCSER H
    Writer.fixedBytes e.sig
    e.marshalTxs H

/-- `EventPayload.MarshalBinary` -/
def marshalBinary (e : MutableEventPayload) : Except (Fault SerError) (List UInt8) :=
  marshalBinaryAdapter (e.marshalCSER H)

/-- The transactions in `MutableEventPayload.UnmarshalCSER` -/
def unmarshalTxs (e : EventHeader) : Decode (List Transaction) :=
  if e.noTxs H then pure []
  else do
    -- txs size
    let size ← Reader.u56
    Decoder.times transactionUnmarshalCSER size

/-- `MutableEventPayload.UnmarshalCSER`: the fields as they are read. -/
def unmarshalFields : Decode MutableEventPayload := do
  let e ← EventHeader.unmarshalCSER H
  let sig ← Reader.fixedBytes 64
  let txs ← unmarshalTxs H e
  pure ⟨e, sig, txs⟩

/-- `MutableEventPayload.UnmarshalCSER`, marked: a transaction hash may come
with an empty list of transactions. -/
def unmarshalCSER : Decode MutableEventPayload :=
  (unmarshalFields H).marked .txCount fun e => e.noTxs H || !e.txs.isEmpty

/-- `MutableEventPayload.UnmarshalBinary`, with the marked checks in `made`. -/
def unmarshalBinary (made : MissingCheck → Bool) (raw : Slice) :
    Except SerError MutableEventPayload :=
  unmarshalBinaryAdapter made raw (unmarshalCSER H)

/-- `MutableEventPayload.build` -/
def build (me : MutableEventPayload) (h : Hash) (size : ℕ) : EventPayload where
  toMutableEventPayload := me
  id := ⟨me.epoch, me.lamport, calcEventID h⟩
  hashToSign := h
  size := size

/-- The bytes of a serialization whose error is dropped, as in `ser, _ := ...`;
`none` is a panic. -/
def ignoringError : Except (Fault SerError) (List UInt8) → Option (List UInt8)
  | .ok ser => some ser
  | .error (.error _) => some []
  | .error .panic => none

/-- The first step of `MutableEventPayload.Build`. -/
def settleTxHash (me : MutableEventPayload) : MutableEventPayload :=
  if me.txs.length < 1 then { me with txHash := H.emptyTxHash } else me

/-- `MutableEventPayload.Build`; `none` is a panic. -/
def Build (me : MutableEventPayload) : Option EventPayload := do
  let me := me.settleTxHash H
  let eventSer ← ignoringError (me.toEventHeader.marshalBinary H)
  let payloadSer ← ignoringError (me.marshalBinary H)
  pure (me.build (H.eventHash eventSer) payloadSer.length)

end MutableEventPayload

/-- `EventPayload.UnmarshalBinary`, with the marked checks in `made`; the code
makes none of them. -/
def EventPayload.unmarshalBinaryWith (H : Hashing) (made : MissingCheck → Bool) (raw : Slice) :
    Except (Fault SerError) EventPayload :=
  match MutableEventPayload.unmarshalBinary H made raw with
  | .error e => .error (.error e)
  | .ok mutE =>
    match MutableEventPayload.ignoringError (mutE.toEventHeader.marshalBinary H) with
    | none => .error .panic
    | some eventSer => .ok (mutE.build (H.eventHash eventSer) raw.data.length)

/-- `EventPayload.UnmarshalBinary` -/
def EventPayload.unmarshalBinary (H : Hashing) (raw : Slice) :
    Except (Fault SerError) EventPayload :=
  EventPayload.unmarshalBinaryWith H Decoder.lax raw

/-- `EventPayload.MarshalBinary` -/
def EventPayload.marshalBinary (H : Hashing) (e : EventPayload) :
    Except (Fault SerError) (List UInt8) :=
  e.toMutableEventPayload.marshalBinary H

end Zilionixx
