import Zilionixx.CserBinary

/-!
# Sequences of typed values

What a `MarshalCSER` of any type does is to write values of the basic types one after
the other, and `UnmarshalCSER` reads values of the same types. Here is the round trip
for any such sequence.
-/

namespace Zilionixx

open Codec ByteNumber

/-- The types with methods in `Writer` and `Reader`. -/
inductive CserType where
  | u8
  | u16
  | u32
  | u64
  | varUint
  | i64
  | u56
  | bool
  | fixedBytes (n : ℕ)
  | sliceBytes
  | bigInt
  deriving DecidableEq

namespace CserType

/-- The values of a type. -/
abbrev Value : CserType → Type
  | u8 => UInt8
  | u16 => UInt16
  | u32 => UInt32
  | u64 => UInt64
  | varUint => UInt64
  | i64 => Int64
  | u56 => ℕ
  | bool => Bool
  | fixedBytes n => List.Vector UInt8 n
  | sliceBytes => List UInt8
  | bigInt => ℤ

/-- The method of `Writer` for a type. -/
def write : (t : CserType) → t.Value → Encode Unit
  | u8 => Writer.u8
  | u16 => Writer.u16
  | u32 => Writer.u32
  | u64 => Writer.u64
  | varUint => Writer.varUint
  | i64 => Writer.i64
  | u56 => Writer.u56
  | bool => Writer.bool
  | fixedBytes _ => Writer.fixedBytes
  | sliceBytes => Writer.sliceBytes
  | bigInt => Writer.bigInt

/-- The method of `Reader` for a type. -/
def read : (t : CserType) → Decode t.Value
  | u8 => Reader.u8
  | u16 => Reader.u16
  | u32 => Reader.u32
  | u64 => Reader.u64
  | varUint => Reader.varUint
  | i64 => Reader.i64
  | u56 => Reader.u56
  | bool => Reader.bool
  | fixedBytes n => Reader.fixedBytes n
  | sliceBytes => Reader.sliceBytes
  | bigInt => Reader.bigInt

/-- The values that can be written: the size of a slice is an `U56`, and a big integer
has no sign. -/
def Writable : (t : CserType) → t.Value → Prop
  | u56 => fun v => v < 2 ^ 56
  | sliceBytes => fun v => v.length < 2 ^ 56
  | bigInt => BigIntOk
  | _ => Any

/-- Every type has a lawful codec. -/
theorem lawful (t : CserType) : Lawful t.read t.write t.Writable Any := by
  cases t with
  | u8 => exact lawful_u8
  | u16 => exact lawful_u16
  | u32 => exact lawful_u32
  | u64 => exact lawful_u64
  | varUint => exact lawful_varUint
  | i64 => exact lawful_i64
  | u56 => exact lawful_u56
  | bool => exact lawful_bool
  | fixedBytes n => exact lawful_fixedBytes n
  | sliceBytes => exact lawful_sliceBytes
  | bigInt => exact lawful_bigInt

theorem sized (t : CserType) (v : t.Value) : (t.write v).Sized := by
  cases t with
  | u8 => exact sized_u8 v
  | u16 => exact sized_writeU64Bits (by decide) v.toNat_lt
  | u32 => exact sized_u32 v
  | u64 => exact sized_u64 v
  | varUint => exact sized_u64 v
  | i64 => exact sized_i64 v
  | u56 => exact sized_u56 v
  | bool => exact sized_bool v
  | fixedBytes n => exact sized_fixedBytes v
  | sliceBytes => exact sized_sliceBytes v
  | bigInt => exact sized_bigInt v

end CserType

/-- A value with its type. -/
abbrev TypedValue := (t : CserType) × t.Value

/-- Write some values one after the other. -/
def writeValues (values : List TypedValue) : Encode Unit :=
  Encoder.forEach (fun x => x.1.write x.2) values

/-- Read values of some types one after the other. -/
def readValues : List CserType → Decode (List TypedValue)
  | [] => pure []
  | t :: types => do
    let v ← t.read
    let values ← readValues types
    pure (⟨t, v⟩ :: values)

theorem reads_values {values : List TypedValue} (h : ∀ x ∈ values, x.1.Writable x.2) :
    Reads (writeValues values) (readValues (values.map Sigma.fst)) values := by
  induction values with
  | nil => exact Reads.pure []
  | cons x values ih =>
    obtain ⟨hx, hvalues⟩ := List.forall_mem_cons.mp h
    refine Reads.bind (x.1.lawful.reads x.2 hx) ?_
    exact (ih hvalues).map fun _ => rfl

/-- **Typed round trip.** Whatever values are written, in any order and mix, reading the
same types gives them back, and all of the input is read. -/
theorem cser_round_trip (values : List TypedValue) (h : ∀ x ∈ values, x.1.Writable x.2) :
    ∃ raw, marshalBinaryAdapter (writeValues values) = .ok raw ∧
      ∀ s : Slice, s.data = raw →
        unmarshalBinaryAdapter Decoder.lax s (readValues (values.map Sigma.fst)) = .ok values := by
  have hsized : (writeValues values).Sized := Encoder.Sized.forEach (fun x => x.1.sized x.2) values
  obtain ⟨out, hemit⟩ := Encoder.emit_forEach_some fun (x : TypedValue) hx =>
    x.1.lawful.emits x.2 (h x hx) trivial
  obtain ⟨raw, hraw⟩ := marshalBinaryAdapter_ok_of_emit hsized hemit
  refine ⟨raw, hraw, fun s hs => ?_⟩
  have hstrict := unmarshal_of_marshal hsized (reads_values h) (hs ▸ hraw)
  exact unmarshalBinaryAdapter_mono (fun c hc => by cases hc) hstrict

/-- Some values, for examples. -/
def sampleValues : List TypedValue :=
  [⟨.i64, Int64.minValue⟩, ⟨.bool, true⟩, ⟨.sliceBytes, [0, 0]⟩, ⟨.u32, 256⟩]

theorem cser_round_trip_sampleValues :
    ∃ s : Slice, marshalBinaryAdapter (writeValues sampleValues) = .ok s.data ∧
      unmarshalBinaryAdapter Decoder.lax s (readValues (sampleValues.map Sigma.fst)) =
        .ok sampleValues := by
  have hwritable : ∀ x ∈ sampleValues, x.1.Writable x.2 := by
    simp [sampleValues, CserType.Writable, Any]
  obtain ⟨raw, hraw, hread⟩ := cser_round_trip sampleValues hwritable
  -- the encoding is short enough for a slice
  have hwithin : (writeValues sampleValues).EmitsWithin (9 + (1 + (10 + (4 + 0)))) :=
    (emitsWithin_i64 _).seq ((emitsWithin_bool _).seq ((emitsWithin_sliceBytes (by decide)).seq
      ((emitsWithin_u32 _).seq .pure)))
  have hsized : (writeValues sampleValues).Sized :=
    Encoder.Sized.forEach (fun x => x.1.sized x.2) sampleValues
  obtain ⟨raw', hraw', hlength⟩ := length_marshalBinaryAdapter hsized hwithin (by decide)
  obtain rfl := Except.ok.inj (hraw.symm.trans hraw')
  exact ⟨⟨raw, [], by rw [List.length_nil]; omega⟩, hraw, hread _ rfl⟩

/-- A slice whose size does not fit `U56` cannot be written. -/
theorem cser_slice_too_big :
    ∃ v : List UInt8,
      marshalBinaryAdapter (writeValues [⟨.sliceBytes, v⟩]) = .error .panic := by
  refine ⟨List.replicate (2 ^ 56) 0, ?_⟩
  have hsize : Writer.u56 (List.replicate (2 ^ 56) (0 : UInt8)).length = Encoder.panic := by
    rw [List.length_replicate, Writer.u56, if_pos (by decide)]
  have hwrite : writeValues [⟨.sliceBytes, List.replicate (2 ^ 56) 0⟩] = Encoder.panic := by
    change (Writer.u56 (List.replicate (2 ^ 56) (0 : UInt8)).length >>= _) >>= _ = _
    rw [hsize]
    rfl
  rw [hwrite]
  rfl

end Zilionixx
