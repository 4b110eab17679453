import Mathlib.Data.Vector.Basic
import Zilionixx.ByteNumber
import Zilionixx.Cursor

/-!
# `utils/cser`: the field kinds of the serializer

`read_writer.go`, one program for each method of `cser.Reader` and
`cser.Writer`. The kinds are built from one pair, `readU64_bits` and
`writeU64_bits`: a number goes to the byte stream with as few bytes as it
needs, and the number of bytes goes to the bit stream.

The reader is meant to accept only what the writer writes
(`ErrNonCanonicalEncoding`). Where it does not check this, the program carries
a mark naming the check that is not made (`MissingCheck`). Each kind comes with
a `Lawful` theorem: the writer's output is read back, and with the marked
checks made nothing else is accepted.
-/

namespace Zilionixx

open Codec ByteNumber

/-- The checks for canonical form that the decoders do not make. -/
inductive MissingCheck where
  /-- `U56`: a zero must be written with no byte at all -/
  | zeroWidth
  /-- `BigInt`: the first byte must not be zero -/
  | leadingZero
  /-- `I64`: the absolute value must be that of an `int64` of the given sign -/
  | i64Range
  /-- `UnmarshalBinaryAdapter`: less than a byte of bit padding -/
  | bitPadding
  /-- `eventUnmarshalCSER`: a parent's lamport difference must not exceed the
  event's lamport -/
  | lamportDiff
  /-- `UnmarshalCSER`: an event with a transaction hash has transactions -/
  | txCount
  /-- `TransactionUnmarshalCSER`: the type after the marker must not be legacy -/
  | txTypeMarker
  /-- `TransactionUnmarshalCSER`: a legacy transaction has a gas limit above 255 -/
  | legacyGas
  deriving DecidableEq

/-- The errors of `utils/cser` and of the event and transaction serializers. -/
inductive SerError where
  /-- `ErrNonCanonicalEncoding`: "non canonical encoding" -/
  | nonCanonicalEncoding
  /-- `ErrMalformedEncoding`: "malformed encoding" -/
  | malformedEncoding
  /-- `ErrSerMalformedEvent`: "serialization of malformed event" -/
  | serMalformedEvent
  /-- `ErrUnknownTxType`: "unknown tx type" -/
  | unknownTxType
  /-- "cannot serialize legacy tx with gasLimit <= 256" -/
  | legacyGasTooLow
  deriving DecidableEq

/-- Decoders of this repository. -/
abbrev Decode : Type → Type := Decoder SerError MissingCheck

/-- Encoders of this repository. -/
abbrev Encode : Type → Type := Encoder SerError

/-! ## Programs -/

/-- The loop of `readUint64BitCompact`: or the bytes into a word, lowest first. -/
def orBytes (v i : ℕ) : List UInt8 → ℕ
  | [] => v
  | b :: bs => orBytes (v ||| (b.toNat <<< (8 * i)) % 2 ^ 64) (i + 1) bs

/-- `readUint64BitCompact` -/
def readUint64BitCompact (size : ℕ) : Decode ℕ := do
  let buf ← Decoder.bytes size
  if size > 1 && buf.getLastD 0 == 0 then Decoder.panic
  else pure (orBytes 0 0 buf)

/-- `writeUint64BitCompact`, from `size` bytes already written: returns the
number of bytes. -/
def writeUint64BitCompact (v minSize size : ℕ) : Encode ℕ :=
  if size < minSize ∨ v ≠ 0 then do
    Encoder.byte (UInt8.ofNat v)
    writeUint64BitCompact (v >>> 8) minSize (size + 1)
  else pure size
termination_by (v, minSize - size)
decreasing_by
  rw [Nat.shiftRight_eq_div_pow]
  rcases Nat.eq_zero_or_pos v with rfl | hv
  · exact Prod.Lex.right' _ (Nat.le_refl _) (by omega)
  · exact Prod.Lex.left _ _ (Nat.div_lt_self hv (by decide))

/-- `Reader.readU64_bits` -/
def readU64Bits (minSize bitsForSize : ℕ) : Decode ℕ := do
  let size ← Decoder.bits bitsForSize
  let v ← readUint64BitCompact (size + minSize)
  Decoder.unchecked .zeroWidth (!(minSize == 0 && size == 1 && v == 0))
  pure v

/-- `Writer.writeU64_bits` -/
def writeU64Bits (minSize bitsForSize v : ℕ) : Encode Unit := do
  let size ← writeUint64BitCompact v minSize 0
  Encoder.bits bitsForSize (size - minSize)

/-- Go's `copy` into a zeroed array of `n` bytes. -/
def copyBytes (n : ℕ) (buf : List UInt8) : List.Vector UInt8 n :=
  ⟨(buf ++ List.replicate n 0).take n, by simp⟩

variable {n : ℕ}

/-- Nothing is cut off or filled up. -/
theorem toList_copyBytes {buf : List UInt8} (h : buf.length = n) :
    (copyBytes n buf).toList = buf :=
  List.take_left' h

theorem copyBytes_toList (v : List.Vector UInt8 n) : copyBytes n v.toList = v :=
  List.Vector.eq _ _ (toList_copyBytes v.toList_length)

/-- The largest number `U56` takes. -/
def u56Max : ℕ := 1 <<< (8 * 7) - 1

namespace Reader

/-- `Reader.U8` -/
def u8 : Decode UInt8 := Decoder.byte

/-- `Reader.U16` -/
def u16 : Decode UInt16 := do
  let v64 ← readU64Bits 1 1
  pure (UInt16.ofNat v64)

/-- `Reader.U32` -/
def u32 : Decode UInt32 := do
  let v64 ← readU64Bits 1 2
  pure (UInt32.ofNat v64)

/-- `Reader.U64` -/
def u64 : Decode UInt64 := do
  let v64 ← readU64Bits 1 3
  pure (UInt64.ofNat v64)

/-- `Reader.VarUint` -/
def varUint : Decode UInt64 := do
  let v64 ← readU64Bits 1 3
  pure (UInt64.ofNat v64)

/-- `Reader.U56` -/
def u56 : Decode ℕ := readU64Bits 0 3

/-- `Reader.Bool` -/
def bool : Decode Bool := do
  let v ← Decoder.bits 1
  pure (v != 0)

/-- `Reader.I64` -/
def i64 : Decode Int64 := do
  let neg ← bool
  let abs ← u64
  if neg && abs == 0 then Decoder.panic
  else do
    Decoder.unchecked .i64Range
      (if neg then abs.toNat ≤ 2 ^ 63 else abs.toNat < 2 ^ 63)
    pure (if neg then -abs.toInt64 else abs.toInt64)

/-- `Reader.FixedBytes` into a zeroed array of `n` bytes. -/
def fixedBytes (n : ℕ) : Decode (List.Vector UInt8 n) := do
  let buf ← Decoder.bytes n
  pure (copyBytes n buf)

/-- `Reader.SliceBytes` -/
def sliceBytes : Decode (List UInt8) := do
  let size ← u56
  Decoder.bytes size

/-- `Reader.BigInt` -/
def bigInt : Decode ℤ := do
  let buf ← sliceBytes
  Decoder.unchecked .leadingZero (buf.head? != some 0)
  pure (ofBE buf : ℤ)

end Reader

namespace Writer

/-- `Writer.U8` -/
def u8 (v : UInt8) : Encode Unit := Encoder.byte v

/-- `Writer.U16` -/
def u16 (v : UInt16) : Encode Unit := writeU64Bits 1 1 v.toNat

/-- `Writer.U32` -/
def u32 (v : UInt32) : Encode Unit := writeU64Bits 1 2 v.toNat

/-- `Writer.U64` -/
def u64 (v : UInt64) : Encode Unit := writeU64Bits 1 3 v.toNat

/-- `Writer.VarUint` -/
def varUint (v : UInt64) : Encode Unit := writeU64Bits 1 3 v.toNat

/-- `Writer.U56`; the panic is "Value too big". -/
def u56 (v : ℕ) : Encode Unit :=
  if v > u56Max then Encoder.panic else writeU64Bits 0 3 v

/-- `Writer.Bool` -/
def bool (v : Bool) : Encode Unit := Encoder.bits 1 (if v then 1 else 0)

/-- `Writer.I64` -/
def i64 (v : Int64) : Encode Unit := do
  bool (v < 0)
  if v < 0 then u64 (-v).toUInt64 else u64 v.toUInt64

/-- `Writer.FixedBytes` of an array of `n` bytes. -/
def fixedBytes {n : ℕ} (v : List.Vector UInt8 n) : Encode Unit := Encoder.bytes v.toList

/-- `Writer.SliceBytes` -/
def sliceBytes (v : List UInt8) : Encode Unit := do
  u56 v.length
  Encoder.bytes v

/-- `Writer.BigInt`: the bytes of the absolute value. -/
def bigInt (v : ℤ) : Encode Unit :=
  sliceBytes (if v.sign ≠ 0 then toBE v.natAbs else [])

end Writer

/-! ## `readU64_bits` and `writeU64_bits` -/

/-- Oring a shifted number onto a small one is addition. -/
theorem or_shiftLeft {v w i j : ℕ} (hv : v < 2 ^ i) (hw : w < 2 ^ j) (hfit : i + j ≤ 64) :
    v ||| (w <<< i) % 2 ^ 64 = v + 2 ^ i * w := by
  have hlt : 2 ^ i * w < 2 ^ 64 := by
    calc 2 ^ i * w < 2 ^ i * 2 ^ j := Nat.mul_lt_mul_of_pos_left hw (by positivity)
      _ = 2 ^ (i + j) := (Nat.pow_add ..).symm
      _ ≤ 2 ^ 64 := Nat.pow_le_pow_right (by decide) hfit
  rw [Nat.shiftLeft_eq, Nat.mul_comm w, Nat.mod_eq_of_lt hlt, Nat.or_comm,
    ← Nat.two_pow_add_eq_or_of_lt hv, Nat.add_comm]

/-- The loop spells the bytes, lowest first, as long as they fit a word. -/
theorem orBytes_eq {bs : List UInt8} {v i : ℕ} (hv : v < 256 ^ i) (hlen : i + bs.length ≤ 8) :
    orBytes v i bs = v + 256 ^ i * ofLE bs := by
  induction bs generalizing v i with
  | nil => simp [orBytes]
  | cons b bs ih =>
    rw [List.length_cons] at hlen
    have hb : b.toNat < 256 := b.toNat_lt
    have hnext : v + 256 ^ i * b.toNat < 256 ^ (i + 1) := by
      rw [Nat.pow_succ]
      nlinarith
    have hpow : 2 ^ (8 * i) = 256 ^ i := Nat.pow_mul ..
    rw [orBytes, or_shiftLeft (hpow ▸ hv) (j := 8) hb (by omega), hpow, ih hnext (by omega),
      ofLE_cons, Nat.pow_succ]
    ring

/-- What `writeUint64BitCompact` writes, and the size it returns. -/
theorem emit_writeUint64BitCompact (v minSize size : ℕ) :
    (writeUint64BitCompact v minSize size).emit =
      some (size + (padded (minSize - size) v).length, ⟨[], padded (minSize - size) v⟩) := by
  fun_induction writeUint64BitCompact v minSize size with
  | case1 v size hround ih =>
    have hpad := padded_succ (m := minSize - size) (v := v) (by omega)
    have hbyte : UInt8.ofNat (v % 256) = UInt8.ofNat v := by
      apply UInt8.toNat_inj.mp
      simp
    rw [hbyte, Nat.sub_sub, show v / 256 = v >>> 8 from (Nat.shiftRight_eq_div_pow v 8).symm]
      at hpad
    rw [Encoder.emit_bind_some (Encoder.emit_byte _) ih, hpad, List.length_cons]
    congr 2
    omega
  | case2 v size hstop =>
    have hmin : minSize - size = 0 := by omega
    have hv : v = 0 := by omega
    rw [hmin, hv, padded_zero_zero, Encoder.emit_pure]
    rfl

/-- The padded number, and how many bytes it has. -/
theorem emit_writeU64Bits (m n v : ℕ) :
    (writeU64Bits m n v).emit =
      some ((), ⟨BitList.ofNat n ((padded m v).length - m), padded m v⟩) := by
  have h := emit_writeUint64BitCompact v m 0
  rw [Nat.zero_add, Nat.sub_zero] at h
  have hsize : (Encoder.bits n ((padded m v).length - m) : Encode Unit).emit =
      some ((), ⟨BitList.ofNat n ((padded m v).length - m), []⟩) := Encoder.emit_bits _ _
  rw [writeU64Bits, Encoder.emit_bind, h, Option.bind_some, hsize, Option.map_some]
  congr 2
  exact Streams.ext' (List.nil_append _) (List.append_nil _)

theorem sized_writeUint64BitCompact (v minSize size : ℕ) :
    (writeUint64BitCompact v minSize size).Sized := by
  fun_induction writeUint64BitCompact v minSize size with
  | case1 v size hround ih => exact (Encoder.Sized.byte _).seq ih
  | case2 v size hstop => exact Encoder.Sized.pure _

variable {made : MissingCheck → Bool}

/-- Inversion of `readU64_bits`: the size in the bits, that many bytes, and what
was checked about them. -/
theorem parse_readU64Bits {m n v : ℕ} {s s' : Streams} (hfits : m + 2 ^ n ≤ 9)
    (h : (readU64Bits m n).parse made s = some (v, s')) :
    ∃ buf, s = ⟨BitList.ofNat n (buf.length - m), buf⟩ ++ s' ∧ m ≤ buf.length ∧
      buf.length - m < 2 ^ n ∧ v = ofLE buf ∧ (1 < buf.length → buf.getLast? ≠ some 0) ∧
      (made .zeroWidth = true → m = 0 → buf ≠ [0]) := by
  have hn : n ≤ 3 := by
    by_contra hn
    have : 2 ^ 4 ≤ 2 ^ n := Nat.pow_le_pow_right (by decide) (by omega)
    omega
  obtain ⟨size, s₁, hsize, h⟩ := Decoder.parse_bind_eq_some h
  obtain ⟨w, s₂, hw, h⟩ := Decoder.parse_bind_eq_some h
  obtain ⟨⟨⟩, s₃, hcheck, h⟩ := Decoder.parse_bind_eq_some h
  obtain ⟨rfl, rfl⟩ := Decoder.parse_pure_eq_some h
  obtain ⟨hlt, rfl⟩ := Decoder.parse_bits_eq_some (by omega) hsize
  obtain ⟨buf, s₄, hbuf, hloop⟩ := Decoder.parse_bind_eq_some hw
  obtain ⟨hlen, rfl⟩ := Decoder.parse_bytes_eq_some hbuf
  split at hloop
  case isTrue => cases hloop
  rename_i hlast
  obtain ⟨rfl, rfl⟩ := Decoder.parse_pure_eq_some hloop
  obtain ⟨rfl, hzero⟩ := Decoder.parse_unchecked_eq_some hcheck
  have hval : orBytes 0 0 buf = ofLE buf := by
    rw [orBytes_eq (by decide) (by omega), Nat.zero_add, Nat.pow_zero, Nat.one_mul]
  have hsub : buf.length - m = size := by omega
  refine ⟨buf, ?_, by omega, by omega, hval, ?_, ?_⟩
  · rw [hsub, ← Streams.append_assoc]
    exact Streams.ext' (by simp) (by simp)
  · intro h1 h0
    apply hlast
    rw [← hlen, List.getLastD_eq_getLast?, h0]
    simpa using h1
  · rintro hmade rfl rfl
    have hone : size = 1 := by simpa using hlen.symm
    have := hzero hmade
    simp [hone, hval, ofLE_cons] at this

/-- Reading back what `writeU64_bits` wrote. -/
theorem parse_readU64Bits_append {m n : ℕ} {buf : List UInt8} (hfits : m + 2 ^ n ≤ 9)
    (hm : m ≤ buf.length) (hlen : buf.length - m < 2 ^ n)
    (hlast : 1 < buf.length → buf.getLast? ≠ some 0) (hzero : m = 0 → buf ≠ [0]) (s : Streams) :
    (readU64Bits m n).parse made (⟨BitList.ofNat n (buf.length - m), buf⟩ ++ s) =
      some (ofLE buf, s) := by
  have hn : n ≤ 3 := by
    by_contra hn
    have : 2 ^ 4 ≤ 2 ^ n := Nat.pow_le_pow_right (by decide) (by omega)
    omega
  have hval : orBytes 0 0 buf = ofLE buf := by
    rw [orBytes_eq (by decide) (by omega), Nat.zero_add, Nat.pow_zero, Nat.one_mul]
  have hsplit : (⟨BitList.ofNat n (buf.length - m), buf⟩ : Streams) ++ s =
      ⟨BitList.ofNat n (buf.length - m), []⟩ ++ (⟨[], buf⟩ ++ s) :=
    Streams.ext' (by simp) (by simp)
  rw [hsplit, readU64Bits]
  refine Decoder.parse_bind_some (Decoder.parse_bits_append (by omega) hlen _) ?_
  have hcompact : (readUint64BitCompact (buf.length - m + m)).parse made (⟨[], buf⟩ ++ s) =
      some (ofLE buf, s) := by
    rw [Nat.sub_add_cancel hm]
    refine Decoder.parse_bind_some (Decoder.parse_bytes_append buf s) ?_
    rw [if_neg, hval, Decoder.parse_pure]
    intro hbad
    rw [Bool.and_eq_true, decide_eq_true_eq, beq_iff_eq] at hbad
    apply hlast hbad.1
    have hne : buf ≠ [] := by rintro rfl; simp at hbad
    rw [List.getLastD_eq_getLast?, List.getLast?_eq_some_getLast hne, Option.getD_some] at hbad
    rw [List.getLast?_eq_some_getLast hne, hbad.2]
  refine Decoder.parse_bind_some hcompact ?_
  refine Decoder.parse_bind_some (Decoder.parse_unchecked_of ?_ s) rfl
  rw [Bool.not_eq_true', Bool.eq_false_iff]
  intro hbad
  simp only [Bool.and_eq_true, beq_iff_eq] at hbad
  obtain ⟨⟨rfl, hone⟩, hv⟩ := hbad
  rw [Nat.sub_zero] at hone
  obtain ⟨b, rfl⟩ := List.length_eq_one_iff.mp hone
  rw [ofLE_cons, ofLE_nil, Nat.mul_zero, Nat.add_zero] at hv
  exact hzero rfl (congrArg (fun b => [b]) (UInt8.toNat_inj.mp hv))

section U64Bits

variable {m n v : ℕ}

/-- The numbers that fit the bytes `readU64_bits m n` can read. -/
theorem length_padded_sub_lt (hv : v < 256 ^ (m + 2 ^ n - 1)) :
    (padded m v).length - m < 2 ^ n := by
  have hpos : 0 < 2 ^ n := by positivity
  have := length_padded_le (show m ≤ m + 2 ^ n - 1 by omega) hv
  omega

theorem sized_writeU64Bits (hn : 0 < n) (hv : v < 256 ^ (m + 2 ^ n - 1)) :
    (writeU64Bits m n v).Sized := by
  refine (sized_writeUint64BitCompact v m 0).bind ?_
  intro size o hsize
  rw [emit_writeUint64BitCompact, Option.some.injEq, Prod.mk.injEq, Nat.zero_add,
    Nat.sub_zero] at hsize
  rw [← hsize.1]
  exact Encoder.Sized.bits hn (length_padded_sub_lt hv)

/-- A number is read back. -/
theorem reads_u64Bits (hm : m ≤ 1) (hfits : m + 2 ^ n ≤ 9) (hv : v < 256 ^ (m + 2 ^ n - 1)) :
    Reads (writeU64Bits m n v) (readU64Bits m n) v := by
  intro out hout rest
  rw [emit_writeU64Bits, Option.some.injEq, Prod.mk.injEq] at hout
  -- with no byte asked for, a zero takes none
  have hzero : m = 0 → padded m v ≠ [0] := by
    rintro rfl hzero
    have hlast := getLast?_padded_ne (m := 0) (v := v) (by rw [hzero]; decide)
    rw [hzero] at hlast
    exact hlast rfl
  have hread : (readU64Bits m n).parse Decoder.strict _ = _ :=
    parse_readU64Bits_append hfits (le_length_padded m v) (length_padded_sub_lt hv)
      (fun h => getLast?_padded_ne (by omega)) hzero rest
  rw [ofLE_padded] at hread
  rw [← hout.2]
  exact hread

/-- What is read fits the bytes announced. -/
theorem range_u64Bits {made : MissingCheck → Bool} {s s' : Streams} (hfits : m + 2 ^ n ≤ 9)
    (h : (readU64Bits m n).parse made s = some (v, s')) : v < 256 ^ (m + 2 ^ n - 1) := by
  obtain ⟨buf, -, hm, hlen, rfl, -, -⟩ := parse_readU64Bits hfits h
  exact Nat.lt_of_lt_of_le (ofLE_lt buf) (Nat.pow_le_pow_right (by decide) (by omega))

/-- A number has one form. -/
theorem inverts_u64Bits (hm : m ≤ 1) (hfits : m + 2 ^ n ≤ 9) :
    Inverts (readU64Bits m n) (writeU64Bits m n) Any := by
  intro s v s' h _
  obtain ⟨buf, rfl, hle, -, rfl, hlast, hzero⟩ := parse_readU64Bits hfits h
  have hpad : padded m (ofLE buf) = buf := by
    refine padded_ofLE hle fun hlt => ?_
    by_cases h1 : 1 < buf.length
    · exact hlast h1
    · -- a single byte that is not asked for: the missing check
      obtain ⟨b, rfl⟩ := List.length_eq_one_iff.mp (show buf.length = 1 by omega)
      rintro hb
      simp only [List.length_singleton] at hlt
      exact hzero rfl (by omega) (by simpa using hb)
  rw [emit_writeU64Bits, hpad]
  exact ⟨_, rfl, rfl⟩

/-- A number that is no larger than the one read is not written any longer. -/
theorem shrinks_u64Bits {made : MissingCheck → Bool} {v' : ℕ} {s s' out : Streams}
    (hfits : m + 2 ^ n ≤ 9) (h : (readU64Bits m n).parse made s = some (v, s')) (hle : v' ≤ v)
    (hout : (writeU64Bits m n v').emit = some ((), out)) : (out ++ s').NoLonger s := by
  obtain ⟨buf, rfl, hm, -, rfl, -, -⟩ := parse_readU64Bits hfits h
  rw [emit_writeU64Bits, Option.some.injEq, Prod.mk.injEq] at hout
  rw [← hout.2]
  refine Streams.NoLonger.append_right ⟨?_, ?_⟩ s'
  · simp only [BitList.length_ofNat]
    exact Nat.le_refl n
  · exact length_padded_le hm (Nat.lt_of_le_of_lt hle (ofLE_lt buf))

/-- A type of numbers written by `writeU64_bits` is lawful. -/
theorem lawful_u64Bits {α : Type} {f : ℕ → α} {g : α → ℕ} (hm : m ≤ 1)
    (hfits : m + 2 ^ n ≤ 9) (hg : ∀ a, g a < 256 ^ (m + 2 ^ n - 1)) (hfg : ∀ a, f (g a) = a)
    (hgf : ∀ v < 256 ^ (m + 2 ^ n - 1), g (f v) = v) :
    Lawful (readU64Bits m n >>= fun v => pure (f v)) (fun a => writeU64Bits m n (g a))
      Any Any where
  emits a _ _ := ⟨_, emit_writeU64Bits m n (g a)⟩
  reads a _ := (reads_u64Bits hm hfits (hg a)).map fun s => by rw [Decoder.parse_pure, hfg]
  range _ _ _ _ _ := trivial
  inverts s a s' h _ := by
    obtain ⟨v, s₁, hv, h⟩ := Decoder.parse_bind_eq_some h
    obtain ⟨rfl, rfl⟩ := Decoder.parse_pure_eq_some h
    simp only [hgf v (range_u64Bits hfits hv)]
    exact inverts_u64Bits hm hfits _ _ _ hv trivial
  shrinks made s a s' h out hout := by
    obtain ⟨v, s₁, hv, h⟩ := Decoder.parse_bind_eq_some h
    obtain ⟨rfl, rfl⟩ := Decoder.parse_pure_eq_some h
    simp only [hgf v (range_u64Bits hfits hv)] at hout
    exact shrinks_u64Bits hfits hv (Nat.le_refl v) hout

end U64Bits

/-! ## The field kinds are lawful -/

theorem lawful_u16 : Lawful Reader.u16 Writer.u16 Any Any :=
  lawful_u64Bits (by decide) (by decide) (fun a => a.toNat_lt)
    (fun _ => UInt16.ofNat_toNat) fun _ hv => UInt16.toNat_ofNat_of_lt' hv

theorem lawful_u32 : Lawful Reader.u32 Writer.u32 Any Any :=
  lawful_u64Bits (by decide) (by decide) (fun a => a.toNat_lt)
    (fun _ => UInt32.ofNat_toNat) fun _ hv => UInt32.toNat_ofNat_of_lt' hv

theorem lawful_u64 : Lawful Reader.u64 Writer.u64 Any Any :=
  lawful_u64Bits (by decide) (by decide) (fun a => a.toNat_lt)
    (fun _ => UInt64.ofNat_toNat) fun _ hv => UInt64.toNat_ofNat_of_lt' hv

theorem lawful_varUint : Lawful Reader.varUint Writer.varUint Any Any := lawful_u64

/-- One byte, without a size. -/
theorem lawful_u8 : Lawful Reader.u8 Writer.u8 Any Any where
  emits v _ _ := ⟨_, Encoder.emit_byte v⟩
  reads v _ := by
    intro out hout rest
    rw [Writer.u8, Encoder.emit_byte, Option.some.injEq, Prod.mk.injEq] at hout
    rw [← hout.2]
    rfl
  range _ _ _ _ _ := trivial
  inverts s v s' h _ := ⟨_, Encoder.emit_byte v, Decoder.parse_byte_eq_some h⟩
  shrinks := Shrinks.of_exact fun _ _ v _ h =>
    ⟨_, Encoder.emit_byte v, Decoder.parse_byte_eq_some h⟩

/-- Above 56 bits the writer fails. -/
theorem lawful_u56 : Lawful Reader.u56 Writer.u56 (fun v => v < 2 ^ 56) Any where
  emits v hv _ := by
    rw [Writer.u56, if_neg (by rw [u56Max]; omega)]
    exact ⟨_, emit_writeU64Bits 0 3 v⟩
  reads v hv := by
    rw [Writer.u56, if_neg (by rw [u56Max]; omega)]
    exact reads_u64Bits (by decide) (by decide) hv
  range made s v s' h := range_u64Bits (by decide) h
  inverts s v s' h _ := by
    have hv := range_u64Bits (by decide) h
    rw [Writer.u56, if_neg (by rw [u56Max]; omega)]
    exact inverts_u64Bits (by decide) (by decide) _ _ _ h trivial
  shrinks made s v s' h out hout := by
    have hv := range_u64Bits (by decide) h
    rw [Writer.u56, if_neg (by rw [u56Max]; omega)] at hout
    exact shrinks_u64Bits (by decide) h (Nat.le_refl v) hout

/-- A bit is written as it is read. -/
theorem exact_bool (made : MissingCheck → Bool) (s : Streams) (v : Bool) (s' : Streams)
    (h : Reader.bool.parse made s = some (v, s')) :
    ∃ out, (Writer.bool v).emit = some ((), out) ∧ s = out ++ s' := by
  obtain ⟨b, s₁, hb, h⟩ := Decoder.parse_bind_eq_some h
  obtain ⟨rfl, rfl⟩ := Decoder.parse_pure_eq_some h
  obtain ⟨hlt, rfl⟩ := Decoder.parse_bits_eq_some (by decide) hb
  refine ⟨_, Encoder.emit_bits _ _, ?_⟩
  rcases (show b = 0 ∨ b = 1 by omega) with rfl | rfl <;> rfl

theorem lawful_bool : Lawful Reader.bool Writer.bool Any Any where
  emits v _ _ := ⟨_, Encoder.emit_bits _ _⟩
  reads v _ := by
    intro out hout rest
    rw [Writer.bool, Encoder.emit_bits, Option.some.injEq, Prod.mk.injEq] at hout
    rw [← hout.2]
    refine Decoder.parse_bind_some
      (Decoder.parse_bits_append (by decide) (by cases v <;> decide) rest) ?_
    cases v <;> rfl
  range _ _ _ _ _ := trivial
  inverts s v s' h _ := exact_bool _ s v s' h
  shrinks := Shrinks.of_exact exact_bool

/-- So are bytes of a fixed number. -/
theorem exact_fixedBytes (made : MissingCheck → Bool) (s : Streams) (v : List.Vector UInt8 n)
    (s' : Streams) (h : (Reader.fixedBytes n).parse made s = some (v, s')) :
    ∃ out, (Writer.fixedBytes v).emit = some ((), out) ∧ s = out ++ s' := by
  obtain ⟨buf, s₁, hbuf, h⟩ := Decoder.parse_bind_eq_some h
  obtain ⟨rfl, rfl⟩ := Decoder.parse_pure_eq_some h
  obtain ⟨hlen, rfl⟩ := Decoder.parse_bytes_eq_some hbuf
  refine ⟨_, Encoder.emit_bytes _, ?_⟩
  rw [toList_copyBytes hlen]

theorem lawful_fixedBytes (n : ℕ) :
    Lawful (Reader.fixedBytes n) Writer.fixedBytes Any Any where
  emits v _ _ := ⟨_, Encoder.emit_bytes _⟩
  reads v _ := by
    intro out hout rest
    rw [Writer.fixedBytes, Encoder.emit_bytes, Option.some.injEq, Prod.mk.injEq] at hout
    have hread : (Decoder.bytes v.toList.length : Decode _).parse Decoder.strict _ = _ :=
      Decoder.parse_bytes_append v.toList rest
    rw [v.toList_length] at hread
    rw [← hout.2]
    refine Decoder.parse_bind_some hread ?_
    rw [copyBytes_toList, Decoder.parse_pure]
  range _ _ _ _ _ := trivial
  inverts s v s' h _ := exact_fixedBytes _ s v s' h
  shrinks := Shrinks.of_exact exact_fixedBytes

/-- A slice that is no longer than the one read is not written any longer. -/
theorem shrinks_sliceBytes {v v' : List UInt8} {s s' out : Streams}
    (h : Reader.sliceBytes.parse made s = some (v, s')) (hle : v'.length ≤ v.length)
    (hout : (Writer.sliceBytes v').emit = some ((), out)) : (out ++ s').NoLonger s := by
  obtain ⟨size, s₁, hsize, h⟩ := Decoder.parse_bind_eq_some h
  obtain ⟨rfl, rfl⟩ := Decoder.parse_bytes_eq_some h
  obtain ⟨⟨⟩, o, o', ho, ho', rfl⟩ := Encoder.emit_bind_eq_some hout
  have hv := range_u64Bits (by decide) hsize
  rw [Writer.u56, if_neg (by rw [u56Max]; omega)] at ho
  rw [Encoder.emit_bytes, Option.some.injEq, Prod.mk.injEq] at ho'
  rw [← ho'.2]
  have hbytes : (⟨[], v'⟩ : Streams).NoLonger ⟨[], v⟩ := ⟨Nat.le_refl _, hle⟩
  exact (shrinks_u64Bits (by decide) hsize hle ho).append (hbytes.append_right s')

/-- The length fits 56 bits. -/
theorem lawful_sliceBytes :
    Lawful Reader.sliceBytes Writer.sliceBytes (fun v => v.length < 2 ^ 56) Any where
  emits v hv _ := by
    obtain ⟨o, ho⟩ := lawful_u56.emits _ hv trivial
    exact ⟨_, Encoder.emit_bind_some ho (Encoder.emit_bytes v)⟩
  reads v hv := by
    refine (lawful_u56.reads _ hv).bind ?_
    intro out hout rest
    rw [Encoder.emit_bytes, Option.some.injEq, Prod.mk.injEq] at hout
    rw [← hout.2]
    exact Decoder.parse_bytes_append v rest
  range made s v s' h := by
    obtain ⟨size, s₁, hsize, h⟩ := Decoder.parse_bind_eq_some h
    obtain ⟨hlen, -⟩ := Decoder.parse_bytes_eq_some h
    rw [hlen]
    exact lawful_u56.range _ _ _ _ hsize
  inverts s v s' h _ := by
    obtain ⟨size, s₁, hsize, h⟩ := Decoder.parse_bind_eq_some h
    obtain ⟨rfl, rfl⟩ := Decoder.parse_bytes_eq_some h
    obtain ⟨o, ho, rfl⟩ := lawful_u56.inverts _ _ _ hsize trivial
    exact ⟨_, Encoder.emit_bind_some ho (Encoder.emit_bytes v), (Streams.append_assoc ..).symm⟩
  shrinks made s v s' h out hout := shrinks_sliceBytes h (Nat.le_refl _) hout

/-- The big integers that can be written and read back: not negative, and of
less than `2 ^ 56` bytes. -/
def BigIntOk (v : ℤ) : Prop := 0 ≤ v ∧ (toBE v.natAbs).length < 2 ^ 56

/-- Zero has no bytes in either branch. -/
theorem writer_bigInt_eq (v : ℤ) : Writer.bigInt v = Writer.sliceBytes (toBE v.natAbs) := by
  rw [Writer.bigInt]
  split
  · rfl
  · rename_i h
    rw [ne_eq, not_not, Int.sign_eq_zero_iff_zero] at h
    simp [h, toBE]

/-- Leading zeros only make an encoding longer. -/
theorem length_toBE_ofBE_le (bs : List UInt8) : (toBE (ofBE bs)).length ≤ bs.length := by
  rw [length_toBE]
  exact length_toLE_le (ofBE_lt bs)

theorem lawful_bigInt : Lawful Reader.bigInt Writer.bigInt BigIntOk Any where
  emits v hv _ := by rw [writer_bigInt_eq]; exact lawful_sliceBytes.emits _ hv.2 trivial
  reads v hv := by
    rw [writer_bigInt_eq]
    refine (lawful_sliceBytes.reads _ hv.2).map fun s => ?_
    refine Decoder.parse_bind_some (Decoder.parse_unchecked_of ?_ s) ?_
    · rw [bne_iff_ne]
      exact head?_toBE_ne _
    · rw [Decoder.parse_pure, ofBE_toBE, Int.natAbs_of_nonneg hv.1]
  range made s v s' h := by
    obtain ⟨buf, s₁, hbuf, h⟩ := Decoder.parse_bind_eq_some h
    obtain ⟨⟨⟩, s₂, hcheck, h⟩ := Decoder.parse_bind_eq_some h
    obtain ⟨rfl, rfl⟩ := Decoder.parse_pure_eq_some h
    refine ⟨Int.natCast_nonneg _, ?_⟩
    rw [Int.natAbs_natCast]
    exact Nat.lt_of_le_of_lt (length_toBE_ofBE_le buf) (lawful_sliceBytes.range _ _ _ _ hbuf)
  inverts s v s' h _ := by
    obtain ⟨buf, s₁, hbuf, h⟩ := Decoder.parse_bind_eq_some h
    obtain ⟨⟨⟩, s₂, hcheck, h⟩ := Decoder.parse_bind_eq_some h
    obtain ⟨rfl, rfl⟩ := Decoder.parse_pure_eq_some h
    obtain ⟨rfl, hhead⟩ := Decoder.parse_unchecked_eq_some hcheck
    have hne := hhead rfl
    rw [bne_iff_ne] at hne
    rw [writer_bigInt_eq, Int.natAbs_natCast, toBE_ofBE hne]
    exact lawful_sliceBytes.inverts _ _ _ hbuf trivial
  shrinks made s v s' h out hout := by
    obtain ⟨buf, s₁, hbuf, h⟩ := Decoder.parse_bind_eq_some h
    obtain ⟨⟨⟩, s₂, hcheck, h⟩ := Decoder.parse_bind_eq_some h
    obtain ⟨rfl, rfl⟩ := Decoder.parse_pure_eq_some h
    obtain ⟨rfl, -⟩ := Decoder.parse_unchecked_eq_some hcheck
    rw [writer_bigInt_eq, Int.natAbs_natCast] at hout
    exact shrinks_sliceBytes hbuf (length_toBE_ofBE_le buf) hout

/-! ## Signed numbers -/

/-- A word is negative as an `int64` when its top bit is set. -/
theorem toInt64_neg_iff (a : UInt64) : a.toInt64 < 0 ↔ 2 ^ 63 ≤ a.toNat := by
  have hlt := a.toNat_lt
  have hint : a.toInt64.toInt = if 2 * a.toNat < 2 ^ 64 then (a.toNat : ℤ)
      else (a.toNat : ℤ) - (2 ^ 64 : ℕ) := BitVec.toInt_eq_toNat_cond a.toBitVec
  rw [Int64.lt_iff_toInt_lt, hint]
  simp only [Int64.toInt_zero]
  split <;> omega

/-- Which numbers are negative with a minus sign. -/
theorem neg_toInt64_neg_iff (a : UInt64) :
    -a.toInt64 < 0 ↔ a ≠ 0 ∧ a.toNat ≤ 2 ^ 63 := by
  have hlt := a.toNat_lt
  have hneg : -a.toInt64 = (-a).toInt64 := by simp
  have hzero : a ≠ 0 ↔ 0 < a.toNat := by
    rw [Nat.pos_iff_ne_zero, ne_eq, ne_eq, ← UInt64.toNat_inj]
    rfl
  rw [hneg, toInt64_neg_iff, UInt64.toNat_neg, hzero, UInt64.size]
  omega

/-- A sign and an absolute value, which the sign may not fit. -/
theorem parse_i64 {s s' : Streams} {v : Int64} (h : Reader.i64.parse made s = some (v, s')) :
    ∃ neg abs s₁, Reader.bool.parse made s = some (neg, s₁) ∧
      Reader.u64.parse made s₁ = some (abs, s') ∧ ¬ (neg = true ∧ abs = 0) ∧
      (made .i64Range = true →
        if neg then abs.toNat ≤ 2 ^ 63 else abs.toNat < 2 ^ 63) ∧
      v = if neg then -abs.toInt64 else abs.toInt64 := by
  obtain ⟨neg, s₁, hneg, h⟩ := Decoder.parse_bind_eq_some h
  obtain ⟨abs, s₂, habs, h⟩ := Decoder.parse_bind_eq_some h
  split at h
  case isTrue => cases h
  rename_i hcanon
  obtain ⟨⟨⟩, s₃, hcheck, h⟩ := Decoder.parse_bind_eq_some h
  obtain ⟨rfl, rfl⟩ := Decoder.parse_pure_eq_some h
  obtain ⟨rfl, hrange⟩ := Decoder.parse_unchecked_eq_some hcheck
  refine ⟨neg, abs, s₁, hneg, habs, ?_, ?_, rfl⟩
  · rintro ⟨rfl, rfl⟩
    exact hcanon rfl
  · intro hmade
    simpa using hrange hmade

/-- A second form of a signed number has the larger absolute value. -/
theorem toNat_abs_le {neg : Bool} {abs : UInt64} {v : Int64}
    (hv : v = if neg then -abs.toInt64 else abs.toInt64) :
    (if v < 0 then (-v).toUInt64 else v.toUInt64).toNat ≤ abs.toNat := by
  have hlt := abs.toNat_lt
  cases neg with
  | true =>
    simp only [if_true] at hv
    have hsign := neg_toInt64_neg_iff abs
    rw [← hv] at hsign
    split
    · simp [hv]
    · rename_i hpos
      have hne := mt hsign.mpr hpos
      have hback : v.toUInt64 = -abs := by simp [hv]
      by_cases hzero : abs = 0
      · simp [hback, hzero]
      · have : ¬ abs.toNat ≤ 2 ^ 63 := fun hle => hne ⟨hzero, hle⟩
        rw [hback, UInt64.toNat_neg, UInt64.size]
        omega
  | false =>
    simp only [Bool.false_eq_true, if_false] at hv
    have hsign := toInt64_neg_iff abs
    rw [← hv] at hsign
    split
    · rename_i hneg
      have hge := hsign.mp hneg
      have hback : (-v).toUInt64 = -abs := by simp [hv]
      rw [hback, UInt64.toNat_neg, UInt64.size]
      omega
    · simp [hv]

theorem emits_i64 (v : Int64) : ∃ out, Encoder.emit (Writer.i64 v) = some ((), out) := by
  obtain ⟨o, ho⟩ := lawful_bool.emits (decide (v < 0)) trivial trivial
  rw [Writer.i64]
  split
  · obtain ⟨o', ho'⟩ := lawful_u64.emits (-v).toUInt64 trivial trivial
    exact ⟨_, Encoder.emit_bind_some ho ho'⟩
  · obtain ⟨o', ho'⟩ := lawful_u64.emits v.toUInt64 trivial trivial
    exact ⟨_, Encoder.emit_bind_some ho ho'⟩

/-- A signed number is read back. -/
theorem reads_i64 (v : Int64) : Reads (Writer.i64 v) Reader.i64 v := by
  rw [Writer.i64]
  refine (lawful_bool.reads _ trivial).bind ?_
  by_cases hneg : v < 0
  · -- negative: the absolute value is positive and at most `2 ^ 63`
    rw [if_pos hneg]
    refine (lawful_u64.reads _ trivial).map fun s => ?_
    have hback : -(-v).toUInt64.toInt64 = v := by simp
    obtain ⟨hne, hle⟩ := (neg_toInt64_neg_iff (-v).toUInt64).mp (by rwa [hback])
    rw [if_neg (by rw [Bool.and_eq_true, beq_iff_eq]; exact fun h0 => hne h0.2)]
    refine Decoder.parse_bind_some (Decoder.parse_unchecked_of ?_ s) ?_
    · simp only [hneg, decide_true, if_true]
      exact decide_eq_true hle
    · simp only [hneg, decide_true, if_true, hback]
      rfl
  · rw [if_neg hneg]
    refine (lawful_u64.reads _ trivial).map fun s => ?_
    have hback : v.toUInt64.toInt64 = v := by simp
    have hlt : v.toUInt64.toNat < 2 ^ 63 := by
      have := (toInt64_neg_iff v.toUInt64).not.mp (by rwa [hback])
      omega
    rw [if_neg (by simp [hneg])]
    refine Decoder.parse_bind_some (Decoder.parse_unchecked_of ?_ s) ?_
    · simp only [hneg, decide_false, Bool.false_eq_true, if_false]
      exact decide_eq_true hlt
    · simp only [hneg, decide_false, Bool.false_eq_true, if_false, hback]
      rfl

/-- With the range checked, it has one form. -/
theorem inverts_i64 : Inverts Reader.i64 Writer.i64 Any := by
  intro s v s' h _
  obtain ⟨neg, abs, s₁, hneg, habs, hcanon, hrange, rfl⟩ := parse_i64 h
  obtain ⟨o, ho, rfl⟩ := lawful_bool.inverts _ _ _ hneg trivial
  obtain ⟨o', ho', rfl⟩ := lawful_u64.inverts _ _ _ habs trivial
  refine ⟨o ++ o', ?_, (Streams.append_assoc ..).symm⟩
  have hrange := hrange rfl
  rw [Writer.i64]
  cases neg with
  | true =>
    have hsign := (neg_toInt64_neg_iff abs).mpr ⟨fun h0 => hcanon ⟨rfl, h0⟩, hrange⟩
    simp only [if_true, hsign, decide_true]
    refine Encoder.emit_bind_some ho ?_
    simpa using ho'
  | false =>
    have hsign : ¬ abs.toInt64 < 0 := by
      rw [toInt64_neg_iff]
      simp only [Bool.false_eq_true, if_false] at hrange
      omega
    simp only [Bool.false_eq_true, if_false, hsign, decide_false]
    refine Encoder.emit_bind_some ho ?_
    simpa using ho'

/-- Without it, writing again takes no more bytes. -/
theorem shrinks_i64 : Shrinks Reader.i64 Writer.i64 := by
  intro made s v s' h out hout
  obtain ⟨neg, abs, s₁, hneg, habs, -, -, hv⟩ := parse_i64 h
  obtain ⟨⟨⟩, o, o', ho, ho', rfl⟩ := Encoder.emit_bind_eq_some hout
  obtain ⟨o₁, ho₁, rfl⟩ := exact_bool _ _ _ _ hneg
  obtain ⟨w, s₂, hw, habs⟩ := Decoder.parse_bind_eq_some habs
  obtain ⟨rfl, rfl⟩ := Decoder.parse_pure_eq_some habs
  have hle := toNat_abs_le hv
  rw [UInt64.toNat_ofNat_of_lt' (range_u64Bits (by decide) hw)] at hle
  -- the sign takes one bit in both forms
  have hsign : o.NoLonger o₁ := by
    rw [Writer.bool, Encoder.emit_bits, Option.some.injEq, Prod.mk.injEq] at ho ho₁
    rw [← ho.2, ← ho₁.2]
    exact ⟨by rw [BitList.length_ofNat, BitList.length_ofNat], Nat.le_refl _⟩
  refine (hsign.append_right _).append (shrinks_u64Bits (by decide) hw hle ?_)
  rw [← ho']
  split <;> rfl

theorem lawful_i64 : Lawful Reader.i64 Writer.i64 Any Any where
  emits v _ _ := emits_i64 v
  reads v _ := reads_i64 v
  range _ _ _ _ _ := trivial
  inverts := inverts_i64
  shrinks := shrinks_i64

/-! ## Optional fields -/

/-- The pattern `r.Bool()`, then `r.FixedBytes` of `n` bytes if it was set. -/
def Reader.optional (n : ℕ) : Decode (Option (List.Vector UInt8 n)) := do
  let exists_ ← Reader.bool
  if exists_ then do
    let v ← Reader.fixedBytes n
    pure (some v)
  else pure none

/-- The pattern `w.Bool(v != nil)`, then `w.FixedBytes(v)` if it is not `nil`. -/
def Writer.optional {n : ℕ} (v : Option (List.Vector UInt8 n)) : Encode Unit := do
  Writer.bool v.isSome
  match v with
  | none => pure ()
  | some v => Writer.fixedBytes v

theorem lawful_optional (n : ℕ) :
    Lawful (Reader.optional n) Writer.optional Any Any := by
  refine Lawful.bind lawful_bool Option.isSome (fun _ _ => trivial) (fun _ _ _ => trivial) ?_
  rintro (_ | _) -
  · refine (Lawful.const (a := none) ⟨trivial, rfl⟩ ?_).congr ?_
    · rintro (_ | v) ⟨-, hv⟩
      · rfl
      · cases hv
    · rintro (_ | v) ⟨-, hv⟩
      · rfl
      · cases hv
  · refine (Lawful.map (lawful_fixedBytes n) some (Option.getD · (copyBytes n []))
      (fun _ _ => trivial) ?_ ?_).congr ?_
    · rintro (_ | v) ⟨-, hv⟩
      · cases hv
      · exact ⟨trivial, rfl⟩
    · exact fun v _ => ⟨⟨trivial, rfl⟩, rfl⟩
    · rintro (_ | v) ⟨-, hv⟩
      · cases hv
      · rfl

/-! ## Every number written fits its bits -/

/-- What each kind writes fits its bits. -/
theorem sized_u8 (v : UInt8) : (Writer.u8 v).Sized := Encoder.Sized.byte v

theorem sized_u32 (v : UInt32) : (Writer.u32 v).Sized :=
  sized_writeU64Bits (by decide) v.toNat_lt

theorem sized_u64 (v : UInt64) : (Writer.u64 v).Sized :=
  sized_writeU64Bits (by decide) v.toNat_lt

theorem sized_u56 (v : ℕ) : (Writer.u56 v).Sized := by
  rw [Writer.u56]
  split
  · trivial
  · rename_i hle
    exact sized_writeU64Bits (by decide) (by rw [u56Max] at hle; omega)

theorem sized_bool (v : Bool) : (Writer.bool v).Sized :=
  Encoder.Sized.bits (by decide) (by cases v <;> decide)

theorem sized_i64 (v : Int64) : (Writer.i64 v).Sized := by
  refine (sized_bool _).seq ?_
  split
  · exact sized_u64 _
  · exact sized_u64 _

theorem sized_fixedBytes (v : List.Vector UInt8 n) : (Writer.fixedBytes v).Sized :=
  Encoder.Sized.bytes _

theorem sized_sliceBytes (v : List UInt8) : (Writer.sliceBytes v).Sized :=
  (sized_u56 _).seq (Encoder.Sized.bytes v)

theorem sized_bigInt (v : ℤ) : (Writer.bigInt v).Sized := sized_sliceBytes _

theorem sized_optional (v : Option (List.Vector UInt8 n)) :
    (Writer.optional v).Sized := by
  refine (sized_bool _).seq ?_
  cases v with
  | none => exact Encoder.Sized.pure ()
  | some v => exact sized_fixedBytes v

/-! ## Which writers panic -/

/-- No kind of a bounded number panics. -/
theorem noPanic_writeUint64BitCompact (v minSize size : ℕ) :
    (writeUint64BitCompact v minSize size).NoPanic := by
  fun_induction writeUint64BitCompact v minSize size with
  | case1 v size hmore ih => exact Encoder.NoPanic.bind trivial fun _ => ih
  | case2 v size hdone => trivial

theorem noPanic_writeU64Bits (minSize bitsForSize v : ℕ) :
    (writeU64Bits minSize bitsForSize v).NoPanic :=
  (noPanic_writeUint64BitCompact v minSize 0).bind fun _ => trivial

theorem noPanic_i64 (v : Int64) : (Writer.i64 v).NoPanic := by
  refine Encoder.NoPanic.bind (m := Writer.bool (v < 0)) trivial fun _ => ?_
  split <;> exact noPanic_writeU64Bits ..

theorem noPanic_optional (v : Option (List.Vector UInt8 n)) :
    (Writer.optional v).NoPanic := by
  refine Encoder.NoPanic.bind (m := Writer.bool v.isSome) trivial fun _ => ?_
  cases v <;> trivial

/-- Nor does a slice whose length fits. -/
theorem noPanic_sliceBytes {v : List UInt8} (h : v.length < 2 ^ 56) :
    (Writer.sliceBytes v).NoPanic := by
  refine Encoder.NoPanic.bind ?_ fun _ => trivial
  rw [Writer.u56, if_neg (by rw [u56Max]; omega)]
  exact noPanic_writeU64Bits ..

/-! ## How long an encoding is -/

/-- How many bytes each kind takes. -/
theorem emitsWithin_u64Bits {m n v k : ℕ} (hn : n ≤ k) (hm : m ≤ k) (hv : v < 256 ^ k) :
    (writeU64Bits m n v).EmitsWithin k := by
  refine ⟨_, emit_writeU64Bits m n v, ?_, length_padded_le hm hv⟩
  rwa [BitList.length_ofNat]

theorem emitsWithin_u32 (v : UInt32) : (Writer.u32 v).EmitsWithin 4 :=
  emitsWithin_u64Bits (by decide) (by decide) v.toNat_lt

theorem emitsWithin_u64 (v : UInt64) : (Writer.u64 v).EmitsWithin 8 :=
  emitsWithin_u64Bits (by decide) (by decide) v.toNat_lt

theorem emitsWithin_bool (v : Bool) : (Writer.bool v).EmitsWithin 1 :=
  ⟨_, Encoder.emit_bits _ _, by rw [BitList.length_ofNat], by simp⟩

theorem emitsWithin_i64 (v : Int64) : (Writer.i64 v).EmitsWithin (1 + 8) := by
  refine (emitsWithin_bool _).seq ?_
  split
  · exact emitsWithin_u64 _
  · exact emitsWithin_u64 _

theorem emitsWithin_fixedBytes (v : List.Vector UInt8 n) :
    (Writer.fixedBytes v).EmitsWithin n :=
  ⟨_, Encoder.emit_bytes _, Nat.zero_le n, Nat.le_of_eq v.toList_length⟩

theorem emitsWithin_optional (v : Option (List.Vector UInt8 n)) :
    (Writer.optional v).EmitsWithin (1 + n) := by
  cases v with
  | none =>
    obtain ⟨o, ho, hbits, hbytes⟩ :=
      (emitsWithin_bool false).seq (Encoder.EmitsWithin.pure (ε := SerError))
    exact ⟨o, ho, by omega, by omega⟩
  | some v => exact (emitsWithin_bool true).seq (emitsWithin_fixedBytes v)

theorem emitsWithin_sliceBytes {v : List UInt8} (h : v.length < 2 ^ 56) :
    (Writer.sliceBytes v).EmitsWithin (8 + v.length) := by
  refine Encoder.EmitsWithin.seq ?_ ?_
  · rw [Writer.u56, if_neg (by rw [u56Max]; omega)]
    exact emitsWithin_u64Bits (by decide) (by decide) (by omega)
  · exact ⟨_, Encoder.emit_bytes v, Nat.zero_le _, Nat.le_refl _⟩

/-! ## Which checks a reader leaves out -/

section MarksIn

variable {S : MissingCheck → Prop}

/-- Which checks each kind leaves out. -/
theorem marksIn_readU64Bits (hzero : S .zeroWidth) (minSize bitsForSize : ℕ) :
    (readU64Bits minSize bitsForSize).MarksIn S := by
  have hcompact : ∀ size, (readUint64BitCompact size).MarksIn S := by
    intro size
    refine Decoder.MarksIn.bind (fun _ => trivial) fun buf => ?_
    split <;> trivial
  exact Decoder.MarksIn.bind (fun _ => trivial) fun size =>
    (hcompact _).bind fun _ => ⟨hzero, trivial⟩

theorem marksIn_u32 (hzero : S .zeroWidth) : Reader.u32.MarksIn S :=
  (marksIn_readU64Bits hzero 1 2).bind fun _ => trivial

theorem marksIn_u64 (hzero : S .zeroWidth) : Reader.u64.MarksIn S :=
  (marksIn_readU64Bits hzero 1 3).bind fun _ => trivial

theorem marksIn_bool : Reader.bool.MarksIn S := fun _ => trivial

theorem marksIn_i64 (hzero : S .zeroWidth) (hrange : S .i64Range) : Reader.i64.MarksIn S := by
  refine marksIn_bool.bind fun neg => (marksIn_u64 hzero).bind fun abs => ?_
  split
  · trivial
  · exact ⟨hrange, trivial⟩

theorem marksIn_fixedBytes (n : ℕ) : (Reader.fixedBytes n).MarksIn S := fun _ => trivial

theorem marksIn_sliceBytes (hzero : S .zeroWidth) : Reader.sliceBytes.MarksIn S :=
  (marksIn_readU64Bits hzero 0 3).bind fun _ _ => trivial

theorem marksIn_bigInt (hzero : S .zeroWidth) (hlead : S .leadingZero) :
    Reader.bigInt.MarksIn S :=
  (marksIn_sliceBytes hzero).bind fun _ => ⟨hlead, trivial⟩

theorem marksIn_optional (n : ℕ) : (Reader.optional n).MarksIn S := by
  refine marksIn_bool.bind fun exists_ => ?_
  split
  · exact (marksIn_fixedBytes n).bind fun _ => trivial
  · trivial

end MarksIn

end Zilionixx
