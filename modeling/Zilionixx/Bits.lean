import Mathlib.Tactic
import Zilionixx.BitList

/-!
# `utils/bits`: the bit array, its writer and its reader

The bit section of an encoding. A number of `n` bits is written across byte
boundaries, lowest bits first; the reader walks the same bytes with a byte
offset and a bit offset. Both offsets inside a byte are kept in `Fin 8`, which
is what makes the recursions of `Write` and `Read` terminate: every level
handles at least one bit.

The two denotations are `BitsWriter.Holds` (the bits written so far, followed
by less than a byte of zero padding) and `BitsReader.rest` (the bits not read
yet). `write` appends and `read` takes exactly the bits of the number, so a
stream of numbers is read as it was written.
-/

namespace Zilionixx

open BitList

/-- `zeroTopByteBits`: clear the top `bits` bits of a byte. -/
def zeroTopByteBits (v bits : ℕ) : ℕ := v &&& (0xff >>> bits)

theorem zeroTopByteBits_eq {v bits : ℕ} (h : bits ≤ 8) :
    zeroTopByteBits v bits = v % 2 ^ (8 - bits) := by
  have hmask : 0xff >>> bits = 2 ^ (8 - bits) - 1 := by
    interval_cases bits <;> rfl
  rw [zeroTopByteBits, hmask, Nat.and_two_pow_sub_one_eq_mod]

/-! ## Writer -/

/-- `bits.Writer`: the bytes so far and the number of bits used in the last
one (`0` when no byte is partly used). -/
structure BitsWriter where
  /-- `Array.Bytes` -/
  bytes : List UInt8
  /-- bits used in the last byte -/
  bitOffset : Fin 8

namespace BitsWriter

/-- `NewWriter` on an empty array. -/
def new : BitsWriter := ⟨[], 0⟩

/-- `byteBitsFree` -/
def byteBitsFree (a : BitsWriter) : ℕ := 8 - a.bitOffset.val

/-- `writeIntoLastByte`: or `byte(v << bitOffset)` into the last byte. -/
def writeIntoLastByte (a : BitsWriter) (v : ℕ) : List UInt8 :=
  a.bytes.modify (a.bytes.length - 1) fun last => last ||| UInt8.ofNat (v <<< a.bitOffset.val)

/-- The first step of `Write`: a new byte is started when none is partly used. -/
def grow (a : BitsWriter) : BitsWriter :=
  if a.bitOffset = 0 then { a with bytes := a.bytes ++ [0] } else a

theorem byteBitsFree_pos (a : BitsWriter) : 0 < a.byteBitsFree := by
  have := a.bitOffset.isLt
  rw [byteBitsFree]
  omega

/-- `Writer.Write`: append the low `bits` bits of `v`. -/
def write (a : BitsWriter) (bits v : ℕ) : BitsWriter :=
  let a' := a.grow
  let free := a'.byteBitsFree
  if h : bits ≤ free then
    { bytes := a'.writeIntoLastByte v
      bitOffset :=
        if h' : bits = free then 0
        else ⟨a'.bitOffset.val + bits, by simp only [free, byteBitsFree] at h h'; omega⟩ }
  else
    let clear := a'.bitOffset.val
    -- only the low `free` bits go into this byte
    write { bytes := a'.writeIntoLastByte (zeroTopByteBits v clear), bitOffset := 0 }
      (bits - free) (v >>> free)
termination_by bits
decreasing_by
  have hpos := a.grow.byteBitsFree_pos
  omega

/-- The writer holds the bits `bs`: they are followed by zero padding up to the
next byte boundary, and the bit offset is where they end. -/
def Holds (a : BitsWriter) (bs : List Bool) : Prop :=
  ∃ pad < 8, unpack a.bytes = bs ++ List.replicate pad false ∧ a.bitOffset.val = bs.length % 8

theorem holds_new : new.Holds [] := ⟨0, by decide, rfl, rfl⟩

/-- A writer whose last byte is open: `low` are the bits used in it. -/
structure Open (a : BitsWriter) (bs : List Bool) (full : List UInt8) (last : UInt8)
    (low : List Bool) : Prop where
  bytes : a.bytes = full ++ [last]
  bits : bs = unpack full ++ low
  length_low : low.length = a.bitOffset.val
  byte : byteBits last = low ++ List.replicate (8 - a.bitOffset.val) false

/-- After `grow` there is an open byte. -/
theorem Holds.grow {a : BitsWriter} {bs : List Bool} (h : a.Holds bs) :
    a.grow.bitOffset = a.bitOffset ∧ ∃ full last low, Open a.grow bs full last low := by
  obtain ⟨pad, hpad, hbits, hoff⟩ := h
  have hlen := congrArg List.length hbits
  rw [length_unpack, List.length_append, List.length_replicate] at hlen
  by_cases hzero : a.bitOffset = 0
  · -- the bits end at a byte boundary: the new byte is empty
    rw [BitsWriter.grow, if_pos hzero]
    have hpad0 : pad = 0 := by rw [hzero] at hoff; simp at hoff; omega
    refine ⟨rfl, a.bytes, 0, [], rfl, ?_, ?_, ?_⟩
    · rw [hbits, hpad0]; simp
    · simp [hzero]
    · rw [hzero]; rfl
  · -- the last byte is partly used
    rw [BitsWriter.grow, if_neg hzero]
    have hne : a.bytes ≠ [] := by
      rintro hnil
      rw [hnil, List.length_nil] at hlen
      apply hzero
      apply Fin.ext
      rw [hoff, show bs.length = 0 by omega]
      rfl
    have hsplit := List.dropLast_append_getLast hne
    have hoffpos : a.bitOffset.val ≠ 0 := fun h0 => hzero (Fin.ext h0)
    have hlenInit : a.bytes.dropLast.length = a.bytes.length - 1 := List.length_dropLast
    have hbslen : bs.length = 8 * a.bytes.dropLast.length + a.bitOffset.val := by omega
    have hpadEq : pad = 8 - a.bitOffset.val := by omega
    rw [← hsplit, unpack_append, unpack_cons, unpack_nil, List.append_nil] at hbits
    have hfull : unpack a.bytes.dropLast = bs.take (8 * a.bytes.dropLast.length) := by
      have := congrArg (List.take (8 * a.bytes.dropLast.length)) hbits
      rw [List.take_left' (length_unpack _), List.take_append_of_le_length (by omega)] at this
      exact this
    have hlast : byteBits (a.bytes.getLast hne) =
        bs.drop (8 * a.bytes.dropLast.length) ++ List.replicate pad false := by
      have := congrArg (List.drop (8 * a.bytes.dropLast.length)) hbits
      rw [List.drop_left' (length_unpack _), List.drop_append_of_le_length (by omega)] at this
      exact this
    refine ⟨rfl, a.bytes.dropLast, a.bytes.getLast hne, bs.drop (8 * a.bytes.dropLast.length),
      hsplit.symm, ?_, ?_, ?_⟩
    · rw [hfull, List.take_append_drop]
    · rw [List.length_drop]; omega
    · rw [hlast, hpadEq]

/-- Oring a number into the unused part of a byte appends its bits. -/
theorem byteBits_or {last : UInt8} {low : List Bool} {off : ℕ} (v : ℕ) (hoff : off ≤ 8)
    (hlow : low.length = off) (hbyte : byteBits last = low ++ List.replicate (8 - off) false) :
    byteBits (last ||| UInt8.ofNat (v <<< off)) = low ++ BitList.ofNat (8 - off) v := by
  apply List.ext_getElem?
  intro i
  have hi := congrArg (fun l : List Bool => l[i]?) hbyte
  simp only [byteBits, getElem?_ofNat] at hi ⊢
  by_cases hi8 : i < 8
  · rw [if_pos hi8] at hi ⊢
    rw [UInt8.toNat_or, UInt8.toNat_ofNat', Nat.testBit_or, Nat.testBit_mod_two_pow,
      Nat.testBit_shiftLeft]
    by_cases hlt : i < off
    · rw [List.getElem?_append_left (by omega)] at hi ⊢
      rw [← hi]
      simp [hi8, show ¬ off ≤ i by omega]
    · rw [List.getElem?_append_right (by omega), hlow] at hi ⊢
      rw [List.getElem?_replicate_of_lt (by omega), Option.some.injEq] at hi
      rw [getElem?_ofNat, if_pos (by omega), hi]
      simp [hi8, show off ≤ i by omega]
  · rw [if_neg hi8, List.getElem?_eq_none]
    rw [List.length_append, length_ofNat]
    omega

/-- Oring into an open last byte. -/
theorem Open.write {a : BitsWriter} {bs : List Bool} {full : List UInt8} {last : UInt8}
    {low : List Bool} (h : Open a bs full last low) (v : ℕ) :
    unpack (a.writeIntoLastByte v) = bs ++ BitList.ofNat a.byteBitsFree v := by
  have hoff : a.bitOffset.val ≤ 8 := Nat.le_of_lt a.bitOffset.isLt
  have hmod : a.writeIntoLastByte v =
      full ++ [last ||| UInt8.ofNat (v <<< a.bitOffset.val)] := by
    rw [writeIntoLastByte, h.bytes, List.length_append, List.length_singleton,
      Nat.add_sub_cancel, List.modify_eq_set_getElem?]
    simp
  rw [hmod, unpack_append, unpack_cons, unpack_nil, List.append_nil,
    byteBits_or v hoff h.length_low h.byte, ← List.append_assoc, ← h.bits, byteBitsFree]

/-- **`Write` appends the bits of the number**, whatever the offset it starts
at and however many bytes it crosses. -/
theorem Holds.write {n : ℕ} :
    ∀ {a : BitsWriter} {bs : List Bool} {v : ℕ}, a.Holds bs → 0 < n → v < 2 ^ n →
      (a.write n v).Holds (bs ++ BitList.ofNat n v) := by
  induction n using Nat.strongRecOn with
  | ind n ih =>
    intro a bs v h hn hv
    obtain ⟨hsame, full, last, low, hopen⟩ := h.grow
    have hofflt := a.grow.bitOffset.isLt
    have hbslen : bs.length % 8 = a.grow.bitOffset.val := by
      rw [hopen.bits, List.length_append, length_unpack, hopen.length_low]
      omega
    rw [BitsWriter.write]
    by_cases hle : n ≤ a.grow.byteBitsFree
    · -- the number fits the open byte
      rw [dif_pos hle]
      have hfree : a.grow.byteBitsFree = 8 - a.grow.bitOffset.val := rfl
      refine ⟨a.grow.byteBitsFree - n, by omega, ?_, ?_⟩
      · rw [hopen.write v, ofNat_of_lt hle hv, List.append_assoc]
      · rw [List.length_append, length_ofNat]
        split
        · simp only [Fin.val_zero]; omega
        · simp only; omega
    · -- fill the byte, then write the rest from a byte boundary
      rw [dif_neg hle]
      have hfree : a.grow.byteBitsFree = 8 - a.grow.bitOffset.val := rfl
      have hpos := a.grow.byteBitsFree_pos
      have hstep : BitsWriter.Holds
          ⟨a.grow.writeIntoLastByte (zeroTopByteBits v a.grow.bitOffset.val), 0⟩
          (bs ++ BitList.ofNat a.grow.byteBitsFree v) := by
        refine ⟨0, by decide, ?_, ?_⟩
        · rw [hopen.write, zeroTopByteBits_eq (by omega), ← hfree, ofNat_mod]
          simp
        · rw [List.length_append, length_ofNat]
          simp only [Fin.val_zero]
          omega
      have hrest : v >>> a.grow.byteBitsFree < 2 ^ (n - a.grow.byteBitsFree) := by
        rw [Nat.shiftRight_eq_div_pow, Nat.div_lt_iff_lt_mul (by positivity), ← Nat.pow_add]
        rwa [Nat.sub_add_cancel (by omega)]
      have hwritten := ih (n - a.grow.byteBitsFree) (by omega) hstep (by omega) hrest
      rw [Nat.shiftRight_eq_div_pow, List.append_assoc, ← ofNat_add,
        Nat.add_sub_cancel' (by omega)] at hwritten
      rw [Nat.shiftRight_eq_div_pow]
      exact hwritten

end BitsWriter

/-! ## Reader -/

/-- `bits.Reader`: the bytes and the two offsets of the next bit. -/
structure BitsReader where
  /-- `Array.Bytes` -/
  bytes : List UInt8
  /-- the byte of the next bit -/
  byteOffset : ℕ
  /-- the next bit inside its byte -/
  bitOffset : Fin 8

namespace BitsReader

/-- `NewReader` -/
def new (bytes : List UInt8) : BitsReader := ⟨bytes, 0, 0⟩

/-- `byteBitsFree` -/
def byteBitsFree (a : BitsReader) : ℕ := 8 - a.bitOffset.val

theorem byteBitsFree_pos (a : BitsReader) : 0 < a.byteBitsFree := by
  have := a.bitOffset.isLt
  rw [byteBitsFree]
  omega

/-- `Reader.Read`: the next `bits` bits as a 64-bit word; `none` is the panic
of indexing past the last byte. -/
def read (a : BitsReader) (bits : ℕ) : Option (ℕ × BitsReader) :=
  if bits = 0 then some (0, a)
  else
    let free := a.byteBitsFree
    match a.bytes[a.byteOffset]? with
    | none => none
    | some b =>
      if h : bits ≤ free then
        let clear := 8 - (a.bitOffset.val + bits)
        some (zeroTopByteBits b.toNat clear >>> a.bitOffset.val,
          if h' : bits = free then { a with byteOffset := a.byteOffset + 1, bitOffset := 0 }
          else { a with bitOffset := ⟨a.bitOffset.val + bits, by
                          simp only [free, byteBitsFree] at h h'; omega⟩ })
      else
        -- the rest of this byte, then the remaining bits from the next one
        match read { a with byteOffset := a.byteOffset + 1, bitOffset := 0 } (bits - free) with
        | none => none
        | some (rest, a') =>
          some ((b.toNat >>> a.bitOffset.val) ||| (rest <<< free) % 2 ^ 64, a')
termination_by bits
decreasing_by
  have hpos := a.byteBitsFree_pos
  omega

/-- `Reader.View`: read on a copy. -/
def view (a : BitsReader) (bits : ℕ) : Option ℕ := (a.read bits).map Prod.fst

/-- `NonReadBytes` -/
def nonReadBytes (a : BitsReader) : ℕ := a.bytes.length - a.byteOffset

/-- `NonReadBits` -/
def nonReadBits (a : BitsReader) : ℕ := a.nonReadBytes * 8 - a.bitOffset.val

/-- How many bits lie before the next one. -/
def position (a : BitsReader) : ℕ := 8 * a.byteOffset + a.bitOffset.val

/-- The reader moved to a bit position. -/
def seek (a : BitsReader) (p : ℕ) : BitsReader :=
  { a with byteOffset := p / 8, bitOffset := Fin.ofNat 8 p }

/-- The bits not read yet. -/
def rest (a : BitsReader) : List Bool := (unpack a.bytes).drop a.position

@[simp] theorem bytes_seek (a : BitsReader) (p : ℕ) : (a.seek p).bytes = a.bytes := rfl

@[simp] theorem position_seek (a : BitsReader) (p : ℕ) : (a.seek p).position = p := by
  simp only [seek, position, Fin.ofNat]
  omega

variable {a : BitsReader}

theorem seek_eq {p byteOffset : ℕ} {bitOffset : Fin 8} (h : 8 * byteOffset + bitOffset.val = p) :
    a.seek p = { a with byteOffset := byteOffset, bitOffset := bitOffset } := by
  have hlt := bitOffset.isLt
  have hbyte : p / 8 = byteOffset := by omega
  have hbit : Fin.ofNat 8 p = bitOffset := by
    apply Fin.ext
    simp only [Fin.ofNat]
    omega
  rw [seek, hbyte, hbit]

theorem rest_new (bytes : List UInt8) : (new bytes).rest = unpack bytes := rfl

theorem length_rest (a : BitsReader) : a.rest.length = 8 * a.bytes.length - a.position := by
  rw [rest, List.length_drop, length_unpack]

/-- `NonReadBits` counts the unread bits. -/
theorem nonReadBits_eq (a : BitsReader) : a.nonReadBits = a.rest.length := by
  rw [length_rest, nonReadBits, nonReadBytes, position]
  omega

/-- At most one unread byte is the same as at most eight unread bits. -/
theorem nonReadBytes_le_one (a : BitsReader) : a.nonReadBytes ≤ 1 ↔ a.rest.length ≤ 8 := by
  have hlt := a.bitOffset.isLt
  rw [length_rest, nonReadBytes, position]
  omega

/-- The unread bits start with the rest of the current byte. -/
theorem rest_eq {b : UInt8} (h : a.bytes[a.byteOffset]? = some b) :
    a.rest = (byteBits b).drop a.bitOffset.val ++ unpack (a.bytes.drop (a.byteOffset + 1)) := by
  have hlt := (List.getElem?_eq_some_iff.mp h).1
  have hb := (List.getElem?_eq_some_iff.mp h).2
  rw [rest, position, ← List.drop_drop, drop_unpack, List.drop_eq_getElem_cons hlt, hb,
    unpack_cons, List.drop_append_of_le_length]
  rw [length_byteBits]
  exact Nat.le_of_lt a.bitOffset.isLt

/-- Oring a shifted word onto a small one is addition, in 64-bit words. -/
theorem or_shiftLeft_mod {k v : ℕ} (hk : k ≤ 64) (hv : v < 2 ^ k) (r : ℕ) :
    v ||| ((r % 2 ^ 64) <<< k) % 2 ^ 64 = (v + 2 ^ k * r) % 2 ^ 64 := by
  have h64 : (2 : ℕ) ^ 64 = 2 ^ k * 2 ^ (64 - k) := by
    rw [← Nat.pow_add, Nat.add_sub_cancel' hk]
  have hshift : ((r % 2 ^ 64) <<< k) % 2 ^ 64 = 2 ^ k * (r % 2 ^ (64 - k)) := by
    rw [Nat.shiftLeft_eq, Nat.mod_mul_mod, Nat.mul_comm, h64, Nat.mul_mod_mul_left]
  rw [hshift, Nat.or_comm, ← Nat.two_pow_add_eq_or_of_lt hv, h64, Nat.mod_mul,
    Nat.add_mul_mod_self_left, Nat.mod_eq_of_lt hv, Nat.add_mul_div_left _ _ (by positivity),
    Nat.div_eq_of_lt hv, Nat.zero_add, Nat.add_comm]

theorem length_drop_byteBits (a : BitsReader) (b : UInt8) :
    ((byteBits b).drop a.bitOffset.val).length = a.byteBitsFree := by
  rw [List.length_drop, length_byteBits]
  rfl

theorem length_rest_eq {b : UInt8} (h : a.bytes[a.byteOffset]? = some b) :
    a.rest.length = a.byteBitsFree + (unpack (a.bytes.drop (a.byteOffset + 1))).length := by
  rw [rest_eq h, List.length_append, length_drop_byteBits]

/-- The reader at the start of the next byte. -/
theorem rest_nextByte (a : BitsReader) :
    rest { a with byteOffset := a.byteOffset + 1, bitOffset := 0 } =
      unpack (a.bytes.drop (a.byteOffset + 1)) := by
  simp only [rest, position, Fin.val_zero, Nat.add_zero, drop_unpack]

/-- Bits of the current byte are cut out by a mask and a shift. -/
theorem toNat_take_inByte {b : UInt8} {n : ℕ} (h : a.bytes[a.byteOffset]? = some b)
    (hle : n ≤ a.byteBitsFree) :
    toNat (a.rest.take n) =
      zeroTopByteBits b.toNat (8 - (a.bitOffset.val + n)) >>> a.bitOffset.val := by
  have hofflt := a.bitOffset.isLt
  have hfree : a.byteBitsFree = 8 - a.bitOffset.val := rfl
  have hhead := a.length_drop_byteBits b
  have hclear : 8 - (8 - (a.bitOffset.val + n)) = a.bitOffset.val + n := by omega
  rw [rest_eq h, List.take_append_of_le_length (by omega), byteBits, drop_ofNat _ _ _ (by omega),
    take_ofNat _ _ _ (by omega), toNat_ofNat, zeroTopByteBits_eq (by omega),
    Nat.shiftRight_eq_div_pow, hclear, Nat.pow_add, Nat.mod_mul_right_div_self]

/-- The current byte without the bits read before is a shift. -/
theorem toNat_drop_byteBits (a : BitsReader) (b : UInt8) :
    toNat ((byteBits b).drop a.bitOffset.val) = b.toNat >>> a.bitOffset.val := by
  have hofflt := a.bitOffset.isLt
  rw [byteBits, drop_ofNat _ _ _ (by omega), toNat_ofNat, Nat.shiftRight_eq_div_pow,
    Nat.mod_eq_of_lt]
  rw [Nat.div_lt_iff_lt_mul (by positivity), ← Nat.pow_add, Nat.sub_add_cancel (by omega)]
  exact b.toNat_lt

/-- Bits across the end of the current byte are put together by a shift and an or. -/
theorem toNat_take_acrossByte {b : UInt8} {n : ℕ} (h : a.bytes[a.byteOffset]? = some b)
    (hlt : a.byteBitsFree < n) :
    toNat (a.rest.take n) % 2 ^ 64 = (b.toNat >>> a.bitOffset.val) |||
      ((toNat ((unpack (a.bytes.drop (a.byteOffset + 1))).take (n - a.byteBitsFree)) % 2 ^ 64) <<<
        a.byteBitsFree) % 2 ^ 64 := by
  have hhead := a.length_drop_byteBits b
  have hfree : a.byteBitsFree = 8 - a.bitOffset.val := rfl
  have htake : a.rest.take n = (byteBits b).drop a.bitOffset.val ++
      (unpack (a.bytes.drop (a.byteOffset + 1))).take (n - a.byteBitsFree) := by
    rw [rest_eq h, List.take_append, hhead]
    congr 1
    exact List.take_of_length_le (by omega)
  have hsmall : toNat ((byteBits b).drop a.bitOffset.val) < 2 ^ a.byteBitsFree := by
    have := toNat_lt ((byteBits b).drop a.bitOffset.val)
    rwa [hhead] at this
  rw [← toNat_drop_byteBits, or_shiftLeft_mod (by omega) hsmall, htake, toNat_append, hhead]

/-- **`Read` takes the next bits**: it succeeds exactly when there are enough of
them, returns their number and moves past them. -/
theorem read_eq {n : ℕ} :
    ∀ a : BitsReader, a.read n =
      if n ≤ a.rest.length then
        some (toNat (a.rest.take n) % 2 ^ 64, a.seek (a.position + n))
      else none := by
  induction n using Nat.strongRecOn with
  | ind n ih =>
    intro a
    rw [read]
    by_cases hn : n = 0
    · subst hn
      have hstay : a.seek (a.position + 0) = a := seek_eq rfl
      rw [if_pos rfl, if_pos (Nat.zero_le _), hstay]
      rfl
    rw [if_neg hn]
    have hofflt := a.bitOffset.isLt
    have hfree : a.byteBitsFree = 8 - a.bitOffset.val := rfl
    rcases hb : a.bytes[a.byteOffset]? with _ | b
    · -- past the last byte there is nothing to read
      have hge := List.getElem?_eq_none_iff.mp hb
      have hlen := a.length_rest
      rw [position] at hlen
      rw [if_neg (by omega)]
    have hlen := length_rest_eq hb
    by_cases hle : n ≤ a.byteBitsFree
    · -- the bits lie in the current byte
      have hsmall : toNat (a.rest.take n) < 2 ^ 64 := by
        refine Nat.lt_of_lt_of_le (toNat_lt _) (Nat.pow_le_pow_right (by decide) ?_)
        rw [List.length_take]
        omega
      simp only [dif_pos hle]
      rw [if_pos (by omega), Nat.mod_eq_of_lt hsmall, toNat_take_inByte hb hle]
      congr 2
      split
      · rw [seek_eq]
        rw [position, Fin.val_zero]
        omega
      · rw [seek_eq]
        simp only [position]
        omega
    · -- the current byte is used up, the rest comes from the next one
      simp only [dif_neg hle]
      rw [ih _ (by have := a.byteBitsFree_pos; omega), rest_nextByte]
      by_cases henough : n ≤ a.rest.length
      · have hpos : position { a with byteOffset := a.byteOffset + 1, bitOffset := 0 } +
            (n - a.byteBitsFree) = a.position + n := by
          simp only [position, Fin.val_zero]
          omega
        rw [if_pos henough, if_pos (by omega), toNat_take_acrossByte hb (by omega)]
        simp only [hpos]
        rfl
      · rw [if_neg henough, if_neg (by omega)]

theorem view_eq (a : BitsReader) (n : ℕ) :
    a.view n =
      if n ≤ a.rest.length then some (toNat (a.rest.take n) % 2 ^ 64) else none := by
  rw [view, read_eq]
  split <;> rfl

theorem rest_seek (a : BitsReader) (n : ℕ) : (a.seek (a.position + n)).rest = a.rest.drop n := by
  rw [rest, position_seek, bytes_seek, ← List.drop_drop]
  rfl

/-- `View` returns what `Read` would. -/
theorem view_eq_some {n v : ℕ} :
    a.view n = some v ↔ ∃ a', a.read n = some (v, a') := by
  rw [view, Option.map_eq_some_iff]
  constructor
  · rintro ⟨⟨_, a'⟩, hread, rfl⟩
    exact ⟨a', hread⟩
  · rintro ⟨a', hread⟩
    exact ⟨_, hread, rfl⟩

/-- `Read` uses up what it returns. -/
theorem nonReadBits_of_read {a a' : BitsReader} {n v : ℕ} (h : a.read n = some (v, a')) :
    a'.nonReadBits + n = a.nonReadBits := by
  rw [read_eq] at h
  split at h
  · cases h
    rw [nonReadBits_eq, nonReadBits_eq, rest_seek, List.length_drop]
    omega
  · cases h

/-- A number that is next is read. -/
theorem read_of_rest {n v : ℕ} {bs : List Bool} (h : a.rest = BitList.ofNat n v ++ bs) (hn : n ≤ 64)
    (hv : v < 2 ^ n) :
    ∃ a', a.read n = some (v, a') ∧ a'.rest = bs := by
  have hlen : n ≤ a.rest.length := by
    rw [h, List.length_append, length_ofNat]
    omega
  have hvalue : toNat (a.rest.take n) % 2 ^ 64 = v := by
    rw [h, List.take_left' (length_ofNat n v), toNat_ofNat_of_lt hv]
    exact Nat.mod_eq_of_lt (Nat.lt_of_lt_of_le hv (Nat.pow_le_pow_right (by decide) hn))
  refine ⟨a.seek (a.position + n), ?_, ?_⟩
  · rw [read_eq, if_pos hlen, hvalue]
  · rw [rest_seek, h, List.drop_left' (length_ofNat n v)]

end BitsReader

/-! ## Streams of numbers -/

/-- A number to be written with `bits` bits, which it fits. -/
structure BitsNumber where
  /-- how many bits it is written with -/
  bits : ℕ
  /-- the number -/
  v : ℕ
  one_le : 1 ≤ bits
  bits_le : bits ≤ 64
  v_lt : v < 2 ^ bits

/-- `Write` of one number after the other. -/
def BitsWriter.writeAll (a : BitsWriter) (numbers : List BitsNumber) : BitsWriter :=
  numbers.foldl (fun a number => a.write number.bits number.v) a

/-- `Read` of as many bits as `widths` says, one number after the other. -/
def BitsReader.readAll (a : BitsReader) : List ℕ → Option (List ℕ × BitsReader)
  | [] => some ([], a)
  | n :: widths =>
    match a.read n with
    | none => none
    | some (v, a') => (a'.readAll widths).map fun read => (v :: read.1, read.2)

/-- The bits of all numbers. -/
def bitsOfNumbers (numbers : List BitsNumber) : List Bool :=
  numbers.flatMap fun number => BitList.ofNat number.bits number.v

theorem length_bitsOfNumbers (numbers : List BitsNumber) :
    (bitsOfNumbers numbers).length = (numbers.map BitsNumber.bits).sum := by
  simp [bitsOfNumbers, List.length_flatMap, length_ofNat]

/-- As many bytes as the bits need. -/
theorem BitsWriter.Holds.length_bytes {a : BitsWriter} {bs : List Bool} (h : a.Holds bs) :
    a.bytes.length = (bs.length + 7) / 8 := by
  obtain ⟨pad, hpad, hbits, -⟩ := h
  have hlen := congrArg List.length hbits
  rw [length_unpack, List.length_append, List.length_replicate] at hlen
  omega

theorem BitsWriter.Holds.writeAll {numbers : List BitsNumber} :
    ∀ {a : BitsWriter} {bs : List Bool}, a.Holds bs →
      (a.writeAll numbers).Holds (bs ++ bitsOfNumbers numbers) := by
  induction numbers with
  | nil =>
    intro a bs h
    rw [bitsOfNumbers, List.flatMap_nil, List.append_nil]
    exact h
  | cons number numbers ih =>
    intro a bs h
    have hrest := ih (h.write number.one_le number.v_lt)
    rw [List.append_assoc] at hrest
    exact hrest

/-- Numbers that are next are read. -/
theorem BitsReader.readAll_of_rest {numbers : List BitsNumber} {bs : List Bool} :
    ∀ {a : BitsReader}, a.rest = bitsOfNumbers numbers ++ bs →
      ∃ a', a.readAll (numbers.map BitsNumber.bits) = some (numbers.map BitsNumber.v, a') ∧
        a'.rest = bs := by
  induction numbers with
  | nil =>
    intro a h
    exact ⟨a, rfl, h⟩
  | cons number numbers ih =>
    intro a h
    rw [bitsOfNumbers, List.flatMap_cons, List.append_assoc] at h
    obtain ⟨a₁, hread, hrest⟩ := read_of_rest h number.bits_le number.v_lt
    obtain ⟨a₂, hreadAll, hbs⟩ := ih hrest
    refine ⟨a₂, ?_, hbs⟩
    rw [List.map_cons, BitsReader.readAll, hread]
    simp only [hreadAll]
    rfl

/-- **What is written is read.** The numbers take as many bytes as their bits need, with zeros
after the last bit. Reading as many bits again returns the numbers, and leaves the zeros. `View`
returns what `Read` would, and each `Read` lowers `NonReadBits` by what it was asked for. -/
theorem bits_stream_round_trip (numbers : List BitsNumber) :
    ∃ bytes, (BitsWriter.new.writeAll numbers).bytes = bytes ∧
      bytes.length = ((numbers.map BitsNumber.bits).sum + 7) / 8 ∧
      (∃ pad < 8, unpack bytes = bitsOfNumbers numbers ++ List.replicate pad false) ∧
      (∃ r, (BitsReader.new bytes).readAll (numbers.map BitsNumber.bits) =
          some (numbers.map BitsNumber.v, r) ∧
        r.nonReadBits + (numbers.map BitsNumber.bits).sum = (BitsReader.new bytes).nonReadBits) ∧
      ∀ (r : BitsReader) (n v : ℕ), (r.view n = some v ↔ ∃ r', r.read n = some (v, r')) ∧
        ∀ r', r.read n = some (v, r') → r'.nonReadBits + n = r.nonReadBits := by
  have hholds : (BitsWriter.new.writeAll numbers).Holds (bitsOfNumbers numbers) :=
    BitsWriter.holds_new.writeAll
  obtain ⟨pad, hpad, hbits, -⟩ := id hholds
  have hrest : (BitsReader.new (BitsWriter.new.writeAll numbers).bytes).rest =
      bitsOfNumbers numbers ++ List.replicate pad false := hbits
  obtain ⟨r, hread, hleft⟩ := BitsReader.readAll_of_rest hrest
  refine ⟨_, rfl, ?_, ⟨pad, hpad, hbits⟩, ⟨r, hread, ?_⟩, ?_⟩
  · rw [hholds.length_bytes, length_bitsOfNumbers]
  · rw [r.nonReadBits_eq, BitsReader.nonReadBits_eq, hleft, hrest, List.length_append,
      length_bitsOfNumbers]
    omega
  · intro r n v
    exact ⟨BitsReader.view_eq_some, fun r' h => BitsReader.nonReadBits_of_read h⟩

end Zilionixx
