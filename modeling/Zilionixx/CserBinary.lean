import Zilionixx.Cser

/-!
# `utils/cser`: the binary container

`binary.go`: the body bytes, then the bit section, then the length of the bit
section. The length is written with seven bits to a byte and read from the end,
so its bytes are reversed. `pack` is the resulting layout; `binaryToCSER`
accepts exactly the packed byte strings (`binaryToCSER_eq_ok`), so the container
itself has one form only.

The two adapters run a program inside the container. What they mean on plain
streams is `marshalBinaryAdapter_eq_ok` and `unmarshalBinaryAdapter_eq_ok`; the
two laws of a codec carry over to whole byte strings as
`unmarshal_of_marshal` and `marshal_of_unmarshal`.
-/

namespace Zilionixx

open Codec BitList

/-! ## The length of the bit section -/

/-- `writeUint64Compact`: seven bits a byte, the last one flagged. -/
def writeUint64Compact (bytesW : FastWriter) (v : ℕ) : FastWriter :=
  let chunk := v &&& 0b01111111
  if h : v >>> 7 = 0 then bytesW.writeByte (UInt8.ofNat (chunk ||| 0b10000000))
  else writeUint64Compact (bytesW.writeByte (UInt8.ofNat chunk)) (v >>> 7)
termination_by v
decreasing_by
  rw [Nat.shiftRight_eq_div_pow] at h ⊢
  omega

/-- The loop of `readUint64Compact` from round `i` on, `v` being the bits so
far; `none` is a panic. -/
def readUint64CompactFrom (bytesR : FastReader) (i v : ℕ) : Option (ℕ × FastReader) :=
  match h : bytesR.readByte with
  | none => none
  | some (b, bytesR') =>
    let chunk := b.toNat
    let stop := chunk &&& 0b10000000 != 0
    let word := chunk &&& 0b01111111
    let v' := v ||| (word <<< (i * 7)) % 2 ^ 64
    if i > 0 && stop && word == 0 then none
    else if stop then some (v', bytesR')
    else readUint64CompactFrom bytesR' (i + 1) v'
termination_by bytesR.rest.length
decreasing_by
  obtain ⟨-, hrest⟩ := FastReader.readByte_eq_some h
  rw [hrest, List.length_cons]
  omega

/-- `readUint64Compact` -/
def readUint64Compact (bytesR : FastReader) : Option (ℕ × FastReader) :=
  readUint64CompactFrom bytesR 0 0

/-- The bytes of `writeUint64Compact`. -/
def compact (v : ℕ) : List UInt8 :=
  if h : v / 128 = 0 then [UInt8.ofNat (v + 128)]
  else UInt8.ofNat (v % 128) :: compact (v / 128)
termination_by v
decreasing_by omega

theorem and_127 (v : ℕ) : v &&& 0b01111111 = v % 128 := Nat.and_two_pow_sub_one_eq_mod v 7

theorem or_128 {v : ℕ} (h : v < 128) : v ||| 0b10000000 = v + 128 := by
  have hor := Nat.two_pow_add_eq_or_of_lt (i := 7) h 1
  rw [Nat.or_comm, Nat.add_comm]
  exact hor.symm

theorem and_128 (b : UInt8) : (b.toNat &&& 0b10000000 != 0) = decide (128 ≤ b.toNat) := by
  have h : ∀ i : Fin 256, (i.val &&& 0b10000000 != 0) = decide (128 ≤ i.val) := by
    decide +kernel
  exact h ⟨b.toNat, b.toNat_lt⟩

theorem writeUint64Compact_eq (w : FastWriter) (v : ℕ) :
    (writeUint64Compact w v).buf = w.buf ++ compact v := by
  fun_induction writeUint64Compact w v with
  | case1 w v chunk hlast =>
    rw [Nat.shiftRight_eq_div_pow] at hlast
    rw [compact, dif_pos hlast]
    simp only [FastWriter.writeByte, chunk, and_127]
    rw [Nat.mod_eq_of_lt (by omega), or_128 (by omega)]
  | case2 w v chunk hmore ih =>
    rw [ih, compact.eq_1 v, dif_neg (by rwa [Nat.shiftRight_eq_div_pow] at hmore),
      Nat.shiftRight_eq_div_pow]
    simp [FastWriter.writeByte, chunk, and_127]

theorem length_compact_le {n v : ℕ} (h : v < 2 ^ (7 * (n + 1))) : (compact v).length ≤ n + 1 := by
  induction n generalizing v with
  | zero =>
    rw [compact, dif_pos (by omega)]
    exact Nat.le_refl 1
  | succ n ih =>
    rw [compact]
    split
    · simp
    · rw [List.length_cons]
      have hdiv : v / 128 < 2 ^ (7 * (n + 1)) := by
        rw [Nat.div_lt_iff_lt_mul (by decide)]
        calc v < 2 ^ (7 * (n + 1 + 1)) := h
          _ = 2 ^ (7 * (n + 1)) * 128 := by rw [Nat.mul_add 7 (n + 1) 1, Nat.pow_add]
      have := ih hdiv
      omega

theorem length_compact_mono {v : ℕ} :
    ∀ {w : ℕ}, v ≤ w → (compact v).length ≤ (compact w).length := by
  induction v using Nat.strongRecOn with
  | ind v ih =>
    intro w hle
    rw [compact, compact.eq_1 w]
    by_cases hv : v / 128 = 0
    · rw [dif_pos hv]
      split <;> simp
    · have hw : ¬ w / 128 = 0 := by omega
      rw [dif_neg hv, dif_neg hw, List.length_cons, List.length_cons]
      exact Nat.succ_le_succ (ih (v / 128) (by omega) (Nat.div_le_div_right hle))

/-- One round adds seven bits. -/
theorem add_word_lt {v i w : ℕ} (hv : v < 2 ^ (7 * i)) (hw : w < 128) :
    v + 2 ^ (7 * i) * w < 2 ^ (7 * (i + 1)) := by
  calc v + 2 ^ (7 * i) * w < 2 ^ (7 * i) + 2 ^ (7 * i) * w := Nat.add_lt_add_right hv _
    _ = 2 ^ (7 * i) * (w + 1) := by ring
    _ ≤ 2 ^ (7 * i) * 128 := Nat.mul_le_mul_left _ hw
    _ = 2 ^ (7 * (i + 1)) := by rw [Nat.mul_add 7 i 1, Nat.pow_add]

/-- One round of the reading loop. -/
theorem readUint64CompactFrom_round {r r' : FastReader} {b : UInt8} {i acc : ℕ}
    (hread : r.readByte = some (b, r')) (hacc : acc < 2 ^ (7 * i)) (hi : i < 9) :
    readUint64CompactFrom r i acc =
      if 128 ≤ b.toNat then
        if 0 < i ∧ b.toNat = 128 then none else some (acc + 2 ^ (7 * i) * (b.toNat - 128), r')
      else readUint64CompactFrom r' (i + 1) (acc + 2 ^ (7 * i) * b.toNat) := by
  have hb : b.toNat < 256 := b.toNat_lt
  rw [readUint64CompactFrom]
  split
  · rename_i hnone
    rw [hread] at hnone
    cases hnone
  · rename_i b' r₁ hsome
    rw [hread, Option.some.injEq, Prod.mk.injEq] at hsome
    obtain ⟨rfl, rfl⟩ := hsome
    simp only [and_127, and_128]
    rw [Nat.mul_comm i 7, or_shiftLeft hacc (j := 7) (by omega) (by omega)]
    by_cases hstop : 128 ≤ b.toNat
    · have hword : b.toNat % 128 = b.toNat - 128 := by omega
      have hzero : b.toNat - 128 = 0 ↔ b.toNat = 128 := by omega
      simp only [hstop, hword, decide_true, Bool.and_true, if_true, Bool.and_eq_true,
        decide_eq_true_eq, beq_iff_eq, hzero, gt_iff_lt]
    · have hword : b.toNat % 128 = b.toNat := by omega
      simp [hstop, hword]

/-- Reading a length back, whatever follows it. -/
theorem readUint64CompactFrom_compact {v : ℕ} :
    ∀ {r : FastReader} {i acc : ℕ} {tl : List UInt8}, r.rest = compact v ++ tl →
      acc < 2 ^ (7 * i) → i + (compact v).length ≤ 9 → (0 < i → 0 < v) →
      readUint64CompactFrom r i acc =
        some (acc + 2 ^ (7 * i) * v, { r with offset := r.offset + (compact v).length }) := by
  induction v using Nat.strongRecOn with
  | ind v ih =>
    intro r i acc tl hrest hacc hlen hpos
    rw [compact] at hrest hlen
    rw [compact]
    by_cases hlast : v / 128 = 0
    · -- the flagged byte
      rw [dif_pos hlast] at hrest hlen ⊢
      rw [List.length_singleton] at hlen ⊢
      have hbyte : (UInt8.ofNat (v + 128)).toNat = v + 128 := by
        rw [UInt8.toNat_ofNat']
        omega
      rw [readUint64CompactFrom_round (FastReader.readByte_of_rest hrest) hacc (by omega),
        hbyte, if_pos (by omega), if_neg (by omega), Nat.add_sub_cancel]
    · rw [dif_neg hlast] at hrest hlen ⊢
      rw [List.cons_append] at hrest
      rw [List.length_cons] at hlen
      have hread := FastReader.readByte_of_rest hrest
      have hbyte : (UInt8.ofNat (v % 128)).toNat = v % 128 := by
        rw [UInt8.toNat_ofNat']
        omega
      have hrest' : FastReader.rest { r with offset := r.offset + 1 } =
          compact (v / 128) ++ tl := by
        obtain ⟨-, hcons⟩ := FastReader.readByte_eq_some hread
        rw [hrest] at hcons
        exact (List.cons.inj hcons).2.symm
      have hsum : acc + 2 ^ (7 * i) * (v % 128) + 2 ^ (7 * (i + 1)) * (v / 128) =
          acc + 2 ^ (7 * i) * v := by
        conv_rhs => rw [← Nat.mod_add_div v 128]
        rw [Nat.mul_add 7 i 1, Nat.pow_add]
        ring
      rw [readUint64CompactFrom_round hread hacc (by omega), hbyte, if_neg (by omega),
        ih (v / 128) (by omega) hrest' (add_word_lt hacc (by omega)) (by omega) (by omega), hsum,
        List.length_cons, Nat.add_assoc, Nat.add_comm 1]

/-- Whatever is read as a length is how that length is written. -/
theorem readUint64CompactFrom_eq_some {bs : List UInt8} :
    ∀ {r r' : FastReader} {i acc x : ℕ}, r.rest = bs →
      readUint64CompactFrom r i acc = some (x, r') → acc < 2 ^ (7 * i) → i + bs.length ≤ 9 →
      ∃ v, x = acc + 2 ^ (7 * i) * v ∧ r.rest = compact v ++ r'.rest ∧
        r' = { r with offset := r.offset + (compact v).length } ∧ (0 < i → 0 < v) := by
  induction bs with
  | nil =>
    intro r r' i acc x hrest h hacc hlen
    -- there is no byte left to read
    rw [readUint64CompactFrom] at h
    split at h
    · cases h
    · rename_i hread
      obtain ⟨-, hcons⟩ := FastReader.readByte_eq_some hread
      rw [hrest] at hcons
      cases hcons
  | cons b bs ih =>
    intro r r' i acc x hrest h hacc hlen
    rw [List.length_cons] at hlen
    have hread := FastReader.readByte_of_rest hrest
    obtain ⟨-, hcons⟩ := FastReader.readByte_eq_some hread
    have hrest' : FastReader.rest { r with offset := r.offset + 1 } = bs := by
      rw [hrest] at hcons
      exact (List.cons.inj hcons).2.symm
    have hb : b.toNat < 256 := b.toNat_lt
    rw [readUint64CompactFrom_round hread hacc (by omega)] at h
    by_cases hstop : 128 ≤ b.toNat
    · rw [if_pos hstop] at h
      split at h
      case isTrue => cases h
      rename_i hnz
      rw [Option.some.injEq, Prod.mk.injEq] at h
      obtain ⟨rfl, rfl⟩ := h
      have hlast : compact (b.toNat - 128) = [b] := by
        rw [compact, dif_pos (by omega), Nat.sub_add_cancel hstop, UInt8.ofNat_toNat]
      refine ⟨b.toNat - 128, rfl, ?_, by rw [hlast]; rfl, by omega⟩
      rw [hlast]
      exact hcons
    · rw [if_neg hstop] at h
      obtain ⟨v, rfl, hbs, rfl, hpos⟩ := ih hrest' h (add_word_lt hacc (by omega)) (by omega)
      have hv := hpos (Nat.succ_pos i)
      have hmore : compact (b.toNat + 128 * v) = b :: compact v := by
        rw [compact, dif_neg (by omega), show (b.toNat + 128 * v) % 128 = b.toNat by omega,
          show (b.toNat + 128 * v) / 128 = v by omega, UInt8.ofNat_toNat]
      refine ⟨b.toNat + 128 * v, ?_, ?_, ?_, by omega⟩
      · rw [Nat.mul_add 7 i 1, Nat.pow_add]
        ring
      · rw [hmore, hrest, ← hrest', hbs]
        rfl
      · rw [hmore, List.length_cons, Nat.add_assoc, Nat.add_comm 1]

/-- A length ends where its flagged byte is. -/
theorem compact_append_inj {v : ℕ} :
    ∀ {w : ℕ} {a b : List UInt8}, compact v ++ a = compact w ++ b → v = w ∧ a = b := by
  induction v using Nat.strongRecOn with
  | ind v ih =>
    intro w a b h
    rw [compact, compact.eq_1 w] at h
    by_cases hv : v / 128 = 0 <;> by_cases hw : w / 128 = 0 <;>
      simp only [hv, hw, dif_pos, dif_neg, not_false_eq_true, List.cons_append,
        List.cons.injEq] at h <;> have hbyte := congrArg UInt8.toNat h.1 <;>
      rw [UInt8.toNat_ofNat', UInt8.toNat_ofNat'] at hbyte
    · exact ⟨by omega, h.2⟩
    -- one byte has the flag and the other has not
    · omega
    · omega
    · obtain ⟨hdiv, hab⟩ := ih (v / 128) (by omega) h.2
      exact ⟨by omega, hab⟩

/-! ## The container -/

/-- `tail`: the last `cap` bytes. -/
def tail (b : List UInt8) (cap : ℕ) : List UInt8 :=
  if b.length > cap then b.drop (b.length - cap) else b

/-- `binaryFromCSER` -/
def binaryFromCSER (bbits bbytes : List UInt8) : List UInt8 :=
  let bodyBytes := FastWriter.write ⟨bbytes⟩ bbits
  -- write bits size
  let sizeWriter := writeUint64Compact ⟨[]⟩ bbits.length
  (bodyBytes.write sizeWriter.buf.reverse).buf

theorem length_reverse_tail_lt (raw : Slice) (cap : ℕ) :
    (tail raw.data cap).reverse.length + ([] : List UInt8).length < 2 ^ 63 := by
  have hraw := raw.bounded
  rw [List.length_reverse, List.length_nil, tail]
  split
  · rw [List.length_drop]
    omega
  · omega

/-- `bitsSizeBuf`: the last nine bytes, last one first. -/
def bitsSizeBuf (raw : Slice) : Slice :=
  ⟨(tail raw.data 9).reverse, [], length_reverse_tail_lt raw 9⟩

/-- `binaryToCSER` -/
def binaryToCSER (raw : Slice) : Except (Fault SerError) (List UInt8 × Slice) :=
  -- read bitsArray size
  match readUint64Compact (FastReader.new (bitsSizeBuf raw)) with
  | none => .error .panic
  | some (bitsSize, bitsSizeReader) =>
    let raw' := raw.upTo (raw.data.length - bitsSizeReader.position)
    if raw'.data.length < bitsSize then .error (.error .malformedEncoding)
    else
      .ok (raw'.data.drop (raw'.data.length - bitsSize),
        raw'.upTo (raw'.data.length - bitsSize))

/-- The layout of the container. -/
def pack (bbits bbytes : List UInt8) : List UInt8 :=
  bbytes ++ bbits ++ (compact bbits.length).reverse

theorem binaryFromCSER_eq (bbits bbytes : List UInt8) :
    binaryFromCSER bbits bbytes = pack bbits bbytes := by
  simp only [binaryFromCSER, FastWriter.write, writeUint64Compact_eq, List.nil_append]
  rfl

theorem length_pack_mono {bbits₁ bbits₂ bbytes₁ bbytes₂ : List UInt8}
    (hbits : bbits₁.length ≤ bbits₂.length) (hbytes : bbytes₁.length ≤ bbytes₂.length) :
    (pack bbits₁ bbytes₁).length ≤ (pack bbits₂ bbytes₂).length := by
  simp only [pack, List.length_append, List.length_reverse]
  exact Nat.add_le_add (Nat.add_le_add hbytes hbits) (length_compact_mono hbits)

/-- The size at the end tells the two sections apart. -/
theorem pack_injective {bbits₁ bbits₂ bbytes₁ bbytes₂ : List UInt8}
    (h : pack bbits₁ bbytes₁ = pack bbits₂ bbytes₂) : bbits₁ = bbits₂ ∧ bbytes₁ = bbytes₂ := by
  have hrev := congrArg List.reverse h
  simp only [pack, List.reverse_append, List.reverse_reverse] at hrev
  obtain ⟨hlen, hbody⟩ := compact_append_inj hrev
  obtain ⟨hbits, hbytes⟩ :=
    List.append_inj hbody (by rw [List.length_reverse, List.length_reverse, hlen])
  exact ⟨List.reverse_injective hbits, List.reverse_injective hbytes⟩

theorem rest_bitsSizeBuf (raw : Slice) :
    (FastReader.new (bitsSizeBuf raw)).rest = raw.data.reverse.take 9 := by
  simp only [FastReader.rest, FastReader.new, bitsSizeBuf, List.drop_zero, tail]
  split
  · rw [List.take_reverse]
  · rw [List.take_of_length_le]
    rw [List.length_reverse]
    omega

variable {raw : Slice}

theorem data_upTo_append {body trailer : List UInt8} (hraw : raw.data = body ++ trailer) :
    (raw.upTo body.length).data = body := by
  rw [Slice.data_upTo (by rw [hraw, List.length_append]; omega), hraw, List.take_left]

/-- Once the length is known, the sections are cut off. -/
theorem binaryToCSER_of_size {body : List UInt8} {v : ℕ}
    (hraw : raw.data = body ++ (compact v).reverse) (hsize : readUint64Compact (FastReader.new
      (bitsSizeBuf raw)) = some (v, { FastReader.new (bitsSizeBuf raw) with offset := (compact
      v).length })) :
    binaryToCSER raw =
      if body.length < v then .error (.error .malformedEncoding)
      else .ok (body.drop (body.length - v), raw.upTo (body.length - v)) := by
  have hlen : raw.data.length - (compact v).length = body.length := by
    rw [hraw, List.length_append, List.length_reverse, Nat.add_sub_cancel]
  rw [binaryToCSER, hsize]
  simp only [FastReader.position, hlen, data_upTo_append hraw]
  rw [Slice.upTo_eq_of_backing (raw.backing_upTo _)]

theorem offset_new_add (s : Slice) (n : ℕ) : (FastReader.new s).offset + n = n := Nat.zero_add n

/-- What is read as the length of the bit section is the end of the byte string. -/
theorem exists_body_of_size {v : ℕ} {r : FastReader}
    (h : readUint64Compact (FastReader.new (bitsSizeBuf raw)) = some (v, r)) :
    r = { FastReader.new (bitsSizeBuf raw) with offset := (compact v).length } ∧
      ∃ body, raw.data = body ++ (compact v).reverse := by
  have hnine : 0 + (raw.data.reverse.take 9).length ≤ 9 := by
    rw [List.length_take]
    omega
  obtain ⟨v', hv, hrest, rfl, -⟩ := readUint64CompactFrom_eq_some (rest_bitsSizeBuf raw) h
    (by decide) hnine
  obtain rfl : v' = v := by simpa using hv.symm
  refine ⟨by rw [offset_new_add], ?_⟩
  rw [rest_bitsSizeBuf] at hrest
  have hsplit := List.take_append_drop 9 raw.data.reverse
  rw [hrest, List.append_assoc] at hsplit
  have hreverse := congrArg List.reverse hsplit
  rw [List.reverse_reverse, List.reverse_append] at hreverse
  exact ⟨_, hreverse.symm⟩

/-- What `binaryToCSER` accepts is packed. -/
theorem data_of_binaryToCSER {bbits : List UInt8} {bbytes : Slice}
    (h : binaryToCSER raw = .ok (bbits, bbytes)) :
    raw.data = pack bbits bbytes.data ∧ bbytes = raw.upTo bbytes.data.length := by
  rcases hsize : readUint64Compact (FastReader.new (bitsSizeBuf raw)) with _ | ⟨v, r⟩
  · rw [binaryToCSER, hsize] at h
    cases h
  obtain ⟨rfl, body, hraw⟩ := exists_body_of_size hsize
  rw [binaryToCSER_of_size hraw hsize] at h
  split at h
  case isTrue => cases h
  rename_i hle
  rw [Except.ok.injEq, Prod.mk.injEq] at h
  obtain ⟨rfl, rfl⟩ := h
  have hdata : (raw.upTo (body.length - v)).data = body.take (body.length - v) := by
    rw [Slice.data_upTo (by rw [hraw, List.length_append]; omega), hraw,
      List.take_append_of_le_length (by omega)]
  have hbits : (body.drop (body.length - v)).length = v := by
    rw [List.length_drop]
    omega
  rw [hdata, pack, List.take_append_drop, hbits, List.length_take_of_le (by omega)]
  exact ⟨hraw, rfl⟩

/-- The length of the bit section is found at the end of a packed byte string. -/
theorem size_of_pack {bbits bbytes : List UInt8} (hraw : raw.data = pack bbits bbytes) :
    readUint64Compact (FastReader.new (bitsSizeBuf raw)) =
      some (bbits.length,
        { FastReader.new (bitsSizeBuf raw) with offset := (compact bbits.length).length }) := by
  have hshort : (compact bbits.length).length ≤ 9 := by
    refine length_compact_le (n := 8) ?_
    have hbound := raw.bounded
    rw [hraw, pack, List.length_append, List.length_append] at hbound
    omega
  have hrest : (FastReader.new (bitsSizeBuf raw)).rest = compact bbits.length ++
      ((bbytes ++ bbits).reverse).take (9 - (compact bbits.length).length) := by
    rw [rest_bitsSizeBuf, hraw, pack, List.reverse_append, List.reverse_reverse,
      List.take_append, List.take_of_length_le hshort]
  have hsize : readUint64CompactFrom (FastReader.new (bitsSizeBuf raw)) 0 0 = _ :=
    readUint64CompactFrom_compact hrest (by decide) (by omega)
      fun h => absurd h (Nat.lt_irrefl 0)
  simp only [Nat.mul_zero, Nat.pow_zero, Nat.one_mul, Nat.zero_add] at hsize
  rw [offset_new_add] at hsize
  exact hsize

/-- **The container has one form**: `binaryToCSER` accepts exactly the packed
byte strings and returns their sections. -/
theorem binaryToCSER_eq_ok {bbits : List UInt8} {bbytes : Slice} :
    binaryToCSER raw = .ok (bbits, bbytes) ↔
      raw.data = pack bbits bbytes.data ∧ bbytes = raw.upTo bbytes.data.length := by
  refine ⟨data_of_binaryToCSER, fun ⟨hraw, hbytes⟩ => ?_⟩
  rw [binaryToCSER_of_size hraw (size_of_pack hraw), List.length_append, if_neg (by omega),
    Nat.add_sub_cancel, List.drop_left, ← hbytes]

/-- **`binaryFromCSER` and `binaryToCSER` are inverse to each other**: the second succeeds on what
the first returns and nothing else, with the sections that were packed. -/
theorem binaryToCSER_inverse (raw : Slice) (bbits bbytes : List UInt8) :
    binaryFromCSER bbits bbytes = raw.data ↔
      ∃ s, binaryToCSER raw = .ok (bbits, s) ∧ s.data = bbytes := by
  rw [binaryFromCSER_eq]
  constructor
  · intro hpack
    have hbytes : (raw.upTo bbytes.length).data = bbytes := by
      have hsplit : raw.data = bbytes ++ (bbits ++ (compact bbits.length).reverse) := by
        rw [← hpack, pack, List.append_assoc]
      exact data_upTo_append hsplit
    refine ⟨raw.upTo bbytes.length, binaryToCSER_eq_ok.mpr ?_, hbytes⟩
    rw [hbytes]
    exact ⟨hpack.symm, rfl⟩
  · rintro ⟨s, hok, rfl⟩
    exact (data_of_binaryToCSER hok).1.symm

/-- Two bytes and a byte of bits. -/
theorem binaryToCSER_inverse_packed :
    ∃ s, binaryToCSER ⟨[7, 8, 5, 129], [], by decide⟩ = .ok ([5], s) ∧ s.data = [7, 8] := by
  refine (binaryToCSER_inverse _ [5] [7, 8]).mp ?_
  rw [binaryFromCSER_eq, pack, compact]
  rfl

/-! ## The adapters -/

/-- `MarshalBinaryAdapter` -/
def marshalBinaryAdapter (marshalCser : Encode Unit) : Except (Fault SerError) (List UInt8) :=
  match Encoder.run marshalCser Writer.new with
  | .error f => .error f
  | .ok (_, w) => .ok (binaryFromCSER w.bitsW.bytes w.bytesW.buf)

/-- A recovered panic becomes `ErrMalformedEncoding`. -/
def Fault.recover : Fault SerError → SerError
  | .panic => .malformedEncoding
  | .error e => e

/-- The end of `UnmarshalBinaryAdapter`: check that everything is read. -/
def checkAllRead (made : MissingCheck → Bool) (r : Reader) : Except SerError Unit :=
  if r.bitsR.nonReadBytes > 1 then .error .nonCanonicalEncoding
  else if made .bitPadding && 8 ≤ r.bitsR.nonReadBits then .error .nonCanonicalEncoding
  else
    match r.bitsR.read r.bitsR.nonReadBits with
    | none => .error .malformedEncoding
    | some (tail, _) =>
      if tail ≠ 0 then .error .nonCanonicalEncoding
      else if !r.bytesR.empty then .error .nonCanonicalEncoding
      else .ok ()

/-- `UnmarshalBinaryAdapter`, with the marked checks in `made`; the code's own
adapter makes none of them. -/
def unmarshalBinaryAdapter {α : Type} (made : MissingCheck → Bool) (raw : Slice)
    (unmarshalCser : Decode α) : Except SerError α :=
  match binaryToCSER raw with
  | .error f => .error f.recover
  | .ok (bbits, bbytes) =>
    match Decoder.run made unmarshalCser ⟨BitsReader.new bbits, FastReader.new bbytes⟩ with
    | .error f => .error f.recover
    | .ok (a, bodyReader) =>
      match checkAllRead made bodyReader with
      | .error e => .error e
      | .ok () => .ok a

section Adapters

variable {α : Type} {made : MissingCheck → Bool} {d : Decode α} {m : Encode Unit} {raw : Slice}

/-- Everything is read when only zero padding is left. -/
theorem checkAllRead_eq_ok {r : Reader} :
    checkAllRead made r = .ok () ↔
      r.bytesR.InBounds ∧ ∃ pad ≤ 8, (made .bitPadding = true → pad < 8) ∧
        r.streams = ⟨List.replicate pad false, []⟩ := by
  have hbytes := r.bitsR.nonReadBytes_le_one
  have hread := r.bitsR.read_eq (n := r.bitsR.nonReadBits)
  have hempty := r.bytesR.empty_iff
  rw [r.bitsR.nonReadBits_eq] at hread
  rw [if_pos (Nat.le_refl _), List.take_length] at hread
  rw [checkAllRead, r.bitsR.nonReadBits_eq, hread]
  constructor
  · intro h
    split at h
    case isTrue => cases h
    rename_i hone
    have hshort := hbytes.mp (by omega)
    split at h
    case isTrue => cases h
    rename_i hpad
    simp only at h
    split at h
    case isTrue => cases h
    rename_i htail
    split at h
    case isTrue => cases h
    rename_i hnonempty
    -- the word read is the number spelled by the last bits
    have hword : toNat r.bitsR.rest < 2 ^ 64 :=
      Nat.lt_of_lt_of_le (toNat_lt _) (Nat.pow_le_pow_right (by decide) (by omega))
    rw [not_not, Nat.mod_eq_of_lt hword] at htail
    obtain ⟨hin, hnil⟩ := hempty.mp (by simpa using hnonempty)
    refine ⟨hin, r.bitsR.rest.length, hshort, ?_, Streams.ext' (toNat_eq_zero htail) hnil⟩
    intro hmade
    simpa [hmade] using hpad
  · rintro ⟨hin, pad, hpad, hlt, hstreams⟩
    have hbits : r.bitsR.rest = List.replicate pad false := congrArg Streams.bits hstreams
    have hnil : r.bytesR.rest = [] := congrArg Streams.bytes hstreams
    have hlen : r.bitsR.rest.length = pad := by rw [hbits, List.length_replicate]
    have hone := hbytes.mpr (by omega)
    rw [if_neg (by omega), if_neg]
    · simp [hbits, hempty.mpr ⟨hin, hnil⟩]
    · rw [Bool.and_eq_true, decide_eq_true_eq, hlen]
      rintro ⟨hmade, hge⟩
      exact absurd (hlt hmade) (by omega)

/-- **What is unmarshalled** is what the decoder reads from the two sections,
all of them up to the padding. -/
theorem unmarshalBinaryAdapter_eq_ok {a : α} :
    unmarshalBinaryAdapter made raw d = .ok a ↔
      ∃ bbits bbytes pad, raw.data = pack bbits bbytes ∧ pad ≤ 8 ∧
        (made .bitPadding = true → pad < 8) ∧
        d.parse made ⟨unpack bbits, bbytes⟩ = some (a, ⟨List.replicate pad false, []⟩) := by
  constructor
  · intro h
    rw [unmarshalBinaryAdapter] at h
    rcases hcser : binaryToCSER raw with f | ⟨bbits, bbytes⟩
    · rw [hcser] at h; cases h
    rw [hcser] at h
    simp only at h
    rcases hrun : Decoder.run made d ⟨BitsReader.new bbits, FastReader.new bbytes⟩ with f | ⟨b, r⟩
    · rw [hrun] at h; cases h
    rw [hrun] at h
    simp only at h
    rcases hall : checkAllRead made r with e | ⟨⟨⟩⟩
    · rw [hall] at h; cases h
    rw [hall, Except.ok.injEq] at h
    subst h
    obtain ⟨hin, pad, hpad, hlt, hstreams⟩ := checkAllRead_eq_ok.mp hall
    have hparse := Decoder.run_sound hrun hin
    rw [hstreams] at hparse
    exact ⟨bbits, bbytes.data, pad, (binaryToCSER_eq_ok.mp hcser).1, hpad, hlt, hparse⟩
  · rintro ⟨bbits, bbytes, pad, hraw, hpad, hlt, hparse⟩
    have hdata : (raw.upTo bbytes.length).data = bbytes := by
      rw [pack, List.append_assoc] at hraw
      exact data_upTo_append hraw
    have hcser : binaryToCSER raw = .ok (bbits, raw.upTo bbytes.length) := by
      rw [binaryToCSER_eq_ok, hdata]
      exact ⟨hraw, rfl⟩
    have hstart : Reader.streams ⟨BitsReader.new bbits, FastReader.new (raw.upTo bbytes.length)⟩ =
        ⟨unpack bbits, bbytes⟩ := Streams.ext' (BitsReader.rest_new bbits) hdata
    rw [← hstart] at hparse
    obtain ⟨r, hrun, hstreams, hin⟩ := Decoder.run_complete hparse (Nat.zero_le _)
    have hall := checkAllRead_eq_ok.mpr ⟨hin, pad, hpad, hlt, hstreams⟩
    rw [unmarshalBinaryAdapter, hcser]
    simp only [hrun, hall]

/-- **What is marshalled** is what the encoder emits, the bits padded to a byte. -/
theorem marshalBinaryAdapter_eq_ok (hm : m.Sized) {raw : List UInt8} :
    marshalBinaryAdapter m = .ok raw ↔
      ∃ out bbits pad, m.emit = some ((), out) ∧ pad < 8 ∧
        unpack bbits = out.bits ++ List.replicate pad false ∧ raw = pack bbits out.bytes := by
  rcases Encoder.run_emit hm Writer.holds_new with ⟨hnone, f, hrun⟩ | ⟨⟨⟩, out, w, hemit, hrun, hw⟩
  · rw [marshalBinaryAdapter, hrun, hnone]
    simp
  · rw [marshalBinaryAdapter, hrun]
    simp only [Except.ok.injEq, binaryFromCSER_eq, hemit, Option.some.injEq, Prod.mk.injEq,
      true_and]
    obtain ⟨⟨pad, hpad, hbits, -⟩, hbytes⟩ := hw
    rw [Streams.empty_append] at hbits hbytes
    constructor
    · rintro rfl
      exact ⟨out, w.bitsW.bytes, pad, rfl, hpad, hbits, by rw [hbytes]⟩
    · rintro ⟨out', bbits, pad', rfl, hpad', hbits', rfl⟩
      -- the padding fills the last byte, so there is one way only
      have hlen := congrArg List.length hbits
      have hlen' := congrArg List.length hbits'
      rw [length_unpack, List.length_append, List.length_replicate] at hlen hlen'
      obtain rfl : pad = pad' := by omega
      rw [unpack_injective (hbits'.trans hbits.symm), hbytes]

theorem marshalBinaryAdapter_ok_of_emit (hm : m.Sized) {out : Streams}
    (hemit : m.emit = some ((), out)) : ∃ raw, marshalBinaryAdapter m = .ok raw := by
  rcases Encoder.run_emit hm Writer.holds_new with ⟨hnone, -⟩ | ⟨⟨⟩, out, w, -, hrun, -⟩
  · rw [hemit] at hnone
    cases hnone
  · exact ⟨_, by rw [marshalBinaryAdapter, hrun]⟩

theorem marshalBinaryAdapter_ne_panic (hm : m.NoPanic) :
    marshalBinaryAdapter m ≠ .error .panic := by
  intro h
  have hrun := Encoder.run_ne_panic hm (w := Writer.new)
  rw [marshalBinaryAdapter] at h
  split at h
  · rename_i f hf
    cases h
    exact hrun hf
  · cases h

/-- The length of a serialization. -/
theorem length_marshalBinaryAdapter (hm : m.Sized) {k : ℕ} (hk : m.EmitsWithin k)
    (hbound : k < 2 ^ 62) :
    ∃ raw, marshalBinaryAdapter m = .ok raw ∧ raw.length ≤ 2 * k + 10 := by
  obtain ⟨out, hemit, hbits, hbytes⟩ := hk
  obtain ⟨raw, hraw⟩ := marshalBinaryAdapter_ok_of_emit hm hemit
  refine ⟨raw, hraw, ?_⟩
  obtain ⟨out', bbits, pad, hemit', hpad, hunpack, rfl⟩ := (marshalBinaryAdapter_eq_ok hm).mp hraw
  rw [hemit, Option.some.injEq, Prod.mk.injEq] at hemit'
  obtain ⟨-, rfl⟩ := hemit'
  have hlen := congrArg List.length hunpack
  rw [length_unpack, List.length_append, List.length_replicate] at hlen
  have hcompact : (compact bbits.length).length ≤ 9 := length_compact_le (n := 8) (by omega)
  rw [pack, List.length_append, List.length_append, List.length_reverse]
  omega

/-- Making fewer checks accepts no less, with the same result. -/
theorem unmarshalBinaryAdapter_mono {made' : MissingCheck → Bool} {a : α}
    (hle : ∀ c, made' c = true → made c = true) (h : unmarshalBinaryAdapter made raw d = .ok a) :
    unmarshalBinaryAdapter made' raw d = .ok a := by
  obtain ⟨bbits, bbytes, pad, hraw, hpad, hlt, hparse⟩ := unmarshalBinaryAdapter_eq_ok.mp h
  refine unmarshalBinaryAdapter_eq_ok.mpr ⟨bbits, bbytes, pad, hraw, hpad, ?_, ?_⟩
  · exact fun hmade => hlt (hle _ hmade)
  · exact Decoder.parse_mono hle hparse

/-- **Round trip of byte strings.** Whatever was marshalled is unmarshalled,
with every check made. -/
theorem unmarshal_of_marshal {a : α} (hm : m.Sized) (hreads : Reads m d a)
    (h : marshalBinaryAdapter m = .ok raw.data) :
    unmarshalBinaryAdapter Decoder.strict raw d = .ok a := by
  obtain ⟨out, bbits, pad, hemit, hpad, hbits, hraw⟩ := (marshalBinaryAdapter_eq_ok hm).mp h
  refine unmarshalBinaryAdapter_eq_ok.mpr
    ⟨bbits, out.bytes, pad, hraw, Nat.le_of_lt hpad, fun _ => hpad, ?_⟩
  have hstart : (⟨unpack bbits, out.bytes⟩ : Streams) = out ++ ⟨List.replicate pad false, []⟩ :=
    Streams.ext' hbits (List.append_nil _).symm
  rw [hstart]
  exact hreads out hemit _

/-- What is marshalled to the same bytes is the same. -/
theorem eq_of_marshal {m₁ m₂ : Encode Unit} {a₁ a₂ : α} {raw : List UInt8} (hm₁ : m₁.Sized)
    (hm₂ : m₂.Sized) (hreads₁ : Reads m₁ d a₁) (hreads₂ : Reads m₂ d a₂)
    (h₁ : marshalBinaryAdapter m₁ = .ok raw) (h₂ : marshalBinaryAdapter m₂ = .ok raw) :
    a₁ = a₂ := by
  obtain ⟨out₁, bbits₁, pad₁, hemit₁, -, hbits₁, hraw₁⟩ := (marshalBinaryAdapter_eq_ok hm₁).mp h₁
  obtain ⟨out₂, bbits₂, pad₂, hemit₂, -, hbits₂, hraw₂⟩ := (marshalBinaryAdapter_eq_ok hm₂).mp h₂
  obtain ⟨hbits, hbytes⟩ := pack_injective (hraw₁.symm.trans hraw₂)
  have hstreams : out₁ ++ ⟨List.replicate pad₁ false, []⟩ =
      out₂ ++ ⟨List.replicate pad₂ false, []⟩ := by
    refine Streams.ext' ?_ ?_
    · exact hbits₁.symm.trans (by rw [hbits]; exact hbits₂)
    · simpa using hbytes
  have hread₁ := hreads₁ out₁ hemit₁ ⟨List.replicate pad₁ false, []⟩
  have hread₂ := hreads₂ out₂ hemit₂ ⟨List.replicate pad₂ false, []⟩
  rw [hstreams, hread₂, Option.some.injEq, Prod.mk.injEq] at hread₁
  exact hread₁.1.symm

/-- **Marshalling anew does not grow.** Whatever is unmarshalled is not marshalled
to more bytes. -/
theorem length_marshal_le {w : α → Encode Unit} {a : α} {raw' : List UInt8} (hw : (w a).Sized)
    (hshrinks : Shrinks d w) (h : unmarshalBinaryAdapter made raw d = .ok a)
    (h' : marshalBinaryAdapter (w a) = .ok raw') :
    raw'.length ≤ raw.data.length := by
  obtain ⟨bbits, bbytes, pad, hraw, -, -, hparse⟩ := unmarshalBinaryAdapter_eq_ok.mp h
  obtain ⟨out, bbits', pad', hemit, hpad', hbits', rfl⟩ := (marshalBinaryAdapter_eq_ok hw).mp h'
  obtain ⟨hbits, hbytes⟩ := hshrinks _ _ _ _ hparse out hemit
  rw [Streams.bytes_append, List.append_nil] at hbytes
  rw [Streams.bits_append, List.length_append, length_unpack] at hbits
  -- both bit sections are filled up to whole bytes
  have hlen := congrArg List.length hbits'
  rw [length_unpack, List.length_append, List.length_replicate] at hlen
  rw [hraw]
  exact length_pack_mono (by omega) hbytes

/-- **Canonical byte strings.** Whatever is unmarshalled with every check made
is what is marshalled. -/
theorem marshal_of_unmarshal {w : α → Encode Unit} {a : α} (hw : (w a).Sized)
    (hinv : Inverts d w Any) (h : unmarshalBinaryAdapter Decoder.strict raw d = .ok a) :
    marshalBinaryAdapter (w a) = .ok raw.data := by
  obtain ⟨bbits, bbytes, pad, hraw, -, hlt, hparse⟩ := unmarshalBinaryAdapter_eq_ok.mp h
  obtain ⟨out, hemit, hsplit⟩ := hinv _ _ _ hparse trivial
  have hbits : unpack bbits = out.bits ++ List.replicate pad false := congrArg Streams.bits hsplit
  have hbytes : bbytes = out.bytes ++ [] := congrArg Streams.bytes hsplit
  rw [List.append_nil] at hbytes
  exact (marshalBinaryAdapter_eq_ok hw).mpr
    ⟨out, bbits, pad, hemit, hlt rfl, hbits, by rw [hraw, hbytes]⟩

end Adapters

end Zilionixx
