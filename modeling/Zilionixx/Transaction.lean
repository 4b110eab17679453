import Zilionixx.Cser

/-!
# `inter`: transactions and their serializer

`transaction_serializer.go`. A transaction of go-ethereum is its common fields
and, for the typed kinds, a few more; a serialized one starts with a marker of
six zero bits and its type unless it is a legacy transaction. There is no bit
that says so: a legacy transaction is recognised by the fact that its first six
bits, the sizes of its nonce and of its gas limit, are **not** all zero. This is
why the writer refuses a legacy gas limit that fits one byte.

Main result: `lawful_transaction`. The reader returns the transactions in
`Transaction.Encodable`; of these the writer refuses the legacy ones that are
not in `Transaction.Writable`.
-/

namespace Zilionixx

open Codec ByteNumber

/-- A 32-byte hash. -/
abbrev Hash := List.Vector UInt8 32

/-- `common.Address` -/
abbrev Address := List.Vector UInt8 20

/-- `types.AccessTuple` -/
structure AccessTuple where
  /-- the account -/
  address : Address
  /-- its storage slots -/
  storageKeys : List Hash
  deriving DecidableEq

/-- The fields every kind of transaction has. -/
structure TxCommon where
  /-- `Nonce` -/
  nonce : UInt64
  /-- `Gas` -/
  gas : UInt64
  /-- `GasPrice` -/
  gasPrice : ℤ
  /-- `Value` -/
  value : ℤ
  /-- `To`; `none` is a contract creation -/
  toAddress : Option Address
  /-- `Data` -/
  data : List UInt8
  /-- signature value `V` -/
  v : ℤ
  /-- signature value `R` -/
  r : ℤ
  /-- signature value `S` -/
  s : ℤ
  deriving DecidableEq

/-- The kind of a transaction, with the fields only this kind has. -/
inductive TxKind where
  /-- `types.LegacyTx` -/
  | legacy
  /-- `types.AccessListTx` -/
  | accessList (chainID : ℤ) (list : List AccessTuple)
  /-- a type the serializer does not know -/
  | other (txType : { t : UInt8 // t ≠ 0 ∧ t ≠ 1 })
  deriving DecidableEq

/-- `types.Transaction` -/
structure Transaction extends TxCommon where
  /-- the inner data beyond the common fields -/
  kind : TxKind
  deriving DecidableEq

/-- `types.LegacyTxType` -/
def legacyTxType : UInt8 := 0

/-- `types.AccessListTxType` -/
def accessListTxType : UInt8 := 1

/-- `tx.Type()` -/
def Transaction.type (tx : Transaction) : UInt8 :=
  match tx.kind with
  | .legacy => legacyTxType
  | .accessList _ _ => accessListTxType
  | .other t => t.val

/-- The chain of an access-list transaction. -/
def TxKind.chainID : TxKind → ℤ
  | .accessList chainID _ => chainID
  | _ => 0

/-- `tx.AccessList()`, `nil` except for an access-list transaction. -/
def TxKind.tuples : TxKind → List AccessTuple
  | .accessList _ list => list
  | _ => []

/-! ## Signatures -/

/-- `cser.PaddedBytes` -/
def paddedBytes (b : List UInt8) (n : ℕ) : List UInt8 :=
  if b.length ≥ n then b else List.replicate (n - b.length) 0 ++ b

theorem le_length_paddedBytes (b : List UInt8) (n : ℕ) : n ≤ (paddedBytes b n).length := by
  rw [paddedBytes]
  split
  · assumption
  · rw [List.length_append, List.length_replicate]
    omega

/-- `encodeSig`: 32 bytes each, the first ones if there are more. -/
def encodeSig (r s : ℤ) : List.Vector UInt8 64 :=
  ⟨(paddedBytes (toBE r.natAbs) 32).take 32 ++ (paddedBytes (toBE s.natAbs) 32).take 32, by
    have hr := le_length_paddedBytes (toBE r.natAbs) 32
    have hs := le_length_paddedBytes (toBE s.natAbs) 32
    rw [List.length_append, List.length_take_of_le hr, List.length_take_of_le hs]⟩

/-- `decodeSig` -/
def decodeSig (sig : List.Vector UInt8 64) : ℤ × ℤ :=
  (ofBE (sig.toList.take 32), ofBE (sig.toList.drop 32))

/-- A signature value that fits 32 bytes. -/
def SigValueOk (v : ℤ) : Prop := 0 ≤ v ∧ v < 2 ^ 256

/-- A value of 32 bytes is padded in front. -/
theorem take_paddedBytes {v : ℤ} (h : SigValueOk v) :
    (paddedBytes (toBE v.natAbs) 32).take 32 =
      List.replicate (32 - (toBE v.natAbs).length) 0 ++ toBE v.natAbs := by
  have hlen : (toBE v.natAbs).length ≤ 32 := by
    rw [length_toBE]
    apply length_toLE_le
    have hlt : v.natAbs < 2 ^ 256 := by
      have := h.1
      have := h.2
      omega
    calc v.natAbs < 2 ^ 256 := hlt
      _ = 256 ^ 32 := by norm_num
  rw [paddedBytes]
  split
  · rename_i hge
    rw [List.take_of_length_le hlen, show 32 - (toBE v.natAbs).length = 0 by omega]
    rfl
  · rw [List.take_of_length_le]
    rw [List.length_append, List.length_replicate]
    omega

theorem ofBE_take_paddedBytes {v : ℤ} (h : SigValueOk v) :
    (ofBE ((paddedBytes (toBE v.natAbs) 32).take 32) : ℤ) = v := by
  rw [take_paddedBytes h, ofBE_replicate_zero_append, ofBE_toBE, Int.natAbs_of_nonneg h.1]

/-- A signature is read back. -/
theorem decodeSig_encodeSig {r s : ℤ} (hr : SigValueOk r) (hs : SigValueOk s) :
    decodeSig (encodeSig r s) = (r, s) := by
  have hlen : ((paddedBytes (toBE r.natAbs) 32).take 32).length = 32 :=
    List.length_take_of_le (le_length_paddedBytes _ _)
  have hlist : (encodeSig r s).toList =
      (paddedBytes (toBE r.natAbs) 32).take 32 ++ (paddedBytes (toBE s.natAbs) 32).take 32 := rfl
  rw [decodeSig, hlist, List.take_left' hlen, List.drop_left' hlen, ofBE_take_paddedBytes hr,
    ofBE_take_paddedBytes hs]

theorem sigValueOk_ofBE {bs : List UInt8} (h : bs.length = 32) : SigValueOk (ofBE bs) := by
  have hlt := ofBE_lt bs
  have hpow : (256 : ℕ) ^ 32 = 2 ^ 256 := by norm_num
  rw [h, hpow] at hlt
  exact ⟨Int.natCast_nonneg _, by exact_mod_cast hlt⟩

/-- A string of 32 bytes is the padded form of its number. -/
theorem take_paddedBytes_ofBE {bs : List UInt8} (h : bs.length = 32) :
    (paddedBytes (toBE (ofBE bs : ℤ).natAbs) 32).take 32 = bs := by
  rw [take_paddedBytes (sigValueOk_ofBE h), Int.natAbs_natCast, ← h]
  exact replicate_append_toBE_ofBE bs

/-- Every signature is written as it is read. -/
theorem encodeSig_decodeSig (sig : List.Vector UInt8 64) :
    encodeSig (decodeSig sig).1 (decodeSig sig).2 = sig := by
  have hlen := sig.toList_length
  apply List.Vector.eq
  have hr : (sig.toList.take 32).length = 32 := by rw [List.length_take, hlen]; rfl
  have hs : (sig.toList.drop 32).length = 32 := by rw [List.length_drop, hlen]
  calc (encodeSig (decodeSig sig).1 (decodeSig sig).2).toList
      = sig.toList.take 32 ++ sig.toList.drop 32 :=
        congrArg₂ (· ++ ·) (take_paddedBytes_ofBE hr) (take_paddedBytes_ofBE hs)
    _ = sig.toList := List.take_append_drop 32 _

/-! ## The serializer -/

/-- The part of `TransactionMarshalCSER` that writes the common fields. -/
def TxCommon.marshalCSER (tx : TxCommon) : Encode Unit := do
  Writer.u64 tx.nonce
  Writer.u64 tx.gas
  Writer.bigInt tx.gasPrice
  Writer.bigInt tx.value
  Writer.optional tx.toAddress
  Writer.sliceBytes tx.data
  Writer.bigInt tx.v
  Writer.fixedBytes (encodeSig tx.r tx.s)

/-- The part of `TransactionUnmarshalCSER` that reads the common fields. -/
def TxCommon.unmarshalCSER : Decode TxCommon := do
  let nonce ← Reader.u64
  let gasLimit ← Reader.u64
  let gasPrice ← Reader.bigInt
  let amount ← Reader.bigInt
  let to' ← Reader.optional 20
  let data ← Reader.sliceBytes
  let v ← Reader.bigInt
  let sig ← Reader.fixedBytes 64
  pure ⟨nonce, gasLimit, gasPrice, amount, to', data, v, (decodeSig sig).1, (decodeSig sig).2⟩

/-- One tuple of an access list. -/
def AccessTuple.marshalCSER (tuple : AccessTuple) : Encode Unit := do
  Writer.fixedBytes tuple.address
  Writer.u32 (UInt32.ofNat tuple.storageKeys.length)
  Encoder.forEach Writer.fixedBytes tuple.storageKeys

/-- One tuple of an access list. -/
def AccessTuple.unmarshalCSER : Decode AccessTuple := do
  let address ← Reader.fixedBytes 20
  let keysLen ← Reader.u32
  let storageKeys ← Decoder.times (Reader.fixedBytes 32) keysLen.toNat
  pure ⟨address, storageKeys⟩

/-- The start of `TransactionMarshalCSER`: the marker and the type of a
non-standard transaction. -/
def Transaction.marshalType (tx : Transaction) : Encode Unit :=
  if tx.type ≠ legacyTxType then do
    -- marker of a non-standard tx
    Encoder.bits 6 0
    Writer.u8 tx.type
  else if tx.gas ≤ 0xff then Encoder.fail .legacyGasTooLow
  else pure ()

/-- The end of `TransactionMarshalCSER`: the fields of the kind. -/
def TxKind.marshalCSER : TxKind → Encode Unit
  | .legacy => pure ()
  | .accessList chainID list => do
    Writer.bigInt chainID
    Writer.u32 (UInt32.ofNat list.length)
    Encoder.forEach AccessTuple.marshalCSER list
  | .other _ => Encoder.fail .unknownTxType

/-- `TransactionMarshalCSER` -/
def transactionMarshalCSER (tx : Transaction) : Encode Unit := do
  tx.marshalType
  tx.toTxCommon.marshalCSER
  tx.kind.marshalCSER

/-- The start of `TransactionUnmarshalCSER`: six zero bits announce a type. -/
def unmarshalType : Decode UInt8 := do
  let marker ← Decoder.view 6
  if marker = 0 then do
    let _ ← Decoder.bits 6
    let txType ← Reader.u8
    Decoder.unchecked .txTypeMarker (txType != legacyTxType)
    pure txType
  else pure legacyTxType

/-- The access list of `TransactionUnmarshalCSER`. -/
def unmarshalAccessList : Decode TxKind := do
  let chainID ← Reader.bigInt
  let accessListLen ← Reader.u32
  let accessList ← Decoder.times AccessTuple.unmarshalCSER accessListLen.toNat
  pure (.accessList chainID accessList)

/-- `TransactionUnmarshalCSER` -/
def transactionUnmarshalCSER : Decode Transaction := do
  let txType ← unmarshalType
  let common ← TxCommon.unmarshalCSER
  if txType = legacyTxType then do
    Decoder.unchecked .legacyGas (common.gas > 0xff)
    pure ⟨common, .legacy⟩
  else if txType = accessListTxType then do
    let kind ← unmarshalAccessList
    pure ⟨common, kind⟩
  else Decoder.fail .unknownTxType

/-! ## What can be written -/

/-- The common fields that can be written and read back. -/
structure TxCommon.Encodable (tx : TxCommon) : Prop where
  gasPrice : BigIntOk tx.gasPrice
  value : BigIntOk tx.value
  data : tx.data.length < 2 ^ 56
  v : BigIntOk tx.v
  r : SigValueOk tx.r
  s : SigValueOk tx.s

/-- Tuples whose number of keys fits 32 bits. -/
def AccessTuple.Encodable (tuple : AccessTuple) : Prop := tuple.storageKeys.length < 2 ^ 32

/-- The kinds that can be written and read back. -/
def TxKind.Encodable : TxKind → Prop
  | .legacy => True
  | .accessList chainID list =>
    BigIntOk chainID ∧ list.length < 2 ^ 32 ∧ ∀ tuple ∈ list, tuple.Encodable
  | .other _ => False

/-- The transactions that fit the format: known kinds, and sizes that fit their
fields. -/
structure Transaction.Encodable (tx : Transaction) : Prop where
  common : tx.toTxCommon.Encodable
  kind : tx.kind.Encodable

/-- The writer refuses a legacy transaction whose gas limit fits one byte. -/
def Transaction.Writable (tx : Transaction) : Prop := tx.kind = .legacy → 0xff < tx.gas

/-! ## Laws -/

theorem sigValueOk_decodeSig (sig : List.Vector UInt8 64) :
    SigValueOk (decodeSig sig).1 ∧ SigValueOk (decodeSig sig).2 := by
  have hlen := sig.toList_length
  refine ⟨sigValueOk_ofBE ?_, sigValueOk_ofBE ?_⟩
  · rw [List.length_take, hlen]
    rfl
  · rw [List.length_drop, hlen]

/-- The fields that all kinds have. -/
theorem lawful_txCommon :
    Lawful TxCommon.unmarshalCSER TxCommon.marshalCSER TxCommon.Encodable Any := by
  unfold TxCommon.unmarshalCSER TxCommon.marshalCSER
  refine lawful_u64.bind TxCommon.nonce (fun _ _ => trivial) (fun _ _ _ => trivial) fun nonce _ =>
    ?_
  refine lawful_u64.bind TxCommon.gas (fun _ _ => trivial) (fun _ _ _ => trivial) fun gas _ => ?_
  refine lawful_bigInt.bind TxCommon.gasPrice (fun tx h => h.1.1.gasPrice) (fun _ _ _ => trivial)
    fun gasPrice hprice => ?_
  refine lawful_bigInt.bind TxCommon.value (fun tx h => h.1.1.1.value) (fun _ _ _ => trivial)
    fun value hvalue => ?_
  refine (lawful_optional 20).bind TxCommon.toAddress (fun _ _ => trivial) (fun _ _ _ => trivial)
    fun to' _ => ?_
  refine lawful_sliceBytes.bind TxCommon.data (fun tx h => h.1.1.1.1.1.data) (fun _ _ _ => trivial)
    fun data hdata => ?_
  refine lawful_bigInt.bind TxCommon.v (fun tx h => h.1.1.1.1.1.1.v) (fun _ _ _ => trivial)
    fun v hv => ?_
  refine (lawful_fixedBytes 64).map
    (fun sig => TxCommon.mk nonce gas gasPrice value to' data v (decodeSig sig).1 (decodeSig sig).2)
    (fun tx => encodeSig tx.r tx.s) (fun _ _ => trivial) ?_ ?_
  · rintro tx ⟨⟨⟨⟨⟨⟨⟨hok, rfl⟩, rfl⟩, rfl⟩, rfl⟩, rfl⟩, rfl⟩, rfl⟩
    refine ⟨trivial, ?_⟩
    rw [decodeSig_encodeSig hok.r hok.s]
  · intro sig _
    obtain ⟨hr, hs⟩ := sigValueOk_decodeSig sig
    exact ⟨⟨⟨⟨⟨⟨⟨⟨⟨hprice, hvalue, hdata, hv, hr, hs⟩, rfl⟩, rfl⟩, rfl⟩, rfl⟩, rfl⟩, rfl⟩, rfl⟩,
      encodeSig_decodeSig sig⟩

/-- A list with its length in front. -/
theorem lawful_accessTuple :
    Lawful AccessTuple.unmarshalCSER AccessTuple.marshalCSER AccessTuple.Encodable Any := by
  unfold AccessTuple.unmarshalCSER AccessTuple.marshalCSER
  refine (lawful_fixedBytes 20).bind AccessTuple.address (fun _ _ => trivial)
    (fun _ _ _ => trivial) fun address _ => ?_
  refine lawful_u32.bind (fun tuple : AccessTuple => UInt32.ofNat tuple.storageKeys.length)
    (fun _ _ => trivial) (fun _ _ _ => trivial) fun keysLen _ => ?_
  refine ((lawful_fixedBytes 32).list keysLen.toNat).map (fun keys => ⟨address, keys⟩)
    AccessTuple.storageKeys (fun _ _ _ _ => trivial) ?_ ?_
  · rintro tuple ⟨⟨hok, rfl⟩, rfl⟩
    exact ⟨⟨(UInt32.toNat_ofNat_of_lt' hok).symm, fun _ _ => trivial⟩, rfl⟩
  · rintro keys ⟨hlen, -⟩
    refine ⟨⟨⟨?_, rfl⟩, ?_⟩, rfl⟩
    · rw [AccessTuple.Encodable, hlen]
      exact keysLen.toNat_lt
    · rw [hlen, UInt32.ofNat_toNat]

/-- Those of the typed kind. -/
theorem lawful_accessList :
    Lawful unmarshalAccessList TxKind.marshalCSER
      (fun kind => kind.Encodable ∧ kind ≠ .legacy) Any := by
  have hfields : Lawful unmarshalAccessList (fun kind : TxKind => do
      Writer.bigInt kind.chainID
      Writer.u32 (UInt32.ofNat kind.tuples.length)
      Encoder.forEach AccessTuple.marshalCSER kind.tuples)
      (fun kind => kind.Encodable ∧ kind ≠ .legacy) Any := by
    unfold unmarshalAccessList
    refine lawful_bigInt.bind TxKind.chainID ?_ (fun _ _ _ => trivial) fun chainID hchain => ?_
    · rintro (_ | ⟨c, l⟩ | t) ⟨hok, hne⟩
      · exact absurd rfl hne
      · exact hok.1
      · exact hok.elim
    refine lawful_u32.bind (fun kind : TxKind => UInt32.ofNat kind.tuples.length)
      (fun _ _ => trivial) (fun _ _ _ => trivial) fun len _ => ?_
    refine (lawful_accessTuple.list len.toNat).map (fun list => TxKind.accessList chainID list)
      TxKind.tuples (fun _ _ _ _ => trivial) ?_ ?_
    · rintro (_ | ⟨c, l⟩ | t) ⟨⟨⟨hok, hne⟩, rfl⟩, rfl⟩
      · exact absurd rfl hne
      · exact ⟨⟨(UInt32.toNat_ofNat_of_lt' hok.2.1).symm, hok.2.2⟩, rfl⟩
      · exact hok.elim
    · rintro list ⟨hlen, hall⟩
      refine ⟨⟨⟨⟨⟨hchain, ?_, hall⟩, by simp⟩, rfl⟩, ?_⟩, rfl⟩
      · rw [hlen]
        exact len.toNat_lt
      · rw [TxKind.tuples, hlen, UInt32.ofNat_toNat]
  refine hfields.congr ?_
  rintro (_ | ⟨c, l⟩ | t) ⟨hok, hne⟩
  · exact absurd rfl hne
  · rfl
  · exact hok.elim

/-- A gas limit above 255 does not fit one byte. -/
theorem one_lt_length_padded {v : ℕ} (h : 255 < v) : 1 < (padded 1 v).length := by
  by_contra hle
  have hlt := ofLE_lt (padded 1 v)
  rw [ofLE_padded] at hlt
  have : 256 ^ (padded 1 v).length ≤ 256 ^ 1 := Nat.pow_le_pow_right (by decide) (by omega)
  omega

variable {made : MissingCheck → Bool} {tx : Transaction}

/-- The common fields of a legacy transaction cannot be taken for a marker: the
sizes of the nonce and of the gas limit are not both one byte. -/
theorem parse_unmarshalType_legacy {tx : TxCommon} {out : Streams} (hgas : 0xff < tx.gas)
    (hout : tx.marshalCSER.emit = some ((), out)) (rest : Streams) :
    unmarshalType.parse made (out ++ rest) = some (legacyTxType, out ++ rest) := by
  obtain ⟨⟨⟩, o₁, o', h₁, h', rfl⟩ := Encoder.emit_bind_eq_some hout
  obtain ⟨⟨⟩, o₂, o₃, h₂, -, rfl⟩ := Encoder.emit_bind_eq_some h'
  rw [Writer.u64, emit_writeU64Bits, Option.some.injEq, Prod.mk.injEq] at h₁ h₂
  obtain ⟨-, rfl⟩ := h₁
  obtain ⟨-, rfl⟩ := h₂
  have hsize := one_lt_length_padded (show 255 < tx.gas.toNat from hgas)
  have hfit := length_padded_sub_lt (m := 1) (n := 3) (v := tx.gas.toNat) tx.gas.toNat_lt
  generalize hout : (⟨_, _⟩ ++ (⟨_, _⟩ ++ o₃) ++ rest : Streams) = s
  have hbits : s.bits.take 6 = BitList.ofNat 3 ((padded 1 tx.nonce.toNat).length - 1) ++
      BitList.ofNat 3 ((padded 1 tx.gas.toNat).length - 1) := by
    rw [← hout]
    simp only [Streams.bits_append, List.append_assoc]
    rw [← List.append_assoc, List.take_left']
    simp
  have hlen : 6 ≤ s.bits.length := by
    rw [← hout]
    simp only [Streams.bits_append, List.length_append, BitList.length_ofNat]
    omega
  have hval : BitList.toNat (s.bits.take 6) ≠ 0 := by
    rw [hbits, BitList.toNat_append, BitList.toNat_ofNat_of_lt hfit, BitList.length_ofNat]
    omega
  have hword : BitList.toNat (s.bits.take 6) < 2 ^ 64 := by
    refine Nat.lt_of_lt_of_le (BitList.toNat_lt _) (Nat.pow_le_pow_right (by decide) ?_)
    rw [List.length_take]
    omega
  have hview : (Decoder.view 6 : Decode ℕ).parse made s =
      some (BitList.toNat (s.bits.take 6), s) := by
    rw [Decoder.parse_view, if_pos hlen, Nat.mod_eq_of_lt hword]
  refine Decoder.parse_bind_some hview ?_
  rw [if_neg hval, Decoder.parse_pure]

/-- A marker is read back with its type. -/
theorem parse_unmarshalType_marker {t : UInt8} (ht : t ≠ legacyTxType) (rest : Streams) :
    unmarshalType.parse made (⟨BitList.ofNat 6 0, []⟩ ++ (⟨[], [t]⟩ ++ rest)) =
      some (t, rest) := by
  have hzero : 0 < 2 ^ 6 := by decide
  refine Decoder.parse_bind_some (Decoder.parse_view_append (by decide) hzero _) ?_
  rw [if_pos rfl]
  refine Decoder.parse_bind_some (Decoder.parse_bits_append (by decide) hzero _) ?_
  refine Decoder.parse_bind_some (show _ = some (t, rest) from rfl) ?_
  refine Decoder.parse_bind_some (Decoder.parse_unchecked_of (bne_iff_ne.mpr ht) _) rfl

/-- Inversion of the lookahead. -/
theorem parse_unmarshalType {t : UInt8} {s s' : Streams}
    (h : unmarshalType.parse made s = some (t, s')) :
    (t = legacyTxType ∧ s' = s) ∨
      ((made .txTypeMarker = true → t ≠ legacyTxType) ∧
        s = ⟨BitList.ofNat 6 0, []⟩ ++ (⟨[], [t]⟩ ++ s')) := by
  obtain ⟨marker, s₁, hview, h⟩ := Decoder.parse_bind_eq_some h
  rw [Decoder.parse_view] at hview
  split at hview
  case isFalse => cases hview
  rename_i hsix
  rw [Option.some.injEq, Prod.mk.injEq] at hview
  obtain ⟨hmarker, rfl⟩ := hview
  split at h
  · -- the bits taken are those that were looked at
    rename_i hzero
    obtain ⟨z, s₂, hbits, h⟩ := Decoder.parse_bind_eq_some h
    obtain ⟨t', s₃, hbyte, h⟩ := Decoder.parse_bind_eq_some h
    obtain ⟨⟨⟩, s₄, hcheck, h⟩ := Decoder.parse_bind_eq_some h
    obtain ⟨rfl, rfl⟩ := Decoder.parse_pure_eq_some h
    obtain ⟨rfl, hne⟩ := Decoder.parse_unchecked_eq_some hcheck
    have hz : z = 0 := by
      rw [Decoder.parse_bits, if_pos hsix, Option.some.injEq, Prod.mk.injEq] at hbits
      rw [← hbits.1, hmarker, hzero]
    obtain ⟨-, rfl⟩ := Decoder.parse_bits_eq_some (by decide) hbits
    obtain rfl := Decoder.parse_byte_eq_some hbyte
    rw [hz]
    exact Or.inr ⟨fun hmade => bne_iff_ne.mp (hne hmade), rfl⟩
  · rw [Decoder.parse_pure, Option.some.injEq, Prod.mk.injEq] at h
    exact Or.inl ⟨h.1.symm, h.2.symm⟩

/-- Inversion of `TransactionUnmarshalCSER`. -/
theorem parse_transaction {s s' : Streams}
    (h : transactionUnmarshalCSER.parse made s = some (tx, s')) :
    ∃ t s₁ s₂, unmarshalType.parse made s = some (t, s₁) ∧
      TxCommon.unmarshalCSER.parse made s₁ = some (tx.toTxCommon, s₂) ∧
      ((t = legacyTxType ∧ tx.kind = .legacy ∧ s₂ = s' ∧
          (made .legacyGas = true → 0xff < tx.gas)) ∨
        (t = accessListTxType ∧ unmarshalAccessList.parse made s₂ = some (tx.kind, s'))) := by
  obtain ⟨t, s₁, ht, h⟩ := Decoder.parse_bind_eq_some h
  obtain ⟨common, s₂, hcommon, h⟩ := Decoder.parse_bind_eq_some h
  refine ⟨t, s₁, s₂, ht, ?_⟩
  split at h
  · rename_i hlegacy
    obtain ⟨⟨⟩, s₃, hcheck, h⟩ := Decoder.parse_bind_eq_some h
    obtain ⟨rfl, rfl⟩ := Decoder.parse_pure_eq_some h
    obtain ⟨rfl, hgas⟩ := Decoder.parse_unchecked_eq_some hcheck
    exact ⟨hcommon, Or.inl ⟨hlegacy, rfl, rfl, fun hmade => of_decide_eq_true (hgas hmade)⟩⟩
  · split at h
    · rename_i haccess
      obtain ⟨kind, s₃, hkind, h⟩ := Decoder.parse_bind_eq_some h
      obtain ⟨rfl, rfl⟩ := Decoder.parse_pure_eq_some h
      exact ⟨hcommon, Or.inr ⟨haccess, hkind⟩⟩
    · cases h

/-- With the check on the gas limit made, only writable transactions are read. -/
theorem writable_of_parse {s s' : Streams} (hmade : made .legacyGas = true)
    (h : transactionUnmarshalCSER.parse made s = some (tx, s')) :
    tx.Writable := by
  obtain ⟨t, s₁, s₂, -, -, ⟨-, -, -, hgas⟩ | ⟨-, hkind⟩⟩ := parse_transaction h
  · exact fun _ => hgas hmade
  · exact fun hlegacy => absurd hlegacy (lawful_accessList.range _ _ _ _ hkind).2

theorem Transaction.type_of_accessList (hok : tx.kind.Encodable) (hne : tx.kind ≠ .legacy) :
    tx.type = accessListTxType := by
  rw [Transaction.type]
  rcases hkind : tx.kind with _ | ⟨c, l⟩ | t
  · exact absurd hkind hne
  · rfl
  · rw [hkind] at hok
    exact hok.elim

/-- A legacy transaction has no marker. -/
theorem emit_marshalType_legacy (hkind : tx.kind = .legacy) (hgas : 0xff < tx.gas) :
    tx.marshalType.emit = some ((), ∅) := by
  have htype : tx.type = legacyTxType := by rw [Transaction.type, hkind]
  rw [Transaction.marshalType, if_neg (by rw [htype]; exact fun h => h rfl),
    if_neg (UInt64.not_le.mpr hgas), Encoder.emit_pure]

/-- A legacy transaction is only written with a gas limit above 255. -/
theorem writable_of_emit {o : Streams} (h : tx.marshalType.emit = some ((), o)) : tx.Writable := by
  intro hkind
  have htype : tx.type = legacyTxType := by rw [Transaction.type, hkind]
  rw [Transaction.marshalType, if_neg (by rw [htype]; exact fun h => h rfl)] at h
  split at h
  · cases h
  · rename_i hgas
    exact UInt64.not_le.mp hgas

theorem emit_marshalType_accessList (hok : tx.kind.Encodable) (hne : tx.kind ≠ .legacy) :
    tx.marshalType.emit =
      some ((), ⟨BitList.ofNat 6 0, []⟩ ++ ⟨[], [accessListTxType]⟩) := by
  have htype := Transaction.type_of_accessList hok hne
  rw [Transaction.marshalType, if_pos (by rw [htype]; decide), htype]
  exact Encoder.emit_bind_some (Encoder.emit_bits _ _) (Encoder.emit_byte _)

/-- A transaction is read back. -/
theorem reads_transaction (h : tx.Encodable) :
    Reads (transactionMarshalCSER tx) transactionUnmarshalCSER tx := by
  intro out hout rest
  obtain ⟨⟨⟩, o₁, o', h₁, h', rfl⟩ := Encoder.emit_bind_eq_some hout
  obtain ⟨⟨⟩, o₂, o₃, h₂, h₃, rfl⟩ := Encoder.emit_bind_eq_some h'
  by_cases hkind : tx.kind = .legacy
  · -- no marker, and the common fields do not look like one
    have hgas := writable_of_emit h₁ hkind
    rw [emit_marshalType_legacy hkind hgas, Option.some.injEq, Prod.mk.injEq] at h₁
    rw [hkind, TxKind.marshalCSER, Encoder.emit_pure, Option.some.injEq, Prod.mk.injEq] at h₃
    obtain ⟨-, rfl⟩ := h₁
    obtain ⟨-, rfl⟩ := h₃
    rw [Streams.empty_append, Streams.append_empty]
    refine Decoder.parse_bind_some (parse_unmarshalType_legacy hgas h₂ rest) ?_
    refine Decoder.parse_bind_some (lawful_txCommon.reads _ h.common _ h₂ rest) ?_
    rw [if_pos rfl]
    refine Decoder.parse_bind_some (Decoder.parse_unchecked_of (decide_eq_true hgas) _) ?_
    rw [Decoder.parse_pure, ← hkind]
  · rw [emit_marshalType_accessList h.kind hkind, Option.some.injEq, Prod.mk.injEq] at h₁
    obtain ⟨-, rfl⟩ := h₁
    simp only [Streams.append_assoc]
    refine Decoder.parse_bind_some (parse_unmarshalType_marker (by decide) _) ?_
    refine Decoder.parse_bind_some (lawful_txCommon.reads _ h.common _ h₂ _) ?_
    rw [if_neg (by decide), if_pos rfl]
    exact Decoder.parse_bind_some (lawful_accessList.reads _ ⟨h.kind, hkind⟩ _ h₃ rest) rfl

/-- With all checks made, it has one form. -/
theorem inverts_transaction : Inverts transactionUnmarshalCSER transactionMarshalCSER Any := by
  intro s tx s' h _
  obtain ⟨t, s₁, s₂, ht, hcommon, hcase⟩ := parse_transaction h
  obtain ⟨o, ho, rfl⟩ := lawful_txCommon.inverts _ _ _ hcommon trivial
  rcases hcase with ⟨rfl, hkind, rfl, hgas⟩ | ⟨rfl, hkind⟩
  · have hrest : tx.kind.marshalCSER.emit = some ((), ∅) := by rw [hkind]; rfl
    rcases parse_unmarshalType ht with ⟨-, hs⟩ | ⟨hmarker, -⟩
    · refine ⟨_, Encoder.emit_bind_some (emit_marshalType_legacy hkind (hgas rfl))
        (Encoder.emit_bind_some ho hrest), ?_⟩
      rw [Streams.empty_append, Streams.append_empty, hs]
    · exact absurd rfl (hmarker rfl)
  · obtain ⟨o', ho', rfl⟩ := lawful_accessList.inverts _ _ _ hkind trivial
    obtain ⟨hok, hne⟩ := lawful_accessList.range _ _ _ _ hkind
    rcases parse_unmarshalType ht with ⟨hlegacy, -⟩ | ⟨-, hs⟩
    · cases hlegacy
    · refine ⟨_, Encoder.emit_bind_some (emit_marshalType_accessList hok hne)
        (Encoder.emit_bind_some ho ho'), ?_⟩
      rw [hs]
      simp only [Streams.append_assoc]

/-- Writing it again takes no more bytes. -/
theorem shrinks_transaction : Shrinks transactionUnmarshalCSER transactionMarshalCSER := by
  intro made s tx s' h out hout
  obtain ⟨t, s₁, s₂, ht, hcommon, hcase⟩ := parse_transaction h
  obtain ⟨⟨⟩, o₁, o', h₁, h', rfl⟩ := Encoder.emit_bind_eq_some hout
  obtain ⟨⟨⟩, o₂, o₃, h₂, h₃, rfl⟩ := Encoder.emit_bind_eq_some h'
  have hshrink := lawful_txCommon.shrinks _ _ _ _ hcommon o₂ h₂
  rcases hcase with ⟨rfl, hkind, rfl, -⟩ | ⟨rfl, hkind⟩
  · -- a marker of the legacy type is dropped
    have hskip : s₁.NoLonger s := by
      rcases parse_unmarshalType ht with ⟨-, rfl⟩ | ⟨-, rfl⟩
      · exact Streams.NoLonger.refl _
      · rw [← Streams.append_assoc]
        exact Streams.NoLonger.of_append _ _
    rw [emit_marshalType_legacy hkind (writable_of_emit h₁ hkind), Option.some.injEq,
      Prod.mk.injEq] at h₁
    rw [hkind, TxKind.marshalCSER, Encoder.emit_pure, Option.some.injEq, Prod.mk.injEq] at h₃
    obtain ⟨-, rfl⟩ := h₁
    obtain ⟨-, rfl⟩ := h₃
    rw [Streams.empty_append, Streams.append_empty]
    exact hshrink.trans hskip
  · obtain ⟨hok, hne⟩ := lawful_accessList.range _ _ _ _ hkind
    rcases parse_unmarshalType ht with ⟨hlegacy, -⟩ | ⟨-, rfl⟩
    · cases hlegacy
    · rw [emit_marshalType_accessList hok hne, Option.some.injEq, Prod.mk.injEq] at h₁
      obtain ⟨-, rfl⟩ := h₁
      rw [← Streams.append_assoc ⟨BitList.ofNat 6 0, []⟩ _ s₁]
      exact (Streams.NoLonger.refl _).append
        (hshrink.append (lawful_accessList.shrinks _ _ _ _ hkind o₃ h₃))

/-- **Transactions are lawful**: the ones that are written are read back, and,
once the missing checks are made, they have one form. -/
theorem lawful_transaction :
    Lawful transactionUnmarshalCSER transactionMarshalCSER Transaction.Encodable
      Transaction.Writable where
  emits tx h hwritable := by
    obtain ⟨o, ho⟩ := lawful_txCommon.emits _ h.common trivial
    by_cases hkind : tx.kind = .legacy
    · have hrest : tx.kind.marshalCSER.emit = some ((), ∅) := by rw [hkind]; rfl
      exact ⟨_, Encoder.emit_bind_some (emit_marshalType_legacy hkind (hwritable hkind))
        (Encoder.emit_bind_some ho hrest)⟩
    · obtain ⟨o', ho'⟩ := lawful_accessList.emits _ ⟨h.kind, hkind⟩ trivial
      exact ⟨_, Encoder.emit_bind_some (emit_marshalType_accessList h.kind hkind)
        (Encoder.emit_bind_some ho ho')⟩
  reads tx h := reads_transaction h
  range made s tx s' h := by
    obtain ⟨t, s₁, s₂, -, hcommon, ⟨-, hkind, -, -⟩ | ⟨-, hkind⟩⟩ := parse_transaction h
    · refine ⟨lawful_txCommon.range _ _ _ _ hcommon, ?_⟩
      rw [hkind]
      trivial
    · exact ⟨lawful_txCommon.range _ _ _ _ hcommon, (lawful_accessList.range _ _ _ _ hkind).1⟩
  inverts s tx s' h _ := inverts_transaction s tx s' h trivial
  shrinks := shrinks_transaction

/-! ## Every number written fits its bits -/

theorem sized_txCommon (tx : TxCommon) : tx.marshalCSER.Sized :=
  (sized_u64 _).seq <| (sized_u64 _).seq <| (sized_bigInt _).seq <| (sized_bigInt _).seq <|
    (sized_optional _).seq <| (sized_sliceBytes _).seq <| (sized_bigInt _).seq <|
    sized_fixedBytes _

theorem sized_accessTuple (tuple : AccessTuple) : tuple.marshalCSER.Sized :=
  (sized_fixedBytes _).seq <| (sized_u32 _).seq <| Encoder.Sized.forEach sized_fixedBytes _

theorem sized_txKind (kind : TxKind) : kind.marshalCSER.Sized := by
  rcases kind with _ | ⟨c, l⟩ | t
  · exact Encoder.Sized.pure ()
  · exact (sized_bigInt _).seq <| (sized_u32 _).seq <| Encoder.Sized.forEach sized_accessTuple _
  · trivial

theorem sized_marshalType (tx : Transaction) : tx.marshalType.Sized := by
  rw [Transaction.marshalType]
  split
  · exact (Encoder.Sized.bits (by decide) (by decide)).seq (sized_u8 _)
  · split
    · trivial
    · exact Encoder.Sized.pure ()

theorem sized_transaction (tx : Transaction) : (transactionMarshalCSER tx).Sized :=
  (sized_marshalType tx).seq <| (sized_txCommon _).seq <| sized_txKind _

/-! ## Which checks the reader leaves out -/

section MarksIn

variable {S : MissingCheck → Prop}

theorem marksIn_txCommon (hzero : S .zeroWidth) (hlead : S .leadingZero) :
    TxCommon.unmarshalCSER.MarksIn S :=
  (marksIn_u64 hzero).bind fun _ => (marksIn_u64 hzero).bind fun _ =>
    (marksIn_bigInt hzero hlead).bind fun _ => (marksIn_bigInt hzero hlead).bind fun _ =>
    (marksIn_optional 20).bind fun _ => (marksIn_sliceBytes hzero).bind fun _ =>
    (marksIn_bigInt hzero hlead).bind fun _ => (marksIn_fixedBytes 64).bind fun _ => trivial

theorem marksIn_accessList (hzero : S .zeroWidth) (hlead : S .leadingZero) :
    unmarshalAccessList.MarksIn S := by
  have htuple : AccessTuple.unmarshalCSER.MarksIn S :=
    (marksIn_fixedBytes 20).bind fun _ => (marksIn_u32 hzero).bind fun len =>
      ((marksIn_fixedBytes 32).times len.toNat).bind fun _ => trivial
  exact (marksIn_bigInt hzero hlead).bind fun _ => (marksIn_u32 hzero).bind fun len =>
    (htuple.times len.toNat).bind fun _ => trivial

theorem marksIn_unmarshalType (htype : S .txTypeMarker) : unmarshalType.MarksIn S := by
  intro marker
  refine Decoder.MarksIn.bind trivial fun marker => ?_
  split
  · exact fun _ _ => ⟨htype, trivial⟩
  · trivial

theorem marksIn_transaction (hzero : S .zeroWidth) (hlead : S .leadingZero)
    (htype : S .txTypeMarker) (hgas : S .legacyGas) :
    transactionUnmarshalCSER.MarksIn S := by
  refine (marksIn_unmarshalType htype).bind fun txType =>
    (marksIn_txCommon hzero hlead).bind fun common => ?_
  split
  · exact ⟨hgas, trivial⟩
  · split
    · exact (marksIn_accessList hzero hlead).bind fun _ => trivial
    · trivial

end MarksIn

end Zilionixx
