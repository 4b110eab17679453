import Zilionixx.EventSerializer

/-!
# Events as byte strings

What the serializer laws say about `Build`, `MarshalBinary` and
`UnmarshalBinary`:

* **round trip** — a built event is read back from its serialization, as long
  as every count fits the field it is written in;
* **canonical form** — an accepted byte string is what its event serializes to
  exactly when it passes the checks that the decoder does not make;
* **identity** — the hash of an accepted event is the hash of its serialized
  header exactly when no lamport difference exceeds the event's lamport.
-/

namespace Zilionixx

open Codec BitList

variable {H : Hashing} {made : MissingCheck → Bool}

/-! ## `Build` and `UnmarshalBinary` -/

namespace EventHeader

theorem marshalBinary_ok {e : EventHeader} (hok : e.Encodable) (hw : e.Writable) :
    ∃ ser, e.marshalBinary H = .ok ser := by
  obtain ⟨out, hout⟩ := (lawful_header (H := H)).emits e hok hw
  exact marshalBinaryAdapter_ok_of_emit (sized_header e) hout

theorem writable_of_marshalBinary {e : EventHeader} {ser : List UInt8}
    (h : e.marshalBinary H = .ok ser) : e.Writable := by
  obtain ⟨out, bbits, pad, hemit, -, -, -⟩ := (marshalBinaryAdapter_eq_ok (sized_header e)).mp h
  exact writable_of_emit hemit

theorem marshalBinary_ne_panic {e : EventHeader} (hok : e.Encodable) :
    e.marshalBinary H ≠ .error .panic :=
  marshalBinaryAdapter_ne_panic (noPanic_header hok.extra)

end EventHeader

namespace MutableEventPayload

/-- What `Build` needs. -/
theorem build_eq_some {me : MutableEventPayload} {e : EventPayload} :
    me.Build H = some e ↔
      ∃ eventSer payloadSer,
        ignoringError ((me.settleTxHash H).toEventHeader.marshalBinary H) = some eventSer ∧
        ignoringError ((me.settleTxHash H).marshalBinary H) = some payloadSer ∧
        e = (me.settleTxHash H).build (H.eventHash eventSer) payloadSer.length := by
  simp only [Build, Option.bind_eq_bind, Option.bind_eq_some_iff, Option.pure_def,
    Option.some.injEq]
  constructor
  · rintro ⟨eventSer, hevent, payloadSer, hpayload, rfl⟩
    exact ⟨eventSer, payloadSer, hevent, hpayload, rfl⟩
  · rintro ⟨eventSer, payloadSer, hevent, hpayload, rfl⟩
    exact ⟨eventSer, hevent, payloadSer, hpayload, rfl⟩

variable {e : MutableEventPayload}

/-- An encodable payload that is not refused is marshalled. -/
theorem marshalBinary_ok (hok : e.Encodable H) (hw : e.Writable H) :
    ∃ raw, e.marshalBinary H = .ok raw := by
  obtain ⟨out, hout⟩ := lawful_payload.emits e hok hw
  exact marshalBinaryAdapter_ok_of_emit (sized_payload e) hout

/-- `Build` returns whenever the payload can be marshalled. -/
theorem build_ok (me : MutableEventPayload) (hok : (me.settleTxHash H).Encodable H)
    (hw : (me.settleTxHash H).Writable H) :
    ∃ e, me.Build H = some e ∧ e.toMutableEventPayload = me.settleTxHash H := by
  obtain ⟨raw, hraw⟩ := marshalBinary_ok hok hw
  obtain ⟨ser, hser⟩ := EventHeader.marshalBinary_ok (H := H) hok.header hw.header
  refine ⟨_, build_eq_some.mpr ⟨ser, raw, ?_, ?_, rfl⟩, rfl⟩
  · rw [hser, ignoringError]
  · rw [hraw, ignoringError]

/-- What was marshalled is read back, with every check made. -/
theorem unmarshalBinary_strict {raw : Slice} (hok : e.Encodable H)
    (h : e.marshalBinary H = .ok raw.data) : unmarshalBinary H Decoder.strict raw = .ok e :=
  unmarshal_of_marshal (sized_payload e) (lawful_payload.reads e hok) h

/-- What is read with every check made is what is marshalled. -/
theorem marshalBinary_of_strict {raw : Slice} (h : unmarshalBinary H Decoder.strict raw = .ok e) :
    e.marshalBinary H = .ok raw.data :=
  marshal_of_unmarshal (sized_payload e) inverts_payload h

theorem unmarshalBinary_to_lax {raw : Slice} (h : unmarshalBinary H made raw = .ok e) :
    unmarshalBinary H Decoder.lax raw = .ok e :=
  unmarshalBinaryAdapter_mono (fun _ hc => by cases hc) h

theorem encodable_of_unmarshalBinary {raw : Slice} (h : unmarshalBinary H made raw = .ok e) :
    e.Encodable H := by
  obtain ⟨bbits, bbytes, pad, -, -, -, hparse⟩ := unmarshalBinaryAdapter_eq_ok.mp h
  exact lawful_payload.range _ _ _ _ hparse

end MutableEventPayload

namespace EventPayload

theorem unmarshalBinaryWith_eq_ok {raw : Slice} {e : EventPayload} :
    unmarshalBinaryWith H made raw = .ok e ↔
      MutableEventPayload.unmarshalBinary H made raw = .ok e.toMutableEventPayload ∧
      ∃ eventSer,
        MutableEventPayload.ignoringError (e.toEventHeader.marshalBinary H) = some eventSer ∧
        e = e.toMutableEventPayload.build (H.eventHash eventSer) raw.data.length := by
  constructor
  · intro h
    rw [unmarshalBinaryWith] at h
    rcases hmut : MutableEventPayload.unmarshalBinary H made raw with f | mutE
    · rw [hmut] at h; cases h
    rw [hmut] at h
    simp only at h
    rcases hser : MutableEventPayload.ignoringError (mutE.toEventHeader.marshalBinary H) with
      _ | eventSer
    · rw [hser] at h; cases h
    rw [hser, Except.ok.injEq] at h
    subst h
    exact ⟨rfl, eventSer, hser, rfl⟩
  · rintro ⟨hmut, eventSer, hser, he⟩
    rw [unmarshalBinaryWith, hmut]
    simp only [hser, ← he]

/-- A payload with a header that can be marshalled gets the hash of the
marshalled header. -/
theorem unmarshalBinaryWith_of_header {raw : Slice} {me : MutableEventPayload}
    {eventSer : List UInt8} (h : MutableEventPayload.unmarshalBinary H made raw = .ok me)
    (hser : me.toEventHeader.marshalBinary H = .ok eventSer) :
    unmarshalBinaryWith H made raw = .ok (me.build (H.eventHash eventSer) raw.data.length) := by
  rw [unmarshalBinaryWith, h]
  simp only [hser, MutableEventPayload.ignoringError]

end EventPayload

/-! ## Round trip -/

/-- The transactions meant to be in events: legacy ones with a gas limit above
255 and access-list ones, with non-negative big integers and signature values
of 256 bits. -/
structure Transaction.Valid (tx : Transaction) : Prop where
  kind : (tx.kind = .legacy ∧ 0xff < tx.gas) ∨ ∃ chainID list, tx.kind = .accessList chainID list
  chainID : 0 ≤ tx.kind.chainID
  gasPrice : 0 ≤ tx.gasPrice
  value : 0 ≤ tx.value
  v : 0 ≤ tx.v
  r : 0 ≤ tx.r ∧ tx.r < 2 ^ 256
  s : 0 ≤ tx.s ∧ tx.s < 2 ^ 256

/-- The bytes of a big integer can be counted in 56 bits. -/
def BigIntFits (v : ℤ) : Prop := (ByteNumber.toBE v.natAbs).length < 2 ^ 56

/-- Every count in a transaction fits the field it is written in. -/
structure Transaction.Fits (tx : Transaction) : Prop where
  gasPrice : BigIntFits tx.gasPrice
  value : BigIntFits tx.value
  data : tx.data.length < 2 ^ 56
  v : BigIntFits tx.v
  chainID : BigIntFits tx.kind.chainID
  tuples : tx.kind.tuples.length < 2 ^ 32
  storageKeys : ∀ tuple ∈ tx.kind.tuples, tuple.storageKeys.length < 2 ^ 32

/-- Every count in a payload fits the field it is written in. -/
structure MutableEventPayload.Fits (e : MutableEventPayload) : Prop where
  parents : e.parents.length < 2 ^ 32
  extra : e.extra.length < 2 ^ 56
  txsNum : e.txs.length < 2 ^ 56
  txs : ∀ tx ∈ e.txs, tx.Fits

theorem Transaction.Valid.encodable {tx : Transaction} (h : tx.Valid) (hfits : tx.Fits) :
    tx.Encodable := by
  refine ⟨⟨⟨h.gasPrice, hfits.gasPrice⟩, ⟨h.value, hfits.value⟩, hfits.data, ⟨h.v, hfits.v⟩,
    h.r, h.s⟩, ?_⟩
  have hchain := h.chainID
  have hchainFits := hfits.chainID
  have htuples := hfits.tuples
  have hkeys := hfits.storageKeys
  rcases h.kind with ⟨hkind, -⟩ | ⟨chainID, list, hkind⟩
  · rw [hkind]
    trivial
  · rw [hkind] at hchain hchainFits htuples hkeys ⊢
    exact ⟨⟨hchain, hchainFits⟩, htuples, hkeys⟩

theorem Transaction.Valid.writable {tx : Transaction} (h : tx.Valid) : tx.Writable := by
  intro hlegacy
  rcases h.kind with ⟨-, hgas⟩ | ⟨chainID, list, hkind⟩
  · exact hgas
  · rw [hlegacy] at hkind
    cases hkind

theorem noTxs_iff (e : EventHeader) : e.noTxs H = true ↔ e.txHash = H.emptyTxHash := by
  rw [EventHeader.noTxs, decide_eq_true_eq]

section Settled

variable {e : MutableEventPayload}
  (hparents : ∀ p ∈ e.parents, p.epoch = e.epoch ∧ p.lamport ≤ e.lamport)
  (hhash : e.txHash = H.emptyTxHash ↔ e.txs = []) (htxs : ∀ tx ∈ e.txs, tx.Valid)

include hparents hhash htxs

theorem MutableEventPayload.Fits.encodable (hfits : e.Fits) : e.Encodable H where
  header := ⟨hfits.parents, fun p hp => (hparents p hp).1, hfits.extra⟩
  txsNum := hfits.txsNum
  txs := fun tx htx => (htxs tx htx).encodable (hfits.txs tx htx)
  noTxs := fun hno => hhash.mp ((noTxs_iff _).mp hno)

theorem MutableEventPayload.writable_of_valid : e.Writable H where
  header := fun p hp => (hparents p hp).2
  txs := fun tx htx => (htxs tx htx).writable
  hasTxs := fun hnil => (noTxs_iff _).mpr (hhash.mpr hnil)

end Settled

/-- **Round trip.** A built event whose counts fit their fields is marshalled,
and whatever byte slice holds the result is read back as the same event: every
field, the ID, the hash to sign and the size. -/
theorem unmarshalBinary_of_build {me : MutableEventPayload} {e : EventPayload}
    (hbuild : me.Build H = some e)
    (hparents : ∀ p ∈ e.parents, p.epoch = e.epoch ∧ p.lamport ≤ e.lamport)
    (hhash : e.txHash = H.emptyTxHash ↔ e.txs = []) (htxs : ∀ tx ∈ e.txs, tx.Valid)
    (hfits : e.toMutableEventPayload.Fits) :
    ∃ raw, e.marshalBinary H = .ok raw ∧
      ∀ s : Slice, s.data = raw → EventPayload.unmarshalBinary H s = .ok e := by
  obtain ⟨eventSer, payloadSer, hevent, hpayload, rfl⟩ :=
    MutableEventPayload.build_eq_some.mp hbuild
  have hok : (me.settleTxHash H).Encodable H := hfits.encodable hparents hhash htxs
  have hw := MutableEventPayload.writable_of_valid hparents hhash htxs
  obtain ⟨raw, hraw⟩ := MutableEventPayload.marshalBinary_ok hok hw
  refine ⟨raw, hraw, ?_⟩
  rintro s rfl
  -- the size recorded by `Build` is the length of the same serialization
  rw [hraw, MutableEventPayload.ignoringError, Option.some.injEq] at hpayload
  subst hpayload
  have hstrict := MutableEventPayload.unmarshalBinary_strict hok hraw
  exact EventPayload.unmarshalBinaryWith_eq_ok.mpr
    ⟨MutableEventPayload.unmarshalBinary_to_lax hstrict, eventSer, hevent, rfl⟩

/-- Hash functions for examples: the first bytes of the input, and whether the
list of transactions is empty. -/
def sampleHashing : Hashing where
  sha256 ser := copyBytes 32 ser
  deriveSha txs := if txs = [] then copyBytes 32 [] else copyBytes 32 [1]

/-- An event with no parents, no transactions and zeros everywhere. -/
def blankEvent : MutableEventPayload where
  epoch := 0
  lamport := 0
  creator := 0
  seq := 0
  frame := 0
  creationTime := 0
  medianTime := 0
  gasPowerUsed := 0
  gasPowerLeft := ⟨![0, 0]⟩
  parents := []
  prevEpochHash := none
  txHash := copyBytes 32 []
  extra := []
  sig := copyBytes 64 []
  txs := []

/-- An event with one parent and one legacy transaction. -/
def sampleEvent : MutableEventPayload :=
  { blankEvent with
    epoch := 3
    lamport := 7
    medianTime := 2 ^ 63
    parents := [⟨3, 6, copyBytes 24 [1, 2, 3]⟩]
    txHash := copyBytes 32 [1]
    txs := [{ nonce := 0, gas := 21000, gasPrice := 1000, value := 0, toAddress := none,
              data := [1, 2], v := 27, r := 5, s := 6, kind := .legacy }] }

theorem bigIntFits_of_lt {v : ℤ} (h : v.natAbs < 256 ^ 32) : BigIntFits v := by
  have := ByteNumber.length_toLE_le h
  rw [BigIntFits, ByteNumber.length_toBE]
  omega

theorem sampleEvent_valid : ∀ tx ∈ sampleEvent.txs, tx.Valid := by
  intro tx htx
  obtain rfl := List.mem_singleton.mp htx
  exact ⟨Or.inl ⟨rfl, by decide⟩, by decide, by decide, by decide, by decide, by decide, by decide⟩

theorem sampleEvent_fits : sampleEvent.Fits := by
  refine ⟨by decide, by decide, by decide, ?_⟩
  intro tx htx
  obtain rfl := List.mem_singleton.mp htx
  exact ⟨bigIntFits_of_lt (by decide), bigIntFits_of_lt (by decide), by decide,
    bigIntFits_of_lt (by decide), bigIntFits_of_lt (by decide), by decide, by decide⟩

theorem unmarshalBinary_of_build_sampleEvent :
    ∃ e, sampleEvent.Build sampleHashing = some e ∧ e.txs.length = 1 ∧
      ∃ raw, e.marshalBinary sampleHashing = .ok raw ∧
        ∀ s : Slice, s.data = raw → EventPayload.unmarshalBinary sampleHashing s = .ok e := by
  have hsettled : sampleEvent.settleTxHash sampleHashing = sampleEvent := rfl
  have hparents : ∀ p ∈ sampleEvent.parents,
      p.epoch = sampleEvent.epoch ∧ p.lamport ≤ sampleEvent.lamport := by decide
  have hhash : sampleEvent.txHash = sampleHashing.emptyTxHash ↔ sampleEvent.txs = [] := by decide
  obtain ⟨e, he, hpayload⟩ := MutableEventPayload.build_ok (H := sampleHashing) sampleEvent
    (sampleEvent_fits.encodable hparents hhash sampleEvent_valid)
    (MutableEventPayload.writable_of_valid hparents hhash sampleEvent_valid)
  rw [hsettled] at hpayload
  refine ⟨e, he, by rw [hpayload]; rfl, unmarshalBinary_of_build he ?_ ?_ ?_ ?_⟩
  · rw [hpayload]; exact hparents
  · rw [hpayload]; exact hhash
  · rw [hpayload]; exact sampleEvent_valid
  · rw [hpayload]; exact sampleEvent_fits

/-- The blank event with `n` equal parents. -/
def crowdedEvent (n : ℕ) : MutableEventPayload :=
  { blankEvent with parents := List.replicate n ⟨0, 0, copyBytes 24 []⟩ }

theorem crowdedEvent_parents {n : ℕ} {p : EventID} (hp : p ∈ (crowdedEvent n).parents) :
    p = ⟨0, 0, copyBytes 24 []⟩ := (List.mem_replicate.mp hp).2

theorem crowdedEvent_writable (n : ℕ) : (crowdedEvent n).toEventHeader.Writable := by
  intro p hp
  rw [crowdedEvent_parents hp]
  exact UInt32.le_refl 0

theorem crowdedEvent_settled (n : ℕ) :
    (crowdedEvent n).settleTxHash sampleHashing = crowdedEvent n := rfl

/-- The number of parents is written in 32 bits, and cut off there: an event
with `2 ^ 32` parents is marshalled, but not read back. -/
theorem not_unmarshalBinary_of_build :
    ¬ ∀ (H : Hashing) (me : MutableEventPayload) (e : EventPayload), me.Build H = some e →
      (∀ p ∈ e.parents, p.epoch = e.epoch ∧ p.lamport ≤ e.lamport) →
      (e.txHash = H.emptyTxHash ↔ e.txs = []) → (∀ tx ∈ e.txs, tx.Valid) →
      ∃ raw, e.marshalBinary H = .ok raw ∧
        ∀ s : Slice, s.data = raw → EventPayload.unmarshalBinary H s = .ok e := by
  intro hclaim
  obtain ⟨n, hn⟩ : ∃ n, n = 2 ^ 32 := ⟨_, rfl⟩
  have hlen : (crowdedEvent n).parents.length = n := List.length_replicate
  have hextra : (crowdedEvent n).extra.length < 2 ^ 56 := by simp [crowdedEvent, blankEvent]
  have hwritable := crowdedEvent_writable n
  -- `Build` returns
  obtain ⟨ser, hser, -⟩ := length_marshalBinaryAdapter (EventHeader.sized_header _)
    (EventHeader.emitsWithin_header (H := sampleHashing) hwritable hextra) (by omega)
  obtain ⟨raw, hraw, hshort⟩ := length_marshalBinaryAdapter
    (MutableEventPayload.sized_payload _)
    (MutableEventPayload.emitsWithin_of_noTxs (H := sampleHashing) rfl rfl hwritable hextra)
    (by omega)
  have hbuild : (crowdedEvent n).Build sampleHashing = some
      ((crowdedEvent n).build (sampleHashing.eventHash ser) raw.length) := by
    refine MutableEventPayload.build_eq_some.mpr ⟨ser, raw, ?_, ?_, rfl⟩
    · rw [crowdedEvent_settled, EventHeader.marshalBinary, hser]
      rfl
    · rw [crowdedEvent_settled, MutableEventPayload.marshalBinary, hraw]
      rfl
  -- the claimed round trip
  obtain ⟨raw', hraw', hread⟩ := hclaim sampleHashing _ _ hbuild
    (fun p hp => by rw [crowdedEvent_parents hp]; exact ⟨rfl, UInt32.le_refl 0⟩)
    ⟨fun _ => rfl, fun _ => rfl⟩ (fun tx htx => by cases htx)
  obtain rfl : raw = raw' := Except.ok.inj (hraw.symm.trans hraw')
  have hsame := hread ⟨raw, [], by rw [List.length_nil]; omega⟩ rfl
  -- but no more than `2 ^ 32 - 1` parents are ever read
  have hok := MutableEventPayload.encodable_of_unmarshalBinary
    (EventPayload.unmarshalBinaryWith_eq_ok.mp hsame).1
  have hfew : (crowdedEvent n).parents.length < 2 ^ 32 := hok.header.parentsNum
  omega

/-! ## Canonical form -/

/-- The byte string is accepted by the decoder with the missing checks made: no
number of no width, no leading zero byte, no `I64` out of range, no full byte of
bit padding, no lamport difference above the lamport, no absent transactions
under a non-empty hash, no type marker of a legacy transaction and no legacy gas
up to 255. -/
def Canonical (H : Hashing) (raw : Slice) : Prop :=
  ∃ e, MutableEventPayload.unmarshalBinary H Decoder.strict raw = .ok e

/-- A canonical form is written again. -/
theorem Canonical.marshalBinary {raw : Slice} {e : MutableEventPayload} (h : Canonical H raw)
    (he : MutableEventPayload.unmarshalBinary H made raw = .ok e) :
    e.marshalBinary H = .ok raw.data := by
  obtain ⟨e', he'⟩ := h
  -- making fewer checks does not change what is read
  have hsame := (MutableEventPayload.unmarshalBinary_to_lax he').symm.trans
    (MutableEventPayload.unmarshalBinary_to_lax he)
  obtain rfl : e' = e := Except.ok.inj hsame
  exact MutableEventPayload.marshalBinary_of_strict he'

/-- **Canonical form.** An accepted byte string is what its event is marshalled
to exactly when it is canonical, and canonical byte strings with the same
payload are the same. -/
theorem marshalBinary_iff_canonical (H : Hashing) :
    (∀ (raw : Slice) (e : EventPayload), EventPayload.unmarshalBinary H raw = .ok e →
      (e.marshalBinary H = .ok raw.data ↔ Canonical H raw)) ∧
    ∀ (raw₁ raw₂ : Slice) (e₁ e₂ : EventPayload),
      EventPayload.unmarshalBinary H raw₁ = .ok e₁ → EventPayload.unmarshalBinary H raw₂ = .ok e₂ →
      Canonical H raw₁ → Canonical H raw₂ →
      e₁.toMutableEventPayload = e₂.toMutableEventPayload → raw₁.data = raw₂.data := by
  refine ⟨?_, ?_⟩
  · intro raw e hread
    have hpayload := (EventPayload.unmarshalBinaryWith_eq_ok.mp hread).1
    refine ⟨fun hwrite => ⟨e.toMutableEventPayload, ?_⟩,
      fun hcanon => hcanon.marshalBinary hpayload⟩
    -- what is read can be encoded, so what is written from it is read back strictly
    exact MutableEventPayload.unmarshalBinary_strict
      (MutableEventPayload.encodable_of_unmarshalBinary hpayload) hwrite
  · intro raw₁ raw₂ e₁ e₂ hread₁ hread₂ hcanon₁ hcanon₂ hsame
    have hwrite₁ := hcanon₁.marshalBinary (EventPayload.unmarshalBinaryWith_eq_ok.mp hread₁).1
    have hwrite₂ := hcanon₂.marshalBinary (EventPayload.unmarshalBinaryWith_eq_ok.mp hread₂).1
    rw [hsame, hwrite₂] at hwrite₁
    exact (Except.ok.inj hwrite₁).symm

/-- The bytes of the blank event with median time `2 ^ 63`, with the sign of the
time difference in bit 5 of `flags` and its absolute value `2 ^ 63`. -/
def medianRaw (flags : UInt8) : Slice where
  data := List.replicate 6 0 ++ [0, 0, 0, 0, 0, 0, 0, 0x80] ++ List.replicate 68 0 ++
    [0, flags, 1, 0, 0] ++ [0x85]
  spare := []
  bounded := by simp

theorem medianRaw_data (flags : UInt8) :
    (medianRaw flags).data = pack [0, flags, 1, 0, 0]
      (List.replicate 6 0 ++ [0, 0, 0, 0, 0, 0, 0, 0x80] ++ List.replicate 68 0) := by
  have hsize : compact 5 = [0x85] := by
    rw [compact, dif_pos (by decide)]
    rfl
  show _ = _ ++ _ ++ (compact 5).reverse
  rw [hsize]
  rfl

/-- A median time that is not a signed number. -/
def medianEvent : MutableEventPayload := { blankEvent with medianTime := 2 ^ 63 }

theorem unmarshalBinary_medianRaw_negative :
    MutableEventPayload.unmarshalBinary sampleHashing Decoder.strict (medianRaw 0xe0) =
      .ok medianEvent :=
  unmarshalBinaryAdapter_eq_ok.mpr
    ⟨_, _, 7, medianRaw_data _, by decide, by decide, by decide +kernel⟩

theorem unmarshalBinary_medianRaw_positive :
    MutableEventPayload.unmarshalBinary sampleHashing Decoder.lax (medianRaw 0xc0) =
      .ok medianEvent :=
  unmarshalBinaryAdapter_eq_ok.mpr
    ⟨_, _, 7, medianRaw_data _, by decide, by decide, by decide +kernel⟩

theorem length_medianRaw (flags : UInt8) : (medianRaw flags).data.length = 88 := by
  simp only [medianRaw, List.length_append, List.length_replicate, List.length_cons,
    List.length_nil]

/-- The sign makes no difference to the event that is read. -/
theorem exists_medianPayload :
    ∃ e : EventPayload, e.toMutableEventPayload = medianEvent ∧
      EventPayload.unmarshalBinary sampleHashing (medianRaw 0xe0) = .ok e ∧
      EventPayload.unmarshalBinary sampleHashing (medianRaw 0xc0) = .ok e := by
  have hstrict := unmarshalBinary_medianRaw_negative
  obtain ⟨ser, hser⟩ := EventHeader.marshalBinary_ok (H := sampleHashing)
    (MutableEventPayload.encodable_of_unmarshalBinary hstrict).header (by decide)
  have hnegative := EventPayload.unmarshalBinaryWith_of_header
    (MutableEventPayload.unmarshalBinary_to_lax hstrict) hser
  have hpositive := EventPayload.unmarshalBinaryWith_of_header
    unmarshalBinary_medianRaw_positive hser
  rw [length_medianRaw] at hnegative hpositive
  exact ⟨_, rfl, hnegative, hpositive⟩

/-- The time difference `- 2 ^ 63` is written with the sign bit set. With the bit
clear the decoder reads `2 ^ 63` into an `int64`, which is `- 2 ^ 63` as well. -/
theorem medianRaw_two_encodings :
    ∃ e, EventPayload.unmarshalBinary sampleHashing (medianRaw 0xe0) = .ok e ∧
      EventPayload.unmarshalBinary sampleHashing (medianRaw 0xc0) = .ok e ∧
      e.marshalBinary sampleHashing = .ok (medianRaw 0xe0).data ∧
      (medianRaw 0xc0).data ≠ (medianRaw 0xe0).data := by
  obtain ⟨e, hevent, hnegative, hpositive⟩ := exists_medianPayload
  refine ⟨e, hnegative, hpositive, ?_, by decide⟩
  rw [EventPayload.marshalBinary, hevent]
  exact MutableEventPayload.marshalBinary_of_strict unmarshalBinary_medianRaw_negative

theorem marshalBinary_iff_canonical_medianRaw :
    ∃ e, EventPayload.unmarshalBinary sampleHashing (medianRaw 0xe0) = .ok e ∧
      Canonical sampleHashing (medianRaw 0xe0) ∧
      e.marshalBinary sampleHashing = .ok (medianRaw 0xe0).data := by
  obtain ⟨e, -, hread, -⟩ := exists_medianPayload
  have hcanonical : Canonical sampleHashing (medianRaw 0xe0) :=
    ⟨_, unmarshalBinary_medianRaw_negative⟩
  exact ⟨e, hread, hcanonical,
    ((marshalBinary_iff_canonical sampleHashing).1 _ _ hread).mpr hcanonical⟩

/-! ## Identity -/

/-- No lamport difference in the byte string exceeds the lamport in it: the
string is accepted by the decoder with that one check made. -/
def LamportsFit (H : Hashing) (raw : Slice) : Prop :=
  ∃ e, MutableEventPayload.unmarshalBinary H (· == .lamportDiff) raw = .ok e

/-- Only a lamport makes the writer refuse. -/
theorem lamportsFit_iff {raw : Slice} {e : MutableEventPayload}
    (h : MutableEventPayload.unmarshalBinary H Decoder.lax raw = .ok e) :
    LamportsFit H raw ↔ e.toEventHeader.Writable := by
  constructor
  · rintro ⟨e', he'⟩
    obtain rfl : e' = e :=
      Except.ok.inj ((MutableEventPayload.unmarshalBinary_to_lax he').symm.trans h)
    obtain ⟨bbits, bbytes, pad, -, -, -, hparse⟩ := unmarshalBinaryAdapter_eq_ok.mp he'
    exact (MutableEventPayload.parse_onlyLamport.mp hparse).2
  · intro hw
    obtain ⟨bbits, bbytes, pad, hraw, hpad, -, hparse⟩ := unmarshalBinaryAdapter_eq_ok.mp h
    exact ⟨e, unmarshalBinaryAdapter_eq_ok.mpr ⟨bbits, bbytes, pad, hraw, hpad, nofun,
      MutableEventPayload.parse_onlyLamport.mpr ⟨hparse, hw⟩⟩⟩

/-- The hash and the ID of an event are those of its serialized header. -/
def EventPayload.Identified (H : Hashing) (e : EventPayload) : Prop :=
  ∃ ser, e.toEventHeader.marshalBinary H = .ok ser ∧ e.hashToSign = H.sha256 ser ∧
    e.id = ⟨e.epoch, e.lamport, calcEventID (H.sha256 ser)⟩

/-- Two headers with different serializations of the same hash. -/
def Hashing.Collide (H : Hashing) (e₁ e₂ : EventHeader) : Prop :=
  ∃ ser₁ ser₂, e₁.marshalBinary H = .ok ser₁ ∧ e₂.marshalBinary H = .ok ser₂ ∧
    ser₁ ≠ ser₂ ∧ H.sha256 ser₁ = H.sha256 ser₂

/-- Header serialization is injective on what fits the format. -/
theorem EventHeader.marshalBinary_injective {e₁ e₂ : EventHeader} {ser : List UInt8}
    (hok₁ : e₁.Encodable) (hok₂ : e₂.Encodable) (h₁ : e₁.marshalBinary H = .ok ser)
    (h₂ : e₂.marshalBinary H = .ok ser) : e₁ = e₂ :=
  eq_of_marshal (sized_header e₁) (sized_header e₂) (lawful_header.reads e₁ hok₁)
    (lawful_header.reads e₂ hok₂) h₁ h₂

/-- **Identity.** The hash and the ID of an accepted event are those of its
serialized header exactly when the lamport differences fit, and then, short of a
hash collision, the hash determines the header. -/
theorem identified_iff_lamportsFit (H : Hashing) :
    (∀ (raw : Slice) (e : EventPayload), EventPayload.unmarshalBinary H raw = .ok e →
      (e.Identified H ↔ LamportsFit H raw)) ∧
    ∀ (raw₁ raw₂ : Slice) (e₁ e₂ : EventPayload),
      EventPayload.unmarshalBinary H raw₁ = .ok e₁ → EventPayload.unmarshalBinary H raw₂ = .ok e₂ →
      LamportsFit H raw₁ → LamportsFit H raw₂ →
      ¬ H.Collide e₁.toEventHeader e₂.toEventHeader →
      e₁.hashToSign = e₂.hashToSign → e₁.toEventHeader = e₂.toEventHeader := by
  have hidentified : ∀ (raw : Slice) (e : EventPayload),
      EventPayload.unmarshalBinary H raw = .ok e → (e.Identified H ↔ LamportsFit H raw) := by
    intro raw e hread
    have hpayload := (EventPayload.unmarshalBinaryWith_eq_ok.mp hread).1
    rw [lamportsFit_iff hpayload]
    refine ⟨fun ⟨ser, hser, _, _⟩ => EventHeader.writable_of_marshalBinary hser, fun hw => ?_⟩
    obtain ⟨ser, hser⟩ := EventHeader.marshalBinary_ok (H := H)
      (MutableEventPayload.encodable_of_unmarshalBinary hpayload).header hw
    have hbuilt := Except.ok.inj
      (hread.symm.trans (EventPayload.unmarshalBinaryWith_of_header hpayload hser))
    exact ⟨ser, hser, congrArg EventPayload.hashToSign hbuilt, congrArg EventPayload.id hbuilt⟩
  refine ⟨hidentified, ?_⟩
  intro raw₁ raw₂ e₁ e₂ hread₁ hread₂ hfit₁ hfit₂ hcollide hhash
  obtain ⟨ser₁, hser₁, hhash₁, -⟩ := (hidentified _ _ hread₁).mpr hfit₁
  obtain ⟨ser₂, hser₂, hhash₂, -⟩ := (hidentified _ _ hread₂).mpr hfit₂
  have hsame : ser₁ = ser₂ := by
    by_contra hne
    exact hcollide ⟨ser₁, ser₂, hser₁, hser₂, hne, by rw [← hhash₁, ← hhash₂, hhash]⟩
  subst hsame
  exact EventHeader.marshalBinary_injective
    (MutableEventPayload.encodable_of_unmarshalBinary
      (EventPayload.unmarshalBinaryWith_eq_ok.mp hread₁).1).header
    (MutableEventPayload.encodable_of_unmarshalBinary
      (EventPayload.unmarshalBinaryWith_eq_ok.mp hread₂).1).header hser₁ hser₂

theorem identified_iff_lamportsFit_medianRaw :
    ∃ e, EventPayload.unmarshalBinary sampleHashing (medianRaw 0xe0) = .ok e ∧
      EventPayload.unmarshalBinary sampleHashing (medianRaw 0xc0) = .ok e ∧
      LamportsFit sampleHashing (medianRaw 0xc0) ∧ e.Identified sampleHashing := by
  obtain ⟨e, -, hnegative, hpositive⟩ := exists_medianPayload
  have hw : medianEvent.toEventHeader.Writable := by decide
  have hfit := (lamportsFit_iff unmarshalBinary_medianRaw_positive).mpr hw
  exact ⟨e, hnegative, hpositive, hfit,
    ((identified_iff_lamportsFit sampleHashing).1 _ _ hpositive).mpr hfit⟩

/-- The bytes of an event of lamport 0 with one parent, whose lamport difference
is 1 and whose ID starts with `t`. -/
def lamportRaw (t : UInt8) : Slice where
  data := List.replicate 10 0 ++ [1, 1, t] ++ List.replicate 87 0 ++ List.replicate 5 0 ++ [0x85]
  spare := []
  bounded := by simp

/-- A parent of the greatest lamport. -/
def lamportEvent (t : UInt8) : MutableEventPayload :=
  { blankEvent with parents := [⟨0, 0xffffffff, copyBytes 24 [t]⟩] }

theorem unmarshalBinary_lamportRaw {t : UInt8} (ht : t = 0 ∨ t = 1) :
    MutableEventPayload.unmarshalBinary sampleHashing Decoder.lax (lamportRaw t) =
      .ok (lamportEvent t) := by
  refine unmarshalBinaryAdapter_eq_ok.mpr ⟨List.replicate 5 0,
    List.replicate 10 0 ++ [1, 1, t] ++ List.replicate 87 0, 5, ?_, by decide, by decide, ?_⟩
  · rw [pack, List.length_replicate, compact, dif_pos (by decide)]
    rfl
  · rcases ht with rfl | rfl <;> decide +kernel

/-- A header refused by the encoder has the hash of the empty string. -/
theorem unmarshalBinary_of_not_writable {raw : Slice} {me : MutableEventPayload}
    (h : MutableEventPayload.unmarshalBinary H Decoder.lax raw = .ok me)
    (hw : ¬ me.toEventHeader.Writable) :
    EventPayload.unmarshalBinary H raw = .ok (me.build (H.eventHash []) raw.data.length) := by
  have hpanic := EventHeader.marshalBinary_ne_panic (H := H)
    (MutableEventPayload.encodable_of_unmarshalBinary h).header
  have hdropped : MutableEventPayload.ignoringError (me.toEventHeader.marshalBinary H) =
      some [] := by
    rcases hser : me.toEventHeader.marshalBinary H with (_ | err) | ser
    · exact absurd hser hpanic
    · rfl
    · exact absurd (EventHeader.writable_of_marshalBinary hser) hw
  rw [EventPayload.unmarshalBinary, EventPayload.unmarshalBinaryWith, h]
  simp only [hdropped]

/-- Two accepted events with different parents and the same hash to sign, that
of the empty string: their headers cannot be serialized. -/
theorem lamportRaw_not_identified :
    ∃ e₁ e₂, EventPayload.unmarshalBinary sampleHashing (lamportRaw 0) = .ok e₁ ∧
      EventPayload.unmarshalBinary sampleHashing (lamportRaw 1) = .ok e₂ ∧
      (∀ ser, e₁.toEventHeader.marshalBinary sampleHashing ≠ .ok ser) ∧
      e₁.hashToSign = sampleHashing.sha256 [] ∧ e₂.hashToSign = sampleHashing.sha256 [] ∧
      e₁.parents ≠ e₂.parents := by
  have hw : ∀ t, ¬ (lamportEvent t).toEventHeader.Writable := by
    intro t h
    exact absurd (h _ (List.mem_singleton.mpr rfl)) (by decide : ¬ (0xffffffff : UInt32) ≤ 0)
  refine ⟨_, _, unmarshalBinary_of_not_writable (unmarshalBinary_lamportRaw (Or.inl rfl)) (hw 0),
    unmarshalBinary_of_not_writable (unmarshalBinary_lamportRaw (Or.inr rfl)) (hw 1), ?_,
    rfl, rfl, by decide⟩
  exact fun ser hser => hw 0 (EventHeader.writable_of_marshalBinary hser)

end Zilionixx
