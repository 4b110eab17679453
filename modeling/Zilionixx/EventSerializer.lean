import Zilionixx.Event

/-!
# The event serializer is lawful

The field-by-field laws of `utils/cser` put together for event headers
(`lawful_fields`) and event payloads (`reads_payload`, `inverts_payload`).

For both there are two predicates. `Encodable` is what the decoder can return:
counts and lengths that fit their fields, parents of the event's epoch.
`Writable` is what the encoder does not refuse: no parent with a lamport above
the event's, a transaction hash exactly when there are transactions, no legacy
transaction with a gas limit that fits one byte. The decoder does not check the
second kind, and these are the missing checks marked in its program.
-/

namespace Zilionixx

open Codec

variable {H : Hashing} {made : MissingCheck → Bool}

namespace EventHeader

/-- The headers that fit the format. -/
structure Encodable (e : EventHeader) : Prop where
  parentsNum : e.parents.length < 2 ^ 32
  parentsEpoch : ∀ p ∈ e.parents, p.epoch = e.epoch
  extra : e.extra.length < 2 ^ 56

/-- The headers the encoder does not refuse. -/
def Writable (e : EventHeader) : Prop := ∀ p ∈ e.parents, p.lamport ≤ e.lamport

instance (e : EventHeader) : Decidable e.Writable :=
  inferInstanceAs (Decidable (∀ p ∈ e.parents, p.lamport ≤ e.lamport))

/-! ## Parents -/

theorem lawful_parent (epoch lamport : UInt32) :
    Lawful (unmarshalParent epoch lamport) (marshalParent lamport) (fun p => p.epoch = epoch)
      fun p => p.lamport ≤ lamport := by
  have hfields : Lawful (unmarshalParent epoch lamport) (fun p : EventID => do
      Writer.u32 (lamport - p.lamport)
      Writer.fixedBytes p.tail) (fun p => p.epoch = epoch) Any := by
    unfold unmarshalParent
    refine lawful_u32.bind (fun p : EventID => lamport - p.lamport) (fun _ _ => trivial)
      (fun _ _ _ => trivial) fun diff _ => ?_
    refine (lawful_fixedBytes 24).map (fun h => EventID.mk epoch (lamport - diff) h)
      EventID.tail (fun _ _ => trivial) ?_ ?_
    · rintro p ⟨rfl, rfl⟩
      refine ⟨trivial, ?_⟩
      rw [show lamport - (lamport - p.lamport) = p.lamport by grind]
    · exact fun h _ => ⟨⟨rfl, show lamport - (lamport - diff) = diff by grind⟩, rfl⟩
  refine hfields.guard (fun p _ hp => ⟨trivial, hp⟩) ?_ ?_
  · intro p hp
    rw [marshalParent, if_neg (UInt32.not_lt.mpr hp)]
  · intro p hp
    rw [marshalParent, if_pos (UInt32.not_le.mp hp), Encoder.emit_fail]

/-! ## Header -/

/-- Inversion of the transaction hash: the optional field is what is written. -/
theorem parse_txHash {h : Hash} {s s' : Streams}
    (hs : (unmarshalTxHash H).parse made s = some (h, s')) :
    (Reader.optional 32).parse made s = some (writtenTxHash H h, s') := by
  obtain ⟨o, s₁, ho, hs⟩ := Decoder.parse_bind_eq_some hs
  rcases o with _ | h'
  · obtain ⟨rfl, rfl⟩ := Decoder.parse_pure_eq_some hs
    rwa [writtenTxHash, if_pos rfl]
  · simp only at hs
    split at hs
    · cases hs
    · rename_i hne
      obtain ⟨rfl, rfl⟩ := Decoder.parse_pure_eq_some hs
      rwa [writtenTxHash, if_neg hne]

theorem lawful_txHash :
    Lawful (unmarshalTxHash H) (fun h => Writer.optional (writtenTxHash H h)) Any Any where
  emits h _ _ := (lawful_optional 32).emits _ trivial trivial
  reads h _ := by
    refine ((lawful_optional 32).reads _ trivial).map fun s => ?_
    by_cases hempty : h = H.emptyTxHash
    · rw [writtenTxHash, if_pos hempty, hempty]
      rfl
    · rw [writtenTxHash, if_neg hempty]
      simp only [if_neg hempty]
      rfl
  range _ _ _ _ _ := trivial
  inverts s h s' hs _ := (lawful_optional 32).inverts _ _ _ (parse_txHash hs) trivial
  shrinks made s h s' hs := (lawful_optional 32).shrinks _ _ _ _ (parse_txHash hs)

/-- **Headers are lawful.** -/
theorem lawful_fields :
    Lawful (unmarshalFields H) (marshalCSER H) Encodable Writable := by
  unfold unmarshalFields marshalCSER
  refine lawful_u32.bind epoch (fun _ _ => trivial) (fun _ _ _ => trivial) fun epoch' _ => ?_
  refine lawful_u32.bind lamport (fun _ _ => trivial) (fun _ _ _ => trivial) fun lamport' _ => ?_
  refine lawful_u32.bind creator (fun _ _ => trivial) (fun _ _ _ => trivial) fun creator' _ => ?_
  refine lawful_u32.bind seq (fun _ _ => trivial) (fun _ _ _ => trivial) fun seq' _ => ?_
  refine lawful_u32.bind frame (fun _ _ => trivial) (fun _ _ _ => trivial) fun frame' _ => ?_
  refine lawful_u64.bind creationTime (fun _ _ => trivial) (fun _ _ _ => trivial) fun time' _ => ?_
  refine lawful_i64.bind medianTimeDiff (fun _ _ => trivial) (fun _ _ _ => trivial) fun diff' _ =>
    ?_
  refine lawful_u64.bind gasPowerUsed (fun _ _ => trivial) (fun _ _ _ => trivial) fun used' _ => ?_
  refine lawful_u64.bind (fun e : EventHeader => e.gasPowerLeft.gas 0) (fun _ _ => trivial)
    (fun _ _ _ => trivial) fun left0' _ => ?_
  refine lawful_u64.bind (fun e : EventHeader => e.gasPowerLeft.gas 1) (fun _ _ => trivial)
    (fun _ _ _ => trivial) fun left1' _ => ?_
  refine lawful_u32.bind (fun e : EventHeader => UInt32.ofNat e.parents.length)
    (fun _ _ => trivial) (fun _ _ _ => trivial) fun num' _ => ?_
  refine ((lawful_parent epoch' lamport').list num'.toNat).bindOn parents ?_ ?_ ?_
    fun parents' hparents => ?_
  · -- the encoder takes the lamport from the event itself
    intro e he
    rw [← he.1.1.1.1.1.1.1.1.1.2]
  · intro e he
    obtain ⟨⟨⟨⟨⟨⟨⟨⟨⟨⟨⟨hok, rfl⟩, -⟩, -⟩, -⟩, -⟩, -⟩, -⟩, -⟩, -⟩, -⟩, rfl⟩ := he
    exact ⟨(UInt32.toNat_ofNat_of_lt' hok.parentsNum).symm, hok.parentsEpoch⟩
  · intro e he hwritable
    rw [← he.1.1.1.1.1.1.1.1.1.2]
    exact hwritable
  refine (lawful_optional 32).bind prevEpochHash (fun _ _ => trivial) (fun _ _ _ => trivial)
    fun prev' _ => ?_
  refine lawful_txHash.bind txHash (fun _ _ => trivial) (fun _ _ _ => trivial) fun txHash' _ => ?_
  refine lawful_sliceBytes.map
    (fun extra' => EventHeader.mk epoch' lamport' creator' seq' frame' time'
      (time'.toInt64 - diff').toUInt64 used' ⟨![left0', left1']⟩ parents' prev' txHash' extra')
    extra (fun _ _ => trivial) ?_ ?_
  · rintro e ⟨⟨⟨⟨⟨⟨⟨⟨⟨⟨⟨⟨⟨⟨hok, rfl⟩, rfl⟩, rfl⟩, rfl⟩, rfl⟩, rfl⟩, rfl⟩, rfl⟩, rfl⟩, rfl⟩,
      rfl⟩, rfl⟩, rfl⟩, rfl⟩
    refine ⟨hok.extra, ?_⟩
    have htime : (e.creationTime.toInt64 - e.medianTimeDiff).toUInt64 = e.medianTime := by
      rw [medianTimeDiff, show e.creationTime.toInt64 -
        (e.creationTime.toInt64 - e.medianTime.toInt64) = e.medianTime.toInt64 by grind]
      simp
    have hleft : (⟨![e.gasPowerLeft.gas 0, e.gasPowerLeft.gas 1]⟩ : GasPowerLeft) =
        e.gasPowerLeft := by
      congr 1
      funext i
      fin_cases i <;> rfl
    rw [htime, hleft]
  · intro extra' hextra
    have hdiff : time'.toInt64 - (time'.toInt64 - diff').toUInt64.toInt64 = diff' := by
      have hcancel : time'.toInt64 - (time'.toInt64 - diff') = diff' := by grind
      simpa using hcancel
    have hlen : UInt32.ofNat parents'.length = num' := by
      rw [hparents.1, UInt32.ofNat_toNat]
    have hnum : parents'.length < 2 ^ 32 := by
      rw [hparents.1]
      exact num'.toNat_lt
    exact ⟨⟨⟨⟨⟨⟨⟨⟨⟨⟨⟨⟨⟨⟨⟨⟨hnum, hparents.2, hextra⟩, rfl⟩, rfl⟩, rfl⟩, rfl⟩, rfl⟩, rfl⟩, hdiff⟩,
      rfl⟩,
      rfl⟩, rfl⟩, hlen⟩, rfl⟩, rfl⟩, rfl⟩, rfl⟩

variable {e : EventHeader}

/-- The encoder refuses exactly the parents with a higher lamport. -/
theorem writable_of_emit {out : Streams} (h : (e.marshalCSER H).emit = some ((), out)) :
    e.Writable := by
  iterate 11 obtain ⟨⟨⟩, _, _, -, h, -⟩ := Encoder.emit_bind_eq_some h
  obtain ⟨⟨⟩, _, _, h, -, -⟩ := Encoder.emit_bind_eq_some h
  intro p hp
  obtain ⟨o, ho⟩ := Encoder.exists_emit_of_mem h p hp
  rw [marshalParent] at ho
  split at ho
  · cases ho
  · exact UInt32.not_lt.mp ‹_›

theorem all_lamport_iff (e : EventHeader) :
    (e.parents.all fun p => p.lamport ≤ e.lamport) = true ↔ e.Writable := by
  rw [List.all_eq_true, Writable]
  simp only [decide_eq_true_eq]

/-- Reading a header: the fields, and the check on lamports if it is made. -/
theorem parse_header {s s' : Streams} :
    (unmarshalCSER H).parse made s = some (e, s') ↔
      (unmarshalFields H).parse made s = some (e, s') ∧
        (made .lamportDiff = true → e.Writable) := by
  rw [unmarshalCSER, Decoder.parse_marked, all_lamport_iff]

/-- Apart from the mark of the header itself, no mark is about lamports. -/
theorem marksIn_fields : (unmarshalFields H).MarksIn (· ≠ MissingCheck.lamportDiff) := by
  have hzero : MissingCheck.zeroWidth ≠ .lamportDiff := by decide
  have hrange : MissingCheck.i64Range ≠ .lamportDiff := by decide
  have hparent : ∀ epoch lamport,
      (unmarshalParent epoch lamport).MarksIn (· ≠ MissingCheck.lamportDiff) :=
    fun _ _ => (marksIn_u32 hzero).bind fun _ => (marksIn_fixedBytes 24).bind fun _ => trivial
  have htxHash : (unmarshalTxHash H).MarksIn (· ≠ MissingCheck.lamportDiff) := by
    refine (marksIn_optional 32).bind fun txHash => ?_
    cases txHash with
    | none => trivial
    | some txHash =>
      dsimp only
      split <;> trivial
  exact (marksIn_u32 hzero).bind fun epoch => (marksIn_u32 hzero).bind fun lamport =>
    (marksIn_u32 hzero).bind fun _ => (marksIn_u32 hzero).bind fun _ =>
    (marksIn_u32 hzero).bind fun _ => (marksIn_u64 hzero).bind fun _ =>
    (marksIn_i64 hzero hrange).bind fun _ => (marksIn_u64 hzero).bind fun _ =>
    (marksIn_u64 hzero).bind fun _ => (marksIn_u64 hzero).bind fun _ =>
    (marksIn_u32 hzero).bind fun num => ((hparent epoch lamport).times num.toNat).bind fun _ =>
    (marksIn_optional 32).bind fun _ => htxHash.bind fun _ =>
    (marksIn_sliceBytes hzero).bind fun _ => trivial

theorem lawful_header :
    Lawful (unmarshalCSER H) (marshalCSER H) Encodable Writable :=
  lawful_fields.marked fun e _ hout => e.all_lamport_iff.mpr (writable_of_emit hout)

theorem sized_header (e : EventHeader) : (e.marshalCSER H).Sized := by
  have hparent : ∀ p, (marshalParent e.lamport p).Sized := by
    intro p
    rw [marshalParent]
    split
    · trivial
    · exact (sized_u32 _).seq (sized_fixedBytes _)
  exact (sized_u32 _).seq <| (sized_u32 _).seq <| (sized_u32 _).seq <| (sized_u32 _).seq <|
    (sized_u32 _).seq <| (sized_u64 _).seq <| (sized_i64 _).seq <| (sized_u64 _).seq <|
    (sized_u64 _).seq <| (sized_u64 _).seq <| (sized_u32 _).seq <|
    (Encoder.Sized.forEach hparent _).seq <| (sized_optional _).seq <| (sized_optional _).seq <|
    sized_sliceBytes _

theorem noPanic_header (hextra : e.extra.length < 2 ^ 56) :
    (e.marshalCSER H).NoPanic := by
  have hparent : ∀ p, (marshalParent e.lamport p).NoPanic := by
    intro p
    rw [marshalParent]
    split
    · trivial
    · exact (noPanic_writeU64Bits ..).bind fun _ => trivial
  exact (noPanic_writeU64Bits ..).bind fun _ => (noPanic_writeU64Bits ..).bind fun _ =>
    (noPanic_writeU64Bits ..).bind fun _ => (noPanic_writeU64Bits ..).bind fun _ =>
    (noPanic_writeU64Bits ..).bind fun _ => (noPanic_writeU64Bits ..).bind fun _ =>
    (noPanic_i64 _).bind fun _ => (noPanic_writeU64Bits ..).bind fun _ =>
    (noPanic_writeU64Bits ..).bind fun _ => (noPanic_writeU64Bits ..).bind fun _ =>
    (noPanic_writeU64Bits ..).bind fun _ => (Encoder.NoPanic.forEach hparent _).bind fun _ =>
    (noPanic_optional _).bind fun _ => (noPanic_optional _).bind fun _ =>
    noPanic_sliceBytes hextra

/-- A header that is not refused is written, however many parents it has: a
count that does not fit its field is cut off, not rejected. -/
theorem emitsWithin_header (hw : e.Writable) (hextra : e.extra.length < 2 ^ 56) :
    (e.marshalCSER H).EmitsWithin (144 + e.parents.length * 28 + e.extra.length) := by
  have hparents : (Encoder.forEach (marshalParent e.lamport) e.parents).EmitsWithin
      (e.parents.length * 28) := by
    refine Encoder.EmitsWithin.forEach fun p hp => ?_
    rw [marshalParent, if_neg (UInt32.not_lt.mpr (hw p hp))]
    exact (emitsWithin_u32 _).seq (emitsWithin_fixedBytes _)
  have hfields :=
    (emitsWithin_u32 e.epoch).seq <| (emitsWithin_u32 e.lamport).seq <|
    (emitsWithin_u32 e.creator).seq <| (emitsWithin_u32 e.seq).seq <|
    (emitsWithin_u32 e.frame).seq <| (emitsWithin_u64 e.creationTime).seq <|
    (emitsWithin_i64 e.medianTimeDiff).seq <| (emitsWithin_u64 e.gasPowerUsed).seq <|
    (emitsWithin_u64 (e.gasPowerLeft.gas 0)).seq <| (emitsWithin_u64 (e.gasPowerLeft.gas 1)).seq <|
    (emitsWithin_u32 (UInt32.ofNat e.parents.length)).seq <| hparents.seq <|
    (emitsWithin_optional e.prevEpochHash).seq <|
    (emitsWithin_optional (writtenTxHash H e.txHash)).seq <| emitsWithin_sliceBytes hextra
  refine Encoder.EmitsWithin.mono hfields ?_
  omega

end EventHeader

namespace MutableEventPayload

/-- The payloads that fit the format. -/
structure Encodable (H : Hashing) (e : MutableEventPayload) : Prop where
  header : e.toEventHeader.Encodable
  txsNum : e.txs.length < 2 ^ 56
  txs : ∀ tx ∈ e.txs, tx.Encodable
  noTxs : e.noTxs H = true → e.txs = []

/-- The payloads the encoder does not refuse. -/
structure Writable (H : Hashing) (e : MutableEventPayload) : Prop where
  header : e.toEventHeader.Writable
  txs : ∀ tx ∈ e.txs, tx.Writable
  hasTxs : e.txs = [] → e.noTxs H = true

/-- The list of transactions: written only if the header says there are some. -/
theorem lawful_txs (e : EventHeader) :
    Lawful (unmarshalTxs H e)
      (fun txs => if e.noTxs H then pure () else do
        Writer.u56 txs.length
        Encoder.forEach transactionMarshalCSER txs)
      (fun txs => txs.length < 2 ^ 56 ∧ (∀ tx ∈ txs, tx.Encodable) ∧
        (e.noTxs H = true → txs = []))
      fun txs => ∀ tx ∈ txs, tx.Writable := by
  unfold unmarshalTxs
  by_cases hno : e.noTxs H = true
  · simp only [hno, if_true, forall_const]
    exact Lawful.const ⟨by decide, by simp, rfl⟩ fun txs h => h.2.2
  · simp only [hno, Bool.false_eq_true, if_false, false_implies, and_true]
    refine lawful_u56.bind List.length (fun txs h => h.1) (fun _ _ _ => trivial) fun size hsize =>
      ?_
    refine (lawful_transaction.list size).of_iff fun txs => ⟨?_, ?_⟩
    · rintro ⟨rfl, htxs⟩
      exact ⟨⟨hsize, htxs⟩, rfl⟩
    · rintro ⟨⟨-, htxs⟩, hlen⟩
      exact ⟨hlen, htxs⟩

/-- The fields of a payload without the check of `MarshalCSER` for a transaction
hash that does not match the list. -/
theorem lawful_fields :
    Lawful (unmarshalFields H)
      (fun e => do
        e.toEventHeader.marshalCSER H
        Writer.fixedBytes e.sig
        e.marshalTxs H)
      (Encodable H) fun e => e.toEventHeader.Writable ∧ ∀ tx ∈ e.txs, tx.Writable := by
  unfold unmarshalFields
  refine EventHeader.lawful_header.bind toEventHeader (fun e he => he.header)
    (fun e _ hE => hE.1) fun header hheader => ?_
  refine (lawful_fixedBytes 64).bind sig (fun _ _ => trivial) (fun _ _ _ => trivial)
    fun sig' _ => ?_
  refine ((lawful_txs header).map (fun txs' => MutableEventPayload.mk header sig' txs')
    txs (fun e hE => hE.2) ?_ ?_).congr ?_
  · rintro e ⟨⟨hok, rfl⟩, rfl⟩
    exact ⟨⟨hok.txsNum, hok.txs, hok.noTxs⟩, rfl⟩
  · rintro txs' ⟨hnum, htxs, hno⟩
    exact ⟨⟨⟨⟨hheader, hnum, htxs, hno⟩, rfl⟩, rfl⟩, rfl⟩
  · rintro e ⟨⟨hok, rfl⟩, rfl⟩
    rfl

/-- The hash and the list agree on whether there are transactions. -/
def HashMatches (H : Hashing) (e : MutableEventPayload) : Prop :=
  e.noTxs H = true ↔ e.txs = []

theorem hashMatches_iff (e : MutableEventPayload) :
    e.HashMatches H ↔ e.noTxs H = (e.txs.length == 0) := by
  rw [Bool.eq_iff_iff, beq_iff_eq, List.length_eq_zero_iff, HashMatches]

variable {e : MutableEventPayload}

theorem emit_eq_none_of_not_hashMatches (h : ¬ e.HashMatches H) :
    (e.marshalCSER H).emit = none := by
  rw [hashMatches_iff] at h
  rw [marshalCSER, if_pos h, Encoder.emit_fail]

/-- **Payloads are lawful.** -/
theorem lawful_payload :
    Lawful (unmarshalCSER H) (marshalCSER H) (Encodable H) (Writable H) := by
  have hguarded : Lawful (unmarshalFields H) (marshalCSER H) (Encodable H) (Writable H) := by
    refine lawful_fields.guard (G := HashMatches H) ?_ ?_ fun e => emit_eq_none_of_not_hashMatches
    · exact fun e he hE => ⟨⟨hE.header, hE.txs⟩, he.noTxs, hE.hasTxs⟩
    · intro e he
      rw [hashMatches_iff] at he
      rw [marshalCSER, if_neg (not_not.mpr he)]
  refine hguarded.marked ?_
  intro e out hout
  by_cases hmatch : e.HashMatches H
  · by_cases hno : e.noTxs H = true
    · rw [hno, Bool.true_or]
    · have hne : e.txs ≠ [] := fun hnil => hno (hmatch.mpr hnil)
      rw [Bool.or_eq_true, Bool.not_eq_true', List.isEmpty_eq_false_iff]
      exact Or.inr hne
  · rw [emit_eq_none_of_not_hashMatches hmatch] at hout
    cases hout

/-- Inversion of `UnmarshalCSER`: the header, the signature, the transactions. -/
theorem parse_payload {s s' : Streams} :
    (unmarshalCSER H).parse made s = some (e, s') ↔
      (∃ s₁ s₂, (EventHeader.unmarshalCSER H).parse made s = some (e.toEventHeader, s₁) ∧
        (Reader.fixedBytes 64).parse made s₁ = some (e.sig, s₂) ∧
        (unmarshalTxs H e.toEventHeader).parse made s₂ = some (e.txs, s')) ∧
      (made .txCount = true → e.txs = [] → e.noTxs H = true) := by
  have hcheck : (e.noTxs H || !e.txs.isEmpty) = true ↔ (e.txs = [] → e.noTxs H = true) := by
    rw [Bool.or_eq_true, Bool.not_eq_true', List.isEmpty_eq_false_iff]
    tauto
  rw [unmarshalCSER, Decoder.parse_marked, hcheck]
  refine and_congr_left fun _ => ⟨?_, ?_⟩
  · intro h
    obtain ⟨header, s₁, hheader, h⟩ := Decoder.parse_bind_eq_some h
    obtain ⟨sig, s₂, hsig, h⟩ := Decoder.parse_bind_eq_some h
    obtain ⟨txs, s₃, htxs, h⟩ := Decoder.parse_bind_eq_some h
    obtain ⟨rfl, rfl⟩ := Decoder.parse_pure_eq_some h
    exact ⟨s₁, s₂, hheader, hsig, htxs⟩
  · rintro ⟨s₁, s₂, hheader, hsig, htxs⟩
    exact Decoder.parse_bind_some hheader
      (Decoder.parse_bind_some hsig (Decoder.parse_bind_some htxs rfl))

theorem marksIn_txs (e : EventHeader) :
    (unmarshalTxs H e).MarksIn (· ≠ MissingCheck.lamportDiff) := by
  rw [unmarshalTxs]
  split
  · trivial
  · exact (marksIn_readU64Bits (by decide) 0 3).bind fun size =>
      (marksIn_transaction (by decide) (by decide) (by decide) (by decide)).times size

/-- The check on lamports is one about the header that was read. -/
theorem parse_onlyLamport {s s' : Streams} :
    (unmarshalCSER H).parse (· == .lamportDiff) s = some (e, s') ↔
      (unmarshalCSER H).parse Decoder.lax s = some (e, s') ∧ e.toEventHeader.Writable := by
  have hagree : ∀ c : MissingCheck, c ≠ .lamportDiff → (c == .lamportDiff) = Decoder.lax c :=
    fun c hc => beq_eq_false_iff_ne.mpr hc
  simp only [parse_payload, EventHeader.parse_header,
    Decoder.parse_congr hagree EventHeader.marksIn_fields,
    Decoder.parse_congr hagree (marksIn_fixedBytes 64),
    Decoder.parse_congr hagree (marksIn_txs e.toEventHeader), beq_self_eq_true, Decoder.lax]
  constructor
  · rintro ⟨⟨s₁, s₂, ⟨hheader, hw⟩, hsig, htxs⟩, -⟩
    exact ⟨⟨⟨s₁, s₂, ⟨hheader, nofun⟩, hsig, htxs⟩, nofun⟩, hw trivial⟩
  · rintro ⟨⟨⟨s₁, s₂, ⟨hheader, -⟩, hsig, htxs⟩, -⟩, hw⟩
    exact ⟨⟨s₁, s₂, ⟨hheader, fun _ => hw⟩, hsig, htxs⟩, nofun⟩

/-- With every check made, only what the encoder does not refuse is read. -/
theorem writable_of_parse_strict {s s' : Streams}
    (h : (unmarshalCSER H).parse Decoder.strict s = some (e, s')) : e.Writable H := by
  obtain ⟨⟨s₁, s₂, hheader, -, htxs⟩, hcount⟩ := parse_payload.mp h
  refine ⟨(EventHeader.parse_header.mp hheader).2 rfl, ?_, hcount rfl⟩
  rw [unmarshalTxs] at htxs
  split at htxs
  · rw [← (Decoder.parse_pure_eq_some htxs).1]
    simp
  · obtain ⟨size, s₃, -, htxs⟩ := Decoder.parse_bind_eq_some htxs
    exact (Decoder.parse_times_forall (fun _ _ _ => writable_of_parse rfl) htxs).2

/-- **Payloads have one form**, once the missing checks are made. -/
theorem inverts_payload : Inverts (unmarshalCSER H) (marshalCSER H) Any :=
  fun s e s' h _ => lawful_payload.inverts s e s' h (writable_of_parse_strict h)

theorem sized_payload (e : MutableEventPayload) : (e.marshalCSER H).Sized := by
  have htxs : (e.marshalTxs H).Sized := by
    rw [marshalTxs]
    split
    · exact Encoder.Sized.pure ()
    · exact (sized_u56 _).seq (Encoder.Sized.forEach sized_transaction _)
  rw [marshalCSER]
  split
  · trivial
  · exact (EventHeader.sized_header _).seq <| (sized_fixedBytes _).seq htxs

/-- The length of an event without transactions. -/
theorem emitsWithin_of_noTxs (hno : e.noTxs H = true) (hnil : e.txs = [])
    (hw : e.toEventHeader.Writable) (hextra : e.extra.length < 2 ^ 56) :
    (e.marshalCSER H).EmitsWithin (144 + e.parents.length * 28 + e.extra.length + (64 + 0)) := by
  have hmatch : ¬ e.noTxs H ≠ (e.txs.length == 0) := by rw [hno, hnil]; decide
  have htxs : (e.marshalTxs H).EmitsWithin 0 := by
    rw [marshalTxs, if_pos hno]
    exact Encoder.EmitsWithin.pure
  rw [marshalCSER, if_neg hmatch]
  exact (EventHeader.emitsWithin_header hw hextra).seq ((emitsWithin_fixedBytes _).seq htxs)

end MutableEventPayload

end Zilionixx
