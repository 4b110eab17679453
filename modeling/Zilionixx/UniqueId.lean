import Zilionixx.EventCodec

/-!
# `uniqueID`: the temporary IDs of candidate events

Before a candidate event is indexed it gets an ID of its own, from a counter. The bytes of the
counter are copied to the *start* of the 24 bytes of the ID, so that a number and the same
number with zero bytes appended give one ID: the first and the 256th sample are equal.
-/

namespace Zilionixx

open ByteNumber

/-- `uniqueID` -/
structure UniqueID where
  /-- the big integer, which starts at zero and is only added to -/
  counter : ℕ
  deriving DecidableEq

namespace UniqueID

/-- `uniqueID{new(big.Int)}`, as the service has it when it starts -/
def new : UniqueID := ⟨0⟩

/-- `sample` -/
def sample (u : UniqueID) : List.Vector UInt8 24 × UniqueID :=
  let counter := u.counter + 1
  (copyBytes 24 (toBE counter), ⟨counter⟩)

/-- What `n` calls of `sample` return. -/
def samples (u : UniqueID) : ℕ → List (List.Vector UInt8 24)
  | 0 => []
  | n + 1 => u.sample.1 :: u.sample.2.samples n

/-- The first line of `buildEvent`, `e.SetID(s.uniqueEventIDs.sample())`. -/
def setID (u : UniqueID) (e : EventHeader) : EventID × UniqueID :=
  (⟨e.epoch, e.lamport, u.sample.1⟩, u.sample.2)

/-- The IDs under which `buildEvent` indexes one candidate after the other. -/
def candidateIDs (u : UniqueID) : List EventHeader → List EventID
  | [] => []
  | e :: es => (u.setID e).1 :: (u.setID e).2.candidateIDs es

/-! ## What a call returns -/

@[simp] theorem length_samples (u : UniqueID) (n : ℕ) : (u.samples n).length = n := by
  induction n generalizing u with
  | zero => rfl
  | succ n ih => exact congrArg (· + 1) (ih _)

@[simp] theorem length_candidateIDs (u : UniqueID) (es : List EventHeader) :
    (u.candidateIDs es).length = es.length := by
  induction es generalizing u with
  | nil => rfl
  | cons e es ih => exact congrArg (· + 1) (ih _)

/-- The counter, shifted to the left. -/
theorem getElem?_samples (u : UniqueID) {n i : ℕ} (hi : i < n) :
    (u.samples n)[i]? = some (copyBytes 24 (toBE (u.counter + (i + 1)))) := by
  induction n generalizing u i with
  | zero => cases hi
  | succ n ih =>
    cases i with
    | zero => rfl
    | succ i =>
      rw [samples, List.getElem?_cons_succ, ih _ (Nat.lt_of_succ_lt_succ hi)]
      have hcounter : u.sample.2.counter + (i + 1) = u.counter + (i + 1 + 1) :=
        Nat.add_right_comm _ _ _
      rw [hcounter]

theorem getElem?_candidateIDs (u : UniqueID) {es : List EventHeader} {i : ℕ} {e : EventHeader}
    (hi : es[i]? = some e) :
    (u.candidateIDs es)[i]? =
      some ⟨e.epoch, e.lamport, copyBytes 24 (toBE (u.counter + (i + 1)))⟩ := by
  induction es generalizing u i with
  | nil => cases hi
  | cons e' es ih =>
    cases i with
    | zero =>
      obtain rfl : e' = e := Option.some.inj hi
      rfl
    | succ i =>
      rw [candidateIDs, List.getElem?_cons_succ, ih _ hi]
      have hcounter : (u.setID e').2.counter + (i + 1) = u.counter + (i + 1 + 1) :=
        Nat.add_right_comm _ _ _
      rw [hcounter]

end UniqueID

/-! ## Which calls collide -/

theorem toList_copyBytes_toBE {n v : ℕ} (h : v < 256 ^ n) :
    (copyBytes n (toBE v)).toList = toBE v ++ List.replicate (n - (toBE v).length) 0 := by
  have hlen : (toBE v).length ≤ n := by
    rw [length_toBE]
    exact length_toLE_le h
  have htake : (copyBytes n (toBE v)).toList = (toBE v ++ List.replicate n 0).take n := rfl
  rw [htake, List.take_append, List.take_of_length_le hlen, List.take_replicate,
    Nat.min_eq_left (Nat.sub_le _ _)]

/-- Two numbers have the same bytes at the start of an array if one is the other with zero
bytes appended. -/
theorem copyBytes_toBE_eq_iff {n a b : ℕ} (ha : 0 < a) (hab : a ≤ b) (hb : b < 256 ^ n) :
    copyBytes n (toBE a) = copyBytes n (toBE b) ↔ ∃ k, b = a * 256 ^ k := by
  have han : a < 256 ^ n := Nat.lt_of_le_of_lt hab hb
  have hlenb : (toBE b).length ≤ n := by
    rw [length_toBE]
    exact length_toLE_le hb
  constructor
  · intro h
    have hval := congrArg (fun v => ofBE v.toList) h
    rw [toList_copyBytes_toBE han, toList_copyBytes_toBE hb, ofBE_append_replicate_zero,
      ofBE_append_replicate_zero, ofBE_toBE, ofBE_toBE] at hval
    -- the larger number is not the shorter one
    have hlen : (toBE a).length ≤ (toBE b).length := by
      rw [length_toBE, length_toBE, toLE, toLE, List.length_map, List.length_map]
      exact Nat.le_length_digits_le 256 a b hab
    refine ⟨(toBE b).length - (toBE a).length, ?_⟩
    have hsplit : n - (toBE a).length =
        (toBE b).length - (toBE a).length + (n - (toBE b).length) := by
      omega
    rw [hsplit, Nat.pow_add, ← Nat.mul_assoc] at hval
    exact (Nat.eq_of_mul_eq_mul_right (Nat.pow_pos (by decide)) hval).symm
  · rintro ⟨k, rfl⟩
    apply List.Vector.eq
    rw [toBE_mul_pow ha, List.length_append, List.length_replicate] at hlenb
    rw [toList_copyBytes_toBE han, toList_copyBytes_toBE hb, toBE_mul_pow ha, List.append_assoc,
      List.replicate_append_replicate, List.length_append, List.length_replicate]
    congr 2
    omega

namespace UniqueID

variable {n i j : ℕ} {es : List EventHeader} {e e' : EventHeader}

/-- Two calls return the same bytes if the number of the later one is that of the earlier one
with zero bytes appended. -/
theorem getElem?_samples_eq_iff (hij : i < j) (hj : j < n) (hn : n < 2 ^ 192) :
    (new.samples n)[i]? = (new.samples n)[j]? ↔ ∃ k, j + 1 = (i + 1) * 256 ^ k := by
  rw [getElem?_samples _ (hij.trans hj), getElem?_samples _ hj, Option.some_inj, new, Nat.zero_add,
    Nat.zero_add]
  exact copyBytes_toBE_eq_iff (Nat.succ_pos i) (by omega) (by omega)

/-- When two temporary IDs are the same. -/
theorem getElem?_candidateIDs_eq_iff (hij : i < j) (hes : es.length < 2 ^ 192)
    (hi : es[i]? = some e) (hj : es[j]? = some e') :
    (new.candidateIDs es)[i]? = (new.candidateIDs es)[j]? ↔
      e.epoch = e'.epoch ∧ e.lamport = e'.lamport ∧ ∃ k, j + 1 = (i + 1) * 256 ^ k := by
  have hlt : j < es.length := (List.getElem?_eq_some_iff.mp hj).1
  rw [getElem?_candidateIDs _ hi, getElem?_candidateIDs _ hj, Option.some_inj, EventID.mk.injEq,
    new, Nat.zero_add, Nat.zero_add]
  rw [copyBytes_toBE_eq_iff (Nat.succ_pos i) (by omega) (by omega)]

theorem nodup_samples_iff (hn : n < 2 ^ 192) : (new.samples n).Nodup ↔ n < 256 := by
  rw [List.nodup_iff_getElem?_ne_getElem?, length_samples]
  constructor
  · -- the numbers 1 and 256
    intro h
    by_contra hge
    have hlt : 255 < n := by omega
    exact h 0 255 (by decide) hlt ((getElem?_samples_eq_iff (by decide) hlt hn).mpr ⟨1, rfl⟩)
  · intro hsmall i j hij hj heq
    obtain ⟨k, hk⟩ := (getElem?_samples_eq_iff hij hj hn).mp heq
    cases k with
    | zero => omega
    | succ k =>
      have hpow : 256 ≤ (i + 1) * 256 ^ (k + 1) := by
        rw [Nat.pow_succ, ← Nat.mul_assoc]
        exact Nat.le_mul_of_pos_left 256 (Nat.mul_pos (Nat.succ_pos i) (Nat.pow_pos (by decide)))
      omega

theorem nodup_candidateIDs_iff (hes : es.length < 2 ^ 192) :
    (new.candidateIDs es).Nodup ↔
      ∀ (i j : ℕ) (e e' : EventHeader), i < j → es[i]? = some e → es[j]? = some e' →
        e.epoch = e'.epoch → e.lamport = e'.lamport → ¬∃ k, j + 1 = (i + 1) * 256 ^ k := by
  rw [List.nodup_iff_getElem?_ne_getElem?, length_candidateIDs]
  constructor
  · intro h i j e e' hij hi hj hepoch hlamport hshift
    have hlt : j < es.length := (List.getElem?_eq_some_iff.mp hj).1
    exact h i j hij hlt
      ((getElem?_candidateIDs_eq_iff hij hes hi hj).mpr ⟨hepoch, hlamport, hshift⟩)
  · intro h i j hij hj heq
    have hi := List.getElem?_eq_getElem (hij.trans hj)
    have hj := List.getElem?_eq_getElem hj
    obtain ⟨hepoch, hlamport, hshift⟩ := (getElem?_candidateIDs_eq_iff hij hes hi hj).mp heq
    exact h i j _ _ hij hi hj hepoch hlamport hshift

/-- **When temporary IDs are unique.** The samples of one object are pairwise different as long
as there are fewer than 256 of them, and no longer. Candidates that `buildEvent` indexes one
after the other get different IDs if and only if no two of one epoch and lamport are such that
the number of the later call is that of the earlier one with zero bytes appended. -/
theorem temporaryIDs_nodup_iff (es : List EventHeader) (hes : es.length < 2 ^ 192) :
    ((new.samples es.length).Nodup ↔ es.length < 256) ∧
      ((new.candidateIDs es).Nodup ↔
        ∀ (i j : ℕ) (e e' : EventHeader), i < j → es[i]? = some e → es[j]? = some e' →
          e.epoch = e'.epoch → e.lamport = e'.lamport → ¬∃ k, j + 1 = (i + 1) * 256 ^ k) :=
  ⟨nodup_samples_iff hes, nodup_candidateIDs_iff hes⟩

/-- With 255 candidates of one epoch and lamport. -/
theorem temporaryIDs_nodup_iff_sampleEvent :
    (new.samples (List.replicate 255 sampleEvent.toEventHeader).length).Nodup ∧
      (new.candidateIDs (List.replicate 255 sampleEvent.toEventHeader)).Nodup := by
  have hlen : (List.replicate 255 sampleEvent.toEventHeader).length = 255 := List.length_replicate
  have hlt : (List.replicate 255 sampleEvent.toEventHeader).length < 2 ^ 192 := by
    rw [hlen]
    decide
  obtain ⟨hsamples, hcandidates⟩ := temporaryIDs_nodup_iff _ hlt
  refine ⟨hsamples.mpr (by rw [hlen]; decide), hcandidates.mpr ?_⟩
  rintro i j e e' hij - hj - - ⟨k, hk⟩
  have hj := hlen ▸ (List.getElem?_eq_some_iff.mp hj).1
  cases k with
  | zero => omega
  | succ k =>
    have hone : 1 ≤ (i + 1) * 256 ^ k := Nat.mul_pos (Nat.succ_pos i) (Nat.pow_pos (by decide))
    rw [Nat.pow_succ, ← Nat.mul_assoc] at hk
    omega

/-- Candidates of one epoch and lamport, that differ in their sequence numbers. -/
def sampleCandidates : List EventHeader :=
  (List.range 256).map fun seq => { sampleEvent.toEventHeader with seq := UInt32.ofNat seq }

theorem getElem?_sampleCandidates (hi : i < 256) :
    sampleCandidates[i]? = some { sampleEvent.toEventHeader with seq := UInt32.ofNat i } := by
  rw [sampleCandidates, List.getElem?_map, List.getElem?_range hi]
  rfl

theorem nodup_sampleCandidates : sampleCandidates.Nodup := by
  refine List.nodup_range.map_on ?_
  intro i hi j hj heq
  rw [List.mem_range] at hi hj
  have hseq : (UInt32.ofNat i).toNat = (UInt32.ofNat j).toNat := congrArg (UInt32.toNat ·.seq) heq
  have hsize : 256 < UInt32.size := by decide
  rwa [UInt32.toNat_ofNat_of_lt' (hi.trans hsize),
    UInt32.toNat_ofNat_of_lt' (hj.trans hsize)] at hseq

/-- The first and the 256th of these candidates get the same ID. -/
theorem temporaryIDs_not_nodup :
    sampleCandidates.length < 2 ^ 192 ∧ sampleCandidates.Nodup ∧
      (new.samples sampleCandidates.length)[0]? = some (copyBytes 24 [1]) ∧
      (new.samples sampleCandidates.length)[255]? = some (copyBytes 24 [1]) ∧
      (new.candidateIDs sampleCandidates)[0]? = some ⟨3, 7, copyBytes 24 [1]⟩ ∧
      (new.candidateIDs sampleCandidates)[255]? = some ⟨3, 7, copyBytes 24 [1]⟩ := by
  have hlen : sampleCandidates.length = 256 := by simp [sampleCandidates]
  have hfirst : copyBytes 24 (toBE (new.counter + (0 + 1))) = copyBytes 24 [1] := by decide
  have hlast : copyBytes 24 (toBE (new.counter + (255 + 1))) = copyBytes 24 [1] := by decide
  rw [hlen, getElem?_samples new (by decide), getElem?_samples new (by decide),
    getElem?_candidateIDs new (getElem?_sampleCandidates (by decide)),
    getElem?_candidateIDs new (getElem?_sampleCandidates (by decide))]
  rw [hfirst, hlast]
  exact ⟨by decide, nodup_sampleCandidates, rfl, rfl, rfl, rfl⟩

end UniqueID

end Zilionixx
