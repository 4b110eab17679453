import Zilionixx.BlockCallbacks

/-!
# `spillBlockEvents`: the events that stay in a block

The loop of `spillBlockEvents` goes from the last event of a block to the first and
stops when the gas of the events exceeds `MaxBlockGas`. It is modelled here with the
index and the two slices of the source. What stays is the longest suffix that fits:
gas only grows towards the front, so the first suffix that does not fit ends the search.
-/

/-! ## The longest suffix with a property -/

/-- No suffix of a list with the property is longer. -/
structure LongestSuffix {α : Type*} (P : List α → Prop) (l s : List α) : Prop where
  suffix : s <:+ l
  holds : P s
  longest : ∀ s', s' <:+ l → P s' → s'.length ≤ s.length

namespace LongestSuffix

variable {α : Type*} {P : List α → Prop} {l s : List α}

theorem self (h : P l) : LongestSuffix P l l :=
  ⟨List.suffix_rfl, h, fun _ hsuffix _ => hsuffix.length_le⟩

/-- If suffixes inherit the property, the first one that lacks it ends the search. -/
theorem of_cons (hinherit : ∀ s s', s' <:+ s → P s → P s') {a : α} (hs : P s) (ha : ¬P (a :: s))
    (pre : List α) : LongestSuffix P (pre ++ a :: s) s where
  suffix := (List.suffix_cons a s).trans (List.suffix_append pre _)
  holds := hs
  longest := by
    intro s' hsuffix hs'
    by_contra hlonger
    have hcons : a :: s <:+ s' := by
      refine List.suffix_of_suffix_length_le (List.suffix_append pre _) hsuffix ?_
      rw [List.length_cons]
      omega
    exact ha (hinherit s' _ hcons hs')

end LongestSuffix

namespace Zilionixx

variable (getEventPayload : EventID → Option EventPayload) (maxBlockGas : UInt64)

/-! ## The loop with its index -/

/-- The body of the loop at an index: the event and the payloads with it, and the new sum;
`none` is an index out of range or an event that is not found. -/
def readEventAt (events : List EventID) (i : ℕ) (gasPowerUsedSum : UInt64)
    (fullEvents : List (Option EventPayload)) : Option (List (Option EventPayload) × UInt64) := do
  let id ← events[i]?
  let e ← getEventPayload id
  pure (fullEvents.set i (some e), gasPowerUsedSum + e.gasPowerUsed)

/-- The loop from an index on. A payload that has not been read is nil (`none`). -/
def spillFrom (events : List EventID) (i : ℕ) (gasPowerUsedSum : UInt64)
    (fullEvents : List (Option EventPayload)) :
    Option (List EventID × List (Option EventPayload)) := do
  let (fullEvents, gasPowerUsedSum) ← readEventAt getEventPayload events i
    gasPowerUsedSum fullEvents
  -- stop if limit is exceeded, erase [:i] events
  if gasPowerUsedSum > maxBlockGas then
    pure (events.drop (i + 1), fullEvents.drop (i + 1))
  else match i with
    | 0 => pure (events, fullEvents)
    | i + 1 => spillFrom events i gasPowerUsedSum fullEvents

/-- `spillBlockEvents` with its slices: the events of the block, and their payloads. -/
def spillSlices (events : List EventID) (network : Rules) :
    Option (List EventID × List (Option EventPayload)) :=
  let fullEvents := List.replicate events.length none
  if events.length = 0 then some (events, fullEvents)
  else spillFrom getEventPayload network.blocks.maxBlockGas events (events.length - 1) 0 fullEvents

variable {getEventPayload} {maxBlockGas}

/-- Pairs of events and payloads as two slices. -/
def slices (kept : List (EventID × EventPayload)) : List EventID × List (Option EventPayload) :=
  (kept.map Prod.fst, kept.map fun x => some x.2)

theorem readEventAt_eq (getEventPayload : EventID → Option EventPayload) (ids : List EventID)
    (id : EventID) (gasPowerUsedSum : UInt64) (kept : List (EventID × EventPayload)) :
    readEventAt getEventPayload (ids ++ id :: (slices kept).1) ids.length gasPowerUsedSum
        (List.replicate (ids.length + 1) none ++ (slices kept).2) =
      (getEventPayload id).map fun e =>
        (List.replicate ids.length none ++ (slices ((id, e) :: kept)).2,
          gasPowerUsedSum + e.gasPowerUsed) := by
  have hid : (ids ++ id :: (slices kept).1)[ids.length]? = some id := by simp
  have hset : ∀ e : EventPayload,
      (List.replicate (ids.length + 1) none ++ (slices kept).2).set ids.length (some e) =
        List.replicate ids.length none ++ (slices ((id, e) :: kept)).2 := by
    intro e
    rw [List.replicate_succ', List.append_assoc, List.set_append_right _ _ (by simp)]
    simp [slices]
  simp only [readEventAt, hid, Option.bind_eq_bind, Option.bind_some, hset]
  cases getEventPayload id <;> rfl

theorem drop_slices (front : List EventID) (id : EventID) (e : EventPayload)
    (kept : List (EventID × EventPayload)) :
    ((front ++ id :: (slices kept).1).drop (front.length + 1),
      (List.replicate front.length none ++ (slices ((id, e) :: kept)).2).drop (front.length + 1)) =
        slices kept := by
  simp [slices, List.drop_append, List.drop_eq_nil_of_le]

/-- The loop with the index does what the loop over the reversed events does. -/
theorem spillFrom_eq (getEventPayload : EventID → Option EventPayload) (maxBlockGas : UInt64)
    (ids : List EventID) (id : EventID) (gasPowerUsedSum : UInt64)
    (kept : List (EventID × EventPayload)) :
    spillFrom getEventPayload maxBlockGas (ids.reverse ++ id :: (slices kept).1) ids.length
        gasPowerUsedSum (List.replicate (ids.length + 1) none ++ (slices kept).2) =
      (spillLoop getEventPayload maxBlockGas (id :: ids) gasPowerUsedSum kept).map slices := by
  induction ids generalizing id gasPowerUsedSum kept with
  | nil =>
    rw [spillFrom, spillLoop, List.reverse_nil,
      readEventAt_eq getEventPayload [] id gasPowerUsedSum kept]
    cases getEventPayload id with
    | none => rfl
    | some e =>
      by_cases hexceeds : gasPowerUsedSum + e.gasPowerUsed > maxBlockGas
      · simp [hexceeds, slices]
      · simp [hexceeds, slices, spillLoop]
  | cons id' ids ih =>
    have hread := readEventAt_eq getEventPayload (id' :: ids).reverse id gasPowerUsedSum kept
    rw [List.length_reverse] at hread
    rw [spillFrom, spillLoop, hread]
    cases getEventPayload id with
    | none => rfl
    | some e =>
      have hdrop := drop_slices (id' :: ids).reverse id e kept
      rw [List.length_reverse] at hdrop
      have hrest := ih id' (gasPowerUsedSum + e.gasPowerUsed) ((id, e) :: kept)
      by_cases hexceeds : gasPowerUsedSum + e.gasPowerUsed > maxBlockGas
      · simp only [Option.map_some, Option.bind_eq_bind, Option.bind_some, if_pos hexceeds, hdrop]
        rfl
      · simp only [Option.map_some, Option.bind_eq_bind, Option.bind_some, if_neg hexceeds]
        rw [← hrest, List.reverse_cons, List.append_assoc]
        rfl

/-- The slices hold the events that `EndBlock` executes. -/
theorem spillSlices_eq (events : List EventID) (network : Rules) :
    spillSlices getEventPayload events network =
      (spillBlockEvents getEventPayload events network).map slices := by
  unfold spillSlices spillBlockEvents
  cases hevents : events.reverse with
  | nil =>
    obtain rfl := List.reverse_eq_nil_iff.mp hevents
    rfl
  | cons id ids =>
    obtain rfl : events = ids.reverse ++ [id] := by
      rw [← List.reverse_reverse events, hevents, List.reverse_cons]
    have hloop := spillFrom_eq getEventPayload network.blocks.maxBlockGas ids id 0 []
    simpa [slices] using hloop

/-! ## What stays -/

/-- The gas that some events use. -/
def gasPowerUsedBy (getEventPayload : EventID → Option EventPayload) (ids : List EventID) : ℕ :=
  (ids.map fun id => (getEventPayload id).elim 0 fun e => e.gasPowerUsed.toNat).sum

/-- Events with at most the gas of a block. -/
def FitsBlock (getEventPayload : EventID → Option EventPayload) (maxBlockGas : UInt64)
    (ids : List EventID) : Prop :=
  gasPowerUsedBy getEventPayload ids ≤ maxBlockGas.toNat

theorem gasPowerUsedBy_cons {id : EventID} {e : EventPayload} (h : getEventPayload id = some e)
    (ids : List EventID) :
    gasPowerUsedBy getEventPayload (id :: ids) =
      e.gasPowerUsed.toNat + gasPowerUsedBy getEventPayload ids := by
  simp [gasPowerUsedBy, h]

theorem FitsBlock.of_suffix (ids ids' : List EventID) (hsuffix : ids' <:+ ids)
    (h : FitsBlock getEventPayload maxBlockGas ids) :
    FitsBlock getEventPayload maxBlockGas ids' := by
  obtain ⟨pre, rfl⟩ := hsuffix
  unfold FitsBlock gasPowerUsedBy at *
  rw [List.map_append, List.sum_append] at h
  omega

/-- The sum does not wrap: it is at most 2 ^ 63 before an event is added. -/
theorem toNat_gasPowerUsedSum_add {sum gas : UInt64} (hsum : sum ≤ maxBlockGas)
    (hmax : maxBlockGas.toNat ≤ 2 ^ 63) (hgas : gas.toNat < 2 ^ 63) :
    (sum + gas).toNat = sum.toNat + gas.toNat := by
  have := UInt64.le_iff_toNat_le.mp hsum
  rw [UInt64.toNat_add, Nat.mod_eq_of_lt (by omega)]

/-- The loop, when the events of `kept` fit and those in `ids` are still to be read. -/
theorem spillLoop_longest (hmax : maxBlockGas.toNat ≤ 2 ^ 63) (ids : List EventID)
    (hstored : ∀ id ∈ ids, ∃ e, getEventPayload id = some e ∧ e.gasPowerUsed.toNat < 2 ^ 63)
    (sum : UInt64) (kept : List (EventID × EventPayload))
    (hkept : ∀ x ∈ kept, getEventPayload x.1 = some x.2)
    (hsum : sum.toNat = gasPowerUsedBy getEventPayload (kept.map Prod.fst))
    (hfits : sum ≤ maxBlockGas) :
    ∃ kept', spillLoop getEventPayload maxBlockGas ids sum kept = some kept' ∧
      (∀ x ∈ kept', getEventPayload x.1 = some x.2) ∧
      LongestSuffix (FitsBlock getEventPayload maxBlockGas) (ids.reverse ++ kept.map Prod.fst)
        (kept'.map Prod.fst) := by
  induction ids generalizing sum kept with
  | nil =>
    refine ⟨kept, rfl, hkept, LongestSuffix.self ?_⟩
    have := UInt64.le_iff_toNat_le.mp hfits
    rwa [hsum] at this
  | cons id ids ih =>
    obtain ⟨⟨e, he, hgas⟩, hstored⟩ := List.forall_mem_cons.mp hstored
    have hadd := toNat_gasPowerUsedSum_add hfits hmax hgas
    have hsum' : (sum + e.gasPowerUsed).toNat =
        gasPowerUsedBy getEventPayload (id :: kept.map Prod.fst) := by
      rw [hadd, gasPowerUsedBy_cons he, hsum, Nat.add_comm]
    rw [spillLoop, he, List.reverse_cons, List.append_assoc]
    by_cases hexceeds : sum + e.gasPowerUsed > maxBlockGas
    · refine ⟨kept, if_pos hexceeds, hkept, LongestSuffix.of_cons FitsBlock.of_suffix ?_ ?_ _⟩
      · have := UInt64.le_iff_toNat_le.mp hfits
        rwa [hsum] at this
      · have := UInt64.lt_iff_toNat_lt.mp hexceeds
        rw [hsum'] at this
        exact Nat.not_le.mpr this
    · obtain ⟨kept', hrun, hkept', hlongest⟩ := ih hstored _ ((id, e) :: kept)
        (List.forall_mem_cons.mpr ⟨he, hkept⟩) hsum' (UInt64.not_lt.mp hexceeds)
      exact ⟨kept', (if_neg hexceeds).trans hrun, hkept', hlongest⟩

/-- **Spilling keeps the longest suffix that fits.** If the events are stored and each uses
less than 2 ^ 63 gas, and `MaxBlockGas` is at most that, then `spillBlockEvents` returns
the longest suffix of the events whose gas is at most `MaxBlockGas`, with the payload of
each event, none of which is nil. -/
theorem spill_keeps_longest_suffix (getEventPayload : EventID → Option EventPayload)
    (events : List EventID) (network : Rules)
    (hstored : ∀ id ∈ events, ∃ e, getEventPayload id = some e ∧ e.gasPowerUsed.toNat < 2 ^ 63)
    (hmax : network.blocks.maxBlockGas.toNat ≤ 2 ^ 63) :
    ∃ kept payloads, spillSlices getEventPayload events network = some (kept, payloads.map some) ∧
      LongestSuffix (FitsBlock getEventPayload network.blocks.maxBlockGas) events kept ∧
      payloads.length = kept.length ∧
      kept.map getEventPayload = payloads.map some ∧
      spillBlockEvents getEventPayload events network = some (kept.zip payloads) := by
  obtain ⟨kept, hrun, hkept, hlongest⟩ := spillLoop_longest hmax events.reverse
    (fun id hmem => hstored id (List.mem_reverse.mp hmem)) 0 [] (List.forall_mem_nil _) rfl
    UInt64.zero_le
  rw [List.reverse_reverse, List.map_nil, List.append_nil] at hlongest
  refine ⟨kept.map Prod.fst, kept.map Prod.snd, ?_, hlongest, by simp, ?_, ?_⟩
  · rw [spillSlices_eq, spillBlockEvents, hrun]
    simp [slices]
  · rw [List.map_map, List.map_map]
    exact List.map_congr_left hkept
  · rw [spillBlockEvents, hrun, List.zip_map', List.map_id']

/-- Events that use as much gas as their Lamport time says. -/
def lamportGas (id : EventID) : Option EventPayload :=
  some ({ sampleEvent with gasPowerUsed := id.lamport.toUInt64 }.build (copyBytes 32 []) 0)

/-- The ID of an event with a Lamport time. -/
def lamportID (lamport : UInt32) : EventID := { EventID.zero with lamport := lamport }

/-- Of the events that use 1, 2 and 3 gas, the last two fit into a block with 5 gas. -/
theorem spill_keeps_longest_suffix_three :
    LongestSuffix (FitsBlock lamportGas 5) [lamportID 1, lamportID 2, lamportID 3]
      [lamportID 2, lamportID 3] := by
  have hstored : ∀ id ∈ [lamportID 1, lamportID 2, lamportID 3],
      ∃ e, lamportGas id = some e ∧ e.gasPowerUsed.toNat < 2 ^ 63 := by
    intro id _
    refine ⟨_, rfl, ?_⟩
    have hlt : id.lamport.toUInt64.toNat < 2 ^ 63 := by
      rw [UInt32.toNat_toUInt64]
      have := id.lamport.toNat_lt
      omega
    exact hlt
  let network := { mainNetRules with blocks := { mainNetRules.blocks with maxBlockGas := 5 } }
  have hrun :
      (spillSlices lamportGas [lamportID 1, lamportID 2, lamportID 3] network).map Prod.fst =
      some [lamportID 2, lamportID 3] := by
    decide +kernel
  obtain ⟨kept, payloads, hkept, hlongest, -⟩ :=
    spill_keeps_longest_suffix lamportGas _ network hstored (by decide)
  rw [hkept] at hrun
  exact Option.some.inj hrun ▸ hlongest

end Zilionixx
