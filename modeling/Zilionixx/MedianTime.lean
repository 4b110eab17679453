import Zilionixx.VectorDag
import Zilionixx.WeightedMedian

/-!
# `vecmt.MedianTime`

`median_time.go`: the weighted median of the times of the highest observed events. Cheaters
stay in the list, with no weight. The sort is not stable, and is a parameter here; the
vector comes from the engine of `zilion-base`.

The weights are compared with half of the honest weight, rounded down. If that is zero, the
first entry of the list is taken, and this may be that of a cheater.
-/

namespace Zilionixx.Vecmt

open WeightedMedian

/-- `medianTimeIndex` -/
structure MedianTimeIndex where
  weight : UInt32
  creationTime : Timestamp
  deriving DecidableEq

/-- How `MedianTime` fails. -/
inductive MedianFault where
  /-- `crit`: "event=%s not found" -/
  | notFound
  /-- an index out of range -/
  | panic
  /-- `crit`: "median wasn't calculated correctly" -/
  | wrongMedian
  deriving DecidableEq

/-- `sort.Slice` by the creation time: some sorted permutation. -/
structure Sorts (sortSlice : List MedianTimeIndex → List MedianTimeIndex) : Prop where
  perm : ∀ highests, (sortSlice highests).Perm highests
  sorted : ∀ highests, (sortSlice highests).Pairwise fun a b => a.creationTime ≤ b.creationTime

variable {F : Vecfc} {sortSlice : List MedianTimeIndex → List MedianTimeIndex}
  {highests : List MedianTimeIndex}

/-- The body of the first loop, for the validator at an index. -/
def medianTimeIndex (vv : Validators) (before : HighestBefore F) (defaultTime : Timestamp)
    (x : ValidatorID × ℕ) : Option MedianTimeIndex := do
  let creatorIdx := UInt32.ofNat x.2
  let creationTime ← before.vTime.get creatorIdx
  let highest : MedianTimeIndex := ⟨vv.get x.1, creationTime⟩
  let seq := F.get before.vSeq creatorIdx
  -- cheaters don't influence medianTime
  if F.isForkDetected seq then pure { highest with weight := 0 }
  -- if no event was observed from this node, then use genesisTime
  else if seq.seq = 0 then pure { highest with creationTime := defaultTime }
  else pure highest

/-- The loop that calculates the median: `currWeight` and `median` after it. -/
def calculateMedian (halfWeight : UInt32) : UInt32 → List MedianTimeIndex → UInt32 × Timestamp
  | currWeight, [] => (currWeight, 0)
  | currWeight, highest :: highests =>
    if currWeight + highest.weight ≥ halfWeight then
      (currWeight + highest.weight, highest.creationTime)
    else calculateMedian halfWeight (currWeight + highest.weight) highests

/-- `honestTotalWeight`, which is added up in the first loop. -/
def honestTotalWeight (highests : List MedianTimeIndex) : UInt32 :=
  highests.foldl (fun weight highest => weight + highest.weight) 0

/-- `MedianTime`, when the list of the validators is made. -/
def medianOf (sortSlice : List MedianTimeIndex → List MedianTimeIndex)
    (highests : List MedianTimeIndex) : Except MedianFault Timestamp :=
  -- calculate weighted median
  let halfWeight := honestTotalWeight highests / 2
  let median := calculateMedian halfWeight 0 (sortSlice highests)
  -- sanity check
  if median.1 < halfWeight ∨ median.1 > honestTotalWeight highests then .error .wrongMedian
  else .ok median.2

/-- `MedianTime`; `before` is what `GetMergedHighestBefore` returns for the event. -/
def medianTime (sortSlice : List MedianTimeIndex → List MedianTimeIndex) (vv : Validators)
    (before : Option (HighestBefore F)) (defaultTime : Timestamp) : Except MedianFault Timestamp :=
  match before with
  | none => .error .notFound
  | some before =>
    match vv.sortedIDs.zipIdx.mapM (medianTimeIndex vv before defaultTime) with
    | none => .error .panic
    | some highests => medianOf sortSlice highests

/-! ## What it computes -/

/-- The weight and the time of an entry, as numbers. -/
def weightOf (highest : MedianTimeIndex) : ℕ := highest.weight.toNat

/-- The time of an entry, as a number. -/
def timeOf (highest : MedianTimeIndex) : ℕ := highest.creationTime.toNat

theorem Sorts.pairwise (h : Sorts sortSlice) (highests : List MedianTimeIndex) :
    (sortSlice highests).Pairwise (timeOf · ≤ timeOf ·) :=
  (h.sorted highests).imp UInt64.le_iff_toNat_le.mp

theorem toNat_foldl_weight {start : UInt32} (h : start.toNat + total weightOf highests < 2 ^ 32) :
    (highests.foldl (fun weight highest => weight + highest.weight) start).toNat =
      start.toNat + total weightOf highests := by
  induction highests generalizing start with
  | nil => rfl
  | cons x xs ih =>
    rw [total_cons] at h
    have hadd : (start + x.weight).toNat = start.toNat + weightOf x := by
      rw [UInt32.toNat_add]
      exact Nat.mod_eq_of_lt (by rw [weightOf] at h; omega)
    rw [List.foldl_cons, ih (by omega), hadd, total_cons]
    omega

/-- The loop picks an entry, unless there is none. -/
theorem calculateMedian_eq (halfWeight : UInt32) {currWeight : UInt32}
    (h : currWeight.toNat + total weightOf highests < 2 ^ 32) :
    (∃ x, pick weightOf halfWeight.toNat currWeight.toNat highests = some x ∧
      (calculateMedian halfWeight currWeight highests).2 = x.creationTime ∧
      halfWeight ≤ (calculateMedian halfWeight currWeight highests).1 ∧
      (calculateMedian halfWeight currWeight highests).1.toNat ≤
        currWeight.toNat + total weightOf highests) ∨
    (pick weightOf halfWeight.toNat currWeight.toNat highests = none ∧
      (calculateMedian halfWeight currWeight highests).2 = 0 ∧
      (calculateMedian halfWeight currWeight highests).1.toNat =
        currWeight.toNat + total weightOf highests) := by
  induction highests generalizing currWeight with
  | nil => exact .inr ⟨rfl, rfl, rfl⟩
  | cons x xs ih =>
    rw [total_cons] at h ⊢
    have hadd : (currWeight + x.weight).toNat = currWeight.toNat + weightOf x := by
      rw [UInt32.toNat_add]
      exact Nat.mod_eq_of_lt (by rw [weightOf] at h; omega)
    have hiff : currWeight + x.weight ≥ halfWeight ↔
        halfWeight.toNat ≤ currWeight.toNat + weightOf x := by
      rw [ge_iff_le, UInt32.le_iff_toNat_le, hadd]
    rw [calculateMedian, pick]
    by_cases hreached : currWeight + x.weight ≥ halfWeight
    · rw [if_pos hreached, if_pos (hiff.mp hreached)]
      exact .inl ⟨x, rfl, rfl, hreached, by rw [hadd]; omega⟩
    · rw [if_neg hreached, if_neg fun h => hreached (hiff.mpr h), ← hadd]
      rw [← Nat.add_assoc, ← hadd]
      exact ih (by omega)

theorem toNat_honestTotalWeight (h : total weightOf highests < 2 ^ 32) :
    (honestTotalWeight highests).toNat = total weightOf highests := by
  have hzero : (0 : UInt32).toNat + total weightOf highests = total weightOf highests :=
    Nat.zero_add _
  rw [honestTotalWeight, toNat_foldl_weight (by rwa [hzero]), hzero]

/-- The median of entries whose weights do not overflow: an entry is picked, if there is
any, and the sanity check passes. -/
theorem medianOf_eq (hsort : Sorts sortSlice) (h : total weightOf highests < 2 ^ 32) :
    (highests = [] ∧ medianOf sortSlice highests = .ok 0) ∨
    ∃ x, medianOf sortSlice highests = .ok x.creationTime ∧
      pick weightOf (total weightOf highests / 2) 0 (sortSlice highests) = some x := by
  have hzero : (0 : UInt32).toNat = 0 := rfl
  have htotal := toNat_honestTotalWeight h
  have hhalf : (honestTotalWeight highests / 2).toNat = total weightOf highests / 2 := by
    rw [UInt32.toNat_div, htotal]
    rfl
  have hsorted : total weightOf (sortSlice highests) = total weightOf highests :=
    total_perm (hsort.perm highests)
  have hfits : (0 : UInt32).toNat + total weightOf (sortSlice highests) < 2 ^ 32 := by omega
  have hle : (honestTotalWeight highests / 2).toNat ≤
      (0 : UInt32).toNat + total weightOf (sortSlice highests) := by omega
  unfold medianOf
  rcases calculateMedian_eq (honestTotalWeight highests / 2) hfits with
    ⟨x, hpick, hmedian, hreached, hbelow⟩ | ⟨hpick, hmedian, hcurr⟩
  · refine .inr ⟨x, ?_, by rwa [hhalf, hzero] at hpick⟩
    rw [if_neg, hmedian]
    rw [not_or, UInt32.not_lt, gt_iff_lt, UInt32.not_lt]
    exact ⟨hreached, UInt32.le_iff_toNat_le.mpr (by omega)⟩
  · have hempty : sortSlice highests = [] := by
      by_contra hne
      obtain ⟨x, hx⟩ := exists_pick hne hle
      rw [hpick] at hx
      cases hx
    obtain rfl : highests = [] := List.Perm.eq_nil (hempty ▸ (hsort.perm highests).symm)
    rw [hempty]
    exact .inl ⟨rfl, rfl⟩

/-! ## The entries of the validators -/

/-- The validator at an index is marked as a cheater. -/
def isCheaterAt (before : HighestBefore F) (i : ℕ) : Bool :=
  F.isForkDetected (F.get before.vSeq (UInt32.ofNat i))

/-- `GetWeightByIdx`, and nothing for cheaters. -/
def honestWeight (vv : Validators) (before : HighestBefore F) (i : ℕ) : UInt32 :=
  if isCheaterAt before i then 0 else (vv.sortedIDs[i]?.map vv.get).getD 0

/-- The time of a validator: that of its highest observed event, or the default. -/
def claimedTime (before : HighestBefore F) (defaultTime : Timestamp) (i : ℕ) : Timestamp :=
  if ¬isCheaterAt before i ∧ (F.get before.vSeq (UInt32.ofNat i)).seq = 0 then defaultTime
  else (before.vTime.get (UInt32.ofNat i)).getD 0

/-- All the entries. -/
def entries (vv : Validators) (before : HighestBefore F) (defaultTime : Timestamp) :
    List MedianTimeIndex :=
  (List.range vv.len).map fun i => ⟨honestWeight vv before i, claimedTime before defaultTime i⟩

/-- The times of the first validators can be read: the offsets fit, or the vector ends
before they do not. -/
def Readable (vv : Validators) (before : HighestBefore F) : Prop :=
  vv.len < 2 ^ 29 ∨ before.vTime.size.toNat < 2 ^ 29

theorem Readable.isSome_get {vv : Validators} {before : HighestBefore F} (h : Readable vv before)
    {i : ℕ} (hi : i < vv.len) : (before.vTime.get (UInt32.ofNat i)).isSome := by
  have hle : (UInt32.ofNat i).toNat ≤ i := by
    rw [UInt32.toNat_ofNat']
    exact Nat.mod_le ..
  rw [← UInt32.ofNat_toNat (x := UInt32.ofNat i), HighestBeforeTime.get]
  split
  · rfl
  · rename_i hsize
    rw [UInt32.ofNat_toNat, ge_iff_le, UInt32.not_le, UInt32.lt_iff_toNat_lt] at hsize
    generalize (UInt32.ofNat i).toNat = j at hle hsize ⊢
    have hsize' : before.vTime.size.toNat ≤ before.vTime.bytes.length / 8 := by
      rw [HighestBeforeTime.size, UInt32.toNat_ofNat']
      exact Nat.mod_le ..
    have hfits : j + 1 < 2 ^ 29 := by
      rcases h with hlen | hend
      · omega
      · omega
    have hbounds : before.vTime.InBounds (UInt32.ofNat j * 8) ((UInt32.ofNat j + 1) * 8) := by
      rw [HighestBeforeTime.InBounds, UInt32.le_iff_toNat_le,
        HighestBeforeTime.toNat_offset (by omega), HighestBeforeTime.toNat_end hfits]
      omega
    rw [if_pos hbounds]
    rfl

theorem mapM_eq_some_map {α β : Type} {f : α → Option β} {g : α → β} {xs : List α}
    (h : ∀ x ∈ xs, f x = some (g x)) : xs.mapM f = some (xs.map g) := by
  induction xs with
  | nil => rfl
  | cons x xs ih =>
    obtain ⟨hx, hxs⟩ := List.forall_mem_cons.mp h
    rw [List.mapM_cons, hx, ih hxs]
    rfl

theorem mapM_eq_none {α β : Type} {f : α → Option β} {xs : List α} {x : α} (hx : x ∈ xs)
    (h : f x = none) : xs.mapM f = none := by
  induction xs with
  | nil => cases hx
  | cons y xs ih =>
    rw [List.mapM_cons]
    rcases List.mem_cons.mp hx with rfl | hx
    · rw [h]
      rfl
    · rw [ih hx]
      cases f y with
      | none => rfl
      | some _ => rfl

theorem mapM_medianTimeIndex {vv : Validators} {before : HighestBefore F} (h : Readable vv before)
    (defaultTime : Timestamp) :
    vv.sortedIDs.zipIdx.mapM (medianTimeIndex vv before defaultTime) =
      some (entries vv before defaultTime) := by
  have hentry : ∀ x ∈ vv.sortedIDs.zipIdx, medianTimeIndex vv before defaultTime x =
      some ⟨honestWeight vv before x.2, claimedTime before defaultTime x.2⟩ := by
    rintro ⟨id, i⟩ hx
    have hid := List.mem_zipIdx_iff_getElem?.mp hx
    have hlt := (List.getElem?_eq_some_iff.mp hid).1
    obtain ⟨time, htime⟩ := Option.isSome_iff_exists.mp (h.isSome_get hlt)
    simp only [medianTimeIndex, honestWeight, claimedTime, isCheaterAt, htime, hid]
    split
    · simp [*]
    · split
      · simp [*]
      · simp [*]
  have hindexes := List.zipIdx_map_snd 0 vv.sortedIDs
  rw [mapM_eq_some_map hentry, entries, List.range_eq_range']
  change _ = some ((List.range' 0 vv.sortedIDs.length).map _)
  rw [← hindexes, List.map_map]
  rfl

/-! ## The median of the validators -/

/-- The weight of the validators that are no cheaters. -/
def honestTotal (vv : Validators) (before : HighestBefore F) : ℕ :=
  ∑ i ∈ Finset.range vv.len, (honestWeight vv before i).toNat

/-- The weight of those among them whose times are not after `t`. -/
def honestUpTo (vv : Validators) (before : HighestBefore F) (defaultTime t : Timestamp) : ℕ :=
  ∑ i ∈ Finset.range vv.len with claimedTime before defaultTime i ≤ t,
    (honestWeight vv before i).toNat

/-- The least time of a validator up to which there is half of the honest weight. -/
structure IsMedian (vv : Validators) (before : HighestBefore F)
    (defaultTime t : Timestamp) : Prop where
  occurs : ∃ i < vv.len, claimedTime before defaultTime i = t
  reached : honestTotal vv before / 2 ≤ honestUpTo vv before defaultTime t
  least : ∀ i < vv.len, honestTotal vv before / 2 ≤
    honestUpTo vv before defaultTime (claimedTime before defaultTime i) →
      t ≤ claimedTime before defaultTime i

variable {vv : Validators} {before : HighestBefore F} {defaultTime : Timestamp}

theorem total_entries : total weightOf (entries vv before defaultTime) = honestTotal vv before := by
  rw [total, entries, List.map_map]
  rfl

theorem upTo_entries (t : Timestamp) :
    upTo timeOf weightOf (entries vv before defaultTime) t.toNat =
      honestUpTo vv before defaultTime t := by
  have hle : (fun i => decide (claimedTime before defaultTime i ≤ t)) = fun i =>
      decide ((claimedTime before defaultTime i).toNat ≤ t.toNat) :=
    funext fun i => decide_eq_decide.mpr UInt64.le_iff_toNat_le
  rw [upTo, total, entries, List.filter_map, List.map_map]
  change (((List.range vv.len).filter fun i =>
    decide ((claimedTime before defaultTime i).toNat ≤ t.toNat)).map _).sum = _
  rw [← hle]
  rfl

/-- The weights of all the validators. -/
def weightSum (vv : Validators) : ℕ := (vv.sortedIDs.map fun id => (vv.get id).toNat).sum

theorem honestTotal_le : honestTotal vv before ≤ weightSum vv := by
  have hweights : weightSum vv =
      ∑ i ∈ Finset.range vv.len, ((vv.sortedIDs[i]?.map vv.get).getD 0).toNat := by
    refine congrArg List.sum (List.ext_getElem (by simp [Validators.len]) fun i hi _ => ?_)
    rw [List.length_map] at hi
    simp [hi]
  rw [hweights]
  refine Finset.sum_le_sum fun i _ => ?_
  rw [honestWeight]
  split
  · exact Nat.zero_le _
  · exact Nat.le_refl _

/-- Where the median is picked. -/
theorem exists_pick_entries (hsort : Sorts sortSlice) (hsum : weightSum vv < 2 ^ 32)
    (hne : vv.len ≠ 0) (hread : Readable vv before) (defaultTime : Timestamp) :
    ∃ x, medianTime sortSlice vv (some before) defaultTime = .ok x.creationTime ∧
      pick weightOf (honestTotal vv before / 2) 0 (sortSlice (entries vv before defaultTime)) =
        some x := by
  have htotal : total weightOf (entries vv before defaultTime) < 2 ^ 32 := by
    rw [total_entries]
    exact honestTotal_le.trans_lt hsum
  simp only [medianTime, mapM_medianTimeIndex hread]
  rcases medianOf_eq hsort htotal with ⟨hempty, -⟩ | ⟨x, hmedian, hpick⟩
  · have hlength := congrArg List.length hempty
    rw [entries, List.length_map, List.length_range] at hlength
    exact absurd hlength hne
  · rw [total_entries] at hpick
    exact ⟨x, hmedian, hpick⟩

/-- What is picked is the median. -/
theorem isMedian_of_pick (hsort : Sorts sortSlice) {x : MedianTimeIndex}
    (h : pick weightOf (honestTotal vv before / 2) 0 (sortSlice (entries vv before defaultTime)) =
      some x) : IsMedian vv before defaultTime x.creationTime := by
  have hleast := isLeast_of_pick (hsort.pairwise _) h
  rw [reaching_perm (hsort.perm _)] at hleast
  obtain ⟨⟨⟨y, hy, htime⟩, hreached⟩, hleast⟩ := hleast
  obtain ⟨i, hi, rfl⟩ := List.mem_map.mp hy
  refine ⟨⟨i, List.mem_range.mp hi, UInt64.toNat_inj.mp htime⟩, ?_, fun j hj hreached => ?_⟩
  · rw [← upTo_entries]
    exact hreached
  · rw [← upTo_entries] at hreached
    exact UInt64.le_iff_toNat_le.mpr
      (hleast ⟨⟨_, List.mem_map.mpr ⟨j, List.mem_range.mpr hj, rfl⟩, rfl⟩, hreached⟩)

theorem IsMedian.eq {t t' : Timestamp} (h : IsMedian vv before defaultTime t)
    (h' : IsMedian vv before defaultTime t') : t = t' := by
  obtain ⟨i, hi, rfl⟩ := h.occurs
  obtain ⟨j, hj, rfl⟩ := h'.occurs
  exact UInt64.le_antisymm (h.least j hj h'.reached) (h'.least i hi h.reached)

/-- The end of the last time is not an offset. -/
theorem HighestBeforeTime.get_last {b : HighestBeforeTime} (h : 2 ^ 29 ≤ b.size.toNat) :
    b.get (UInt32.ofNat (2 ^ 29 - 1)) = none := by
  have hsize : ¬UInt32.ofNat (2 ^ 29 - 1) ≥ b.size := by
    rw [ge_iff_le, UInt32.not_le, UInt32.lt_iff_toNat_lt]
    exact h
  rw [get, if_neg hsize, if_neg fun hbounds => absurd hbounds.1 (by decide)]

theorem medianTime_of_not_readable (sortSlice : List MedianTimeIndex → List MedianTimeIndex)
    (h : ¬Readable vv before) :
    medianTime sortSlice vv (some before) defaultTime = .error .panic := by
  obtain ⟨hlen, hsize⟩ := not_or.mp h
  rw [not_lt] at hlen hsize
  have hlt : 2 ^ 29 - 1 < vv.sortedIDs.length := by
    rw [Validators.len] at hlen
    omega
  have hmem : (vv.sortedIDs[2 ^ 29 - 1], 2 ^ 29 - 1) ∈ vv.sortedIDs.zipIdx :=
    List.mem_zipIdx_iff_getElem?.mpr (List.getElem?_eq_getElem hlt)
  have hnone :
      medianTimeIndex vv before defaultTime (vv.sortedIDs[2 ^ 29 - 1], 2 ^ 29 - 1) = none := by
    rw [medianTimeIndex, HighestBeforeTime.get_last hsize]
    rfl
  simp only [medianTime, mapM_eq_none hmem hnone]

theorem medianTime_of_len_eq_zero (sortSlice : List MedianTimeIndex → List MedianTimeIndex)
    (hsort : Sorts sortSlice) (h : vv.len = 0) :
    medianTime sortSlice vv (some before) defaultTime = .ok 0 := by
  have hread : Readable vv before := .inl (by rw [h]; decide)
  have hentries : entries vv before defaultTime = [] := by rw [entries, h]; rfl
  simp only [medianTime, mapM_medianTimeIndex hread, hentries]
  rw [medianOf, List.Perm.eq_nil (hsort.perm [])]
  rfl

/-- **Weighted median.** The sanity check never fails, and the order in which the sort leaves
equal times does not matter. If there are validators and their times can be read, the result
is the least of their times up to which there is half of the honest weight. -/
theorem medianTime_correct (F : Vecfc) (sortSlice : List MedianTimeIndex → List MedianTimeIndex)
    (hsort : Sorts sortSlice) (vv : Validators) (hsum : weightSum vv < 2 ^ 32)
    (before : HighestBefore F) (defaultTime : Timestamp) :
    medianTime sortSlice vv (some before) defaultTime ≠ .error .wrongMedian ∧
      (∀ sortSlice', Sorts sortSlice' → medianTime sortSlice' vv (some before) defaultTime =
        medianTime sortSlice vv (some before) defaultTime) ∧
      (vv.len ≠ 0 → Readable vv before →
        ∃ t, medianTime sortSlice vv (some before) defaultTime = .ok t ∧
          IsMedian vv before defaultTime t) := by
  by_cases hread : Readable vv before
  · by_cases hlen : vv.len = 0
    · rw [medianTime_of_len_eq_zero sortSlice hsort hlen]
      refine ⟨by simp, fun sortSlice' hsort' => ?_, fun hne => absurd hlen hne⟩
      exact medianTime_of_len_eq_zero sortSlice' hsort' hlen
    · obtain ⟨x, hx, hpick⟩ := exists_pick_entries hsort hsum hlen hread defaultTime
      have hmedian := isMedian_of_pick hsort hpick
      rw [hx]
      refine ⟨by simp, fun sortSlice' hsort' => ?_, fun _ _ => ⟨_, rfl, hmedian⟩⟩
      obtain ⟨y, hy, hpick'⟩ := exists_pick_entries hsort' hsum hlen hread defaultTime
      rw [hy, (isMedian_of_pick hsort' hpick').eq hmedian]
  · rw [medianTime_of_not_readable sortSlice hread]
    refine ⟨by simp, fun sortSlice' _ => medianTime_of_not_readable sortSlice' hread, ?_⟩
    exact fun _ h => absurd h hread

/-- Insertion sort, for examples. -/
def sortByTime (highests : List MedianTimeIndex) : List MedianTimeIndex :=
  highests.insertionSort fun a b => a.creationTime ≤ b.creationTime

theorem sortByTime_sorts : Sorts sortByTime where
  perm highests := List.perm_insertionSort _ highests
  sorted highests := by
    have htotal : Std.Total fun a b : MedianTimeIndex => a.creationTime ≤ b.creationTime :=
      ⟨fun _ _ => UInt64.le_total _ _⟩
    have htrans : IsTrans MedianTimeIndex fun a b => a.creationTime ≤ b.creationTime :=
      ⟨fun _ _ _ => UInt64.le_trans⟩
    exact List.pairwise_insertionSort _ highests

/-- A vector of two validators: the first one has been observed at time 100, and the second
one is a cheater with time 10. -/
def forkedBefore : HighestBefore sampleVecfc where
  vSeq i := if i = 0 then ⟨1, 1⟩ else ⟨0, 1⟩
  vTime := ⟨[100, 0, 0, 0, 0, 0, 0, 0, 10, 0, 0, 0, 0, 0, 0, 0]⟩

/-- The cheater does not count if the first validator has weight 4. -/
theorem medianTime_correct_forkedBefore :
    ∃ t,
      medianTime sortByTime (.ofWeights [(1, 4), (2, 5)] (by decide)) (some forkedBefore) 7 =
        .ok t ∧
      t = 100 ∧ IsMedian (.ofWeights [(1, 4), (2, 5)] (by decide)) forkedBefore 7 t := by
  obtain ⟨-, -, hmedian⟩ := medianTime_correct sampleVecfc sortByTime sortByTime_sorts
    (.ofWeights [(1, 4), (2, 5)] (by decide)) (by decide) forkedBefore 7
  obtain ⟨t, ht, hmedian⟩ := hmedian (by decide) (.inl (by decide))
  have hrun : medianTime sortByTime (.ofWeights [(1, 4), (2, 5)] (by decide))
    (some forkedBefore) 7 =
      .ok 100 := by
    decide +kernel
  cases ht.symm.trans hrun
  exact ⟨100, hrun, rfl, hmedian⟩

theorem weightSum_firstValidators {n : ℕ} (h : n < 2 ^ 32) :
    weightSum (firstValidators n h) ≤ n := by
  have hle : ∀ w ∈ (firstValidators n h).sortedIDs.map fun id =>
    ((firstValidators n h).get id).toNat,
      w ≤ 1 := by
    intro w hw
    obtain ⟨id, -, rfl⟩ := List.mem_map.mp hw
    simp only [firstValidators]
    split
    · exact Nat.le_refl 1
    · exact Nat.zero_le 1
  have hsum := List.sum_le_card_nsmul _ 1 hle
  rw [List.length_map, smul_eq_mul, Nat.mul_one] at hsum
  exact hsum.trans (Nat.le_of_eq (len_firstValidators h))

/-- A vector with `2 ^ 29` times. -/
def longBefore (vSeq : F.HighestBeforeSeq) : HighestBefore F := ⟨vSeq, ⟨List.replicate (2 ^ 32) 0⟩⟩

theorem not_readable_longBefore (h : ¬vv.len < 2 ^ 29) (vSeq : F.HighestBeforeSeq) :
    ¬Readable vv (longBefore vSeq) := by
  rw [Readable, longBefore, HighestBeforeTime.size, List.length_replicate, not_or]
  exact ⟨h, by decide⟩

/-- With `2 ^ 29` validators and a vector of as many times there is a panic; and without
validators the result is 0, which is nobody's time. -/
theorem medianTime_fails :
    (∃ (vv : Validators) (before : HighestBefore sampleVecfc), weightSum vv < 2 ^ 32 ∧
      ∀ sortSlice defaultTime, medianTime sortSlice vv (some before) defaultTime = .error .panic) ∧
    ∃ (vv : Validators) (before : HighestBefore sampleVecfc), weightSum vv < 2 ^ 32 ∧
      ∀ sortSlice, Sorts sortSlice → medianTime sortSlice vv (some before) 7 = .ok 0 ∧
        ∀ t, ¬IsMedian vv before 7 t := by
  have hfits : 2 ^ 29 < 2 ^ 32 := by decide
  have hcrowded : ¬(firstValidators (2 ^ 29) hfits).len < 2 ^ 29 := by
    rw [len_firstValidators]
    exact Nat.lt_irrefl _
  refine ⟨⟨firstValidators (2 ^ 29) hfits, longBefore forkedBefore.vSeq, ?_, ?_⟩,
    .ofWeights [] List.nodup_nil, forkedBefore, by decide, ?_⟩
  · exact (weightSum_firstValidators hfits).trans_lt hfits
  · intro sortSlice defaultTime
    exact medianTime_of_not_readable sortSlice (not_readable_longBefore hcrowded _)
  · intro sortSlice hsort
    refine ⟨medianTime_of_len_eq_zero sortSlice hsort rfl, fun t h => ?_⟩
    obtain ⟨i, hi, -⟩ := h.occurs
    exact absurd hi (Nat.not_lt_zero i)

/-! ## Cheaters -/

/-- Vectors with the same sequence entries. -/
def SameSeqs (vv : Validators) (before before' : HighestBefore F) : Prop :=
  ∀ i < vv.len, F.get before'.vSeq (UInt32.ofNat i) = F.get before.vSeq (UInt32.ofNat i)

/-- Vectors that differ in the times of cheaters only. -/
structure SameHonest (vv : Validators) (before before' : HighestBefore F) : Prop where
  seqs : SameSeqs vv before before'
  times : ∀ i < vv.len, isCheaterAt before i = false →
    before'.vTime.get (UInt32.ofNat i) = before.vTime.get (UInt32.ofNat i)

/-- The median time of two vectors is one that is not before or after the times of all the
validators that are no cheaters. -/
def Agree (sortSlice : List MedianTimeIndex → List MedianTimeIndex) (vv : Validators)
    (before before' : HighestBefore F) (defaultTime : Timestamp) : Prop :=
  ∃ t, medianTime sortSlice vv (some before) defaultTime = .ok t ∧
    medianTime sortSlice vv (some before') defaultTime = .ok t ∧
    (∃ i < vv.len, isCheaterAt before i = false ∧ claimedTime before defaultTime i ≤ t) ∧
    ∃ i < vv.len, isCheaterAt before i = false ∧ t ≤ claimedTime before defaultTime i

variable {before' : HighestBefore F}

theorem SameSeqs.isCheaterAt_eq (h : SameSeqs vv before before') {i : ℕ} (hi : i < vv.len) :
    isCheaterAt before' i = isCheaterAt before i := by
  rw [isCheaterAt, isCheaterAt, h i hi]

theorem SameSeqs.honestWeight_eq (h : SameSeqs vv before before') {i : ℕ} (hi : i < vv.len) :
    honestWeight vv before' i = honestWeight vv before i := by
  rw [honestWeight, honestWeight, h.isCheaterAt_eq hi]

theorem SameSeqs.honestTotal_eq (h : SameSeqs vv before before') :
    honestTotal vv before' = honestTotal vv before :=
  Finset.sum_congr rfl fun _ hi => by rw [h.honestWeight_eq (Finset.mem_range.mp hi)]

theorem SameHonest.claimedTime_eq (h : SameHonest vv before before') {i : ℕ} (hi : i < vv.len)
    (hhonest : isCheaterAt before i = false) :
    claimedTime before' defaultTime i = claimedTime before defaultTime i := by
  rw [claimedTime, claimedTime, h.seqs.isCheaterAt_eq hi, h.seqs i hi, h.times i hi hhonest]

theorem honest_of_pos {i : ℕ} (h : 0 < (honestWeight vv before i).toNat) :
    isCheaterAt before i = false := by
  rw [honestWeight] at h
  split at h
  · exact absurd h (by decide)
  · rename_i hhonest
    simpa using hhonest

/-- The entries with weight are those of validators that are no cheaters. -/
theorem SameHonest.positive_entries (h : SameHonest vv before before') :
    (entries vv before' defaultTime).filter (0 < weightOf ·) =
      (entries vv before defaultTime).filter (0 < weightOf ·) := by
  rw [entries, entries, List.filter_map, List.filter_map]
  have hfilter : (List.range vv.len).filter ((0 < weightOf ·) ∘ fun i =>
        ⟨honestWeight vv before' i, claimedTime before' defaultTime i⟩) =
      (List.range vv.len).filter ((0 < weightOf ·) ∘ fun i =>
        ⟨honestWeight vv before i, claimedTime before defaultTime i⟩) := by
    refine List.filter_congr fun i hi => ?_
    simp only [Function.comp_apply, weightOf, h.seqs.honestWeight_eq (List.mem_range.mp hi)]
    rfl
  rw [hfilter]
  refine List.map_congr_left fun i hi => ?_
  obtain ⟨hmem, hpos⟩ := List.mem_filter.mp hi
  have hlt := List.mem_range.mp hmem
  have hhonest : isCheaterAt before i = false := honest_of_pos (of_decide_eq_true hpos)
  rw [h.seqs.honestWeight_eq hlt, h.claimedTime_eq hlt hhonest]

/-- With a positive half, the median is that of the entries with weight. -/
theorem isLeast_of_half_pos (hsort : Sorts sortSlice) {x : MedianTimeIndex}
    (hhalf : 0 < honestTotal vv before / 2) (h : pick weightOf (honestTotal vv before / 2) 0
      (sortSlice (entries vv before defaultTime)) = some x) :
    IsLeast (Reaching timeOf weightOf (honestTotal vv before / 2)
      ((entries vv before defaultTime).filter (0 < weightOf ·))) (timeOf x) := by
  rw [← reaching_perm ((hsort.perm _).filter _)]
  exact isLeast_positive hhalf (hsort.pairwise _) h

theorem agree_of_two_le (hsort : Sorts sortSlice) (hsum : weightSum vv < 2 ^ 32)
    (hlen : vv.len < 2 ^ 29) (h : SameHonest vv before before') (htwo : 2 ≤ honestTotal vv before) :
    Agree sortSlice vv before before' defaultTime := by
  have hne : vv.len ≠ 0 := by
    intro hzero
    rw [honestTotal, hzero, Finset.range_zero, Finset.sum_empty] at htwo
    omega
  have hread : Readable vv before := .inl hlen
  have hread' : Readable vv before' := .inl hlen
  obtain ⟨x, hx, hpick⟩ := exists_pick_entries hsort hsum hne hread defaultTime
  obtain ⟨y, hy, hpick'⟩ := exists_pick_entries hsort hsum hne hread' defaultTime
  have hhalf : 0 < honestTotal vv before / 2 := by omega
  have hleast := isLeast_of_half_pos hsort hhalf hpick
  have hleast' := isLeast_of_half_pos hsort (by rwa [h.seqs.honestTotal_eq]) hpick'
  rw [h.seqs.honestTotal_eq, h.positive_entries] at hleast'
  have htime : y.creationTime = x.creationTime := UInt64.toNat_inj.mp (hleast'.unique hleast)
  obtain ⟨⟨z, hz, hzx⟩, -⟩ := hleast.1
  obtain ⟨hz, hpos⟩ := List.mem_filter.mp hz
  obtain ⟨i, hi, rfl⟩ := List.mem_map.mp hz
  have hlt := List.mem_range.mp hi
  have hhonest : isCheaterAt before i = false := honest_of_pos (of_decide_eq_true hpos)
  have hclaimed : claimedTime before defaultTime i = x.creationTime := UInt64.toNat_inj.mp hzx
  refine ⟨x.creationTime, hx, htime ▸ hy, ⟨i, hlt, hhonest, ?_⟩, i, hlt, hhonest, ?_⟩
  · exact UInt64.le_of_eq hclaimed
  · exact UInt64.le_of_eq hclaimed.symm

theorem agree_of_honest (hsort : Sorts sortSlice) (hsum : weightSum vv < 2 ^ 32)
    (hlen : vv.len < 2 ^ 29) (hne : vv.len ≠ 0) (h : SameHonest vv before before')
    (hhonest : ∀ i < vv.len, isCheaterAt before i = false) :
    Agree sortSlice vv before before' defaultTime := by
  have hentries : entries vv before' defaultTime = entries vv before defaultTime := by
    refine List.map_congr_left fun i hi => ?_
    have hlt := List.mem_range.mp hi
    rw [h.seqs.honestWeight_eq hlt, h.claimedTime_eq hlt (hhonest i hlt)]
  have hread : Readable vv before := .inl hlen
  have hread' : Readable vv before' := .inl hlen
  have hsame : medianTime sortSlice vv (some before') defaultTime =
      medianTime sortSlice vv (some before) defaultTime := by
    simp only [medianTime, mapM_medianTimeIndex hread, mapM_medianTimeIndex hread', hentries]
  obtain ⟨x, hx, hpick⟩ := exists_pick_entries hsort hsum hne hread defaultTime
  obtain ⟨i, hi, htime⟩ := (isMedian_of_pick hsort hpick).occurs
  refine ⟨x.creationTime, hx, hsame.trans hx, ⟨i, hi, hhonest i hi, ?_⟩, i, hi, hhonest i hi, ?_⟩
  · exact UInt64.le_of_eq htime
  · exact UInt64.le_of_eq htime.symm

/-- A vector with any times. -/
theorem exists_times {n : ℕ} (hn : n < 2 ^ 29) (times : ℕ → Timestamp) :
    ∃ b : HighestBeforeTime, ∀ i < n, b.get (UInt32.ofNat i) = some (times i) := by
  have hrounds : ∀ k ≤ n, ∃ b : HighestBeforeTime, b.Sized n ∧
      ∀ i < k, b.get (UInt32.ofNat i) = some (times i) := by
    intro k
    induction k with
    | zero => exact fun _ => ⟨_, .new hn, fun i hi => absurd hi (Nat.not_lt_zero i)⟩
    | succ k ih =>
      intro hk
      obtain ⟨b, hsized, htimes⟩ := ih (Nat.le_of_succ_le hk)
      obtain ⟨b', -, hsized', hget, hother⟩ := hsized.set hk (times k)
      refine ⟨b', hsized', fun i hi => ?_⟩
      rcases Nat.lt_succ_iff_lt_or_eq.mp hi with hlt | rfl
      · rw [hother i (by omega) (by omega), htimes i hlt]
      · exact hget
  obtain ⟨b, -, htimes⟩ := hrounds n (Nat.le_refl n)
  exact ⟨b, htimes⟩

/-- If half of the honest weight is nothing, a cheater with an early time decides. -/
theorem exists_not_agree (hsort : Sorts sortSlice) (hsum : weightSum vv < 2 ^ 32)
    (hlen : vv.len < 2 ^ 29) (hlow : honestTotal vv before < 2) {c : ℕ} (hc : c < vv.len)
    (hcheater : isCheaterAt before c = true) :
    ∃ vTime,
      ¬Agree sortSlice vv (⟨before.vSeq, vTime⟩ : HighestBefore F) ⟨before.vSeq, vTime⟩ 1 := by
  obtain ⟨vTime, htimes⟩ := exists_times hlen fun i => if isCheaterAt before i then 0 else 1
  refine ⟨vTime, ?_⟩
  rintro ⟨t, ht, -, ⟨i, hi, hhonest, hle⟩, -⟩
  have hread : Readable vv (⟨before.vSeq, vTime⟩ : HighestBefore F) := .inl hlen
  obtain ⟨x, hx, hpick⟩ := exists_pick_entries hsort hsum (by omega) hread 1
  have hmedian := isMedian_of_pick hsort hpick
  cases ht.symm.trans hx
  have hhalf : honestTotal vv (⟨before.vSeq, vTime⟩ : HighestBefore F) / 2 = 0 :=
    Nat.div_eq_of_lt hlow
  have hzero : claimedTime (⟨before.vSeq, vTime⟩ : HighestBefore F) 1 c = 0 := by
    have hc' : isCheaterAt (⟨before.vSeq, vTime⟩ : HighestBefore F) c = true := hcheater
    rw [claimedTime, hc', htimes c hc, hcheater]
    rfl
  have hone : claimedTime (⟨before.vSeq, vTime⟩ : HighestBefore F) 1 i = 1 := by
    have hi' : isCheaterAt before i = false := hhonest
    rw [claimedTime, hhonest, htimes i hi, hi']
    split
    · rfl
    · rfl
  have hbelow := hmedian.least c hc (by rw [hhalf]; exact Nat.zero_le _)
  rw [hzero] at hbelow
  rw [hone] at hle
  exact absurd (UInt64.le_trans hle hbelow) (by decide)

/-- **Cheaters and the median time.** For validators of whom one is no cheater: the median
time does not depend on the times of cheaters, and lies among those of the others, exactly
if the offsets of the times fit, and the others have a weight of at least 2 or there are no
cheaters. -/
theorem cheaters_harmless_iff (F : Vecfc) (sortSlice : List MedianTimeIndex → List MedianTimeIndex)
    (hsort : Sorts sortSlice) (vv : Validators) (hsum : weightSum vv < 2 ^ 32)
    (before : HighestBefore F) (hhonest : ∃ i < vv.len, isCheaterAt before i = false) :
    (∀ b b' : HighestBefore F, ∀ defaultTime, SameSeqs vv before b → SameHonest vv b b' →
      Agree sortSlice vv b b' defaultTime) ↔
      vv.len < 2 ^ 29 ∧
        (2 ≤ honestTotal vv before ∨ ∀ i < vv.len, isCheaterAt before i = false) := by
  constructor
  · intro hagree
    have hself : ∀ vTime defaultTime,
        Agree sortSlice vv (⟨before.vSeq, vTime⟩ : HighestBefore F) ⟨before.vSeq, vTime⟩
          defaultTime :=
      fun vTime defaultTime => hagree _ _ defaultTime (fun _ _ => rfl)
        ⟨fun _ _ => rfl, fun _ _ _ => rfl⟩
    have hlen : vv.len < 2 ^ 29 := by
      by_contra hlen
      obtain ⟨t, ht, -⟩ := hself (longBefore before.vSeq).vTime 0
      have hpanic : medianTime sortSlice vv (some (longBefore before.vSeq)) 0 = .error .panic :=
        medianTime_of_not_readable sortSlice (not_readable_longBefore hlen before.vSeq)
      cases ht.symm.trans hpanic
    refine ⟨hlen, ?_⟩
    by_contra hnot
    obtain ⟨hlow, hcheater⟩ := not_or.mp hnot
    obtain ⟨c, hcheater⟩ := not_forall.mp hcheater
    obtain ⟨hc, hcheater⟩ := Classical.not_imp.mp hcheater
    obtain ⟨vTime, hvTime⟩ := exists_not_agree hsort hsum hlen (not_le.mp hlow) hc
      (by simpa using hcheater)
    exact hvTime (hself vTime 1)
  · rintro ⟨hlen, htwo | hall⟩ b b' defaultTime hseqs hsame
    · exact agree_of_two_le hsort hsum hlen hsame (by rwa [hseqs.honestTotal_eq])
    · obtain ⟨i, hi, -⟩ := hhonest
      refine agree_of_honest hsort hsum hlen (by omega) hsame fun j hj => ?_
      rw [hseqs.isCheaterAt_eq hj, hall j hj]

/-- With weight 4 of the first validator, the time of the cheater does not matter. -/
theorem cheaters_harmless_forkedBefore :
    Agree sortByTime (.ofWeights [(1, 4), (2, 5)] (by decide)) forkedBefore
      { forkedBefore with vTime := ⟨[100, 0, 0, 0, 0, 0, 0, 0]⟩ } 7 := by
  refine (cheaters_harmless_iff sampleVecfc sortByTime sortByTime_sorts _ (by decide) forkedBefore
    ⟨0, by decide, rfl⟩).mpr ⟨by decide, .inl (by decide)⟩ _ _ 7 (fun _ _ => rfl)
      ⟨fun _ _ => rfl, fun i hi hhonest => ?_⟩
  have hi : i < 2 := hi
  interval_cases i
  · rfl
  · cases hhonest

/-- With weight 1, the result is the time of the cheater, whatever it is. -/
theorem cheater_decides :
    medianTime sortByTime (.ofWeights [(1, 1), (2, 5)] (by decide)) (some forkedBefore) 7 = .ok 10 ∧
      medianTime sortByTime (.ofWeights [(1, 1), (2, 5)] (by decide))
        (some { forkedBefore with vTime := ⟨[100, 0, 0, 0, 0, 0, 0, 0]⟩ }) 7 = .ok 0 ∧
      isCheaterAt forkedBefore 0 = false ∧ claimedTime forkedBefore 7 0 = 100 ∧
      SameHonest (.ofWeights [(1, 1), (2, 5)] (by decide)) forkedBefore
        { forkedBefore with vTime := ⟨[100, 0, 0, 0, 0, 0, 0, 0]⟩ } := by
  refine ⟨by decide +kernel, by decide +kernel, by decide, by decide, fun _ _ => rfl,
    fun i hi hhonest => ?_⟩
  have hi : i < 2 := hi
  interval_cases i
  · rfl
  · cases hhonest

end Zilionixx.Vecmt
