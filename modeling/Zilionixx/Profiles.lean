import Mathlib.Algebra.BigOperators.Group.Finset.Basic
import Mathlib.Algebra.Order.BigOperators.Group.Finset
import Mathlib.Data.FinEnum
import Mathlib.Data.Nat.Size
import Zilionixx.BlockCallbacks

/-!
# `ValidatorProfiles` and the stored states

`profiles.go` and `store_decided_state.go`. The latest states are kept in memory, and
written to the table when the store is flushed; a node that restarts reads them from
there. Profiles are a map, and they are written as an array. The IDs of the array are
taken from validators that are built from the weights, and not from the map.
-/

namespace Zilionixx

/-- `drivertype.ValidatorAndID` -/
structure ValidatorAndID where
  validatorID : ValidatorID
  validator : DriverValidator
  deriving DecidableEq

/-- RLP of a type. -/
structure RlpOf (α : Type) where
  encode : α → List UInt8
  decode : List UInt8 → Option α

/-- A value is read back as it was written. -/
def RlpOf.RoundTrips {α : Type} (C : RlpOf α) (x : α) : Prop := C.decode (C.encode x) = some x

namespace ValidatorProfiles

/-- The weights that are set in a builder. -/
def weights (vv : ValidatorProfiles) (id : ValidatorID) : Option ℤ :=
  (vv.lookup id).map DriverValidator.weight

/-- `SortedArray` -/
def sortedArray (B : BigBuilder) (vv : ValidatorProfiles) : List ValidatorAndID :=
  (B.build vv.weights).sortedIDs.map fun id =>
    ⟨id, (vv.lookup id).getD ⟨0, ⟨0, []⟩⟩⟩

/-- `EncodeRLP` -/
def encodeRLP (B : BigBuilder) (C : RlpOf (List ValidatorAndID)) (vv : ValidatorProfiles) :
    List UInt8 :=
  C.encode (vv.sortedArray B)

/-- `DecodeRLP`: the map that is made of an array. -/
def ofArray (arr : List ValidatorAndID) : ValidatorProfiles :=
  arr.foldl (fun vv it => vv.insert it.validatorID it.validator) ∅

/-- `DecodeRLP` -/
def decodeRLP (C : RlpOf (List ValidatorAndID)) (bs : List UInt8) : Option ValidatorProfiles :=
  (C.decode bs).map ofArray

end ValidatorProfiles

/-! ## The store -/

/-- A `BlockEpochState` as RLP has it: the profiles are arrays. -/
structure StoredStates where
  bs : BlockState
  es : EpochState
  nextValidatorProfiles : List ValidatorAndID
  validatorProfiles : List ValidatorAndID

/-- `EncodeRLP` of the profiles in the states. -/
def StoredStates.ofStates (B : BigBuilder) (bs : BlockState) (es : EpochState) : StoredStates where
  bs := { bs with nextValidatorProfiles := ∅ }
  es := { es with validatorProfiles := ∅ }
  nextValidatorProfiles := bs.nextValidatorProfiles.sortedArray B
  validatorProfiles := es.validatorProfiles.sortedArray B

/-- `DecodeRLP` of the profiles in the states. -/
def StoredStates.states (s : StoredStates) : BlockState × EpochState :=
  ({ s.bs with nextValidatorProfiles := .ofArray s.nextValidatorProfiles },
    { s.es with validatorProfiles := .ofArray s.validatorProfiles })

/-- The states in memory, and in the table. -/
structure StateStore where
  cache : Option (BlockState × EpochState)
  table : Option (List UInt8)

namespace StateStore

variable (B : BigBuilder) (C : RlpOf StoredStates)

/-- `SetBlockEpochState` -/
def setBlockEpochState (s : StateStore) (bs : BlockState) (es : EpochState) :
    Option StateStore := do
  let states ← Zilionixx.setBlockEpochState bs es
  pure { s with cache := some states }

/-- `getBlockEpochState`, without what it keeps in memory; `none` is the end of the
process when nothing is found. -/
def getBlockEpochState (s : StateStore) : Option (BlockState × EpochState) :=
  match s.cache with
  | some states => some states
  | none => (s.table.bind C.decode).map StoredStates.states

/-- `FlushBlockEpochState` -/
def flushBlockEpochState (s : StateStore) : Option StateStore := do
  let (bs, es) ← s.getBlockEpochState C
  pure { s with table := some (C.encode (.ofStates B bs es)) }

/-- A node that restarts has nothing in memory. -/
def restart (s : StateStore) : StateStore := { s with cache := none }

end StateStore

/-! ## What is read back -/

/-- What is assumed of `pos.BigBuilder.Build`: it shifts all the weights by one amount,
so that the total fits in 31 bits, and leaves out the IDs with no weight then. -/
structure Downscaling (B : BigBuilder) where
  shift : (ValidatorID → Option ℤ) → ℕ
  fits : ∀ weights : ValidatorID → Option ℤ,
    (∑ id, (weights id).getD 0) >>> shift weights < 2 ^ 31
  mem_build : ∀ weights id, id ∈ (B.build weights).sortedIDs ↔
    ∃ weight, weights id = some weight ∧ weight >>> shift weights ≠ 0

variable {B : BigBuilder}

namespace ValidatorProfiles

/-- No profile is left out when the weights are shifted. -/
def Kept (D : Downscaling B) (vv : ValidatorProfiles) : Prop :=
  ∀ id profile, vv.lookup id = some profile → profile.weight >>> D.shift vv.weights ≠ 0

/-- Inserting values that depend on their IDs only. -/
theorem lookup_foldl_insert (f : ValidatorID → DriverValidator) (ids : List ValidatorID)
    (vv : ValidatorProfiles) (id : ValidatorID) :
    ((ids.map fun id => (⟨id, f id⟩ : ValidatorAndID)).foldl
        (fun vv it => vv.insert it.validatorID it.validator) vv).lookup id =
      if id ∈ ids then some (f id) else vv.lookup id := by
  induction ids generalizing vv with
  | nil => simp
  | cons a ids ih =>
    rw [List.map_cons, List.foldl_cons, ih]
    by_cases heq : id = a
    · subst heq
      simp [Finmap.lookup_insert]
    · simp [heq, Finmap.lookup_insert_of_ne]

/-- What is read back: the profiles of the validators that are built. -/
theorem lookup_ofArray_sortedArray (D : Downscaling B) (vv : ValidatorProfiles) (id : ValidatorID) :
    (ofArray (vv.sortedArray B)).lookup id =
      (vv.lookup id).filter
        fun profile : DriverValidator => profile.weight >>> D.shift vv.weights ≠ 0 := by
  rw [ofArray, sortedArray, lookup_foldl_insert, Finmap.lookup_empty]
  simp only [D.mem_build, weights]
  cases hid : vv.lookup id with
  | none => simp
  | some profile => simp [Option.filter]

theorem ofArray_sortedArray_iff (D : Downscaling B) (vv : ValidatorProfiles) :
    ofArray (vv.sortedArray B) = vv ↔ vv.Kept D := by
  constructor
  · intro h id profile hid
    have hlookup := lookup_ofArray_sortedArray D vv id
    rw [h, hid, eq_comm, Option.filter_eq_some_iff] at hlookup
    exact of_decide_eq_true hlookup.2
  · intro h
    refine Finmap.ext_lookup fun id => ?_
    rw [lookup_ofArray_sortedArray D]
    cases hid : vv.lookup id with
    | none => rfl
    | some profile => simp [Option.filter, h id profile hid]

end ValidatorProfiles

theorem StoredStates.states_ofStates_iff (D : Downscaling B) (bs : BlockState) (es : EpochState) :
    (StoredStates.ofStates B bs es).states = (bs, es) ↔
      bs.nextValidatorProfiles.Kept D ∧ es.validatorProfiles.Kept D := by
  rw [← ValidatorProfiles.ofArray_sortedArray_iff, ← ValidatorProfiles.ofArray_sortedArray_iff]
  constructor
  · intro h
    exact ⟨congrArg (fun states => states.1.nextValidatorProfiles) h,
      congrArg (fun states => states.2.validatorProfiles) h⟩
  · rintro ⟨hbs, hes⟩
    simp only [StoredStates.states, StoredStates.ofStates, hbs, hes]

/-- What a node reads after the states have been set and flushed, and it has been
restarted. -/
def afterRestart (B : BigBuilder) (C : RlpOf StoredStates) (s : StateStore) (bs : BlockState)
    (es : EpochState) : Option (BlockState × EpochState) := do
  let s ← s.setBlockEpochState bs es
  let s ← s.flushBlockEpochState B C
  s.restart.getBlockEpochState C

/-- **Profiles survive persistence when none is left out.** The profiles, and the
states with profiles, are read back as they were just if every weight is still there
after it has been shifted. -/
theorem profiles_persist_iff (B : BigBuilder) (D : Downscaling B) :
    (∀ (C : RlpOf (List ValidatorAndID)) (vv : ValidatorProfiles),
      C.RoundTrips (vv.sortedArray B) →
      (ValidatorProfiles.decodeRLP C (vv.encodeRLP B C) = some vv ↔ vv.Kept D)) ∧
    ∀ (C : RlpOf StoredStates) (s : StateStore) (bs : BlockState) (es : EpochState),
      bs.copy = some bs → es.copy = some es → C.RoundTrips (.ofStates B bs es) →
      (afterRestart B C s bs es = some (bs, es) ↔
        bs.nextValidatorProfiles.Kept D ∧ es.validatorProfiles.Kept D) := by
  constructor
  · intro C vv hC
    rw [ValidatorProfiles.decodeRLP, ValidatorProfiles.encodeRLP, hC, Option.map_some,
      Option.some.injEq]
    exact ValidatorProfiles.ofArray_sortedArray_iff D vv
  · intro C s bs es hbs hes hC
    have hrestart : afterRestart B C s bs es = some (StoredStates.ofStates B bs es).states := by
      have hstore : setBlockEpochState bs es = some (bs, es) := by
        simp [setBlockEpochState, hbs, hes]
      simp only [afterRestart, StateStore.setBlockEpochState, hstore,
        StateStore.flushBlockEpochState, StateStore.getBlockEpochState, StateStore.restart,
        Option.bind_eq_bind, Option.bind_some, Option.pure_def]
      rw [hC]
      rfl
    rw [hrestart, Option.some.injEq, StoredStates.states_ofStates_iff D]

/-! ## A builder -/

/-- The total of some weights. -/
def totalOf (weights : ValidatorID → Option ℤ) : ℤ := ∑ id, (weights id).getD 0

/-- The smallest shift with which the total has 31 bits. -/
def shiftOf (weights : ValidatorID → Option ℤ) : ℕ := (totalOf weights).toNat.size - 31

theorem totalOf_shiftRight_lt (weights : ValidatorID → Option ℤ) :
    totalOf weights >>> shiftOf weights < 2 ^ 31 := by
  rw [Int.shiftRight_eq_div_pow]
  refine Int.ediv_lt_of_lt_mul (by positivity) ?_
  have hsize := Nat.lt_size_self (totalOf weights).toNat
  have hpow : 2 ^ (totalOf weights).toNat.size ≤ 2 ^ (31 + shiftOf weights) :=
    Nat.pow_le_pow_right (by decide) (by rw [shiftOf]; omega)
  calc totalOf weights ≤ ((totalOf weights).toNat : ℤ) := Int.self_le_toNat _
    _ < ((2 ^ (31 + shiftOf weights) : ℕ) : ℤ) := by exact_mod_cast hsize.trans_le hpow
    _ = 2 ^ 31 * ((2 ^ shiftOf weights : ℕ) : ℤ) := by push_cast; ring

/-- The weights after shifting. -/
def shifted (weights : ValidatorID → Option ℤ) (id : ValidatorID) : ℤ :=
  (weights id).getD 0 >>> shiftOf weights

/-- A builder that does what is assumed. -/
noncomputable def shiftBuilder : BigBuilder where
  build weights :=
    { sortedIDs := (Finset.univ.filter fun id => shifted weights id ≠ 0).toList
      get := fun id => (shifted weights id).toNat.toUInt32
      totalWeight := (∑ id, shifted weights id).toNat.toUInt32
      getIdx := fun id => (Finset.univ.filter fun id => shifted weights id ≠ 0).toList.idxOf id
      get_eq_zero := fun id h => by
        have hzero : shifted weights id = 0 := by simpa using h
        rw [hzero]
        rfl
      nodup := Finset.nodup_toList _
      getIdx_of_getElem? := fun i id h => by
        obtain ⟨hlt, rfl⟩ := List.getElem?_eq_some_iff.mp h
        exact (Finset.nodup_toList _).idxOf_getElem i hlt }

/-- The builder that shifts is a downscaling. -/
noncomputable def shiftDownscaling : Downscaling shiftBuilder where
  shift := shiftOf
  fits := totalOf_shiftRight_lt
  mem_build weights id := by
    have hmem : id ∈ (shiftBuilder.build weights).sortedIDs ↔ shifted weights id ≠ 0 := by
      simp [shiftBuilder]
    rw [hmem, shifted]
    cases weights id with
    | none => simp
    | some weight => simp

/-- Profiles with little weight. -/
def lightProfiles : ValidatorProfiles := (∅ : ValidatorProfiles).insert 1 ⟨3, ⟨0, []⟩⟩

theorem lookup_lightProfiles (id : ValidatorID) :
    lightProfiles.lookup id = if id = 1 then some ⟨3, ⟨0, []⟩⟩ else none := by
  rw [lightProfiles]
  by_cases h : id = 1
  · subst h
    rw [Finmap.lookup_insert, if_pos rfl]
  · rw [Finmap.lookup_insert_of_ne _ h, if_neg h, Finmap.lookup_empty]

theorem kept_lightProfiles : lightProfiles.Kept shiftDownscaling := by
  have htotal : totalOf lightProfiles.weights = 3 := by
    have hsingle : ∀ id ∈ Finset.univ, id ≠ 1 → (lightProfiles.weights id).getD 0 = 0 :=
      fun id _ h => by rw [ValidatorProfiles.weights, lookup_lightProfiles, if_neg h]; rfl
    rw [totalOf, Finset.sum_eq_single 1 hsingle (fun h => absurd (Finset.mem_univ 1) h),
      ValidatorProfiles.weights, lookup_lightProfiles, if_pos rfl]
    rfl
  have hshift : shiftDownscaling.shift lightProfiles.weights = 0 := by
    change shiftOf _ = 0
    rw [shiftOf, htotal]
    decide
  intro id profile h
  rw [lookup_lightProfiles] at h
  split at h
  · rw [hshift, ← Option.some.inj h]
    decide
  · cases h

theorem profiles_persist_lightProfiles :
    afterRestart shiftBuilder
        ⟨fun _ => [], fun _ => some (.ofStates shiftBuilder
          { sampleBlockState with nextValidatorProfiles := lightProfiles } sampleEpochState)⟩
        ⟨none, none⟩ { sampleBlockState with nextValidatorProfiles := lightProfiles }
        sampleEpochState =
      some
        ({ sampleBlockState with nextValidatorProfiles := lightProfiles }, sampleEpochState) := by
  obtain ⟨-, hstates⟩ := profiles_persist_iff shiftBuilder shiftDownscaling
  have hempty : sampleEpochState.validatorProfiles.Kept shiftDownscaling := by
    intro id profile h
    cases h
  refine (hstates _ ⟨none, none⟩ _ _ rfl rfl ?_).mpr ⟨kept_lightProfiles, hempty⟩
  exact rfl

/-- Profiles of which one has almost all the weight. -/
def unevenProfiles : ValidatorProfiles :=
  ((∅ : ValidatorProfiles).insert 1 ⟨2 ^ 40, ⟨0, []⟩⟩).insert 2 ⟨1, ⟨0, []⟩⟩

theorem weights_unevenProfiles (id : ValidatorID) :
    unevenProfiles.weights id =
      if id = 2 then some 1 else if id = 1 then some (2 ^ 40) else none := by
  rw [ValidatorProfiles.weights, unevenProfiles]
  by_cases h₂ : id = 2
  · subst h₂
    rw [Finmap.lookup_insert]
    rfl
  · rw [Finmap.lookup_insert_of_ne _ h₂, if_neg h₂]
    by_cases h₁ : id = 1
    · subst h₁
      rw [Finmap.lookup_insert]
      rfl
    · rw [Finmap.lookup_insert_of_ne _ h₁, if_neg h₁]
      rfl

/-- Any builder has to shift them. -/
theorem shift_unevenProfiles_pos (D : Downscaling B) : 0 < D.shift unevenProfiles.weights := by
  by_contra hzero
  have hfits := D.fits unevenProfiles.weights
  rw [Nat.eq_zero_of_not_pos hzero, Int.shiftRight_zero] at hfits
  have hle : (unevenProfiles.weights 1).getD 0 ≤ ∑ id, (unevenProfiles.weights id).getD 0 := by
    refine Finset.single_le_sum (f := fun id => (unevenProfiles.weights id).getD 0)
      (fun id _ => ?_) (Finset.mem_univ 1)
    simp only [weights_unevenProfiles]
    split
    · simp
    · split
      · simp
      · simp
  rw [weights_unevenProfiles, if_neg (by decide), if_pos rfl, Option.getD_some] at hle
  omega

/-- With any builder, the profile of the second validator is lost. -/
theorem profiles_lost :
    ∃ vv : ValidatorProfiles, (∀ id profile, vv.lookup id = some profile → 0 < profile.weight) ∧
      ∀ (B : BigBuilder) (_ : Downscaling B) (C : RlpOf (List ValidatorAndID)),
        C.RoundTrips (vv.sortedArray B) →
        ValidatorProfiles.decodeRLP C (vv.encodeRLP B C) ≠ some vv := by
  refine ⟨unevenProfiles, fun id profile h => ?_, fun B D C hC h => ?_⟩
  · have hweight := weights_unevenProfiles id
    rw [ValidatorProfiles.weights, h, Option.map_some] at hweight
    split at hweight
    · rw [Option.some.inj hweight]
      decide
    · split at hweight
      · rw [Option.some.inj hweight]
        decide
      · cases hweight
  · rw [ValidatorProfiles.decodeRLP, ValidatorProfiles.encodeRLP, hC, Option.map_some,
      Option.some.injEq, ValidatorProfiles.ofArray_sortedArray_iff D] at h
    refine h 2 ⟨1, ⟨0, []⟩⟩ (Finmap.lookup_insert _) ?_
    rw [Int.shiftRight_eq_div_pow]
    have hlt : 1 < 2 ^ D.shift unevenProfiles.weights :=
      Nat.one_lt_two_pow (shift_unevenProfiles_pos D).ne'
    exact Int.ediv_eq_zero_of_lt (by decide) (Int.ofNat_lt.mpr hlt)

end Zilionixx
