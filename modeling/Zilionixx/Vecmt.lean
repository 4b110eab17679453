import Zilionixx.ByteNumber
import Zilionixx.Rules

/-!
# `vecmt`: vectors of the highest observed events

`vector.go` and `vector_ops.go`. For each branch, which without forks is a
validator, the vector of an event has the highest sequence number that the
event observes and the creation time of the event with that number.

The times are kept in a byte string that is indexed in `uint32`. The sequence
numbers are kept by `vecfc` of `zilion-base`, which comes in as a `Vecfc`.
-/

namespace Zilionixx.Vecmt

open ByteNumber

/-! ## Times -/

/-- `HighestBeforeTime`: the creation times, eight bytes for each branch. -/
structure HighestBeforeTime where
  bytes : List UInt8
  deriving DecidableEq

namespace HighestBeforeTime

/-- `NewHighestBeforeTime` -/
def new (size : UInt32) : HighestBeforeTime := ⟨List.replicate (size * 8).toNat 0⟩

/-- `Size` -/
def size (b : HighestBeforeTime) : UInt32 := UInt32.ofNat (b.bytes.length / 8)

/-- Whether `b[low:high]` is within bounds. -/
def InBounds (b : HighestBeforeTime) (low high : UInt32) : Prop :=
  low ≤ high ∧ high.toNat ≤ b.bytes.length

instance (b : HighestBeforeTime) (low high : UInt32) : Decidable (b.InBounds low high) :=
  inferInstanceAs (Decidable (_ ∧ _))

/-- `Get`; `none` is a panic. -/
def get (b : HighestBeforeTime) (i : UInt32) : Option Timestamp :=
  if i ≥ b.size then some 0
  else if b.InBounds (i * 8) ((i + 1) * 8) then
    some (UInt64.ofNat (ofLE ((b.bytes.take ((i + 1) * 8).toNat).drop (i * 8).toNat)))
  else none

/-- The loop in `Set`, as long as there is fuel. The size is a `uint32`, so that
it never exceeds the largest one. -/
def grow (i : UInt32) : ℕ → HighestBeforeTime → Option HighestBeforeTime
  | 0, _ => none
  | fuel + 1, b =>
    -- append zeros if exceeds size
    if i ≥ b.size then grow i fuel ⟨b.bytes ++ List.replicate 8 0⟩ else some b

/-- `PutUint64` into a part of the byte string. -/
def put (b : HighestBeforeTime) (low high : UInt32) (time : Timestamp) :
    Option HighestBeforeTime :=
  if b.InBounds low high then
    some ⟨b.bytes.take low.toNat ++ padded 8 time.toNat ++ b.bytes.drop high.toNat⟩
  else none

/-- `Set`; `none` is a panic or a loop without end. -/
def set (b : HighestBeforeTime) (i : UInt32) (time : Timestamp) : Option HighestBeforeTime := do
  let b ← grow i (2 ^ 32) b
  b.put (i * 8) ((i + 1) * 8) time

/-- There are as many times as branches, and every offset fits a `uint32`. -/
structure Sized (b : HighestBeforeTime) (n : ℕ) : Prop where
  length : b.bytes.length = n * 8
  fits : n < 2 ^ 29

theorem toNat_offset {i : ℕ} (h : i < 2 ^ 29) : (UInt32.ofNat i * 8).toNat = i * 8 := by
  have hi : (UInt32.ofNat i).toNat = i := UInt32.toNat_ofNat_of_lt' (h.trans (by decide))
  have height : (8 : UInt32).toNat = 8 := rfl
  rw [UInt32.toNat_mul, hi, height, Nat.mod_eq_of_lt (by omega)]

theorem toNat_end {i : ℕ} (h : i + 1 < 2 ^ 29) :
    ((UInt32.ofNat i + 1) * 8).toNat = i * 8 + 8 := by
  have hsucc : UInt32.ofNat i + 1 = UInt32.ofNat (i + 1) := (UInt32.ofNat_add i 1).symm
  rw [hsucc, toNat_offset h, Nat.succ_mul]

variable {b : HighestBeforeTime} {n i j : ℕ}

theorem Sized.new (h : n < 2 ^ 29) : (new (UInt32.ofNat n)).Sized n where
  length := by rw [HighestBeforeTime.new, List.length_replicate, toNat_offset h]
  fits := h

theorem Sized.lt_size (hb : b.Sized n) (hi : i < n) : ¬ UInt32.ofNat i ≥ b.size := by
  have hfits := hb.fits
  rw [size, hb.length, Nat.mul_div_cancel _ (by decide), ge_iff_le, UInt32.le_iff_toNat_le,
    UInt32.toNat_ofNat', UInt32.toNat_ofNat', Nat.mod_eq_of_lt (by omega),
      Nat.mod_eq_of_lt (by omega)]
  omega

theorem Sized.inBounds (hb : b.Sized n) (hi : i < n) :
    b.InBounds (UInt32.ofNat i * 8) ((UInt32.ofNat i + 1) * 8) := by
  have hfits := hb.fits
  rw [InBounds, UInt32.le_iff_toNat_le, toNat_offset (by omega), toNat_end (by omega), hb.length]
  omega

/-- Within the size, a time is eight bytes at its offset. -/
theorem Sized.get_eq (hb : b.Sized n) (hi : i < n) :
    b.get (UInt32.ofNat i) = some (UInt64.ofNat (ofLE ((b.bytes.drop (i * 8)).take 8))) := by
  have hfits := hb.fits
  rw [get, if_neg (hb.lt_size hi), if_pos (hb.inBounds hi), toNat_offset (by omega),
    toNat_end (by omega), List.drop_take, Nat.add_sub_cancel_left]

theorem length_padded_time (time : Timestamp) : (padded 8 time.toNat).length = 8 :=
  le_antisymm (length_padded_le (Nat.le_refl 8) time.toNat_lt) (le_length_padded 8 _)

/-- Within the size, nothing is appended and eight bytes are replaced. -/
theorem Sized.set_eq (hb : b.Sized n) (hi : i < n) (time : Timestamp) :
    b.set (UInt32.ofNat i) time = some
      ⟨b.bytes.take (i * 8) ++ padded 8 time.toNat ++ b.bytes.drop (i * 8 + 8)⟩ := by
  have hfits := hb.fits
  have hgrow : grow (UInt32.ofNat i) (2 ^ 32) b = some b := if_neg (hb.lt_size hi)
  rw [set, hgrow, Option.bind_eq_bind, Option.bind_some, put, if_pos (hb.inBounds hi),
    toNat_offset (by omega), toNat_end (by omega)]

theorem Sized.get_new (h : n < 2 ^ 29) (hi : i < n) :
    (HighestBeforeTime.new (UInt32.ofNat n)).get (UInt32.ofNat i) = some 0 := by
  rw [(Sized.new h).get_eq hi, HighestBeforeTime.new, List.drop_replicate, List.take_replicate,
    ofLE_replicate_zero]
  rfl

/-- Setting a time changes that time only. -/
theorem Sized.set (hb : b.Sized n) (hi : i < n) (time : Timestamp) :
    ∃ b', b.set (UInt32.ofNat i) time = some b' ∧ b'.Sized n ∧
      b'.get (UInt32.ofNat i) = some time ∧
      ∀ j < n, j ≠ i → b'.get (UInt32.ofNat j) = b.get (UInt32.ofNat j) := by
  have htime := length_padded_time time
  have hbefore : (b.bytes.take (i * 8)).length = i * 8 := by
    rw [List.length_take, hb.length]
    omega
  have hsized : Sized ⟨b.bytes.take (i * 8) ++ padded 8 time.toNat ++
    b.bytes.drop (i * 8 + 8)⟩ n := by
    refine ⟨?_, hb.fits⟩
    simp only [List.length_append, hbefore, htime, List.length_drop, hb.length]
    omega
  refine ⟨_, hb.set_eq hi time, hsized, ?_, ?_⟩
  · rw [hsized.get_eq hi, List.append_assoc, List.drop_left' hbefore, List.take_left' htime,
      ofLE_padded, UInt64.ofNat_toNat]
  · intro j hj hne
    rw [hsized.get_eq hj, hb.get_eq hj]
    rcases Nat.lt_or_gt_of_ne hne with hlt | hgt
    · -- the bytes of `j` are in the part before
      have hle : j * 8 + 8 ≤ i * 8 := by omega
      rw [List.append_assoc, List.drop_append_of_le_length (by rw [hbefore]; omega),
        List.take_append_of_le_length (by rw [List.length_drop, hbefore]; omega),
        List.drop_take, List.take_take, Nat.min_eq_left (by omega)]
    · -- and here in the part behind
      have hskip : (b.bytes.take (i * 8) ++ padded 8 time.toNat).length = i * 8 + 8 := by
        rw [List.length_append, hbefore, htime]
      rw [List.drop_append, List.drop_of_length_le (by rw [hskip]; omega), List.nil_append, hskip,
        List.drop_drop, Nat.add_sub_cancel' (by omega)]

end HighestBeforeTime

/-! ## Vectors -/

/-- `vecfc.BranchSeq` -/
structure BranchSeq where
  seq : UInt32
  minSeq : UInt32
  deriving DecidableEq

/-- What is used of `vecfc`: the vector of sequence numbers. -/
structure Vecfc where
  /-- `HighestBeforeSeq` -/
  HighestBeforeSeq : Type
  /-- `NewHighestBeforeSeq` -/
  new : UInt32 → HighestBeforeSeq
  /-- `Get` -/
  get : HighestBeforeSeq → UInt32 → BranchSeq
  /-- `Set` -/
  set : HighestBeforeSeq → UInt32 → BranchSeq → HighestBeforeSeq
  /-- `InitWithEvent` -/
  initWithEvent : HighestBeforeSeq → UInt32 → Event → HighestBeforeSeq
  /-- `SetForkDetected` -/
  setForkDetected : HighestBeforeSeq → UInt32 → HighestBeforeSeq
  /-- `IsForkDetected` of a `BranchSeq` -/
  isForkDetected : BranchSeq → Bool

/-- What `vecfc` promises: a vector is an array that starts out empty, an event
is recorded by its sequence number, and only an entry without one can mark a
fork. -/
structure Vecfc.Lawful (F : Vecfc) : Prop where
  get_new : ∀ size i, F.get (F.new size) i = ⟨0, 0⟩
  get_set : ∀ v i s, F.get (F.set v i s) i = s
  get_set_ne : ∀ v i j s, j ≠ i → F.get (F.set v i s) j = F.get v j
  initWithEvent : ∀ v i e, F.initWithEvent v i e = F.set v i ⟨e.seq, e.seq⟩
  isForkDetected_empty : F.isForkDetected ⟨0, 0⟩ = false
  isForkDetected_pos : ∀ s, s.seq ≠ 0 → F.isForkDetected s = false

variable {F : Vecfc}

/-- `HighestBefore` -/
structure HighestBefore (F : Vecfc) where
  vSeq : F.HighestBeforeSeq
  vTime : HighestBeforeTime

namespace HighestBefore

/-- `NewHighestBefore` -/
def new (F : Vecfc) (size : UInt32) : HighestBefore F := ⟨F.new size, .new size⟩

/-- `InitWithEvent` -/
def initWithEvent (b : HighestBefore F) (i : UInt32) (e : Event) : Option (HighestBefore F) := do
  let vTime ← b.vTime.set i e.creationTime
  pure ⟨F.initWithEvent b.vSeq i e, vTime⟩

/-- `SetForkDetected` -/
def setForkDetected (b : HighestBefore F) (i : UInt32) : HighestBefore F :=
  { b with vSeq := F.setForkDetected b.vSeq i }

/-- `CollectFrom`: take `hisSeq.MinSeq`. -/
def takeMinSeq (self : HighestBefore F) (branchID : UInt32) (mySeq hisSeq : BranchSeq) :
    HighestBefore F × BranchSeq :=
  if mySeq.seq = 0 ∨ mySeq.minSeq > hisSeq.minSeq then
    let mySeq := { mySeq with minSeq := hisSeq.minSeq }
    ({ self with vSeq := F.set self.vSeq branchID mySeq }, mySeq)
  else (self, mySeq)

/-- `CollectFrom`: take `hisSeq.Seq`. -/
def takeSeq (self other : HighestBefore F) (branchID : UInt32) (mySeq hisSeq : BranchSeq) :
    Option (HighestBefore F) :=
  if mySeq.seq < hisSeq.seq then do
    let time ← other.vTime.get branchID
    let vTime ← self.vTime.set branchID time
    pure ⟨F.set self.vSeq branchID { mySeq with seq := hisSeq.seq }, vTime⟩
  else pure self

/-- The body of the loop in `CollectFrom`. -/
def collectBranch (self other : HighestBefore F) (branchID : UInt32) :
    Option (HighestBefore F) :=
  let hisSeq := F.get other.vSeq branchID
  -- `hisSeq` doesn't observe anything about this branch
  if hisSeq.seq = 0 ∧ ¬ F.isForkDetected hisSeq then pure self
  else
    let mySeq := F.get self.vSeq branchID
    -- `mySeq` observes the maximum already
    if F.isForkDetected mySeq then pure self
    else if F.isForkDetected hisSeq then pure (self.setForkDetected branchID)
    else
      let (self, mySeq) := self.takeMinSeq branchID mySeq hisSeq
      self.takeSeq other branchID mySeq hisSeq

/-- `CollectFrom`; `num` is the number of branches. -/
def collectFrom (self other : HighestBefore F) (num : ℕ) : Option (HighestBefore F) :=
  (List.range num).foldlM
    (fun self branchID => self.collectBranch other (UInt32.ofNat branchID)) self

/-- `GatherFrom`: the loop over the branches, from the highest branch so far. -/
def gatherBranches (other : HighestBefore F) : List UInt32 → BranchSeq × Timestamp →
    Option (BranchSeq × Timestamp)
  | [], highest => pure highest
  | branchID :: branches, highest => do
    let vseq := F.get other.vSeq branchID
    let vtime ← other.vTime.get branchID
    if F.isForkDetected vseq then pure (vseq, highest.2)
    else gatherBranches other branches (if vseq.seq > highest.1.seq then (vseq, vtime) else highest)

/-- `GatherFrom` -/
def gatherFrom (self : HighestBefore F) (to' : UInt32) (other : HighestBefore F)
    (branches : List UInt32) : Option (HighestBefore F) := do
  let (highestBranchSeq, highestBranchTime) ← other.gatherBranches branches (⟨0, 0⟩, 0)
  let vTime ← self.vTime.set to' highestBranchTime
  pure ⟨F.set self.vSeq to' highestBranchSeq, vTime⟩

end HighestBefore

/-! ## Vectors as functions

Without forks and within the size, a vector is a function from the branches to
their entries, and `CollectFrom` merges two such functions pointwise. -/

/-- What a vector has on a branch. -/
@[ext] structure Entry where
  branch : BranchSeq
  time : Timestamp

namespace Entry

/-- Nothing is observed. -/
def empty : Entry := ⟨⟨0, 0⟩, 0⟩

/-- No fork is marked: an entry without a sequence number is empty. -/
def Clean (x : Entry) : Prop := x.branch.seq = 0 → x.branch = ⟨0, 0⟩

/-- What `CollectFrom` makes of two entries. -/
def merge (my his : Entry) : Entry :=
  if his.branch.seq = 0 then my
  else
    { branch :=
        { seq := if my.branch.seq < his.branch.seq then his.branch.seq else my.branch.seq
          minSeq :=
            if my.branch.seq = 0 ∨ my.branch.minSeq > his.branch.minSeq then his.branch.minSeq
            else my.branch.minSeq }
      time := if my.branch.seq < his.branch.seq then his.time else my.time }

/-- What `GatherFrom` keeps of two entries. -/
def higher (x y : Entry) : Entry := if y.branch.seq > x.branch.seq then y else x

theorem merge_empty (x : Entry) : x.merge .empty = x := if_pos rfl

theorem empty_merge {x : Entry} (h : x.branch.seq ≠ 0) : Entry.empty.merge x = x := by
  have hpos : Entry.empty.branch.seq < x.branch.seq := UInt32.pos_iff_ne_zero.mpr h
  rw [merge, if_neg h, if_pos hpos, if_pos hpos, if_pos (.inl rfl)]

theorem Clean.isForkDetected (hF : F.Lawful) {x : Entry} (h : x.Clean) :
    F.isForkDetected x.branch = false := by
  by_cases hseq : x.branch.seq = 0
  · rw [h hseq]
    exact hF.isForkDetected_empty
  · exact hF.isForkDetected_pos _ hseq

/-- Entries without a fork stay so. -/
theorem Clean.merge {my his : Entry} (h : my.Clean) : (my.merge his).Clean := by
  rw [Entry.merge]
  split
  · exact h
  · rename_i hhis
    intro hzero
    simp only at hzero
    split at hzero
    · exact absurd hzero hhis
    · rename_i hle
      -- `his.seq` is positive, so that `my.seq = 0` would be below it
      rw [hzero, UInt32.not_lt] at hle
      exact absurd (UInt32.le_antisymm hle (UInt32.zero_le)) hhis

end Entry

/-- A vector for `n` branches that has the entries of `f`. -/
structure Represents (n : ℕ) (b : HighestBefore F) (f : ℕ → Entry) : Prop where
  sized : b.vTime.Sized n
  seq : ∀ i < n, F.get b.vSeq (UInt32.ofNat i) = (f i).branch
  time : ∀ i < n, b.vTime.get (UInt32.ofNat i) = some (f i).time
  clean : ∀ i < n, (f i).Clean

theorem ofNat_ne {n i j : ℕ} (hn : n < 2 ^ 29) (hi : i < n) (hj : j < n) (h : j ≠ i) :
    UInt32.ofNat j ≠ UInt32.ofNat i := by
  intro heq
  have heq := congrArg UInt32.toNat heq
  rw [UInt32.toNat_ofNat_of_lt' ((hj.trans hn).trans (by decide)),
    UInt32.toNat_ofNat_of_lt' ((hi.trans hn).trans (by decide))] at heq
  exact h heq

namespace Represents

variable {n i : ℕ} {b other : HighestBefore F} {f g : ℕ → Entry}

theorem new (hF : F.Lawful) (hn : n < 2 ^ 29) :
    Represents n (HighestBefore.new F (UInt32.ofNat n)) fun _ => .empty where
  sized := .new hn
  seq _ _ := hF.get_new _ _
  time _ hi := HighestBeforeTime.Sized.get_new hn hi
  clean _ _ _ := rfl

/-- Writing an entry, whatever was written there before. -/
theorem set (hF : F.Lawful) (hb : Represents n b f) (hi : i < n) {x : Entry} (hx : x.Clean)
    {v : F.HighestBeforeSeq} (hv : ∀ j ≠ UInt32.ofNat i, F.get v j = F.get b.vSeq j) :
    ∃ vTime, b.vTime.set (UInt32.ofNat i) x.time = some vTime ∧
      Represents n ⟨F.set v (UInt32.ofNat i) x.branch, vTime⟩ (Function.update f i x) := by
  obtain ⟨vTime, hset, hsized, hget, hother⟩ := hb.sized.set hi x.time
  refine ⟨vTime, hset, hsized, ?_, ?_, ?_⟩
  all_goals
    intro j hj
    rcases eq_or_ne j i with rfl | hne
  · rw [Function.update_self, hF.get_set]
  · have hne' := ofNat_ne hb.sized.fits hi hj hne
    rw [Function.update_of_ne hne, hF.get_set_ne _ _ _ _ hne', hv _ hne', hb.seq j hj]
  · rw [Function.update_self, hget]
  · rw [Function.update_of_ne hne, hother j hj hne, hb.time j hj]
  · rwa [Function.update_self]
  · rw [Function.update_of_ne hne]
    exact hb.clean j hj

theorem initWithEvent (hF : F.Lawful) (hb : Represents n b f) (hi : i < n) (e : Event)
    (he : e.seq ≠ 0) :
    ∃ b', b.initWithEvent (UInt32.ofNat i) e = some b' ∧
      Represents n b' (Function.update f i ⟨⟨e.seq, e.seq⟩, e.creationTime⟩) := by
  obtain ⟨vTime, hset, hb'⟩ :=
    hb.set hF hi (x := ⟨⟨e.seq, e.seq⟩, e.creationTime⟩) (fun h => absurd h he) fun _ _ => rfl
  refine ⟨_, ?_, hb'⟩
  rw [HighestBefore.initWithEvent, hset, hF.initWithEvent]
  rfl

/-- Writing the sequence numbers only. -/
theorem setSeq (hF : F.Lawful) (hb : Represents n b f) (hi : i < n) {s : BranchSeq}
    (hs : s.seq ≠ 0) :
    Represents n { b with vSeq := F.set b.vSeq (UInt32.ofNat i) s }
      (Function.update f i ⟨s, (f i).time⟩) where
  sized := hb.sized
  seq j hj := by
    rcases eq_or_ne j i with rfl | hne
    · rw [Function.update_self, hF.get_set]
    · rw [Function.update_of_ne hne, hF.get_set_ne _ _ _ _ (ofNat_ne hb.sized.fits hi hj hne),
        hb.seq j hj]
  time j hj := by
    rcases eq_or_ne j i with rfl | hne
    · rw [Function.update_self, hb.time j hj]
    · rw [Function.update_of_ne hne, hb.time j hj]
  clean j hj := by
    rcases eq_or_ne j i with rfl | hne
    · rw [Function.update_self]
      exact fun h => absurd h hs
    · rw [Function.update_of_ne hne]
      exact hb.clean j hj

theorem congr (hb : Represents n b f) (h : ∀ i < n, f i = g i) : Represents n b g where
  sized := hb.sized
  seq i hi := h i hi ▸ hb.seq i hi
  time i hi := h i hi ▸ hb.time i hi
  clean i hi := h i hi ▸ hb.clean i hi

/-- `CollectFrom` on a branch with the higher sequence number on his side. -/
theorem takeSeq_of_lt (hF : F.Lawful) (hb : Represents n b f) (ho : Represents n other g)
    (hi : i < n) (hlt : (f i).branch.seq < (g i).branch.seq) :
    ∃ b', ((b.takeMinSeq (UInt32.ofNat i) (f i).branch (g i).branch).1.takeSeq other
        (UInt32.ofNat i) (b.takeMinSeq (UInt32.ofNat i) (f i).branch (g i).branch).2
        (g i).branch) = some b' ∧
      Represents n b' (Function.update f i ((f i).merge (g i))) := by
  have hpos : (g i).branch.seq ≠ 0 := fun h => UInt32.not_lt_zero (h ▸ hlt)
  have hmerge : (f i).merge (g i) =
      { branch := { seq := (g i).branch.seq
                    minSeq := (b.takeMinSeq (UInt32.ofNat i) (f i).branch (g i).branch).2.minSeq }
        time := (g i).time } := by
    rw [Entry.merge, if_neg hpos, if_pos hlt, if_pos hlt, HighestBefore.takeMinSeq]
    split <;> rfl
  have hseq :
      (b.takeMinSeq (UInt32.ofNat i) (f i).branch (g i).branch).2.seq = (f i).branch.seq := by
    rw [HighestBefore.takeMinSeq]
    split <;> rfl
  have hvTime : (b.takeMinSeq (UInt32.ofNat i) (f i).branch (g i).branch).1.vTime = b.vTime := by
    rw [HighestBefore.takeMinSeq]
    split <;> rfl
  have hv : ∀ j ≠ UInt32.ofNat i,
      F.get (b.takeMinSeq (UInt32.ofNat i) (f i).branch (g i).branch).1.vSeq j =
        F.get b.vSeq j := by
    intro j hne
    rw [HighestBefore.takeMinSeq]
    split
    · exact hF.get_set_ne _ _ _ _ hne
    · rfl
  obtain ⟨vTime, hset, hb'⟩ := hb.set hF hi (hb.clean i hi).merge hv
  refine ⟨_, ?_, hb'⟩
  rw [HighestBefore.takeSeq, hseq, if_pos hlt, ho.time i hi, hvTime]
  rw [hmerge] at hset ⊢
  simp only [Option.bind_eq_bind, Option.bind_some, hset]
  rfl

/-- And with the higher one on my side. -/
theorem takeSeq_of_le (hF : F.Lawful) (hb : Represents n b f) (hi : i < n)
    (hpos : (g i).branch.seq ≠ 0) (hle : ¬ (f i).branch.seq < (g i).branch.seq) :
    ∃ b', ((b.takeMinSeq (UInt32.ofNat i) (f i).branch (g i).branch).1.takeSeq other
        (UInt32.ofNat i) (b.takeMinSeq (UInt32.ofNat i) (f i).branch (g i).branch).2
        (g i).branch) = some b' ∧
      Represents n b' (Function.update f i ((f i).merge (g i))) := by
  have hmine : (f i).branch.seq ≠ 0 := fun h =>
    hpos (UInt32.le_antisymm (h ▸ UInt32.not_lt.mp hle) UInt32.zero_le)
  rw [HighestBefore.takeMinSeq]
  split
  · rename_i hmin
    refine ⟨_, if_neg hle,
      (hb.setSeq hF hi (s := ⟨(f i).branch.seq, (g i).branch.minSeq⟩) hmine).congr fun j _ => ?_⟩
    rw [Entry.merge, if_neg hpos, if_neg hle, if_neg hle, if_pos hmin]
  · rename_i hmin
    refine ⟨b, if_neg hle, hb.congr fun j _ => ?_⟩
    rw [Entry.merge, if_neg hpos, if_neg hle, if_neg hle, if_neg hmin, Function.update_eq_self]

theorem collectBranch (hF : F.Lawful) (hb : Represents n b f) (ho : Represents n other g)
    (hi : i < n) :
    ∃ b', b.collectBranch other (UInt32.ofNat i) = some b' ∧
      Represents n b' (Function.update f i ((f i).merge (g i))) := by
  have hmine := (hb.clean i hi).isForkDetected hF
  have hhis := (ho.clean i hi).isForkDetected hF
  rw [HighestBefore.collectBranch, hb.seq i hi, ho.seq i hi]
  by_cases hpos : (g i).branch.seq = 0
  · refine ⟨b, if_pos ⟨hpos, by rw [hhis]; exact Bool.false_ne_true⟩, hb.congr fun j _ => ?_⟩
    rw [Entry.merge, if_pos hpos, Function.update_eq_self]
  · simp only [hpos, hmine, hhis, false_and, if_false, Bool.false_eq_true]
    by_cases hlt : (f i).branch.seq < (g i).branch.seq
    · exact hb.takeSeq_of_lt hF ho hi hlt
    · exact hb.takeSeq_of_le hF hi hpos hlt

/-- `CollectFrom` merges the vectors. -/
theorem collectFrom (hF : F.Lawful) (hb : Represents n b f) (ho : Represents n other g) :
    ∃ b', b.collectFrom other n = some b' ∧ Represents n b' fun i => (f i).merge (g i) := by
  -- after `k` rounds the first `k` branches are merged
  have hrounds : ∀ k ≤ n, ∃ b', (List.range k).foldlM
      (fun self branchID => self.collectBranch other (UInt32.ofNat branchID)) b = some b' ∧
      Represents n b' fun i => if i < k then (f i).merge (g i) else f i := by
    intro k
    induction k with
    | zero => exact fun _ => ⟨b, rfl, hb.congr fun i _ => (if_neg (Nat.not_lt_zero i)).symm⟩
    | succ k ih =>
      intro hk
      obtain ⟨b', hfold, hb'⟩ := ih (Nat.le_of_succ_le hk)
      obtain ⟨b'', hstep, hb''⟩ := hb'.collectBranch hF ho hk
      refine ⟨b'', ?_, hb''.congr fun i _ => ?_⟩
      · rw [List.range_succ, List.foldlM_append, hfold]
        simpa using hstep
      · rcases eq_or_ne i k with rfl | hne
        · rw [Function.update_self, if_neg (Nat.lt_irrefl i), if_pos (Nat.lt_succ_self i)]
        · rw [Function.update_of_ne hne]
          simp only [Nat.lt_succ_iff_lt_or_eq, hne, or_false]
  obtain ⟨b', hfold, hb'⟩ := hrounds n (Nat.le_refl n)
  exact ⟨b', hfold, hb'.congr fun i hi => if_pos hi⟩

theorem gatherBranches (hF : F.Lawful) (ho : Represents n other g) {branches : List ℕ}
    (hbranches : ∀ j ∈ branches, j < n) (x : Entry) (hx : x.Clean) :
    ∃ y : Entry, other.gatherBranches (branches.map UInt32.ofNat) (x.branch, x.time) =
        some (y.branch, y.time) ∧ y = (branches.map g).foldl Entry.higher x ∧ y.Clean := by
  induction branches generalizing x with
  | nil => exact ⟨x, rfl, rfl, hx⟩
  | cons j branches ih =>
    obtain ⟨hj, hbranches⟩ := List.forall_mem_cons.mp hbranches
    have hclean : (x.higher (g j)).Clean := by
      rw [Entry.higher]
      split
      · exact ho.clean j hj
      · exact hx
    obtain ⟨y, hy, hfold, hyclean⟩ := ih hbranches _ hclean
    refine ⟨y, ?_, hfold, hyclean⟩
    rw [List.map_cons, HighestBefore.gatherBranches, ho.seq j hj, ho.time j hj,
      (ho.clean j hj).isForkDetected hF]
    rw [← hy, Entry.higher]
    simp only [Option.bind_eq_bind, Option.bind_some, Bool.false_eq_true, if_false]
    split <;> rfl

/-- `GatherFrom` copies the highest entry of the branches. -/
theorem gatherFrom (hF : F.Lawful) (hb : Represents n b f) (ho : Represents n other g) (hi : i < n)
    {branches : List ℕ} (hbranches : ∀ j ∈ branches, j < n) :
    ∃ b', b.gatherFrom (UInt32.ofNat i) other (branches.map UInt32.ofNat) = some b' ∧
      Represents n b' (Function.update f i ((branches.map g).foldl Entry.higher .empty)) := by
  obtain ⟨y, hy, rfl, hclean⟩ := ho.gatherBranches hF hbranches .empty fun _ => rfl
  obtain ⟨vTime, hset, hb'⟩ := hb.set hF hi hclean fun _ _ => rfl
  refine ⟨_, ?_, hb'⟩
  have hempty :
      ((⟨0, 0⟩, 0) : BranchSeq × Timestamp) = (Entry.empty.branch, Entry.empty.time) := rfl
  rw [HighestBefore.gatherFrom, hempty, hy]
  simp only [Option.bind_eq_bind, Option.bind_some, hset]
  rfl

end Represents

end Zilionixx.Vecmt
