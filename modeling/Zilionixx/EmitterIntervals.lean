import Zilionixx.EventCheck
import Zilionixx.Piecefunc

/-!
# The emit intervals of the emitter

`recountValidators` sets the intervals of the emitter anew: at the start of each epoch
(`OnNewEpoch`), and whenever a validator has missed its challenge (`recheckChallenges`).
While the network is young, the protection against doublesigning is relaxed. That
interval is the only one which is not first set from the configuration.

Times are nanoseconds, durations are `int64` as in Go.
-/

namespace Zilionixx

/-- `EmitIntervals`. `Min` and `ParallelInstanceProtection` stay as they are configured. -/
structure EmitIntervals where
  max : Int64
  /-- emit time when there's no txs to originate, but at least 1 tx to confirm -/
  confirming : Int64
  doublesignProtection : Int64
  deriving DecidableEq

/-- `emitter.Config`, as far as it is read for the intervals. `NewEmitter` has randomized
the intervals. -/
structure EmitterConfig where
  /-- `Validator.ID` -/
  validatorID : ValidatorID
  emitIntervals : EmitIntervals
  maxParents : UInt32

/-- `validatorChallenge` -/
def validatorChallenge : Int64 := 4000000000

/-- `networkStartPeriod` -/
def networkStartPeriod : Int64 := 10800000000000

/-- `now.Sub(t)`, a duration that saturates -/
def since (now t : ℤ) : Int64 := Int64.ofIntClamp (now - t)

/-- `Timestamp.Time` -/
def timeOf (t : Timestamp) : ℤ := t.toInt64.toInt

/-- `confirmingEmitIntervalF` -/
def confirmingEmitIntervalF : Piecefunc.Func where
  dots := [⟨0, 1000000⟩, ⟨340000, 1050000⟩, ⟨670000, 1200000⟩, ⟨800000, 10000000⟩,
    ⟨810000, 50000000⟩, ⟨1000000, 60000000⟩]
  two_le := by decide
  increasing := by decide

/-- `Emitter`, as far as the intervals go. -/
structure Emitter where
  config : EmitterConfig
  intervals : EmitIntervals
  /-- `none` is `nil`, before the first epoch -/
  validators : Option Validators
  epoch : UInt32
  maxParents : UInt32
  prevEmittedAtTime : ℤ
  /-- whether there are no originated transactions -/
  idle : Bool
  pendingGas : UInt64
  /-- validators which are likely to be offline -/
  offlineValidators : ValidatorID → Bool
  /-- the deadlines when each validator should emit an event -/
  challenges : List (ValidatorID × ℤ)
  expectedEmitIntervals : ValidatorID → Int64
  stakeRatio : ValidatorID → UInt64
  prevRecheckedChallenges : ℤ

/-- `NewEmitter`; the zero `time.Time` is taken as an argument. -/
def newEmitter (config : EmitterConfig) (zeroTime : ℤ) : Emitter where
  config := config
  intervals := config.emitIntervals
  validators := none
  epoch := 0
  maxParents := 0
  prevEmittedAtTime := zeroTime
  idle := true
  pendingGas := 0
  offlineValidators _ := false
  challenges := []
  expectedEmitIntervals _ := 0
  stakeRatio _ := 0
  prevRecheckedChallenges := zeroTime

/-! ## `recountValidators` -/

/-- The network just has started. -/
def isYoung (age : Int64) : Bool := age < networkStartPeriod

/-- The doublesign protection is relaxed if the network just has started. -/
def EmitIntervals.relax (intervals : EmitIntervals) (age : Int64) : EmitIntervals :=
  if isYoung age then
    { intervals with
      max := intervals.max / 6
      doublesignProtection := intervals.doublesignProtection / 6 }
  else intervals

/-- What the loop of `recountValidators` goes on with. -/
structure Recount where
  totalStakeBefore : UInt32
  stakeRatio : ValidatorID → UInt64
  expectedEmitIntervals : ValidatorID → Int64

namespace Emitter

/-- The loop of `recountValidators`. -/
def recountStep (em : Emitter) (validators : Validators) (r : Recount) (vid : ValidatorID) :
    Recount :=
  let stakeRatio := r.totalStakeBefore.toUInt64 * Piecefunc.decimalUnit /
    validators.totalWeight.toUInt64
  let ratio := confirmingEmitIntervalF.get stakeRatio
  { totalStakeBefore :=
      if em.offlineValidators vid then r.totalStakeBefore
      else r.totalStakeBefore + validators.get vid
    stakeRatio := Function.update r.stakeRatio vid stakeRatio
    expectedEmitIntervals := Function.update r.expectedEmitIntervals vid
      (Piecefunc.mul em.config.emitIntervals.confirming.toUInt64 ratio).toInt64 }

/-- `recountValidators`, at an age of the network; `none` is a division by zero. -/
def recountValidators (em : Emitter) (validators : Validators) (age : Int64) : Option Emitter :=
  if validators.sortedIDs ≠ [] ∧ validators.totalWeight = 0 then none
  else
    let r := validators.sortedIDs.foldl (em.recountStep validators)
      ⟨0, em.stakeRatio, em.expectedEmitIntervals⟩
    let intervals :=
      { em.intervals with
        confirming := r.expectedEmitIntervals em.config.validatorID
        max := em.config.emitIntervals.max }
    some
      { em with
        stakeRatio := r.stakeRatio
        expectedEmitIntervals := r.expectedEmitIntervals
        intervals := intervals.relax age }

/-! ## `OnNewEpoch` -/

/-- `isValidator`, for the validators of an epoch -/
def isValidator (em : Emitter) (validators : Validators) : Bool :=
  em.config.validatorID ≠ 0 ∧ validators.get em.config.validatorID ≠ 0

/-- The validators and the epoch are set, and the number of parents, within the rules. -/
def enterEpoch (em : Emitter) (validators : Validators) (epoch maxParents : UInt32) : Emitter :=
  let configured := if em.config.maxParents = 0 then maxParents else em.config.maxParents
  { em with
    maxParents := if configured > maxParents then maxParents else configured
    validators := some validators
    epoch := epoch }

/-- What was known of the last epoch is forgotten. -/
def forgetEpoch (em : Emitter) (prevEmitTime : ℤ) : Emitter :=
  { em with
    prevEmittedAtTime := prevEmitTime
    idle := true
    pendingGas := 0
    offlineValidators := fun _ => false
    challenges := []
    expectedEmitIntervals := fun _ => 0
    stakeRatio := fun _ => 0 }

/-- `OnNewEpoch`. `maxParents` is from the rules, and `prevEmitTime` is what
`loadPrevEmitTime` returns. -/
def onNewEpoch (em : Emitter) (validators : Validators) (epoch maxParents : UInt32)
    (prevEmitTime : ℤ) (age : Int64) : Option Emitter :=
  let em := em.enterEpoch validators epoch maxParents
  if em.isValidator validators = false then some em
  else (em.forgetEpoch prevEmitTime).recountValidators validators age

/-! ## `recheckChallenges` -/

/-- A challenge for a validator that has none and is not offline. -/
def challenge (em : Emitter) (now : ℤ) (challenges : List (ValidatorID × ℤ)) (vid : ValidatorID) :
    List (ValidatorID × ℤ) :=
  if em.offlineValidators vid ∨ vid ∈ challenges.map Prod.fst then challenges
  else challenges ++ [(vid, now + (validatorChallenge + em.expectedEmitIntervals vid * 4).toInt)]

/-- The challenges that are given if the network is not idle, and else erased; `none` is a
`nil` pointer. -/
def giveChallenges (em : Emitter) (now : ℤ) : Option (List (ValidatorID × ℤ)) :=
  if em.idle then some []
  else em.validators.map fun validators =>
    validators.sortedIDs.foldl (em.challenge now) em.challenges

/-- The validators whose deadline has passed. -/
def missed (now : ℤ) (challenges : List (ValidatorID × ℤ)) : List ValidatorID :=
  (challenges.filter fun c => now > c.2).map Prod.fst

/-- Challenges, and the validators that have missed them. -/
def markOffline (em : Emitter) (challenges : List (ValidatorID × ℤ)) (offline : List ValidatorID) :
    Emitter :=
  { em with
    challenges := challenges
    offlineValidators := fun vid => em.offlineValidators vid || offline.contains vid }

/-- A recount for the validators of the epoch, if there is a reason for it. -/
def recountIf (em : Emitter) (recount : Bool) (age : Int64) : Option Emitter :=
  if recount then em.validators.bind fun validators => em.recountValidators validators age
  else some em

/-- `recheckChallenges`. `start` is when it is called, and `age` that of the network at a
recount. -/
def recheckChallenges (em : Emitter) (start now : ℤ) (age : Int64) : Option Emitter :=
  if since start em.prevRecheckedChallenges < validatorChallenge / 10 then some em
  else do
    let challenges ← em.giveChallenges now
    let offline := missed now challenges
    let em ← (em.markOffline challenges offline).recountIf (!offline.isEmpty) age
    pure { em with prevRecheckedChallenges := now }

/-! ## Runs -/

/-- What happens to the emitter. -/
inductive Call where
  | onNewEpoch (validators : Validators) (epoch maxParents : UInt32) (prevEmitTime now : ℤ)
  | recheckChallenges (start now recountAt : ℤ)
  /-- what events leave that are connected or confirmed -/
  | onEvents (idle : Bool) (pendingGas : UInt64) (offlineValidators : ValidatorID → Bool)
      (challenges : List (ValidatorID × ℤ))

/-- A call, in a network of which the genesis time is known. -/
def call (genesisTime : Timestamp) (em : Emitter) : Call → Option Emitter
  | .onNewEpoch validators epoch maxParents prevEmitTime now =>
    em.onNewEpoch validators epoch maxParents prevEmitTime (since now (timeOf genesisTime))
  | .recheckChallenges start now recountAt =>
    em.recheckChallenges start now (since recountAt (timeOf genesisTime))
  | .onEvents idle pendingGas offlineValidators challenges =>
    some { em with
      idle := idle
      pendingGas := pendingGas
      offlineValidators := offlineValidators
      challenges := challenges }

/-- One call after the other. -/
def run (genesisTime : Timestamp) : List Call → Emitter → Option Emitter
  | [], em => some em
  | c :: cs, em => (em.call genesisTime c).bind (run genesisTime cs)

/-- The age of the network at the recount of a call, if it comes to one. -/
def recountAge (genesisTime : Timestamp) (em : Emitter) : Call → Option Int64
  | .onNewEpoch validators _ _ _ now =>
    if em.isValidator validators then some (since now (timeOf genesisTime)) else none
  | .recheckChallenges start now recountAt =>
    if since start em.prevRecheckedChallenges < validatorChallenge / 10 then none
    else (em.giveChallenges now).bind fun challenges =>
      if (missed now challenges).isEmpty then none
      else some (since recountAt (timeOf genesisTime))
  | .onEvents .. => none

/-- The ages of the network at the recounts of a run. -/
def recountAges (genesisTime : Timestamp) : List Call → Emitter → List Int64
  | [], _ => []
  | c :: cs, em =>
    (em.recountAge genesisTime c).toList ++
      ((em.call genesisTime c).map (recountAges genesisTime cs)).getD []

/-- `isSyncedToEmit`: how long to wait, and the reason. `syncedToEmit` is
`doublesign.SyncedToEmit` for the current status. -/
def isSyncedToEmit (em : Emitter) (syncedToEmit : Int64 → Int64 × Option String) :
    Int64 × Option String :=
  -- protection disabled
  if em.intervals.doublesignProtection = 0 then (0, none)
  else syncedToEmit em.intervals.doublesignProtection

/-! ## The doublesign protection -/

variable {genesisTime : Timestamp} {em em' : Emitter}

theorem recountValidators_eq_some {validators : Validators} {age : Int64}
    (h : em.recountValidators validators age = some em') :
    em'.intervals.doublesignProtection =
      if isYoung age then em.intervals.doublesignProtection / 6
      else em.intervals.doublesignProtection := by
  unfold recountValidators at h
  split at h
  · cases h
  · cases h
    simp only [EmitIntervals.relax]
    split <;> rfl

theorem onNewEpoch_eq_some {validators : Validators} {epoch maxParents : UInt32} {prevEmitTime : ℤ}
    {age : Int64} (h : em.onNewEpoch validators epoch maxParents prevEmitTime age = some em') :
    em'.intervals.doublesignProtection =
      if em.isValidator validators ∧ isYoung age then em.intervals.doublesignProtection / 6
      else em.intervals.doublesignProtection := by
  have hentered : (em.enterEpoch validators epoch maxParents).isValidator validators =
      em.isValidator validators := rfl
  unfold onNewEpoch at h
  simp only [hentered] at h
  split at h
  · rename_i hnone
    cases h
    rw [hnone]
    rfl
  · rename_i hsome
    rw [recountValidators_eq_some h, Bool.eq_true_of_not_eq_false hsome]
    simp [forgetEpoch, enterEpoch]

theorem recheckChallenges_eq_some {start now : ℤ} {age : Int64}
    (h : em.recheckChallenges start now age = some em') :
    em'.intervals = em.intervals ∧
        (since start em.prevRecheckedChallenges < validatorChallenge / 10 ∨
          ∃ challenges, em.giveChallenges now = some challenges ∧ missed now challenges = []) ∨
      (∃ challenges, em.giveChallenges now = some challenges ∧ missed now challenges ≠ []) ∧
        ¬since start em.prevRecheckedChallenges < validatorChallenge / 10 ∧
        em'.intervals.doublesignProtection =
          if isYoung age then em.intervals.doublesignProtection / 6
          else em.intervals.doublesignProtection := by
  unfold recheckChallenges at h
  split at h
  · rename_i hsoon
    cases h
    exact .inl ⟨rfl, .inl hsoon⟩
  · rename_i hdue
    obtain ⟨challenges, hchallenges, h⟩ := Option.bind_eq_some_iff.mp h
    obtain ⟨em₁, hrecount, h⟩ := Option.bind_eq_some_iff.mp h
    cases h
    unfold recountIf at hrecount
    split at hrecount
    · rename_i hsome
      obtain ⟨validators, -, hrecount⟩ := Option.bind_eq_some_iff.mp hrecount
      have hprotection := recountValidators_eq_some hrecount
      exact .inr ⟨⟨challenges, hchallenges, by simpa using hsome⟩, hdue, hprotection⟩
    · rename_i hnone
      cases hrecount
      exact .inl ⟨rfl, .inr ⟨challenges, hchallenges, by simpa using hnone⟩⟩

/-- What a call does to the doublesign protection: a recount in a young network divides it,
and nothing else changes it. -/
theorem call_eq_some {c : Call} (h : em.call genesisTime c = some em') :
    em'.intervals.doublesignProtection =
      if (em.recountAge genesisTime c).any isYoung then em.intervals.doublesignProtection / 6
      else em.intervals.doublesignProtection := by
  cases c with
  | onNewEpoch validators epoch maxParents prevEmitTime now =>
    rw [onNewEpoch_eq_some h, recountAge]
    cases em.isValidator validators <;> simp
  | recheckChallenges start now recountAt =>
    rcases recheckChallenges_eq_some h with
      ⟨hsame, hsoon | ⟨challenges, hgive, hnone⟩⟩ | ⟨⟨challenges, hgive, hsome⟩, hdue, hprotection⟩
    · simp [recountAge, hsoon, hsame]
    · simp [recountAge, hgive, hnone, hsame]
    · simpa [recountAge, hgive, hsome, hdue] using hprotection
  | onEvents =>
    cases h
    rfl

/-- The recounts of a run divide the protection, each in a young network once more. -/
theorem run_eq_some {calls : List Call} (h : run genesisTime calls em = some em') :
    em'.intervals.doublesignProtection =
      (· / 6)^[(recountAges genesisTime calls em).countP isYoung]
        em.intervals.doublesignProtection := by
  induction calls generalizing em with
  | nil =>
    cases h
    rfl
  | cons c cs ih =>
    obtain ⟨em₁, hcall, h⟩ := Option.bind_eq_some_iff.mp h
    rw [ih h, call_eq_some hcall, recountAges, hcall, Option.map_some, Option.getD_some,
      List.countP_append, Nat.add_comm, Function.iterate_add_apply]
    congr 1
    cases em.recountAge genesisTime c with
    | none => rfl
    | some age => cases hage : isYoung age <;> simp [hage]

end Emitter

/-! ## Durations that are divided again and again -/

theorem natAbs_iterate_div (d : Int64) (k : ℕ) :
    ((· / 6)^[k] d).toInt.natAbs = d.toInt.natAbs / 6 ^ k := by
  induction k with
  | zero => simp
  | succ k ih =>
    rw [Function.iterate_succ_apply', Int64.toInt_div_of_ne_right _ _ (by decide), Int.natAbs_tdiv,
      ih]
    exact Nat.div_div_eq_div_mul ..

theorem natAbs_toInt_eq_zero {d : Int64} : d.toInt.natAbs = 0 ↔ d = 0 := by
  rw [Int.natAbs_eq_zero]
  exact Int64.toInt_inj (y := 0)

theorem iterate_div_eq_zero_iff (d : Int64) (k : ℕ) :
    (· / 6)^[k] d = 0 ↔ d.toInt.natAbs < 6 ^ k := by
  rw [← natAbs_toInt_eq_zero, natAbs_iterate_div, Nat.div_eq_zero_iff_lt (Nat.pow_pos (by decide))]

/-- A duration that is divided stays the same only if it is zero. -/
theorem iterate_div_eq_self_iff (d : Int64) (k : ℕ) : (· / 6)^[k] d = d ↔ d = 0 ∨ k = 0 := by
  constructor
  · intro h
    by_contra hne
    rw [not_or] at hne
    have habs : d.toInt.natAbs / 6 ^ k = d.toInt.natAbs := by rw [← natAbs_iterate_div, h]
    have hpos : 0 < d.toInt.natAbs := Nat.pos_of_ne_zero (mt natAbs_toInt_eq_zero.mp hne.1)
    exact absurd habs (Nat.ne_of_lt (Nat.div_lt_self hpos (Nat.one_lt_pow hne.2 (by decide))))
  · rintro (rfl | rfl)
    · exact (iterate_div_eq_zero_iff 0 k).mpr (Nat.pow_pos (by decide))
    · rfl

open Emitter

/-- **When the doublesign protection is kept.** At the end of a run the protection is the
configured one, or that divided once by 6 with the network still young at the last recount,
just if the configured one is 0, or no recount was in a young network, or the last one was
and is the only one (or a second division does not matter). The protection is 0, which
disables the check, as soon as there were enough recounts in the young network. -/
theorem doublesignProtection_iff (config : EmitterConfig) (zeroTime : ℤ) (genesisTime : Timestamp)
    (calls : List Call) (em : Emitter)
    (h : run genesisTime calls (newEmitter config zeroTime) = some em) :
    ((em.intervals.doublesignProtection = config.emitIntervals.doublesignProtection ∨
        em.intervals.doublesignProtection = config.emitIntervals.doublesignProtection / 6 ∧
          ((recountAges genesisTime calls (newEmitter config zeroTime)).getLast?.any isYoung)) ↔
      config.emitIntervals.doublesignProtection = 0 ∨
        (recountAges genesisTime calls (newEmitter config zeroTime)).countP isYoung = 0 ∨
        ((recountAges genesisTime calls (newEmitter config zeroTime)).countP isYoung = 1 ∨
            config.emitIntervals.doublesignProtection / 6 = 0) ∧
          ((recountAges genesisTime calls (newEmitter config zeroTime)).getLast?.any isYoung)) ∧
      (em.intervals.doublesignProtection = 0 ↔
        config.emitIntervals.doublesignProtection.toInt.natAbs <
          6 ^ (recountAges genesisTime calls (newEmitter config zeroTime)).countP isYoung) := by
  have hrun := run_eq_some h
  have hlast : (recountAges genesisTime calls (newEmitter config zeroTime)).getLast?.any isYoung →
      (recountAges genesisTime calls (newEmitter config zeroTime)).countP isYoung ≠ 0 := by
    intro hyoung hzero
    obtain ⟨age, hage, hyoung⟩ := (Option.any_eq_true _ _).mp hyoung
    exact List.countP_eq_zero.mp hzero age (List.mem_of_getLast? hage) hyoung
  generalize recountAges genesisTime calls (newEmitter config zeroTime) = ages at hrun hlast ⊢
  have hconfig : (newEmitter config zeroTime).intervals.doublesignProtection =
      config.emitIntervals.doublesignProtection := rfl
  rw [hconfig] at hrun
  generalize config.emitIntervals.doublesignProtection = d at hrun ⊢
  generalize ages.countP isYoung = k at hrun hlast ⊢
  rw [hrun]
  refine ⟨?_, iterate_div_eq_zero_iff d k⟩
  rw [iterate_div_eq_self_iff, or_assoc]
  refine or_congr_right (or_congr_right (and_congr_left fun hyoung => ?_))
  obtain ⟨j, rfl⟩ := Nat.exists_eq_succ_of_ne_zero (hlast hyoung)
  rw [Function.iterate_succ_apply, iterate_div_eq_self_iff, or_comm]
  simp

/-- `DefaultConfig`, for a validator -/
def defaultConfig : EmitterConfig where
  validatorID := 1
  emitIntervals :=
    { max := 600000000000
      confirming := 120000000
      doublesignProtection := 1620000000000 }
  maxParents := 0

/-- A second of nanoseconds. -/
def inSeconds (n : ℤ) : ℤ := n * 1000000000

/-- The first epoch starts a second after genesis. -/
def startCall : Call := .onNewEpoch sampleValidators 1 10 0 (inSeconds 1)

theorem doublesignProtection_start :
    ∃ em, run 0 [startCall] (newEmitter defaultConfig (inSeconds (-1000))) = some em ∧
      (em.intervals.doublesignProtection = defaultConfig.emitIntervals.doublesignProtection ∨
        em.intervals.doublesignProtection = defaultConfig.emitIntervals.doublesignProtection / 6 ∧
          ((recountAges 0 [startCall] (newEmitter defaultConfig (inSeconds (-1000)))).getLast?.any
            isYoung)) := by
  have hrun : (run 0 [startCall] (newEmitter defaultConfig (inSeconds (-1000)))).isSome = true := by
    decide +kernel
  obtain ⟨em, hem⟩ := Option.isSome_iff_exists.mp hrun
  refine ⟨em, hem, (doublesignProtection_iff defaultConfig _ 0 _ em hem).1.mpr ?_⟩
  exact .inr (.inr ⟨.inl (by decide +kernel), by decide +kernel⟩)

/-- A validator misses its challenge, and the challenges are checked every second. -/
def missedChallenge : List Call :=
  [startCall, .onEvents false 0 (fun _ => false) []] ++
    (List.range 25).map fun i => .recheckChallenges (inSeconds (i + 2)) (inSeconds (i + 2))
      (inSeconds (i + 2))

/-- In the first half of a minute of a network the protection of 27 minutes decays to
nothing. -/
theorem doublesignProtection_decays :
    6 ≤ defaultConfig.emitIntervals.doublesignProtection ∧
      ∃ em, run 0 missedChallenge (newEmitter defaultConfig (inSeconds (-1000))) = some em ∧
        em.intervals.doublesignProtection = 0 ∧
        ∀ syncedToEmit, em.isSyncedToEmit syncedToEmit = (0, none) := by
  obtain ⟨em, hem, hzero⟩ :
      ∃ em, run 0 missedChallenge (newEmitter defaultConfig (inSeconds (-1000))) = some em ∧
        em.intervals.doublesignProtection = 0 := by
    decide +kernel
  exact ⟨by decide, em, hem, hzero, fun _ => if_pos hzero⟩

end Zilionixx
