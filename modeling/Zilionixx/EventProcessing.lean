import Zilionixx.EventCheck
import Mathlib.Data.Finset.Basic

/-!
# `processEvent`: connecting an event

`c_event_callbacks.go`. An event that passes is saved, indexed and processed by the
consensus engine, and then becomes a head and the last event of its creator; one that
fails is deleted again. The consensus engine may start a new epoch, and the `Commit` at
the end may fail when the event is connected already.

What is outside comes in with each call (`ProcessEnv`). The store is a map here.
-/

namespace Zilionixx

/-- What the service keeps about events. -/
structure Service where
  stopped : Bool
  /-- `GetEpoch` -/
  epoch : UInt32
  /-- the hash of the epoch state -/
  epochHash : Hash
  /-- `GetEventPayload` -/
  events : EventID → Option EventPayload
  /-- `GetHeads` of the epoch -/
  heads : Finset EventID
  /-- `GetLastEvents` of the epoch -/
  lastEvents : ValidatorID → Option EventID
  /-- `GetHighestLamport` -/
  highestLamport : UInt32
  /-- the epoch that the emitter was told last -/
  emitterEpoch : UInt32

/-- The errors of `processEvent`. -/
inductive ProcessError where
  /-- `errStopped`: "service is stopped" -/
  | stopped
  /-- `ErrAlreadyConnectedEvent` -/
  | alreadyConnected
  /-- an error of the epoch check -/
  | check (err : CheckError)
  /-- `errWrongEpochHash`: "wrong event epoch hash" -/
  | wrongEpochHash
  /-- an error of the vector index -/
  | index (text : String)
  /-- `errWrongMedianTime`: "wrong event median time" -/
  | wrongMedianTime
  /-- an error of the consensus engine -/
  | engine (text : String)
  /-- an error of `Commit` -/
  | commit (text : String)

/-- An epoch: its number, and the hash of its state. -/
structure EpochInfo where
  epoch : UInt32
  epochHash : Hash

/-- What a call of `processEvent` is told from outside. -/
structure ProcessEnv where
  /-- `Epochcheck.Validate` -/
  epochcheck : EventPayload → Checked Unit
  /-- `Add` of the vector index, and then the `MedianTime` from the start of the epoch -/
  index : EventPayload → Except String Timestamp
  /-- `Process` of the consensus engine, and the epoch after it -/
  engine : EventPayload → Except String EpochInfo
  /-- the error of `Commit`, if one is needed -/
  commit : Option String

/-- `processSavedEvent` -/
def ProcessEnv.processSavedEvent (env : ProcessEnv) (e : EventPayload) :
    Except ProcessError EpochInfo := do
  let medianTime ← (env.index e).mapError .index
  if e.medianTime ≠ medianTime then .error .wrongMedianTime
  else (env.engine e).mapError .engine

namespace Service

/-- `SetEvent` -/
def setEvent (s : Service) (e : EventPayload) : Service :=
  { s with events := Function.update s.events e.id (some e) }

/-- `DelEvent` -/
def delEvent (s : Service) (id : EventID) : Service :=
  { s with events := Function.update s.events id none }

/-- `processEventHeads` and `processLastEvent` -/
def setHeads (s : Service) (e : EventPayload) : Service :=
  { s with
    heads := insert e.id (s.heads \ e.parents.toFinset)
    lastEvents := Function.update s.lastEvents e.creator (some e.id) }

/-- The highest lamport, and what is reset if the epoch is a new one. The emitter is told
about it. -/
def setEpoch (s : Service) (e : EventPayload) (new : EpochInfo) : Service :=
  if new.epoch ≠ s.epoch then
    { s with
      epoch := new.epoch
      epochHash := new.epochHash
      heads := ∅
      lastEvents := fun _ => none
      highestLamport := 0
      emitterEpoch := new.epoch }
  else { s with highestLamport := max s.highestLamport e.lamport }

/-- `saveAndProcessEvent` -/
def saveAndProcessEvent (env : ProcessEnv) (s : Service) (e : EventPayload) :
    Service × Except ProcessError EpochInfo :=
  let s := s.setEvent e
  match env.processSavedEvent e with
  | .error err => (s.delEvent e.id, .error err)
  | .ok new => (s, .ok new)

/-- `processEvent`; `none` is a panic. -/
def processEvent (env : ProcessEnv) (s : Service) (e : EventPayload) :
    Option (Service × Except ProcessError Unit) :=
  if s.stopped then some (s, .error .stopped)
  -- repeat the checks under the mutex which may depend on volatile data
  else if (s.events e.id).isSome then some (s, .error .alreadyConnected)
  else
    match env.epochcheck e with
    | .error .panic => none
    | .error (.error err) => some (s, .error (.check err))
    | .ok () =>
      -- check prev epoch hash
      if e.prevEpochHash.any (· ≠ s.epochHash) then some (s.delEvent e.id, .error .wrongEpochHash)
      else
        match s.saveAndProcessEvent env e with
        | (s, .error err) => some (s, .error err)
        | (s, .ok new) =>
          -- index DAG heads and last events
          let s := (s.setHeads e).setEpoch e new
          some (s, env.commit.elim (.ok ()) fun text => .error (.commit text))

/-! ## What a call does -/

variable {env : ProcessEnv} {s s' : Service} {e : EventPayload} {r : Except ProcessError Unit}

theorem delEvent_of_none {id : EventID} (h : s.events id = none) : s.delEvent id = s := by
  unfold delEvent
  rw [← h, Function.update_eq_self]

/-- Deleting undoes setting. -/
theorem delEvent_setEvent (h : s.events e.id = none) : (s.setEvent e).delEvent e.id = s := by
  have hdel : (s.setEvent e).delEvent e.id = s.delEvent e.id := by
    unfold delEvent setEvent
    rw [Function.update_idem]
  rw [hdel, delEvent_of_none h]

/-- An event is refused and nothing has changed, or it was not connected and is now,
whatever the call returns. -/
theorem processEvent_eq_some (h : processEvent env s e = some (s', r)) :
    (∃ err, r = .error err ∧ s' = s) ∨
      s.events e.id = none ∧ ∃ new, s' = ((s.setEvent e).setHeads e).setEpoch e new := by
  unfold processEvent at h
  split at h
  · cases h
    exact .inl ⟨_, rfl, rfl⟩
  · split at h
    · cases h
      exact .inl ⟨_, rfl, rfl⟩
    · rename_i hnone
      rw [Option.not_isSome_iff_eq_none] at hnone
      split at h
      · cases h
      · cases h
        exact .inl ⟨_, rfl, rfl⟩
      · split at h
        · cases h
          exact .inl ⟨_, rfl, delEvent_of_none hnone⟩
        · unfold saveAndProcessEvent at h
          simp only at h
          cases hsaved : env.processSavedEvent e with
          | error err =>
            rw [hsaved] at h
            cases h
            exact .inl ⟨_, rfl, delEvent_setEvent hnone⟩
          | ok new =>
            rw [hsaved] at h
            cases h
            exact .inr ⟨hnone, new, rfl⟩

end Service

end Zilionixx
