import Zilionixx.EmitterTxs
import Zilionixx.EventProcessing
import Mathlib.Logic.Relation

/-!
# `EmitEvent`: the events of this validator

`emitter.go` and `parents.go`. The self-parent of a new event is the last event of the
validator, as `processEvent` has it; the creation can be given up at many points, and
`Process` may fail before or after the event is connected.

Whatever fails, the events of the validator stay one chain as long as it runs alone.
-/

namespace Zilionixx

/-- Why no event is emitted. -/
inductive Abandoned where
  | notValidator
  | notSynced
  /-- "Events emitting isn't allowed due to the doublesign" -/
  | doublesign
  /-- "I've created a fork, events emitting isn't allowed" -/
  | fork
  | build (err : BuildError)
  | notAllowed
  /-- "Failed to sign event" -/
  | sign
  /-- "Emitted incorrect event" -/
  | check (err : CheckError)
  deriving DecidableEq

/-- What the creation of an event comes to. -/
abbrev Creation := Except (Fault Abandoned)

namespace Creation

/-- Return no event if `bad`. -/
def giveUp (bad : Prop) [Decidable bad] (why : Abandoned) : Creation Unit :=
  if bad then .error (.error why) else .ok ()

/-- A value, or a panic. -/
def orPanic {α : Type} : Option α → Creation α
  | none => .error .panic
  | some a => .ok a

/-- A value, or no event. -/
def orGiveUp {α : Type} (why : Abandoned) : Option α → Creation α
  | none => .error (.error why)
  | some a => .ok a

/-- A result, or no event. -/
def orError {ε α : Type} (why : ε → Abandoned) : Except (Fault ε) α → Creation α
  | .error .panic => .error .panic
  | .error (.error err) => .error (.error (why err))
  | .ok a => .ok a

end Creation

/-- What a call of `EmitEvent` is told from outside. -/
structure EmitEnv where
  /-- `IsBusy` -/
  isBusy : Bool
  isValidator : Bool
  /-- `isSyncedToEmit` -/
  isSynced : Bool
  /-- whether the vector index has seen a fork of the validator, from its last event -/
  isCheater : EventID → Bool
  /-- `ancestor.ChooseParents`, with its strategies -/
  chooseParents : List EventID → Finset EventID → List EventID
  /-- the current time -/
  now : Timestamp
  /-- what `Build` reads, but the store -/
  builder : EventBuilder
  /-- `isAllowedToEmit`, for an event with or without transactions -/
  isAllowedToEmit : MutableEventPayload → Bool → Bool
  originator : Originator
  /-- the transactions of the pool -/
  sortedTxs : SortedTxs
  /-- `Signer.Sign` -/
  sign : Hash → Option Signature
  checkers : Checkers
  /-- what `Process` is told -/
  process : ProcessEnv

/-- `HashToSign` of a mutable event; `none` is a panic. -/
def MutableEventPayload.hashToSign (H : Hashing) (e : MutableEventPayload) : Option Hash :=
  match e.toEventHeader.marshalBinary H with
  | .ok eventSer => some (H.eventHash eventSer)
  | .error _ => none

namespace Service

/-- `GetLastEvent` -/
def getLastEvent (s : Service) (epoch : UInt32) (vid : ValidatorID) : Option EventID :=
  if s.epoch ≠ epoch then none else s.lastEvents vid

/-- `GetEvent` -/
def getEvent (s : Service) (id : EventID) : Option Event := (s.events id).map EventPayload.event

/-- The loop over the parents in `createEvent`, from an index on. -/
def parentHeaders (s : Service) (me : ValidatorID) : ℕ → List EventID → Creation (List Event)
  | _, [] => pure []
  | i, p :: ps => do
    -- a head that is not found is the end of the process
    let parent ← Creation.orPanic (s.getEvent p)
    -- there're 2 heads from me, i.e. due to a fork
    Creation.giveUp (parent.creator = me ∧ i ≠ 0) .fork
    let parents ← parentHeaders s me (i + 1) ps
    pure (parent :: parents)

end Service

/-- The new event of `createEvent`, before it is built. -/
def newEvent (me : ValidatorID) (epoch : UInt32) (now : Timestamp) (parents : List EventID)
    (headers : List Event) (selfParent : Option Event) : MutableEventPayload :=
  let selfParentSeq := (selfParent.map fun p => p.seq).getD 0
  let selfParentTime := (selfParent.map fun p => p.creationTime).getD 0
  { blankEvent with
    epoch := epoch
    seq := selfParentSeq + 1
    creator := me
    parents := parents
    lamport := (headers.map fun p => p.lamport).foldl max 0 + 1
    creationTime := max now (selfParentTime + 1) }

namespace Service

/-- The header of the self-parent is the first one. -/
def selfParentHeader (selfParent : Option EventID) (headers : List Event) :
    Creation (Option Event) :=
  match selfParent with
  | none => pure none
  | some _ => (Creation.orPanic headers.head?).map some

/-- `createEvent`, up to the point where the event is complete but for its signature. -/
def prepareEvent (H : Hashing) (me : ValidatorID) (env : EmitEnv) (s : Service) :
    Creation (MutableEventPayload × List Event) := do
  Creation.giveUp (env.isValidator = false) .notValidator
  Creation.giveUp (env.isSynced = false) .notSynced
  -- find parents
  let selfParent := s.getLastEvent s.emitterEpoch me
  Creation.giveUp (selfParent.any env.isCheater = true) .doublesign
  let parents := env.chooseParents selfParent.toList s.heads
  -- set parent-dependent fields
  let headers ← s.parentHeaders me 0 parents
  let selfParentHeader ← selfParentHeader selfParent headers
  let e := newEvent me s.emitterEpoch env.now parents headers selfParentHeader
  -- set consensus fields
  let e ← Creation.orError .build ({ env.builder with getEvent := s.getEvent }.buildEvent e)
  -- pre-check if event should be emitted
  Creation.giveUp (env.isAllowedToEmit e true = false) .notAllowed
  let e ← Creation.orPanic (env.originator.addTxs e env.sortedTxs)
  -- check only if no txs were added
  Creation.giveUp (e.txs.length = 0 ∧ env.isAllowedToEmit e false = false) .notAllowed
  pure ({ e with txHash := H.deriveSha e.txs }, headers)

/-- The rest of `createEvent`: the event is signed, built and checked. -/
def completeEvent (X : External) (H : Hashing) (env : EmitEnv) (e : MutableEventPayload)
    (headers : List Event) : Creation EventPayload := do
  let hash ← Creation.orPanic (e.hashToSign H)
  let sig ← Creation.orGiveUp .sign (env.sign hash)
  let event ← Creation.orPanic ({ e with sig := sig }.Build H)
  Creation.orError .check (env.checkers.validate X H event headers)
  pure event

/-- `createEvent` -/
def createEvent (X : External) (H : Hashing) (me : ValidatorID) (env : EmitEnv) (s : Service) :
    Creation EventPayload := do
  let (e, headers) ← s.prepareEvent H me env
  completeEvent X H env e headers

/-- `EmitEvent`: what is kept, and the event that is passed to `Broadcast`; `none` is a
panic. -/
def emitEvent (X : External) (H : Hashing) (me : ValidatorID) (env : EmitEnv) (s : Service) :
    Option (Service × Option EventPayload) :=
  -- short circuit if not a validator
  if me = 0 ∨ env.isBusy then some (s, none)
  else
    match s.createEvent X H me env with
    | .error .panic => none
    | .error (.error _) => some (s, none)
    | .ok e => (s.processEvent env.process e).map fun (s, result) =>
      (s, match result with
        | .ok () => some e
        | .error _ => none)

/-! ## What is created -/

variable {X : External} {H : Hashing} {me : ValidatorID} {env : EmitEnv} {s s' : Service}

theorem orPanic_eq_ok {α : Type} {o : Option α} {a : α} :
    Creation.orPanic o = .ok a ↔ o = some a := by
  cases o <;> simp [Creation.orPanic]

theorem orError_eq_ok {ε α : Type} {why : ε → Abandoned} {m : Except (Fault ε) α} {a : α} :
    Creation.orError why m = .ok a ↔ m = .ok a := by
  rcases m with (_ | _) | _ <;> simp [Creation.orError]

/-- The first header is that of the first parent. -/
theorem head?_parentHeaders {i : ℕ} {p : EventID} {ps : List EventID} {headers : List Event}
    (h : s.parentHeaders me i (p :: ps) = .ok headers) : headers.head? = s.getEvent p := by
  obtain ⟨parent, hparent, h⟩ := Checked.bind_eq_ok.mp h
  obtain ⟨-, -, h⟩ := Checked.bind_eq_ok.mp h
  obtain ⟨parents, -, h⟩ := Checked.bind_eq_ok.mp h
  cases h
  exact (orPanic_eq_ok.mp hparent).symm

end Service

/-- What makes an event the one it is in the chain of its creator. -/
def MutableEventPayload.origin (e : MutableEventPayload) : ValidatorID × UInt32 × List EventID :=
  (e.creator, e.seq, e.parents)

theorem EventBuilder.origin_of_buildEvent {S : EventBuilder} {e e' : MutableEventPayload}
    (h : S.buildEvent e = .ok e') : e'.origin = e.origin := by
  have hset : (S.setPrevEpochHash (S.setVersion e)).origin = e.origin := by
    unfold setPrevEpochHash setVersion
    simp only
    split <;> split <;> rfl
  obtain ⟨e₀, available, frame, ⟨medianTime, rfl⟩, -, -, rfl⟩ := buildEvent_eq_ok h
  exact hset

theorem Originator.origin_of_addTxs {em : Originator} {sorted : SortedTxs}
    {e e' : MutableEventPayload}
    (h : em.addTxs e sorted = some e') : e'.origin = e.origin := by
  obtain ⟨maxGasUsed, -, hextends⟩ := extends_of_addTxs h
  have hheader := hextends.header
  unfold MutableEventPayload.origin
  rw [hheader]

theorem MutableEventPayload.origin_of_build {H : Hashing} {e : MutableEventPayload}
    {event : EventPayload}
    (h : e.Build H = some event) : event.origin = e.origin := by
  obtain ⟨eventSer, payloadSer, -, -, rfl⟩ := build_eq_some.mp h
  unfold build settleTxHash
  split <;> rfl

/-- `ChooseParents` keeps the parents that it is given, in front. -/
def EmitEnv.KeepsParents (env : EmitEnv) : Prop :=
  ∀ existing heads, existing <+: env.chooseParents existing heads

/-- `SelfParent` of `dag.BaseEvent` -/
def External.FirstIsSelfParent (X : External) : Prop :=
  ∀ e, X.selfParent e = if e.seq ≤ 1 then none else e.parents.head?

/-- `basiccheck` of `zilion-base` refuses events without a sequence number. -/
def External.RefusesZeroSeq (X : External) : Prop :=
  ∀ e, X.basicValidate e = .ok () → 0 < e.seq

namespace Service

variable {X : External} {H : Hashing} {me : ValidatorID} {env : EmitEnv} {s s' : Service}
  {e : EventPayload}

/-- How a new event continues the last event of its creator, if there is one. -/
inductive Continues (s : Service) (e : EventPayload) : Option EventID → Prop where
  | first (seq : e.seq = 1) : Continues s e none
  | next {p : EventPayload} {id : EventID} (stored : s.events id = some p)
      (head : e.parents.head? = some id) (seq : e.seq = p.seq + 1) : Continues s e (some id)

theorem origin_of_prepareEvent (hkeeps : env.KeepsParents) {m : MutableEventPayload}
    {headers : List Event} (h : s.prepareEvent H me env = .ok (m, headers)) :
    ∃ parents header, m.origin = (me, ((header.map fun p : Event => p.seq).getD 0) + 1, parents) ∧
      (s.getLastEvent s.emitterEpoch me).toList <+: parents ∧
      s.parentHeaders me 0 parents = .ok headers ∧
      selfParentHeader (s.getLastEvent s.emitterEpoch me) headers = .ok header := by
  obtain ⟨-, -, h⟩ := Checked.bind_eq_ok.mp h
  obtain ⟨-, -, h⟩ := Checked.bind_eq_ok.mp h
  obtain ⟨-, -, h⟩ := Checked.bind_eq_ok.mp h
  obtain ⟨headers', hheaders, h⟩ := Checked.bind_eq_ok.mp h
  obtain ⟨header, hheader, h⟩ := Checked.bind_eq_ok.mp h
  obtain ⟨built, hbuild, h⟩ := Checked.bind_eq_ok.mp h
  obtain ⟨-, -, h⟩ := Checked.bind_eq_ok.mp h
  obtain ⟨extended, hadd, h⟩ := Checked.bind_eq_ok.mp h
  obtain ⟨-, -, h⟩ := Checked.bind_eq_ok.mp h
  cases h
  have horigin : extended.origin = (newEvent me s.emitterEpoch env.now _ headers header).origin :=
    (Originator.origin_of_addTxs (orPanic_eq_ok.mp hadd)).trans
      (EventBuilder.origin_of_buildEvent (orError_eq_ok.mp hbuild))
  exact ⟨_, header, horigin, hkeeps _ _, hheaders, hheader⟩

theorem origin_of_completeEvent {m : MutableEventPayload} {headers : List Event}
    (h : completeEvent X H env m headers = .ok e) :
    e.origin = m.origin ∧ Basiccheck.validate X e = .ok () := by
  obtain ⟨hash, -, h⟩ := Checked.bind_eq_ok.mp h
  obtain ⟨sig, -, h⟩ := Checked.bind_eq_ok.mp h
  obtain ⟨event, hbuild, h⟩ := Checked.bind_eq_ok.mp h
  obtain ⟨⟨⟩, hcheck, h⟩ := Checked.bind_eq_ok.mp h
  cases h
  have horigin := MutableEventPayload.origin_of_build (orPanic_eq_ok.mp hbuild)
  have hvalid := Checkers.validate_eq_ok.mp (orError_eq_ok.mp hcheck)
  exact ⟨horigin, hvalid.1⟩

/-- A created event is one of the validator, has passed the basic check and continues the
last event. -/
theorem createEvent_eq_ok (hkeeps : env.KeepsParents) (h : s.createEvent X H me env = .ok e) :
    e.creator = me ∧ Basiccheck.validate X e = .ok () ∧
      s.Continues e (s.getLastEvent s.emitterEpoch me) := by
  obtain ⟨⟨m, headers⟩, hprepare, hcomplete⟩ := Checked.bind_eq_ok.mp h
  obtain ⟨parents, header, hm, hparents, hheaders, hheader⟩ :=
    origin_of_prepareEvent hkeeps hprepare
  obtain ⟨horigin, hbasic⟩ := origin_of_completeEvent hcomplete
  rw [hm] at horigin
  obtain ⟨hcreator, hseq, hpar⟩ : e.creator = me ∧
      e.seq = ((header.map fun p : Event => p.seq).getD 0) + 1 ∧ e.parents = parents := by
    simpa [MutableEventPayload.origin] using horigin
  refine ⟨hcreator, hbasic, ?_⟩
  cases hlast : s.getLastEvent s.emitterEpoch me with
  | none =>
    rw [hlast] at hheader
    cases hheader
    exact .first hseq
  | some id =>
    rw [hlast] at hparents hheader
    obtain ⟨rest, rfl⟩ := hparents
    -- the header of the first parent is that of the last event
    have hhead : headers.head? = s.getEvent id := head?_parentHeaders hheaders
    unfold selfParentHeader at hheader
    rw [hhead] at hheader
    cases hevent : s.events id with
    | none => simp [getEvent, hevent, Creation.orPanic, Except.map] at hheader
    | some p =>
      simp only [getEvent, hevent, Option.map_some, Creation.orPanic, Except.map,
        Except.ok.injEq] at hheader
      subst hheader
      exact .next hevent (by rw [hpar]; rfl) hseq

end Service

/-! ## The chain of a validator -/

/-- Events of a validator, the newest first: each other one is the self-parent of the one
before it. -/
inductive SelfChain (X : External) : List EventPayload → Prop where
  | nil : SelfChain X []
  | first {e : EventPayload} (selfParent : X.selfParent e.toEventHeader = none) (seq : e.seq = 1) :
      SelfChain X [e]
  | next {e p : EventPayload} {own : List EventPayload}
      (selfParent : X.selfParent e.toEventHeader = some p.id) (seq : e.seq.toNat = p.seq.toNat + 1)
      (chain : SelfChain X (p :: own)) : SelfChain X (e :: p :: own)

/-- `p` is the self-parent of `e` among the connected events. -/
def Service.IsSelfParent (X : External) (s : Service) (p e : EventPayload) : Prop :=
  s.events p.id = some p ∧ X.selfParent e.toEventHeader = some p.id

/-- The self-parent, its self-parent, and so on. -/
def Service.IsSelfAncestor (X : External) (s : Service) : EventPayload → EventPayload → Prop :=
  Relation.TransGen (s.IsSelfParent X)

/-- **The invariant of a lone validator.** Its connected events of the epoch are a chain, and
while the epoch lasts the index of last events has the newest one. -/
structure OwnChain (X : External) (me : ValidatorID) (epoch : UInt32) (s : Service)
    (own : List EventPayload) : Prop where
  chain : SelfChain X own
  stored : ∀ e ∈ own, s.events e.id = some e
  last : s.epoch = epoch → s.emitterEpoch = epoch ∧ s.lastEvents me = own.head?.map fun e => e.id

namespace SelfChain

variable {X : External} {e : EventPayload} {own : List EventPayload}

theorem seq_pos (h : SelfChain X (e :: own)) : 0 < e.seq.toNat := by
  cases h with
  | first _ seq =>
    rw [seq]
    decide
  | next _ seq _ =>
    rw [seq]
    exact Nat.succ_pos _

/-- In a chain the newer event has the higher number, and descends from the older one. -/
theorem pairwise {s : Service} (h : SelfChain X own) (hstored : ∀ e ∈ own, s.events e.id = some e) :
    own.Pairwise fun newer older => older.seq < newer.seq ∧ s.IsSelfAncestor X older newer := by
  induction h with
  | nil => exact List.Pairwise.nil
  | first => exact List.pairwise_singleton _ _
  | @next e p own selfParent seq chain ih =>
    have hpairs := ih fun e he => hstored e (List.mem_cons_of_mem _ he)
    have hparent : s.IsSelfParent X p e :=
      ⟨hstored p (List.mem_cons_of_mem _ List.mem_cons_self), selfParent⟩
    have hlt : p.seq < e.seq := by
      rw [UInt32.lt_iff_toNat_lt, seq]
      exact Nat.lt_succ_self _
    refine List.pairwise_cons.mpr ⟨fun older holder => ?_, hpairs⟩
    rcases List.mem_cons.mp holder with rfl | holder
    · exact ⟨hlt, .single hparent⟩
    · obtain ⟨hseq, hancestor⟩ := (List.pairwise_cons.mp hpairs).1 older holder
      exact ⟨UInt32.lt_trans hseq hlt, hancestor.tail hparent⟩

end SelfChain

namespace OwnChain

variable {X : External} {H : Hashing} {me : ValidatorID} {epoch : UInt32} {env : EmitEnv}
  {s s' : Service} {e : EventPayload} {own : List EventPayload}

/-- A created event continues the chain. -/
theorem selfChain_cons (hX : X.FirstIsSelfParent) (hseq : X.RefusesZeroSeq)
    (h : OwnChain X me epoch s own) (hepoch : s.epoch = epoch)
    (hbasic : Basiccheck.validate X e = .ok ())
    (hcontinues : s.Continues e (s.getLastEvent s.emitterEpoch me)) : SelfChain X (e :: own) := by
  obtain ⟨hemitter, hlast⟩ := h.last hepoch
  have hget : s.getLastEvent s.emitterEpoch me = own.head?.map fun e => e.id := by
    rw [Service.getLastEvent, hemitter, hepoch, if_neg (not_not.mpr rfl), hlast]
  rw [hget] at hcontinues
  cases own with
  | nil =>
    cases hcontinues with
    | first seq =>
      refine .first ?_ seq
      rw [hX, seq, if_pos (by decide)]
  | cons p own =>
    cases hcontinues with
    | @next p' id stored head seq =>
      obtain rfl : p' = p := Option.some.inj (stored.symm.trans (h.stored p List.mem_cons_self))
      have hpos : 0 < e.seq.toNat := UInt32.lt_iff_toNat_lt.mp
        (hseq e (Basiccheck.validate_eq_ok.mp hbasic).1)
      -- the number would be 0 if it had wrapped
      have hnext : e.seq.toNat = p'.seq.toNat + 1 := by
        have hlt := p'.seq.toNat_lt
        rw [seq, UInt32.toNat_add, UInt32.toNat_one] at hpos ⊢
        omega
      have hpar := h.chain.seq_pos
      refine .next ?_ hnext h.chain
      rw [hX, if_neg, head]
      rw [UInt32.not_le, UInt32.lt_iff_toNat_lt, hnext, UInt32.toNat_one]
      omega

/-- Connecting an event keeps the chain, with the event if it is one of the validator. -/
theorem connected {own' : List EventPayload} (h : OwnChain X me epoch s own)
    (hepoch : s.epoch = epoch)
    (hnone : s.events e.id = none) (hchain : SelfChain X own')
    (hown : e.creator ≠ me ∧ own' = own ∨ e.creator = me ∧ own' = e :: own) (new : EpochInfo) :
    OwnChain X me epoch (((s.setEvent e).setHeads e).setEpoch e new) own' := by
  have hevents : (((s.setEvent e).setHeads e).setEpoch e new).events =
      Function.update s.events e.id (some e) := by
    unfold Service.setEpoch
    split <;> rfl
  have hkept : ∀ e' ∈ own, Function.update s.events e.id (some e) e'.id = some e' := by
    intro e' he'
    have hne : e'.id ≠ e.id := by
      intro heq
      have hstored := h.stored e' he'
      rw [heq, hnone] at hstored
      cases hstored
    rw [Function.update_of_ne hne, h.stored e' he']
  refine ⟨hchain, fun e' he' => ?_, fun hsame => ?_⟩
  · rw [hevents]
    rcases hown with ⟨-, rfl⟩ | ⟨-, rfl⟩
    · exact hkept e' he'
    · rcases List.mem_cons.mp he' with rfl | he'
      · rw [Function.update_self]
      · exact hkept e' he'
  · obtain ⟨hemitter, hlast⟩ := h.last hepoch
    unfold Service.setEpoch at hsame ⊢
    split at hsame
    · rename_i hnew
      -- the epoch is over
      exact absurd (hsame.trans hepoch.symm) hnew
    · rename_i hold
      rw [if_neg hold]
      refine ⟨hemitter, ?_⟩
      rcases hown with ⟨hother, rfl⟩ | ⟨rfl, rfl⟩
      · exact (Function.update_of_ne (Ne.symm hother) _ _).trans hlast
      · exact Function.update_self ..

end OwnChain

/-! ## Runs of a lone validator -/

namespace Service

/-- What happens to the service. -/
inductive Call where
  | emitEvent (env : EmitEnv)
  | processEvent (env : ProcessEnv) (e : EventPayload)

variable (X : External) (H : Hashing) (me : ValidatorID)

/-- A call: what is kept, and the event that is passed to `Broadcast`. -/
def call (s : Service) : Call → Option (Service × Option EventPayload)
  | .emitEvent env => s.emitEvent X H me env
  | .processEvent env e => (s.processEvent env e).map fun (s, _) => (s, none)

/-- The events of the validator come from here alone. -/
def Call.Alone : Call → Prop
  | .emitEvent env => env.KeepsParents
  | .processEvent _ e => e.creator ≠ me

/-- Calls within an epoch, of which the last may end it, and the events that they pass to
`Broadcast`. -/
inductive Run (epoch : UInt32) : Service → List EventPayload → Service → Prop where
  | nil (s : Service) : Run epoch s [] s
  | cons {s s₁ s' : Service} {c : Call} {b : Option EventPayload} {bs : List EventPayload}
      (inEpoch : s.epoch = epoch) (alone : c.Alone me) (step : s.call X H me c = some (s₁, b))
      (rest : Run epoch s₁ bs s') : Run epoch s (b.toList ++ bs) s'

variable {X H me} {epoch : UInt32} {s s₁ s' : Service} {own : List EventPayload}

/-- A call keeps the chain, or makes it longer by an event; what is broadcast is that event. -/
theorem call_ownChain (hX : X.FirstIsSelfParent) (hseq : X.RefusesZeroSeq)
    (h : OwnChain X me epoch s own) (hepoch : s.epoch = epoch) {c : Call} (halone : c.Alone me)
    {b : Option EventPayload} (hcall : s.call X H me c = some (s₁, b)) :
    ∃ own₁, OwnChain X me epoch s₁ own₁ ∧ (b.toList ++ own).Sublist own₁ := by
  cases c with
  | processEvent env e =>
    obtain ⟨⟨s₂, r⟩, hprocess, hcall⟩ := Option.map_eq_some_iff.mp hcall
    cases hcall
    rcases processEvent_eq_some hprocess with ⟨err, -, rfl⟩ | ⟨hnone, new, rfl⟩
    · exact ⟨own, h, List.Sublist.refl _⟩
    · exact ⟨own, h.connected hepoch hnone h.chain (.inl ⟨halone, rfl⟩) new, List.Sublist.refl _⟩
  | emitEvent env =>
    unfold call emitEvent at hcall
    simp only at hcall
    split at hcall
    · cases hcall
      exact ⟨own, h, List.Sublist.refl _⟩
    · split at hcall
      · cases hcall
      · cases hcall
        exact ⟨own, h, List.Sublist.refl _⟩
      · rename_i e hcreate
        obtain ⟨⟨s₂, r⟩, hprocess, hresult⟩ := Option.map_eq_some_iff.mp hcall
        obtain ⟨hcreator, hbasic, hcontinues⟩ := createEvent_eq_ok halone hcreate
        rcases processEvent_eq_some hprocess with ⟨err, rfl, rfl⟩ | ⟨hnone, new, rfl⟩
        · cases hresult
          exact ⟨own, h, List.Sublist.refl _⟩
        · have hchain := h.selfChain_cons hX hseq hepoch hbasic hcontinues
          have hconnected := h.connected hepoch hnone hchain (.inr ⟨hcreator, rfl⟩) new
          -- the event may be connected and not broadcast
          cases r with
          | ok =>
            cases hresult
            exact ⟨e :: own, hconnected, List.Sublist.refl _⟩
          | error =>
            cases hresult
            exact ⟨e :: own, hconnected, List.sublist_cons_self _ _⟩

/-- Over a run the broadcast events are part of the chain, in its order. -/
theorem Run.ownChain (hX : X.FirstIsSelfParent) (hseq : X.RefusesZeroSeq) {bs : List EventPayload}
    (h : Run X H me epoch s bs s') (hown : OwnChain X me epoch s own) :
    ∃ own', OwnChain X me epoch s' own' ∧ (bs.reverse ++ own).Sublist own' := by
  induction h generalizing own with
  | nil s => exact ⟨own, hown, List.Sublist.refl _⟩
  | @cons s s₁ s' c b bs inEpoch alone step rest ih =>
    obtain ⟨own₁, hown₁, hsub₁⟩ := call_ownChain hX hseq hown inEpoch alone step
    obtain ⟨own', hown', hsub'⟩ := ih hown₁
    refine ⟨own', hown', List.Sublist.trans ?_ hsub'⟩
    have hreverse : (b.toList ++ bs).reverse ++ own = bs.reverse ++ (b.toList ++ own) := by
      cases b <;> simp
    rw [hreverse]
    exact (List.append_sublist_append_left _).mpr hsub₁

end Service

open Service

/-- **The emitter never forks itself.** In a run of `EmitEvent` and `processEvent` within an
epoch, whatever fails, in which the events of the validator come from here and were a chain
at the start, the events that are passed to `Broadcast` have different sequence numbers, and
of two of them the one with the lower number is a self-parent ancestor of the other. -/
theorem emitter_never_forks (X : External) (H : Hashing) (me : ValidatorID) (epoch : UInt32)
    (hX : X.FirstIsSelfParent) (hseq : X.RefusesZeroSeq) (s s' : Service)
    (own bs : List EventPayload) (hown : OwnChain X me epoch s own)
    (hrun : Run X H me epoch s bs s') :
    bs.Pairwise (fun e e' => e.seq ≠ e'.seq) ∧
      ∀ e ∈ bs, ∀ e' ∈ bs, e.seq < e'.seq → s'.IsSelfAncestor X e e' := by
  obtain ⟨own', hown', hsub⟩ := hrun.ownChain hX hseq hown
  have hpairs : bs.Pairwise fun e e' => e.seq < e'.seq ∧ s'.IsSelfAncestor X e e' := by
    have hbs := (List.sublist_append_left bs.reverse own).trans hsub
    exact List.pairwise_reverse.mp ((hown'.chain.pairwise hown'.stored).sublist hbs)
  refine ⟨hpairs.imp fun h => UInt32.ne_of_lt h.1, fun e he e' he' hlt => ?_⟩
  obtain ⟨i, hi, rfl⟩ := List.getElem_of_mem he
  obtain ⟨j, hj, rfl⟩ := List.getElem_of_mem he'
  -- the numbers grow in the order of broadcasting
  rcases Nat.lt_trichotomy i j with hij | rfl | hji
  · exact (List.pairwise_iff_getElem.mp hpairs i j hi hj hij).2
  · exact absurd hlt (UInt32.lt_irrefl _)
  · exact absurd hlt (UInt32.lt_asymm (List.pairwise_iff_getElem.mp hpairs j i hj hi hji).1)

/-! ## Two events -/

/-- The sample checks, and that of the sequence number. -/
def initedExternal : External :=
  { sampleExternal with
    basicValidate := fun e => Checked.refuse (e.seq = 0) (.base "event field is not initialized") }

/-- Hashes for examples; IDs differ by the lamport. -/
def constHashing : Hashing := { sampleHashing with sha256 := fun _ => copyBytes 32 [7] }

/-- A service where nothing is connected yet. -/
def freshService : Service where
  stopped := false
  epoch := 1
  epochHash := copyBytes 32 [1]
  events _ := none
  heads := ∅
  lastEvents _ := none
  highestLamport := 0
  emitterEpoch := 1

/-- The surroundings in which nothing fails. -/
def calmEnv : EmitEnv where
  isBusy := false
  isValidator := true
  isSynced := true
  isCheater _ := false
  chooseParents existing _ := existing
  now := 1
  builder := sampleBuilder
  isAllowedToEmit _ _ := true
  originator := sampleOriginator
  sortedTxs := .empty
  sign _ := some (copyBytes 64 [])
  checkers := { sampleCheckers with validationContext := sampleBuilder.validationContext }
  process :=
    { epochcheck := fun _ => .ok ()
      index := fun _ => .ok 1
      engine := fun _ => .ok ⟨1, copyBytes 32 [1]⟩
      commit := none }

/-- An event with the hash of the example, and a size. -/
def hashed (m : MutableEventPayload) (size : ℕ) : EventPayload := m.build (copyBytes 32 [7]) size

/-- An event is connected, and the epoch goes on. -/
def Service.connect (s : Service) (e : EventPayload) : Service :=
  ((s.setEvent e).setHeads e).setEpoch e ⟨1, copyBytes 32 [1]⟩

/-- An event without transactions is completed, if the checks pass; they do not read its
size. -/
theorem completeEvent_calmEnv {m : MutableEventPayload} {headers : List Event} (htxs : m.txs = [])
    (hhash : m.txHash = constHashing.emptyTxHash) (hsig : m.sig = copyBytes 64 [])
    (hencodable : m.toEventHeader.Encodable) (hwritable : m.toEventHeader.Writable)
    (hcheck : calmEnv.checkers.validate initedExternal constHashing (hashed m 0) headers = .ok ()) :
    ∃ size, completeEvent initedExternal constHashing calmEnv m headers = .ok (hashed m size) := by
  obtain ⟨ser, hser⟩ := EventHeader.marshalBinary_ok (H := constHashing) hencodable hwritable
  obtain ⟨raw, hraw⟩ : ∃ raw, m.marshalBinary constHashing = .ok raw := by
    have hno : m.noTxs constHashing = true := decide_eq_true hhash
    exact MutableEventPayload.marshalBinary_ok
      ⟨hencodable, by rw [htxs]; decide, by simp [htxs], fun _ => htxs⟩
      ⟨hwritable, by simp [htxs], fun _ => hno⟩
  have hsettled : m.settleTxHash constHashing = m := by
    unfold MutableEventPayload.settleTxHash
    rw [← hhash]
    exact ite_self m
  have hvalid : calmEnv.checkers.validate initedExternal constHashing
    (hashed m raw.length) headers =
      .ok () := hcheck
  have hsigned : { m with sig := copyBytes 64 [] } = m := by rw [← hsig]
  have hbuild : { m with sig := copyBytes 64 [] }.Build constHashing =
    some (hashed m raw.length) := by
    rw [hsigned]
    refine MutableEventPayload.build_eq_some.mpr ⟨ser, raw, ?_, ?_, ?_⟩
    · rw [hsettled, hser, MutableEventPayload.ignoringError]
    · rw [hsettled, hraw, MutableEventPayload.ignoringError]
    · rw [hsettled]
      rfl
  refine ⟨raw.length, ?_⟩
  unfold completeEvent MutableEventPayload.hashToSign
  rw [hser]
  refine Checked.bind_eq_ok.mpr ⟨_, rfl, Checked.bind_eq_ok.mpr ⟨_, rfl, ?_⟩⟩
  refine Checked.bind_eq_ok.mpr ⟨_, orPanic_eq_ok.mpr hbuild, ?_⟩
  exact Checked.bind_eq_ok.mpr ⟨(), orError_eq_ok.mpr hvalid, rfl⟩

/-- A completed event is emitted, if it is connected. -/
theorem emitEvent_calmEnv {s : Service} {m : MutableEventPayload} {headers : List Event} {size : ℕ}
    (hprepare : s.prepareEvent constHashing 1 calmEnv = .ok (m, headers))
    (hcomplete : completeEvent initedExternal constHashing calmEnv m headers = .ok (hashed m size))
    (hprocess : s.processEvent calmEnv.process (hashed m size) =
      some (s.connect (hashed m size), .ok ())) :
    s.call initedExternal constHashing 1 (.emitEvent calmEnv) =
      some (s.connect (hashed m size), some (hashed m size)) := by
  have hcreate : s.createEvent initedExternal constHashing 1 calmEnv = .ok (hashed m size) :=
    Checked.bind_eq_ok.mpr ⟨_, hprepare, hcomplete⟩
  unfold Service.call Service.emitEvent
  simp only [hcreate, hprocess]
  rfl

/-- The first event of the validator, but for its signature. -/
def firstEmitted : MutableEventPayload :=
  { firstEvent with
    frame := 1
    medianTime := 1
    gasPowerUsed := 28075
    gasPowerLeft := GasPowerLeft.sub ⟨![112000, 112000]⟩ 28075
    prevEpochHash := some (copyBytes 32 [1])
    extra := [0x76, 0x2d, 0x31] }

/-- The second one. -/
def secondEmitted : MutableEventPayload :=
  { firstEvent with
    lamport := 2
    seq := 2
    frame := 1
    creationTime := 2
    medianTime := 1
    gasPowerUsed := 28000
    gasPowerLeft := GasPowerLeft.sub ⟨![83925, 83925]⟩ 28000
    parents := [⟨1, 1, calcEventID (copyBytes 32 [7])⟩] }

theorem call_firstEmitted :
    ∃ size, freshService.call initedExternal constHashing 1 (.emitEvent calmEnv) =
      some (freshService.connect (hashed firstEmitted size), some (hashed firstEmitted size)) := by
  have hprepare : freshService.prepareEvent constHashing 1 calmEnv = .ok (firstEmitted, []) := by
    decide +kernel
  obtain ⟨size, hcomplete⟩ :
    ∃ size, completeEvent initedExternal constHashing calmEnv firstEmitted [] =
      .ok (hashed firstEmitted size) :=
    completeEvent_calmEnv rfl rfl rfl ⟨by decide, by decide, by decide⟩ (by decide)
      (by decide +kernel)
  exact ⟨size, emitEvent_calmEnv hprepare hcomplete rfl⟩

theorem parentHeaders_congr {s s' : Service} (h : s.getEvent = s'.getEvent) (me : ValidatorID)
    (i : ℕ)
    (ps : List EventID) : s.parentHeaders me i ps = s'.parentHeaders me i ps := by
  induction ps generalizing i with
  | nil => rfl
  | cons p ps ih => rw [parentHeaders, parentHeaders, h, ih]

/-- What is prepared depends on the headers of the connected events. -/
theorem prepareEvent_congr {s s' : Service} (hget : s.getEvent = s'.getEvent)
    (hlast : s.lastEvents = s'.lastEvents) (hheads : s.heads = s'.heads)
    (hepoch : s.epoch = s'.epoch)
    (hemitter : s.emitterEpoch = s'.emitterEpoch) (H : Hashing) (me : ValidatorID) (env : EmitEnv) :
    s.prepareEvent H me env = s'.prepareEvent H me env := by
  have hgetLast : s.getLastEvent = s'.getLastEvent := by
    funext epoch vid
    rw [getLastEvent, getLastEvent, hepoch, hlast]
  unfold prepareEvent
  simp only [hgetLast, hemitter, hheads, hget, parentHeaders_congr hget]

theorem call_secondEmitted (size₁ : ℕ) :
    ∃ size, (freshService.connect (hashed firstEmitted size₁)).call initedExternal constHashing 1
        (.emitEvent calmEnv) =
      some ((freshService.connect (hashed firstEmitted size₁)).connect (hashed secondEmitted size),
        some (hashed secondEmitted size)) := by
  have hget : (freshService.connect (hashed firstEmitted size₁)).getEvent =
      (freshService.connect (hashed firstEmitted 0)).getEvent := by
    funext id
    by_cases hid : id = (hashed firstEmitted 0).id
    · subst hid
      rfl
    · have hother : ∀ size, (freshService.connect (hashed firstEmitted size)).events id = none :=
        fun size => Function.update_of_ne hid _ _
      simp only [getEvent, hother]
  have hprepare : (freshService.connect (hashed firstEmitted 0)).prepareEvent constHashing 1
      calmEnv =
      .ok (secondEmitted, [(hashed firstEmitted 0).event]) := by
    decide +kernel
  rw [← prepareEvent_congr hget rfl rfl rfl rfl] at hprepare
  obtain ⟨size, hcomplete⟩ : ∃ size, completeEvent initedExternal constHashing calmEnv secondEmitted
      [(hashed firstEmitted 0).event] = .ok (hashed secondEmitted size) :=
    completeEvent_calmEnv rfl rfl rfl ⟨by decide, by decide, by decide⟩ (by decide)
      (by decide +kernel)
  exact ⟨size, emitEvent_calmEnv hprepare hcomplete rfl⟩

theorem emitter_never_forks_twoEvents :
    ∃ e₁ e₂ s', Run initedExternal constHashing 1 1 freshService [e₁, e₂] s' ∧
      e₁.seq < e₂.seq ∧ s'.IsSelfAncestor initedExternal e₁ e₂ := by
  obtain ⟨size₁, hfirst⟩ := call_firstEmitted
  obtain ⟨size₂, hsecond⟩ := call_secondEmitted size₁
  have hkeeps : Call.Alone 1 (.emitEvent calmEnv) := fun existing _ => List.prefix_refl existing
  have hrun : Run initedExternal constHashing 1 1 freshService
      [hashed firstEmitted size₁, hashed secondEmitted size₂] _ :=
    .cons rfl hkeeps hfirst (.cons rfl hkeeps hsecond (.nil _))
  have hX : initedExternal.FirstIsSelfParent := fun _ => rfl
  have hseq : initedExternal.RefusesZeroSeq := fun e h => by
    have hne : e.seq ≠ 0 := Checked.refuse_eq_ok.mp h
    exact UInt32.pos_iff_ne_zero.mpr hne
  have hown : OwnChain initedExternal 1 1 freshService [] :=
    ⟨.nil, List.forall_mem_nil _, fun _ => ⟨rfl, rfl⟩⟩
  have hlt : (hashed firstEmitted size₁).seq < (hashed secondEmitted size₂).seq := by
    change firstEmitted.seq < secondEmitted.seq
    decide
  have hall := (emitter_never_forks initedExternal constHashing 1 1 hX hseq _ _ [] _ hown hrun).2
  exact ⟨_, _, _, hrun, hlt, hall _ List.mem_cons_self _
    (List.mem_cons_of_mem _ List.mem_cons_self) hlt⟩

end Zilionixx
