import Zilionixx.Coalescing
import Zilionixx.ResetWalk

/-!
# The transaction pool: the loop of the reorganisations

`scheduleReorgLoop` of `tx_pool.go` with the goroutines of `runReorg` that it starts, in any order
with those who send to it. The loop puts the requests together until a run can be launched. Of a run
there are its arguments, when it has the lock of the pool, and the end, where it closes its channel.

`log` is the history, which no step reads.
-/

namespace Zilionixx

/-! ## Requests -/

/-- The sender of a transaction that is already validated. -/
def TxInfo.from (I : TxInfo) (tx : Transaction) : Address :=
  (I.sender tx).getD (copyBytes 20 [])

/-- `txpoolResetRequest` -/
structure ResetRequest where
  /-- `oldHead` -/
  oldHead : EvmHeader
  /-- `newHead` -/
  newHead : EvmHeader

/-- What `scheduleReorgLoop` receives. -/
inductive PoolMsg where
  /-- `reqResetCh` -/
  | reset (request : ResetRequest)
  /-- `reqPromoteCh` -/
  | promote (accounts : List Address)
  /-- `queueTxEventCh` -/
  | event (tx : Transaction)

/-- If a message sets `launchNextRun`. -/
def PoolMsg.urgent : PoolMsg → Bool
  | .reset _ => true
  | .promote _ => true
  | .event _ => false

/-- `reset`, `dirtyAccounts` and `queuedEvents`: what the loop has for the next run. -/
structure ReorgBatch where
  /-- `reset` -/
  reset : Option ResetRequest
  /-- `dirtyAccounts` -/
  dirtyAccounts : Option (List Address)
  /-- `queuedEvents` -/
  events : AssocMap.Map Address TxSortedMap

namespace ReorgBatch

/-- Nothing is asked for. -/
def empty : ReorgBatch := ⟨none, none, ∅⟩

/-- The cases of `select` for requests and events. -/
def receive (I : TxInfo) (b : ReorgBatch) : PoolMsg → ReorgBatch
  | .reset request =>
    -- update head if request is already pending
    { b with
      reset := some (b.reset.elim request fun pending =>
        { pending with newHead := request.newHead }) }
  | .promote accounts =>
    -- update address set if request is already pending
    { b with dirtyAccounts := some (b.dirtyAccounts.elim accounts fun dirty => dirty ++ accounts) }
  | .event tx =>
    { b with
      events := b.events.insert (I.from tx) (((b.events.lookup (I.from tx)).getD .new).put tx) }

/-- What the loop has of messages. -/
def digest (I : TxInfo) (msgs : List PoolMsg) : ReorgBatch :=
  msgs.foldl (receive I) empty

theorem digest_concat (I : TxInfo) (msgs : List PoolMsg) (m : PoolMsg) :
    digest I (msgs ++ [m]) = (digest I msgs).receive I m :=
  List.foldl_append

/-- `queuedEvents` of an account, in the order of nonces. -/
def eventsAt (b : ReorgBatch) (a : Address) : List Transaction :=
  ((b.events.lookup a).getD .new).sorted

end ReorgBatch

/-! ## The loop -/

/-- A goroutine of `runReorg`. -/
structure ReorgRun where
  /-- `done` -/
  done : ℕ
  batch : ReorgBatch
  /-- if the pool is unlocked again -/
  unlocked : Bool

/-- The loop and its goroutines; channels are numbers. -/
structure ReorgLoop where
  /-- `curDone` -/
  curDone : Option ℕ
  /-- `nextDone` -/
  nextDone : ℕ
  /-- `launchNextRun` -/
  launchNextRun : Bool
  batch : ReorgBatch
  active : List ReorgRun
  /-- the runs that have changed the pool, in this order -/
  ran : List (ℕ × ReorgBatch)
  /-- the channels that are closed -/
  closed : List ℕ
  /-- if `scheduleReorgLoop` has returned -/
  stopped : Bool
  /-- `head` of `loop` -/
  head : EvmHeader
  log : Coalescing.State PoolMsg

namespace ReorgLoop

variable (I : TxInfo)

/-- The loop starts when the pool is at a head. -/
def init (head : EvmHeader) : ReorgLoop where
  curDone := none
  nextDone := 0
  launchNextRun := false
  batch := .empty
  active := []
  ran := []
  closed := []
  stopped := false
  head := head
  log := .init

/-- The beginning of the loop: launch next background reorg if needed. -/
def turn (s : ReorgLoop) : ReorgLoop :=
  if s.curDone = none ∧ s.launchNextRun = true then
    { s with
      active := s.active ++ [⟨s.nextDone, s.batch, false⟩]
      -- prepare everything for the next round of reorg
      curDone := some s.nextDone
      nextDone := s.nextDone + 1
      launchNextRun := false
      batch := .empty
      log := s.log.turn }
  else { s with log := s.log.turn }

/-- The loop receives a message. -/
def receive (s : ReorgLoop) (m : PoolMsg) : ReorgLoop :=
  { s with
    launchNextRun := s.launchNextRun || m.urgent
    batch := s.batch.receive I m
    log := s.log.receive PoolMsg.urgent m }

/-- A run has changed the pool. -/
def unlock (s : ReorgLoop) (i : ℕ) (r : ReorgRun) : ReorgLoop :=
  { s with
    active := s.active.set i { r with unlocked := true }
    ran := s.ran ++ [(r.done, r.batch)]
    log := (s.log.active[i]?).elim s.log (s.log.execute i) }

/-- `runReorg` returns. -/
def finish (s : ReorgLoop) (i : ℕ) (r : ReorgRun) : ReorgLoop :=
  { s with
    active := s.active.eraseIdx i
    closed := s.closed ++ [r.done]
    log := (s.log.active[i]?).elim s.log (s.log.finish i) }

/-- What can happen, in any order. New heads satisfy `G` with the one before. -/
inductive Step (G : EvmHeader → EvmHeader → Prop) : ReorgLoop → ReorgLoop → Prop
  /-- `loop` handles a new block -/
  | requestReset {s : ReorgLoop} (newHead : EvmHeader) (hG : G newHead s.head)
      (hopen : s.stopped = false) :
      Step G s ({ s with head := newHead }.receive I (.reset ⟨s.head, newHead⟩)).turn
  /-- `requestPromoteExecutables` -/
  | requestPromote {s : ReorgLoop} (accounts : List Address) (hopen : s.stopped = false) :
      Step G s (s.receive I (.promote accounts)).turn
  /-- `queueTxEvent` -/
  | queueTxEvent {s : ReorgLoop} (tx : Transaction) (hopen : s.stopped = false) :
      Step G s (s.receive I (.event tx)).turn
  /-- the locked part of `runReorg` -/
  | runReorg {s : ReorgLoop} (i : ℕ) (r : ReorgRun) (hactive : s.active[i]? = some r)
      (hlocked : r.unlocked = false) : Step G s (s.unlock i r)
  /-- the end of `runReorg` -/
  | close {s : ReorgLoop} (i : ℕ) (r : ReorgRun) (hactive : s.active[i]? = some r)
      (hunlocked : r.unlocked = true) : Step G s (s.finish i r)
  /-- `scheduleReorgLoop` receives from `curDone` -/
  | curDone {s : ReorgLoop} (id : ℕ) (hcurrent : s.curDone = some id) (hclosed : id ∈ s.closed)
      (hopen : s.stopped = false) :
      Step G s { s with curDone := none, log := s.log.notice }.turn
  /-- `scheduleReorgLoop` receives from `reorgShutdownCh`, and waits for the current run -/
  | shutdown {s : ReorgLoop} (hcurrent : ∀ id, s.curDone = some id → id ∈ s.closed)
      (hopen : s.stopped = false) :
      Step G s { s with
        closed := s.closed ++ [s.nextDone]
        stopped := true
        log := s.log.stop }

/-- The states that can be reached. -/
inductive Reachable (G : EvmHeader → EvmHeader → Prop) (first : EvmHeader) : ReorgLoop → Prop
  | init : Reachable G first (init first)
  | step {s s' : ReorgLoop} (h : Reachable G first s) (hstep : Step I G s s') : Reachable G first s'

section

variable {I} {G : EvmHeader → EvmHeader → Prop} {first : EvmHeader} {s s' : ReorgLoop}

theorem head_turn (s : ReorgLoop) : s.turn.head = s.head := by
  rw [turn]
  split <;> rfl

theorem log_turn (s : ReorgLoop) : s.turn.log = s.log.turn := by
  rw [turn]
  split <;> rfl

/-! ## The loop and its history -/

/-- What the history has of a run. -/
def ReorgRun.view (r : ReorgRun) : ℕ × ReorgBatch × Bool :=
  (r.done, r.batch, r.unlocked)

variable (I) in
/-- The loop has the digest of the messages of its history. -/
structure Simulates (s : ReorgLoop) : Prop where
  current : s.log.current = s.curDone
  next : s.log.next = s.nextDone
  launch : s.log.launch = s.launchNextRun
  closed : s.log.closed = s.closed
  stopped : s.log.stopped = s.stopped
  batch : s.batch = .digest I s.log.batch
  active : s.active.map ReorgRun.view =
    s.log.active.map fun r => (r.id, .digest I r.batch, r.executed)
  ran : s.ran = s.log.executed.map fun b => (b.1, .digest I b.2)

theorem Simulates.turn (h : Simulates I s) : Simulates I s.turn := by
  have hiff : s.log.current = none ∧ s.log.launch = true ↔
      s.curDone = none ∧ s.launchNextRun = true := by rw [h.current, h.launch]
  rw [ReorgLoop.turn]
  split
  · rename_i hlaunch
    have hturn := hiff.mpr hlaunch
    constructor
    all_goals dsimp only; rw [Coalescing.State.turn, if_pos hturn]
    · rw [h.next]
    · rw [h.next]
    · exact h.closed
    · exact h.stopped
    · rfl
    · rw [List.map_append, List.map_append, h.active, h.batch, h.next]
      rfl
    · exact h.ran
  · rename_i hnot
    have hturn : s.log.turn = s.log := if_neg (hiff.not.mpr hnot)
    rw [hturn]
    exact h

theorem Simulates.receive (h : Simulates I s) (m : PoolMsg) : Simulates I (s.receive I m) where
  current := h.current
  next := h.next
  launch := congrArg (· || m.urgent) h.launch
  closed := h.closed
  stopped := h.stopped
  batch := by
    dsimp only [ReorgLoop.receive, Coalescing.State.receive]
    rw [ReorgBatch.digest_concat, h.batch]
  active := h.active
  ran := h.ran

/-- The same run in the history. -/
theorem Simulates.get_active (h : Simulates I s) {i : ℕ} {r : ReorgRun}
    (hactive : s.active[i]? = some r) :
    ∃ r', s.log.active[i]? = some r' ∧ r'.id = r.done ∧ r.batch = .digest I r'.batch ∧
      r'.executed = r.unlocked := by
  have hview := congrArg (·[i]?) h.active
  rw [List.getElem?_map, List.getElem?_map, hactive] at hview
  obtain ⟨r', hr', heq⟩ := Option.map_eq_some_iff.mp hview.symm
  refine ⟨r', hr', congrArg Prod.fst heq, ?_, ?_⟩
  · exact (congrArg (fun v => v.2.1) heq).symm
  · exact congrArg (fun v => v.2.2) heq

theorem Simulates.unlock (h : Simulates I s) {i : ℕ} {r : ReorgRun} {r' : Coalescing.Run PoolMsg}
    (hr' : s.log.active[i]? = some r') (hid : r'.id = r.done)
    (hbatch : r.batch = .digest I r'.batch) :
    (s.unlock i r).log = s.log.execute i r' ∧ Simulates I (s.unlock i r) := by
  have hlog : (s.unlock i r).log = s.log.execute i r' := by
    rw [ReorgLoop.unlock]
    dsimp only
    rw [hr']
    rfl
  refine ⟨hlog, ?_⟩
  constructor
  all_goals rw [hlog]
  · exact h.current
  · exact h.next
  · exact h.launch
  · exact h.closed
  · exact h.stopped
  · exact h.batch
  · dsimp only [ReorgLoop.unlock, Coalescing.State.execute]
    rw [List.map_set, List.map_set, h.active, hid, ← hbatch]
    rfl
  · dsimp only [ReorgLoop.unlock, Coalescing.State.execute]
    rw [List.map_append, h.ran, hid, hbatch]
    rfl

theorem Simulates.finish (h : Simulates I s) {i : ℕ} {r : ReorgRun} {r' : Coalescing.Run PoolMsg}
    (hr' : s.log.active[i]? = some r') (hid : r'.id = r.done) :
    (s.finish i r).log = s.log.finish i r' ∧ Simulates I (s.finish i r) := by
  have hlog : (s.finish i r).log = s.log.finish i r' := by
    rw [ReorgLoop.finish]
    dsimp only
    rw [hr']
    rfl
  refine ⟨hlog, ?_⟩
  constructor
  all_goals rw [hlog]
  · exact h.current
  · exact h.next
  · exact h.launch
  · dsimp only [ReorgLoop.finish, Coalescing.State.finish]
    rw [h.closed, hid]
  · exact h.stopped
  · exact h.batch
  · dsimp only [ReorgLoop.finish, Coalescing.State.finish]
    rw [← List.eraseIdx_map, ← List.eraseIdx_map, h.active]
  · exact h.ran

/-- Every step is one of the loop of the history. -/
theorem Simulates.step (h : Simulates I s) (hstep : Step I G s s') :
    Simulates I s' ∧ Coalescing.Step PoolMsg.urgent s.log s'.log := by
  have hreceive : ∀ {t : ReorgLoop} (m : PoolMsg), Simulates I t → t.log = s.log →
      s.stopped = false → Simulates I (t.receive I m).turn ∧
        Coalescing.Step PoolMsg.urgent s.log (t.receive I m).turn.log := by
    intro t m ht hlog hopen
    refine ⟨(ht.receive m).turn, ?_⟩
    rw [log_turn, ← hlog]
    exact .receive m (by rw [hlog, h.stopped]; exact hopen)
  cases hstep with
  | requestReset newHead hG hopen =>
    have ht : Simulates I { s with head := newHead } :=
      ⟨h.current, h.next, h.launch, h.closed, h.stopped, h.batch, h.active, h.ran⟩
    exact hreceive _ ht rfl hopen
  | requestPromote accounts hopen => exact hreceive _ h rfl hopen
  | queueTxEvent tx hopen => exact hreceive _ h rfl hopen
  | runReorg i r hactive hlocked =>
    obtain ⟨r', hr', hid, hbatch, hexecuted⟩ := h.get_active hactive
    obtain ⟨hlog, hunlock⟩ := h.unlock hr' hid hbatch
    refine ⟨hunlock, ?_⟩
    rw [hlog]
    exact .execute i r' hr' (hexecuted.trans hlocked)
  | close i r hactive hunlocked =>
    obtain ⟨r', hr', hid, hbatch, hexecuted⟩ := h.get_active hactive
    obtain ⟨hlog, hfinish⟩ := h.finish hr' hid
    refine ⟨hfinish, ?_⟩
    rw [hlog]
    exact .finish i r' hr' (hexecuted.trans hunlocked)
  | curDone id hcurrent hclosed hopen =>
    have hnotice : Simulates I { s with curDone := none, log := s.log.notice } :=
      ⟨rfl, h.next, h.launch, h.closed, h.stopped, h.batch, h.active, h.ran⟩
    refine ⟨hnotice.turn, ?_⟩
    rw [log_turn]
    exact .notice id (h.current.trans hcurrent) (by rw [h.closed]; exact hclosed)
      (h.stopped.trans hopen)
  | shutdown hcurrent hopen =>
    refine ⟨⟨h.current, h.next, h.launch, ?_, rfl, h.batch, h.active, h.ran⟩, ?_⟩
    · dsimp only [Coalescing.State.stop]
      rw [h.closed, h.next]
    · refine .stop (fun id hid => ?_) (h.stopped.trans hopen)
      rw [h.closed]
      exact hcurrent id (h.current.symm.trans hid)

theorem Reachable.simulates (h : Reachable I G first s) :
    Simulates I s ∧ Coalescing.Reachable PoolMsg.urgent s.log := by
  induction h with
  | init => exact ⟨⟨rfl, rfl, rfl, rfl, rfl, rfl, rfl, rfl⟩, .init⟩
  | step _ hstep ih =>
    obtain ⟨hsimulates, hlog⟩ := ih.1.step hstep
    exact ⟨hsimulates, .step ih.2 hlog⟩

/-! ## Heads -/

/-- The head after a message. -/
def nextHead (head : EvmHeader) : PoolMsg → EvmHeader
  | .reset request => request.newHead
  | .promote _ => head
  | .event _ => head

/-- The head after messages. -/
def lastHead (head : EvmHeader) (msgs : List PoolMsg) : EvmHeader :=
  msgs.foldl nextHead head

/-- Each reset starts at the head that the one before has led to. -/
def Linked (G : EvmHeader → EvmHeader → Prop) : EvmHeader → List PoolMsg → Prop
  | _, [] => True
  | head, m :: msgs =>
    (∀ request, m = .reset request → request.oldHead = head ∧ G request.newHead head) ∧
      Linked G (nextHead head m) msgs

theorem linked_append {head : EvmHeader} {msgs msgs' : List PoolMsg} :
    Linked G head (msgs ++ msgs') ↔ Linked G head msgs ∧ Linked G (lastHead head msgs) msgs' := by
  induction msgs generalizing head with
  | nil => exact (iff_of_eq (true_and _)).symm
  | cons m msgs ih =>
    rw [List.cons_append, Linked, Linked, ih, and_assoc]
    rfl

theorem lastHead_append (head : EvmHeader) (msgs msgs' : List PoolMsg) :
    lastHead head (msgs ++ msgs') = lastHead (lastHead head msgs) msgs' :=
  List.foldl_append

/-- The request of a run leads from the head before its messages to the one after them. -/
theorem Linked.digest (htrans : ∀ h₁ h₂ h₃, G h₁ h₂ → G h₂ h₃ → G h₁ h₃) {head : EvmHeader}
    {msgs : List PoolMsg} (h : Linked G head msgs) :
    ((ReorgBatch.digest I msgs).reset = none ∧ lastHead head msgs = head) ∨
      ((ReorgBatch.digest I msgs).reset = some ⟨head, lastHead head msgs⟩ ∧
        G (lastHead head msgs) head) := by
  -- from the last message on, as the loop receives them
  induction msgs using List.reverseRecOn with
  | nil => exact .inl ⟨rfl, rfl⟩
  | append_singleton msgs m ih =>
    obtain ⟨hmsgs, hm⟩ := linked_append.mp h
    rw [ReorgBatch.digest_concat, lastHead_append]
    cases m with
    | reset request =>
      obtain ⟨hold, hG⟩ := hm.1 request rfl
      refine .inr ?_
      change some ((ReorgBatch.digest I msgs).reset.elim request _) = _ ∧ G request.newHead head
      rcases ih hmsgs with ⟨hnone, hlast⟩ | ⟨hsome, hlast⟩
      · rw [hnone]
        rw [hlast] at hold hG
        refine ⟨?_, hG⟩
        rw [← hold]
        rfl
      · rw [hsome]
        exact ⟨rfl, htrans _ _ _ hG hlast⟩
    | promote accounts => exact ih hmsgs
    | event tx => exact ih hmsgs

theorem Step.sent (h : Step I G s s') (hsimulates : Simulates I s) :
    s'.log.sent = s.log.sent ∧ s'.head = s.head ∨
      ∃ m, s'.log.sent = s.log.sent ++ [(s.log.next, m)] ∧ s'.head = nextHead s.head m ∧
        ∀ request, m = .reset request → request.oldHead = s.head ∧ G request.newHead s.head := by
  cases h with
  | requestReset newHead hG hopen =>
    refine .inr ⟨.reset ⟨s.head, newHead⟩, ?_, head_turn _, fun request heq => ?_⟩
    · rw [log_turn, Coalescing.State.sent_turn]
      rfl
    · cases heq
      exact ⟨rfl, hG⟩
  | requestPromote accounts hopen =>
    refine .inr ⟨.promote accounts, ?_, head_turn _, fun request heq => by cases heq⟩
    rw [log_turn, Coalescing.State.sent_turn]
    rfl
  | queueTxEvent tx hopen =>
    refine .inr ⟨.event tx, ?_, head_turn _, fun request heq => by cases heq⟩
    rw [log_turn, Coalescing.State.sent_turn]
    rfl
  | runReorg i r hactive hlocked =>
    obtain ⟨r', hr', hid, hbatch, -⟩ := hsimulates.get_active hactive
    refine .inl ⟨?_, rfl⟩
    rw [(hsimulates.unlock hr' hid hbatch).1]
    rfl
  | close i r hactive hunlocked =>
    obtain ⟨r', hr', hid, -⟩ := hsimulates.get_active hactive
    refine .inl ⟨?_, rfl⟩
    rw [(hsimulates.finish hr' hid).1]
    rfl
  | curDone id hcurrent hclosed hopen =>
    refine .inl ⟨?_, head_turn _⟩
    rw [log_turn, Coalescing.State.sent_turn]
    rfl
  | shutdown hcurrent hopen => exact .inl ⟨rfl, rfl⟩

theorem Reachable.linked (h : Reachable I G first s) :
    Linked G first (s.log.sent.map Prod.snd) ∧
      s.head = lastHead first (s.log.sent.map Prod.snd) := by
  induction h with
  | init => exact ⟨trivial, rfl⟩
  | step hreach hstep ih =>
    rcases hstep.sent hreach.simulates.1 with ⟨hsent, hhead⟩ | ⟨m, hsent, hhead, hm⟩
    · rw [hsent, hhead]
      exact ih
    · rw [hsent, List.map_append, linked_append, lastHead_append, ← ih.2, hhead]
      exact ⟨⟨ih.1, hm, trivial⟩, rfl⟩

/-- A reset of each run starts where the one before has led to, from the first head to the last. -/
def Chained (G : EvmHeader → EvmHeader → Prop) : EvmHeader → List ReorgBatch → EvmHeader → Prop
  | head, [], last => last = head
  | head, b :: batches, last =>
    match b.reset with
    | none => Chained G head batches last
    | some request => request.oldHead = head ∧ G request.newHead head ∧
      Chained G request.newHead batches last

theorem Linked.chained (htrans : ∀ h₁ h₂ h₃, G h₁ h₂ → G h₂ h₃ → G h₁ h₃) {head : EvmHeader}
    {batches : List (List PoolMsg)} (h : Linked G head batches.flatten) :
    Chained G head (batches.map (ReorgBatch.digest I)) (lastHead head batches.flatten) := by
  induction batches generalizing head with
  | nil => rfl
  | cons msgs batches ih =>
    obtain ⟨hmsgs, hrest⟩ := linked_append.mp h
    have hchained := ih hrest
    rw [List.flatten_cons, lastHead_append, List.map_cons, Chained]
    rcases hmsgs.digest (I := I) htrans with ⟨hnone, hlast⟩ | ⟨hsome, hG⟩
    · rw [hnone]
      rwa [hlast] at hchained ⊢
    · rw [hsome]
      exact ⟨rfl, hG, hchained⟩

/-- Each reset of a run is one from a head to another one that is related to it. -/
theorem Chained.reset {head last : EvmHeader} {batches : List ReorgBatch}
    (h : Chained G head batches last) {b : ReorgBatch} (hb : b ∈ batches) {request : ResetRequest}
    (hreset : b.reset = some request) : G request.newHead request.oldHead := by
  induction batches generalizing head with
  | nil => cases hb
  | cons b' batches ih =>
    rw [Chained] at h
    rcases List.mem_cons.mp hb with rfl | hb
    · rw [hreset] at h
      exact h.1 ▸ h.2.1
    · cases hreset' : b'.reset with
      | none =>
        rw [hreset'] at h
        exact ih h hb
      | some request' =>
        rw [hreset'] at h
        exact ih h.2.2 hb

theorem Reachable.chained (htrans : ∀ h₁ h₂ h₃, G h₁ h₂ → G h₂ h₃ → G h₁ h₃)
    (h : Reachable I G first s) :
    Chained G first (s.ran.map Prod.snd) (lastHead first (s.log.executed.flatMap Prod.snd)) := by
  obtain ⟨hsimulates, hlog⟩ := h.simulates
  have hlinked := h.linked.1
  rw [hlog.inv.messages, linked_append, List.flatMap_def] at hlinked
  rw [hsimulates.ran, List.map_map, List.flatMap_def]
  have hchained := hlinked.1.chained (I := I) htrans
  rwa [List.map_map] at hchained

/-! ## Events -/

/-- The events of messages. -/
def eventsOf (msgs : List PoolMsg) : List Transaction :=
  msgs.filterMap fun
    | .reset _ => none
    | .promote _ => none
    | .event tx => some tx

/-- The last one of a list among those of its sender with its nonce. -/
def Latest (I : TxInfo) (tx : Transaction) (txs : List Transaction) : Prop :=
  ∃ before after, txs = before ++ tx :: after ∧
    ∀ t ∈ after, I.from t = I.from tx → t.nonce ≠ tx.nonce

theorem latest_concat {txs : List Transaction} {tx t : Transaction} :
    Latest I tx (txs ++ [t]) ↔
      tx = t ∨ Latest I tx txs ∧ (I.from t = I.from tx → t.nonce ≠ tx.nonce) := by
  constructor
  · rintro ⟨before, after, heq, hafter⟩
    rcases List.eq_nil_or_concat after with rfl | ⟨after, t', rfl⟩
    · exact .inl (List.append_singleton_inj.mp heq).2.symm
    · rw [List.concat_eq_append, ← List.cons_append, ← List.append_assoc] at heq
      obtain ⟨rfl, rfl⟩ := List.append_singleton_inj.mp heq
      rw [List.concat_eq_append] at hafter
      exact .inr ⟨⟨before, after, rfl, fun t ht => hafter t (List.mem_append_left _ ht)⟩,
        hafter t (List.mem_append_right _ (List.mem_singleton_self t))⟩
  · rintro (rfl | ⟨⟨before, after, rfl, hafter⟩, ht⟩)
    · exact ⟨txs, [], rfl, List.forall_mem_nil _⟩
    · refine ⟨before, after ++ [t], by rw [List.append_assoc, List.cons_append], fun t' ht' => ?_⟩
      rcases List.mem_append.mp ht' with ht' | ht'
      · exact hafter t' ht'
      · rw [List.mem_singleton.mp ht']
        exact ht

/-- An event replaces the one of its sender with its nonce. -/
theorem mem_eventsAt_receive {b : ReorgBatch} {a : Address}
    (hwf : ((b.events.lookup a).getD .new).WF) (t : Transaction) :
    (((b.receive I (.event t)).events.lookup a).getD .new).WF ∧
      ∀ tx, tx ∈ (b.receive I (.event t)).eventsAt a ↔
        I.from t = a ∧ tx = t ∨ tx ∈ b.eventsAt a ∧ (I.from t = a → t.nonce ≠ tx.nonce) := by
  dsimp only [ReorgBatch.eventsAt, ReorgBatch.receive]
  by_cases ha : a = I.from t
  · subst ha
    rw [AList.lookup_insert, Option.getD_some]
    refine ⟨hwf.put t, fun tx => ?_⟩
    rw [hwf.sorted_put t, mem_placeTx]
    simp only [true_and, forall_const, ne_comm]
  · rw [AList.lookup_insert_ne ha]
    refine ⟨hwf, fun tx => ?_⟩
    simp only [Ne.symm ha, false_and, false_or, false_implies, and_true]

/-- The loop has the latest event of each account with each nonce. -/
theorem events_digest (msgs : List PoolMsg) (a : Address) :
    (((ReorgBatch.digest I msgs).events.lookup a).getD .new).WF ∧
      ∀ tx, tx ∈ (ReorgBatch.digest I msgs).eventsAt a ↔
        I.from tx = a ∧ Latest I tx (eventsOf msgs) := by
  induction msgs using List.reverseRecOn with
  | nil =>
    refine ⟨TxSortedMap.wf_new, fun tx => iff_of_false ?_ ?_⟩
    · rw [ReorgBatch.eventsAt]
      exact TxSortedMap.sorted_new ▸ List.not_mem_nil
    · rintro ⟨-, before, after, heq, -⟩
      exact absurd heq.symm (by simp [eventsOf])
  | append_singleton msgs m ih =>
    rw [ReorgBatch.digest_concat, eventsOf, List.filterMap_append]
    cases m with
    | reset request =>
      rw [show List.filterMap _ [PoolMsg.reset request] = [] from rfl, List.append_nil]
      exact ih
    | promote accounts =>
      rw [show List.filterMap _ [PoolMsg.promote accounts] = [] from rfl, List.append_nil]
      exact ih
    | event t =>
      rw [show List.filterMap _ [PoolMsg.event t] = [t] from rfl]
      obtain ⟨hwf, hmem⟩ := ih
      obtain ⟨hwf', hreceive⟩ := mem_eventsAt_receive (I := I) hwf t
      refine ⟨hwf', fun tx => ?_⟩
      rw [hreceive, hmem, latest_concat]
      constructor
      · rintro (⟨rfl, rfl⟩ | ⟨⟨rfl, hlatest⟩, hne⟩)
        · exact ⟨rfl, .inl rfl⟩
        · exact ⟨rfl, .inr ⟨hlatest, hne⟩⟩
      · rintro ⟨rfl, rfl | hlatest⟩
        · exact .inl ⟨rfl, rfl⟩
        · exact .inr ⟨⟨rfl, hlatest.1⟩, hlatest.2⟩

/-! ## What the senders rely on -/

/-- Messages of which none is urgent request nothing. -/
theorem digest_of_not_urgent {msgs : List PoolMsg} (h : ∀ m ∈ msgs, m.urgent = false)
    (head : EvmHeader) :
    (ReorgBatch.digest I msgs).reset = none ∧ (ReorgBatch.digest I msgs).dirtyAccounts = none ∧
      lastHead head msgs = head := by
  induction msgs using List.reverseRecOn with
  | nil => exact ⟨rfl, rfl, rfl⟩
  | append_singleton msgs m ih =>
    obtain ⟨hreset, hdirty, hlast⟩ := ih fun t ht => h t (List.mem_append_left _ ht)
    have hm := h m (List.mem_append_right _ (List.mem_singleton_self m))
    rw [ReorgBatch.digest_concat, lastHead_append, hlast]
    cases m with
    | reset request => cases hm
    | promote accounts => cases hm
    | event tx => exact ⟨hreset, hdirty, rfl⟩

/-- When the loop waits for no run, there is none, and all messages with a request are executed. -/
theorem Reachable.idle (h : Reachable I G first s) (hopen : s.stopped = false)
    (hcurrent : s.curDone = none) :
    s.active = [] ∧ s.log.unexecuted = s.log.batch ∧ ∀ m ∈ s.log.batch, m.urgent = false := by
  obtain ⟨hsimulates, hlog⟩ := h.simulates
  have hcurrent' : s.log.current = none := hsimulates.current.trans hcurrent
  obtain ⟨hactive, -⟩ := hlog.inv.idle_of_closed fun id hid =>
    absurd (hid.symm.trans hcurrent') (Option.some_ne_none id)
  refine ⟨?_, ?_, hlog.inv.not_urgent (hsimulates.stopped.trans hopen) hcurrent'⟩
  · have hview := hsimulates.active
    rw [hactive] at hview
    exact List.map_eq_nil_iff.mp hview
  · rw [Coalescing.State.unexecuted, Coalescing.State.waiting, hactive]
    rfl

/-- **One run at a time, and each message once.** There is at most one goroutine of `runReorg`. All
that the loop has received is, in this order, in the batches of the runs that changed the pool, in
the batch of the run that has not yet done so, and in the one for the next run. -/
theorem Reachable.exactly_once (h : Reachable I G first s) :
    s.active.length ≤ 1 ∧ s.ran.map Prod.fst = List.range s.ran.length ∧
      ∃ done waiting : List (List PoolMsg), ∃ batch,
        s.log.sent.map Prod.snd = done.flatten ++ (waiting.flatten ++ batch) ∧
        s.ran.map Prod.snd = done.map (.digest I) ∧
        (s.active.filter fun r => !r.unlocked).map ReorgRun.batch = waiting.map (.digest I) ∧
        s.batch = .digest I batch := by
  obtain ⟨hsimulates, hlog⟩ := h.simulates
  have hlength := congrArg List.length hsimulates.active
  rw [List.length_map, List.length_map] at hlength
  refine ⟨hlength ▸ hlog.inv.length_active_le, ?_, s.log.executed.map Prod.snd,
    s.log.waiting.map Prod.snd, s.log.batch, ?_, ?_, ?_, hsimulates.batch⟩
  · rw [hsimulates.ran, List.map_map, List.length_map]
    exact hlog.inv.ids
  · rw [hlog.inv.messages, Coalescing.State.unexecuted, List.flatMap_def, List.flatMap_def]
  · rw [hsimulates.ran, List.map_map, List.map_map]
    rfl
  · -- both sides only depend on what the history has of the runs
    have hview := congrArg (fun l : List (ℕ × ReorgBatch × Bool) =>
      (l.filter fun v => !v.2.2).map fun v => v.2.1) hsimulates.active
    rw [List.filter_map, List.filter_map, List.map_map, List.map_map] at hview
    rw [Coalescing.State.waiting, List.map_map, List.map_map]
    exact hview

/-- **Who waits is served.** When the channel that a sender got is closed before the shutdown, the
run with the message among its own has changed the pool. When the loop waits for no run, no request
is left. -/
theorem Reachable.answered (h : Reachable I G first s) (hopen : s.stopped = false) :
    (∀ id m, (id, m) ∈ s.log.sent → id ∈ s.closed →
        ∃ msgs, (id, msgs) ∈ s.log.executed ∧ m ∈ msgs ∧
          (id, ReorgBatch.digest I msgs) ∈ s.ran) ∧
      (s.curDone = none → s.active = [] ∧ s.batch.reset = none ∧ s.batch.dirtyAccounts = none) := by
  obtain ⟨hsimulates, hlog⟩ := h.simulates
  constructor
  · intro id m hsent hclosed
    rw [← hsimulates.closed] at hclosed
    obtain ⟨msgs, hexecuted, hm⟩ :=
      hlog.inv.executed_of_closed (hsimulates.stopped.trans hopen) hsent hclosed
    refine ⟨msgs, hexecuted, hm, ?_⟩
    rw [hsimulates.ran]
    exact List.mem_map_of_mem hexecuted
  · intro hcurrent
    obtain ⟨hactive, -, hurgent⟩ := h.idle hopen hcurrent
    obtain ⟨hreset, hdirty, -⟩ := digest_of_not_urgent (I := I) hurgent first
    rw [hsimulates.batch]
    exact ⟨hactive, hreset, hdirty⟩

/-- **No head is missed.** The resets of the runs lead from the first head on, each from where the
one before has led to. When the loop waits for no run, they have led to the last head. -/
theorem Reachable.resets_linked (htrans : ∀ h₁ h₂ h₃, G h₁ h₂ → G h₂ h₃ → G h₁ h₃)
    (h : Reachable I G first s) :
    ∃ last, Chained G first (s.ran.map Prod.snd) last ∧
      (s.stopped = false → s.curDone = none → last = s.head) := by
  refine ⟨_, h.chained htrans, fun hopen hcurrent => ?_⟩
  obtain ⟨hsimulates, hlog⟩ := h.simulates
  obtain ⟨-, hunexecuted, hurgent⟩ := h.idle hopen hcurrent
  rw [h.linked.2, hlog.inv.messages, lastHead_append, hunexecuted]
  exact (digest_of_not_urgent (I := I) hurgent _).2.2.symm

/-- **Events.** A run has been given the latest of the events in its messages for each account and
nonce, and no others; so will the next one be. -/
theorem Reachable.latest_events (h : Reachable I G first s) :
    (∀ id b, (id, b) ∈ s.ran → ∃ msgs, (id, msgs) ∈ s.log.executed ∧ ∀ a tx,
        tx ∈ b.eventsAt a ↔ I.from tx = a ∧ Latest I tx (eventsOf msgs)) ∧
      ∀ a tx, tx ∈ s.batch.eventsAt a ↔ I.from tx = a ∧ Latest I tx (eventsOf s.log.batch) := by
  obtain ⟨hsimulates, -⟩ := h.simulates
  constructor
  · intro id b hran
    rw [hsimulates.ran] at hran
    obtain ⟨⟨id', msgs⟩, hexecuted, heq⟩ := List.mem_map.mp hran
    cases heq
    exact ⟨msgs, hexecuted, fun a => (events_digest msgs a).2⟩
  · intro a
    rw [hsimulates.batch]
    exact (events_digest s.log.batch a).2

/-- If the chain only grows, no run takes transactions back, however many blocks it puts
together. -/
theorem Reachable.nothing_reinjected {chain : ChainBlocks} (overflow : UInt64)
    (h : Reachable I chain.Descends first s) {id : ℕ} {b : ReorgBatch} (hran : (id, b) ∈ s.ran)
    {request : ResetRequest} (hreset : b.reset = some request) :
    chain.reorg I overflow (some request.oldHead) request.newHead = .reinject [] :=
  chain.reorg_of_descends I overflow
    ((h.chained fun _ _ _ h h' => h.trans h').reset (List.mem_map_of_mem hran) hreset)

end

/-! ## A loop at work -/

section

open ChainBlocks

/-- The head of the first block, and of three that follow. -/
def poolHead : ℕ → EvmHeader
  | 0 => (poolBlock 1 0 1 []).toEvmHeader
  | 1 => (poolBlock 3 1 2 [poolTransfer 1]).toEvmHeader
  | 2 => (poolBlock 4 3 3 []).toEvmHeader
  | _ => (poolBlock 5 4 4 []).toEvmHeader

/-- A transfer in the place of another one. -/
def poolReplacement : Transaction :=
  { poolTransfer 1 with gasPrice := 2 }

/-- What the loop gets: an event, another one in its place, and three blocks. -/
def poolMsgs : List PoolMsg :=
  [.event (poolTransfer 1), .event poolReplacement, .reset ⟨poolHead 0, poolHead 1⟩,
    .reset ⟨poolHead 1, poolHead 2⟩, .reset ⟨poolHead 2, poolHead 3⟩]

/-- Two blocks arrive while the run for the first one is active. They get one run, in whose time
there is one more event. -/
theorem exists_busy_idle :
    ∃ busy idle, Reachable poolInfo poolChain.Descends (poolHead 0) busy ∧
      Reachable poolInfo poolChain.Descends (poolHead 0) idle ∧
      (busy.active = [⟨1, .digest poolInfo (poolMsgs.drop 3), false⟩] ∧
        busy.ran = [(0, .digest poolInfo (poolMsgs.take 3))] ∧
        busy.log.sent.map Prod.snd = poolMsgs ++ [.event (poolTransfer 2)]) ∧
      idle.stopped = false ∧ idle.curDone = none ∧ idle.head = poolHead 3 ∧
      idle.ran = [(0, .digest poolInfo (poolMsgs.take 3)),
        (1, .digest poolInfo (poolMsgs.drop 3))] ∧
      idle.log.executed = [(0, poolMsgs.take 3), (1, poolMsgs.drop 3)] ∧
      (1, .reset ⟨poolHead 1, poolHead 2⟩) ∈ idle.log.sent ∧ 1 ∈ idle.closed := by
  have hgrows : ∀ n < 3, poolChain.Descends (poolHead (n + 1)) (poolHead n) := by
    intro n hn
    interval_cases n
    · exact ⟨poolBlock 3 1 2 [poolTransfer 1], _, poolBlock 1 0 1 [], ⟨by decide, rfl⟩,
        ⟨by decide, rfl⟩, .step (by decide) (.here _)⟩
    · exact ⟨poolBlock 4 3 3 [], _, poolBlock 3 1 2 [poolTransfer 1], ⟨by decide, rfl⟩,
        ⟨by decide, rfl⟩, .step (by decide) (.here _)⟩
    · exact ⟨poolBlock 5 4 4 [], _, poolBlock 4 3 3 [], ⟨by decide, rfl⟩,
        ⟨by decide, rfl⟩, .step (by decide) (.here _)⟩
  have h₁ : Reachable poolInfo poolChain.Descends (poolHead 0) _ :=
    .step .init (.queueTxEvent (poolTransfer 1) rfl)
  have h₂ := h₁.step (.queueTxEvent poolReplacement rfl)
  have h₃ := h₂.step (.requestReset (poolHead 1) (hgrows 0 (by decide)) rfl)
  have h₄ := h₃.step (.requestReset (poolHead 2) (hgrows 1 (by decide)) rfl)
  have h₅ := h₄.step (.requestReset (poolHead 3) (hgrows 2 (by decide)) rfl)
  have h₆ := h₅.step (.runReorg 0 _ rfl rfl)
  have h₇ := h₆.step (.close 0 _ rfl rfl)
  have h₈ := h₇.step (.curDone 0 rfl (List.mem_singleton_self 0) rfl)
  have h₉ := h₈.step (.queueTxEvent (poolTransfer 2) rfl)
  have h₁₀ := h₉.step (.runReorg 0 _ rfl rfl)
  have h₁₁ := h₁₀.step (.close 0 _ rfl rfl)
  have h₁₂ := h₁₁.step (.curDone 1 rfl (List.mem_cons_of_mem 0 (List.mem_singleton_self 1)) rfl)
  exact ⟨_, _, h₉, h₁₂, ⟨rfl, rfl, rfl⟩, rfl, rfl, rfl, rfl, rfl,
    List.mem_of_getElem? (i := 3) rfl, List.mem_of_getElem? (i := 1) rfl⟩

/-- A run has its messages, one waits with its own, and the last event is for the next one. -/
theorem Reachable.exactly_once_sample :
    ∃ s, Reachable poolInfo poolChain.Descends (poolHead 0) s ∧
      s.ran.map Prod.fst = List.range 1 ∧ s.active.length = 1 ∧
      ∃ done waiting : List (List PoolMsg), ∃ batch,
        poolMsgs ++ [.event (poolTransfer 2)] = done.flatten ++ (waiting.flatten ++ batch) ∧
        done.length = 1 ∧ waiting.length = 1 ∧ s.batch = .digest poolInfo batch := by
  obtain ⟨s, -, hs, -, ⟨hactive, hran, hsent⟩, -⟩ := exists_busy_idle
  obtain ⟨-, hids, done, waiting, batch, hmessages, hdone, hwaiting, hbatch⟩ := hs.exactly_once
  rw [hsent] at hmessages
  rw [hran] at hids hdone
  rw [hactive] at hwaiting
  refine ⟨s, hs, hran ▸ hids, by rw [hactive]; rfl, done, waiting, batch, hmessages, ?_, ?_, hbatch⟩
  · simpa using (congrArg List.length hdone).symm
  · simpa using (congrArg List.length hwaiting).symm

/-- The block that came during the first run was in the second one. -/
theorem Reachable.answered_sample :
    ∃ s, Reachable poolInfo poolChain.Descends (poolHead 0) s ∧ s.batch.reset = none ∧
      ∃ msgs, (1, msgs) ∈ s.log.executed ∧ .reset ⟨poolHead 1, poolHead 2⟩ ∈ msgs ∧
        (1, .digest poolInfo msgs) ∈ s.ran := by
  obtain ⟨-, s, -, hs, -, hopen, hcurrent, -, -, -, hsent, hclosed⟩ := exists_busy_idle
  obtain ⟨hserved, hidle⟩ := hs.answered hopen
  exact ⟨s, hs, (hidle hcurrent).2.1, hserved 1 _ hsent hclosed⟩

/-- The second reset leads over two blocks. -/
theorem Reachable.resets_linked_sample :
    ∃ s, Reachable poolInfo poolChain.Descends (poolHead 0) s ∧
      s.ran.map (fun b => b.2.reset) =
        [some ⟨poolHead 0, poolHead 1⟩, some ⟨poolHead 1, poolHead 3⟩] ∧
      Chained poolChain.Descends (poolHead 0) (s.ran.map Prod.snd) (poolHead 3) := by
  obtain ⟨-, s, -, hs, -, hopen, hcurrent, hhead, hran, -⟩ := exists_busy_idle
  obtain ⟨last, hchained, hlast⟩ := hs.resets_linked fun _ _ _ h h' => h.trans h'
  rw [hlast hopen hcurrent, hhead] at hchained
  exact ⟨s, hs, by rw [hran]; rfl, hchained⟩

/-- The run has the event that came later, and not the one in whose place it is. -/
theorem Reachable.latest_events_sample :
    ∃ s b, Reachable poolInfo poolChain.Descends (poolHead 0) s ∧ (0, b) ∈ s.ran ∧
      poolReplacement ∈ b.eventsAt (copyBytes 20 [7]) ∧
      poolTransfer 1 ∉ b.eventsAt (copyBytes 20 [7]) := by
  obtain ⟨-, s, -, hs, -, -, -, -, hran, hexecuted, -⟩ := exists_busy_idle
  have hmem : (0, ReorgBatch.digest poolInfo (poolMsgs.take 3)) ∈ s.ran := hran ▸ List.mem_cons_self
  obtain ⟨msgs, hmsgs, hevents⟩ := hs.latest_events.1 0 _ hmem
  obtain rfl : msgs = poolMsgs.take 3 := by
    rw [hexecuted] at hmsgs
    simpa using hmsgs
  refine ⟨s, _, hs, hmem, (hevents _ _).mpr ⟨rfl, [poolTransfer 1], [], rfl, nofun⟩, fun h => ?_⟩
  have hlatest : Latest poolInfo (poolTransfer 1) ([poolTransfer 1] ++ [poolReplacement]) :=
    ((hevents _ _).mp h).2
  rcases latest_concat.mp hlatest with heq | ⟨-, hne⟩
  · exact absurd (congrArg (·.gasPrice) heq) (by decide)
  · exact hne rfl rfl

/-- Nothing comes back with the reset over two blocks. -/
theorem Reachable.nothing_reinjected_sample :
    poolChain.reorg poolInfo 0 (some (poolHead 1)) (poolHead 3) = .reinject [] := by
  obtain ⟨-, s, -, hs, -, -, -, -, hran, -⟩ := exists_busy_idle
  have hmem : (1, ReorgBatch.digest poolInfo (poolMsgs.drop 3)) ∈ s.ran :=
    hran ▸ List.mem_cons_of_mem _ (List.mem_singleton_self _)
  exact hs.nothing_reinjected 0 hmem rfl

end

end ReorgLoop

end Zilionixx
