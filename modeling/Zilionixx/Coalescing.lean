import Mathlib

/-!
# A loop that collects requests for background runs

A loop receives messages and puts them in a batch. When no run is active and an urgent message is in
the batch, a run is launched with the batch. A sender of an urgent message gets the channel of the
next run, which is closed when the run is over. The runs are goroutines of their own, of which
nothing but the loop says that there is only one.
-/

namespace Coalescing

section

variable {ι : Type}

/-- A run that has been launched and is not over. -/
structure Run (ι : Type) where
  /-- the channel that it closes -/
  id : ℕ
  batch : List ι
  /-- if the batch is executed, and the run is only not over yet -/
  executed : Bool

/-- The loop with its runs; channels are numbers. -/
structure State (ι : Type) where
  /-- the channel of the active run, as long as the loop has not noticed that it is closed -/
  current : Option ℕ
  /-- the channel of the next run -/
  next : ℕ
  /-- if a run has to be launched -/
  launch : Bool
  /-- the messages since the last launch -/
  batch : List ι
  active : List (Run ι)
  closed : List ℕ
  stopped : Bool
  /-- all messages, with the channel of the next run when they came -/
  sent : List (ℕ × ι)
  /-- the batches that have been executed -/
  executed : List (ℕ × List ι)

/-- Nothing has been received. -/
def State.init : State ι where
  current := none
  next := 0
  launch := false
  batch := []
  active := []
  closed := []
  stopped := false
  sent := []
  executed := []

/-- The next turn of the loop launches a run if one is needed. -/
def State.turn (s : State ι) : State ι :=
  if s.current = none ∧ s.launch = true then
    { s with
      current := some s.next
      next := s.next + 1
      launch := false
      batch := []
      active := s.active ++ [⟨s.next, s.batch, false⟩] }
  else s

/-- A message is received. -/
def State.receive (urgent : ι → Bool) (s : State ι) (m : ι) : State ι :=
  { s with
    launch := s.launch || urgent m
    batch := s.batch ++ [m]
    sent := s.sent ++ [(s.next, m)] }

/-- A run executes its batch. -/
def State.execute (s : State ι) (i : ℕ) (r : Run ι) : State ι :=
  { s with
    active := s.active.set i { r with executed := true }
    executed := s.executed ++ [(r.id, r.batch)] }

/-- A run is over. -/
def State.finish (s : State ι) (i : ℕ) (r : Run ι) : State ι :=
  { s with
    active := s.active.eraseIdx i
    closed := s.closed ++ [r.id] }

/-- The loop notices that a run is over. -/
def State.notice (s : State ι) : State ι :=
  { s with current := none }

/-- The loop ends, and what is in the batch is not executed any more. -/
def State.stop (s : State ι) : State ι :=
  { s with
    closed := s.closed ++ [s.next]
    stopped := true }

variable (urgent : ι → Bool)

/-- What can happen, in any order. -/
inductive Step : State ι → State ι → Prop
  | receive {s : State ι} (m : ι) (hopen : s.stopped = false) : Step s (s.receive urgent m).turn
  | execute {s : State ι} (i : ℕ) (r : Run ι) (hactive : s.active[i]? = some r)
      (hnot : r.executed = false) : Step s (s.execute i r)
  | finish {s : State ι} (i : ℕ) (r : Run ι) (hactive : s.active[i]? = some r)
      (hexecuted : r.executed = true) : Step s (s.finish i r)
  | notice {s : State ι} (id : ℕ) (hcurrent : s.current = some id) (hclosed : id ∈ s.closed)
      (hopen : s.stopped = false) : Step s s.notice.turn
  | stop {s : State ι} (hcurrent : ∀ id, s.current = some id → id ∈ s.closed)
      (hopen : s.stopped = false) : Step s s.stop

/-- The states that can be reached. -/
inductive Reachable : State ι → Prop
  | init : Reachable State.init
  | step {s s' : State ι} (h : Reachable s) (hstep : Step urgent s s') : Reachable s'

/-! ## The invariant -/

/-- Messages with the channel of their run. -/
def tagged (b : ℕ × List ι) : List (ℕ × ι) :=
  b.2.map fun m => (b.1, m)

/-- The run that is launched and not executed. -/
def State.waiting (s : State ι) : List (ℕ × List ι) :=
  (s.active.filter fun r => !r.executed).map fun r => (r.id, r.batch)

/-- No run is active, or just the last one. -/
inductive Phase (s : State ι) : Prop
  | idle (hactive : s.active = []) (hexecuted : s.executed.length = s.next)
      (hclosed : s.closed = if s.stopped then List.range (s.next + 1) else List.range s.next)
      (hcurrent : ∀ id, s.current = some id → id < s.next)
  | busy (r : Run ι) (hactive : s.active = [r]) (hnext : r.id + 1 = s.next)
      (hcurrent : s.current = some r.id) (hopen : s.stopped = false)
      (hclosed : s.closed = List.range r.id)
      (hexecuted : s.executed.length = if r.executed then s.next else r.id)

/-- What holds in all states. -/
structure Inv (s : State ι) : Prop where
  phase : Phase s
  ids : s.executed.map Prod.fst = List.range s.executed.length
  /-- each message is in one place, in the order in which they came -/
  sent : s.sent = s.executed.flatMap tagged ++ s.waiting.flatMap tagged ++ tagged (s.next, s.batch)
  /-- a run is not launched only because another one is active -/
  launch : s.stopped = false → s.current = none → s.launch = false
  urgent : s.launch = false → ∀ m ∈ s.batch, urgent m = false

end

section

variable {ι : Type} {urgent : ι → Bool} {s s' : State ι}

theorem State.sent_turn (s : State ι) : s.turn.sent = s.sent := by
  rw [State.turn]
  split <;> rfl

theorem inv_init : Inv urgent (State.init : State ι) where
  phase := .idle rfl rfl rfl (fun id h => by cases h)
  ids := rfl
  sent := rfl
  launch := fun _ _ => rfl
  urgent := fun _ => List.forall_mem_nil _

/-- The invariant before the next turn of the loop. -/
theorem Inv.turn (hphase : Phase s) (hids : s.executed.map Prod.fst = List.range s.executed.length)
    (hsent : s.sent =
      s.executed.flatMap tagged ++ s.waiting.flatMap tagged ++ tagged (s.next, s.batch))
    (hurgent : s.launch = false → ∀ m ∈ s.batch, urgent m = false) (hopen : s.stopped = false) :
    Inv urgent s.turn := by
  rw [State.turn]
  split
  · rename_i hlaunch
    cases hphase with
    | idle hactive hexecuted hclosed hcurrent =>
      rw [hopen] at hclosed
      refine ⟨.busy ⟨s.next, s.batch, false⟩ ?_ rfl rfl hopen hclosed hexecuted, hids, ?_,
        fun _ h => absurd h (Option.some_ne_none _), fun _ => List.forall_mem_nil _⟩
      · dsimp only
        rw [hactive, List.nil_append]
      · rw [State.waiting, hactive] at hsent
        rw [hsent, State.waiting]
        dsimp only
        rw [hactive]
        simp [tagged]
    | busy r hactive hnext hcurrent =>
      exact absurd (hcurrent.symm.trans hlaunch.1) (Option.some_ne_none _)
  · rename_i hnot
    refine ⟨hphase, hids, hsent, fun _ hnone => ?_, hurgent⟩
    exact Bool.eq_false_iff.mpr fun htrue => hnot ⟨hnone, htrue⟩

theorem Inv.receive (h : Inv urgent s) (m : ι) (hopen : s.stopped = false) :
    Inv urgent (s.receive urgent m).turn := by
  refine Inv.turn ?_ h.ids ?_ ?_ hopen
  · cases h.phase with
    | idle hactive hexecuted hclosed hcurrent => exact .idle hactive hexecuted hclosed hcurrent
    | busy r hactive hnext hcurrent hopen hclosed hexecuted =>
      exact .busy r hactive hnext hcurrent hopen hclosed hexecuted
  · have hsent := h.sent
    dsimp only [State.receive]
    rw [hsent, tagged, tagged, List.map_append, List.append_assoc, List.append_assoc,
      List.append_assoc]
    rfl
  · intro hlaunch t ht
    obtain ⟨hbefore, hm⟩ := Bool.or_eq_false_iff.mp hlaunch
    rcases List.mem_append.mp ht with ht | ht
    · exact h.urgent hbefore t ht
    · rw [List.mem_singleton.mp ht]
      exact hm

/-- The only active run, if there is one. -/
theorem Phase.of_active (h : Phase s) {i : ℕ} {r : Run ι} (hactive : s.active[i]? = some r) :
    i = 0 ∧ s.active = [r] ∧ r.id + 1 = s.next ∧ s.current = some r.id ∧ s.stopped = false ∧
      s.closed = List.range r.id ∧ s.executed.length = if r.executed then s.next else r.id := by
  cases h with
  | idle hidle =>
    rw [hidle] at hactive
    cases hactive
  | busy r' hbusy hnext hcurrent hopen hclosed hexecuted =>
    rw [hbusy] at hactive
    cases i with
    | zero =>
      obtain rfl : r' = r := Option.some.inj hactive
      exact ⟨rfl, hbusy, hnext, hcurrent, hopen, hclosed, hexecuted⟩
    | succ i => cases hactive

theorem Inv.execute (h : Inv urgent s) {i : ℕ} {r : Run ι} (hactive : s.active[i]? = some r)
    (hnot : r.executed = false) : Inv urgent (s.execute i r) := by
  obtain ⟨rfl, hbusy, hnext, hcurrent, hopen, hclosed, hexecuted⟩ := h.phase.of_active hactive
  rw [hnot] at hexecuted
  have hlength : s.executed.length = r.id := hexecuted
  refine ⟨.busy { r with executed := true } ?_ hnext hcurrent hopen hclosed ?_, ?_, ?_, h.launch,
    h.urgent⟩
  · rw [State.execute, hbusy]
    rfl
  · dsimp only [State.execute]
    rw [List.length_append, hlength]
    exact hnext
  · rw [State.execute, List.map_append, h.ids, List.length_append, hlength]
    exact List.range_succ.symm
  · have hsent := h.sent
    rw [State.waiting, hbusy] at hsent
    rw [State.execute, hsent, State.waiting, hbusy]
    simp [hnot]

theorem Inv.finish (h : Inv urgent s) {i : ℕ} {r : Run ι} (hactive : s.active[i]? = some r)
    (hexecuted : r.executed = true) : Inv urgent (s.finish i r) := by
  obtain ⟨rfl, hbusy, hnext, hcurrent, hopen, hclosed, hlength⟩ := h.phase.of_active hactive
  rw [hexecuted] at hlength
  refine ⟨.idle ?_ hlength ?_ fun id hid => ?_, h.ids, ?_, h.launch, h.urgent⟩
  · rw [State.finish, hbusy]
    rfl
  · have hstopped : (s.finish 0 r).stopped = false := hopen
    rw [hstopped, State.finish, hclosed, ← hnext]
    exact List.range_succ.symm
  · have heq : id = r.id := Option.some.inj (hid.symm.trans hcurrent)
    rw [heq, State.finish, ← hnext]
    exact Nat.lt_succ_self _
  · have hsent := h.sent
    rw [State.waiting, hbusy] at hsent
    rw [State.finish, hsent, State.waiting, hbusy]
    simp [hexecuted]

/-- The channel of an active run is not closed. -/
theorem Inv.idle_of_closed (h : Inv urgent s) (hclosed : ∀ id, s.current = some id →
    id ∈ s.closed) :
    s.active = [] ∧ s.executed.length = s.next ∧
      s.closed = if s.stopped then List.range (s.next + 1) else List.range s.next := by
  cases h.phase with
  | idle hactive hexecuted hrange => exact ⟨hactive, hexecuted, hrange⟩
  | busy r hactive hnext hcurrent hopen hrange =>
    have hmem := hclosed r.id hcurrent
    rw [hrange, List.mem_range] at hmem
    exact absurd hmem (Nat.lt_irrefl _)

theorem Inv.step (h : Inv urgent s) (hstep : Step urgent s s') : Inv urgent s' := by
  cases hstep with
  | receive m hopen => exact h.receive m hopen
  | execute i r hactive hnot => exact h.execute hactive hnot
  | finish i r hactive hexecuted => exact h.finish hactive hexecuted
  | notice id hcurrent hmem hopen =>
    obtain ⟨hactive, hexecuted, hclosed⟩ := h.idle_of_closed fun id' hid => by
      rw [hcurrent] at hid
      exact Option.some.inj hid ▸ hmem
    exact Inv.turn (.idle hactive hexecuted hclosed fun id h => by cases h) h.ids h.sent h.urgent
      hopen
  | stop hcurrent hopen =>
    obtain ⟨hactive, hexecuted, hclosed⟩ := h.idle_of_closed hcurrent
    refine ⟨.idle hactive hexecuted ?_ fun id hid => ?_, h.ids, h.sent,
      (fun hopen => by cases hopen), h.urgent⟩
    · dsimp only [State.stop]
      rw [hclosed, hopen]
      exact List.range_succ.symm
    · have hmem := hcurrent id hid
      rw [hclosed, hopen] at hmem
      exact List.mem_range.mp hmem

theorem Reachable.inv (h : Reachable urgent s) : Inv urgent s := by
  induction h with
  | init => exact inv_init
  | step _ hstep ih => exact ih.step hstep

/-! ## What the senders rely on -/

/-- There is at most one run. -/
theorem Inv.length_active_le (h : Inv urgent s) : s.active.length ≤ 1 := by
  cases h.phase with
  | idle hactive =>
    rw [hactive]
    exact Nat.zero_le _
  | busy r hactive =>
    rw [hactive]
    exact Nat.le_refl _

/-- The messages that are not executed yet. -/
def State.unexecuted (s : State ι) : List ι :=
  s.waiting.flatMap Prod.snd ++ s.batch

/-- No message is lost, none is executed twice, and their order is kept. -/
theorem Inv.messages (h : Inv urgent s) :
    s.sent.map Prod.snd = s.executed.flatMap Prod.snd ++ s.unexecuted := by
  have htagged : ∀ batches : List (ℕ × List ι),
      (batches.flatMap tagged).map Prod.snd = batches.flatMap Prod.snd := by
    intro batches
    rw [List.map_flatMap]
    congr 1
    funext b
    rw [tagged, List.map_map]
    exact List.map_id _
  have hbatch : (tagged (s.next, s.batch)).map Prod.snd = s.batch := by
    rw [tagged, List.map_map]
    exact List.map_id _
  rw [h.sent, List.map_append, List.map_append, htagged, htagged, hbatch, List.append_assoc]
  rfl

/-- When the channel that a sender got is closed, the message has been executed. -/
theorem Inv.executed_of_closed (h : Inv urgent s) (hopen : s.stopped = false) {id : ℕ} {m : ι}
    (hsent : (id, m) ∈ s.sent) (hclosed : id ∈ s.closed) :
    ∃ b, (id, b) ∈ s.executed ∧ m ∈ b := by
  have hlt : id < s.next ∧ ∀ b, (id, b) ∉ s.waiting := by
    cases h.phase with
    | idle hactive hexecuted hrange =>
      rw [hrange, hopen] at hclosed
      refine ⟨List.mem_range.mp hclosed, fun b => ?_⟩
      rw [State.waiting, hactive]
      exact List.not_mem_nil
    | busy r hactive hnext hcurrent hopen hrange =>
      rw [hrange, List.mem_range] at hclosed
      refine ⟨hnext ▸ Nat.lt_succ_of_lt hclosed, fun b hb => ?_⟩
      obtain ⟨r', hr', heq⟩ := List.mem_map.mp hb
      rw [hactive] at hr'
      rw [List.mem_singleton.mp (List.mem_of_mem_filter hr')] at heq
      exact Nat.ne_of_gt hclosed (congrArg Prod.fst heq)
  rw [h.sent, List.mem_append, List.mem_append, List.mem_flatMap, List.mem_flatMap] at hsent
  rcases hsent with (⟨b, hb, hm⟩ | ⟨b, hb, hm⟩) | hm
  · obtain ⟨t, ht, heq⟩ := List.mem_map.mp hm
    cases heq
    exact ⟨b.2, hb, ht⟩
  · obtain ⟨t, ht, heq⟩ := List.mem_map.mp hm
    cases heq
    exact absurd hb (hlt.2 b.2)
  · obtain ⟨t, ht, heq⟩ := List.mem_map.mp hm
    cases heq
    exact absurd hlt.1 (Nat.lt_irrefl _)

/-- When the loop has noticed that the last run is over, no urgent message is left. -/
theorem Inv.not_urgent (h : Inv urgent s) (hopen : s.stopped = false)
    (hcurrent : s.current = none) :
    ∀ m ∈ s.batch, urgent m = false :=
  h.urgent (h.launch hopen hcurrent)

end

end Coalescing
