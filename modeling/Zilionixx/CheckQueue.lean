import Zilionixx.EventCheck
import Zilionixx.EventCodec
import Zilionixx.TaskLedger

/-!
# Events in the queue for checks

`parentlesscheck.Checker.Enqueue` answers what it can at once, and gives the rest to
`heavycheck.Checker`, which divides it into batches and sends these to its workers. Callers and
workers take their steps in any order; `Stop` is not called. Ints of the configuration that count
something are natural numbers.
-/

namespace Zilionixx

namespace CheckQueue

variable {ι τ : Type}

/-- What the checks answer on tasks `τ`: all that is not decided by the queue. -/
structure Environment (τ : Type) where
  external : External
  hashing : Hashing
  /-- `Event` -/
  event : τ → EventPayload
  /-- whether `OnlyInterested` returns the event -/
  interested : τ → Bool
  /-- `LightCheck`; `none` is `nil` -/
  lightCheck : τ → Option CheckError
  /-- what `GetEpochPubKeys` returns when the task is validated -/
  epochPubKeys : τ → (ValidatorID → Option PubKey) × UInt32

/-- `Validate` of the event of a task -/
def Environment.validate (E : Environment τ) (t : τ) : Checked Unit :=
  Heavycheck.validate E.external E.hashing (E.epochPubKeys t).1 (E.epochPubKeys t).2 (E.event t)

/-- `heavycheck.Config` -/
structure Config where
  maxQueuedBatches : ℕ
  maxBatch : ℕ
  threads : ℤ

/-- `New`: the number of threads -/
def Config.newThreads (config : Config) (numCPU : ℤ) : ℤ :=
  if config.threads = 0 then
    let threads := if numCPU > 1 then numCPU - 1 else numCPU
    if threads < 1 then 1 else threads
  else config.threads

/-- There is a thread, whatever is configured. -/
theorem Config.one_le_newThreads {config : Config} (h : 0 ≤ config.threads) (numCPU : ℤ) :
    1 ≤ config.newThreads numCPU := by
  rw [newThreads]
  dsimp only
  split_ifs
  all_goals omega

/-- `TasksData` -/
structure TasksData (ι τ : Type) where
  tasks : List τ
  /-- the call whose callback is called -/
  onValidated : ι

/-- Where a call of `parentlesscheck.Checker.Enqueue` is. -/
inductive Caller (τ : Type) where
  /-- in the loop of the light checks -/
  | checking (tasks passed : List τ)
  /-- there too, with a result set, and the callback to be called -/
  | refused (t : τ) (tasks passed : List τ)
  /-- in the loop of `heavycheck.Checker.Enqueue` -/
  | enqueueing (tasks : List τ) (start : ℕ)
  /-- `nil` was returned -/
  | returned

/-- Where a worker is. -/
inductive Worker (ι τ : Type) where
  /-- at the channel -/
  | waiting
  /-- in the loop over the tasks -/
  | validating (op : TasksData ι τ) (i : ℕ)

/-- The calls, the channel and the workers, and what the tasks and the callbacks have seen. -/
structure System (ι τ : Type) where
  callers : ι → Caller τ
  tasksQ : List (TasksData ι τ)
  workers : Multiset (Worker ι τ)
  /-- what was set by `SetResult`; `.ok ()` is `nil` -/
  results : τ → Option (Checked Unit)
  /-- the calls of the callback: the tasks, with their results at that time -/
  checked : ι → List (List (τ × Option (Checked Unit)))

/-- `tasks[start:end]` in `heavycheck.Checker.Enqueue` -/
def batch (maxBatch : ℕ) (tasks : List τ) (start : ℕ) : List τ :=
  let stop := if tasks.length > start + maxBatch then start + maxBatch else tasks.length
  (tasks.take stop).drop start

section Steps

variable [DecidableEq ι] [DecidableEq τ]

namespace System

/-- `SetResult` -/
def setResult (s : System ι τ) (t : τ) (result : Checked Unit) : System ι τ :=
  { s with results := Function.update s.results t (some result) }

/-- The caller goes on. -/
def setCaller (s : System ι τ) (c : ι) (caller : Caller τ) : System ι τ :=
  { s with callers := Function.update s.callers c caller }

/-- The callback of a call is called. -/
def callback (s : System ι τ) (c : ι) (tasks : List τ) : System ι τ :=
  { s with
    checked := Function.update s.checked c
      (s.checked c ++ [tasks.map fun t => (t, s.results t)]) }

end System

/-- A step of a caller or of a worker. A send succeeds when there is room in the channel, or when
it is empty and a worker waits. -/
inductive Step (E : Environment τ) (config : Config) : System ι τ → System ι τ → Prop where
  | notInterested {s : System ι τ} {c : ι} {t : τ} {tasks passed : List τ}
      (hcaller : s.callers c = .checking (t :: tasks) passed) (hfilter : E.interested t = false) :
      Step E config s
        ((s.setResult t (.error (.error .notRelevant))).setCaller c (.refused t tasks passed))
  | lightError {s : System ι τ} {c : ι} {t : τ} {tasks passed : List τ} {err : CheckError}
      (hcaller : s.callers c = .checking (t :: tasks) passed) (hfilter : E.interested t = true)
      (hcheck : E.lightCheck t = some err) :
      Step E config s ((s.setResult t (.error (.error err))).setCaller c (.refused t tasks passed))
  | refuse {s : System ι τ} {c : ι} {t : τ} {tasks passed : List τ}
      (hcaller : s.callers c = .refused t tasks passed) :
      Step E config s ((s.callback c [t]).setCaller c (.checking tasks passed))
  | pass {s : System ι τ} {c : ι} {t : τ} {tasks passed : List τ}
      (hcaller : s.callers c = .checking (t :: tasks) passed) (hfilter : E.interested t = true)
      (hcheck : E.lightCheck t = none) :
      Step E config s (s.setCaller c (.checking tasks (passed ++ [t])))
  | enqueue {s : System ι τ} {c : ι} {passed : List τ}
      (hcaller : s.callers c = .checking [] passed) :
      Step E config s (s.setCaller c (.enqueueing passed 0))
  | send {s : System ι τ} {c : ι} {tasks : List τ} {start : ℕ} {op : TasksData ι τ}
      (hcaller : s.callers c = .enqueueing tasks start) (hstart : start < tasks.length)
      (hop : op = ⟨batch config.maxBatch tasks start, c⟩)
      (hroom : s.tasksQ.length < config.maxQueuedBatches) :
      Step E config s
        ({ s with tasksQ := s.tasksQ ++ [op] }.setCaller c
          (.enqueueing tasks (start + config.maxBatch)))
  | handOver {s : System ι τ} {c : ι} {tasks : List τ} {start : ℕ} {op : TasksData ι τ} {workers}
      (hcaller : s.callers c = .enqueueing tasks start) (hstart : start < tasks.length)
      (hop : op = ⟨batch config.maxBatch tasks start, c⟩)
      (hempty : s.tasksQ = []) (hworker : s.workers = .waiting ::ₘ workers) :
      Step E config s
        ({ s with workers := .validating op 0 ::ₘ workers }.setCaller c
          (.enqueueing tasks (start + config.maxBatch)))
  | enqueued {s : System ι τ} {c : ι} {tasks : List τ} {start : ℕ}
      (hcaller : s.callers c = .enqueueing tasks start) (hstart : tasks.length ≤ start) :
      Step E config s (s.setCaller c .returned)
  | receive {s : System ι τ} {op : TasksData ι τ} {tasksQ} {workers}
      (hworker : s.workers = .waiting ::ₘ workers) (hqueue : s.tasksQ = op :: tasksQ) :
      Step E config s { s with tasksQ, workers := .validating op 0 ::ₘ workers }
  | validate {s : System ι τ} {op : TasksData ι τ} {i : ℕ} {t : τ} {workers}
      (hworker : s.workers = .validating op i ::ₘ workers) (htask : op.tasks[i]? = some t) :
      Step E config s
        ({ s with workers := .validating op (i + 1) ::ₘ workers }.setResult t (E.validate t))
  | onValidated {s : System ι τ} {op : TasksData ι τ} {workers}
      (hworker : s.workers = .validating op op.tasks.length ::ₘ workers) :
      Step E config s ({ s with workers := .waiting ::ₘ workers }.callback op.onValidated op.tasks)

end Steps

/-! ## What the tasks are to get -/

/-- The result a task is to have. -/
def Environment.verdict (E : Environment τ) (t : τ) : Checked Unit :=
  if E.interested t = false then .error (.error .notRelevant)
  else
    match E.lightCheck t with
    | some err => .error (.error err)
    | none => E.validate t

/-- The task passes the light checks. -/
def Environment.Passes (E : Environment τ) (t : τ) : Prop :=
  E.interested t = true ∧ E.lightCheck t = none

section

variable {E : Environment τ} {t : τ}

theorem Environment.verdict_of_not_interested (h : E.interested t = false) :
    E.verdict t = .error (.error .notRelevant) := if_pos h

theorem Environment.verdict_of_lightCheck {err : CheckError} (hfilter : E.interested t = true)
    (h : E.lightCheck t = some err) : E.verdict t = .error (.error err) := by
  rw [verdict, hfilter, if_neg Bool.true_eq_false_eq_False, h]

theorem Environment.Passes.verdict_eq (h : E.Passes t) : E.verdict t = E.validate t := by
  rw [verdict, h.1, if_neg Bool.true_eq_false_eq_False, h.2]

end

/-- A batch is the next tasks, as many as fit. -/
theorem batch_eq (maxBatch : ℕ) (tasks : List τ) (start : ℕ) :
    batch maxBatch tasks start = (tasks.drop start).take maxBatch := by
  rw [batch]
  split
  · exact List.take_drop.symm
  · rename_i hlast
    rw [List.take_length, List.take_of_length_le]
    rw [List.length_drop]
    omega

/-- A batch, and what comes after it. -/
theorem batch_append_drop (maxBatch : ℕ) (tasks : List τ) (start : ℕ) :
    batch maxBatch tasks start ++ tasks.drop (start + maxBatch) = tasks.drop start := by
  rw [batch_eq, ← List.drop_drop, List.take_append_drop]

theorem mem_of_mem_batch {maxBatch : ℕ} {tasks : List τ} {start : ℕ} {t : τ}
    (h : t ∈ batch maxBatch tasks start) : t ∈ tasks := by
  rw [batch_eq] at h
  exact List.mem_of_mem_drop (List.mem_of_mem_take h)

/-! ## Results are set before the callback -/

/-- The result of a task is set, and is the one it is to have. -/
def Decided (E : Environment τ) (results : τ → Option (Checked Unit)) (t : τ) : Prop :=
  results t = some (E.verdict t)

/-- A caller has put aside only what passes, and calls back only what is decided. -/
def Caller.Sound (E : Environment τ) (results : τ → Option (Checked Unit)) : Caller τ → Prop
  | .checking _ passed => ∀ t ∈ passed, E.Passes t
  | .refused t _ passed => Decided E results t ∧ ∀ t ∈ passed, E.Passes t
  | .enqueueing tasks _ => ∀ t ∈ tasks, E.Passes t
  | .returned => True

/-- A worker has decided the tasks it has gone through. -/
def Worker.Sound (E : Environment τ) (results : τ → Option (Checked Unit)) : Worker ι τ → Prop
  | .waiting => True
  | .validating op i =>
    (∀ t ∈ op.tasks, E.Passes t) ∧ i ≤ op.tasks.length ∧ ∀ t ∈ op.tasks.take i, Decided E results t

/-- Only tasks that pass the light checks are queued, and callbacks wait for results. -/
structure System.Consistent (E : Environment τ) (s : System ι τ) : Prop where
  callers : ∀ c, (s.callers c).Sound E s.results
  tasksQ : ∀ op ∈ s.tasksQ, ∀ t ∈ op.tasks, E.Passes t
  workers : ∀ w ∈ s.workers, w.Sound E s.results

section

variable {E : Environment τ} {results results' : τ → Option (Checked Unit)}

theorem Caller.Sound.mono (h : ∀ t, Decided E results t → Decided E results' t) {caller : Caller τ}
    (hcaller : caller.Sound E results) : caller.Sound E results' := by
  cases caller with
  | checking tasks passed => exact hcaller
  | refused t tasks passed => exact ⟨h t hcaller.1, hcaller.2⟩
  | enqueueing tasks start => exact hcaller
  | returned => trivial

theorem Worker.Sound.mono (h : ∀ t, Decided E results t → Decided E results' t) {w : Worker ι τ}
    (hw : w.Sound E results) : w.Sound E results' := by
  cases w with
  | waiting => trivial
  | validating op i => exact ⟨hw.1, hw.2.1, fun t ht => h t (hw.2.2 t ht)⟩

end

namespace System

variable {E : Environment τ} {s : System ι τ}

section

variable [DecidableEq ι]

@[simp] theorem callers_setCaller_self (s : System ι τ) (c : ι) (caller : Caller τ) :
    (s.setCaller c caller).callers c = caller :=
  Function.update_self c _ _

theorem callers_setCaller_of_ne (s : System ι τ) {c c' : ι} (h : c' ≠ c) (caller : Caller τ) :
    (s.setCaller c caller).callers c' = s.callers c' :=
  Function.update_of_ne h _ _

theorem Consistent.setCaller (h : s.Consistent E) (c : ι) {caller : Caller τ}
    (hcaller : caller.Sound E s.results) : (s.setCaller c caller).Consistent E := by
  refine ⟨?_, h.tasksQ, h.workers⟩
  intro c'
  by_cases heq : c' = c
  · rw [heq, callers_setCaller_self]
    exact hcaller
  · rw [callers_setCaller_of_ne s heq]
    exact h.callers c'

theorem Consistent.callback (h : s.Consistent E) (c : ι) (tasks : List τ) :
    (s.callback c tasks).Consistent E :=
  ⟨h.callers, h.tasksQ, h.workers⟩

end

theorem Consistent.caller (h : s.Consistent E) {c : ι} {caller : Caller τ}
    (hcaller : s.callers c = caller) : caller.Sound E s.results := by
  rw [← hcaller]
  exact h.callers c

theorem decided_setResult [DecidableEq τ] (s : System ι τ) (t : τ) :
    Decided E (s.setResult t (E.verdict t)).results t :=
  Function.update_self t _ _

/-- A verdict is written to its task. -/
theorem Consistent.setResult [DecidableEq τ] (h : s.Consistent E) (t : τ) :
    (s.setResult t (E.verdict t)).Consistent E := by
  have hmono : ∀ t', Decided E s.results t' →
      Decided E (s.setResult t (E.verdict t)).results t' := by
    intro t' ht'
    by_cases heq : t' = t
    · rw [heq]
      exact decided_setResult s t
    · exact (Function.update_of_ne heq _ _).trans ht'
  exact ⟨fun c => (h.callers c).mono hmono, h.tasksQ, fun w hw => (h.workers w hw).mono hmono⟩

/-- One worker changes. -/
theorem Consistent.setWorker (h : s.Consistent E) {w w' : Worker ι τ}
    {workers : Multiset (Worker ι τ)} (hworkers : s.workers = w ::ₘ workers)
    (hw : w'.Sound E s.results) : { s with workers := w' ::ₘ workers }.Consistent E := by
  refine ⟨h.callers, h.tasksQ, ?_⟩
  intro w'' hmem
  rcases Multiset.mem_cons.mp hmem with rfl | hmem
  · exact hw
  · exact h.workers w'' (hworkers ▸ Multiset.mem_cons_of_mem hmem)

end System

section

variable [DecidableEq ι] [DecidableEq τ] {E : Environment τ} {config : Config} {s s' : System ι τ}

/-- One step. -/
theorem Step.consistent (hstep : Step E config s s') (h : s.Consistent E) : s'.Consistent E := by
  cases hstep with
  | @notInterested c t tasks passed hcaller hfilter =>
    have hpassed := h.caller hcaller
    rw [← E.verdict_of_not_interested hfilter]
    exact (h.setResult t).setCaller c ⟨s.decided_setResult t, hpassed⟩
  | @lightError c t tasks passed err hcaller hfilter hcheck =>
    have hpassed := h.caller hcaller
    rw [← E.verdict_of_lightCheck hfilter hcheck]
    exact (h.setResult t).setCaller c ⟨s.decided_setResult t, hpassed⟩
  | @refuse c t tasks passed hcaller =>
    have hpassed := h.caller hcaller
    exact (h.callback c [t]).setCaller c hpassed.2
  | @pass c t tasks passed hcaller hfilter hcheck =>
    have hpassed := h.caller hcaller
    refine h.setCaller c ?_
    intro t' ht'
    rcases List.mem_append.mp ht' with ht' | ht'
    · exact hpassed t' ht'
    · rw [List.mem_singleton.mp ht']
      exact ⟨hfilter, hcheck⟩
  | @enqueue c passed hcaller =>
    have hpassed := h.caller hcaller
    exact h.setCaller c hpassed
  | @send c tasks start op hcaller hstart hop hroom =>
    have hpassed := h.caller hcaller
    have hqueue : { s with tasksQ := s.tasksQ ++ [op] }.Consistent E := by
      refine ⟨h.callers, ?_, h.workers⟩
      intro op' hop'
      rcases List.mem_append.mp hop' with hop' | hop'
      · exact h.tasksQ op' hop'
      · rw [List.mem_singleton.mp hop', hop]
        exact fun t ht => hpassed t (mem_of_mem_batch ht)
    exact hqueue.setCaller c hpassed
  | @handOver c tasks start op workers hcaller hstart hop hempty hworker =>
    have hpassed := h.caller hcaller
    have hop : (Worker.validating op 0).Sound E s.results := by
      rw [hop]
      exact ⟨fun t ht => hpassed t (mem_of_mem_batch ht), Nat.zero_le _, fun t ht => by cases ht⟩
    exact (h.setWorker hworker hop).setCaller c hpassed
  | @enqueued c tasks start hcaller hstart => exact h.setCaller c trivial
  | @receive op tasksQ workers hworker hqueue =>
    have hop : (Worker.validating op 0).Sound E s.results :=
      ⟨h.tasksQ op (hqueue ▸ List.mem_cons_self), Nat.zero_le _, fun t ht => by cases ht⟩
    have hconsistent := h.setWorker hworker hop
    refine ⟨hconsistent.callers, ?_, hconsistent.workers⟩
    exact fun op' hop' => h.tasksQ op' (hqueue ▸ List.mem_cons_of_mem op hop')
  | @validate op i t workers hworker htask =>
    obtain ⟨hpasses, -, hdecided⟩ :=
      (h.setResult t).workers _ (hworker ▸ Multiset.mem_cons_self _ workers)
    obtain ⟨hlt, hget⟩ := List.getElem?_eq_some_iff.mp htask
    rw [← (hpasses t (List.mem_of_getElem? htask)).verdict_eq]
    refine (h.setResult t).setWorker hworker ⟨hpasses, hlt, ?_⟩
    intro t' ht'
    rw [List.take_add_one, htask, Option.toList_some] at ht'
    rcases List.mem_append.mp ht' with ht' | ht'
    · exact hdecided t' ht'
    · rw [List.mem_singleton.mp ht']
      exact s.decided_setResult t
  | @onValidated op workers hworker =>
    have hwaiting : (Worker.waiting : Worker ι τ).Sound E s.results := trivial
    exact (h.setWorker hworker hwaiting).callback op.onValidated op.tasks

end

/-! ## The ledger of the queue -/

/-- The tasks a caller has. -/
def Caller.pending : Caller τ → Multiset τ
  | .checking tasks passed => ↑(tasks ++ passed)
  | .refused t tasks passed => ↑(t :: (tasks ++ passed))
  | .enqueueing tasks start => ↑(tasks.drop start)
  | .returned => 0

section

variable [DecidableEq ι]

/-- The tasks of a call that are in a batch. -/
def TasksData.pending (c : ι) (op : TasksData ι τ) : Multiset τ :=
  if op.onValidated = c then ↑op.tasks else 0

/-- The tasks of a call that a worker has. -/
def Worker.pending (c : ι) : Worker ι τ → Multiset τ
  | .waiting => 0
  | .validating op _ => op.pending c

namespace System

/-- The tasks of a call that have not been given to the callback. -/
def pending (s : System ι τ) (c : ι) : Multiset τ :=
  (s.callers c).pending + ((s.tasksQ.map (TasksData.pending c)).sum +
    (s.workers.map (Worker.pending c)).sum)

/-- The tasks that were given to the callback, with their results. -/
def answers (s : System ι τ) (c : ι) : Multiset (τ × Option (Checked Unit)) :=
  ↑(s.checked c).flatten

/-- What can be seen of the queue. -/
def ledger (s : System ι τ) : TaskLedger ι τ (Option (Checked Unit)) where
  pending := s.pending
  answered := s.answers

theorem pending_ledger (s : System ι τ) (c : ι) : s.ledger.pending c = s.pending c := rfl

theorem answered_ledger (s : System ι τ) (c : ι) :
    s.ledger.answered c = ↑(s.checked c).flatten := rfl

@[simp] theorem checked_callback_self (s : System ι τ) (c : ι) (tasks : List τ) :
    (s.callback c tasks).checked c = s.checked c ++ [tasks.map fun t => (t, s.results t)] :=
  Function.update_self c _ _

theorem checked_callback_of_ne (s : System ι τ) {c c' : ι} (h : c' ≠ c) (tasks : List τ) :
    (s.callback c tasks).checked c' = s.checked c' :=
  Function.update_of_ne h _ _

end System

theorem TasksData.pending_self {op : TasksData ι τ} {c : ι} (h : op.onValidated = c) :
    op.pending c = ↑op.tasks :=
  if_pos h

theorem TasksData.pending_of_ne {op : TasksData ι τ} {c : ι} (h : op.onValidated ≠ c) :
    op.pending c = 0 :=
  if_neg h

namespace System

variable {s : System ι τ} {c : ι} {caller caller' : Caller τ} {workers : Multiset (Worker ι τ)}

/-- Tasks leave the caller. -/
theorem pending_eq_add_setCaller (op : TasksData ι τ) (hop : op.onValidated = c)
    (hcaller : s.callers c = caller) (h : caller.pending = ↑op.tasks + caller'.pending) (c' : ι) :
    s.pending c' = op.pending c' + (s.setCaller c caller').pending c' := by
  rw [pending, pending]
  by_cases heq : c' = c
  · rw [heq, callers_setCaller_self, hcaller, h, TasksData.pending_self hop, add_assoc]
    rfl
  · rw [callers_setCaller_of_ne s heq, TasksData.pending_of_ne (hop ▸ Ne.symm heq), zero_add]
    rfl

/-- The caller goes on with the same tasks. -/
theorem pending_setCaller (hcaller : s.callers c = caller) (h : caller.pending = caller'.pending) :
    (s.setCaller c caller').pending = s.pending := by
  funext c'
  rw [pending, pending]
  by_cases heq : c' = c
  · rw [heq, callers_setCaller_self, hcaller, h]
    rfl
  · rw [callers_setCaller_of_ne s heq]
    rfl

/-- A batch comes into the channel. -/
theorem pending_send (s : System ι τ) (op : TasksData ι τ) (c' : ι) :
    { s with tasksQ := s.tasksQ ++ [op] }.pending c' = op.pending c' + s.pending c' := by
  rw [pending, pending, List.map_append, List.sum_append, List.map_singleton, List.sum_singleton]
  abel

/-- A batch is taken from the channel. -/
theorem pending_receive {op : TasksData ι τ} {tasksQ : List (TasksData ι τ)}
    (hqueue : s.tasksQ = op :: tasksQ) (c' : ι) :
    s.pending c' = op.pending c' + { s with tasksQ := tasksQ }.pending c' := by
  rw [pending, pending, hqueue, List.map_cons, List.sum_cons]
  abel

/-- A worker goes on. -/
theorem pending_setWorker {w : Worker ι τ} (hworkers : s.workers = w ::ₘ workers) (w' : Worker ι τ)
    (c' : ι) :
    w.pending c' + { s with workers := w' ::ₘ workers }.pending c' =
      w'.pending c' + s.pending c' := by
  rw [pending, pending, hworkers, Multiset.map_cons, Multiset.sum_cons, Multiset.map_cons,
    Multiset.sum_cons]
  abel

/-- A worker that waits gets a batch. -/
theorem pending_work (hworkers : s.workers = .waiting ::ₘ workers) (op : TasksData ι τ) (c' : ι) :
    { s with workers := .validating op 0 ::ₘ workers }.pending c' =
      op.pending c' + s.pending c' := by
  rw [← zero_add (pending _ c')]
  exact pending_setWorker hworkers (.validating op 0) c'

/-- The tasks, as they are in the ledger, when they are decided. -/
theorem map_entry {E : Environment τ} {tasks : List τ} {results : τ → Option (Checked Unit)}
    (h : ∀ t ∈ tasks, Decided E results t) :
    (tasks.map fun t => (t, results t)) =
      tasks.map (TaskLedger.entry fun t => some (E.verdict t)) := by
  apply List.map_congr_left
  intro t ht
  rw [h t ht]
  rfl

theorem sum_pending_waiting {c : ι} (h : ∀ w ∈ workers, w = .waiting) :
    (workers.map (Worker.pending c)).sum = 0 := by
  apply Multiset.sum_eq_zero
  intro tasks htasks
  obtain ⟨w, hw, rfl⟩ := Multiset.mem_map.mp htasks
  rw [h w hw]
  rfl

/-- Decided tasks are given to the callback. -/
theorem ledger_callback {E : Environment τ} {s' : System ι τ} (op : TasksData ι τ)
    (hpending : ∀ c, s.pending c = op.pending c + s'.pending c)
    (hchecked : s'.checked = (s.callback op.onValidated op.tasks).checked)
    (hdecided : ∀ t ∈ op.tasks, Decided E s.results t) :
    TaskLedger.Step (fun t => some (E.verdict t)) s.ledger s'.ledger := by
  intro c
  refine ⟨op.pending c, hpending c, ?_⟩
  rw [answered_ledger, answered_ledger, hchecked]
  by_cases heq : op.onValidated = c
  · rw [← heq, checked_callback_self, TasksData.pending_self rfl, List.flatten_append,
      List.flatten_singleton, map_entry hdecided, Multiset.map_coe, Multiset.coe_add]
  · rw [checked_callback_of_ne s (Ne.symm heq), TasksData.pending_of_ne heq, Multiset.map_zero,
      add_zero]

end System

end

/-- A batch leaves the caller. -/
theorem pending_enqueueing (maxBatch : ℕ) (tasks : List τ) (start : ℕ) :
    (Caller.enqueueing tasks start).pending =
      ↑(batch maxBatch tasks start) + (Caller.enqueueing tasks (start + maxBatch)).pending := by
  rw [Caller.pending, Caller.pending, ← batch_append_drop maxBatch tasks start, Multiset.coe_add]

section

variable [DecidableEq ι] [DecidableEq τ] {E : Environment τ} {config : Config} {s s' : System ι τ}

/-- **The queue does what the ledger says**: in one step tasks are given to the callback with the
results they are to have, or nothing is seen. -/
theorem Step.ledger (hstep : Step E config s s') (h : s.Consistent E) :
    TaskLedger.Step (fun t => some (E.verdict t)) s.ledger s'.ledger := by
  cases hstep with
  | @notInterested c t tasks passed hcaller hfilter =>
    exact .of_eq (System.pending_setCaller hcaller rfl) rfl
  | @lightError c t tasks passed err hcaller hfilter hcheck =>
    exact .of_eq (System.pending_setCaller hcaller rfl) rfl
  | @refuse c t tasks passed hcaller =>
    refine System.ledger_callback ⟨[t], c⟩ ?_ rfl ?_
    · exact System.pending_eq_add_setCaller ⟨[t], c⟩ rfl hcaller rfl
    · intro t' ht'
      rw [List.mem_singleton.mp ht']
      exact (h.caller hcaller).1
  | @pass c t tasks passed hcaller hfilter hcheck =>
    refine .of_eq (System.pending_setCaller hcaller ?_) rfl
    rw [Caller.pending, Caller.pending, Multiset.coe_eq_coe, ← List.append_assoc]
    exact (List.perm_append_singleton t (tasks ++ passed)).symm
  | @enqueue c passed hcaller => exact .of_eq (System.pending_setCaller hcaller rfl) rfl
  | @send c tasks start op hcaller hstart hop hroom =>
    subst hop
    refine .of_eq (funext fun c' => ?_) rfl
    have hleaves := System.pending_eq_add_setCaller ⟨batch config.maxBatch tasks start, c⟩ rfl
      hcaller (pending_enqueueing config.maxBatch tasks start) c'
    exact (System.pending_send _ _ c').trans hleaves.symm
  | @handOver c tasks start op workers hcaller hstart hop hempty hworker =>
    subst hop
    refine .of_eq (funext fun c' => ?_) rfl
    have hleaves := System.pending_eq_add_setCaller ⟨batch config.maxBatch tasks start, c⟩ rfl
      hcaller (pending_enqueueing config.maxBatch tasks start) c'
    have hwork := System.pending_work
      (s := s.setCaller c (.enqueueing tasks (start + config.maxBatch))) hworker
      ⟨batch config.maxBatch tasks start, c⟩ c'
    exact hwork.trans hleaves.symm
  | @enqueued c tasks start hcaller hstart =>
    refine .of_eq (System.pending_setCaller hcaller ?_) rfl
    rw [Caller.pending, List.drop_eq_nil_of_le hstart]
    rfl
  | @receive op tasksQ workers hworker hqueue =>
    refine .of_eq (funext fun c' => ?_) rfl
    have hwork := System.pending_work (s := { s with tasksQ := tasksQ }) hworker op c'
    exact hwork.trans (System.pending_receive hqueue c').symm
  | @validate op i t workers hworker htask =>
    refine .of_eq (funext fun c' => ?_) rfl
    exact add_left_cancel (System.pending_setWorker hworker (.validating op (i + 1)) c')
  | @onValidated op workers hworker =>
    refine System.ledger_callback op ?_ rfl ?_
    · intro c'
      have hleaves := System.pending_setWorker hworker .waiting c'
      exact (zero_add _).symm.trans hleaves.symm
    · obtain ⟨-, -, hdecided⟩ := h.workers _ (hworker ▸ Multiset.mem_cons_self _ workers)
      rw [List.take_length] at hdecided
      exact hdecided

end

/-! ## Progress -/

/-- Nothing is left to do. -/
structure System.Finished (s : System ι τ) : Prop where
  callers : ∀ c, s.callers c = .returned
  tasksQ : s.tasksQ = []
  workers : ∀ w ∈ s.workers, w = .waiting

/-- Nothing is pending in the end. -/
theorem System.Finished.pending_eq_zero [DecidableEq ι] {s : System ι τ} (h : s.Finished)
    (c : ι) : s.pending c = 0 := by
  rw [System.pending, h.callers c, h.tasksQ, List.map_nil, List.sum_nil,
    System.sum_pending_waiting h.workers, Caller.pending, add_zero, add_zero]

/-- The steps a caller and its tasks may still take, at most. -/
def Caller.work : Caller τ → ℕ
  | .checking tasks passed => 6 * tasks.length + 4 * passed.length + 2
  | .refused _ tasks passed => 6 * tasks.length + 4 * passed.length + 3
  | .enqueueing tasks start => 4 * (tasks.length - start) + 1
  | .returned => 0

/-- The steps for a batch in the channel. -/
def TasksData.work (op : TasksData ι τ) : ℕ := op.tasks.length + 2

/-- The steps a worker may still take for its batch. -/
def Worker.work : Worker ι τ → ℕ
  | .waiting => 0
  | .validating op i => op.tasks.length - i + 1

/-- The steps of the callers, the batches in the channel and the workers. -/
def System.work [Fintype ι] (s : System ι τ) : ℕ :=
  ∑ c, (s.callers c).work + ((s.tasksQ.map TasksData.work).sum + (s.workers.map Worker.work).sum)

section

variable [Fintype ι] {s : System ι τ}

/-- A worker goes on. -/
theorem System.work_setWorker {w : Worker ι τ} {workers : Multiset (Worker ι τ)}
    (hworkers : s.workers = w ::ₘ workers) (w' : Worker ι τ) :
    { s with workers := w' ::ₘ workers }.work + w.work = s.work + w'.work := by
  rw [System.work, System.work, hworkers, Multiset.map_cons, Multiset.sum_cons, Multiset.map_cons,
    Multiset.sum_cons]
  dsimp only
  omega

theorem System.work_send (s : System ι τ) (op : TasksData ι τ) :
    { s with tasksQ := s.tasksQ ++ [op] }.work = s.work + op.work := by
  rw [System.work, System.work, List.map_append, List.sum_append, List.map_singleton,
    List.sum_singleton]
  dsimp only
  omega

theorem System.work_receive {op : TasksData ι τ} {tasksQ : List (TasksData ι τ)}
    (hqueue : s.tasksQ = op :: tasksQ) :
    { s with tasksQ := tasksQ }.work + op.work = s.work := by
  rw [System.work, System.work, hqueue, List.map_cons, List.sum_cons]
  dsimp only
  omega

/-- A caller goes on. -/
theorem System.work_setCaller [DecidableEq ι] {c : ι} {caller : Caller τ}
    (hcaller : s.callers c = caller)
    (caller' : Caller τ) : (s.setCaller c caller').work + caller.work = s.work + caller'.work := by
  have hothers : ∑ c' ∈ Finset.univ.erase c, ((s.setCaller c caller').callers c').work =
      ∑ c' ∈ Finset.univ.erase c, (s.callers c').work := by
    refine Finset.sum_congr rfl ?_
    intro c' hc'
    rw [System.callers_setCaller_of_ne s (Finset.ne_of_mem_erase hc')]
  have hsum : ∀ s : System ι τ, ∑ c', (s.callers c').work =
      (s.callers c).work + ∑ c' ∈ Finset.univ.erase c, (s.callers c').work := by
    intro s
    exact (Finset.add_sum_erase _ _ (Finset.mem_univ c)).symm
  rw [System.work, System.work, hsum, hsum s, hothers, System.callers_setCaller_self, hcaller]
  dsimp only [System.setCaller]
  omega

/-- A caller that goes on has less work. -/
theorem System.work_setCaller_lt [DecidableEq ι] {c : ι} {caller caller' : Caller τ}
    (hcaller : s.callers c = caller) (h : caller'.work < caller.work) :
    (s.setCaller c caller').work < s.work := by
  have hwork := System.work_setCaller hcaller caller'
  omega

end

/-- A batch is not empty. -/
theorem length_batch {maxBatch : ℕ} {tasks : List τ} {start : ℕ} (hbatch : 1 ≤ maxBatch)
    (hstart : start < tasks.length) :
    1 ≤ (batch maxBatch tasks start).length ∧
      (batch maxBatch tasks start).length + (tasks.length - (start + maxBatch)) =
        tasks.length - start := by
  rw [batch_eq, List.length_take, List.length_drop]
  omega

/-- A batch that is sent or handed over takes fewer steps than before. -/
theorem work_batch_lt (c : ι) {maxBatch : ℕ} {tasks : List τ} {start : ℕ} (hbatch : 1 ≤ maxBatch)
    (hstart : start < tasks.length) :
    (⟨batch maxBatch tasks start, c⟩ : TasksData ι τ).work +
      (Caller.enqueueing tasks (start + maxBatch)).work < (Caller.enqueueing tasks start).work := by
  obtain ⟨hone, hsum⟩ := length_batch hbatch hstart
  rw [TasksData.work, Caller.work, Caller.work]
  dsimp only
  omega

section

variable [DecidableEq ι] [Fintype ι] [DecidableEq τ] {E : Environment τ} {config : Config}
  {s s' : System ι τ}

/-- Every step is one of finitely many, if batches are not empty. -/
theorem Step.work_lt (hbatch : 1 ≤ config.maxBatch) (hstep : Step E config s s') :
    s'.work < s.work := by
  cases hstep with
  | @notInterested c t tasks passed hcaller hfilter =>
    refine System.work_setCaller_lt (s := s.setResult t _) hcaller ?_
    rw [Caller.work, Caller.work, List.length_cons]
    omega
  | @lightError c t tasks passed err hcaller hfilter hcheck =>
    refine System.work_setCaller_lt (s := s.setResult t _) hcaller ?_
    rw [Caller.work, Caller.work, List.length_cons]
    omega
  | @refuse c t tasks passed hcaller =>
    refine System.work_setCaller_lt (s := s.callback c [t]) hcaller ?_
    rw [Caller.work, Caller.work]
    omega
  | @pass c t tasks passed hcaller hfilter hcheck =>
    refine System.work_setCaller_lt hcaller ?_
    rw [Caller.work, Caller.work, List.length_cons, List.length_append, List.length_singleton]
    omega
  | @enqueue c passed hcaller =>
    refine System.work_setCaller_lt hcaller ?_
    rw [Caller.work, Caller.work]
    omega
  | @send c tasks start op hcaller hstart hop hroom =>
    have hlt := work_batch_lt c hbatch hstart
    have hcaller' := System.work_setCaller hcaller (.enqueueing tasks (start + config.maxBatch))
    have hsend := System.work_send
      (s.setCaller c (.enqueueing tasks (start + config.maxBatch))) op
    rw [← hop] at hlt
    exact lt_of_eq_of_lt hsend (by omega)
  | @handOver c tasks start op workers hcaller hstart hop hempty hworker =>
    have hlt := work_batch_lt c hbatch hstart
    have hcaller' := System.work_setCaller hcaller (.enqueueing tasks (start + config.maxBatch))
    have hwork := System.work_setWorker
      (s := s.setCaller c (.enqueueing tasks (start + config.maxBatch))) hworker
      (.validating op 0)
    rw [← hop, TasksData.work] at hlt
    rw [Worker.work, Worker.work, Nat.sub_zero, Nat.add_zero] at hwork
    exact lt_of_eq_of_lt hwork (by omega)
  | @enqueued c tasks start hcaller hstart =>
    refine System.work_setCaller_lt hcaller ?_
    rw [Caller.work, Caller.work]
    omega
  | @receive op tasksQ workers hworker hqueue =>
    have hreceive := System.work_receive hqueue
    have hwork := System.work_setWorker (s := { s with tasksQ := tasksQ }) hworker
      (.validating op 0)
    rw [TasksData.work] at hreceive
    rw [Worker.work, Worker.work, Nat.sub_zero, Nat.add_zero] at hwork
    exact lt_of_eq_of_lt hwork (by omega)
  | @validate op i t workers hworker htask =>
    obtain ⟨hlt, -⟩ := List.getElem?_eq_some_iff.mp htask
    have hwork := System.work_setWorker hworker (.validating op (i + 1))
    rw [Worker.work, Worker.work] at hwork
    refine Nat.lt_of_add_lt_add_right (n := op.tasks.length - i + 1) ?_
    exact lt_of_eq_of_lt hwork (by omega)
  | @onValidated op workers hworker =>
    have hwork := System.work_setWorker hworker .waiting
    rw [Worker.work, Worker.work, Nat.sub_self, Nat.add_zero] at hwork
    exact Nat.lt_of_lt_of_eq (Nat.lt_succ_self _) hwork

end

section

variable [DecidableEq ι] [DecidableEq τ] {E : Environment τ} {config : Config} {s s' : System ι τ}

/-- A caller goes on, if there is a worker that waits and the channel is empty. -/
theorem exists_callerStep (E : Environment τ) (config : Config) {workers : Multiset (Worker ι τ)}
    (hworker : s.workers = .waiting ::ₘ workers) (hempty : s.tasksQ = []) {c : ι}
    (hcaller : s.callers c ≠ .returned) : ∃ s', Step E config s s' := by
  cases hc : s.callers c with
  | checking tasks passed =>
    cases tasks with
    | nil => exact ⟨_, .enqueue hc⟩
    | cons t tasks =>
      cases hfilter : E.interested t with
      | false => exact ⟨_, .notInterested hc hfilter⟩
      | true =>
        cases hcheck : E.lightCheck t with
        | none => exact ⟨_, .pass hc hfilter hcheck⟩
        | some err => exact ⟨_, .lightError hc hfilter hcheck⟩
  | refused t tasks passed => exact ⟨_, .refuse hc⟩
  | enqueueing tasks start =>
    by_cases hstart : start < tasks.length
    · exact ⟨_, .handOver hc hstart rfl hempty hworker⟩
    · exact ⟨_, .enqueued hc (Nat.not_lt.mp hstart)⟩
  | returned => exact absurd hc hcaller

/-- There is no deadlock. -/
theorem exists_step (config : Config) (h : s.Consistent E) (hworkers : 0 < s.workers.card)
    (hnot : ¬s.Finished) :
    ∃ s', Step E config s s' := by
  by_cases hbusy : ∃ op i, Worker.validating op i ∈ s.workers
  · obtain ⟨op, i, hmem⟩ := hbusy
    obtain ⟨workers, hworker⟩ := Multiset.exists_cons_of_mem hmem
    obtain ⟨-, hle, -⟩ := h.workers _ hmem
    rcases Nat.lt_or_eq_of_le hle with hlt | rfl
    · exact ⟨_, .validate hworker (List.getElem?_eq_getElem hlt)⟩
    · exact ⟨_, .onValidated hworker⟩
  · have hwaiting : ∀ w ∈ s.workers, w = .waiting := by
      intro w hw
      cases w with
      | waiting => rfl
      | validating op i => exact absurd ⟨op, i, hw⟩ hbusy
    obtain ⟨w, hw⟩ := Multiset.card_pos_iff_exists_mem.mp hworkers
    obtain ⟨workers, hworker⟩ := Multiset.exists_cons_of_mem hw
    rw [hwaiting w hw] at hworker
    cases hqueue : s.tasksQ with
    | cons op tasksQ => exact ⟨_, .receive hworker hqueue⟩
    | nil =>
      have hcaller : ∃ c, s.callers c ≠ .returned := by
        by_contra hall
        exact hnot ⟨fun c => not_not.mp (not_exists.mp hall c), hqueue, hwaiting⟩
      obtain ⟨c, hcaller⟩ := hcaller
      exact exists_callerStep E config hworker hqueue hcaller

/-- No worker ends. -/
theorem Step.card_workers (hstep : Step E config s s') : s'.workers.card = s.workers.card := by
  cases hstep with
  | handOver _ _ _ _ hworker => rw [hworker]; simp [System.setCaller]
  | receive hworker _ => rw [hworker]; simp
  | validate hworker _ => rw [hworker]; simp [System.setResult]
  | onValidated hworker => rw [hworker]; simp [System.callback]
  | _ => rfl

/-! ## Runs -/

/-- After `Start`, when the tasks have been given to `Enqueue`. -/
def System.initial (threads : ℤ) (given : ι → List τ) : System ι τ where
  callers c := .checking (given c) []
  tasksQ := []
  workers := .replicate threads.toNat .waiting
  results _ := none
  checked _ := []

/-- The systems that are reached. -/
def Reachable (E : Environment τ) (config : Config) (numCPU : ℤ) (given : ι → List τ) :
    System ι τ → Prop :=
  Relation.ReflTransGen (Step E config) (.initial (config.newThreads numCPU) given)

variable {numCPU : ℤ} {given : ι → List τ}

/-- What is called back is decided, in every run. -/
theorem Reachable.consistent (h : Reachable E config numCPU given s) : s.Consistent E := by
  induction h with
  | refl =>
    refine ⟨fun c t ht => (by cases ht), fun op hop => (by cases hop), ?_⟩
    intro w hw
    rw [Multiset.eq_of_mem_replicate hw]
    trivial
  | tail _ hstep ih => exact hstep.consistent ih

/-- The ledger is balanced, in every run. -/
theorem Reachable.balanced (h : Reachable E config numCPU given s) :
    s.ledger.Balanced (fun t => some (E.verdict t)) (fun c => ↑(given c)) := by
  induction h with
  | refl =>
    intro c
    have hworkers := System.sum_pending_waiting (c := c)
      fun w : Worker ι τ => Multiset.eq_of_mem_replicate (n := (config.newThreads numCPU).toNat)
    have hpending : (System.initial (config.newThreads numCPU) given).pending c = ↑(given c) := by
      rw [System.pending, System.initial, Caller.pending, List.append_nil, List.map_nil,
        List.sum_nil, hworkers, add_zero, add_zero]
    rw [System.answered_ledger, System.pending_ledger, hpending]
    exact zero_add _
  | tail hrun hstep ih => exact ih.step (hstep.ledger (Reachable.consistent hrun))

theorem Reachable.card_workers (h : Reachable E config numCPU given s) :
    s.workers.card = (config.newThreads numCPU).toNat := by
  induction h with
  | refl => exact Multiset.card_replicate _ _
  | tail _ hstep ih => exact hstep.card_workers.trans ih

theorem Reachable.card_pos (h : Reachable E config numCPU given s) (hthreads : 0 ≤ config.threads) :
    0 < s.workers.card := by
  have hone := config.one_le_newThreads hthreads numCPU
  rw [h.card_workers]
  omega

/-- Runs end, as each step does some of the work. -/
theorem not_infinite [Fintype ι] (hbatch : 1 ≤ config.maxBatch) (run : ℕ → System ι τ) :
    ¬∀ n, Step E config (run n) (run (n + 1)) := by
  intro hrun
  have hlt : ∀ n, (run n).work + n ≤ (run 0).work := by
    intro n
    induction n with
    | zero => exact Nat.le_refl _
    | succ n ih =>
      have := (hrun n).work_lt hbatch
      omega
  have := hlt ((run 0).work + 1)
  omega

/-- **Every task is answered once.** Whatever the calls and the answers of the checks are, and in
whatever order callers and workers take their steps: when nothing is left to do, the callback of
each call has been called with its tasks, with each one once, and it had its result by then. At any
time no task has been given to it twice. Runs are finite, and if there are threads they
end only when nothing is left to do. -/
theorem answered_exactly_once [Fintype ι] (E : Environment τ) (config : Config) (numCPU : ℤ)
    (given : ι → List τ) (hbatch : 1 ≤ config.maxBatch) :
    (∀ s, Reachable E config numCPU given s → s.Finished → ∀ c,
      (s.checked c).flatten.Perm ((given c).map fun t => (t, some (E.verdict t)))) ∧
    (∀ s, Reachable E config numCPU given s → ∀ c,
      (s.checked c).flatten.Subperm ((given c).map fun t => (t, some (E.verdict t)))) ∧
    (∀ run : ℕ → System ι τ, ¬∀ n, Step E config (run n) (run (n + 1))) ∧
    (0 ≤ config.threads → ∀ s, Reachable E config numCPU given s →
      (∀ s', ¬Step E config s s') → s.Finished) := by
  refine ⟨?_, ?_, not_infinite hbatch, ?_⟩
  · intro s hs hfinished c
    exact Multiset.coe_eq_coe.mp (hs.balanced.answered_eq (hfinished.pending_eq_zero c))
  · intro s hs c
    exact Multiset.coe_le.mp (hs.balanced.answered_le c)
  · intro hthreads s hs hstuck
    by_contra hnot
    obtain ⟨s', hstep⟩ := exists_step config hs.consistent (hs.card_pos hthreads) hnot
    exact hstuck s' hstep

/-- There is a run to the end. -/
theorem exists_finished [Fintype ι] (E : Environment τ) {config : Config} (numCPU : ℤ)
    (given : ι → List τ) (hbatch : 1 ≤ config.maxBatch) (hthreads : 0 ≤ config.threads) :
    ∃ s, Reachable E config numCPU given s ∧ s.Finished := by
  have hrun : ∀ n s, s.work = n → Reachable E config numCPU given s →
      ∃ s', Reachable E config numCPU given s' ∧ s'.Finished := by
    intro n
    induction n using Nat.strong_induction_on with
    | h n ih =>
      intro s hwork hs
      by_cases hfinished : s.Finished
      · exact ⟨s, hs, hfinished⟩
      · obtain ⟨s', hstep⟩ := exists_step config hs.consistent (hs.card_pos hthreads) hfinished
        exact ih s'.work (hwork ▸ hstep.work_lt hbatch) s' rfl (hs.tail hstep)
  exact hrun _ _ rfl .refl

end

/-- `DefaultConfig` -/
def defaultConfig : Config where
  maxQueuedBatches := 128
  maxBatch := 8
  threads := 0

/-- Three tasks for one event: it is not of interest, it fails a light check, and its creator is
not known. -/
def sampleEnvironment : Environment (Fin 3) where
  external := sampleExternal
  hashing := sampleHashing
  event _ :=
    { blankEvent with
      id := ⟨0, 0, copyBytes 24 []⟩
      hashToSign := copyBytes 32 []
      size := 0 }
  interested t := t ≠ 0
  lightCheck t := if t = 1 then some .zeroTime else none
  epochPubKeys _ := (fun _ => none, 0)

theorem answered_exactly_once_sample :
    ∃ s, Reachable sampleEnvironment defaultConfig 4 (fun _ : Unit => [0, 1, 2]) s ∧ s.Finished ∧
      (s.checked ()).flatten.Perm
        [(0, some (.error (.error .notRelevant))), (1, some (.error (.error .zeroTime))),
          (2, some (.error (.error .auth)))] := by
  have hbatch : 1 ≤ defaultConfig.maxBatch := by decide
  obtain ⟨s, hs, hfinished⟩ := exists_finished sampleEnvironment 4 (fun _ : Unit => [0, 1, 2])
    hbatch (by decide)
  obtain ⟨hanswered, -⟩ := answered_exactly_once sampleEnvironment defaultConfig 4
    (fun _ : Unit => [0, 1, 2]) hbatch
  exact ⟨s, hs, hfinished, hanswered s hs hfinished ()⟩

end CheckQueue

end Zilionixx
