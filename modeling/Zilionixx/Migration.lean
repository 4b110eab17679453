import Zilionixx.EventCodec

/-!
# `utils/migration`: a chain of migration steps

A chain is built from its first, empty step on, and run from its last one: `Exec` goes back to
the step whose ID is stored and then runs the steps after it, storing the ID of each one that
succeeds. Whatever fails, and however often `Exec` is called again, the steps that succeed are
those after the stored one, each once and in order.
-/

namespace Zilionixx

/-- The format `%x` of some bytes. -/
def formatHex (bs : List UInt8) : String :=
  String.ofList (bs.flatMap fun b => [Nat.digitChar (b.toNat / 16), Nat.digitChar (b.toNat % 16)])

theorem formatHex_ne_empty {bs : List UInt8} (h : bs ≠ []) : formatHex bs ≠ "" := by
  obtain ⟨b, bs, rfl⟩ := List.exists_cons_of_ne_nil h
  intro hempty
  have hnil := congrArg String.toList hempty
  rw [formatHex, String.toList_ofList, List.flatMap_cons] at hnil
  exact absurd hnil (List.cons_ne_nil _ _)

/-- `Migration`: a step with the ones before it. What a step does depends on, and changes, a
world `σ`; an error is a text. -/
inductive Migration (σ : Type) where
  /-- a step without `exec`: the very first one -/
  | veryFirst (name : String)
  | step (prev : Migration σ) (name : String) (exec : σ → Option String × σ)

namespace Migration

variable {σ : Type} (H : Hashing)

/-- `Begin` -/
def begin (appName : String) : Migration σ := .veryFirst appName

/-- `Next`, which panics on an empty name -/
def next (m : Migration σ) (name : String) (exec : σ → Option String × σ) : Option (Migration σ) :=
  if name = "" then none else some (.step m name exec)

/-- The name of the last step. -/
def name : Migration σ → String
  | veryFirst name => name
  | step _ name _ => name

/-- `ID` -/
def id (m : Migration σ) : String := formatHex (H.sha256 m.name.toUTF8.data.toList).toList

/-- `IDs` -/
def ids : Migration σ → List String
  | veryFirst name => [(veryFirst name : Migration σ).id H]
  | step prev name exec => prev.ids ++ [(step prev name exec).id H]

/-- The ID that is stored, and the world. -/
structure State (σ : Type) where
  id : String
  world : σ

/-- What a call of `Exec` comes to: the error it returns, the state in which it leaves the store,
and the steps that were run, each with whether it succeeded. -/
structure Run (σ : Type) where
  err : Option String
  state : State σ
  steps : List (String × Bool)

/-- `Exec` -/
def exec (flush : σ → Option String × σ) : Migration σ → State σ → Run σ
  | veryFirst name, curr =>
    if curr.id ≠ "" ∧ curr.id ≠ (veryFirst name : Migration σ).id H then
      ⟨some ("unknown version: " ++ curr.id), curr, []⟩
    else ⟨none, curr, []⟩
  | step prev name run, curr =>
    let myID := (step prev name run).id H
    if curr.id = myID then ⟨none, curr, []⟩
    else
      let before := prev.exec flush curr
      match before.err with
      | some err => ⟨some err, before.state, before.steps⟩
      | none =>
        match run before.state.world with
        | (some err, world) =>
          ⟨some err, { before.state with world := world }, before.steps ++ [(myID, false)]⟩
        | (none, world) =>
          ⟨(flush world).1, ⟨myID, (flush world).2⟩, before.steps ++ [(myID, true)]⟩

/-- `Exec` called again and again on a chain; the world may be any one each time, the stored ID
is what the call before has left. -/
def series (flush : σ → Option String × σ) (m : Migration σ) (id : String) :
    List σ → List (Run σ)
  | [] => []
  | world :: worlds =>
    let run := m.exec H flush ⟨id, world⟩
    run :: series flush m run.state.id worlds

/-! ## The steps that succeed -/

/-- The steps of a run that succeeded. -/
def Run.completed (r : Run σ) : List String := (r.steps.filter (·.2)).map (·.1)

/-- The steps that succeeded in a series of runs. -/
def completed (runs : List (Run σ)) : List String := runs.flatMap Run.completed

/-- The steps after a stored ID, in the order of the chain; no ID stands for the first step. -/
def pending (m : Migration σ) (stored : String) : List String :=
  if stored = "" then (m.ids H).tail else (m.ids H).drop ((m.ids H).idxOf stored + 1)

/-- The ID of the last step that succeeded, or else the one that was stored. -/
def lastOf (stored : String) (completed : List String) : String := completed.getLast?.getD stored

theorem id_ne_empty (m : Migration σ) : m.id H ≠ "" := by
  apply formatHex_ne_empty
  intro hnil
  have hlen := congrArg List.length hnil
  rw [List.Vector.toList_length] at hlen
  cases hlen

theorem ids_ne_nil (m : Migration σ) : m.ids H ≠ [] := by
  cases m with
  | veryFirst name => exact List.cons_ne_nil _ _
  | step prev name run => exact List.append_ne_nil_of_right_ne_nil _ (List.cons_ne_nil _ _)

theorem ne_empty_of_mem_ids {m : Migration σ} {id : String} (h : id ∈ m.ids H) : id ≠ "" := by
  induction m with
  | veryFirst name =>
    rw [List.mem_singleton.mp h]
    exact id_ne_empty H _
  | step prev name run ih =>
    rcases List.mem_append.mp h with hprev | hlast
    · exact ih hprev
    · rw [List.mem_singleton.mp hlast]
      exact id_ne_empty H _

/-- An ID from which `Exec` can go on. -/
def Known (m : Migration σ) (stored : String) : Prop := stored = "" ∨ stored ∈ m.ids H

variable {H} {m prev : Migration σ} {name stored : String} {run : σ → Option String × σ}
  {flush : σ → Option String × σ}

/-! ## The steps after the stored one -/

theorem pending_veryFirst (h : Known H (veryFirst name : Migration σ) stored) :
    (veryFirst name : Migration σ).pending H stored = [] := by
  rcases h with rfl | hmem
  · rfl
  · rw [pending, if_neg (ne_empty_of_mem_ids H hmem), List.mem_singleton.mp hmem]
    simp [ids]

theorem pending_step_last (hnodup : ((step prev name run).ids H).Nodup) :
    (step prev name run).pending H ((step prev name run).id H) = [] := by
  have hnot : (step prev name run).id H ∉ prev.ids H := by
    intro hmem
    exact List.disjoint_of_nodup_append hnodup hmem (List.mem_singleton_self _)
  rw [pending, if_neg (id_ne_empty H _), ids, List.idxOf_append_of_notMem hnot]
  simp

theorem known_prev (h : Known H (step prev name run) stored)
    (hne : stored ≠ (step prev name run).id H) : Known H prev stored := by
  rcases h with hempty | hmem
  · exact .inl hempty
  · rcases List.mem_append.mp hmem with hprev | hlast
    · exact .inr hprev
    · exact absurd (List.mem_singleton.mp hlast) hne

/-- A new step is pending last. -/
theorem pending_step (h : Known H prev stored) :
    (step prev name run).pending H stored =
      prev.pending H stored ++ [(step prev name run).id H] := by
  rcases h with rfl | hmem
  · rw [pending, if_pos rfl, pending, if_pos rfl, ids,
      List.tail_append_of_ne_nil (ids_ne_nil H prev)]
  · have hlt := List.idxOf_lt_length_of_mem hmem
    rw [pending, if_neg (ne_empty_of_mem_ids H hmem), pending, if_neg (ne_empty_of_mem_ids H hmem),
      ids, List.idxOf_append_of_mem hmem, List.drop_append_of_le_length hlt]

/-- When some of the steps are done, the others are those after the last one of them. -/
theorem pending_lastOf {done rest : List String} (hnodup : (m.ids H).Nodup)
    (hsplit : m.pending H stored = done ++ rest) : m.pending H (lastOf stored done) = rest := by
  rcases List.eq_nil_or_concat' done with rfl | ⟨init, last, rfl⟩
  · exact hsplit
  · -- the chain up to that last step, and after it
    obtain ⟨before, hids⟩ : ∃ before, m.ids H = before ++ last :: rest := by
      rw [List.append_assoc] at hsplit
      rw [pending] at hsplit
      split at hsplit
      · refine ⟨(m.ids H).head (ids_ne_nil H m) :: init, ?_⟩
        rw [List.cons_append]
        exact (List.cons_head_tail (ids_ne_nil H m)).symm.trans (congrArg _ hsplit)
      · refine ⟨(m.ids H).take ((m.ids H).idxOf stored + 1) ++ init, ?_⟩
        rw [List.append_assoc]
        exact (List.take_append_drop _ _).symm.trans (congrArg _ hsplit)
    have hlast : lastOf stored (init ++ [last]) = last := by simp [lastOf]
    have hmem : last ∈ m.ids H := by simp [hids]
    have hnot : last ∉ before := by
      rw [hids] at hnodup
      intro hbefore
      exact List.disjoint_of_nodup_append hnodup hbefore List.mem_cons_self
    rw [hlast, pending, if_neg (ne_empty_of_mem_ids H hmem), hids,
      List.idxOf_append_of_notMem hnot]
    simp

/-! ## One call -/

/-- A call has returned, and since an ID was stored some of the steps after it have succeeded,
from the first on: the ID of the last one of them is stored, and there is no error if none is
left. -/
def Advanced (H : Hashing) (m : Migration σ) (stored : String) (done : List String) (r : Run σ) :
    Prop :=
  ∃ rest, m.pending H stored = done ++ rest ∧ r.state.id = lastOf stored done ∧
    (r.err = none ↔ rest = [])

theorem Advanced.refl {world : σ} (hpending : m.pending H stored = []) :
    Advanced H m stored [] ⟨none, ⟨stored, world⟩, []⟩ :=
  ⟨[], hpending, rfl, iff_of_true rfl rfl⟩

theorem completed_append_failed (state : State σ) (err : Option String)
    (steps : List (String × Bool)) (id : String) :
    (⟨err, state, steps ++ [(id, false)]⟩ : Run σ).completed = (steps.filter (·.2)).map (·.1) := by
  simp [Run.completed]

theorem completed_append_succeeded (state : State σ) (err : Option String)
    (steps : List (String × Bool)) (id : String) :
    (⟨err, state, steps ++ [(id, true)]⟩ : Run σ).completed =
      (steps.filter (·.2)).map (·.1) ++ [id] := by
  simp [Run.completed]

/-- By induction on the chain: the recursion ends at the stored step, and each step on the way
back is run if the ones before it have succeeded. -/
theorem exec_advances (hflush : ∀ world, (flush world).1 = none) (hnodup : (m.ids H).Nodup)
    (hknown : Known H m stored) (world : σ) :
    Advanced H m stored (m.exec H flush ⟨stored, world⟩).completed
      (m.exec H flush ⟨stored, world⟩) := by
  induction m with
  | veryFirst name =>
    have hexec : exec H flush (veryFirst name) ⟨stored, world⟩ = ⟨none, ⟨stored, world⟩, []⟩ := by
      apply if_neg
      rintro ⟨hne, hother⟩
      rcases hknown with hempty | hmem
      · exact hne hempty
      · exact hother (List.mem_singleton.mp hmem)
    rw [hexec]
    exact .refl (pending_veryFirst hknown)
  | step prev name run ih =>
    rw [exec]
    by_cases hlast : stored = (step prev name run).id H
    · rw [if_pos hlast]
      rw [hlast]
      exact .refl (pending_step_last hnodup)
    · rw [if_neg hlast]
      have hprev := known_prev hknown hlast
      obtain ⟨rest, hpending, hid, herr⟩ := ih hnodup.of_append_left hprev
      have hsplit : (step prev name run).pending H stored =
          prev.pending H stored ++ [(step prev name run).id H] := pending_step hprev
      rw [hpending, List.append_assoc] at hsplit
      dsimp only
      split
      · -- a step before this one has failed
        rename_i err hbefore
        refine ⟨_, hsplit, hid, ?_⟩
        exact iff_of_false (Option.some_ne_none err)
          (List.append_ne_nil_of_right_ne_nil _ (List.cons_ne_nil _ _))
      · rename_i hbefore
        obtain rfl := herr.mp hbefore
        split
        · rename_i err world' hrun
          refine ⟨[(step prev name run).id H], ?_, ?_, ?_⟩
          · rw [hsplit, completed_append_failed]
            rfl
          · rw [completed_append_failed]
            exact hid
          · exact iff_of_false (Option.some_ne_none err) (List.cons_ne_nil _ _)
        · rename_i world' hrun
          refine ⟨[], ?_, ?_, iff_of_true (hflush _) rfl⟩
          · rw [hsplit, completed_append_succeeded, List.append_nil]
            rfl
          · rw [completed_append_succeeded, lastOf, List.getLast?_concat]
            rfl

/-- An ID that is not in the chain: the recursion ends at the first step with an error. -/
theorem exec_unknown (hunknown : ¬Known H m stored) (world : σ) :
    m.exec H flush ⟨stored, world⟩ =
      ⟨some ("unknown version: " ++ stored), ⟨stored, world⟩, []⟩ := by
  rw [Known, not_or] at hunknown
  obtain ⟨hne, hnot⟩ := hunknown
  induction m with
  | veryFirst name =>
    exact if_pos ⟨hne, fun heq => hnot (List.mem_singleton.mpr heq)⟩
  | step prev name run ih =>
    rw [ids, List.mem_append, not_or, List.mem_singleton] at hnot
    rw [exec, if_neg hnot.2, ih hnot.1]

/-! ## Series of calls -/

theorem known_lastOf {done rest : List String} (hknown : Known H m stored)
    (hsplit : m.pending H stored = done ++ rest) : Known H m (lastOf stored done) := by
  rcases List.eq_nil_or_concat' done with rfl | ⟨init, last, rfl⟩
  · exact hknown
  · right
    have hlast : lastOf stored (init ++ [last]) = last := by simp [lastOf]
    have hmem : last ∈ m.pending H stored := by simp [hsplit]
    rw [hlast]
    rw [pending] at hmem
    split at hmem
    · exact List.mem_of_mem_tail hmem
    · exact List.mem_of_mem_drop hmem

theorem lastOf_append (stored : String) (done more : List String) :
    lastOf (lastOf stored done) more = lastOf stored (done ++ more) := by
  rw [lastOf, lastOf, lastOf, List.getLast?_append]
  cases more.getLast? <;> rfl

/-- What a call has done comes after what the calls before it have done. -/
theorem Advanced.trans {done more : List String} {r r' : Run σ} (hnodup : (m.ids H).Nodup)
    (h : Advanced H m stored done r) (h' : Advanced H m r.state.id more r') :
    Advanced H m stored (done ++ more) r' := by
  obtain ⟨rest, hpending, hid, -⟩ := h
  obtain ⟨rest', hrest, hid', herr⟩ := h'
  rw [hid, pending_lastOf hnodup hpending] at hrest
  rw [hid, lastOf_append] at hid'
  refine ⟨rest', ?_, hid', herr⟩
  rw [hpending, hrest, List.append_assoc]

theorem Advanced.known {done : List String} {r : Run σ} (h : Advanced H m stored done r)
    (hknown : Known H m stored) : Known H m r.state.id := by
  obtain ⟨rest, hpending, hid, -⟩ := h
  rw [hid]
  exact known_lastOf hknown hpending

/-- After each call of a series, with what the calls up to it have done. -/
theorem series_advances (hflush : ∀ world, (flush world).1 = none) (hnodup : (m.ids H).Nodup)
    (hknown : Known H m stored) (worlds : List σ) {k : ℕ} {r : Run σ}
    (hr : (m.series H flush stored worlds)[k]? = some r) :
    Advanced H m stored (completed ((m.series H flush stored worlds).take (k + 1))) r := by
  induction worlds generalizing stored k with
  | nil => cases hr
  | cons world worlds ih =>
    have hfirst := exec_advances hflush hnodup hknown world
    cases k with
    | zero =>
      obtain rfl := Option.some.inj hr
      rw [series, List.take_succ_cons, List.take_zero, completed, List.flatMap_singleton]
      exact hfirst
    | succ k =>
      rw [series, List.take_succ_cons, completed, List.flatMap_cons]
      exact hfirst.trans hnodup (ih (hfirst.known hknown) hr)

/-- No step runs out of order. -/
theorem completed_series_isPrefix (hflush : ∀ world, (flush world).1 = none)
    (hnodup : (m.ids H).Nodup) (hknown : Known H m stored) (worlds : List σ) :
    completed (m.series H flush stored worlds) <+: m.pending H stored := by
  rcases List.eq_nil_or_concat' (m.series H flush stored worlds) with hnil | ⟨init, r, hsplit⟩
  · rw [hnil]
    exact List.nil_prefix
  · have hr : (m.series H flush stored worlds)[init.length]? = some r := by simp [hsplit]
    obtain ⟨rest, hpending, -⟩ := series_advances hflush hnodup hknown worlds hr
    rw [List.take_of_length_le (by simp [hsplit])] at hpending
    exact ⟨rest, hpending.symm⟩

theorem nodup_pending (hnodup : (m.ids H).Nodup) (stored : String) :
    (m.pending H stored).Nodup := by
  rw [pending]
  split
  · exact hnodup.sublist (List.tail_sublist _)
  · exact hnodup.sublist (List.drop_sublist _ _)

/-- No step is left only after the last one. -/
theorem pending_eq_nil_iff (hnodup : ((step prev name run).ids H).Nodup)
    (hknown : Known H (step prev name run) stored) :
    (step prev name run).pending H stored = [] ↔ stored = (step prev name run).id H := by
  constructor
  · intro hnil
    by_contra hne
    rw [pending_step (known_prev hknown hne)] at hnil
    exact List.append_ne_nil_of_right_ne_nil _ (List.cons_ne_nil _ _) hnil
  · rintro rfl
    exact pending_step_last hnodup

theorem Advanced.err_iff_id {done : List String} {r : Run σ}
    (h : Advanced H (step prev name run) stored done r)
    (hnodup : ((step prev name run).ids H).Nodup) (hknown : Known H (step prev name run) stored) :
    r.err = none ↔ r.state.id = (step prev name run).id H := by
  rw [← pending_eq_nil_iff hnodup (h.known hknown)]
  obtain ⟨rest, hpending, hid, herr⟩ := h
  rw [hid, pending_lastOf hnodup hpending]
  exact herr

theorem Advanced.err_iff {done : List String} {r : Run σ} (h : Advanced H m stored done r) :
    r.err = none ↔ done = m.pending H stored := by
  obtain ⟨rest, hpending, -, herr⟩ := h
  rw [herr, hpending, List.self_eq_append_right]

/-- **Each step once, in order, across failures.** A chain has steps with different IDs, and what
is stored is the ID of one of them or nothing. Over a series of calls of `Exec` on the chain,
whatever the steps do, those that succeed are the ones after the stored step, from the first of
them on, in order and without repetition. After each call the ID of the last step that has
succeeded is stored, and the call has returned no error just if all steps after the stored one
have succeeded, which is if the ID of the last one is stored. If another ID is stored, then
`Exec` returns an error, runs no step and changes nothing. -/
theorem exec_once_in_order (m : Migration σ) (flush : σ → Option String × σ)
    (hflush : ∀ world, (flush world).1 = none) (hnodup : (m.ids H).Nodup) (stored : String)
    (worlds : List σ) :
    (Known H m stored →
      completed (m.series H flush stored worlds) <+: m.pending H stored ∧
      (completed (m.series H flush stored worlds)).Nodup ∧
      ∀ k r, (m.series H flush stored worlds)[k]? = some r →
        r.state.id = lastOf stored (completed ((m.series H flush stored worlds).take (k + 1))) ∧
        (r.err = none ↔
          completed ((m.series H flush stored worlds).take (k + 1)) = m.pending H stored) ∧
        (∀ prev name run, m = step prev name run → (r.err = none ↔ r.state.id = m.id H))) ∧
    (¬Known H m stored → ∀ world, m.exec H flush ⟨stored, world⟩ =
      ⟨some ("unknown version: " ++ stored), ⟨stored, world⟩, []⟩) := by
  refine ⟨?_, exec_unknown⟩
  intro hknown
  have hdone := completed_series_isPrefix hflush hnodup hknown worlds
  refine ⟨hdone, (nodup_pending hnodup stored).sublist hdone.sublist, ?_⟩
  intro k r hr
  have hadvanced := series_advances hflush hnodup hknown worlds hr
  refine ⟨?_, hadvanced.err_iff, ?_⟩
  · obtain ⟨rest, -, hid, -⟩ := hadvanced
    exact hid
  · rintro prev name run rfl
    exact hadvanced.err_iff_id hnodup hknown

/-! ## The migrations of the gossip store -/

/-- `migrations` of the gossip store -/
def migrations (recoverUsedGas recoverTxHashes recoverHeadsStorage recoverLastEventsStorage :
    σ → Option String × σ) : Option (Migration σ) := do
  let m := begin "zilionixx-gossip-store"
  let m ← m.next "used gas recovery" recoverUsedGas
  let m ← m.next "tx hashes recovery" recoverTxHashes
  let m ← m.next "DAG heads recovery" recoverHeadsStorage
  m.next "DAG last events recovery" recoverLastEventsStorage

/-- `migrateData`, on the chain of `migrations`: an empty database needs none of them -/
def migrateData (H : Hashing) (commit : σ → Option String × σ) (m : Migration σ) (isEmptyDB : Bool)
    (versions : State σ) : Run σ :=
  if isEmptyDB then ⟨none, { versions with id := m.id H }, []⟩ else m.exec H commit versions

/-- The database is opened only at the last version. -/
theorem migrateData_stored {commit : σ → Option String × σ}
    (hcommit : ∀ world, (commit world).1 = none)
    (hnodup : ((step prev name run).ids H).Nodup) (isEmptyDB : Bool) (versions : State σ)
    (h : (migrateData H commit (step prev name run) isEmptyDB versions).err = none) :
    (migrateData H commit (step prev name run) isEmptyDB versions).state.id =
      (step prev name run).id H := by
  obtain ⟨stored, world⟩ := versions
  rw [migrateData] at h ⊢
  split at h
  · rename_i hempty
    rw [if_pos hempty]
  · rename_i hempty
    rw [if_neg hempty]
    by_cases hknown : Known H (step prev name run) stored
    · exact ((exec_advances hcommit hnodup hknown world).err_iff_id hnodup hknown).mp h
    · rw [exec_unknown hknown] at h
      cases h

/-- A step for examples, which fails if the world says so. -/
def sampleStep (world : List Bool) : Option String × List Bool :=
  (if world.head?.getD false then some "failed" else none, world.tail)

/-- Nothing is stored; the third step fails in the first call. -/
theorem exec_once_in_order_migrations :
    ∃ m : Migration (List Bool), migrations sampleStep sampleStep sampleStep sampleStep = some m ∧
      (m.ids sampleHashing).Nodup ∧
      completed (m.series sampleHashing (fun world => (none, world)) ""
        [[false, false, true], []]) <+: (m.ids sampleHashing).tail := by
  have hnodup : ∀ m ∈ migrations sampleStep sampleStep sampleStep sampleStep,
      (m.ids sampleHashing).Nodup := by decide
  refine ⟨_, rfl, hnodup _ rfl, ?_⟩
  exact ((exec_once_in_order _ _ (fun _ => rfl) (hnodup _ rfl) "" _).1 (.inl rfl)).1

end Migration

end Zilionixx
