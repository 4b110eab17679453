import Mathlib.Data.Set.Lattice
import Zilionixx.Vecmt

/-!
# Vectors over a graph of events

The vector engine of `zilion-base` gives each event a vector: it starts from
the event itself and collects from the vectors of the parents, in some order.
On a graph without forks the result is determined by the events that are
observed: on each branch, the highest sequence number among them and the
creation time of the event that has it.
-/

namespace Zilionixx.Vecmt

/-! ## What a set of events has on a branch -/

/-- The entry of a validator over a set of events: its lowest and its highest
sequence number, and the creation time of the highest event. -/
inductive Highest (S : Set Event) (v : ValidatorID) : Entry → Prop where
  | none (unobserved : ∀ x ∈ S, x.creator ≠ v) : Highest S v .empty
  | some {high low : Event} (highMem : high ∈ S) (highCreator : high.creator = v) (lowMem : low ∈ S)
      (lowCreator : low.creator = v)
      (bounds : ∀ x ∈ S, x.creator = v → low.seq ≤ x.seq ∧ x.seq ≤ high.seq) :
      Highest S v ⟨⟨high.seq, low.seq⟩, high.creationTime⟩

namespace Highest

variable {S T : Set Event} {v : ValidatorID} {x y : Entry}

theorem singleton (e : Event) : Highest {e} e.creator ⟨⟨e.seq, e.seq⟩, e.creationTime⟩ :=
  .some rfl rfl rfl rfl fun x hx _ => by
    obtain rfl := hx
    exact ⟨UInt32.le_refl _, UInt32.le_refl _⟩

theorem singleton_of_ne {e : Event} (h : e.creator ≠ v) : Highest {e} v .empty :=
  .none fun x hx => by
    obtain rfl := hx
    exact h

/-- Merging entries is taking the union of the events. -/
theorem merge (hpos : ∀ e ∈ S ∪ T, e.seq ≠ 0) (hx : Highest S v x) (hy : Highest T v y) :
    Highest (S ∪ T) v (x.merge y) := by
  cases hy with
  | none hT =>
    rw [Entry.merge_empty]
    cases hx with
    | none hS =>
      refine .none ?_
      rintro e (he | he)
      exacts [hS e he, hT e he]
    | some hhigh hhighv hlow hlowv hbounds =>
      refine .some (.inl hhigh) hhighv (.inl hlow) hlowv ?_
      rintro e (he | he) hev
      exacts [hbounds e he hev, absurd hev (hT e he)]
  | @some high' low' hhigh' hhighv' hlow' hlowv' hbounds' =>
    have hhis : high'.seq ≠ 0 := hpos _ (.inr hhigh')
    cases hx with
    | none hS =>
      rw [Entry.empty_merge hhis]
      refine .some (.inr hhigh') hhighv' (.inr hlow') hlowv' ?_
      rintro e (he | he) hev
      exacts [absurd hev (hS e he), hbounds' e he hev]
    | @some high low hhigh hhighv hlow hlowv hbounds =>
      have hmine : high.seq ≠ 0 := hpos _ (.inl hhigh)
      -- the higher one of the two highest, and the lower one of the two lowest
      obtain ⟨high'', hmem, hcreator, hle, hle', heq, htime⟩ : ∃ h ∈ S ∪ T, h.creator = v ∧
          high.seq ≤ h.seq ∧ high'.seq ≤ h.seq ∧
          (if high.seq < high'.seq then high'.seq else high.seq) = h.seq ∧
          (if high.seq < high'.seq then high'.creationTime else high.creationTime) =
            h.creationTime := by
        by_cases hlt : high.seq < high'.seq
        · exact ⟨high', .inr hhigh', hhighv', UInt32.le_of_lt hlt, UInt32.le_refl _, if_pos hlt,
            if_pos hlt⟩
        · exact ⟨high, .inl hhigh, hhighv, UInt32.le_refl _, UInt32.not_lt.mp hlt, if_neg hlt,
            if_neg hlt⟩
      obtain ⟨low'', hmem', hcreator', hge, hge', heq'⟩ : ∃ l ∈ S ∪ T, l.creator = v ∧
          l.seq ≤ low.seq ∧ l.seq ≤ low'.seq ∧
          (if high.seq = 0 ∨ low.seq > low'.seq then low'.seq else low.seq) = l.seq := by
        by_cases hgt : low.seq > low'.seq
        · exact ⟨low', .inr hlow', hlowv', UInt32.le_of_lt hgt, UInt32.le_refl _,
            if_pos (.inr hgt)⟩
        · exact ⟨low, .inl hlow, hlowv, UInt32.le_refl _, UInt32.not_lt.mp hgt,
            if_neg (not_or.mpr ⟨hmine, hgt⟩)⟩
      simp only [Entry.merge, if_neg hhis, heq, htime, heq']
      refine .some hmem hcreator hmem' hcreator' ?_
      rintro e (he | he) hev
      · obtain ⟨hlow, hhigh⟩ := hbounds e he hev
        exact ⟨UInt32.le_trans hge hlow, UInt32.le_trans hhigh hle⟩
      · obtain ⟨hlow, hhigh⟩ := hbounds' e he hev
        exact ⟨UInt32.le_trans hge' hlow, UInt32.le_trans hhigh hle'⟩

/-- Without forks, a set of events has one entry for a validator. -/
theorem unique (hfork : ∀ e ∈ S, ∀ e' ∈ S, e.creator = e'.creator → e.seq = e'.seq → e = e')
    (hx : Highest S v x) (hy : Highest S v y) : x = y := by
  cases hx with
  | none hS =>
    cases hy with
    | none _ => rfl
    | some hhigh hhighv => exact absurd hhighv (hS _ hhigh)
  | @some high low hhigh hhighv hlow hlowv hbounds =>
    cases hy with
    | none hS => exact absurd hhighv (hS _ hhigh)
    | @some high' low' hhigh' hhighv' hlow' hlowv' hbounds' =>
      have hhighs : high = high' := hfork _ hhigh _ hhigh' (hhighv.trans hhighv'.symm)
        (UInt32.le_antisymm (hbounds' _ hhigh hhighv).2 (hbounds _ hhigh' hhighv').2)
      have hlows : low.seq = low'.seq :=
        UInt32.le_antisymm (hbounds _ hlow' hlowv').1 (hbounds' _ hlow hlowv).1
      rw [hhighs, hlows]

end Highest

/-! ## Graphs of events -/

/-- Of events with the newest first, the parents of each come before it. -/
def ParentsFirst : List Event → Prop
  | [] => True
  | e :: es => (∀ p ∈ e.parents, ∃ x ∈ es, x.id = p) ∧ ParentsFirst es

/-- A graph of events without forks, the newest first: no validator has two
events with the same sequence number. -/
structure Dag where
  validators : Validators
  events : List Event
  parentsFirst : ParentsFirst events
  nodup : (events.map Event.id).Nodup
  creator_mem : ∀ e ∈ events, e.creator ∈ validators.sortedIDs
  /-- sequence numbers start at 1 -/
  seq_ne_zero : ∀ e ∈ events, e.seq ≠ 0
  forkFree : ∀ e ∈ events, ∀ e' ∈ events, e.creator = e'.creator → e.seq = e'.seq → e = e'

/-- An event observes itself and its ancestors. -/
inductive Observes (events : List Event) : Event → Event → Prop where
  | refl (e : Event) : Observes events e e
  | parent {e p x : Event} (mem : p ∈ events) (isParent : p.id ∈ e.parents)
      (observes : Observes events p x) : Observes events e x

/-- What an event observes. -/
def past (events : List Event) (e : Event) : Set Event := {x | Observes events e x}

/-- What the event with an ID observes. -/
def pastOf (events : List Event) (id : EventID) : Set Event :=
  {x | ∃ e ∈ events, e.id = id ∧ x ∈ past events e}

theorem past_eq (events : List Event) (e : Event) {parents : List EventID}
    (h : ∀ p, p ∈ parents ↔ p ∈ e.parents) :
    past events e = {e} ∪ ⋃ p ∈ parents, pastOf events p := by
  ext x
  simp only [Set.mem_union, Set.mem_singleton_iff, Set.mem_iUnion, exists_prop]
  constructor
  · rintro (_ | ⟨mem, isParent, observes⟩)
    · exact .inl rfl
    · exact .inr ⟨_, (h _).mpr isParent, _, mem, rfl, observes⟩
  · rintro (rfl | ⟨_, hp, p, mem, rfl, observes⟩)
    · exact .refl x
    · exact .parent mem ((h _).mp hp) observes

theorem past_subset {events : List Event} {e : Event} (he : e ∈ events) :
    ∀ x ∈ past events e, x ∈ events := by
  intro x hx
  induction hx with
  | refl _ => exact he
  | parent mem _ _ ih => exact ih mem

/-! ## The vector engine -/

/-- The vectors that have been saved with `SetHighestBefore`. -/
abbrev Stored (F : Vecfc) := EventID → Option (HighestBefore F)

variable {F : Vecfc} {vv : Validators} {S : Set Event}

/-- Collect from the parents, one after the other. -/
def collectParents (num : ℕ) (stored : Stored F) :
    List EventID → HighestBefore F → Option (HighestBefore F)
  | [], b => pure b
  | p :: parents, b => do
    let other ← stored p
    let b ← b.collectFrom other num
    collectParents num stored parents b

/-- The vector of an event. -/
def calcBefore (F : Vecfc) (vv : Validators) (stored : Stored F) (e : Event)
    (parents : List EventID) : Option (HighestBefore F) := do
  let b ← (HighestBefore.new F (UInt32.ofNat vv.len)).initWithEvent
    (UInt32.ofNat (vv.getIdx e.creator)) e
  collectParents vv.len stored parents b

/-- The vectors of the events, the newest first, where `visit` is the order in
which the parents of an event are visited. -/
def index (F : Vecfc) (vv : Validators) (visit : Event → List EventID) :
    List Event → Option (Stored F)
  | [] => some fun _ => none
  | e :: es => do
    let stored ← index F vv visit es
    let b ← calcBefore F vv stored e (visit e)
    pure (Function.update stored e.id (some b))

/-- The vector has, for each validator, its entry over a set of events. -/
def Records (vv : Validators) (S : Set Event) (b : HighestBefore F) : Prop :=
  ∃ f, Represents vv.len b f ∧ ∀ i v, vv.sortedIDs[i]? = some v → Highest S v (f i)

/-- A vector starts with its event. -/
theorem Records.init (hF : F.Lawful) (hlen : vv.len < 2 ^ 29) {e : Event}
    (hcreator : e.creator ∈ vv.sortedIDs) (hseq : e.seq ≠ 0) :
    ∃ b, (HighestBefore.new F (UInt32.ofNat vv.len)).initWithEvent
      (UInt32.ofNat (vv.getIdx e.creator)) e = some b ∧ Records vv {e} b := by
  obtain ⟨i, hi⟩ := List.mem_iff_getElem?.mp hcreator
  have hidx := vv.getIdx_of_getElem? i _ hi
  obtain ⟨b, hb, hrep⟩ := (Represents.new hF hlen).initWithEvent hF
    (List.getElem?_eq_some_iff.mp hi).1 e hseq
  refine ⟨b, hidx ▸ hb, _, hrep, fun j v hj => ?_⟩
  rcases eq_or_ne j i with rfl | hne
  · obtain rfl := Option.some.inj (hi.symm.trans hj)
    rw [Function.update_self]
    exact .singleton e
  · rw [Function.update_of_ne hne]
    refine .singleton_of_ne fun hv => hne ?_
    rw [← vv.getIdx_of_getElem? j v hj, ← hv, hidx]

/-- A parent adds its past. -/
theorem Records.collectFrom (hF : F.Lawful) {T : Set Event} {b other : HighestBefore F}
    (hpos : ∀ e ∈ S ∪ T, e.seq ≠ 0) (hb : Records vv S b) (ho : Records vv T other) :
    ∃ b', b.collectFrom other vv.len = some b' ∧ Records vv (S ∪ T) b' := by
  obtain ⟨f, hf, hS⟩ := hb
  obtain ⟨g, hg, hT⟩ := ho
  obtain ⟨b', hb', hrep⟩ := hf.collectFrom hF hg
  exact ⟨b', hb', _, hrep, fun i v hi => (hS i v hi).merge hpos (hT i v hi)⟩

/-- So do all parents. -/
theorem Records.collectParents (hF : F.Lawful) {stored : Stored F} {P : EventID → Set Event}
    {parents : List EventID} {b : HighestBefore F}
    (hstored : ∀ p ∈ parents, ∃ other, stored p = some other ∧ Records vv (P p) other)
    (hpos : ∀ e ∈ S ∪ ⋃ p ∈ parents, P p, e.seq ≠ 0) (hb : Records vv S b) :
    ∃ b', Vecmt.collectParents vv.len stored parents b = some b' ∧
      Records vv (S ∪ ⋃ p ∈ parents, P p) b' := by
  induction parents generalizing S b with
  | nil => exact ⟨b, rfl, by simpa using hb⟩
  | cons p parents ih =>
    have hunion : S ∪ ⋃ q ∈ p :: parents, P q = S ∪ P p ∪ ⋃ q ∈ parents, P q := by
      simp [Set.iUnion_or, Set.iUnion_union_distrib, Set.union_assoc]
    rw [hunion] at hpos ⊢
    obtain ⟨hp, hparents⟩ := List.forall_mem_cons.mp hstored
    obtain ⟨other, hother, ho⟩ := hp
    obtain ⟨b₁, hb₁, hrec⟩ := hb.collectFrom hF (fun e he => hpos e (.inl he)) ho
    obtain ⟨b₂, hb₂, hrec₂⟩ := ih hparents hpos hrec
    refine ⟨b₂, ?_, hrec₂⟩
    rw [Vecmt.collectParents, hother, Option.bind_eq_bind, Option.bind_some, hb₁]
    exact hb₂

/-! ## The vectors of a graph -/

namespace Dag

variable {dag : Dag}

theorem pastOf_id {e : Event} (he : e ∈ dag.events) :
    pastOf dag.events e.id = past dag.events e := by
  ext x
  constructor
  · rintro ⟨e', he', hid, hx⟩
    rwa [List.inj_on_of_nodup_map dag.nodup he' he hid] at hx
  · exact fun hx => ⟨e, he, rfl, hx⟩

theorem calcBefore (hF : F.Lawful) (hlen : dag.validators.len < 2 ^ 29) {stored : Stored F}
    {e : Event} {parents : List EventID} (he : e ∈ dag.events)
    (hparents : ∀ p, p ∈ parents ↔ p ∈ e.parents)
    (hstored : ∀ p ∈ parents, ∃ other,
      stored p = some other ∧ Records dag.validators (pastOf dag.events p) other) :
    ∃ b, Vecmt.calcBefore F dag.validators stored e parents = some b ∧
      Records dag.validators (past dag.events e) b := by
  obtain ⟨b, hb, hrec⟩ := Records.init hF hlen (dag.creator_mem e he) (dag.seq_ne_zero e he)
  have hpast := past_eq dag.events e hparents
  have hpos : ∀ x ∈ past dag.events e, x.seq ≠ 0 :=
    fun x hx => dag.seq_ne_zero x (past_subset he x hx)
  obtain ⟨b', hb', hrec'⟩ := hrec.collectParents hF hstored (hpast ▸ hpos)
  refine ⟨b', ?_, hpast ▸ hrec'⟩
  rw [Vecmt.calcBefore, hb]
  exact hb'

/-- Every event gets a vector, which records what the event observes. -/
theorem index (hF : F.Lawful) (hlen : dag.validators.len < 2 ^ 29) {visit : Event → List EventID}
    (hvisit : ∀ e p, p ∈ visit e ↔ p ∈ e.parents) {es : List Event}
    (hmem : ∀ e ∈ es, e ∈ dag.events) (hfirst : ParentsFirst es)
      (hnodup : (es.map Event.id).Nodup) :
    ∃ stored, Vecmt.index F dag.validators visit es = some stored ∧
      ∀ e ∈ es, ∃ b, stored e.id = some b ∧ Records dag.validators (past dag.events e) b := by
  induction es with
  | nil => exact ⟨_, rfl, List.forall_mem_nil _⟩
  | cons e es ih =>
    obtain ⟨he, hmem⟩ := List.forall_mem_cons.mp hmem
    obtain ⟨hparents, hfirst⟩ := hfirst
    obtain ⟨hnew, hnodup⟩ := List.nodup_cons.mp hnodup
    obtain ⟨stored, hstored, hrec⟩ := ih hmem hfirst hnodup
    have hvisited : ∀ p ∈ visit e, ∃ other,
        stored p = some other ∧ Records dag.validators (pastOf dag.events p) other := by
      intro p hp
      obtain ⟨x, hx, rfl⟩ := hparents p ((hvisit e p).mp hp)
      rw [pastOf_id (hmem x hx)]
      exact hrec x hx
    obtain ⟨b, hb, hpast⟩ := calcBefore hF hlen he (hvisit e) hvisited
    refine ⟨Function.update stored e.id (some b), ?_, ?_⟩
    · rw [Vecmt.index, hstored, Option.bind_eq_bind, Option.bind_some, hb]
      rfl
    · rintro x (_ | ⟨_, hx⟩)
      · exact ⟨b, Function.update_self .., hpast⟩
      · have hne : x.id ≠ e.id := fun h => hnew (h ▸ List.mem_map_of_mem hx)
        obtain ⟨b', hb', hx⟩ := hrec x hx
        exact ⟨b', (Function.update_of_ne hne ..).trans hb', hx⟩

end Dag

/-- The vector has the entry `x` at index `i`. -/
def HasEntry (b : HighestBefore F) (i : ℕ) (x : Entry) : Prop :=
  F.get b.vSeq (UInt32.ofNat i) = x.branch ∧ b.vTime.get (UInt32.ofNat i) = some x.time

/-- **Vector times are correct.** On a graph without forks of fewer than `2 ^ 29`
validators, the vector of an event has for each validator the one entry over
the events it observes, in whatever order and however often the parents are
visited. -/
theorem vector_times_correct (F : Vecfc) (hF : F.Lawful) (dag : Dag)
    (hlen : dag.validators.len < 2 ^ 29) (e : Event) (he : e ∈ dag.events) (i : ℕ)
    (v : ValidatorID) (hv : dag.validators.sortedIDs[i]? = some v) :
    ∃ x, (∀ y, Highest (past dag.events e) v y ↔ y = x) ∧
      ∀ visit : Event → List EventID, (∀ e p, p ∈ visit e ↔ p ∈ e.parents) →
        ∃ stored b, index F dag.validators visit dag.events = some stored ∧
          stored e.id = some b ∧ HasEntry b i x := by
  have hi : i < dag.validators.len := (List.getElem?_eq_some_iff.mp hv).1
  have hfork : ∀ x ∈ past dag.events e, ∀ y ∈ past dag.events e,
      x.creator = y.creator → x.seq = y.seq → x = y :=
    fun x hx y hy => dag.forkFree x (past_subset he x hx) y (past_subset he y hy)
  have hrun : ∀ visit : Event → List EventID, (∀ e p, p ∈ visit e ↔ p ∈ e.parents) →
      ∃ stored b x, index F dag.validators visit dag.events = some stored ∧
        stored e.id = some b ∧ HasEntry b i x ∧ Highest (past dag.events e) v x := by
    intro visit hvisit
    obtain ⟨stored, hstored, hrec⟩ :=
      Dag.index hF hlen hvisit (fun _ h => h) dag.parentsFirst dag.nodup
    obtain ⟨b, hb, f, hrep, hhighest⟩ := hrec e he
    exact ⟨stored, b, f i, hstored, hb, ⟨hrep.seq i hi, hrep.time i hi⟩, hhighest i v hv⟩
  -- the entry is the same for all orders, since there is only one
  obtain ⟨-, -, x, -, -, -, hx⟩ := hrun (fun e => e.parents) fun _ _ => Iff.rfl
  refine ⟨x, fun y => ⟨fun hy => hy.unique hfork hx, fun hy => hy ▸ hx⟩, fun visit hvisit => ?_⟩
  obtain ⟨stored, b, y, hstored, hb, hentry, hy⟩ := hrun visit hvisit
  exact ⟨stored, b, hstored, hb, hy.unique hfork hx ▸ hentry⟩

/-- Vectors of sequence numbers as functions, for examples. -/
def sampleVecfc : Vecfc where
  HighestBeforeSeq := UInt32 → BranchSeq
  new _ _ := ⟨0, 0⟩
  get v i := v i
  set v i s := Function.update v i s
  initWithEvent v i e := Function.update v i ⟨e.seq, e.seq⟩
  setForkDetected v i := Function.update v i ⟨0, 1⟩
  isForkDetected s := s = ⟨0, 1⟩

theorem sampleVecfc_lawful : sampleVecfc.Lawful where
  get_new _ _ := rfl
  get_set _ _ _ := Function.update_self ..
  get_set_ne _ _ _ _ h := Function.update_of_ne h ..
  initWithEvent _ _ _ := rfl
  isForkDetected_empty := rfl
  isForkDetected_pos s h := decide_eq_false fun hs => h (by rw [hs])

/-- An event of a graph, for examples. -/
def sampleNode (creator seq : UInt32) (creationTime : Timestamp) (parents : List EventID) :
    Event where
  epoch := 1
  lamport := 1
  creator := creator
  seq := seq
  frame := 1
  creationTime := creationTime
  medianTime := creationTime
  gasPowerUsed := 0
  gasPowerLeft := ⟨![0, 0]⟩
  parents := parents
  prevEpochHash := none
  txHash := copyBytes 32 []
  extra := []
  id := ⟨1, seq, copyBytes 24 [UInt8.ofNat creator.toNat]⟩
  hashToSign := copyBytes 32 []

/-- The first event of the first validator. -/
def nodeA1 : Event := sampleNode 1 1 10 []

/-- The second validator observes it. -/
def nodeB1 : Event := sampleNode 2 1 20 [nodeA1.id]

/-- The first validator observes both. -/
def nodeA2 : Event := sampleNode 1 2 30 [nodeA1.id, nodeB1.id]

/-- Two validators, one of which observes the other. -/
def sampleDag : Dag where
  validators :=
    { sortedIDs := [1, 2]
      get := fun id => if id ∈ [1, 2] then 1 else 0
      totalWeight := 2
      getIdx := fun id => id.toNat - 1
      get_eq_zero := fun _ h => if_neg h
      nodup := by decide
      getIdx_of_getElem? := by
        rintro (_ | _ | i) id h
        · cases h; rfl
        · cases h; rfl
        · cases h }
  events := [nodeA2, nodeB1, nodeA1]
  parentsFirst := by
    refine ⟨?_, ?_, ?_, trivial⟩ <;> decide
  nodup := by decide
  creator_mem := by decide
  seq_ne_zero := by decide
  forkFree := by decide

theorem vector_times_correct_nodeA2 :
    ∃ stored b, index sampleVecfc sampleDag.validators (fun e => e.parents) sampleDag.events =
        some stored ∧ stored nodeA2.id = some b ∧ HasEntry b 1 ⟨⟨1, 1⟩, 20⟩ := by
  have hmem : nodeA2 ∈ sampleDag.events := List.mem_cons_self
  obtain ⟨x, hx, hrun⟩ := vector_times_correct sampleVecfc sampleVecfc_lawful sampleDag
    (by decide) nodeA2 hmem 1 2 rfl
  have hobserved : nodeB1 ∈ past sampleDag.events nodeA2 :=
    .parent (by decide) (by decide) (.refl nodeB1)
  have honly : ∀ y ∈ sampleDag.events, y.creator = 2 →
      nodeB1.seq ≤ y.seq ∧ y.seq ≤ nodeB1.seq := by decide
  have hhighest : Highest (past sampleDag.events nodeA2) 2 ⟨⟨1, 1⟩, 20⟩ :=
    .some hobserved rfl hobserved rfl fun y hy => honly y (past_subset hmem y hy)
  rw [(hx _).mp hhighest]
  exact hrun _ fun _ _ => Iff.rfl

/-- The offset of the time behind the last one does not fit a `uint32`. -/
theorem HighestBeforeTime.set_last (b : HighestBeforeTime) (time : Timestamp) :
    b.set (UInt32.ofNat (2 ^ 29 - 1)) time = none := by
  rw [set]
  have hput : ∀ b : HighestBeforeTime, b.put (UInt32.ofNat (2 ^ 29 - 1) * 8)
      ((UInt32.ofNat (2 ^ 29 - 1) + 1) * 8) time = none :=
    fun b => if_neg fun h => absurd h.1 (by decide)
  simp only [hput]
  exact Option.bind_fun_none _

/-- The validators `1` to `n`, for examples. -/
def firstValidators (n : ℕ) (h : n < 2 ^ 32) : Validators where
  sortedIDs := (List.range n).map fun i => UInt32.ofNat (i + 1)
  get id := if 0 < id.toNat ∧ id.toNat ≤ n then 1 else 0
  totalWeight := UInt32.ofNat n
  getIdx id := id.toNat - 1
  get_eq_zero id hid := by
    refine if_neg fun hle => hid (List.mem_map.mpr ⟨id.toNat - 1, List.mem_range.mpr ?_, ?_⟩)
    · omega
    · rw [Nat.sub_add_cancel hle.1, UInt32.ofNat_toNat]
  nodup := by
    refine List.Nodup.map_on (fun i hi j hj hij => ?_) List.nodup_range
    have hi := List.mem_range.mp hi
    have hj := List.mem_range.mp hj
    have hij := congrArg UInt32.toNat hij
    rw [UInt32.toNat_ofNat_of_lt' (Nat.lt_of_le_of_lt hi h),
      UInt32.toNat_ofNat_of_lt' (Nat.lt_of_le_of_lt hj h)] at hij
    exact Nat.succ_injective hij
  getIdx_of_getElem? i id hid := by
    rw [List.getElem?_map, Option.map_eq_some_iff] at hid
    obtain ⟨j, hj, rfl⟩ := hid
    obtain ⟨hlt, rfl⟩ := List.getElem?_eq_some_iff.mp hj
    rw [List.length_range] at hlt
    rw [List.getElem_range, UInt32.toNat_ofNat_of_lt' (Nat.lt_of_le_of_lt hlt h)]
    rfl

theorem len_firstValidators {n : ℕ} (h : n < 2 ^ 32) : (firstValidators n h).len = n :=
  (List.length_map _).trans List.length_range

theorem mem_firstValidators {n i : ℕ} (h : n < 2 ^ 32) (hi : i < n) :
    UInt32.ofNat (i + 1) ∈ (firstValidators n h).sortedIDs :=
  List.mem_map_of_mem (List.mem_range.mpr hi)

/-- The first event of the last one of `2 ^ 29` validators. -/
def lastNode : Event := sampleNode (UInt32.ofNat (2 ^ 29 - 1 + 1)) 1 10 []

/-- So many that offsets into the times wrap. -/
def crowdedDag : Dag where
  validators := firstValidators (2 ^ 29) (by decide)
  events := [lastNode]
  parentsFirst := ⟨List.forall_mem_nil _, trivial⟩
  nodup := List.nodup_singleton _
  creator_mem e he := by
    obtain rfl := List.mem_singleton.mp he
    exact mem_firstValidators _ (by decide)
  seq_ne_zero e he := by
    obtain rfl := List.mem_singleton.mp he
    exact (by decide : lastNode.seq ≠ 0)
  forkFree e he e' he' _ _ := by
    rw [List.mem_singleton.mp he, List.mem_singleton.mp he']

/-- With `2 ^ 29` validators, no vector is computed. -/
theorem vector_index_panics :
    ∃ dag : Dag, dag.validators.len = 2 ^ 29 ∧ sampleVecfc.Lawful ∧
      index sampleVecfc dag.validators (fun e => e.parents) dag.events = none := by
  refine ⟨crowdedDag, ?_, sampleVecfc_lawful, ?_⟩
  · exact len_firstValidators (by decide)
  · have hidx : crowdedDag.validators.getIdx lastNode.creator = 2 ^ 29 - 1 := by decide
    have hinit : ∀ b : HighestBefore sampleVecfc,
        b.initWithEvent (UInt32.ofNat (2 ^ 29 - 1)) lastNode = none := by
      intro b
      rw [HighestBefore.initWithEvent, HighestBeforeTime.set_last]
      rfl
    have hevents : crowdedDag.events = [lastNode] := rfl
    rw [hevents, index, index, Option.bind_eq_bind, Option.bind_some, calcBefore, hidx, hinit]
    rfl

end Zilionixx.Vecmt
