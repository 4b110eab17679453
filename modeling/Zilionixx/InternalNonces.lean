import Zilionixx.BlockRun
import Zilionixx.StateTransition

/-!
# The nonces of internal transactions

`internalTxBuilder` asks the state for the nonce of the zero address once for a batch, and then
counts on its own, while nobody checks the nonce of an internal message. Along a run from genesis
the nonces increase all the same, as the state counts at least as fast. They are the nonces of the
state if an execution leaves the nonce of its sender alone.
-/

namespace Zilionixx

/-! ## When transactions are executed -/

/-- The moment at which a transaction is applied. -/
structure Moment where
  tx : BlockTx
  internal : Bool
  /-- the nonce of the zero address in the state -/
  nonce : UInt64
  /-- whether there is a receipt, or the transaction is skipped -/
  executed : Bool

/-- `Process`: the moments of the transactions, from an index on. -/
def moments (W : World) {T : Transition} (ctx : BlockCtx) (net : Rules) (internal : Bool) :
    List BlockTx → ℕ → Processing T → List Moment
  | [], _, _ => []
  | tx :: txs, i, s =>
    match applyTransaction W ctx net internal s i tx with
    | none => []
    | some s' =>
      { tx := tx
        internal := internal
        nonce := T.nonce s.statedb
        executed := s.receipts.length < s'.receipts.length } ::
          moments W ctx net internal txs (i + 1) s'

namespace EvmProcessor

variable {T : Transition}

/-- The variables with which `Execute` begins. -/
def processing (p : EvmProcessor T) : Processing T where
  statedb := p.statedb
  gp := maxUint64
  usedGas := p.gasUsed
  receipts := []
  allLogs := []
  skipped := []

/-- `Execute`: the moments of the transactions -/
def moments (W : World) (p : EvmProcessor T) (txs : List BlockTx) (internal : Bool) :
    List Moment :=
  Zilionixx.moments W p.block p.net internal txs 0 p.processing

/-- A sequence of `Execute` calls: the moments of the transactions. -/
def replay (W : World) : EvmProcessor T → List (List BlockTx × Bool) → List Moment
  | _, [] => []
  | p, (txs, internal) :: batches =>
    match p.execute W txs internal with
    | none => []
    | some (p', _, _) => p.moments W txs internal ++ replay W p' batches

end EvmProcessor

/-- The batches that `EndBlock` executes. -/
def ProcessedBlock.batches (block : ProcessedBlock) : List (List BlockTx × Bool) :=
  [(block.preInternalTxs.map .internal, true), (block.internalTxs.map .internal, true),
    ((block.blockEvents.flatMap fun x => x.2.txs).map .event, false)]

/-- `applyEpoch1Genesis`: the internal transactions, batch by batch. -/
def genesisBatches (W : World) (evm : Evm) (applyEvmGenesis : Genesis → Hash → Option Hash)
    (g : Genesis) : Option (List (List InternalTx)) := do
  let (root, bs, es) ← applyEpoch0Genesis applyEvmGenesis g
  let statedb ← evm.stateDB root
  let ctx : BlockCtx := ⟨bs.lastBlock.idx + 1, g.time, EventID.zero⟩
  let state := evm.start ctx es.rules statedb
  -- execute genesis-internal transactions
  let genesisInternalTxs ← popGenesisInternalTxs g es (evm.nonce state)
  let (state, bs) ← executeTxs W evm state (genesisInternalTxs.map .internal) true bs
  -- execute pre-internal transactions
  let (bs, preInternalTxs) ← popPreInternalTxs ctx bs es true (evm.nonce state)
  let (state, bs) ← executeTxs W evm state (preInternalTxs.map .internal) true bs
  -- seal the epoch
  let (_, es) ← Sealer.sealEpoch W.builder ctx bs es
  pure [genesisInternalTxs, preInternalTxs, popPostInternalTxs es true (evm.nonce state)]

/-- The runs from genesis: the stored states, the internal transactions that were built, and the
moments of all transactions. -/
inductive ChainRun (W : World) (T : Transition) :
    BlockState → EpochState → List InternalTx → List Moment → Prop where
  | genesis {atroposOf : UInt64 → Option EventID} {applyEvmGenesis : Genesis → Hash → Option Hash}
      {g : Genesis} {root : Hash} {bs₀ bs : BlockState} {es₀ es : EpochState} {statedb : T.StateDB}
      {batches : List (List InternalTx)}
      (epoch0 : applyEpoch0Genesis applyEvmGenesis g = some (root, bs₀, es₀))
      (opened : T.stateDB root = some statedb)
      (built : genesisBatches W (evmModule W T atroposOf) applyEvmGenesis g = some batches)
      (applied : applyEpoch1Genesis W (evmModule W T atroposOf) applyEvmGenesis g = some (bs, es)) :
      ChainRun W T bs es batches.flatten
        ((EvmProcessor.start atroposOf ⟨bs₀.lastBlock.idx + 1, g.time, EventID.zero⟩ es₀.rules
          statedb).replay W (batches.map fun txs => (txs.map .internal, true)))
  | skip {bs bs' : BlockState} {es es' : EpochState} {txs : List InternalTx}
      {history : List Moment} {atroposOf : UInt64 → Option EventID} {cBlock : ConsensusBlock}
      {events : List Event} {getEventPayload : EventID → Option EventPayload}
      (before : ChainRun W T bs es txs history)
      (step : step W bs es ⟨cBlock, events, evmModule W T atroposOf, getEventPayload⟩ =
        some ((bs', es'), .skipped)) : ChainRun W T bs' es' txs history
  | block {bs bs' : BlockState} {es es' : EpochState} {txs : List InternalTx}
      {history : List Moment} {atroposOf : UInt64 → Option EventID} {cBlock : ConsensusBlock}
      {events : List Event} {getEventPayload : EventID → Option EventPayload}
      {statedb : T.StateDB} {block : ProcessedBlock}
      (before : ChainRun W T bs es txs history)
      (opened : T.stateDB bs.finalizedStateRoot = some statedb)
      (step : step W bs es ⟨cBlock, events, evmModule W T atroposOf, getEventPayload⟩ =
        some ((bs', es'), .processed block)) :
      ChainRun W T bs' es' (txs ++ (block.preInternalTxs ++ block.internalTxs))
        (history ++ (EvmProcessor.start atroposOf block.ctx es.rules statedb).replay W
          block.batches)

/-! ## Nonces in order -/

/-- The internal transaction of a moment. -/
def Moment.internalTx? (m : Moment) : Option InternalTx :=
  match m.tx with
  | .internal tx => some tx
  | .event _ => none

theorem Moment.tx_eq_of_internalTx? {m : Moment} {tx : InternalTx} (h : m.internalTx? = some tx) :
    m.tx = .internal tx := by
  unfold internalTx? at h
  split at h
  · rename_i tx' htx
    cases h
    exact htx
  · cases h

/-- The internal transactions have increasing nonces below a bound, and each nonce is related to
that of the state. -/
structure Ordered (r : UInt64 → UInt64 → Prop) (history : List Moment) (txs : List InternalTx)
    (bound : UInt64) : Prop where
  txs_eq : history.filterMap Moment.internalTx? = txs
  increasing : (txs.map InternalTx.nonce).Pairwise (· < ·)
  lt_bound : ∀ tx ∈ txs, tx.nonce < bound
  related : ∀ m ∈ history, ∀ tx, m.tx = .internal tx → r tx.nonce m.nonce

section

variable {r : UInt64 → UInt64 → Prop} {history : List Moment} {txs : List InternalTx}
  {bound bound' : UInt64} {m : Moment}

theorem Ordered.nil (r : UInt64 → UInt64 → Prop) : Ordered r [] [] 0 :=
  ⟨rfl, .nil, List.forall_mem_nil _, List.forall_mem_nil _⟩

theorem Ordered.mono (h : Ordered r history txs bound) (hle : bound ≤ bound') :
    Ordered r history txs bound' :=
  ⟨h.txs_eq, h.increasing, fun tx htx => UInt64.lt_of_lt_of_le (h.lt_bound tx htx) hle, h.related⟩

/-- A transaction of an event. -/
theorem Ordered.event (h : Ordered r history txs bound) {tx : Transaction} (hm : m.tx = .event tx) :
    Ordered r (history ++ [m]) txs bound := by
  refine ⟨?_, h.increasing, h.lt_bound, ?_⟩
  · have hnone : [m].filterMap Moment.internalTx? = [] := by
      rw [List.filterMap_cons_none, List.filterMap_nil]
      rw [Moment.internalTx?, hm]
    rw [List.filterMap_append, hnone, List.append_nil, h.txs_eq]
  · intro m' hm' tx' htx'
    rcases List.mem_append.mp hm' with hm' | hm'
    · exact h.related m' hm' tx' htx'
    · rw [List.mem_singleton.mp hm', hm] at htx'
      cases htx'

/-- An internal transaction with the next nonce. -/
theorem Ordered.internal (h : Ordered r history txs bound) {tx : InternalTx}
    (hm : m.tx = .internal tx) (hnonce : tx.nonce = bound) (hbound : bound ≠ maxUint64)
    (hr : r bound m.nonce) : Ordered r (history ++ [m]) (txs ++ [tx]) (bound + 1) := by
  have hlt : bound < bound + 1 := VM.lt_add_one_of_ne_maxUint64 hbound
  refine ⟨?_, ?_, ?_, ?_⟩
  · have hsome : [m].filterMap Moment.internalTx? = [tx] := by
      rw [List.filterMap_cons_some, List.filterMap_nil]
      rw [Moment.internalTx?, hm]
    rw [List.filterMap_append, hsome, h.txs_eq]
  · rw [List.map_append, List.pairwise_append]
    refine ⟨h.increasing, List.pairwise_singleton _ _, ?_⟩
    intro a ha b hb
    obtain ⟨tx', htx', rfl⟩ := List.mem_map.mp ha
    rw [List.map_singleton, List.mem_singleton] at hb
    rw [hb, hnonce]
    exact h.lt_bound tx' htx'
  · intro tx' htx'
    rcases List.mem_append.mp htx' with htx' | htx'
    · exact UInt64.lt_trans (h.lt_bound tx' htx') hlt
    · rw [List.mem_singleton.mp htx', hnonce]
      exact hlt
  · intro m' hm' tx' htx'
    rcases List.mem_append.mp hm' with hm' | hm'
    · exact h.related m' hm' tx' htx'
    · rw [List.mem_singleton.mp hm', hm] at htx'
      cases htx'
      rw [List.mem_singleton.mp hm', hnonce]
      exact hr

end

/-! ## What is assumed of the execution -/

namespace VM

variable {V : VM}

/-- Nothing lowers the nonce of an account, as long as there is a next one. -/
structure NeverLowers (V : VM) (a : Address) : Prop where
  call_le : ∀ ctx net msg gas s, V.getNonce s a ≤ V.getNonce (V.call ctx net msg gas s).1 a
  create_le : ∀ ctx net msg gas s, V.getNonce s a ≠ maxUint64 →
    V.getNonce s a ≤ V.getNonce (V.create ctx net msg gas s).1 a
  nonce_finalise : ∀ s, V.getNonce (V.finalise s) a = V.getNonce s a
  nonce_commit : ∀ s root s', V.commit s = some root → V.stateDB root = some s' →
    V.getNonce s' a = V.getNonce s a

/-- A call of an account leaves its nonce alone. -/
def LeavesAlone (V : VM) (a : Address) : Prop :=
  ∀ ctx net msg gas s, msg.sender = a →
    V.getNonce (V.call ctx net msg gas s).1 a = V.getNonce s a

variable {ctx : BlockCtx} {net : Rules} {msg : Message} {gas : UInt64} {s : V.StateDB} {a : Address}
  {W : World} {internal : Bool} {tx : BlockTx} {i : ℕ} {p p' : Processing V.transition}

theorem add_one_le_add_one {n n' : UInt64} (hle : n ≤ n') (hmax : n' ≠ maxUint64) :
    n + 1 ≤ n' + 1 := by
  have hne : n'.toNat ≠ 2 ^ 64 - 1 := fun heq => hmax (UInt64.toNat_inj.mp heq)
  have hlt := n'.toNat_lt
  rw [UInt64.le_iff_toNat_le] at hle ⊢
  rw [UInt64.toNat_add, UInt64.toNat_add, UInt64.toNat_one, Nat.mod_eq_of_lt (by omega),
    Nat.mod_eq_of_lt (by omega)]
  omega

theorem NeverLowers.le_execute (keeps : V.NeverLowers a) (laws : V.Laws)
    (hmax : V.getNonce s a ≠ maxUint64) :
    V.getNonce s a ≤ V.getNonce (V.execute ctx net msg gas s).1 a := by
  rw [← laws.nonce_setUpAccessList net msg] at hmax ⊢
  unfold execute
  cases msg.toAddress with
  | none => exact keeps.create_le _ _ _ _ _ hmax
  | some _ =>
    refine UInt64.le_trans ?_ (keeps.call_le _ _ _ _ _)
    rw [laws.nonce_setNonce]
    split
    · rename_i hsender
      rw [← hsender]
      exact UInt64.le_of_lt (lt_add_one_of_ne_maxUint64 hmax)
    · exact UInt64.le_refl _

/-- A transaction that is applied, executed or not. -/
theorem NeverLowers.le_applyTransaction (keeps : V.NeverLowers a) (laws : V.Laws)
    (hmax : V.getNonce p.statedb a ≠ maxUint64)
    (h : applyTransaction W ctx net internal p i tx = some p') :
    V.getNonce p.statedb a ≤ V.getNonce p'.statedb a :=
  laws.le_applied keeps.nonce_finalise (fun _ _ _ => keeps.le_execute laws) hmax h

/-- An internal transaction that is executed is a call of the zero address, after its nonce is
incremented. -/
theorem NeverLowers.applyTransaction_internal (keeps : V.NeverLowers zeroAddress) (laws : V.Laws)
    {tx : InternalTx} (h : applyTransaction W ctx net true p i (.internal tx) = some p')
    (hexecuted : p.receipts.length < p'.receipts.length) :
    ∃ msg gas s, msg.sender = zeroAddress ∧
      V.getNonce s zeroAddress = V.getNonce p.statedb zeroAddress + 1 ∧
      V.getNonce p'.statedb zeroAddress =
        V.getNonce (V.call ctx net msg gas s).1 zeroAddress := by
  obtain ⟨msg, hmsg, ⟨hskipped, -⟩ | ⟨-, gas, amount, hstate⟩⟩ := applyTransaction_cases h
  · rw [hskipped] at hexecuted
    exact absurd hexecuted (Nat.lt_irrefl _)
  · cases hmsg
    rw [hstate, keeps.nonce_finalise, laws.nonce_addBalance, execute]
    refine ⟨_, gas, _, rfl, ?_, rfl⟩
    rw [laws.nonce_setNonce, if_pos rfl, laws.nonce_setUpAccessList, laws.nonce_subBalance]

/-- A relation of a nonce to that of the state which stays while both are incremented. -/
structure Tracks (V : VM) (r : UInt64 → UInt64 → Prop) : Prop where
  refl : ∀ n, r n n
  le : ∀ n n', r n n' → n ≤ n'
  next : ∀ ctx net msg gas s n n', msg.sender = zeroAddress → r n n' → n' ≠ maxUint64 →
    V.getNonce s zeroAddress = n' + 1 →
      r (n + 1) (V.getNonce (V.call ctx net msg gas s).1 zeroAddress)

theorem NeverLowers.tracks (keeps : V.NeverLowers zeroAddress) : V.Tracks (· ≤ ·) where
  refl n := UInt64.le_refl n
  le n n' h := h
  next ctx net msg gas s n n' _ hle hmax hs := by
    refine UInt64.le_trans ?_ (keeps.call_le ctx net msg gas s)
    rw [hs]
    exact add_one_le_add_one hle hmax

theorem LeavesAlone.tracks (alone : V.LeavesAlone zeroAddress) : V.Tracks (· = ·) where
  refl n := rfl
  le n n' h := UInt64.le_of_eq h
  next ctx net msg gas s n n' hsender heq _ hs := by
    rw [alone ctx net msg gas s hsender, hs, heq]

end VM

/-! ## Batches -/

section

open VM

variable {W : World} {V : VM} {ctx : BlockCtx} {net : Rules} {r : UInt64 → UInt64 → Prop}
  {history : List Moment} {txs : List InternalTx} {i : ℕ} {q q' : Processing V.transition}

/-- All internal transactions are executed, and there is a next nonce whenever a transaction is
applied. -/
structure Sound (history : List Moment) : Prop where
  executed : ∀ m ∈ history, m.internal = true → m.executed = true
  nonce_ne : ∀ m ∈ history, m.nonce ≠ maxUint64

instance (history : List Moment) : Decidable (Sound history) :=
  decidable_of_iff
    ((∀ m ∈ history, m.internal = true → m.executed = true) ∧ ∀ m ∈ history, m.nonce ≠ maxUint64)
    ⟨fun h => ⟨h.1, h.2⟩, fun h => ⟨h.executed, h.nonce_ne⟩⟩

theorem Sound.append_left {history history' : List Moment} (h : Sound (history ++ history')) :
    Sound history :=
  ⟨fun m hm => h.executed m (List.mem_append_left _ hm),
    fun m hm => h.nonce_ne m (List.mem_append_left _ hm)⟩

theorem Sound.append_right {history history' : List Moment} (h : Sound (history ++ history')) :
    Sound history' :=
  ⟨fun m hm => h.executed m (List.mem_append_right _ hm),
    fun m hm => h.nonce_ne m (List.mem_append_right _ hm)⟩

theorem moments_cons {T : Transition} {internal : Bool} {s s' : Processing T} {tx : BlockTx}
    (h : applyTransaction W ctx net internal s i tx = some s') (txs : List BlockTx) :
    moments W ctx net internal (tx :: txs) i s =
      [⟨tx, internal, T.nonce s.statedb, s.receipts.length < s'.receipts.length⟩] ++
        moments W ctx net internal txs (i + 1) s' := by
  rw [moments, h]
  rfl

/-- A batch of transactions of events. -/
theorem Ordered.events (keeps : V.NeverLowers zeroAddress) (laws : V.Laws)
    {events : List Transaction} {bound : UInt64} (h : Ordered r history txs bound)
    (hbound : bound ≤ V.getNonce q.statedb zeroAddress)
    (hrun : process W ctx net false (events.map .event) i q = some q')
    (hsound : Sound (moments W ctx net false (events.map .event) i q)) :
    Ordered r (history ++ moments W ctx net false (events.map .event) i q) txs bound ∧
      bound ≤ V.getNonce q'.statedb zeroAddress := by
  induction events generalizing i q history with
  | nil =>
    cases hrun
    rw [List.map_nil, moments, List.append_nil]
    exact ⟨h, hbound⟩
  | cons tx events ih =>
    obtain ⟨q₁, hstep, hrun⟩ := Option.bind_eq_some_iff.mp hrun
    rw [List.map_cons, moments_cons hstep] at hsound ⊢
    rw [← List.append_assoc]
    have hmax := hsound.append_left.nonce_ne _ (List.mem_singleton_self _)
    exact ih (h.event rfl)
      (UInt64.le_trans hbound (keeps.le_applyTransaction laws hmax hstep)) hrun hsound.append_right

theorem ne_maxUint64_of_le {n n' : UInt64} (hle : n ≤ n') (h : n' ≠ maxUint64) : n ≠ maxUint64 := by
  rintro rfl
  have hlast : n' ≤ maxUint64 := UInt64.le_iff_toNat_le.mpr (Nat.le_of_lt_succ n'.toNat_lt)
  exact h (UInt64.le_antisymm hlast hle)

/-- The first of some moments. -/
theorem Sound.first_ne {T : Transition} {internal : Bool} {s s' : Processing T} {tx : BlockTx}
    {txs : List BlockTx} (hsound : Sound (moments W ctx net internal (tx :: txs) i s))
    (hrun : process W ctx net internal (tx :: txs) i s = some s') :
    T.nonce s.statedb ≠ maxUint64 := by
  obtain ⟨s₁, hstep, -⟩ := Option.bind_eq_some_iff.mp hrun
  rw [moments_cons hstep] at hsound
  exact hsound.append_left.nonce_ne _ (List.mem_singleton_self _)

/-- A batch of internal transactions, of which the first one is to have the nonce `bound`. The
nonce that stands for none does not come up: the state would have come to it first. -/
theorem Ordered.internals (tracks : V.Tracks r) (keeps : V.NeverLowers zeroAddress) (laws : V.Laws)
    {calls : List DriverCall} {stateNonce nonce bound : UInt64}
    (h : Ordered r history txs bound)
    (hnonce : calls ≠ [] → bound = if nonce = maxUint64 then stateNonce else nonce)
    (hbound : r bound (V.getNonce q.statedb zeroAddress))
    (hrun : process W ctx net true ((internalTxBuilder stateNonce nonce calls).map .internal) i q =
      some q')
    (hsound : Sound (moments W ctx net true
      ((internalTxBuilder stateNonce nonce calls).map .internal) i q)) :
    ∃ bound', Ordered r (history ++ moments W ctx net true
        ((internalTxBuilder stateNonce nonce calls).map .internal) i q)
        (txs ++ internalTxBuilder stateNonce nonce calls) bound' ∧
      r bound' (V.getNonce q'.statedb zeroAddress) := by
  induction calls generalizing nonce bound i q history txs with
  | nil =>
    cases hrun
    rw [internalTxBuilder, List.map_nil, moments, List.append_nil, List.append_nil]
    exact ⟨bound, h, hbound⟩
  | cons call calls ih =>
    have hbuilt : internalTxBuilder stateNonce nonce (call :: calls) =
        ⟨bound, call⟩ :: internalTxBuilder stateNonce (bound + 1) calls := by
      rw [internalTxBuilder, ← hnonce (List.cons_ne_nil _ _)]
    rw [hbuilt, List.map_cons] at hrun hsound ⊢
    have hmax := hsound.first_ne hrun
    obtain ⟨q₁, hstep, hrun⟩ := Option.bind_eq_some_iff.mp hrun
    rw [moments_cons hstep] at hsound ⊢
    have hfirst := hsound.append_left.executed _ (List.mem_singleton_self _) rfl
    have hrest := hsound.append_right
    obtain ⟨msg, gas, s, hsender, hs, hcall⟩ :=
      keeps.applyTransaction_internal laws hstep (of_decide_eq_true hfirst)
    have hbound₁ : r (bound + 1) (V.getNonce q₁.statedb zeroAddress) := by
      rw [hcall]
      exact tracks.next ctx net msg gas s bound _ hsender hbound hmax hs
    have hnonce₁ : calls ≠ [] →
        bound + 1 = if bound + 1 = maxUint64 then stateNonce else bound + 1 := by
      intro hcalls
      obtain ⟨call', calls', rfl⟩ := List.exists_cons_of_ne_nil hcalls
      rw [internalTxBuilder, List.map_cons] at hrest hrun
      exact (if_neg (ne_maxUint64_of_le (tracks.le _ _ hbound₁) (hrest.first_ne hrun))).symm
    rw [← List.append_assoc, List.append_cons txs]
    refine ih ?_ hnonce₁ hbound₁ hrun hrest
    exact h.internal rfl rfl (ne_maxUint64_of_le (tracks.le _ _ hbound) hmax) hbound

variable {p p' : EvmProcessor V.transition} {logs : List Log} {receipts : List Receipt}
  {bound : UInt64}

theorem execute_eq_some {T : Transition} {p p' : EvmProcessor T} {batch : List BlockTx}
    {internal : Bool} (h : p.execute W batch internal = some (p', logs, receipts)) :
    ∃ s, process W p.block p.net internal batch 0 p.processing = some s ∧
      p'.statedb = s.statedb := by
  obtain ⟨evmBlock, hblock, h⟩ := Option.bind_eq_some_iff.mp h
  obtain ⟨prev, -, hblock⟩ := Option.bind_eq_some_iff.mp hblock
  cases hblock
  obtain ⟨s, hprocess, h⟩ := Option.bind_eq_some_iff.mp h
  cases h
  exact ⟨s, hprocess, rfl⟩

/-- `Execute` of a batch that was built from the state. -/
theorem Ordered.executeInternals (tracks : V.Tracks r) (keeps : V.NeverLowers zeroAddress)
    (laws : V.Laws) {calls : List DriverCall} {batch : List InternalTx}
    (h : Ordered r history txs bound) (hbound : bound ≤ V.getNonce p.statedb zeroAddress)
    (hbuilt : batch = internalTxBuilder (V.getNonce p.statedb zeroAddress) maxUint64 calls)
    (hexecute : p.execute W (batch.map .internal) true = some (p', logs, receipts))
    (hsound : Sound (p.moments W (batch.map .internal) true)) :
    ∃ bound', Ordered r (history ++ p.moments W (batch.map .internal) true) (txs ++ batch) bound' ∧
      bound' ≤ V.getNonce p'.statedb zeroAddress := by
  subst hbuilt
  obtain ⟨s, hprocess, hstate⟩ := execute_eq_some hexecute
  obtain ⟨bound', hordered, hbound'⟩ := (h.mono hbound).internals tracks keeps laws
    (fun _ => (if_pos rfl).symm) (tracks.refl _) hprocess hsound
  rw [hstate]
  exact ⟨bound', hordered, tracks.le _ _ hbound'⟩

/-- `Execute` of the transactions of events. -/
theorem Ordered.executeEvents (keeps : V.NeverLowers zeroAddress) (laws : V.Laws)
    {events : List Transaction} (h : Ordered r history txs bound)
    (hbound : bound ≤ V.getNonce p.statedb zeroAddress)
    (hexecute : p.execute W (events.map .event) false = some (p', logs, receipts))
    (hsound : Sound (p.moments W (events.map .event) false)) :
    Ordered r (history ++ p.moments W (events.map .event) false) txs bound ∧
      bound ≤ V.getNonce p'.statedb zeroAddress := by
  obtain ⟨s, hprocess, hstate⟩ := execute_eq_some hexecute
  rw [hstate]
  exact h.events keeps laws hbound hprocess hsound

end

/-! ## Blocks -/

section

variable {W : World} {T : Transition} {atroposOf : UInt64 → Option EventID} {bs bs' : BlockState}
  {es es' : EpochState}

theorem popPreInternalTxs_built {ctx : BlockCtx} {sealing : Bool} {nonce : UInt64}
    {txs : List InternalTx} (h : popPreInternalTxs ctx bs es sealing nonce = some (bs', txs)) :
    ∃ calls, txs = internalTxBuilder nonce maxUint64 calls := by
  obtain ⟨⟨states, calls⟩, -, h⟩ := Option.bind_eq_some_iff.mp h
  obtain ⟨sealCalls, -, h⟩ := Option.bind_eq_some_iff.mp h
  cases h
  exact ⟨calls ++ sealCalls, rfl⟩

theorem popGenesisInternalTxs_built {g : Genesis} {nonce : UInt64} {txs : List InternalTx}
    (h : popGenesisInternalTxs g es nonce = some txs) :
    ∃ calls, txs = internalTxBuilder nonce maxUint64 calls := by
  rw [popGenesisInternalTxs] at h
  obtain ⟨-, h⟩ := Option.ite_none_right_eq_some.mp h
  exact ⟨_, (Option.some.inj h).symm⟩

theorem commit_of_finalize {p : EvmProcessor T} {evmBlock : EvmBlock} {skippedTxs : List UInt32}
    {receipts : List Receipt} (h : p.finalize = some (evmBlock, skippedTxs, receipts)) :
    T.commit p.statedb = some evmBlock.root := by
  obtain ⟨block, -, h⟩ := Option.bind_eq_some_iff.mp h
  obtain ⟨root, hcommit, h⟩ := Option.bind_eq_some_iff.mp h
  cases h
  exact hcommit

/-- A batch that is built from the state of a processor, and executed. -/
def Executes (W : World) (p : EvmProcessor T) (batch : List InternalTx) (p' : EvmProcessor T) :
    Prop :=
  (∃ calls, batch = internalTxBuilder (T.nonce p.statedb) maxUint64 calls) ∧
    ∃ logs receipts, p.execute W (batch.map .internal) true = some (p', logs, receipts)

/-- What a block executes, and the root it leaves. -/
theorem step_executes {cBlock : ConsensusBlock} {events : List Event}
    {getEventPayload : EventID → Option EventPayload} {block : ProcessedBlock}
    (h : step W bs es ⟨cBlock, events, evmModule W T atroposOf, getEventPayload⟩ =
      some ((bs', es'), .processed block)) :
    ∃ statedb p₁ p₂ p₃ logs receipts,
      T.stateDB bs.finalizedStateRoot = some statedb ∧
      Executes W (EvmProcessor.start atroposOf block.ctx es.rules statedb) block.preInternalTxs p₁ ∧
      Executes W p₁ block.internalTxs p₂ ∧
      p₂.execute W ((block.blockEvents.flatMap fun x => x.2.txs).map .event) false =
        some (p₃, logs, receipts) ∧
      T.commit p₃.statedb = some bs'.finalizedStateRoot := by
  obtain ⟨bs₀, hbs, h⟩ := Option.bind_eq_some_iff.mp h
  obtain ⟨es₀, hes, h⟩ := Option.bind_eq_some_iff.mp h
  obtain ⟨state₀, hdb, h⟩ := Option.bind_eq_some_iff.mp h
  obtain ⟨p, hevents, h⟩ := Option.bind_eq_some_iff.mp h
  obtain ⟨bs₁, -, hend⟩ := Option.bind_eq_some_iff.mp h
  obtain rfl := BlockState.copy_eq_some hbs
  obtain rfl := EpochState.copy_eq_some hes
  obtain ⟨statedb, hopened, rfl⟩ := Option.map_eq_some_iff.mp hdb
  rw [(applied_beginBlock.applyEvents hevents).es_eq] at hend
  split at hend
  · obtain ⟨states, -, hend⟩ := Option.bind_eq_some_iff.mp hend
    cases hend
  obtain ⟨⟨states, block'⟩, hprocess, hend⟩ := Option.bind_eq_some_iff.mp hend
  cases hend
  -- `processBlock`
  obtain ⟨⟨bs₂, pre⟩, hpre, hprocess⟩ := Option.bind_eq_some_iff.mp hprocess
  obtain ⟨⟨state₃, bs₃⟩, hexecute, hprocess⟩ := Option.bind_eq_some_iff.mp hprocess
  obtain ⟨⟨bs₄, es₄⟩, -, hprocess⟩ := Option.bind_eq_some_iff.mp hprocess
  obtain ⟨p₁, logs₁, receipts₁, hfirst, rfl⟩ := executeTxs_eq_some hexecute
  -- `blockFn`
  obtain ⟨⟨state₅, bs₅⟩, hinternal, hprocess⟩ := Option.bind_eq_some_iff.mp hprocess
  obtain ⟨blockEvents, -, hprocess⟩ := Option.bind_eq_some_iff.mp hprocess
  obtain ⟨⟨state₆, bs₆⟩, hexternal, hprocess⟩ := Option.bind_eq_some_iff.mp hprocess
  obtain ⟨p₂, logs₂, receipts₂, hsecond, rfl⟩ := executeTxs_eq_some hinternal
  obtain ⟨p₃, logs₃, receipts₃, hthird, rfl⟩ := executeTxs_eq_some hexternal
  obtain ⟨⟨evmBlock, skippedTxs, receipts⟩, hfinalize, hprocess⟩ :=
    Option.bind_eq_some_iff.mp hprocess
  obtain ⟨bs₇, -, hprocess⟩ := Option.bind_eq_some_iff.mp hprocess
  obtain ⟨⟨bs₈, es₈⟩, hstore, hprocess⟩ := Option.bind_eq_some_iff.mp hprocess
  obtain ⟨rfl, rfl⟩ := setBlockEpochState_eq_some hstore
  cases hprocess
  exact ⟨statedb, p₁, p₂, p₃, logs₃, receipts₃, hopened,
    ⟨popPreInternalTxs_built hpre, _, _, hfirst⟩, ⟨⟨_, rfl⟩, _, _, hsecond⟩, hthird,
    commit_of_finalize hfinalize⟩

/-- What genesis executes, and the root it leaves. -/
theorem genesis_executes {applyEvmGenesis : Genesis → Hash → Option Hash} {g : Genesis}
    (happlied : applyEpoch1Genesis W (evmModule W T atroposOf) applyEvmGenesis g = some (bs, es)) :
    ∃ root bs₀ es₀ statedb p₁ p₂ p₃ first second third,
      applyEpoch0Genesis applyEvmGenesis g = some (root, bs₀, es₀) ∧
      T.stateDB root = some statedb ∧
      genesisBatches W (evmModule W T atroposOf) applyEvmGenesis g = some [first, second, third] ∧
      Executes W (EvmProcessor.start atroposOf ⟨bs₀.lastBlock.idx + 1, g.time, EventID.zero⟩
        es₀.rules statedb) first p₁ ∧
      Executes W p₁ second p₂ ∧ Executes W p₂ third p₃ ∧
      T.commit p₃.statedb = some bs.finalizedStateRoot := by
  obtain ⟨⟨root, bs₀, es₀⟩, hepoch0, h⟩ := Option.bind_eq_some_iff.mp happlied
  obtain ⟨state₀, hdb, h⟩ := Option.bind_eq_some_iff.mp h
  obtain ⟨first, hgenesis, h⟩ := Option.bind_eq_some_iff.mp h
  obtain ⟨⟨state₁, bs₁⟩, hexecute₁, h⟩ := Option.bind_eq_some_iff.mp h
  obtain ⟨⟨bs₂, second⟩, hpre, h⟩ := Option.bind_eq_some_iff.mp h
  obtain ⟨⟨state₂, bs₃⟩, hexecute₂, h⟩ := Option.bind_eq_some_iff.mp h
  obtain ⟨⟨bs₄, es₄⟩, hseal, h⟩ := Option.bind_eq_some_iff.mp h
  -- `finishGenesis`
  obtain ⟨⟨state₃, bs₅⟩, hexecute₃, h⟩ := Option.bind_eq_some_iff.mp h
  obtain ⟨⟨evmBlock, skippedTxs, receipts⟩, hfinalize, hend⟩ := Option.bind_eq_some_iff.mp h
  have hbatches : genesisBatches W (evmModule W T atroposOf) applyEvmGenesis g =
      some [first, second, popPostInternalTxs es₄ true ((evmModule W T atroposOf).nonce state₂)] :=
    Option.bind_eq_some_iff.mpr ⟨_, hepoch0, Option.bind_eq_some_iff.mpr ⟨_, hdb,
      Option.bind_eq_some_iff.mpr ⟨_, hgenesis, Option.bind_eq_some_iff.mpr ⟨_, hexecute₁,
        Option.bind_eq_some_iff.mpr ⟨_, hpre, Option.bind_eq_some_iff.mpr ⟨_, hexecute₂,
          Option.bind_eq_some_iff.mpr ⟨_, hseal, rfl⟩⟩⟩⟩⟩⟩⟩
  obtain ⟨statedb, hopened, rfl⟩ := Option.map_eq_some_iff.mp hdb
  obtain ⟨p₁, logs₁, receipts₁, hfirst, rfl⟩ := executeTxs_eq_some hexecute₁
  obtain ⟨p₂, logs₂, receipts₂, hsecond, rfl⟩ := executeTxs_eq_some hexecute₂
  obtain ⟨p₃, logs₃, receipts₃, hthird, rfl⟩ := executeTxs_eq_some hexecute₃
  refine ⟨root, bs₀, es₀, statedb, p₁, p₂, p₃, _, _, _, hepoch0, hopened, hbatches,
    ⟨popGenesisInternalTxs_built hgenesis, _, _, hfirst⟩,
    ⟨popPreInternalTxs_built hpre, _, _, hsecond⟩, ⟨⟨_, rfl⟩, _, _, hthird⟩, ?_⟩
  dsimp only at hend
  split at hend
  · cases hend
  · obtain ⟨rfl, rfl⟩ := setBlockEpochState_eq_some hend
    exact commit_of_finalize hfinalize

/-- The moments of a sequence of batches. -/
theorem replay_cons {p p' : EvmProcessor T} {txs : List BlockTx} {internal : Bool} {logs : List Log}
    {receipts : List Receipt} (h : p.execute W txs internal = some (p', logs, receipts))
    (batches : List (List BlockTx × Bool)) :
    p.replay W ((txs, internal) :: batches) = p.moments W txs internal ++ p'.replay W batches := by
  rw [EvmProcessor.replay, h]

/-- A block that is skipped leaves the root. -/
theorem step_skipped {b : BlockInput} (h : step W bs es b = some ((bs', es'), .skipped)) :
    bs'.finalizedStateRoot = bs.finalizedStateRoot := by
  obtain ⟨p, bs₁, -, hfinal, ⟨-, -, rfl, -⟩ | ⟨-, block, ho, -⟩⟩ := step_eq_some h
  · obtain ⟨gas, states, rfl⟩ := hfinal.eq
    rfl
  · cases ho

end

/-! ## Runs -/

section

open VM

variable {W : World} {V : VM} {r : UInt64 → UInt64 → Prop} {history : List Moment}
  {txs batch : List InternalTx} {bound : UInt64} {p p' : EvmProcessor V.transition}

theorem Ordered.executes (tracks : V.Tracks r) (keeps : V.NeverLowers zeroAddress) (laws : V.Laws)
    (h : Ordered r history txs bound) (hbound : bound ≤ V.getNonce p.statedb zeroAddress)
    (hexecutes : Executes W p batch p') {batches : List (List BlockTx × Bool)}
    (hsound : Sound (p.replay W ((batch.map .internal, true) :: batches))) :
    ∃ moments bound', p.replay W ((batch.map .internal, true) :: batches) =
        moments ++ p'.replay W batches ∧
      Ordered r (history ++ moments) (txs ++ batch) bound' ∧
      bound' ≤ V.getNonce p'.statedb zeroAddress ∧ Sound (p'.replay W batches) := by
  obtain ⟨⟨calls, hbuilt⟩, logs, receipts, hexecute⟩ := hexecutes
  rw [replay_cons hexecute] at hsound ⊢
  obtain ⟨bound', hordered, hbound'⟩ :=
    h.executeInternals tracks keeps laws hbound hbuilt hexecute hsound.append_left
  exact ⟨_, bound', rfl, hordered, hbound', hsound.append_right⟩

/-- The nonces are in order after each block, and the next one is not less. -/
theorem ChainRun.ordered (tracks : V.Tracks r) (keeps : V.NeverLowers zeroAddress) (laws : V.Laws)
    {bs : BlockState} {es : EpochState} (h : ChainRun W V.transition bs es txs history)
    (hsound : Sound history) :
    ∃ bound, Ordered r history txs bound ∧ ∀ s, V.stateDB bs.finalizedStateRoot = some s →
      bound ≤ V.getNonce s zeroAddress := by
  induction h with
  | genesis epoch0 opened built applied =>
    obtain ⟨root, bs₀, es₀, statedb, p₁, p₂, p₃, first, second, third, hepoch0, hopened, hbuilt,
      hfirst, hsecond, hthird, hcommit⟩ := genesis_executes applied
    cases epoch0.symm.trans hepoch0
    cases opened.symm.trans hopened
    cases built.symm.trans hbuilt
    obtain ⟨m₁, b₁, heq₁, hordered₁, hbound₁, hsound₁⟩ :=
      (Ordered.nil r).executes tracks keeps laws UInt64.zero_le hfirst hsound
    obtain ⟨m₂, b₂, heq₂, hordered₂, hbound₂, hsound₂⟩ :=
      hordered₁.executes tracks keeps laws hbound₁ hsecond hsound₁
    obtain ⟨m₃, b₃, heq₃, hordered₃, hbound₃, -⟩ :=
      hordered₂.executes tracks keeps laws hbound₂ hthird hsound₂
    refine ⟨b₃, ?_, ?_⟩
    · rw [List.map_cons, heq₁, List.map_cons, heq₂, List.map_cons, heq₃, List.map_nil,
        EvmProcessor.replay, List.append_nil]
      simpa using hordered₃
    · intro s hs
      rw [keeps.nonce_commit _ _ _ hcommit hs]
      exact hbound₃
  | skip before step ih =>
    obtain ⟨bound, hordered, hnext⟩ := ih hsound
    rw [step_skipped step]
    exact ⟨bound, hordered, hnext⟩
  | block before opened step ih =>
    obtain ⟨bound, hordered, hnext⟩ := ih hsound.append_left
    obtain ⟨statedb, p₁, p₂, p₃, logs, receipts, hopened, hfirst, hsecond, hthird, hcommit⟩ :=
      step_executes step
    cases opened.symm.trans hopened
    obtain ⟨m₁, b₁, heq₁, hordered₁, hbound₁, hsound₁⟩ :=
      hordered.executes tracks keeps laws (hnext _ opened) hfirst hsound.append_right
    obtain ⟨m₂, b₂, heq₂, hordered₂, hbound₂, hsound₂⟩ :=
      hordered₁.executes tracks keeps laws hbound₁ hsecond hsound₁
    rw [replay_cons hthird] at hsound₂ heq₂
    obtain ⟨hordered₃, hbound₃⟩ :=
      hordered₂.executeEvents keeps laws hbound₂ hthird hsound₂.append_left
    refine ⟨b₂, ?_, ?_⟩
    · rw [ProcessedBlock.batches, heq₁, heq₂, EvmProcessor.replay, List.append_nil]
      simpa using hordered₃
    · intro s hs
      rw [keeps.nonce_commit _ _ _ hcommit hs]
      exact hbound₃

/-- Transactions under one key are the same, and then the nonces are. -/
theorem Ordered.keys (h : Ordered r history txs bound)
    (hhash : ∀ m ∈ history, ∀ m' ∈ history, W.txHash m.tx = W.txHash m'.tx → m.tx = m'.tx) :
    history.Pairwise fun m m' =>
      m.internalTx?.isSome ∨ m'.internalTx?.isSome → W.txHash m.tx ≠ W.txHash m'.tx := by
  have hincreasing := h.increasing
  rw [← h.txs_eq, List.pairwise_map, List.pairwise_filterMap] at hincreasing
  refine hincreasing.imp_of_mem ?_
  intro m m' hm hm' hlt hinternal heq
  have hsame : m.internalTx? = m'.internalTx? := by
    rw [Moment.internalTx?, Moment.internalTx?, hhash m hm m' hm' heq]
  rw [← hsame, or_self] at hinternal
  obtain ⟨tx, htx⟩ := Option.isSome_iff_exists.mp hinternal
  exact UInt64.lt_irrefl _ (hlt tx htx tx (hsame.symm.trans htx))

end

/-- **Internal transactions do not collide.** In a run from genesis in which no internal
transaction is skipped, the internal transactions have pairwise different nonces, as long as there
is a next nonce. The nonce of the state is not less than that of an internal transaction which is
executed, and the same if calls of the zero address leave its nonce alone. No key of the
transaction store, or of the position index, is that of two transactions, unless hashes collide. -/
theorem internal_nonces_distinct (W : World) (V : VM) (laws : V.Laws)
    (keeps : V.NeverLowers zeroAddress) (bs : BlockState) (es : EpochState) (txs : List InternalTx)
    (history : List Moment) (run : ChainRun W V.transition bs es txs history)
    (sound : Sound history) :
    history.filterMap Moment.internalTx? = txs ∧ (txs.map InternalTx.nonce).Nodup ∧ txs.Nodup ∧
      (∀ m ∈ history, ∀ tx, m.tx = .internal tx → tx.nonce ≤ m.nonce) ∧
      (V.LeavesAlone zeroAddress → ∀ m ∈ history, ∀ tx, m.tx = .internal tx → tx.nonce = m.nonce) ∧
      ((∀ m ∈ history, ∀ m' ∈ history, W.txHash m.tx = W.txHash m'.tx → m.tx = m'.tx) →
        history.Pairwise fun m m' =>
          m.internalTx?.isSome ∨ m'.internalTx?.isSome → W.txHash m.tx ≠ W.txHash m'.tx) := by
  obtain ⟨bound, hordered, -⟩ := run.ordered keeps.tracks keeps laws sound
  have hnonces : (txs.map InternalTx.nonce).Nodup :=
    hordered.increasing.imp fun hlt => UInt64.ne_of_lt hlt
  refine ⟨hordered.txs_eq, hnonces, hnonces.of_map _, hordered.related, ?_, hordered.keys⟩
  intro alone
  obtain ⟨bound', hequal, -⟩ := run.ordered alone.tracks keeps laws sound
  exact hequal.related

/-! ## A machine with a counter -/

/-- The accounts at a root, which keeps a short nonce of the zero address. -/
def Accounts.ofRoot (root : Hash) : Accounts :=
  Function.update (fun _ => (0, 0)) zeroAddress (root.head.toUInt64, 0)

/-- A call changes the nonce of the zero address and nothing else. Nobody signs transactions. -/
@[reducible] def bumpVM (bump : UInt64 → UInt64) : VM :=
  { payVM with
    call := fun _ _ _ gas s =>
      (Function.update s zeroAddress (bump (s zeroAddress).1, (s zeroAddress).2), gas, false)
    sender := fun _ _ => none
    stateDB := fun root => some (.ofRoot root)
    commit := fun s =>
      if (s zeroAddress).1 < 256 then some (copyBytes 32 [(s zeroAddress).1.toUInt8]) else none }

section

variable (bump : UInt64 → UInt64)

theorem not_signs_bumpVM (a : Address) : ¬ (bumpVM bump).Signs a := by
  rintro ⟨networkID, tx, hsender⟩
  cases hsender

theorem bumpVM_laws : (bumpVM bump).Laws where
  nonce_setNonce := payVM_laws.nonce_setNonce
  nonce_subBalance := payVM_laws.nonce_subBalance
  nonce_addBalance := payVM_laws.nonce_addBalance
  nonce_prepareAccessList := payVM_laws.nonce_prepareAccessList
  balance_subBalance := payVM_laws.balance_subBalance
  balance_prepareAccessList := payVM_laws.balance_prepareAccessList
  call_le _ _ _ _ _ a hsigns := absurd hsigns (not_signs_bumpVM bump a)
  create_le _ _ _ _ _ a hsigns := absurd hsigns (not_signs_bumpVM bump a)
  create_lt _ _ msg _ _ hsigns := absurd hsigns (not_signs_bumpVM bump msg.sender)
  create_insufficient := payVM_laws.create_insufficient
  nonce_finalise _ _ _ := rfl
  nonce_commit _ _ _ a hsigns := absurd hsigns (not_signs_bumpVM bump a)

variable {bump}

theorem bumpVM_neverLowers (hbump : ∀ n, n ≤ bump n) : (bumpVM bump).NeverLowers zeroAddress where
  call_le ctx net msg gas s := by
    simp only [Function.update_self]
    exact hbump _
  create_le ctx net msg gas s hmax := by
    simp only
    split
    · exact UInt64.le_refl _
    · dsimp only
      by_cases hsender : zeroAddress = msg.sender
      · rw [← hsender, Function.update_self]
        exact UInt64.le_of_lt (VM.lt_add_one_of_ne_maxUint64 hmax)
      · rw [Function.update_of_ne hsender]
        exact UInt64.le_refl _
  nonce_finalise _ := rfl
  nonce_commit s root s' hcommit hopen := by
    obtain ⟨hshort, hroot⟩ := Option.ite_none_right_eq_some.mp hcommit
    cases hroot
    cases hopen
    simp only [Accounts.ofRoot, Function.update_self, toUInt64_head_copyBytes hshort]

end

/-- The moments of some batches from a root on. -/
def bumpReplay (bump : UInt64 → UInt64) (ctx : BlockCtx) (net : Rules) (root : Hash)
    (batches : List (List BlockTx × Bool)) : List Moment :=
  (EvmProcessor.start (T := (bumpVM bump).transition) (fun _ => some EventID.zero) ctx net
    (.ofRoot root)).replay nonceWorld batches

/-- A genesis and the moments of its transactions. -/
def bumpGenesis (bump : UInt64 → UInt64) (g : Genesis) :
    Option ((BlockState × EpochState) × List InternalTx × List Moment) := do
  let evm := evmModule nonceWorld (bumpVM bump).transition fun _ => some EventID.zero
  let (root, bs₀, es₀) ← applyEpoch0Genesis (fun _ root => some root) g
  let batches ← genesisBatches nonceWorld evm (fun _ root => some root) g
  let states ← applyEpoch1Genesis nonceWorld evm (fun _ root => some root) g
  pure (states, batches.flatten,
    bumpReplay bump ⟨bs₀.lastBlock.idx + 1, g.time, EventID.zero⟩ es₀.rules root
      (batches.map fun txs => (txs.map .internal, true)))

theorem chainRun_bumpGenesis {bump : UInt64 → UInt64} {g : Genesis} {bs : BlockState}
    {es : EpochState} {txs : List InternalTx} {history : List Moment}
    (h : bumpGenesis bump g = some ((bs, es), txs, history)) :
    ChainRun nonceWorld (bumpVM bump).transition bs es txs history := by
  obtain ⟨⟨root, bs₀, es₀⟩, hepoch0, h⟩ := Option.bind_eq_some_iff.mp h
  obtain ⟨batches, hbuilt, h⟩ := Option.bind_eq_some_iff.mp h
  obtain ⟨states, happlied, h⟩ := Option.bind_eq_some_iff.mp h
  cases h
  exact .genesis hepoch0 rfl hbuilt happlied

/-- A block without transactions that seals the epoch. -/
def bumpBlock (bump : UInt64 → UInt64) : BlockInput where
  cBlock := ⟨sampleAtropos.id, [1]⟩
  events := [sampleAtropos]
  evm := evmModule nonceWorld (bumpVM bump).transition fun _ => some EventID.zero
  getEventPayload _ := none

/-- A genesis, and a block after it. -/
theorem internal_nonces_distinct_bumpBlock :
    ∃ bs es txs history, ChainRun nonceWorld (bumpVM id).transition bs es txs history ∧
      Sound history ∧ txs.length = 6 ∧ (txs.map InternalTx.nonce).Nodup ∧
      (∀ m ∈ history, ∀ tx, m.tx = .internal tx → tx.nonce = m.nonce) ∧
      history.Pairwise fun m m' =>
        m.internalTx?.isSome ∨ m'.internalTx?.isSome →
          nonceWorld.txHash m.tx ≠ nonceWorld.txHash m'.tx := by
  have hrun : (bumpGenesis id sampleGenesis).any (fun r =>
      (step nonceWorld r.1.1 r.1.2 (bumpBlock id)).any fun r' => r'.2.processedWith fun block =>
        let history := r.2.2 ++
          bumpReplay id block.ctx r.1.2.rules r.1.1.finalizedStateRoot block.batches
        (r.2.1 ++ (block.preInternalTxs ++ block.internalTxs)).length = 6 && Sound history &&
          decide (∀ m ∈ history, ∀ m' ∈ history,
            nonceWorld.txHash m.tx = nonceWorld.txHash m'.tx → m.tx = m'.tx)) = true := by
    decide +kernel
  obtain ⟨⟨⟨bs, es⟩, txs, history⟩, hgenesis, hrun⟩ := (Option.any_eq_true _ _).mp hrun
  obtain ⟨bs', es', block, hstep, hrun⟩ := exists_processed hrun
  simp only [Bool.and_eq_true, decide_eq_true_eq] at hrun
  obtain ⟨⟨hlength, hsound⟩, hhash⟩ := hrun
  have hblock := (chainRun_bumpGenesis hgenesis).block rfl hstep
  obtain ⟨-, hnonces, -, -, halone, hkeys⟩ := internal_nonces_distinct nonceWorld (bumpVM id)
    (bumpVM_laws id) (bumpVM_neverLowers fun n => UInt64.le_refl n) _ _ _ _ hblock hsound
  refine ⟨_, _, _, _, hblock, hsound, hlength, hnonces, halone ?_, hkeys hhash⟩
  intro ctx net msg gas s hsender
  simp only [Function.update_self, id_eq]

/-- A call that increments the nonce of its sender once more. -/
def bumpOnce (n : UInt64) : UInt64 := if n < 200 then n + 1 else n

theorem le_bumpOnce (n : UInt64) : n ≤ bumpOnce n := by
  rw [bumpOnce]
  split
  · rename_i hlt
    refine UInt64.le_of_lt (VM.lt_add_one_of_ne_maxUint64 ?_)
    rintro rfl
    exact absurd hlt (by decide)
  · exact UInt64.le_refl n

/-- The second transaction of a batch is behind if the call of the first one increments the nonce
of the zero address, as no internal transaction is skipped for its nonce. -/
theorem internal_nonce_behind :
    ∃ V : VM, V.Laws ∧ V.NeverLowers zeroAddress ∧
      ∃ W bs es txs history, ChainRun W V.transition bs es txs history ∧ Sound history ∧
        ∃ m ∈ history, ∃ tx, m.tx = .internal tx ∧ tx.nonce ≠ m.nonce := by
  have hrun : (bumpGenesis bumpOnce
      { sampleGenesis with validators := [⟨1, payer, ⟨0, []⟩, 0, 0, 0, 0, 0⟩] }).any (fun r =>
        Sound r.2.2 && r.2.2.any fun m => m.internalTx?.any fun tx => tx.nonce ≠ m.nonce) =
          true := by decide +kernel
  obtain ⟨⟨⟨bs, es⟩, txs, history⟩, hgenesis, hrun⟩ := (Option.any_eq_true _ _).mp hrun
  obtain ⟨hsound, hrun⟩ := Bool.and_eq_true_iff.mp hrun
  obtain ⟨m, hm, hbehind⟩ := List.any_eq_true.mp hrun
  obtain ⟨tx, htx, hne⟩ := (Option.any_eq_true _ _).mp hbehind
  exact ⟨bumpVM bumpOnce, bumpVM_laws bumpOnce, bumpVM_neverLowers le_bumpOnce, nonceWorld, bs, es,
    txs, history, chainRun_bumpGenesis hgenesis, of_decide_eq_true hsound, m, hm, tx,
    Moment.tx_eq_of_internalTx? htx, of_decide_eq_true hne⟩

end Zilionixx
