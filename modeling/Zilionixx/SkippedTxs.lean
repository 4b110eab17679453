import Zilionixx.GasAccounting

/-!
# Skipped transactions leave no trace

`TransitionDb` buys the gas of a message before it compares it with the intrinsic gas,
and an error does not give it back. A transaction of a checked event covers its
intrinsic gas, since `validateTx` computes it from the same data, access list and
recipient. It can only be refused by `preCheck`, and that changes nothing.

So the skipped transactions can be left out of a batch.
-/

namespace Zilionixx

namespace VM

variable {V : VM} {ctx : BlockCtx} {net : Rules} {msg : Message} {s s' : V.StateDB}
  {gp gp' : UInt64} {err : TxError}

/-- A message that covers its intrinsic gas is refused before its gas is bought. -/
theorem transitionDb_eq_error (hcovers : coversIntrinsicGas msg = true)
    (h : V.transitionDb ctx net msg s gp = some (s', gp', .error err)) :
    V.preCheck msg s gp = .error err ∧ s' = s ∧ gp' = gp := by
  unfold transitionDb at h
  cases hcheck : V.preCheck msg s gp with
  | error err' =>
    rw [hcheck] at h
    cases h
    exact ⟨rfl, rfl, rfl⟩
  | ok bought =>
    rw [hcheck] at h
    unfold coversIntrinsicGas at hcovers
    cases hgas : intrinsicGas msg.data msg.accessList msg.toAddress.isNone with
    | error err' => simp [hgas] at hcovers
    | ok gas =>
      have hle : gas ≤ msg.gas := by simpa [hgas] using hcovers
      simp only [hgas, if_neg (UInt64.not_lt.mpr hle)] at h
      obtain ⟨_, _, h⟩ := Option.map_eq_some_iff.mp h
      cases h

/-- A transaction whose message, if there is one, covers its intrinsic gas. -/
def Covers (V : VM) (net : Rules) (internal : Bool) (tx : BlockTx) : Prop :=
  ∀ msg, V.message net internal tx = some msg → coversIntrinsicGas msg = true

theorem covers_event (net : Rules) (internal : Bool) {t : Transaction}
    (h : Basiccheck.validateTx t = .ok ()) : V.Covers net internal (.event t) := by
  intro msg hmsg
  obtain ⟨a, checkNonce, rfl⟩ := message_event hmsg
  exact covers_of_validateTx h a checkNonce

variable {W : World} {internal : Bool} {tx : BlockTx} {txs : List BlockTx} {i : ℕ}
  {p p' : Processing V.transition}

/-- A covered transaction is skipped, and only its index is recorded, or it is executed
and does the same at any other index. -/
theorem applyTransaction_of_covers (hcovers : V.Covers net internal tx)
    (h : applyTransaction W ctx net internal p i tx = some p') :
    p' = { p with skipped := p.skipped ++ [UInt32.ofNat i] } ∨
      p'.skipped = p.skipped ∧ ∀ skipped j,
        applyTransaction W ctx net internal { p with skipped := skipped } j tx =
          some { p' with skipped := skipped } := by
  obtain ⟨⟨statedb, gp, result⟩, happly, h⟩ := Option.bind_eq_some_iff.mp h
  cases result with
  | skipped =>
    cases h
    obtain ⟨msg, hmsg, happly⟩ := Option.bind_eq_some_iff.mp happly
    obtain ⟨⟨s, gp', outcome⟩, htransition, happly⟩ := Option.bind_eq_some_iff.mp happly
    cases outcome with
    | ok used => cases happly
    | error err =>
      obtain ⟨-, rfl, rfl⟩ := transitionDb_eq_error (hcovers msg hmsg) htransition
      cases happly
      exact .inl rfl
  | executed usedGas failed logs =>
    cases h
    refine .inr ⟨rfl, fun skipped j => ?_⟩
    change (V.transition.applyMessage ctx net internal tx p.statedb p.gp >>= _) = _
    rw [happly]
    rfl

/-- The transactions that are skipped can be left out. -/
theorem process_without_skipped (hcovers : ∀ tx ∈ txs, V.Covers net internal tx)
    (h : process W ctx net internal txs i p = some p') :
    ∃ executed, List.Sublist executed txs ∧
      executed.length + p'.skipped.length = txs.length + p.skipped.length ∧
      ∀ skipped j, process W ctx net internal executed j { p with skipped := skipped } =
        some { p' with skipped := skipped } := by
  induction txs generalizing i p with
  | nil =>
    cases h
    exact ⟨[], .slnil, rfl, fun _ _ => rfl⟩
  | cons tx txs ih =>
    obtain ⟨p₁, hstep, h⟩ := Option.bind_eq_some_iff.mp h
    obtain ⟨executed, hsub, hlength, hrun⟩ :=
      ih (fun tx hmem => hcovers tx (List.mem_cons_of_mem _ hmem)) h
    rcases applyTransaction_of_covers (hcovers tx List.mem_cons_self) hstep with
      rfl | ⟨hskipped, hsame⟩
    · refine ⟨executed, hsub.cons tx, ?_, hrun⟩
      simp only [hlength, List.length_append, List.length_cons, List.length_nil]
      omega
    · refine ⟨tx :: executed, hsub.cons_cons tx, ?_, fun skipped j => ?_⟩
      · rw [List.length_cons, List.length_cons, ← hskipped]
        omega
      · rw [process, hsame]
        exact hrun skipped (j + 1)

end VM

open VM

/-- **Skipped transactions leave no trace.** If a transaction that has passed the checks of
its event is skipped, or an internal one with gas for its intrinsic gas, then nothing has
happened but that its index is recorded: the accounts, the gas pool, the gas counter, the
receipts and the logs are as they were. -/
theorem skipped_leaves_no_trace (V : VM) (W : World) (ctx : BlockCtx) (net : Rules)
    (internal : Bool) (p p' : Processing V.transition) (i : ℕ) (tx : BlockTx)
    (hchecked : (∃ t, tx = .event t ∧ Basiccheck.validateTx t = .ok ()) ∨
      internal = true ∧ ∀ msg, V.message net internal tx = some msg → coversIntrinsicGas msg = true)
    (h : applyTransaction W ctx net internal p i tx = some p')
    (hskipped : p'.skipped ≠ p.skipped) :
    p' = { p with skipped := p.skipped ++ [UInt32.ofNat i] } := by
  have hcovers : V.Covers net internal tx := by
    rcases hchecked with ⟨t, rfl, hvalid⟩ | ⟨-, hcovers⟩
    · exact covers_event net internal hvalid
    · exact hcovers
  rcases applyTransaction_of_covers hcovers h with hp' | ⟨hsame, -⟩
  · exact hp'
  · exact absurd hsame hskipped

/-- A transaction of the `payer` with a nonce that is too high. -/
theorem skipped_leaves_no_trace_payTx :
    applyTransaction nonceWorld ⟨1, 1, EventID.zero⟩ mainNetRules false payStart 3
        (.event { payTx (some zeroAddress) 7 with nonce := 5 }) =
      some { payStart with skipped := [3] } := by
  obtain ⟨p', hp', hskipped⟩ : ∃ p', applyTransaction nonceWorld ⟨1, 1, EventID.zero⟩ mainNetRules
      false payStart 3 (.event { payTx (some zeroAddress) 7 with nonce := 5 }) = some p' ∧
        p'.skipped ≠ payStart.skipped := by
    decide +kernel
  have hvalid : Basiccheck.validateTx { payTx (some zeroAddress) 7 with nonce := 5 } = .ok () := by
    decide +kernel
  rw [hp', skipped_leaves_no_trace payVM _ _ _ _ _ _ _ _ (.inl ⟨_, rfl, hvalid⟩) hp' hskipped]
  rfl

end Zilionixx
