import Zilionixx.DecidedState
import Zilionixx.EventCodec
import Zilionixx.TokenBucket

/-!
# The gas of an event and the gas power of a validator

An event pays for its transactions, parents and extra data, and a validator may
only spend the gas power that was allocated to it. The checks compute with
`uint64`; here they are compared with the same quantities in `ℕ`.
-/

namespace Zilionixx

open Checked

/-! ## The gas of an event -/

namespace Epochcheck

/-- The sum that `CalcGasPowerUsed` computes, for a number of parents. -/
def gasOf (parentsNum : ℕ) (e : EventPayload) (rules : Rules) : ℕ :=
  (e.txs.map fun tx => tx.gas.toNat).sum +
    (parentsNum - rules.dag.maxFreeParents.toNat) * rules.economy.gas.parentGas.toNat +
    e.extra.length * rules.economy.gas.extraDataGas.toNat + rules.economy.gas.eventGas.toNat

/-- The gas of an event in unbounded integers. -/
def exactGas (e : EventPayload) (rules : Rules) : ℕ := gasOf e.parents.length e rules

theorem toNat_foldl_gas (txs : List Transaction) (gas : UInt64) :
    (txs.foldl (fun gas tx => gas + tx.gas) gas).toNat =
      (gas.toNat + (txs.map fun tx => tx.gas.toNat).sum) % 2 ^ 64 := by
  induction txs generalizing gas with
  | nil => exact (Nat.mod_eq_of_lt gas.toNat_lt).symm
  | cons tx txs ih =>
    rw [List.foldl_cons, ih, UInt64.toNat_add, Nat.mod_add_mod, List.map_cons, List.sum_cons,
      Nat.add_assoc]

theorem toNat_parentsGas (n : ℕ) (free : UInt32) (price : UInt64) :
    (if UInt32.ofNat n > free then (UInt32.ofNat n - free).toUInt64 * price else 0).toNat =
      (n % 2 ^ 32 - free.toNat) * price.toNat % 2 ^ 64 := by
  have hn : (UInt32.ofNat n).toNat = n % 2 ^ 32 := UInt32.toNat_ofNat'
  split
  · rename_i hlt
    rw [UInt64.toNat_mul, UInt32.toNat_toUInt64, UInt32.toNat_sub_of_le _ _ (UInt32.le_of_lt hlt),
      hn]
  · rename_i hle
    rw [gt_iff_lt, UInt32.not_lt, UInt32.le_iff_toNat_le, hn] at hle
    rw [Nat.sub_eq_zero_of_le hle, Nat.zero_mul]
    rfl

/-- `CalcGasPowerUsed` computes modulo `2 ^ 64`, and counts parents modulo `2 ^ 32`. -/
theorem toNat_calcGasPowerUsed (e : EventPayload) (rules : Rules) :
    (calcGasPowerUsed e rules).toNat = gasOf (e.parents.length % 2 ^ 32) e rules % 2 ^ 64 := by
  rw [calcGasPowerUsed, gasOf]
  simp only [UInt64.toNat_add, UInt64.toNat_mul, UInt64.toNat_ofNat', toNat_parentsGas]
  rw [txsGas, toNat_foldl_gas]
  simp only [UInt64.toNat_zero, Nat.zero_add, Nat.add_mod_mod, Nat.mod_add_mod, Nat.mod_mul_mod]

/-- The parents that are not counted are missing from the gas. -/
theorem gasOf_eq_exactGas_iff (e : EventPayload) (rules : Rules) :
    gasOf (e.parents.length % 2 ^ 32) e rules = exactGas e rules ↔
      e.parents.length < 2 ^ 32 ∨ rules.economy.gas.parentGas = 0 := by
  rw [exactGas, gasOf, gasOf, Nat.add_right_cancel_iff, Nat.add_right_cancel_iff,
    Nat.add_left_cancel_iff, mul_eq_mul_right_iff]
  refine or_congr ?_ (UInt64.toNat_inj (b := 0))
  constructor
  · intro hcount
    by_contra hmany
    -- a wrapped count is below the count, which is beyond the free parents
    have hmod : e.parents.length % 2 ^ 32 < 2 ^ 32 := Nat.mod_lt _ (by decide)
    have hfree := rules.dag.maxFreeParents.toNat_lt
    omega
  · intro hfew
    rw [Nat.mod_eq_of_lt hfew]

theorem gasOf_le_exactGas (e : EventPayload) (rules : Rules) :
    gasOf (e.parents.length % 2 ^ 32) e rules ≤ exactGas e rules := by
  have hcount := Nat.sub_le_sub_right (Nat.mod_le e.parents.length (2 ^ 32))
    rules.dag.maxFreeParents.toNat
  have hgas := Nat.mul_le_mul_right rules.economy.gas.parentGas.toNat hcount
  exact Nat.add_le_add_right (Nat.add_le_add_right (Nat.add_le_add_left hgas _) _) _

/-- **When the gas of an event is exact.** The gas power that an accepted event
uses is its gas, and at most `MaxEventGas`, just if the sum fits a `uint64` and
the number of parents a `uint32`; no check makes sure of it. -/
theorem gasPowerUsed_exact_iff (X : External) (rules : Rules) (epoch : UInt32) (e : EventPayload)
    (h : Basiccheck.validate X e = .ok () ∧ Epochcheck.validate X rules epoch e = .ok ()) :
    (exactGas e rules = e.gasPowerUsed.toNat ∧
      exactGas e rules ≤ rules.economy.gas.maxEventGas.toNat) ↔
      exactGas e rules < 2 ^ 64 ∧
        (e.parents.length < 2 ^ 32 ∨ rules.economy.gas.parentGas = 0) := by
  obtain ⟨-, -, -, -, ⟨hmax, hused⟩, -⟩ := Epochcheck.validate_eq_ok.mp h.2
  have hcalc : e.gasPowerUsed.toNat = gasOf (e.parents.length % 2 ^ 32) e rules % 2 ^ 64 := by
    rw [hused, toNat_calcGasPowerUsed]
  rw [← gasOf_eq_exactGas_iff]
  constructor
  · rintro ⟨hexact, -⟩
    refine ⟨hexact ▸ e.gasPowerUsed.toNat_lt, le_antisymm (gasOf_le_exactGas e rules) ?_⟩
    rw [hexact, hcalc]
    exact Nat.mod_le _ _
  · rintro ⟨hfits, hcount⟩
    have hexact : exactGas e rules = e.gasPowerUsed.toNat := by
      rw [hcalc, hcount, Nat.mod_eq_of_lt hfits]
    exact ⟨hexact, hexact ▸ UInt64.le_iff_toNat_le.mp hmax⟩

/-- A transfer with a gas limit, for examples. -/
def transferWith (gas : UInt64) : Transaction where
  nonce := 0
  gas := gas
  gasPrice := 1000000000
  value := 0
  toAddress := some (copyBytes 20 [])
  data := []
  v := 27
  r := 1
  s := 1
  kind := .legacy

/-- The first event of a validator, with transfers. -/
def eventWith (gasPowerUsed : UInt64) (txs : List Transaction) : EventPayload where
  toMutableEventPayload :=
    { blankEvent with
      epoch := 1
      lamport := 1
      creator := 1
      seq := 1
      frame := 1
      creationTime := 1
      medianTime := 1
      gasPowerUsed := gasPowerUsed
      txs := txs }
  id := ⟨1, 1, copyBytes 24 [1]⟩
  hashToSign := copyBytes 32 [1]
  size := 0

theorem validate_eventWith_transfer :
    Basiccheck.validate sampleExternal (eventWith 49000 [transferWith 21000]) = .ok () ∧
      Epochcheck.validate sampleExternal mainNetRules 1 (eventWith 49000 [transferWith 21000]) =
        .ok () := by
  decide

theorem gasPowerUsed_exact_transfer :
    exactGas (eventWith 49000 [transferWith 21000]) mainNetRules = 49000 :=
  ((gasPowerUsed_exact_iff sampleExternal mainNetRules 1 _ validate_eventWith_transfer).mpr
    ⟨by decide, .inl (by decide)⟩).1

/-- Two transfers whose gas limits add up to `2 ^ 64` cost nothing. -/
theorem gasPowerUsed_not_exact :
    ∃ e, (Basiccheck.validate sampleExternal e = .ok () ∧
        Epochcheck.validate sampleExternal mainNetRules 1 e = .ok ()) ∧
      e.gasPowerUsed = 28000 ∧ exactGas e mainNetRules = 2 ^ 64 + 28000 := by
  refine ⟨eventWith 28000 [transferWith 0x8000000000000000, transferWith 0x8000000000000000], ?_,
    rfl, ?_⟩
  · decide
  · decide

end Epochcheck

/-! ## What the gas power check allows -/

namespace Gaspowercheck

/-- `inter.ShortTermGas` -/
def shortTermGas : Fin 2 := 0

/-- `inter.LongTermGas` -/
def longTermGas : Fin 2 := 1

/-- A configuration of `NewGasPowerContext`. -/
def Config.ofRules (idx : Fin 2) (gas : GasRules) (power : GasPowerRules) : Config where
  idx := idx
  allocPerSec := power.allocPerSec
  maxAllocPeriod := power.maxAllocPeriod
  minEnsuredAlloc := gas.maxEventGas
  startupAllocPeriod := power.startupAllocPeriod
  minStartupGas := power.minStartupGas

/-- The body of the loop in `NewGasPowerContext`. The result of `GetEvent` is
stored in an interface, so that it is not `nil` even if there is no such event. -/
def ValidatorState.ofEpochState (getEvent : EventID → Option Event) (val : ValidatorEpochState) :
    ValidatorState where
  prevEpochEvent :=
    if val.prevEpochEvent ≠ EventID.zero then some (getEvent val.prevEpochEvent) else none
  gasRefund := val.gasRefund

/-- `NewGasPowerContext`; `none` is an index out of range. -/
def newGasPowerContext (getEvent : EventID → Option Event) (es : EpochState)
    (validators : Validators) (epoch : UInt32) (cfg : EconomyRules) : Option ValidationContext :=
  if es.validatorStates.length > validators.len then none
  else some
    { epoch := epoch
      configs := ![.ofRules shortTermGas cfg.gas cfg.shortGasPower,
        .ofRules longTermGas cfg.gas cfg.longGasPower]
      epochStart := es.epochStart
      validators := validators
      validatorStates := es.validatorStates.map (.ofEpochState getEvent) ++
        List.replicate (validators.len - es.validatorStates.length) ⟨none, 0⟩
      configs_idx := fun i => by fin_cases i <;> rfl }

variable {X : External} {ctx : ValidationContext} {e : EventHeader}

/-- The gas power that a validator gets per second, in unbounded integers. -/
def exactPerSec (v : ValidatorID) (validators : Validators) (config : Config) : ℕ :=
  config.allocPerSec.toNat * (validators.get v).toNat / validators.totalWeight.toNat

/-- The gas power that is allocated between two times, in unbounded integers. -/
def exactAlloc (perSec : ℕ) (prevTime time : Timestamp) : ℕ :=
  perSec * (time.toNat - prevTime.toNat) / 10 ^ 9

theorem toNat_ofNat_le (n : ℕ) : (UInt64.ofNat n).toNat ≤ n :=
  UInt64.toNat_ofNat' ▸ Nat.mod_le _ _

theorem toNat_add_le (a b : UInt64) : (a + b).toNat ≤ a.toNat + b.toNat :=
  UInt64.toNat_add a b ▸ Nat.mod_le _ _

theorem toNat_cut_le (a m : UInt64) :
    (if a > m then m else a).toNat ≤ m.toNat ∧ (if a > m then m else a).toNat ≤ a.toNat := by
  split
  · exact ⟨Nat.le_refl _, UInt64.le_iff_toNat_le.mp (UInt64.le_of_lt ‹_›)⟩
  · exact ⟨UInt64.le_iff_toNat_le.mp (UInt64.not_lt.mp ‹_›), Nat.le_refl _⟩

theorem perSec_le {v : ValidatorID} {validators : Validators} {config : Config}
    {perSec maxGasPower startup : UInt64}
    (h : calcValidatorGasPowerPerSec v validators config = some (perSec, maxGasPower, startup)) :
    perSec.toNat ≤ exactPerSec v validators config := by
  rw [calcValidatorGasPowerPerSec] at h
  split at h
  · cases h
    exact Nat.zero_le _
  split at h
  · cases h
  cases h
  exact toNat_ofNat_le _

/-- The times are clamped, and the product is rounded down and truncated. -/
theorem allocated_le {perSec : UInt64} {rate : ℕ} (hrate : perSec.toNat ≤ rate)
    (eTime prevTime : Timestamp) :
    (UInt64.ofNat ((eTime - if prevTime > eTime then eTime else prevTime).toNat * perSec.toNat /
      second.toNat)).toNat ≤ exactAlloc rate prevTime eTime := by
  refine (toNat_ofNat_le _).trans ?_
  have hperiod : (eTime - if prevTime > eTime then eTime else prevTime).toNat =
      eTime.toNat - prevTime.toNat := by
    split
    · rename_i hgt
      rw [UInt64.sub_self, Nat.sub_eq_zero_of_le (UInt64.le_iff_toNat_le.mp (UInt64.le_of_lt hgt))]
      rfl
    · rename_i hle
      exact UInt64.toNat_sub_of_le _ _ (UInt64.not_lt.mp hle)
  rw [hperiod, exactAlloc, Nat.mul_comm rate]
  exact Nat.div_le_div_right (Nat.mul_le_mul_left _ hrate)

/-- What `CalcValidatorGasPower` starts from: an event without a self-parent
has at least the startup gas power. -/
def startGas (X : External) (e : EventHeader) (startup prevGasPowerLeft : UInt64) : UInt64 :=
  if X.selfParent e = none ∧ prevGasPowerLeft < startup then startup else prevGasPowerLeft

/-- The gas power is at most the maximum, and at most what there was before
and what has been allocated since. -/
theorem calcValidatorGasPower_le {eTime prevTime : Timestamp} {prev g : UInt64}
    {validators : Validators} {config : Config}
    (h : calcValidatorGasPower X e eTime prevTime prev validators config = some g) :
    ∃ perSec maxGasPower startup, calcValidatorGasPowerPerSec e.creator validators config =
        some (perSec, maxGasPower, startup) ∧
      g.toNat ≤ maxGasPower.toNat ∧
      g.toNat ≤ (startGas X e startup prev).toNat +
        exactAlloc (exactPerSec e.creator validators config) prevTime eTime := by
  obtain ⟨⟨perSec, maxGasPower, startup⟩, hperSec, h⟩ := Option.bind_eq_some_iff.mp h
  refine ⟨perSec, maxGasPower, startup, hperSec, ?_⟩
  obtain rfl := Option.some.inj h
  have halloc := allocated_le (perSec_le hperSec) eTime prevTime
  have hsum := (toNat_add_le _ (startGas X e startup prev)).trans (Nat.add_le_add_right halloc _)
  rw [Nat.add_comm (exactAlloc _ _ _)] at hsum
  exact ⟨(toNat_cut_le _ _).1, (toNat_cut_le _ _).2.trans hsum⟩

/-- What the check leaves: the gas power that was left and the one that is used
add up, in `uint64`, to what was computed. -/
theorem calcGasPower_of_validate {selfParent : Option Event}
    (h : validate X ctx e selfParent = .ok ()) (i : Fin 2) :
    calcGasPower X e selfParent ctx (ctx.configs i) =
      some (e.gasPowerLeft.gas i + e.gasPowerUsed) := by
  obtain ⟨gasPowers, hcalc, h⟩ := bind_eq_ok.mp h
  simp only [seq_eq_ok, refuse_eq_ok, not_not] at h
  rw [CalcGasPower, seq_eq_ok, bind_eq_ok] at hcalc
  obtain ⟨-, gas₀, hgas₀, hcalc⟩ := hcalc
  obtain ⟨gas₁, hgas₁, hcalc⟩ := bind_eq_ok.mp hcalc
  obtain rfl := Except.ok.inj hcalc
  fin_cases i
  · exact (orPanic_eq_ok.mp hgas₀).trans (congrArg some h.1.symm)
  · exact (orPanic_eq_ok.mp hgas₁).trans (congrArg some h.2.symm)

theorem le_max (g : GasPowerLeft) (i : Fin 2) : g.gas i ≤ g.max := by
  rw [GasPowerLeft.max]
  simp only [UInt64.lt_irrefl, if_false]
  fin_cases i
  · split
    · exact UInt64.le_of_lt ‹_›
    · exact UInt64.le_refl _
  · split
    · exact UInt64.le_refl _
    · exact UInt64.not_lt.mp ‹_›

/-- After the basic check the sum of the gas powers does not wrap. -/
theorem toNat_left_add_used {e : EventPayload} (h : Basiccheck.validate X e = .ok ()) (i : Fin 2) :
    (e.gasPowerLeft.gas i + e.gasPowerUsed).toNat =
      (e.gasPowerLeft.gas i).toNat + e.gasPowerUsed.toNat := by
  obtain ⟨-, ⟨hused, hleft⟩, -⟩ := Basiccheck.validate_eq_ok.mp h
  have hleft := UInt64.lt_iff_toNat_lt.mp (UInt64.lt_of_le_of_lt (le_max e.gasPowerLeft i) hleft)
  have hused := UInt64.lt_iff_toNat_lt.mp hused
  have hhalf : (Basiccheck.maxInt64 - 1).toNat < 2 ^ 63 := by decide
  rw [UInt64.toNat_add, Nat.mod_eq_of_lt]
  calc (e.gasPowerLeft.gas i).toNat + e.gasPowerUsed.toNat
      < 2 ^ 63 + 2 ^ 63 := Nat.add_lt_add (hleft.trans hhalf) (hused.trans hhalf)
    _ = 2 ^ 64 := by decide

/-! ## Chains of events -/

/-- A chain of events of a validator in an epoch, the newest first: the first
event has no self-parent, and each other one has the event before it; all of
them passed the checks. -/
inductive Chain (X : External) (ctx : ValidationContext) (v : ValidatorID) :
    List EventPayload → Prop where
  | first {e : EventPayload} {selfParent : Option Event}
      (creator : e.creator = v) (noSelfParent : X.selfParent e.toEventHeader = none)
      (basic : Basiccheck.validate X e = .ok ())
      (gasPower : validate X ctx e.toEventHeader selfParent = .ok ()) : Chain X ctx v [e]
  | next {e p : EventPayload} {es : List EventPayload}
      (creator : e.creator = v) (selfParent : X.selfParent e.toEventHeader = some p.id)
      (basic : Basiccheck.validate X e = .ok ())
      (gasPower : validate X ctx e.toEventHeader (some p.event) = .ok ())
      (chain : Chain X ctx v (p :: es)) : Chain X ctx v (e :: p :: es)

/-- What a validator has from the previous epoch, in unbounded integers, and
since when. -/
def prevEpochGas (ctx : ValidationContext) (v : ValidatorID) (i : Fin 2) :
    Option (ℕ × Timestamp) := do
  let state ← ctx.validatorStates[ctx.validators.getIdx v]?
  match state.prevEpochEvent with
  | some prev => do
    let prev ← prev
    pure ((prev.gasPowerLeft.gas i).toNat + state.gasRefund.toNat, prev.medianTime)
  | none => pure (state.gasRefund.toNat, ctx.epochStart)

/-- The time of the newest event, or when the epoch before has left off. -/
def lastTime (t₀ : Timestamp) : List EventPayload → Timestamp
  | [] => t₀
  | e :: _ => e.medianTime

/-- The draws that a chain makes on the gas power of kind `i`. -/
def draws (perSec : ℕ) (t₀ : Timestamp) (i : Fin 2) : List EventPayload → List TokenBucket.Draw
  | [] => []
  | e :: es =>
    { refill := exactAlloc perSec (lastTime t₀ es) e.medianTime
      spent := e.gasPowerUsed.toNat
      level := (e.gasPowerLeft.gas i).toNat } :: draws perSec t₀ i es

theorem draws_spent (perSec : ℕ) (t₀ : Timestamp) (i : Fin 2) (es : List EventPayload) :
    (draws perSec t₀ i es).map TokenBucket.Draw.spent = es.map fun e => e.gasPowerUsed.toNat := by
  induction es with
  | nil => rfl
  | cons e es ih => rw [draws, List.map_cons, List.map_cons, ih]

theorem mem_draws {perSec : ℕ} {t₀ : Timestamp} {i : Fin 2} {es : List EventPayload}
    {e : EventPayload} (h : e ∈ es) : ∃ d ∈ draws perSec t₀ i es,
      d.level = (e.gasPowerLeft.gas i).toNat ∧ d.spent = e.gasPowerUsed.toNat := by
  induction es with
  | nil => cases h
  | cons e' es ih =>
    rcases List.mem_cons.mp h with rfl | h
    · exact ⟨_, List.mem_cons_self, rfl, rfl⟩
    · obtain ⟨d, hd, heq⟩ := ih h
      exact ⟨d, List.mem_cons_of_mem _ hd, heq⟩

/-- The first event starts from what there is from the previous epoch. -/
theorem prevGasPower_first {selfParent : Option Event} {i : Fin 2} {prev : UInt64} {t₀ : Timestamp}
    (hself : X.selfParent e = none)
    (h : prevGasPower X e selfParent ctx (ctx.configs i) = some (prev, t₀)) :
    ∃ prevLeft, prevEpochGas ctx e.creator i = some (prevLeft, t₀) ∧ prev.toNat ≤ prevLeft := by
  rw [prevGasPower, hself, if_neg (by decide), ctx.configs_idx] at h
  obtain ⟨state, hstate, h⟩ := Option.bind_eq_some_iff.mp h
  simp only [prevEpochGas, hstate, Option.bind_eq_bind, Option.bind_some]
  cases hevent : state.prevEpochEvent with
  | some prev =>
    rw [hevent] at h
    obtain ⟨prev, rfl, h⟩ := Option.bind_eq_some_iff.mp h
    cases h
    exact ⟨_, rfl, toNat_add_le _ _⟩
  | none =>
    rw [hevent] at h
    cases h
    exact ⟨_, rfl, Nat.le_of_eq (by rw [UInt64.zero_add])⟩

/-- Each other event starts from its self-parent. -/
theorem prevGasPower_next {p : Event} {i : Fin 2} {id : EventID} (hself : X.selfParent e = some id)
    :
    prevGasPower X e (some p) ctx (ctx.configs i) = some (p.gasPowerLeft.gas i, p.medianTime) := by
  rw [prevGasPower, hself, if_pos Option.isSome_some, ctx.configs_idx]
  rfl

/-- The gas power of a chain is a token bucket: it holds at most the maximum,
starts from what the previous epoch has left or the startup gas power, and is
refilled by the allocation. -/
theorem Chain.run {v : ValidatorID} {es : List EventPayload} (h : Chain X ctx v es) (i : Fin 2) :
    ∃ prevLeft t₀ perSec maxGasPower startup,
      prevEpochGas ctx v i = some (prevLeft, t₀) ∧
      calcValidatorGasPowerPerSec v ctx.validators (ctx.configs i) =
        some (perSec, maxGasPower, startup) ∧
      TokenBucket.Run maxGasPower.toNat (max startup.toNat prevLeft)
        (draws (exactPerSec v ctx.validators (ctx.configs i)) t₀ i es) := by
  induction h with
  | @first e selfParent creator noSelfParent basic gasPower =>
    obtain ⟨⟨prev, t₀⟩, hprev, hcalc⟩ :=
      Option.bind_eq_some_iff.mp (calcGasPower_of_validate gasPower i)
    obtain ⟨prevLeft, hleft, hle⟩ := prevGasPower_first noSelfParent hprev
    obtain ⟨perSec, maxGasPower, startup, hperSec, hmax, hfunded⟩ := calcValidatorGasPower_le hcalc
    rw [toNat_left_add_used basic] at hmax hfunded
    rw [creator] at hleft hperSec hfunded
    have hstart : (startGas X e.toEventHeader startup prev).toNat ≤ max startup.toNat prevLeft := by
      rw [startGas]
      split
      · exact le_max_left _ _
      · exact hle.trans (le_max_right _ _)
    exact ⟨prevLeft, t₀, perSec, maxGasPower, startup, hleft, hperSec,
      .draw hmax (hfunded.trans (Nat.add_le_add_right hstart _)) .nil⟩
  | @next e p es creator selfParent basic gasPower _ ih =>
    obtain ⟨prevLeft, t₀, perSec, maxGasPower, startup, hleft, hperSec, hrun⟩ := ih
    have hcalc := calcGasPower_of_validate gasPower i
    rw [calcGasPower, prevGasPower_next selfParent] at hcalc
    obtain ⟨perSec', maxGasPower', startup', hperSec', hmax, hfunded⟩ :=
      calcValidatorGasPower_le hcalc
    rw [creator, hperSec] at hperSec'
    cases hperSec'
    rw [toNat_left_add_used basic] at hmax hfunded
    rw [creator, startGas, if_neg (by rw [selfParent]; exact fun h => by cases h.1)] at hfunded
    exact ⟨prevLeft, t₀, perSec, maxGasPower, startup, hleft, hperSec, .draw hmax hfunded hrun⟩

/-- **Gas power cannot be inflated.** Along a chain of events of a validator in
an epoch, what is left and what was used never exceeds what there was at the
start and what has been allocated since, in unbounded integers; and no event
has more than the maximum. -/
theorem gasPower_not_inflated (X : External) (ctx : ValidationContext) (v : ValidatorID)
    (e : EventPayload) (es : List EventPayload) (h : Chain X ctx v (e :: es)) (i : Fin 2) :
    ∃ prevLeft t₀ perSec maxGasPower startup,
      prevEpochGas ctx v i = some (prevLeft, t₀) ∧
      calcValidatorGasPowerPerSec v ctx.validators (ctx.configs i) =
        some (perSec, maxGasPower, startup) ∧
      (e.gasPowerLeft.gas i).toNat + ((e :: es).map fun e => e.gasPowerUsed.toNat).sum ≤
        max startup.toNat prevLeft +
          ((draws (exactPerSec v ctx.validators (ctx.configs i)) t₀ i (e :: es)).map
            TokenBucket.Draw.refill).sum ∧
      ∀ e' ∈ e :: es,
        (e'.gasPowerLeft.gas i).toNat + e'.gasPowerUsed.toNat ≤ maxGasPower.toNat := by
  obtain ⟨prevLeft, t₀, perSec, maxGasPower, startup, hleft, hperSec, hrun⟩ := h.run i
  refine ⟨prevLeft, t₀, perSec, maxGasPower, startup, hleft, hperSec, ?_, ?_⟩
  · rw [← draws_spent]
    exact hrun.level_add_spent_le
  · intro e' he'
    obtain ⟨d, hd, hlevel, hspent⟩ := mem_draws he'
    rw [← hlevel, ← hspent]
    exact hrun.le_cap d hd

/-- An event in a chain, for examples. -/
def chainEvent (seq : UInt32) (medianTime : Timestamp) (parents : List EventID)
    (gasPowerLeft : GasPowerLeft) : EventPayload :=
  { Epochcheck.eventWith 28000 [] with
    seq := seq
    medianTime := medianTime
    parents := parents
    gasPowerLeft := gasPowerLeft }

/-- The gas power of the first epoch. -/
def sampleGasContext : ValidationContext :=
  (newGasPowerContext (fun _ => none) sampleEpochState sampleValidators 1
    mainNetRules.economy).get rfl

/-- The first event of the validator. -/
def firstEvent : EventPayload := chainEvent 1 1 [] ⟨![11172000, 13972000]⟩

/-- A second later. -/
def secondEvent : EventPayload :=
  chainEvent 2 1000000001 [firstEvent.id] ⟨![16744000, 16744000]⟩

theorem gasPower_not_inflated_secondEvent :
    Chain sampleExternal sampleGasContext 1 [secondEvent, firstEvent] ∧
      (secondEvent.gasPowerLeft.gas shortTermGas).toNat + 56000 ≤ 11200000 + 5600000 := by
  have hgas : validate sampleExternal sampleGasContext firstEvent.toEventHeader none = .ok () := by
    decide
  have hfirst : Chain sampleExternal sampleGasContext 1 [firstEvent] :=
    .first rfl rfl (by decide) hgas
  have hchain : Chain sampleExternal sampleGasContext 1 [secondEvent, firstEvent] :=
    .next rfl rfl (by decide) (by decide) hfirst
  refine ⟨hchain, ?_⟩
  obtain ⟨prevLeft, t₀, perSec, maxGasPower, startup, hleft, hperSec, hle, -⟩ :=
    gasPower_not_inflated _ _ _ _ _ hchain shortTermGas
  have hstart : prevEpochGas sampleGasContext 1 shortTermGas = some (0, 1) := rfl
  have hrate : calcValidatorGasPowerPerSec 1 sampleValidators
      (sampleGasContext.configs shortTermGas) = some (5600000, 1680000000, 11200000) := by decide
  rw [hstart] at hleft
  cases hleft
  cases hrate.symm.trans hperSec
  exact hle

end Gaspowercheck

end Zilionixx
