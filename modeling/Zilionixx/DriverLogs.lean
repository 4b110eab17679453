import Zilionixx.RulesDiff

/-!
# Runs of driver logs

What the logs of the driver contract change takes effect with the next epoch: the profiles of
the validators, the rules and the number of epochs to advance by. Whatever the logs are, the
weights stay positive, the rules keep their network, and the number of epochs is limited. The
gas price, without which the rules cannot even be copied, is lost by a diff that sets it to
`null`.
-/

namespace Zilionixx

open ByteNumber JsonDiff

/-! ## What a log can do -/

section Steps

variable {D : DriverExternal} {l : Log} {bs bs' : BlockState}

/-- All weights are positive. -/
def Positive (profiles : ValidatorProfiles) : Prop :=
  ∀ id profile, profiles.lookup id = some profile → 0 < profile.weight

theorem Positive.insert {profiles : ValidatorProfiles} (h : Positive profiles) (id : ValidatorID)
    {profile : DriverValidator} (hprofile : 0 < profile.weight) :
    Positive (profiles.insert id profile) := by
  intro id' profile' hlookup
  by_cases hid : id' = id
  · rw [hid, Finmap.lookup_insert] at hlookup
    cases hlookup
    exact hprofile
  · rw [Finmap.lookup_insert_of_ne _ hid] at hlookup
    exact h id' profile' hlookup

theorem Positive.erase {profiles : ValidatorProfiles} (h : Positive profiles) (id : ValidatorID) :
    Positive (profiles.erase id) := by
  intro id' profile' hlookup
  by_cases hid : id' = id
  · rw [hid, Finmap.lookup_erase] at hlookup
    cases hlookup
  · rw [Finmap.lookup_erase_ne hid] at hlookup
    exact h id' profile' hlookup

/-- What no log breaks. -/
structure Kept (bs bs' : BlockState) : Prop where
  weights : Positive bs.nextValidatorProfiles → Positive bs'.nextValidatorProfiles
  networkID : bs'.dirtyRules.networkID = bs.dirtyRules.networkID
  name : bs'.dirtyRules.name = bs.dirtyRules.name
  advanceEpochs :
    bs'.advanceEpochs.toNat ≤ max bs.advanceEpochs.toNat maxAdvanceEpochs.toNat

namespace Kept

theorem refl (bs : BlockState) : Kept bs bs := ⟨id, rfl, rfl, le_max_left _ _⟩

theorem trans {bs₁ bs₂ bs₃ : BlockState} (h : Kept bs₁ bs₂) (h' : Kept bs₂ bs₃) : Kept bs₁ bs₃ where
  weights := h'.weights ∘ h.weights
  networkID := h'.networkID.trans h.networkID
  name := h'.name.trans h.name
  advanceEpochs := h'.advanceEpochs.trans (max_le h.advanceEpochs (le_max_right _ _))

/-- Only the profiles have changed. -/
theorem of_profiles {profiles : ValidatorProfiles}
    (h : Positive bs.nextValidatorProfiles → Positive profiles) :
    Kept bs { bs with nextValidatorProfiles := profiles } := ⟨h, rfl, rfl, le_max_left _ _⟩

/-- Tracked weights are positive. -/
theorem trackWeight (topic : Hash) (bs : BlockState) : Kept bs (trackWeight D l topic bs) := by
  obtain h | ⟨id, h⟩ | ⟨id, profile, hweight, h⟩ := trackWeight_cases D l topic bs
  · rw [h]
    exact .refl bs
  · rw [h]
    exact of_profiles fun hpos => hpos.erase id
  · rw [h]
    exact of_profiles fun hpos => hpos.insert id hweight

theorem trackPubkey (topic : Hash) (bs bs' : BlockState) (returned : Bool)
    (h : trackPubkey D l topic bs = some (bs', returned)) : Kept bs bs' := by
  obtain ⟨-, rfl | ⟨id, profile, _, hprofile, rfl⟩⟩ := trackPubkey_cases h
  · exact .refl bs'
  · -- the weight is that of the profile before
    refine of_profiles fun hpos => hpos.insert id ?_
    exact hpos id profile hprofile

theorem updateRules {src rules : Rules} {diff : List UInt8}
    (h : updateRules D src diff = some rules) :
    rules.networkID = src.networkID ∧ rules.name = src.name := by
  obtain ⟨changed, hcopy, h⟩ := Option.bind_eq_some_iff.mp h
  split at h
  · cases h
    exact ⟨rfl, rfl⟩
  · cases h
    exact ⟨rfl, rfl⟩

/-- The network keeps its name and ID. -/
theorem trackRules (topic : Hash) (bs bs' : BlockState) (returned : Bool)
    (h : trackRules D l topic bs = some (bs', returned)) : Kept bs bs' := by
  obtain ⟨_, rules, -, hrules, rfl⟩ | ⟨-, rfl⟩ := trackRules_cases h
  · obtain ⟨hnetworkID, hname⟩ := updateRules hrules
    exact ⟨id, hnetworkID, hname, le_max_left _ _⟩
  · exact .refl bs'

theorem trackAdvanceEpochs (topic : Hash) (bs : BlockState) :
    Kept bs (trackAdvanceEpochs D l topic bs) := by
  obtain h | ⟨n, hn, h⟩ := trackAdvanceEpochs_cases D l topic bs
  · rw [h]
    exact .refl bs
  · rw [h]
    exact ⟨id, rfl, rfl, le_max_of_le_right (UInt32.le_iff_toNat_le.mp hn)⟩

/-- Every log keeps them. -/
theorem onNewLog (h : onNewLog D bs l = some bs') : Kept bs bs' :=
  onNewLog_rel refl trans trackWeight trackPubkey trackRules trackAdvanceEpochs h

end Kept

/-- The diff of the rules that a log carries. -/
structure CarriesDiff (D : DriverExternal) (l : Log) (diff : List UInt8) : Prop where
  address : l.address = driverAddress
  topic : l.topics[0]? = some D.updateNetworkRules
  len : 64 ≤ l.len
  decoded : decodeDataBytes l = some (some diff)

theorem dirtyRules_trackAdvanceEpochs (topic : Hash) :
    (trackAdvanceEpochs D l topic bs).dirtyRules = bs.dirtyRules := by
  obtain h | ⟨_, -, h⟩ := trackAdvanceEpochs_cases D l topic bs
  · rw [h]
  · rw [h]

/-- The rules change by the diff of a log, if it carries one. -/
theorem dirtyRules_onNewLog (hD : D.updateValidatorPubkey ≠ D.updateNetworkRules)
    (h : onNewLog D bs l = some bs') :
    (∃ diff, CarriesDiff D l diff ∧ updateRules D bs.dirtyRules diff = some bs'.dirtyRules) ∨
      (∀ diff, ¬ CarriesDiff D l diff) ∧ bs'.dirtyRules = bs.dirtyRules := by
  rw [onNewLog] at h
  split at h
  · rename_i haddress
    cases h
    exact .inr ⟨fun _ hdiff => haddress hdiff.address, rfl⟩
  rename_i haddress
  obtain ⟨topic, htopic, h⟩ := Option.bind_eq_some_iff.mp h
  rw [List.head?_eq_getElem?] at htopic
  obtain ⟨⟨bs₁, returned₁⟩, h₁, h⟩ := Option.bind_eq_some_iff.mp h
  obtain ⟨hsame, hreturned⟩ := dirtyRules_trackPubkey h₁
  rw [dirtyRules_trackWeight] at hsame
  have hcarries : ∀ diff, CarriesDiff D l diff →
      topic = D.updateNetworkRules ∧ 64 ≤ l.len ∧ decodeDataBytes l = some (some diff) :=
    fun diff hdiff => ⟨Option.some.inj (htopic.symm.trans hdiff.topic), hdiff.len, hdiff.decoded⟩
  cases returned₁ with
  | true =>
    -- it was a log with a public key
    cases h
    refine .inr ⟨fun diff hdiff => hD ?_, hsame⟩
    exact (hreturned rfl).symm.trans (hcarries diff hdiff).1
  | false =>
    obtain ⟨⟨bs₂, returned₂⟩, h₂, h⟩ := Option.bind_eq_some_iff.mp h
    have hrules : bs'.dirtyRules = bs₂.dirtyRules := by
      cases returned₂ with
      | true =>
        cases h
        rfl
      | false =>
        cases h
        exact dirtyRules_trackAdvanceEpochs topic
    rw [hrules]
    obtain ⟨diff, rules, ⟨hrulesTopic, hlen, hdecoded⟩, hupdate, rfl⟩ | ⟨hnone, rfl⟩ :=
      trackRules_cases h₂
    · rw [hsame] at hupdate
      refine .inl ⟨diff, ⟨not_not.mp haddress, ?_, hlen, hdecoded⟩, hupdate⟩
      rw [htopic, hrulesTopic]
    · exact .inr ⟨fun diff hdiff => hnone diff (hcarries diff hdiff), hsame⟩

end Steps

/-! ## The gas price -/

/-- **A log that loses the gas price**: it carries a diff that is accepted, and the last value
that the diff has for the price is `null`. -/
def NullsPrice (D : DriverExternal) (J : JsonSyntax) (l : Log) : Prop :=
  ∃ diff v, CarriesDiff D l diff ∧ J.parse diff = some v ∧ (diffOutcome J v).Accepted ∧
    (pricesOf J v).getLast? = some .null

section Price

variable {D : DriverExternal} {J : JsonSyntax} {l : Log} {bs bs' : BlockState}

/-- The price is lost just by a last `null`. -/
theorem minGasPrice_updateRules {src rules : Rules} {diff : List UInt8}
    (hprice : src.economy.minGasPrice ≠ none)
    (h : updateRules (D.withJson J) src diff = some rules) :
    rules.economy.minGasPrice = none ↔
      ∃ v, J.parse diff = some v ∧ (diffOutcome J v).Accepted ∧ (pricesOf J v).getLast? =
        some .null := by
  obtain ⟨changed, hcopy, -⟩ := Option.bind_eq_some_iff.mp h
  rw [updateRules_withJson D J hcopy] at h
  cases hunmarshal : unmarshalRules J diff src with
  | none =>
    rw [hunmarshal] at h
    cases h
    refine ⟨fun hnone => absurd hnone hprice, ?_⟩
    rintro ⟨v, hparse, haccepted, -⟩
    rw [unmarshalRules, hparse, Option.bind_some, if_pos haccepted] at hunmarshal
    cases hunmarshal
  | some r =>
    rw [hunmarshal] at h
    cases h
    obtain ⟨v, hparse, hv⟩ := Option.bind_eq_some_iff.mp hunmarshal
    have haccepted : (diffOutcome J v).Accepted := by
      split at hv
      · assumption
      · cases hv
    refine (minGasPrice_unmarshalRules J hparse hunmarshal hprice).trans ?_
    constructor
    · intro hlast
      exact ⟨v, hparse, haccepted, hlast⟩
    · rintro ⟨v', hparse', -, hlast⟩
      rwa [Option.some.inj (hparse.symm.trans hparse')]

/-- One log: the gas price is lost if and only if the log sets it to `null`. -/
theorem minGasPrice_onNewLog (hD : D.updateValidatorPubkey ≠ D.updateNetworkRules)
    (hprice : bs.dirtyRules.economy.minGasPrice ≠ none)
    (h : onNewLog (D.withJson J) bs l = some bs') :
    bs'.dirtyRules.economy.minGasPrice = none ↔ NullsPrice D J l := by
  obtain ⟨diff, hdiff, hupdate⟩ | ⟨hnone, hsame⟩ := dirtyRules_onNewLog (D := D.withJson J) hD h
  · rw [minGasPrice_updateRules hprice hupdate]
    constructor
    · rintro ⟨v, hv⟩
      exact ⟨diff, v, ⟨hdiff.address, hdiff.topic, hdiff.len, hdiff.decoded⟩, hv⟩
    · rintro ⟨diff', v, hdiff', hv⟩
      obtain rfl := Option.some.inj (Option.some.inj (hdiff.decoded.symm.trans hdiff'.decoded))
      exact ⟨v, hv⟩
  · rw [hsame]
    refine ⟨fun h => absurd h hprice, ?_⟩
    rintro ⟨diff, v, hdiff, -⟩
    exact absurd ⟨hdiff.address, hdiff.topic, hdiff.len, hdiff.decoded⟩ (hnone diff)

end Price

/-! ## Runs -/

/-- The pending state is well formed: the weights are positive and there is a gas price, so that
the state and its rules can be copied. What may not change is as it was before the logs, and no
more epochs are to be skipped than before or than the limit. -/
structure WellFormedAfter (bs bs' : BlockState) : Prop extends Kept bs bs' where
  positive : Positive bs'.nextValidatorProfiles
  minGasPrice : bs'.dirtyRules.economy.minGasPrice ≠ none
  copyRules : bs'.dirtyRules.copy.isSome = true
  copy : bs'.copy.isSome = true

/-- What a log does, in any memory that holds the rules: a log of another address changes
nothing; `UpdateRules` with the diff of a log leaves all of the memory as it was, and if the
diff fails, then it returns the rules that it was given. -/
structure LogStep (D : DriverExternal) (J : JsonSyntax) (l : Log) (bs bs' : BlockState) : Prop where
  others : l.address ≠ driverAddress → bs' = bs
  update : ∀ diff, CarriesDiff D l diff → ∀ h src, RulesAt.Valid h src →
    src.view h = bs.dirtyRules →
      ∃ h' res failed, RulesAt.updateRules J h src diff = some (h', res, failed) ∧ h <+: h' ∧
        res.view h' = bs'.dirtyRules ∧
        (failed = true ↔ unmarshalRules J diff bs.dirtyRules = none) ∧
        (failed = true → res = src ∧ bs'.dirtyRules = bs.dirtyRules)

/-- The states that some logs lead through, and the steps between them, are as they should. -/
structure KeepsWellFormed (D : DriverExternal) (J : JsonSyntax) (bs : BlockState)
    (logs : List Log) :
    Prop where
  states : ∀ before, before <+: logs → ∀ bs₁,
    before.foldlM (onNewLog (D.withJson J)) bs = some bs₁ → WellFormedAfter bs bs₁
  steps : ∀ before l, before ++ [l] <+: logs → ∀ bs₁ bs₂,
    before.foldlM (onNewLog (D.withJson J)) bs = some bs₁ →
      onNewLog (D.withJson J) bs₁ l = some bs₂ → LogStep D J l bs₁ bs₂

section Runs

variable {D : DriverExternal} {J : JsonSyntax} {l : Log} {bs bs' : BlockState} {logs : List Log}

theorem WellFormedAfter.of_kept (h : Kept bs bs') (hpos : Positive bs.nextValidatorProfiles)
    (hprice : bs'.dirtyRules.economy.minGasPrice ≠ none) : WellFormedAfter bs bs' := by
  obtain ⟨price, hprice'⟩ := Option.ne_none_iff_exists'.mp hprice
  have hcopy : bs'.dirtyRules.copy = some bs'.dirtyRules := by rw [Rules.copy, hprice']; rfl
  refine ⟨h, h.weights hpos, hprice, by rw [hcopy]; rfl, ?_⟩
  rw [BlockState.copy, hcopy]
  rfl

/-- A log is one of the known steps. -/
theorem logStep (hD : D.updateValidatorPubkey ≠ D.updateNetworkRules)
    (h : onNewLog (D.withJson J) bs l = some bs') : LogStep D J l bs bs' := by
  constructor
  · intro haddress
    rw [onNewLog, if_pos haddress] at h
    exact (Option.some.inj h).symm
  · intro diff hdiff heap src hvalid hview
    obtain ⟨diff', hdiff', hupdate⟩ | ⟨hnone, -⟩ := dirtyRules_onNewLog (D := D.withJson J) hD h
    swap
    · exact absurd ⟨hdiff.address, hdiff.topic, hdiff.len, hdiff.decoded⟩ (hnone diff)
    obtain rfl := Option.some.inj (Option.some.inj (hdiff.decoded.symm.trans hdiff'.decoded))
    rw [← hview] at hupdate ⊢
    have hprice : (src.view heap).economy.minGasPrice ≠ none := by
      obtain ⟨_, hcopy, -⟩ := Option.bind_eq_some_iff.mp hupdate
      obtain ⟨price, hprice, -⟩ := Option.map_eq_some_iff.mp hcopy
      rw [hprice]
      exact Option.some_ne_none _
    obtain ⟨heap', res, failed, hupdateAt⟩ := RulesAt.exists_updateRules J diff hprice
    obtain ⟨hgrown, hfailed, hflag, hres⟩ := RulesAt.updateRules_spec D J hvalid hupdateAt
    have hres' := Option.some.inj (hres.symm.trans hupdate)
    refine ⟨heap', res, failed, hupdateAt, hgrown, hres', ?_, fun hf => ?_⟩
    · rw [hflag, Option.isNone_iff_eq_none]
    · exact ⟨(hfailed hf).1, hres'.symm.trans (hfailed hf).2⟩

/-- A whole run, if no log loses the gas price. -/
theorem wellFormedAfter_run (hD : D.updateValidatorPubkey ≠ D.updateNetworkRules)
    (hpos : Positive bs.nextValidatorProfiles) (hprice : bs.dirtyRules.economy.minGasPrice ≠ none)
    (hlogs : ∀ l ∈ logs, ¬ NullsPrice D J l)
    (h : logs.foldlM (onNewLog (D.withJson J)) bs = some bs') : WellFormedAfter bs bs' := by
  induction logs generalizing bs with
  | nil =>
    cases h
    exact .of_kept (.refl _) hpos hprice
  | cons l logs ih =>
    rw [List.foldlM_cons] at h
    obtain ⟨bs₁, hlog, h⟩ := Option.bind_eq_some_iff.mp h
    have hkept := Kept.onNewLog hlog
    have hprice₁ : bs₁.dirtyRules.economy.minGasPrice ≠ none :=
      mt (minGasPrice_onNewLog hD hprice hlog).mp (hlogs l List.mem_cons_self)
    have hrest := ih (hkept.weights hpos) hprice₁ (fun l' hl' =>
      hlogs l' (List.mem_cons_of_mem _ hl')) h
    exact .of_kept (hkept.trans hrest.toKept) hpos hrest.minGasPrice

end Runs

/-- **Logs keep the pending state well formed** unless one of them loses the gas price. For
every state and every list of logs on which the listener returns, all states that the logs lead
through are well formed if and only if none of the logs carries a diff which sets the gas price
to `null`. -/
theorem keepsWellFormed_iff (D : DriverExternal)
    (hD : D.updateValidatorPubkey ≠ D.updateNetworkRules) (J : JsonSyntax) (bs bs' : BlockState)
    (logs : List Log) (hpos : Positive bs.nextValidatorProfiles)
    (hprice : bs.dirtyRules.economy.minGasPrice ≠ none)
    (hrun : logs.foldlM (onNewLog (D.withJson J)) bs = some bs') :
    KeepsWellFormed D J bs logs ↔ ∀ l ∈ logs, ¬ NullsPrice D J l := by
  constructor
  · intro h l hl hnulls
    obtain ⟨before, after, rfl⟩ := List.append_of_mem hl
    have hgrown : before ++ [l] <+: before ++ l :: after := ⟨after, by simp⟩
    rw [List.foldlM_append] at hrun
    obtain ⟨bs₁, hbefore, hrun⟩ := Option.bind_eq_some_iff.mp hrun
    rw [List.foldlM_cons] at hrun
    obtain ⟨bs₂, hlog, -⟩ := Option.bind_eq_some_iff.mp hrun
    have hrun₂ : (before ++ [l]).foldlM (onNewLog (D.withJson J)) bs = some bs₂ := by
      rw [List.foldlM_append, hbefore]
      change (onNewLog (D.withJson J) bs₁ l >>= pure) = _
      rw [hlog]
      rfl
    have h₁ := h.states before (List.prefix_append _ _) bs₁ hbefore
    have h₂ := h.states (before ++ [l]) hgrown bs₂ hrun₂
    exact h₂.minGasPrice ((minGasPrice_onNewLog hD h₁.minGasPrice hlog).mpr hnulls)
  · intro h
    refine ⟨fun before hbefore bs₁ hrun₁ => ?_, fun _ l _ bs₁ bs₂ _ hlog => logStep hD hlog⟩
    exact wellFormedAfter_run hD hpos hprice (fun l hl => h l (hbefore.subset hl)) hrun₁

/-- The bytes of a text. -/
def textBytes (text : List Char) : List UInt8 := text.map fun c => UInt8.ofNat c.toNat

/-- A diff of the gas price. -/
def priceDiff (price : List Char) : List UInt8 :=
  textBytes ("\x7b\"Economy\":\x7b\"MinGasPrice\":".toList ++ price ++ "\x7d\x7d".toList)

/-- The value of a diff of the gas price. -/
def priceValue (price : Value) : Value := .object [("Economy", .object [("MinGasPrice", price)])]

/-- JSON as far as it is needed for two diffs. -/
def sampleSyntax : JsonSyntax where
  parse diff :=
    if diff = priceDiff ['7'] then some (priceValue (.number false 7 true))
    else if diff = priceDiff ['n', 'u', 'l', 'l'] then some (priceValue .null)
    else none
  equalFold s s' := s.toLower = s'.toLower
  spoiled := 0

/-- A log with a diff of the rules. -/
def diffLog (diff : List UInt8)
    (h : (wordOf 32 ++ wordOf diff.length ++ diff).length + 0 < 2 ^ 63) :
    Log where
  address := driverAddress
  topics := [copyBytes 32 [3]]
  data := ⟨wordOf 32 ++ wordOf diff.length ++ diff, [], h⟩

/-- The gas price is set to 7. -/
def sevenLog : Log := diffLog (priceDiff ['7']) (by decide +kernel)

/-- The gas price is set to `null`. -/
def nullLog : Log := diffLog (priceDiff ['n', 'u', 'l', 'l']) (by decide +kernel)

theorem positive_sampleBlockState : Positive sampleBlockState.nextValidatorProfiles := by
  intro id profile h
  rw [show sampleBlockState.nextValidatorProfiles = ∅ from rfl, Finmap.lookup_empty] at h
  cases h

theorem pricesOf_priceValue (price : Value) :
    pricesOf sampleSyntax (priceValue price) = [price] := by
  rfl

theorem sevenLog_price : ¬ NullsPrice sampleWorld.driver sampleSyntax sevenLog := by
  rintro ⟨diff, v, hdiff, hparse, -, hlast⟩
  have hdecoded : decodeDataBytes sevenLog = some (some (priceDiff ['7'])) := by decide +kernel
  obtain rfl := Option.some.inj (Option.some.inj (hdecoded.symm.trans hdiff.decoded))
  obtain rfl : priceValue (.number false 7 true) = v := Option.some.inj hparse
  rw [pricesOf_priceValue] at hlast
  cases hlast

theorem keepsWellFormed_sevenLog :
    ∃ bs',
      [sevenLog].foldlM (onNewLog (sampleWorld.driver.withJson sampleSyntax)) sampleBlockState =
        some bs' ∧ bs'.dirtyRules.economy.minGasPrice = some 7 ∧
      KeepsWellFormed sampleWorld.driver sampleSyntax sampleBlockState [sevenLog] := by
  obtain ⟨bs', hbs', hseven⟩ : ∃ bs',
      [sevenLog].foldlM (onNewLog (sampleWorld.driver.withJson sampleSyntax)) sampleBlockState =
        some bs' ∧ bs'.dirtyRules.economy.minGasPrice = some 7 := by
    decide +kernel
  refine ⟨bs', hbs', hseven, ?_⟩
  refine (keepsWellFormed_iff sampleWorld.driver
    (by decide) sampleSyntax sampleBlockState bs' [sevenLog]
    positive_sampleBlockState (by decide) hbs').mpr fun l hl => ?_
  obtain rfl := List.mem_singleton.mp hl
  exact sevenLog_price

/-- After a diff that sets the gas price to `null`, neither the rules nor the state can be
copied. -/
theorem nullLog_loses_price :
    Positive sampleBlockState.nextValidatorProfiles ∧
      sampleBlockState.dirtyRules.economy.minGasPrice ≠ none ∧
      (∃ bs', [nullLog].foldlM
        (onNewLog (sampleWorld.driver.withJson sampleSyntax)) sampleBlockState =
          some bs' ∧ bs'.dirtyRules.copy = none ∧ bs'.copy = none) ∧
      ¬ KeepsWellFormed sampleWorld.driver sampleSyntax sampleBlockState [nullLog] := by
  obtain ⟨bs', hbs', hprice⟩ : ∃ bs',
      [nullLog].foldlM (onNewLog (sampleWorld.driver.withJson sampleSyntax)) sampleBlockState =
        some bs' ∧ bs'.dirtyRules.economy.minGasPrice = none := by
    decide +kernel
  have hcopy : bs'.dirtyRules.copy = none := by rw [Rules.copy, hprice]; rfl
  refine ⟨positive_sampleBlockState, by decide, ⟨bs', hbs', hcopy, ?_⟩, fun h => ?_⟩
  · rw [BlockState.copy, hcopy]
    rfl
  · exact (h.states [nullLog] (List.prefix_refl _) bs' hbs').minGasPrice hprice

end Zilionixx
