import Zilionixx.JsonDiff
import Zilionixx.LogListeners

/-!
# Diffs of the network rules

A log of the driver contract may carry a diff of the network rules, which is unmarshaled over
a copy of the rules that are to come (`UpdateRules` in `marshal.go`). The rules have one
pointer, the minimum gas price; the copy has its own, so that a diff that fails leaves nothing
behind. But a diff may set it to `null`.

What the diff writes is a list, as for every JSON target. It is applied to rules as values, and
to rules with a pointer into a heap; the second is what the code does, and the first what the
block processing goes on with.
-/

namespace Zilionixx

open JsonDiff

/-! ## The fields of the rules -/

/-- The fields of `GasPowerRules` -/
inductive GasPowerField where
  | allocPerSec
  | maxAllocPeriod
  | startupAllocPeriod
  | minStartupGas

/-- The numbers in `Rules` -/
inductive NumField where
  | networkID
  | maxParents
  | maxFreeParents
  | maxExtraData
  | maxEpochGas
  | maxEpochDuration
  | maxBlockGas
  | maxEmptyBlockSkipPeriod
  | blockMissedSlack
  | maxEventGas
  | eventGas
  | parentGas
  | extraDataGas
  | shortGasPower (f : GasPowerField)
  | longGasPower (f : GasPowerField)

/-- A field is set. -/
def GasPowerRules.set (r : GasPowerRules) (n : ℕ) : GasPowerField → GasPowerRules
  | .allocPerSec => { r with allocPerSec := UInt64.ofNat n }
  | .maxAllocPeriod => { r with maxAllocPeriod := UInt64.ofNat n }
  | .startupAllocPeriod => { r with startupAllocPeriod := UInt64.ofNat n }
  | .minStartupGas => { r with minStartupGas := UInt64.ofNat n }

namespace Rules

/-- A number is set. -/
def setNum (r : Rules) (n : ℕ) : NumField → Rules
  | .networkID => { r with networkID := UInt64.ofNat n }
  | .maxParents => { r with dag := { r.dag with maxParents := UInt32.ofNat n } }
  | .maxFreeParents => { r with dag := { r.dag with maxFreeParents := UInt32.ofNat n } }
  | .maxExtraData => { r with dag := { r.dag with maxExtraData := UInt32.ofNat n } }
  | .maxEpochGas => { r with epochs := { r.epochs with maxEpochGas := UInt64.ofNat n } }
  | .maxEpochDuration => { r with epochs := { r.epochs with maxEpochDuration := UInt64.ofNat n } }
  | .maxBlockGas => { r with blocks := { r.blocks with maxBlockGas := UInt64.ofNat n } }
  | .maxEmptyBlockSkipPeriod =>
    { r with blocks := { r.blocks with maxEmptyBlockSkipPeriod := UInt64.ofNat n } }
  | .blockMissedSlack => { r with economy := { r.economy with blockMissedSlack := UInt64.ofNat n } }
  | .maxEventGas =>
    { r with economy := { r.economy with
      gas := { r.economy.gas with maxEventGas := UInt64.ofNat n } } }
  | .eventGas =>
    { r with economy := { r.economy with
      gas := { r.economy.gas with eventGas := UInt64.ofNat n } } }
  | .parentGas =>
    { r with economy := { r.economy with
      gas := { r.economy.gas with parentGas := UInt64.ofNat n } } }
  | .extraDataGas =>
    { r with economy := { r.economy with
      gas := { r.economy.gas with extraDataGas := UInt64.ofNat n } } }
  | .shortGasPower f =>
    { r with economy := { r.economy with shortGasPower := r.economy.shortGasPower.set n f } }
  | .longGasPower f =>
    { r with economy := { r.economy with longGasPower := r.economy.longGasPower.set n f } }

/-- The minimum gas price is set. -/
def setPrice (r : Rules) (price : Option ℤ) : Rules :=
  { r with economy := { r.economy with minGasPrice := price } }

theorem setNum_setPrice (r : Rules) (price : Option ℤ) (n : ℕ) (f : NumField) :
    (r.setPrice price).setNum n f = (r.setNum n f).setPrice price := by
  cases f <;> rfl

end Rules

/-- What a diff may write. -/
inductive RulesWrite where
  | name (s : String)
  | num (f : NumField) (n : ℕ)
  | berlin (b : Bool)
  /-- `none` is `nil` -/
  | price (value : Option ℤ)

namespace RulesWrite

/-- The rules after a write. -/
def apply (r : Rules) : RulesWrite → Rules
  | name s => { r with name := s }
  | num f n => r.setNum n f
  | berlin b => { r with upgrades := { r.upgrades with berlin := b } }
  | price value => r.setPrice value

/-- The price that is written. -/
def price? : RulesWrite → Option (Option ℤ)
  | price value => some value
  | _ => none

end RulesWrite

/-- What `json.Unmarshal` knows of JSON. -/
structure JsonSyntax where
  /-- the value of a text, if the text is valid -/
  parse : List UInt8 → Option Value
  /-- whether two keys are the same but for the case -/
  equalFold : String → String → Bool
  /-- what a big number is left with when it could not be read -/
  spoiled : ℤ

section Targets

variable (J : JsonSyntax)

/-- `GasPowerRules` -/
def gasPowerTarget (window : GasPowerField → NumField) : Target RulesWrite :=
  .struct J.equalFold
    [("AllocPerSec", .uint 64 (.num (window .allocPerSec))),
      ("MaxAllocPeriod", .uint 64 (.num (window .maxAllocPeriod))),
      ("StartupAllocPeriod", .uint 64 (.num (window .startupAllocPeriod))),
      ("MinStartupGas", .uint 64 (.num (window .minStartupGas)))]

/-- `GasRules` -/
def gasTarget : Target RulesWrite :=
  .struct J.equalFold
    [("MaxEventGas", .uint 64 (.num .maxEventGas)),
      ("EventGas", .uint 64 (.num .eventGas)),
      ("ParentGas", .uint 64 (.num .parentGas)),
      ("ExtraDataGas", .uint 64 (.num .extraDataGas))]

/-- `DagRules` -/
def dagTarget : Target RulesWrite :=
  .struct J.equalFold
    [("MaxParents", .uint 32 (.num .maxParents)),
      ("MaxFreeParents", .uint 32 (.num .maxFreeParents)),
      ("MaxExtraData", .uint 32 (.num .maxExtraData))]

/-- `EpochsRules` -/
def epochsTarget : Target RulesWrite :=
  .struct J.equalFold
    [("MaxEpochGas", .uint 64 (.num .maxEpochGas)),
      ("MaxEpochDuration", .uint 64 (.num .maxEpochDuration))]

/-- `BlocksRules` -/
def blocksTarget : Target RulesWrite :=
  .struct J.equalFold
    [("MaxBlockGas", .uint 64 (.num .maxBlockGas)),
      ("MaxEmptyBlockSkipPeriod", .uint 64 (.num .maxEmptyBlockSkipPeriod))]

/-- `Upgrades` -/
def upgradesTarget : Target RulesWrite := .struct J.equalFold [("Berlin", .bool .berlin)]

/-- `MinGasPrice` -/
def priceTarget : Target RulesWrite := .bigInt .price (.price (some J.spoiled))

/-- The fields of `EconomyRules` -/
def economyFields : List (String × Target RulesWrite) :=
  [("BlockMissedSlack", .uint 64 (.num .blockMissedSlack)),
    ("Gas", gasTarget J),
    ("MinGasPrice", priceTarget J),
    ("ShortGasPower", gasPowerTarget J .shortGasPower),
    ("LongGasPower", gasPowerTarget J .longGasPower)]

/-- The fields of `Rules` -/
def rulesFields : List (String × Target RulesWrite) :=
  [("Name", .string .name),
    ("NetworkID", .uint 64 (.num .networkID)),
    ("Dag", dagTarget J),
    ("Epochs", epochsTarget J),
    ("Blocks", blocksTarget J),
    ("Economy", .struct J.equalFold (economyFields J)),
    ("Upgrades", upgradesTarget J)]

/-- What a diff writes to the rules. -/
def diffOutcome (diff : Value) : JsonDiff.Outcome RulesWrite :=
  Target.struct J.equalFold (rulesFields J) diff

/-- `json.Unmarshal` over given rules; `none` is an error. -/
def unmarshalRules (diff : List UInt8) (r : Rules) : Option Rules :=
  (J.parse diff).bind fun v =>
    if (diffOutcome J v).Accepted then some ((diffOutcome J v).writes.foldl RulesWrite.apply r)
    else none

end Targets

/-! ## The gas price of a diff -/

/-- The values that a diff has for the gas price, in their order. -/
def pricesOf (J : JsonSyntax) (diff : Value) : List Value :=
  (Target.valuesOf J.equalFold (rulesFields J) "Economy" diff).flatMap
    (Target.valuesOf J.equalFold (economyFields J) "MinGasPrice")

/-- What the gas price is set to. -/
def priceOf (J : JsonSyntax) : Value → Option ℤ
  | .number negative n true => some (if negative then -(n : ℤ) else n)
  | .null => none
  | _ => some J.spoiled

section Prices

variable (J : JsonSyntax)

@[simp]
theorem unseen_num (bits : ℕ) (f : NumField) :
    Target.Unseen RulesWrite.price? (.uint bits (.num f)) := Target.unseen_uint fun _ => rfl

theorem unseen_gasPower (window : GasPowerField → NumField) :
    Target.Unseen RulesWrite.price? (gasPowerTarget J window) := Target.unseen_struct (by simp)

theorem unseen_gas : Target.Unseen RulesWrite.price? (gasTarget J) := Target.unseen_struct (by simp)

theorem unseen_dag : Target.Unseen RulesWrite.price? (dagTarget J) := Target.unseen_struct (by simp)

theorem unseen_epochs : Target.Unseen RulesWrite.price? (epochsTarget J) :=
  Target.unseen_struct (by simp)

theorem unseen_blocks : Target.Unseen RulesWrite.price? (blocksTarget J) :=
  Target.unseen_struct (by simp)

theorem unseen_upgrades : Target.Unseen RulesWrite.price? (upgradesTarget J) := by
  refine Target.unseen_struct fun f hf => ?_
  obtain rfl := List.mem_singleton.mp hf
  exact Target.unseen_bool fun _ => rfl

/-- Of the economy, only the gas price writes one. -/
theorem price?_economy (f : String × Target RulesWrite) (hf : f ∈ economyFields J) :
    f = ("MinGasPrice", priceTarget J) ∨
      f.1 ≠ "MinGasPrice" ∧ Target.Unseen RulesWrite.price? f.2 := by
  simp only [economyFields, List.mem_cons, List.not_mem_nil, or_false] at hf
  obtain rfl | rfl | rfl | rfl | rfl := hf
  · exact .inr ⟨by simp, unseen_num _ _⟩
  · exact .inr ⟨by simp, unseen_gas J⟩
  · exact .inl rfl
  · exact .inr ⟨by simp, unseen_gasPower J _⟩
  · exact .inr ⟨by simp, unseen_gasPower J _⟩

/-- Of the rules, only the economy writes a gas price. -/
theorem price?_rules (f : String × Target RulesWrite) (hf : f ∈ rulesFields J) :
    f = ("Economy", .struct J.equalFold (economyFields J)) ∨
      f.1 ≠ "Economy" ∧ Target.Unseen RulesWrite.price? f.2 := by
  simp only [rulesFields, List.mem_cons, List.not_mem_nil, or_false] at hf
  obtain rfl | rfl | rfl | rfl | rfl | rfl | rfl := hf
  · exact .inr ⟨by simp, Target.unseen_string fun _ => rfl⟩
  · exact .inr ⟨by simp, unseen_num _ _⟩
  · exact .inr ⟨by simp, unseen_dag J⟩
  · exact .inr ⟨by simp, unseen_epochs J⟩
  · exact .inr ⟨by simp, unseen_blocks J⟩
  · exact .inl rfl
  · exact .inr ⟨by simp, unseen_upgrades J⟩

theorem prices_priceTarget (v : Value) :
    (priceTarget J v).writes.filterMap RulesWrite.price? = [priceOf J v] := by
  cases v with
  | number negative n plain => cases plain <;> rfl
  | _ => rfl

theorem priceOf_eq_none {v : Value} : priceOf J v = none ↔ v = .null := by
  cases v with
  | number negative n plain => cases plain <;> simp [priceOf]
  | _ => simp [priceOf]

/-- The prices that are written are those of the diff. -/
theorem prices_diffOutcome {diff : Value} (h : (diffOutcome J diff).Accepted) :
    (diffOutcome J diff).writes.filterMap RulesWrite.price? =
      (pricesOf J diff).map (priceOf J) := by
  rw [diffOutcome, Target.seen_struct (price?_rules J) h, pricesOf, List.map_flatMap]
  refine List.flatMap_congr fun v hv => ?_
  have haccepted := Target.accepted_of_mem_valuesOf (price?_rules J) h hv
  rw [Target.seen_struct (price?_economy J) haccepted, List.map_eq_flatMap]
  exact List.flatMap_congr fun v _ => prices_priceTarget J v

end Prices

/-- The gas price after some writes is the last one that is written. -/
theorem minGasPrice_foldl (writes : List RulesWrite) (r : Rules) :
    (writes.foldl RulesWrite.apply r).economy.minGasPrice =
      ((writes.filterMap RulesWrite.price?).getLast?).getD r.economy.minGasPrice := by
  induction writes using List.reverseRecOn with
  | nil => rfl
  | append_singleton writes w ih =>
    rw [List.foldl_append, List.filterMap_append]
    cases w with
    | price value => simp [RulesWrite.price?, RulesWrite.apply, Rules.setPrice]
    | name s => simpa [RulesWrite.price?, RulesWrite.apply] using ih
    | berlin b => simpa [RulesWrite.price?, RulesWrite.apply] using ih
    | num f n =>
      have hkept : ∀ r : Rules, (r.setNum n f).economy.minGasPrice = r.economy.minGasPrice := by
        intro r
        cases f <;> rfl
      simpa [RulesWrite.price?, RulesWrite.apply, hkept] using ih

/-- A diff that is accepted sets the gas price to `nil` if and only if the last value that it
has for it is `null`. -/
theorem minGasPrice_unmarshalRules (J : JsonSyntax) {diff : List UInt8} {v : Value} {r r' : Rules}
    (hparse : J.parse diff = some v) (h : unmarshalRules J diff r = some r')
    (hr : r.economy.minGasPrice ≠ none) :
    r'.economy.minGasPrice = none ↔ (pricesOf J v).getLast? = some .null := by
  rw [unmarshalRules, hparse, Option.bind_some] at h
  split at h
  · rename_i haccepted
    cases h
    rw [minGasPrice_foldl, prices_diffOutcome J haccepted, List.getLast?_map]
    cases (pricesOf J v).getLast? with
    | none => simpa using hr
    | some last =>
      rw [Option.map_some, Option.getD_some, Option.some.injEq]
      exact priceOf_eq_none J
  · cases h

/-- The driver module, with JSON diffs. -/
def DriverExternal.withJson (D : DriverExternal) (J : JsonSyntax) : DriverExternal :=
  { D with unmarshalRules := Zilionixx.unmarshalRules J }

/-- Without pointers, a copy of the rules is the rules. -/
theorem updateRules_withJson (D : DriverExternal) (J : JsonSyntax) {src changed : Rules}
    (hcopy : src.copy = some changed) (diff : List UInt8) :
    updateRules (D.withJson J) src diff =
      match unmarshalRules J diff src with
      | none => some src
      | some changed => some { changed with networkID := src.networkID, name := src.name } := by
  obtain rfl := Rules.copy_eq_some hcopy
  rw [updateRules, hcopy]
  rfl

/-! ## Rules with a pointer -/

/-- The big numbers in memory. -/
abbrev Heap := List ℤ

/-- `Rules` in memory: the gas price is where a pointer says. -/
structure RulesAt where
  /-- all other fields -/
  rules : Rules
  /-- `none` is `nil` -/
  price : Option ℕ

namespace RulesAt

/-- The rules that are seen in memory. -/
def view (h : Heap) (p : RulesAt) : Rules := p.rules.setPrice (p.price.bind fun loc => h[loc]?)

/-- The pointer is `nil`, or it points to something. -/
def Valid (h : Heap) (p : RulesAt) : Prop := ∀ loc, p.price = some loc → loc < h.length

/-- A number is written to where the pointer points, and somewhere new if it is `nil`. -/
def store (h : Heap) (p : RulesAt) (z : ℤ) : Heap × RulesAt :=
  match p.price with
  | some loc => (h.set loc z, p)
  | none => (h ++ [z], { p with price := some h.length })

/-- A write of a diff. -/
def write (m : Heap × RulesAt) : RulesWrite → Heap × RulesAt
  | .price none => (m.1, { m.2 with price := none })
  | .price (some z) => store m.1 m.2 z
  | w => (m.1, { m.2 with rules := w.apply m.2.rules })

/-- `Rules.Copy`: the number is copied to somewhere new. A `nil` pointer is a panic. -/
def copy (h : Heap) (p : RulesAt) : Option (Heap × RulesAt) :=
  (p.price.bind fun loc => h[loc]?).map fun z => (h ++ [z], { p with price := some h.length })

/-- `zilionixx.UpdateRules`, with whether there is an error. -/
def updateRules (J : JsonSyntax) (h : Heap) (src : RulesAt) (diff : List UInt8) :
    Option (Heap × RulesAt × Bool) := do
  let changed ← src.copy h
  match J.parse diff with
  | none => pure (changed.1, src, true)
  | some v =>
    -- all that can be written is written, also if there is an error
    let changed := (diffOutcome J v).writes.foldl write changed
    if (diffOutcome J v).Accepted then
      -- protect readonly fields
      let rules :=
        { changed.2.rules with networkID := src.rules.networkID, name := src.rules.name }
      pure (changed.1, { changed.2 with rules := rules }, false)
    else pure (changed.1, src, true)

/-- Memory that has grown by some numbers, and rules that point to these or to nothing. -/
structure Fresh (h₀ : Heap) (m : Heap × RulesAt) : Prop where
  kept : h₀ <+: m.1
  price : ∀ loc, m.2.price = some loc → h₀.length ≤ loc ∧ loc < m.1.length

theorem fresh_copy {h : Heap} {p : RulesAt} {m : Heap × RulesAt} (hm : p.copy h = some m) :
    Fresh h m ∧ m.2.view m.1 = p.view h := by
  obtain ⟨z, hz, rfl⟩ := Option.map_eq_some_iff.mp hm
  refine ⟨⟨List.prefix_append _ _, ?_⟩, ?_⟩
  · rintro loc ⟨⟩
    simp
  · rw [view, view, hz]
    simp

theorem fresh_store {h₀ h : Heap} {p : RulesAt} (hf : Fresh h₀ (h, p)) (z : ℤ) :
    Fresh h₀ (store h p z) ∧
      (store h p z).2.view (store h p z).1 = (p.view h).setPrice (some z) := by
  rw [store]
  split
  · rename_i loc hloc
    obtain ⟨hle, hlt⟩ := hf.price loc hloc
    obtain ⟨rest, hrest⟩ := hf.kept
    refine ⟨⟨?_, fun loc' hloc' => ?_⟩, ?_⟩
    · have hrest' : h = h₀ ++ rest := hrest.symm
      rw [hrest', List.set_append_right _ _ hle]
      exact List.prefix_append _ _
    · rw [List.length_set]
      exact hf.price loc' hloc'
    · have hlt' : loc < h.length := hlt
      simp [view, hloc, hlt', Rules.setPrice]
  · refine ⟨⟨hf.kept.trans (List.prefix_append _ _), ?_⟩, ?_⟩
    · rintro loc ⟨⟩
      exact ⟨hf.kept.length_le, by simp⟩
    · simp [view, Rules.setPrice]

/-- Each write is one of the values that are seen, and nothing of the old memory changes. -/
theorem fresh_write {h₀ : Heap} {m : Heap × RulesAt} (hf : Fresh h₀ m) (w : RulesWrite) :
    Fresh h₀ (write m w) ∧ (write m w).2.view (write m w).1 = w.apply (m.2.view m.1) := by
  cases w with
  | price value =>
    cases value with
    | none => exact ⟨⟨hf.kept, nofun⟩, rfl⟩
    | some z => exact fresh_store hf z
  | name s => exact ⟨⟨hf.kept, hf.price⟩, rfl⟩
  | berlin b => exact ⟨⟨hf.kept, hf.price⟩, rfl⟩
  | num f n => exact ⟨⟨hf.kept, hf.price⟩, (Rules.setNum_setPrice _ _ _ _).symm⟩

theorem fresh_foldl {h₀ : Heap} {m : Heap × RulesAt} (hf : Fresh h₀ m) (writes : List RulesWrite) :
    Fresh h₀ (writes.foldl write m) ∧
      (writes.foldl write m).2.view (writes.foldl write m).1 =
        writes.foldl RulesWrite.apply (m.2.view m.1) := by
  induction writes generalizing m with
  | nil => exact ⟨hf, rfl⟩
  | cons w writes ih =>
    obtain ⟨hfresh, hview⟩ := fresh_write hf w
    rw [List.foldl_cons, List.foldl_cons, ← hview]
    exact ih hfresh

/-- What has been seen through a pointer is still seen if memory has only grown. -/
theorem view_of_grown {h h' : Heap} {p : RulesAt} (hp : p.Valid h) (hh : h <+: h') :
    p.view h' = p.view h := by
  obtain ⟨rest, rfl⟩ := hh
  rw [view, view]
  cases hprice : p.price with
  | none => rfl
  | some loc => rw [Option.bind_some, Option.bind_some, List.getElem?_append_left (hp loc hprice)]

/-- **`UpdateRules` does not write to what it shares.** Whether or not the diff fails, all
numbers in memory are as they were; a diff that fails returns the very rules it was given; and
the rules that are returned are those of `updateRules`. -/
theorem updateRules_spec (D : DriverExternal) (J : JsonSyntax) {h h' : Heap} {src res : RulesAt}
    {diff : List UInt8} {failed : Bool} (hsrc : src.Valid h)
    (hupdate : updateRules J h src diff = some (h', res, failed)) :
    h <+: h' ∧ (failed = true → res = src ∧ res.view h' = src.view h) ∧
      failed = (unmarshalRules J diff (src.view h)).isNone ∧
      Zilionixx.updateRules (D.withJson J) (src.view h) diff = some (res.view h') := by
  obtain ⟨changed, hcopy, hupdate⟩ := Option.bind_eq_some_iff.mp hupdate
  obtain ⟨hfresh, hview⟩ := fresh_copy hcopy
  have hcopied : (src.view h).copy = some (src.view h) := by
    obtain ⟨z, hz, -⟩ := Option.map_eq_some_iff.mp hcopy
    rw [Rules.copy, view, hz]
    rfl
  rw [updateRules_withJson D J hcopied, unmarshalRules]
  cases hparse : J.parse diff with
  | none =>
    rw [hparse] at hupdate
    cases hupdate
    rw [view_of_grown hsrc hfresh.kept]
    exact ⟨hfresh.kept, fun _ => ⟨rfl, rfl⟩, rfl, rfl⟩
  | some v =>
    rw [hparse] at hupdate
    obtain ⟨hfresh', hview'⟩ := fresh_foldl hfresh (diffOutcome J v).writes
    rw [hview] at hview'
    rw [Option.bind_some, ← hview']
    simp only at hupdate
    split at hupdate
    · rename_i haccepted
      cases hupdate
      rw [if_pos haccepted]
      exact ⟨hfresh'.kept, fun hfailed => absurd hfailed Bool.false_ne_true, rfl, rfl⟩
    · rename_i haccepted
      cases hupdate
      rw [if_neg haccepted, view_of_grown hsrc hfresh'.kept]
      exact ⟨hfresh'.kept, fun _ => ⟨rfl, rfl⟩, rfl, rfl⟩

/-- The pointer is all that `UpdateRules` may panic on. -/
theorem exists_updateRules (J : JsonSyntax) {h : Heap} {src : RulesAt} (diff : List UInt8)
    (hprice : (src.view h).economy.minGasPrice ≠ none) :
    ∃ h' res failed, updateRules J h src diff = some (h', res, failed) := by
  obtain ⟨z, hz⟩ : ∃ z, (src.price.bind fun loc => h[loc]?) = some z :=
    Option.ne_none_iff_exists'.mp hprice
  rw [updateRules, copy, hz]
  simp only [Option.map_some, Option.bind_eq_bind, Option.bind_some]
  split
  · exact ⟨_, _, _, rfl⟩
  · split
    · exact ⟨_, _, _, rfl⟩
    · exact ⟨_, _, _, rfl⟩

end RulesAt

end Zilionixx
