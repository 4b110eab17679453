import Zilionixx.TxSortedMap

/-!
# `evmcore`: transactions by hash

`txLookup` of `tx_pool.go` has all transactions of the pool by hash, the local and the remote ones
apart, and the slots that they take.
-/

namespace Zilionixx

/-- What the pool computes from a transaction. -/
structure TxInfo where
  /-- `tx.Hash()` -/
  hash : Transaction → Hash
  /-- `types.Sender`; `none` if the signature is invalid -/
  sender : Transaction → Option Address
  /-- `tx.Size()` -/
  size : Transaction → ℕ

/-- `txSlotSize` -/
def txSlotSize : ℕ := 32 * 1024

/-- `numSlots` -/
def TxInfo.numSlots (I : TxInfo) (tx : Transaction) : ℕ :=
  (I.size tx + txSlotSize - 1) / txSlotSize

/-- `accountSet.containsTx` -/
def TxInfo.containsTx (I : TxInfo) (accounts : List Address) (tx : Transaction) : Bool :=
  (I.sender tx).any fun a => accounts.contains a

/-- Transactions by hash. -/
abbrev TxsByHash := AssocMap.Map Hash Transaction

namespace TxsByHash

variable (I : TxInfo)

/-- The slots that the transactions take. -/
def slots (txs : TxsByHash) : ℕ :=
  AssocMap.total I.numSlots txs

/-- Every transaction is at its hash. -/
def Keyed (txs : TxsByHash) : Prop :=
  ∀ h tx, txs.lookup h = some tx → I.hash tx = h

variable {I} {txs : TxsByHash}

theorem Keyed.insert (hkeyed : txs.Keyed I) (tx : Transaction) :
    Keyed I (txs.insert (I.hash tx) tx) := by
  intro h t hlookup
  by_cases hh : h = I.hash tx
  · subst hh
    rw [AList.lookup_insert] at hlookup
    rw [← Option.some.inj hlookup]
  · rw [AList.lookup_insert_ne hh] at hlookup
    exact hkeyed h t hlookup

theorem Keyed.erase (hkeyed : txs.Keyed I) (h : Hash) : Keyed I (txs.erase h) := by
  intro h' t hlookup
  by_cases hh : h' = h
  · rw [hh, AList.lookup_erase] at hlookup
    cases hlookup
  · rw [AList.lookup_erase_ne hh] at hlookup
    exact hkeyed h' t hlookup

end TxsByHash

/-- `txLookup` -/
structure TxLookup where
  /-- `slots` -/
  slots : ℤ
  /-- `locals` -/
  locals : TxsByHash
  /-- `remotes` -/
  remotes : TxsByHash

namespace TxLookup

variable (I : TxInfo)

/-- `newTxLookup` -/
def new : TxLookup := ⟨0, ∅, ∅⟩

/-- `Get` -/
def get (t : TxLookup) (h : Hash) : Option Transaction :=
  (t.locals.lookup h).or (t.remotes.lookup h)

/-- `GetRemote` -/
def getRemote (t : TxLookup) (h : Hash) : Option Transaction :=
  t.remotes.lookup h

/-- `OnlyNotExisting` -/
def onlyNotExisting (t : TxLookup) (hashes : List Hash) : List Hash :=
  hashes.filter fun h => (t.locals.lookup h).isNone && (t.remotes.lookup h).isNone

/-- `LocalCount` -/
def localCount (t : TxLookup) : ℕ :=
  t.locals.entries.length

/-- `RemoteCount` -/
def remoteCount (t : TxLookup) : ℕ :=
  t.remotes.entries.length

/-- `Count` -/
def count (t : TxLookup) : ℕ :=
  t.localCount + t.remoteCount

/-- `Add` -/
def add (t : TxLookup) (tx : Transaction) (isLocal : Bool) : TxLookup where
  slots := t.slots + I.numSlots tx
  locals := if isLocal then t.locals.insert (I.hash tx) tx else t.locals
  remotes := if isLocal then t.remotes else t.remotes.insert (I.hash tx) tx

/-- `Remove` -/
def remove (t : TxLookup) (h : Hash) : TxLookup :=
  match t.get h with
  | none => t
  | some tx =>
    { slots := t.slots - I.numSlots tx
      locals := t.locals.erase h
      remotes := t.remotes.erase h }

/-- `RemoteToLocals`, which returns how many transactions migrate. -/
def remoteToLocals (t : TxLookup) (accounts : List Address) : ℕ × TxLookup :=
  let migrating := t.remotes.entries.filter fun e => I.containsTx accounts e.2
  (migrating.length,
    { t with
      locals := AssocMap.setAll migrating t.locals
      remotes := AssocMap.keep (fun _ tx => !I.containsTx accounts tx) t.remotes })

/-- Every transaction is at its hash, in one of the maps, and its slots are counted. -/
structure WF (t : TxLookup) : Prop where
  locals : t.locals.Keyed I
  remotes : t.remotes.Keyed I
  disjoint : ∀ h tx, t.remotes.lookup h = some tx → t.locals.lookup h = none
  slots : t.slots = (t.locals.slots I + t.remotes.slots I : ℕ)

variable {I} {t : TxLookup} {tx : Transaction} {h : Hash}

/-- An empty lookup is well formed. -/
theorem wf_new : new.WF I where
  locals := by
    intro h tx hlookup
    cases hlookup
  remotes := by
    intro h tx hlookup
    cases hlookup
  disjoint := by
    intro h tx hlookup
    cases hlookup
  slots := rfl

theorem get_eq_none :
    t.get h = none ↔ t.locals.lookup h = none ∧ t.remotes.lookup h = none :=
  Option.or_eq_none_iff

/-- A transaction is in one of the maps. -/
theorem WF.get_cases (ht : t.WF I) (hget : t.get h = some tx) :
    t.locals.lookup h = some tx ∧ t.remotes.lookup h = none ∨
      t.locals.lookup h = none ∧ t.remotes.lookup h = some tx := by
  rcases Option.or_eq_some_iff.mp hget with hlocal | hremote
  · refine .inl ⟨hlocal, ?_⟩
    by_contra hsome
    obtain ⟨t', ht'⟩ := Option.ne_none_iff_exists'.mp hsome
    rw [ht.disjoint h t' ht'] at hlocal
    cases hlocal
  · exact .inr hremote

/-! ## `Add` -/

theorem add_local (tx : Transaction) :
    t.add I tx true = ⟨t.slots + I.numSlots tx, t.locals.insert (I.hash tx) tx, t.remotes⟩ := rfl

theorem add_remote (tx : Transaction) :
    t.add I tx false = ⟨t.slots + I.numSlots tx, t.locals, t.remotes.insert (I.hash tx) tx⟩ := rfl

/-- Only a remote transaction is new among the remote ones. -/
theorem lookup_remotes_add {isLocal : Bool} {t' : Transaction}
    (hremote : (t.add I tx isLocal).remotes.lookup h = some t') :
    t.remotes.lookup h = some t' ∨ isLocal = false ∧ t' = tx := by
  cases isLocal with
  | true => exact .inl hremote
  | false =>
    rw [add_remote] at hremote
    by_cases hh : h = I.hash tx
    · rw [hh, AList.lookup_insert] at hremote
      exact .inr ⟨rfl, (Option.some.inj hremote).symm⟩
    · rw [AList.lookup_insert_ne hh] at hremote
      exact .inl hremote

/-- Adding what is not there keeps the slots right. -/
theorem WF.add (ht : t.WF I) (hfresh : t.get (I.hash tx) = none) (isLocal : Bool) :
    (t.add I tx isLocal).WF I := by
  rw [get_eq_none] at hfresh
  have hslots := ht.slots
  cases isLocal with
  | true =>
    rw [add_local]
    refine ⟨ht.locals.insert tx, ht.remotes, ?_, ?_⟩
    · intro h t' hremote
      have hne : h ≠ I.hash tx := by
        rintro rfl
        rw [hfresh.2] at hremote
        cases hremote
      exact (AList.lookup_insert_ne hne).trans (ht.disjoint h t' hremote)
    · have htotal := AssocMap.total_insert I.numSlots tx hfresh.1
      dsimp only [TxsByHash.slots] at hslots ⊢
      omega
  | false =>
    rw [add_remote]
    refine ⟨ht.locals, ht.remotes.insert tx, ?_, ?_⟩
    · intro h t' hremote
      by_cases hh : h = I.hash tx
      · rw [hh]
        exact hfresh.1
      · rw [AList.lookup_insert_ne hh] at hremote
        exact ht.disjoint h t' hremote
    · have htotal := AssocMap.total_insert I.numSlots tx hfresh.2
      dsimp only [TxsByHash.slots] at hslots ⊢
      omega

/-! ## `Remove` -/

theorem remove_of_none (hget : t.get h = none) : t.remove I h = t := by
  rw [remove, hget]

theorem remove_of_some (hget : t.get h = some tx) :
    t.remove I h = ⟨t.slots - I.numSlots tx, t.locals.erase h, t.remotes.erase h⟩ := by
  rw [remove, hget]

/-- Removing takes away one hash. -/
theorem lookup_remotes_remove {h h' : Hash} (hremote : (t.remove I h).remotes.lookup h' = some tx) :
    t.remotes.lookup h' = some tx ∧ h' ≠ h := by
  cases hget : t.get h with
  | none =>
    rw [remove_of_none hget] at hremote
    refine ⟨hremote, ?_⟩
    rintro rfl
    rw [(get_eq_none.mp hget).2] at hremote
    cases hremote
  | some tx' =>
    rw [remove_of_some hget] at hremote
    by_cases hh : h' = h
    · rw [hh, AList.lookup_erase] at hremote
      cases hremote
    · rw [AList.lookup_erase_ne hh] at hremote
      exact ⟨hremote, hh⟩

/-- Removing keeps the slots right. -/
theorem WF.remove (ht : t.WF I) (h : Hash) : (t.remove I h).WF I := by
  cases hget : t.get h with
  | none =>
    rw [remove_of_none hget]
    exact ht
  | some tx =>
    rw [remove_of_some hget]
    refine ⟨ht.locals.erase h, ht.remotes.erase h, ?_, ?_⟩
    · intro h' t' hremote
      by_cases hh : h' = h
      · rw [hh]
        exact AList.lookup_erase _ _
      · rw [AList.lookup_erase_ne hh] at hremote
        exact (AList.lookup_erase_ne hh).trans (ht.disjoint h' t' hremote)
    · have hslots := ht.slots
      dsimp only [TxsByHash.slots] at hslots ⊢
      rcases ht.get_cases hget with ⟨hlocal, hremote⟩ | ⟨hlocal, hremote⟩
      · rw [AssocMap.erase_eq_self hremote]
        have := AssocMap.total_erase I.numSlots hlocal
        omega
      · rw [AssocMap.erase_eq_self hlocal]
        have := AssocMap.total_erase I.numSlots hremote
        omega

/-- The local transactions at other hashes stay. -/
theorem lookup_locals_remove {h h' : Hash} (hne : h' ≠ h) :
    (t.remove I h).locals.lookup h' = t.locals.lookup h' := by
  cases hget : t.get h with
  | none => rw [remove_of_none hget]
  | some tx =>
    rw [remove_of_some hget]
    exact AList.lookup_erase_ne hne

variable (I) in
/-- `Remove` of each transaction -/
def removeAll (t : TxLookup) (txs : List Transaction) : TxLookup :=
  txs.foldl (fun t tx => t.remove I (I.hash tx)) t

theorem WF.removeAll (ht : t.WF I) (txs : List Transaction) : (t.removeAll I txs).WF I := by
  induction txs generalizing t with
  | nil => exact ht
  | cons tx txs ih => exact ih (ht.remove _)

/-- A batch takes away its hashes. -/
theorem lookup_remotes_removeAll {txs : List Transaction}
    (hremote : (t.removeAll I txs).remotes.lookup h = some tx) :
    t.remotes.lookup h = some tx ∧ h ∉ txs.map I.hash := by
  induction txs generalizing t with
  | nil => exact ⟨hremote, List.not_mem_nil⟩
  | cons t' txs ih =>
    obtain ⟨hlookup, hnot⟩ := ih hremote
    obtain ⟨hlookup, hne⟩ := lookup_remotes_remove hlookup
    exact ⟨hlookup, List.not_mem_cons_of_ne_of_not_mem hne hnot⟩

theorem lookup_locals_removeAll {txs : List Transaction} (hnot : h ∉ txs.map I.hash) :
    (t.removeAll I txs).locals.lookup h = t.locals.lookup h := by
  induction txs generalizing t with
  | nil => rfl
  | cons t' txs ih =>
    rw [List.map_cons, List.mem_cons, not_or] at hnot
    exact (ih hnot.2).trans (lookup_locals_remove hnot.1)

/-! ## `RemoteToLocals` -/

/-- The transactions that migrate, by hash. -/
theorem dlookup_migrating (accounts : List Address) (h : Hash) :
    (t.remotes.entries.filter fun e => I.containsTx accounts e.2).dlookup h =
      (t.remotes.lookup h).filter (I.containsTx accounts) :=
  AssocMap.lookup_keep (fun _ tx => I.containsTx accounts tx) t.remotes h

theorem nodupKeys_migrating (accounts : List Address) :
    (t.remotes.entries.filter fun e => I.containsTx accounts e.2).NodupKeys :=
  t.remotes.nodupKeys.sublist List.filter_sublist

/-- What migrates is not local yet. -/
theorem WF.fresh_migrating (ht : t.WF I) (accounts : List Address) :
    ∀ e ∈ t.remotes.entries.filter (fun e => I.containsTx accounts e.2),
      t.locals.lookup e.1 = none := by
  intro e he
  exact ht.disjoint e.1 e.2 (AList.mem_lookup_iff.mpr (List.mem_of_mem_filter he))

/-- The remote transactions of other accounts stay. -/
theorem lookup_remotes_remoteToLocals {accounts : List Address} :
    (t.remoteToLocals I accounts).2.remotes.lookup h = some tx ↔
      t.remotes.lookup h = some tx ∧ I.containsTx accounts tx = false := by
  dsimp only [remoteToLocals]
  rw [AssocMap.lookup_keep, Option.filter_eq_some_iff, Bool.not_eq_true']

/-- Migrating keeps the slots. -/
theorem WF.remoteToLocals (ht : t.WF I) (accounts : List Address) :
    (t.remoteToLocals I accounts).2.WF I := by
  have hlocals : ∀ h, (t.remoteToLocals I accounts).2.locals.lookup h =
      ((t.remotes.lookup h).filter (I.containsTx accounts)).or (t.locals.lookup h) := by
    intro h
    dsimp only [TxLookup.remoteToLocals]
    rw [AssocMap.lookup_setAll (nodupKeys_migrating accounts), dlookup_migrating]
  refine ⟨?_, ?_, ?_, ?_⟩
  · intro h tx hlocal
    rw [hlocals, Option.or_eq_some_iff, Option.filter_eq_some_iff] at hlocal
    rcases hlocal with ⟨hremote, -⟩ | ⟨-, hlocal⟩
    · exact ht.remotes h tx hremote
    · exact ht.locals h tx hlocal
  · intro h tx hremote
    exact ht.remotes h tx (lookup_remotes_remoteToLocals.mp hremote).1
  · intro h tx hremote
    rw [lookup_remotes_remoteToLocals] at hremote
    rw [hlocals, hremote.1, ht.disjoint h tx hremote.1]
    simp [Option.filter, hremote.2]
  · have hset := AssocMap.total_setAll I.numSlots (nodupKeys_migrating accounts)
      (ht.fresh_migrating accounts)
    have hkeep := AssocMap.total_keep_add I.numSlots (fun _ tx => !I.containsTx accounts tx)
      t.remotes
    have hslots := ht.slots
    simp only [Bool.not_not] at hkeep
    dsimp only [TxLookup.remoteToLocals, TxsByHash.slots] at hslots ⊢
    omega

end TxLookup

end Zilionixx
