import Zilionixx.WeightedShuffle
import Mathlib.Data.List.GetD

/-!
# Transaction turns

`isMyTxTurn` in `emitter/txs.go`: the validators originate a transaction in turns, to avoid
doing it at the same time. The order of the turns is a weighted permutation, for a sender, a
window of nonces and an epoch. A round takes `TxTurnPeriod`, from the time at which the
transaction was first seen.

Times are in nanoseconds. The time of the transaction (`getTxTime`, which keeps it in a cache)
and the hash function are parameters. `none` is a panic.
-/

namespace Zilionixx

open ByteNumber

/-- `TxTurnPeriod` -/
def txTurnPeriod : ℤ := 8 * 1000000000

/-- `TxTurnPeriodLatency` -/
def txTurnPeriodLatency : ℤ := 1 * 1000000000

/-- `TxTurnNonces` -/
def txTurnNonces : UInt64 := 32

/-- `Sub` of `time.Time`; the duration is an `int64`, and saturates. -/
def timeSub (t u : ℤ) : ℤ := max (-2 ^ 63) (min (2 ^ 63 - 1) (t - u))

/-- The rounds that passed. -/
def txRound (now txTime : ℤ) : ℕ :=
  let passed := timeSub now txTime
  let passed := if passed < 0 then 0 else passed
  (passed / txTurnPeriod).toNat

/-- `getTxRoundIndex` -/
def getTxRoundIndex (now txTime : ℤ) (validatorsNum : ℕ) : Option ℕ :=
  if validatorsNum = 0 then none else some (txRound now txTime % validatorsNum)

namespace Validators

/-- `SortedWeights` -/
def sortedWeights (vv : Validators) : List UInt32 := vv.sortedIDs.map vv.get

/-- `GetID` -/
def getID (vv : Validators) (i : UInt32) : Option ValidatorID := vv.sortedIDs[i.toNat]?

theorem length_sortedWeights (vv : Validators) : vv.sortedWeights.length = vv.len :=
  List.length_map _

end Validators

/-- The functions from outside: SHA-256, and `hash.Of`. -/
structure TurnHashes where
  sha256 : List UInt8 → Hash
  hashOf : List (List UInt8) → Hash

namespace TurnHashes

variable (H : TurnHashes)

/-- `roundsHash` -/
def roundsHash (sender : Address) (accountNonce : UInt64) (epoch : UInt32) : Hash :=
  H.hashOf [sender.toList, fixedBE 8 (accountNonce / txTurnNonces).toNat, fixedBE 4 epoch.toNat]

/-- The validator whose turn it is in a round: `rounds[roundIndex]`, of the permutation of size
`roundIndex+1`. -/
def txTurn (sender : Address) (accountNonce : UInt64) (validators : Validators) (epoch : UInt32)
    (roundIndex : ℕ) : Option ValidatorID := do
  let rounds ← weightedPermutation H.sha256 (roundIndex + 1) validators.sortedWeights
    (H.roundsHash sender accountNonce epoch)
  let round ← rounds[roundIndex]?
  validators.getID (.ofNat round)

/-- `isMyTxTurn` -/
def isMyTxTurn (txTime : ℤ) (sender : Address) (accountNonce : UInt64) (now : ℤ)
    (validators : Validators) (me : ValidatorID) (epoch : UInt32) : Option Bool := do
  let roundIndex ← getTxRoundIndex now txTime validators.len
  let later ← getTxRoundIndex (now + txTurnPeriodLatency) txTime validators.len
  -- round is about to change, avoid originating the transaction to avoid racing with another
  -- validator
  if roundIndex ≠ later then pure false
  else
    let turn ← H.txTurn sender accountNonce validators epoch roundIndex
    pure (turn == me)

end TurnHashes

/-! ## The order of the turns -/

/-- Any `n` numbers in a row have one of each remainder. -/
theorem existsUnique_mod {n r : ℕ} (hr : r < n) (start : ℕ) :
    ∃! k, start ≤ k ∧ k < start + n ∧ k % n = r := by
  have hdiv := Nat.div_add_mod start n
  have hmod := Nat.mod_lt start (show 0 < n by omega)
  have hrem : ∀ q, (n * q + r) % n = r := fun q => by
    rw [Nat.mul_add_mod, Nat.mod_eq_of_lt hr]
  refine existsUnique_of_exists_of_unique ?_ ?_
  · rcases Nat.lt_or_ge r (start % n) with hlt | hge
    · exact ⟨n * (start / n + 1) + r, by rw [Nat.mul_add]; omega, by rw [Nat.mul_add]; omega,
        hrem _⟩
    · exact ⟨n * (start / n) + r, by omega, by omega, hrem _⟩
  · rintro k k' ⟨hle, hlt, hk⟩ ⟨hle', hlt', hk'⟩
    refine Nat.ModEq.eq_of_abs_lt (m := n) (hk.trans hk'.symm) ?_
    rw [abs_lt]
    omega

theorem Weighable.length_lt {weights : List UInt32} (h : Weighable weights) :
    weights.length < 2 ^ 32 := by
  have hle : (weights.map UInt32.toNat).length ≤ (weights.map UInt32.toNat).sum := by
    refine List.length_le_sum_of_one_le _ fun w hw => ?_
    obtain ⟨w, hmem, rfl⟩ := List.mem_map.mp hw
    exact UInt32.lt_iff_toNat_lt.mp (h.pos w hmem)
  rw [List.length_map] at hle
  exact hle.trans_lt h.fits

/-- The IDs in the order of a permutation of their indexes. -/
theorem perm_map_getD {ids : List ValidatorID} {permutation : List ℕ}
    (h : permutation.Perm (List.range ids.length)) : (permutation.map (ids.getD · 0)).Perm ids := by
  have hall : (List.range ids.length).map (ids.getD · 0) = ids := by
    refine List.ext_getElem (by simp) fun i hi hi' => ?_
    rw [List.getElem_map, List.getElem_range, List.getD_eq_getElem _ _ hi']
  exact (h.map _).trans (List.Perm.of_eq hall)

/-- Going round a list, every entry of it comes once in as many places as it has. -/
theorem existsUnique_place {order : List ValidatorID} (hnodup : order.Nodup) (start : ℕ)
    {id : ValidatorID} (hid : id ∈ order) :
    ∃! round, start ≤ round ∧ round < start + order.length ∧
      order.getD (round % order.length) 0 = id := by
  obtain ⟨r, hr, rfl⟩ := List.mem_iff_getElem.mp hid
  have hplace : ∀ round, order.getD (round % order.length) 0 = order[r] ↔
      round % order.length = r := by
    intro round
    have hlt : round % order.length < order.length := Nat.mod_lt _ (Nat.zero_lt_of_lt hr)
    rw [List.getD_eq_getElem _ _ hlt]
    exact hnodup.getElem_inj_iff
  simp only [hplace]
  exact existsUnique_mod hr start

/-- Permutations of all sizes are the beginnings of one. -/
theorem weightedPermutation_spec (sha256 : List UInt8 → Hash) {weights : List UInt32}
    (h : Weighable weights) (seed : Hash) {size : ℕ} (hsize : size ≤ weights.length) :
    ∃ permutation, weightedPermutation sha256 size weights seed = some permutation ∧
      permutation.length = size ∧ permutation.Nodup ∧ (∀ i ∈ permutation, i < weights.length) ∧
      ∀ size' ≤ weights.length, size ≤ size' →
        ∃ permutation', weightedPermutation sha256 size' weights seed = some permutation' ∧
          permutation <+: permutation' := by
  obtain ⟨permutation, hperm, htake⟩ := h.exists_permutation seed sha256
  have hlen : permutation.length = weights.length := by rw [hperm.length_eq, List.length_range]
  refine ⟨permutation.take size, htake size hsize, ?_, ?_, ?_, ?_⟩
  · rw [List.length_take, hlen, Nat.min_eq_left hsize]
  · exact (hperm.nodup_iff.mpr List.nodup_range).sublist (List.take_sublist _ _)
  · exact fun i hi => List.mem_range.mp (hperm.mem_iff.mp (List.mem_of_mem_take hi))
  · exact fun size' hsize' hle => ⟨_, htake size' hsize', List.take_prefix_take_left hle⟩

namespace TurnHashes

variable (H : TurnHashes) {validators : Validators}

/-- The turns are the validators in some order. -/
theorem exists_order (h : Weighable validators.sortedWeights) (sender : Address) (window : UInt64)
    (epoch : UInt32) :
    ∃ order : List ValidatorID, order.Perm validators.sortedIDs ∧
      ∀ accountNonce, accountNonce / txTurnNonces = window → ∀ round < validators.len,
        H.txTurn sender accountNonce validators epoch round = order[round]? := by
  have hlen := validators.length_sortedWeights
  obtain ⟨permutation, hperm, htake⟩ := h.exists_permutation
    (H.hashOf [sender.toList, fixedBE 8 window.toNat, fixedBE 4 epoch.toNat]) H.sha256
  rw [hlen] at hperm htake
  refine ⟨_, perm_map_getD hperm, ?_⟩
  rintro accountNonce rfl round hround
  obtain ⟨i, hi⟩ : ∃ i, permutation[round]? = some i := by
    have hlt : round < permutation.length := by rwa [hperm.length_eq, List.length_range]
    exact ⟨_, List.getElem?_eq_getElem hlt⟩
  have hlt : i < validators.len := List.mem_range.mp (hperm.mem_iff.mp (List.mem_of_getElem? hi))
  have hfits : i < 2 ^ 32 := by
    have := h.length_lt
    omega
  rw [txTurn, roundsHash, htake (round + 1) hround, Option.bind_eq_bind, Option.bind_some,
    List.getElem?_take_of_lt (Nat.lt_succ_self round), List.getElem?_map, hi, Option.bind_eq_bind,
    Option.bind_some, Validators.getID, UInt32.toNat_ofNat_of_lt' hfits,
      List.getElem?_eq_getElem hlt,
    Option.map_some, List.getD_eq_getElem _ _ hlt]

/-- `isMyTxTurn`, when the turn of the round is known. -/
theorem isMyTxTurn_eq {sender : Address} {accountNonce : UInt64} {epoch : UInt32}
    (hlen : validators.len ≠ 0) {turn : ℕ → ValidatorID}
    (hturn : ∀ round < validators.len,
      H.txTurn sender accountNonce validators epoch round = some (turn round))
    (txTime now : ℤ) (me : ValidatorID) :
    H.isMyTxTurn txTime sender accountNonce now validators me epoch =
      some (decide (txRound now txTime % validators.len =
          txRound (now + txTurnPeriodLatency) txTime % validators.len) &&
        turn (txRound now txTime % validators.len) == me) := by
  have hlt : txRound now txTime % validators.len < validators.len :=
    Nat.mod_lt _ (Nat.pos_of_ne_zero hlen)
  simp only [isMyTxTurn, getTxRoundIndex, if_neg hlen, Option.bind_eq_bind, Option.bind_some]
  split
  · next hne => simp [hne]
  · next heq => rw [hturn _ hlt, decide_eq_true (not_not.mp heq), Bool.true_and]; rfl

end TurnHashes

/-- Weighted permutations are made without a panic, of distinct indexes, and a shorter one is
the beginning of a longer one. So in each round it is the turn of one validator, and each
validator has one turn in as many rounds as there are validators. -/
theorem tx_turns (H : TurnHashes) :
    (∀ weights seed, Weighable weights → ∀ size ≤ weights.length,
      ∃ permutation, weightedPermutation H.sha256 size weights seed = some permutation ∧
        permutation.length = size ∧ permutation.Nodup ∧ (∀ i ∈ permutation, i < weights.length) ∧
        ∀ size' ≤ weights.length, size ≤ size' →
          ∃ permutation', weightedPermutation H.sha256 size' weights seed = some permutation' ∧
            permutation <+: permutation') ∧
    ∀ validators : Validators, Weighable validators.sortedWeights → ∀ sender window epoch,
      ∃ turn : ℕ → ValidatorID,
        (∀ round < validators.len, turn round ∈ validators.sortedIDs) ∧
        (∀ accountNonce, accountNonce / txTurnNonces = window →
          (∀ round < validators.len,
            H.txTurn sender accountNonce validators epoch round = some (turn round)) ∧
          ∀ txTime now me, H.isMyTxTurn txTime sender accountNonce now validators me epoch =
            some (decide (txRound now txTime % validators.len =
                txRound (now + txTurnPeriodLatency) txTime % validators.len) &&
              turn (txRound now txTime % validators.len) == me)) ∧
        ∀ start, ∀ id ∈ validators.sortedIDs,
          ∃! round, start ≤ round ∧ round < start + validators.len ∧
            turn (round % validators.len) = id := by
  refine ⟨?_, ?_⟩
  · exact fun weights seed h size hsize => weightedPermutation_spec H.sha256 h seed hsize
  · intro validators h sender window epoch
    have hpos : validators.len ≠ 0 := by
      rw [← validators.length_sortedWeights]
      exact fun hzero => h.ne_nil (List.length_eq_zero_iff.mp hzero)
    obtain ⟨order, hperm, horder⟩ := H.exists_order h sender window epoch
    have hlen : order.length = validators.len := hperm.length_eq
    have hget : ∀ round (hround : round < validators.len),
        order[round]? = some (order.getD round 0) := fun round hround => by
      rw [← hlen] at hround
      rw [List.getElem?_eq_getElem hround, List.getD_eq_getElem _ _ hround]
    refine ⟨(order.getD · 0), ?_, ?_, ?_⟩
    · exact fun round hround => hperm.mem_iff.mp (List.mem_of_getElem? (hget round hround))
    · intro accountNonce hnonce
      have hturn : ∀ round < validators.len,
          H.txTurn sender accountNonce validators epoch round = some (order.getD round 0) :=
        fun round hround => (horder accountNonce hnonce round hround).trans (hget round hround)
      exact ⟨hturn, H.isMyTxTurn_eq hpos hturn⟩
    · intro start id hid
      have hnodup : order.Nodup := hperm.nodup_iff.mpr validators.nodup
      exact hlen ▸ existsUnique_place hnodup start (hperm.mem_iff.mpr hid)

/-- Three validators. -/
def turnValidators : Validators := .ofWeights [(1, 5), (2, 3), (3, 1)] (by decide)

theorem weighable_turnValidators : Weighable turnValidators.sortedWeights where
  ne_nil := by decide
  pos := by
    have hweights : turnValidators.sortedWeights = [5, 3, 1] := by decide
    simp [hweights]
  fits := by decide

/-- Hashes that are all zeros. -/
def zeroHashes : TurnHashes where
  sha256 _ := copyBytes 32 []
  hashOf _ := copyBytes 32 []

theorem tx_turns_turnValidators :
    (∃ permutation,
      weightedPermutation zeroHashes.sha256 2 [5, 3, 1] (copyBytes 32 [7]) = some permutation ∧
        permutation.length = 2 ∧ permutation.Nodup) ∧
    ∃ turn : ℕ → ValidatorID,
      (∀ round < 3,
        zeroHashes.txTurn (copyBytes 20 [1]) 33 turnValidators 4 round = some (turn round)) ∧
      ∀ start, ∃! round, start ≤ round ∧ round < start + 3 ∧ turn (round % 3) = 2 := by
  have hweighable := weighable_turnValidators
  obtain ⟨permutation, hsome, hlen, hnodup, -⟩ :=
    (tx_turns zeroHashes).1 [5, 3, 1] (copyBytes 32 [7]) hweighable 2 (by decide)
  obtain ⟨turn, -, hturn, hunique⟩ :=
    (tx_turns zeroHashes).2 turnValidators hweighable (copyBytes 20 [1]) 1 4
  exact ⟨⟨permutation, hsome, hlen, hnodup⟩, turn, (hturn 33 (by decide)).1,
    fun start => hunique start 2 (by decide)⟩

end Zilionixx
