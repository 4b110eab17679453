import Zilionixx.CheckedWord
import Zilionixx.TxBatches

/-!
# Broadcasting of events and transactions

`gossip/handler.go`. Peers that do not know an event are sent the event or only its ID, depending on
its age and size. All numbers of `decideBroadcastAggressiveness` are 64-bit and wrap around. The
square root of the number of peers is taken of floats, and a parameter here.

The cost of a broadcast is the age times the size. It wraps around for an old event, and then that
event is sent to everybody.
-/

namespace Zilionixx

namespace Broadcast

/-- `ProtocolConfig`, as far as it is read here -/
structure ProtocolConfig where
  latencyImportance : Int64
  throughputImportance : Int64

/-- Maximum cap on the size of a protocol message. -/
def protocolMaxMsgSize : Int64 := 10 * 1024 * 1024

/-- A whole, in percents. -/
def percents : Int64 := 100

/-- The tradeoff if throughput is of no importance. -/
def maxPercents : Int64 := 1000000 * percents

/-- Latency against throughput, in percents. -/
def latencyVsThroughputTradeoff (cfg : ProtocolConfig) : Int64 :=
  if cfg.throughputImportance ≠ 0 then
    cfg.latencyImportance * percents / cfg.throughputImportance
  else maxPercents

/-- `broadcastCost`: the age of a message, weighted with its size -/
def broadcastCost (size passed : Int64) : Int64 := passed * (128 + size) / 128

/-- In units of a nanosecond, the tradeoff times 700 ms. -/
def broadcastAllCostTarget (tradeoff : Int64) : Int64 := tradeoff * 700000000 / percents

/-- Up to here a message goes to the square root of the peers. -/
def broadcastSqrtCostTarget (tradeoff : Int64) : Int64 := broadcastAllCostTarget tradeoff * 10

/-- `decideBroadcastAggressiveness` -/
def decideBroadcastAggressiveness (sqrt : Int64 → Int64) (cfg : ProtocolConfig)
    (size passed peersNum : Int64) : Int64 :=
  let tradeoff := latencyVsThroughputTradeoff cfg
  let fullRecipients :=
    -- edge case
    if tradeoff ≥ maxPercents then peersNum
    -- edge case
    else if tradeoff ≤ 0 then 0
    -- if event is small or was created recently, always send to everyone full event
    else if broadcastCost size passed ≤ broadcastAllCostTarget tradeoff then peersNum
    -- if event is big but was created recently, send full event to subset of peers
    else if broadcastCost size passed ≤ broadcastSqrtCostTarget tradeoff ∨ passed = 0 then
      if sqrt peersNum < 4 then 4 else sqrt peersNum
    else 0
  if fullRecipients > peersNum then peersNum else fullRecipients

/-! ## The three numbers of recipients -/

/-- The subset of peers, if there are that many. -/
def someRecipients (sqrt : Int64 → Int64) (peersNum : Int64) : Int64 :=
  let fullRecipients := if sqrt peersNum < 4 then 4 else sqrt peersNum
  if fullRecipients > peersNum then peersNum else fullRecipients

section

variable {sqrt : Int64 → Int64} {cfg : ProtocolConfig} {size size' passed passed' peersNum : Int64}

theorem limited_le (n limit : Int64) : (if n > limit then limit else n) ≤ limit := by
  split
  · exact Int64.le_refl _
  · rename_i hle
    exact Int64.not_lt.mp hle

theorem le_limited {k n limit : Int64} (hn : k ≤ n) (hlimit : k ≤ limit) :
    k ≤ if n > limit then limit else n := by
  split
  · exact hlimit
  · exact hn

theorem someRecipients_le : someRecipients sqrt peersNum ≤ peersNum := limited_le _ _

theorem someRecipients_nonneg (hpeers : 0 ≤ peersNum) : 0 ≤ someRecipients sqrt peersNum := by
  refine le_limited ?_ hpeers
  split
  · decide
  · rename_i hfour
    exact Int64.le_trans (by decide) (Int64.not_lt.mp hfour)

/-- The edge case of only latency. -/
theorem decide_of_maxPercents_le (h : latencyVsThroughputTradeoff cfg ≥ maxPercents) :
    decideBroadcastAggressiveness sqrt cfg size passed peersNum = peersNum := by
  rw [decideBroadcastAggressiveness]
  rw [if_pos h]
  exact if_neg (Int64.lt_irrefl)

/-- The edge case of only throughput. -/
theorem decide_of_nonpos (hpeers : 0 ≤ peersNum) (h : latencyVsThroughputTradeoff cfg ≤ 0) :
    decideBroadcastAggressiveness sqrt cfg size passed peersNum = 0 := by
  have hmax : ¬latencyVsThroughputTradeoff cfg ≥ maxPercents := by
    intro hge
    exact absurd (Int64.le_trans hge h) (by decide)
  rw [decideBroadcastAggressiveness]
  rw [if_neg hmax, if_pos h]
  exact if_neg (Int64.not_lt.mpr hpeers)

/-- Between the edge cases, it depends on the cost. -/
theorem decide_of_between (hpeers : 0 ≤ peersNum) (hpos : 0 < latencyVsThroughputTradeoff cfg)
    (hlt : latencyVsThroughputTradeoff cfg < maxPercents) :
    decideBroadcastAggressiveness sqrt cfg size passed peersNum =
      if broadcastCost size passed ≤ broadcastAllCostTarget (latencyVsThroughputTradeoff cfg) then
        peersNum
      else if broadcastCost size passed ≤
          broadcastSqrtCostTarget (latencyVsThroughputTradeoff cfg) ∨ passed = 0 then
        someRecipients sqrt peersNum
      else 0 := by
  rw [decideBroadcastAggressiveness, if_neg (Int64.not_le.mpr hlt), if_neg (Int64.not_le.mpr hpos)]
  split
  · exact if_neg Int64.lt_irrefl
  · split
    · rfl
    · exact if_neg (Int64.not_lt.mpr hpeers)

theorem decide_mem_range (hpeers : 0 ≤ peersNum) :
    0 ≤ decideBroadcastAggressiveness sqrt cfg size passed peersNum ∧
      decideBroadcastAggressiveness sqrt cfg size passed peersNum ≤ peersNum := by
  by_cases hmax : latencyVsThroughputTradeoff cfg ≥ maxPercents
  · rw [decide_of_maxPercents_le hmax]
    exact ⟨hpeers, Int64.le_refl _⟩
  by_cases hpos : latencyVsThroughputTradeoff cfg ≤ 0
  · rw [decide_of_nonpos hpeers hpos]
    exact ⟨Int64.le_refl _, hpeers⟩
  rw [decide_of_between hpeers (Int64.not_le.mp hpos) (Int64.not_le.mp hmax)]
  split
  · exact ⟨hpeers, Int64.le_refl _⟩
  · split
    · exact ⟨someRecipients_nonneg hpeers, someRecipients_le⟩
    · exact ⟨Int64.le_refl _, hpeers⟩

/-- At a higher cost there are no more recipients. -/
theorem decide_le_of_cost_le (hpeers : 0 ≤ peersNum) (hzero : passed' = 0 → passed = 0)
    (hcost : broadcastCost size passed ≤ broadcastCost size' passed') :
    decideBroadcastAggressiveness sqrt cfg size' passed' peersNum ≤
      decideBroadcastAggressiveness sqrt cfg size passed peersNum := by
  by_cases hmax : latencyVsThroughputTradeoff cfg ≥ maxPercents
  · rw [decide_of_maxPercents_le hmax, decide_of_maxPercents_le hmax]
    exact Int64.le_refl _
  by_cases hpos : latencyVsThroughputTradeoff cfg ≤ 0
  · rw [decide_of_nonpos hpeers hpos, decide_of_nonpos hpeers hpos]
    exact Int64.le_refl _
  rw [decide_of_between hpeers (Int64.not_le.mp hpos) (Int64.not_le.mp hmax),
    decide_of_between hpeers (Int64.not_le.mp hpos) (Int64.not_le.mp hmax)]
  by_cases hall : broadcastCost size' passed' ≤
      broadcastAllCostTarget (latencyVsThroughputTradeoff cfg)
  · rw [if_pos hall, if_pos (Int64.le_trans hcost hall)]
    exact Int64.le_refl _
  rw [if_neg hall]
  by_cases hsome : broadcastCost size' passed' ≤
      broadcastSqrtCostTarget (latencyVsThroughputTradeoff cfg) ∨ passed' = 0
  · rw [if_pos hsome]
    split
    · exact someRecipients_le
    · rw [if_pos (hsome.imp (Int64.le_trans hcost) hzero)]
      exact Int64.le_refl _
  · rw [if_neg hsome, ← decide_of_between hpeers (Int64.not_le.mp hpos) (Int64.not_le.mp hmax)]
    exact (decide_mem_range hpeers).1

/-! ## The cost -/

/-- The cost, as long as it does not wrap around. -/
theorem toInt_broadcastCost (hsize : 0 ≤ size) (hmax : size ≤ protocolMaxMsgSize)
    (hpassed : 0 ≤ passed) (hfits : passed.toInt * (128 + size.toInt) < 2 ^ 63) :
    (broadcastCost size passed).toInt = passed.toInt * (128 + size.toInt) / 128 := by
  have hsize : 0 ≤ size.toInt := Int64.le_iff_toInt_le.mp hsize
  have hmax : size.toInt ≤ 10485760 := Int64.le_iff_toInt_le.mp hmax
  have hpassed : 0 ≤ passed.toInt := Int64.le_iff_toInt_le.mp hpassed
  have hunit : (128 : Int64).toInt = 128 := rfl
  have hsum : (128 + size).toInt = 128 + size.toInt :=
    CheckedWord.toInt_add_of_lt (by omega) (by omega)
  have hnonneg : 0 ≤ passed.toInt * (128 + size.toInt) := Int.mul_nonneg hpassed (by omega)
  have hproduct : (passed * (128 + size)).toInt = passed.toInt * (128 + size.toInt) := by
    rw [CheckedWord.toInt_mul_of_lt, hsum]
    · rw [hsum]
      exact hnonneg
    · rw [hsum]
      exact hfits
  rw [broadcastCost, CheckedWord.toInt_div_of_nonneg (hproduct ▸ hnonneg), hproduct, hunit,
    Int.tdiv_eq_ediv_of_nonneg hnonneg]

/-- An older or larger event does not cost less, as long as its cost does not wrap around. -/
theorem broadcastCost_mono (hsize : 0 ≤ size) (hsizes : size ≤ size')
    (hmax : size' ≤ protocolMaxMsgSize) (hpassed : 0 ≤ passed) (hages : passed ≤ passed')
    (hfits : passed'.toInt * (128 + size'.toInt) < 2 ^ 63) :
    broadcastCost size passed ≤ broadcastCost size' passed' := by
  have hage : passed.toInt ≤ passed'.toInt := Int64.le_iff_toInt_le.mp hages
  have hlength : size.toInt ≤ size'.toInt := Int64.le_iff_toInt_le.mp hsizes
  have hnonneg : 0 ≤ size.toInt := Int64.le_iff_toInt_le.mp hsize
  have hpositive : 0 ≤ passed.toInt := Int64.le_iff_toInt_le.mp hpassed
  have hproduct : passed.toInt * (128 + size.toInt) ≤ passed'.toInt * (128 + size'.toInt) :=
    Int.mul_le_mul hage (by omega) (by omega) (by omega)
  rw [Int64.le_iff_toInt_le,
    toInt_broadcastCost hsize (Int64.le_trans hsizes hmax) hpassed
      (Int.lt_of_le_of_lt hproduct hfits),
    toInt_broadcastCost (Int64.le_trans hsize hsizes) hmax (Int64.le_trans hpassed hages) hfits]
  exact Int.ediv_le_ediv (by decide) hproduct

/-! ## Where the cost wraps around -/

/-- The targets do not wrap around. -/
theorem toInt_broadcastAllCostTarget {tradeoff : Int64} (hpos : 0 < tradeoff)
    (hlt : tradeoff < maxPercents) :
    (broadcastAllCostTarget tradeoff).toInt = tradeoff.toInt * 7000000 := by
  have hpos : 0 < tradeoff.toInt := Int64.lt_iff_toInt_lt.mp hpos
  have hlt : tradeoff.toInt < 100000000 := Int64.lt_iff_toInt_lt.mp hlt
  have hmillis : (700000000 : Int64).toInt = 700000000 := rfl
  have hpercents : percents.toInt = 100 := rfl
  have hproduct : (tradeoff * 700000000).toInt = tradeoff.toInt * 700000000 :=
    CheckedWord.toInt_mul_of_lt (by rw [hmillis]; omega) (by rw [hmillis]; omega)
  rw [broadcastAllCostTarget, CheckedWord.toInt_div_of_nonneg (by rw [hproduct]; omega), hproduct,
    hpercents, Int.tdiv_eq_ediv_of_nonneg (by omega)]
  omega

theorem toInt_broadcastSqrtCostTarget {tradeoff : Int64} (hpos : 0 < tradeoff)
    (hlt : tradeoff < maxPercents) :
    (broadcastSqrtCostTarget tradeoff).toInt = tradeoff.toInt * 70000000 := by
  have hall := toInt_broadcastAllCostTarget hpos hlt
  have hpos : 0 < tradeoff.toInt := Int64.lt_iff_toInt_lt.mp hpos
  have hlt : tradeoff.toInt < 100000000 := Int64.lt_iff_toInt_lt.mp hlt
  have hten : (10 : Int64).toInt = 10 := rfl
  rw [broadcastSqrtCostTarget,
    CheckedWord.toInt_mul_of_lt (by rw [hall, hten]; omega) (by rw [hall, hten]; omega), hall, hten]
  omega

/-- 2⁵⁶ - 1, the last age at which the cost of an event of size zero does not wrap around: more than
two years. -/
def lastAge : Int64 := 72057594037927935

/-- At this age an event is sent to nobody, and a moment later to everybody. -/
theorem decide_lastAge (hpeers : 0 ≤ peersNum) (hpos : 0 < latencyVsThroughputTradeoff cfg)
    (hlt : latencyVsThroughputTradeoff cfg < maxPercents) :
    decideBroadcastAggressiveness sqrt cfg 0 lastAge peersNum = 0 ∧
      decideBroadcastAggressiveness sqrt cfg 0 (lastAge + 1) peersNum = peersNum := by
  have hall := toInt_broadcastAllCostTarget hpos hlt
  have hsqrt := toInt_broadcastSqrtCostTarget hpos hlt
  have hnonneg : 0 < (latencyVsThroughputTradeoff cfg).toInt := Int64.lt_iff_toInt_lt.mp hpos
  have hsmall : (latencyVsThroughputTradeoff cfg).toInt < 100000000 := Int64.lt_iff_toInt_lt.mp hlt
  have hcost : (broadcastCost 0 lastAge).toInt = 72057594037927935 := by decide
  have hwrapped : (broadcastCost 0 (lastAge + 1)).toInt = -72057594037927936 := by decide
  rw [decide_of_between hpeers hpos hlt, decide_of_between hpeers hpos hlt]
  constructor
  · rw [if_neg, if_neg]
    · rintro (hle | hzero)
      · rw [Int64.le_iff_toInt_le] at hle
        omega
      · exact absurd hzero (by decide)
    · rw [Int64.le_iff_toInt_le]
      omega
  · rw [if_pos]
    rw [Int64.le_iff_toInt_le]
    omega

end

/-- The fan-out does not increase with the age and the size of an event. -/
def Decreasing (sqrt : Int64 → Int64) (cfg : ProtocolConfig) (peersNum : Int64) : Prop :=
  ∀ size size' passed passed', 0 ≤ size → size ≤ size' → size' ≤ protocolMaxMsgSize →
    0 ≤ passed → passed ≤ passed' →
      decideBroadcastAggressiveness sqrt cfg size' passed' peersNum ≤
        decideBroadcastAggressiveness sqrt cfg size passed peersNum

/-- **The fan-out of a broadcast.** The number of recipients is at most the number of peers, and it
does not increase with the age and the size of an event as long as their product, which is the cost,
does not wrap around. Without this condition it does not increase just if the cost does not count:
in the edge cases, or if there are no peers. -/
theorem broadcast_decreasing_iff (sqrt : Int64 → Int64) (cfg : ProtocolConfig) (peersNum : Int64)
    (hpeers : 0 ≤ peersNum) :
    (∀ size passed, 0 ≤ decideBroadcastAggressiveness sqrt cfg size passed peersNum ∧
        decideBroadcastAggressiveness sqrt cfg size passed peersNum ≤ peersNum) ∧
      (∀ size size' passed passed', 0 ≤ size → size ≤ size' → size' ≤ protocolMaxMsgSize →
        0 ≤ passed → passed ≤ passed' → passed'.toInt * (128 + size'.toInt) < 2 ^ 63 →
          decideBroadcastAggressiveness sqrt cfg size' passed' peersNum ≤
            decideBroadcastAggressiveness sqrt cfg size passed peersNum) ∧
      (Decreasing sqrt cfg peersNum ↔ latencyVsThroughputTradeoff cfg ≤ 0 ∨
        latencyVsThroughputTradeoff cfg ≥ maxPercents ∨ peersNum = 0) := by
  refine ⟨fun size passed => decide_mem_range hpeers, ?_, ?_, ?_⟩
  · intro size size' passed passed' hsize hsizes hmax hpassed hages hfits
    refine decide_le_of_cost_le hpeers ?_
      (broadcastCost_mono hsize hsizes hmax hpassed hages hfits)
    rintro rfl
    exact Int64.le_antisymm hages hpassed
  · intro hdecreasing
    by_contra hnot
    rw [not_or, not_or] at hnot
    obtain ⟨hpos, hlt, hsome⟩ := hnot
    have hle := hdecreasing 0 0 lastAge (lastAge + 1) (by decide) (by decide) (by decide)
      (by decide)
      (by decide)
    obtain ⟨hnobody, heverybody⟩ :=
      decide_lastAge hpeers (Int64.not_le.mp hpos) (Int64.not_le.mp hlt)
    rw [hnobody, heverybody] at hle
    exact hsome (Int64.le_antisymm hle hpeers)
  · rintro (hnonpos | hmax | rfl) size size' passed passed' - - - - -
    · rw [decide_of_nonpos hpeers hnonpos]
      exact (decide_mem_range hpeers).1
    · rw [decide_of_maxPercents_le hmax, decide_of_maxPercents_le hmax]
      exact Int64.le_refl _
    · exact Int64.le_trans (decide_mem_range hpeers).2 (decide_mem_range hpeers).1

/-- The importances of the default configuration. -/
def defaultConfig : ProtocolConfig := ⟨60, 40⟩

/-- By default the cost counts. -/
theorem broadcast_decreasing_iff_defaultConfig :
    (0 : Int64) ≤ 25 ∧ ¬Decreasing (fun _ => 5) defaultConfig 25 ∧
      decideBroadcastAggressiveness (fun _ => 5) defaultConfig 4096 1000000000 25 ≤
        decideBroadcastAggressiveness (fun _ => 5) defaultConfig 1024 0 25 := by
  obtain ⟨-, hdecreases, hiff⟩ :=
    broadcast_decreasing_iff (fun _ => 5) defaultConfig 25 (by decide)
  refine ⟨by decide, ?_, ?_⟩
  · rw [hiff]
    decide
  · exact hdecreases 1024 4096 0 1000000000 (by decide) (by decide) (by decide) (by decide)
      (by decide) (by decide)

/-- A message of 10 MiB is sent to nobody at an age of 879 s, and to all of 25 peers at 880 s. At
the latter age one of 10 MB is sent to nobody. -/
theorem fanOut_increases :
    decideBroadcastAggressiveness (fun _ => 5) defaultConfig
        protocolMaxMsgSize 879000000000 25 = 0 ∧
      decideBroadcastAggressiveness (fun _ => 5) defaultConfig 10000000 880000000000 25 = 0 ∧
      decideBroadcastAggressiveness (fun _ => 5) defaultConfig protocolMaxMsgSize 880000000000 25 =
        25 := by
  decide

/-! ## `BroadcastEvent` -/

section

variable {π τ κ : Type}

/-- `BroadcastEvent`: the peers without the event that are sent the event, and those that are sent
its ID; `none` is the panic of slicing -/
def broadcastEvent (sqrt : Int64 → Int64) (cfg : ProtocolConfig) (size passed : Int64)
    (peers : List π) : Option (List π × List π) :=
  let passed := if passed < 0 then 0 else passed
  if peers.length = 0 then some ([], [])
  else
    let fullRecipients :=
      decideBroadcastAggressiveness sqrt cfg size passed (Int64.ofNat peers.length)
    if 0 ≤ fullRecipients ∧ fullRecipients ≤ Int64.ofNat peers.length then
      some (peers.take fullRecipients.toInt.toNat, peers.drop fullRecipients.toInt.toNat)
    else none

/-- Each peer is sent the event or its ID. -/
theorem broadcastEvent_covers (sqrt : Int64 → Int64) (cfg : ProtocolConfig) (size passed : Int64)
    {peers : List π} (hlen : peers.length < 2 ^ 63) :
    ∃ fullBroadcast hashBroadcast,
      broadcastEvent sqrt cfg size passed peers = some (fullBroadcast, hashBroadcast) ∧
        fullBroadcast ++ hashBroadcast = peers := by
  have hpeers : 0 ≤ Int64.ofNat peers.length := by
    rw [Int64.le_iff_toInt_le, Int64.toInt_ofNat_of_lt hlen]
    exact Int.natCast_nonneg _
  rw [broadcastEvent]
  split
  · rename_i hempty
    exact ⟨[], [], rfl, (List.eq_nil_of_length_eq_zero hempty).symm⟩
  · rw [if_pos (decide_mem_range hpeers)]
    exact ⟨_, _, rfl, List.take_append_drop _ _⟩

/-! ## `BroadcastTxs` -/

/-- `EvmTxsMsg` and `NewEvmTxHashesMsg` -/
inductive TxsMessage (τ κ : Type) where
  | txs (batch : List τ)
  | hashes (txids : List κ)

/-- The hashes of the transactions that a message is about. -/
def TxsMessage.txids (hash : τ → κ) : TxsMessage τ κ → List κ
  | txs batch => batch.map hash
  | hashes txids => txids

/-- `BroadcastTxs`: what is sent to a peer -/
def sendTxs (size : τ → ℕ) (hash : τ → κ) (full : Bool) (txs : List τ) : List (TxsMessage τ κ) :=
  splitTransactions size
    (fun batch sent => sent ++ [if full then .txs batch else .hashes (batch.map hash)]) txs []

/-- `BroadcastTxs`, for the peers that do not know all of the transactions, in the order of a map -/
def broadcastTxs (sqrt : Int64 → Int64) (cfg : ProtocolConfig) (size : τ → ℕ) (hash : τ → κ)
    (knows : π → τ → Bool) (txs : List τ) (peers : List π) : List (π × List (TxsMessage τ κ)) :=
  let fullRecipients := decideBroadcastAggressiveness sqrt cfg
    (Int64.ofNat (txs.map size).sum) 1000000000 (Int64.ofNat peers.length)
  peers.zipIdx.map fun (peer, i) =>
    (peer, sendTxs size hash (Int64.ofNat i < fullRecipients) (txs.filter fun tx => !knows peer tx))

theorem sendTxs_eq (size : τ → ℕ) (hash : τ → κ) (full : Bool) (txs : List τ) :
    sendTxs size hash full txs = (txBatches size txs).map fun batch =>
      if full then .txs batch else .hashes (batch.map hash) := by
  rw [sendTxs, splitTransactions_eq, ← List.flatMap_eq_foldl, List.map_eq_flatMap]

theorem txids_message (hash : τ → κ) (full : Bool) (batch : List τ) :
    (if full then .txs batch else .hashes (batch.map hash) : TxsMessage τ κ).txids hash =
      batch.map hash := by
  cases full with
  | false => rfl
  | true => rfl

/-- A peer is sent all the transactions that it does not know, or the hashes of all of them, each
one once. -/
theorem broadcastTxs_delivers {sqrt : Int64 → Int64} {cfg : ProtocolConfig} {size : τ → ℕ}
    {hash : τ → κ} {knows : π → τ → Bool} {txs : List τ} {peers : List π} {peer : π}
    {messages : List (TxsMessage τ κ)}
    (h : (peer, messages) ∈ broadcastTxs sqrt cfg size hash knows txs peers) :
    messages.flatMap (TxsMessage.txids hash) =
        (txs.filter fun tx => !knows peer tx).map hash ∧
      ∀ message ∈ messages, (message.txids hash).length ≤ softLimitItems := by
  obtain ⟨⟨peer', i⟩, -, heq⟩ := List.mem_map.mp h
  cases heq
  rw [sendTxs_eq]
  constructor
  · rw [List.flatMap_map]
    simp only [txids_message]
    rw [← List.map_flatMap, List.flatMap_id', flatten_txBatches]
  · intro message hmessage
    obtain ⟨batch, hbatch, rfl⟩ := List.mem_map.mp hmessage
    rw [txids_message, List.length_map]
    exact length_batch_le hbatch

end

end Broadcast

end Zilionixx
