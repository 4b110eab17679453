import Zilionixx.Binary64
import Zilionixx.BlockCallbacks
import Zilionixx.ForkWalk
import Zilionixx.TxLookup

/-!
# The transaction pool: from one head to the next

The first part of `reset` of `tx_pool.go`. If the old head is not the parent of the new one, both
branches are walked down to their fork, and the transactions that are only on the old branch come
back to the pool.
-/

namespace Zilionixx

/-! ## The chain -/

/-- `Number.Uint64()`; numbers of blocks are not negative -/
def EvmHeader.numberU64 (h : EvmHeader) : UInt64 :=
  UInt64.ofNat h.number.toNat

/-- `EvmBlock` as the pool reads it -/
structure PoolBlock extends EvmHeader where
  /-- `Transactions` -/
  transactions : List Transaction
  deriving DecidableEq

/-- The blocks of the chain. A block is found at its number only, and there is none at the last
number. -/
structure ChainBlocks where
  /-- `GetBlock` -/
  getBlock : EventID → UInt64 → Option PoolBlock
  number : ∀ h n b, getBlock h n = some b → b.numberU64 = n
  last : ∀ h, getBlock h 0xffffffffffffffff = none

namespace ChainBlocks

variable (chain : ChainBlocks)

/-- `GetBlock` of the parent -/
def parent (b : PoolBlock) : Option PoolBlock :=
  chain.getBlock b.parentHash (b.numberU64 - 1)

/-- The number of a block, unbounded. -/
def height (b : PoolBlock) : ℕ :=
  b.numberU64.toNat

/-- The loops of `reset` over two branches; `none` is one without a root. -/
def fork (rem add : PoolBlock) : Option (List PoolBlock × List PoolBlock) :=
  ForkWalk.fork chain.parent height (fun b => b.hash) rem add

end ChainBlocks

/-- `types.TxDifference` of go-ethereum, by hash -/
def TxInfo.txDifference (I : TxInfo) (a b : List Transaction) : List Transaction :=
  a.filter fun tx => !(b.map I.hash).contains (I.hash tx)

/-- What `reset` finds out about the two heads. -/
inductive Reorg where
  /-- the new head is not in the chain: a nil pointer -/
  | crash
  /-- `reset` returns -/
  | refused
  /-- the transactions to inject -/
  | reinject (txs : List Transaction)

/-- `depth`, computed in floating point -/
def reorgDepth (overflow oldNum newNum : UInt64) : UInt64 :=
  Binary64.toUInt64 overflow
    (Binary64.absSub (Binary64.round oldNum.toNat) (Binary64.round newNum.toNat))

/-- The depth is the distance of the numbers if these are exact in floating point. -/
theorem toNat_reorgDepth (overflow : UInt64) {oldNum newNum : UInt64}
    (hold : oldNum.toNat < 2 ^ 53) (hnew : newNum.toNat < 2 ^ 53) :
    (reorgDepth overflow oldNum newNum).toNat = Nat.dist oldNum.toNat newNum.toNat := by
  rw [reorgDepth, Binary64.round_of_lt hold, Binary64.round_of_lt hnew,
    Binary64.absSub_of_lt hold hnew]
  refine Binary64.toNat_toUInt64 ?_
  rw [Nat.dist]
  omega

/-- The first part of `reset`; `overflow` is what the platform makes of a depth of 2⁶⁴. -/
def ChainBlocks.reorg (I : TxInfo) (overflow : UInt64) (chain : ChainBlocks)
    (oldHead : Option EvmHeader) (newHead : EvmHeader) : Reorg :=
  match oldHead with
  | none => .reinject []
  | some oldHead =>
    if oldHead.hash = newHead.parentHash then .reinject []
    -- if the reorg is too deep, avoid doing it
    else if 64 < reorgDepth overflow oldHead.numberU64 newHead.numberU64 then .reinject []
    else
      match chain.getBlock oldHead.hash oldHead.numberU64 with
      | none =>
        -- the old head is discarded from the chain
        if oldHead.numberU64 ≤ newHead.numberU64 then .refused else .reinject []
      | some rem =>
        match chain.getBlock newHead.hash newHead.numberU64 with
        | none => .crash
        | some add =>
          match chain.fork rem add with
          | none => .refused
          | some (discarded, included) =>
            .reinject (I.txDifference (discarded.flatMap (·.transactions))
              (included.flatMap (·.transactions)))

namespace ChainBlocks

variable {I : TxInfo} {overflow : UInt64} {chain : ChainBlocks} {oldHead newHead : EvmHeader}
    {b p : PoolBlock}

/-- There is no block below the first one, so each parent is one lower. -/
theorem height_parent (chain : ChainBlocks) (b p : PoolBlock) (h : chain.parent b = some p) :
    height p + 1 = height b := by
  rw [parent] at h
  have hnumber := chain.number _ _ _ h
  have hpos : b.numberU64 ≠ 0 := by
    intro hzero
    rw [hzero] at h
    exact Option.some_ne_none p (h.symm.trans (chain.last _))
  rw [height, height, hnumber, UInt64.toNat_sub_of_le _ _ ?_, UInt64.toNat_one]
  · have := UInt64.toNat_inj.not.mpr hpos
    rw [UInt64.toNat_zero] at this
    omega
  · grind

/-- A header is the one of a block that the chain finds. -/
def Stored (chain : ChainBlocks) (head : EvmHeader) (b : PoolBlock) : Prop :=
  chain.getBlock head.hash head.numberU64 = some b ∧ b.toEvmHeader = head

/-- The old head is an ancestor of the new one. -/
def Descends (chain : ChainBlocks) (newHead oldHead : EvmHeader) : Prop :=
  ∃ b bs c, chain.Stored newHead b ∧ chain.Stored oldHead c ∧ ForkWalk.Branch chain.parent b bs c

theorem Descends.trans {head : EvmHeader} (h : chain.Descends newHead head)
    (h' : chain.Descends head oldHead) : chain.Descends newHead oldHead := by
  obtain ⟨b, bs, c, hb, hc, hbranch⟩ := h
  obtain ⟨c', bs', d, hc', hd, hbranch'⟩ := h'
  obtain rfl := Option.some.inj (hc.1.symm.trans hc'.1)
  exact ⟨b, bs ++ bs', d, hb, hd, hbranch.append hbranch'⟩

/-- Nothing is injected if the chain only grew. -/
theorem reorg_of_descends (I : TxInfo) (overflow : UInt64) (h : chain.Descends newHead oldHead) :
    chain.reorg I overflow (some oldHead) newHead = .reinject [] := by
  obtain ⟨add, bs, rem, hadd, hrem, hbranch⟩ := h
  have hfork : chain.fork rem add = some ([], bs) :=
    (ForkWalk.fork_eq_some chain.height_parent).mpr
      ⟨rem, rem, .here rem, hbranch, rfl, rfl, List.forall_mem_nil _⟩
  rw [reorg]
  split
  · rfl
  split
  · rfl
  rw [hrem.1]
  dsimp only
  rw [hadd.1]
  dsimp only
  rw [hfork]
  rfl

/-- The blocks of two branches above their fork: down to the first ones with the same hash at the
same height. -/
def Forks (chain : ChainBlocks) (rem add : PoolBlock) (olds news : List PoolBlock) : Prop :=
  ∃ c c', ForkWalk.Branch chain.parent rem olds c ∧ ForkWalk.Branch chain.parent add news c' ∧
    height c = height c' ∧ c.hash = c'.hash ∧
    ∀ b ∈ olds, ∀ b' ∈ news, height b = height b' → b.hash ≠ b'.hash

/-- **The pool takes back what the new branch does not have.** If both heads are in the chain, the
old one is not the parent of the new one and their depth, which is their distance for numbers below
2⁵³, is at most 64, then the transactions in the blocks of the old head above the fork are injected
that are not in those of the new head; and `reset` returns just if there is no fork. -/
theorem reorg_eq_reinject (I : TxInfo) {r a : PoolBlock}
    (hparent : oldHead.hash ≠ newHead.parentHash)
    (hdepth : reorgDepth overflow oldHead.numberU64 newHead.numberU64 ≤ 64)
    (hrem : chain.getBlock oldHead.hash oldHead.numberU64 = some r)
    (hadd : chain.getBlock newHead.hash newHead.numberU64 = some a) :
    (∀ txs, chain.reorg I overflow (some oldHead) newHead = .reinject txs ↔
      ∃ olds news, chain.Forks r a olds news ∧
        txs = I.txDifference (olds.flatMap (·.transactions)) (news.flatMap (·.transactions))) ∧
      (chain.reorg I overflow (some oldHead) newHead = .refused ↔
        ∀ olds news, ¬chain.Forks r a olds news) := by
  have hfork : ∀ olds news, chain.fork r a = some (olds, news) ↔ chain.Forks r a olds news :=
    fun olds news => ForkWalk.fork_eq_some chain.height_parent
  rw [reorg, if_neg hparent, if_neg (UInt64.not_lt.mpr hdepth), hrem]
  dsimp only
  rw [hadd]
  dsimp only
  simp only [← hfork]
  cases chain.fork r a with
  | none => simp
  | some walk =>
    obtain ⟨discarded, included⟩ := walk
    simp [eq_comm]

/-! ## Two branches -/

section

/-- A transfer with a nonce. -/
def poolTransfer (nonce : UInt64) : Transaction where
  nonce := nonce
  gas := 21000
  gasPrice := 1
  value := 0
  toAddress := some (copyBytes 20 [])
  data := []
  v := 0
  r := 0
  s := 0
  kind := .legacy

/-- Transactions with their nonces as hashes. -/
def poolInfo : TxInfo where
  hash tx := copyBytes 32 [tx.nonce.toUInt8]
  sender _ := some (copyBytes 20 [7])
  size _ := 100

/-- A block with small hashes. -/
def poolBlock (id parent : UInt32) (number : ℤ) (txs : List Transaction) : PoolBlock where
  number := number
  hash := ⟨1, id, .replicate 24 0⟩
  parentHash := ⟨1, parent, .replicate 24 0⟩
  root := .replicate 32 0
  txHash := .replicate 32 0
  time := 0
  gasLimit := 0
  gasUsed := 0
  transactions := txs

/-- A block on the first one has two transactions; the branch beside it has one of them and two
blocks more. -/
def poolBlocks : List PoolBlock :=
  [poolBlock 1 0 1 [], poolBlock 2 1 2 [poolTransfer 1, poolTransfer 2],
    poolBlock 3 1 2 [poolTransfer 1], poolBlock 4 3 3 [], poolBlock 5 4 4 []]

/-- The chain of these blocks. -/
def poolChain : ChainBlocks where
  getBlock hash n := poolBlocks.find? fun b => decide (b.hash = hash ∧ b.numberU64 = n)
  number := by
    intro hash n b h
    exact (of_decide_eq_true (List.find?_some h :)).2
  last := by
    intro hash
    refine List.find?_eq_none.mpr fun b hb h => ?_
    have hnumber : ∀ b ∈ poolBlocks, b.numberU64 ≠ 0xffffffffffffffff := by decide
    exact hnumber b hb (of_decide_eq_true h).2

/-- The transaction that the other branch does not have comes back. -/
theorem reorg_sample :
    poolChain.reorg poolInfo 0 (some (poolBlock 2 1 2 []).toEvmHeader)
      (poolBlock 4 3 3 []).toEvmHeader = .reinject [poolTransfer 2] := by
  have hdepth :
      reorgDepth 0 (poolBlock 2 1 2 []).numberU64 (poolBlock 4 3 3 []).numberU64 ≤ 64 := by
    rw [UInt64.le_iff_toNat_le, toNat_reorgDepth 0 (by decide) (by decide)]
    decide
  refine ((reorg_eq_reinject poolInfo (r := poolBlock 2 1 2 [poolTransfer 1, poolTransfer 2])
    (a := poolBlock 4 3 3 []) (by decide) hdepth (by decide) (by decide)).1 _).mpr ?_
  refine ⟨[poolBlock 2 1 2 [poolTransfer 1, poolTransfer 2]],
    [poolBlock 4 3 3 [], poolBlock 3 1 2 [poolTransfer 1]],
    ⟨poolBlock 1 0 1 [], poolBlock 1 0 1 [], .step ?_ (.here _), .step ?_ (.step ?_ (.here _)),
      rfl, rfl, ?_⟩, ?_⟩
  all_goals decide

end

end ChainBlocks

end Zilionixx
