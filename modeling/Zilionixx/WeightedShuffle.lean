import Zilionixx.ImplicitTree
import Zilionixx.Rules
import Mathlib.Algebra.BigOperators.Fin
import Mathlib.Data.UInt

/-!
# Weighted permutations

`utils/weighted_shuffle.go`. The indexes are nodes of an implicit binary tree. Each node has
the weight of its index and the weights of the two subtrees, of what was not chosen yet. A
`retrieve` walks down from the root by random numbers and takes the weight of the chosen index
off the tree. SHA-256, which gives the random numbers, is a parameter. `none` is a panic, a
division by zero or an index out of range.

The tree represents the weights that remain (`Remaining`), and a `retrieve` clears one of
them (`retrieve_root`).
-/

namespace Zilionixx

open ImplicitTree ByteNumber

/-- `weightedShuffleNode` -/
structure WeightedShuffleNode where
  thisWeight : UInt32
  leftWeight : UInt32
  rightWeight : UInt32
  deriving DecidableEq

/-- `weightedShuffleTree` -/
structure WeightedShuffleTree where
  seed : Hash
  seedIndex : ℕ
  weights : List UInt32
  nodes : List WeightedShuffleNode

namespace WeightedShuffleTree

/-- The left child of a node. -/
def leftIndex (i : ℕ) : ℕ := i * 2 + 1

/-- The right child of a node. -/
def rightIndex (i : ℕ) : ℕ := i * 2 + 2

/-- An assignment to `t.nodes[i]`. -/
def setNode (t : WeightedShuffleTree) (i : ℕ) (node : WeightedShuffleNode) :
    Option WeightedShuffleTree :=
  if i < t.nodes.length then some { t with nodes := t.nodes.set i node } else none

/-- `build`, as long as there is fuel. -/
def build : ℕ → ℕ → WeightedShuffleTree → Option (UInt32 × WeightedShuffleTree)
  | 0, _, _ => none
  | fuel + 1, i, t =>
    if i ≥ t.weights.length then some (0, t)
    else do
      let thisW ← t.weights[i]?
      let (leftW, t) ← build fuel (leftIndex i) t
      let (rightW, t) ← build fuel (rightIndex i) t
      -- "all the weight must be positive"
      if thisW ≤ 0 then none
      else
        let t ← t.setNode i ⟨thisW, leftW, rightW⟩
        pure (thisW + leftW + rightW, t)

variable (sha256 : List UInt8 → Hash)

/-- `rand32` -/
def rand32 (t : WeightedShuffleTree) : Option (UInt32 × WeightedShuffleTree) :=
  let t := if t.seedIndex = 32 then { t with seed := sha256 t.seed.toList, seedIndex := 0 } else t
  -- use not used parts of old seed, instead of calculating new one
  if t.seedIndex + 4 ≤ t.seed.toList.length then
    let res := UInt32.ofNat (ofLE ((t.seed.toList.drop t.seedIndex).take 4))
    some (res, { t with seedIndex := t.seedIndex + 4 })
  else none

/-- `retrieve`, as long as there is fuel. -/
def retrieve : ℕ → ℕ → WeightedShuffleTree → Option (ℕ × WeightedShuffleTree)
  | 0, _, _ => none
  | fuel + 1, i, t => do
    let node ← t.nodes[i]?
    let total := node.rightWeight + node.leftWeight + node.thisWeight
    let (rand, t) ← t.rand32 sha256
    if total = 0 then none
    else
      let r := rand % total
      if r < node.thisWeight then
        let t ← t.setNode i { node with thisWeight := 0 }
        pure (i, t)
      else if r < node.thisWeight + node.leftWeight then
        let (chosen, t) ← retrieve fuel (leftIndex i) t
        let weight ← t.weights[chosen]?
        let node ← t.nodes[i]?
        let t ← t.setNode i { node with leftWeight := node.leftWeight - weight }
        pure (chosen, t)
      else
        let (chosen, t) ← retrieve fuel (rightIndex i) t
        let weight ← t.weights[chosen]?
        let node ← t.nodes[i]?
        let t ← t.setNode i { node with rightWeight := node.rightWeight - weight }
        pure (chosen, t)

/-- The loop of `WeightedPermutation`. -/
def retrieves : ℕ → WeightedShuffleTree → Option (List ℕ)
  | 0, _ => some []
  | size + 1, t => do
    let (chosen, t) ← t.retrieve sha256 t.weights.length 0
    let permutation ← retrieves size t
    pure (chosen :: permutation)

end WeightedShuffleTree

open WeightedShuffleTree

/-- `WeightedPermutation` -/
def weightedPermutation (sha256 : List UInt8 → Hash) (size : ℕ) (weights : List UInt32)
    (seed : Hash) : Option (List ℕ) :=
  -- "the permutation size must be less or equal to weights size"
  if weights.length < size then none
  else if weights.length = 0 then some []
  else do
    let (_, tree) ← build (weights.length + 1) 0
      { weights := weights
        nodes := List.replicate weights.length ⟨0, 0, 0⟩
        seed := seed
        seedIndex := 0 }
    retrieves sha256 size tree

namespace WeightedShuffleTree

theorem leftIndex_eq (i : ℕ) : leftIndex i = 2 * i + 1 := by
  rw [leftIndex, Nat.mul_comm]

theorem rightIndex_eq (i : ℕ) : rightIndex i = 2 * i + 2 := by
  rw [rightIndex, Nat.mul_comm]

variable {t : WeightedShuffleTree}

theorem setNode_of_lt {i : ℕ} (h : i < t.nodes.length) (node : WeightedShuffleNode) :
    t.setNode i node = some { t with nodes := t.nodes.set i node } :=
  if_pos h

variable (sha256 : List UInt8 → Hash) {f : ℕ → ℕ}

/-! ## Nodes from values -/

/-- The node for values of the indexes. -/
def nodeOf (n : ℕ) (f : ℕ → ℕ) (k : ℕ) : WeightedShuffleNode where
  thisWeight := .ofNat (f k)
  leftWeight := .ofNat (subtotal n f (2 * k + 1))
  rightWeight := .ofNat (subtotal n f (2 * k + 2))

/-- The total of a node is the total of its subtree. -/
theorem total_nodeOf {n k : ℕ} (f : ℕ → ℕ) (hk : k < n) :
    (nodeOf n f k).thisWeight + (nodeOf n f k).leftWeight + (nodeOf n f k).rightWeight =
      .ofNat (subtotal n f k) := by
  rw [(totals_subtotal n f).node k hk, UInt32.ofNat_add, UInt32.ofNat_add]
  rfl

/-- A value that is not in the subtree of a node does not show there. -/
theorem nodeOf_clear {n c k : ℕ} (f : ℕ → ℕ) (h : ¬InSubtree k c) :
    nodeOf n (Function.update f c 0) k = nodeOf n f k := by
  have hne : k ≠ c := by
    rintro rfl
    exact h .refl
  rw [nodeOf, nodeOf, Function.update_of_ne hne,
    subtotal_clear_of_not f fun hc => h ((InSubtree.leftChild k).trans hc),
    subtotal_clear_of_not f fun hc => h ((InSubtree.rightChild k).trans hc)]

/-- The value of the node itself is cleared. -/
theorem nodeOf_clear_this (n : ℕ) (f : ℕ → ℕ) (i : ℕ) :
    { nodeOf n f i with thisWeight := 0 } = nodeOf n (Function.update f i 0) i := by
  have hbelow : ∀ j, i < j → ¬InSubtree j i := fun j hj h => absurd h.le (by omega)
  simp only [nodeOf, Function.update_self, subtotal_clear_of_not f (hbelow (2 * i + 1) (by omega)),
    subtotal_clear_of_not f (hbelow (2 * i + 2) (by omega))]
  rfl

/-- A value is cleared, and taken off the total of its subtree. -/
theorem ofNat_subtotal_clear {n c i : ℕ} (f : ℕ → ℕ) (hc : c < n) (h : InSubtree i c) :
    UInt32.ofNat (subtotal n f i) - .ofNat (f c) =
      .ofNat (subtotal n (Function.update f c 0) i) := by
  rw [← subtotal_clear f hc h, UInt32.ofNat_add, UInt32.add_sub_cancel]

theorem nodeOf_clear_left {n c i : ℕ} (f : ℕ → ℕ) (hc : c < n) (h : InSubtree (2 * i + 1) c) :
    { nodeOf n f i with leftWeight := (nodeOf n f i).leftWeight - .ofNat (f c) } =
      nodeOf n (Function.update f c 0) i := by
  have hle := h.le
  simp only [nodeOf, ofNat_subtotal_clear f hc h, subtotal_clear_of_not f h.disjoint,
    Function.update_of_ne (show i ≠ c by omega)]

theorem nodeOf_clear_right {n c i : ℕ} (f : ℕ → ℕ) (hc : c < n) (h : InSubtree (2 * i + 2) c) :
    { nodeOf n f i with rightWeight := (nodeOf n f i).rightWeight - .ofNat (f c) } =
      nodeOf n (Function.update f c 0) i := by
  have hle := h.le
  simp only [nodeOf, ofNat_subtotal_clear f hc h,
    subtotal_clear_of_not f fun hleft : InSubtree (2 * i + 1) c => hleft.disjoint h,
    Function.update_of_ne (show i ≠ c by omega)]

/-- The nodes of a subtree are made anew from values, and the others are kept. -/
structure Rebuilt (n : ℕ) (f : ℕ → ℕ) (i : ℕ) (nodes nodes' : List WeightedShuffleNode) : Prop where
  length : nodes'.length = nodes.length
  inside : ∀ k < n, InSubtree i k → nodes'[k]? = some (nodeOf n f k)
  outside : ∀ k, ¬InSubtree i k → nodes'[k]? = nodes[k]?

namespace Rebuilt

variable {n i : ℕ} {f : ℕ → ℕ} {nodes nodes' nodes'' : List WeightedShuffleNode}

theorem refl (h : ∀ k < n, InSubtree i k → nodes[k]? = some (nodeOf n f k)) :
    Rebuilt n f i nodes nodes where
  length := rfl
  inside := h
  outside _ _ := rfl

/-- The node itself is made after its two subtrees. -/
theorem node (hi : i < nodes.length) (hleft : Rebuilt n f (2 * i + 1) nodes nodes')
    (hright : Rebuilt n f (2 * i + 2) nodes' nodes'') :
    Rebuilt n f i nodes (nodes''.set i (nodeOf n f i)) where
  length := by
    rw [List.length_set, hright.length, hleft.length]
  inside k hk hin := by
    rcases hin.split with rfl | hin | hin
    · rw [List.getElem?_set_self (by rwa [hright.length, hleft.length])]
    · have := hin.le
      rw [List.getElem?_set_ne (by omega), hright.outside k hin.disjoint, hleft.inside k hk hin]
    · have := hin.le
      rw [List.getElem?_set_ne (by omega), hright.inside k hk hin]
  outside k hout := by
    have hne : i ≠ k := by
      rintro rfl
      exact hout .refl
    rw [List.getElem?_set_ne hne,
      hright.outside k fun h => hout ((InSubtree.rightChild i).trans h),
      hleft.outside k fun h => hout ((InSubtree.leftChild i).trans h)]

end Rebuilt

/-! ## `build` -/

/-- The weight at an index, 0 if there is none. -/
def weightAt (weights : List UInt32) (k : ℕ) : ℕ := (weights.getD k 0).toNat

theorem weightAt_of_getElem? {weights : List UInt32} {k : ℕ} {w : UInt32}
    (h : weights[k]? = some w) : weightAt weights k = w.toNat := by
  rw [weightAt, List.getD_eq_getElem?_getD, h, Option.getD_some]

theorem build_spec (fuel i : ℕ) (hpos : ∀ w ∈ t.weights, 0 < w)
    (hlen : t.nodes.length = t.weights.length) (hfuel : t.weights.length - i < fuel) :
    ∃ nodes, build fuel i t = some (.ofNat (subtotal t.weights.length (weightAt t.weights) i),
        { t with nodes := nodes }) ∧
      Rebuilt t.weights.length (weightAt t.weights) i t.nodes nodes := by
  induction fuel generalizing i t with
  | zero => omega
  | succ fuel ih =>
    rw [build]
    rcases Nat.lt_or_ge i t.weights.length with hi | hi
    · have hw : t.weights[i]? = some t.weights[i] := List.getElem?_eq_getElem hi
      obtain ⟨nodes, hbuildLeft, hleft⟩ := ih (2 * i + 1) hpos hlen (by omega)
      obtain ⟨nodes', hbuildRight, hright⟩ :=
        ih (2 * i + 2) (t := { t with nodes := nodes }) hpos (hleft.length.trans hlen)
          (show t.weights.length - (2 * i + 2) < fuel by omega)
      have hnode : (⟨t.weights[i],
        .ofNat (subtotal t.weights.length (weightAt t.weights) (2 * i + 1)),
          .ofNat (subtotal t.weights.length (weightAt t.weights) (2 * i + 2))⟩ :
            WeightedShuffleNode) = nodeOf t.weights.length (weightAt t.weights) i := by
        rw [nodeOf, weightAt_of_getElem? hw, UInt32.ofNat_toNat]
      have hset : i < nodes'.length := by rwa [hright.length, hleft.length, hlen]
      refine ⟨_, ?_, hleft.node (hlen ▸ hi) hright⟩
      rw [if_neg (Nat.not_le.mpr hi), hw, ← total_nodeOf _ hi, ← hnode, leftIndex_eq, rightIndex_eq]
      simp only [Option.bind_eq_bind, Option.bind_some, hbuildLeft, hbuildRight,
        if_neg (UInt32.not_le.mpr (hpos _ (List.getElem_mem hi))),
        setNode_of_lt (t := { t with nodes := nodes' }) hset]
      rfl
    · rw [if_pos hi, (totals_subtotal _ _).outside i hi]
      exact ⟨t.nodes, rfl, .refl fun k hk hin => absurd hin.le (by omega)⟩

/-! ## `retrieve` -/

/-- A part of the seed is not used yet, or a new one is to be made. -/
def Seeded (t : WeightedShuffleTree) : Prop := t.seedIndex ≤ 32 ∧ 4 ∣ t.seedIndex

theorem rand32_spec (h : t.Seeded) :
    ∃ rand t', t.rand32 sha256 = some (rand, t') ∧ t'.weights = t.weights ∧ t'.nodes = t.nodes ∧
      t'.Seeded := by
  obtain ⟨hle, hdvd⟩ := h
  unfold rand32
  by_cases hused : t.seedIndex = 32
  · simp only [if_pos hused, List.Vector.toList_length, Nat.zero_add]
    exact ⟨_, _, rfl, rfl, rfl, show 4 ≤ 32 by omega, show 4 ∣ 4 by omega⟩
  · have hlt : t.seedIndex + 4 ≤ 32 := by omega
    simp only [if_neg hused, List.Vector.toList_length, if_pos hlt]
    exact ⟨_, _, rfl, rfl, rfl, hlt, show 4 ∣ t.seedIndex + 4 by omega⟩

/-- The tree represents the weights that were not chosen yet. -/
structure Remaining (t : WeightedShuffleTree) (f : ℕ → ℕ) : Prop where
  length : t.nodes.length = t.weights.length
  nodes : ∀ k < t.weights.length, t.nodes[k]? = some (nodeOf t.weights.length f k)
  values : ∀ k, f k = 0 ∨ f k = weightAt t.weights k
  fits : subtotal t.weights.length f 0 < 2 ^ 32
  seeded : t.Seeded

namespace Remaining

variable {t : WeightedShuffleTree} {f : ℕ → ℕ} {i c : ℕ}

/-- Drawing a random number leaves the weights and the nodes. -/
theorem of_eq (h : t.Remaining f) {t' : WeightedShuffleTree} (hweights : t'.weights = t.weights)
    (hnodes : t'.nodes = t.nodes) (hseeded : t'.Seeded) : t'.Remaining f where
  length := by rw [hweights, hnodes, h.length]
  nodes := hweights ▸ hnodes ▸ h.nodes
  values := hweights ▸ h.values
  fits := hweights ▸ h.fits
  seeded := hseeded

/-- A node stays as it is if the cleared value is not below it. -/
theorem nodes_clear (h : t.Remaining f) (hc : ¬InSubtree i c) (k : ℕ) (hk : k < t.weights.length)
    (hin : InSubtree i k) :
    t.nodes[k]? = some (nodeOf t.weights.length (Function.update f c 0) k) := by
  rw [h.nodes k hk, nodeOf_clear f fun hck => hc (hin.trans hck)]

/-- What remains of a weight is all of it. -/
theorem getElem?_weights (h : t.Remaining f) (hc : c < t.weights.length) (hpos : 0 < f c) :
    t.weights[c]? = some (.ofNat (f c)) := by
  have hw : t.weights[c]? = some t.weights[c] := List.getElem?_eq_getElem hc
  rcases h.values c with hzero | hvalue
  · omega
  · rw [hw, hvalue, weightAt_of_getElem? hw, UInt32.ofNat_toNat]

theorem toNat_subtotal (h : t.Remaining f) (k : ℕ) :
    (UInt32.ofNat (subtotal t.weights.length f k)).toNat = subtotal t.weights.length f k :=
  UInt32.toNat_ofNat_of_lt' (((totals_subtotal _ f).le_root k).trans_lt h.fits)

end Remaining

/-- What `retrieve` does in the subtree of `i`. -/
structure Retrieved (t : WeightedShuffleTree) (f : ℕ → ℕ) (i chosen : ℕ)
    (t' : WeightedShuffleTree) : Prop where
  lt : chosen < t.weights.length
  inside : InSubtree i chosen
  pos : 0 < f chosen
  weights : t'.weights = t.weights
  seeded : t'.Seeded
  rebuilt : Rebuilt t.weights.length (Function.update f chosen 0) i t.nodes t'.nodes

namespace Retrieved

variable {t t' : WeightedShuffleTree} {f : ℕ → ℕ} {i chosen : ℕ}

/-- The node itself is chosen. -/
theorem this (hrem : t.Remaining f) (hi : i < t.weights.length) (hpos : 0 < f i) :
    Retrieved t f i i
      { t with nodes := t.nodes.set i (nodeOf t.weights.length (Function.update f i 0) i) } where
  lt := hi
  inside := .refl
  pos := hpos
  weights := rfl
  seeded := hrem.seeded
  rebuilt := by
    have hbelow : ∀ j, i < j → ¬InSubtree j i := fun j hj h => absurd h.le (by omega)
    exact (Rebuilt.refl (hrem.nodes_clear (hbelow _ (by omega)))).node (hrem.length ▸ hi)
      (.refl (hrem.nodes_clear (hbelow _ (by omega))))

/-- The node above is set after its left subtree. -/
theorem up_left (hrem : t.Remaining f) (hi : i < t.weights.length)
    (h : Retrieved t f (2 * i + 1) chosen t') :
    Retrieved t f i chosen
      { t' with
        nodes := t'.nodes.set i (nodeOf t.weights.length (Function.update f chosen 0) i) } where
  lt := h.lt
  inside := (InSubtree.leftChild i).trans h.inside
  pos := h.pos
  weights := h.weights
  seeded := h.seeded
  rebuilt := by
    refine h.rebuilt.node (hrem.length ▸ hi) (.refl fun k hk hin => ?_)
    rw [h.rebuilt.outside k fun hleft => hleft.disjoint hin]
    exact hrem.nodes_clear h.inside.disjoint k hk hin

/-- The node above is set after its right subtree. -/
theorem up_right (hrem : t.Remaining f) (hi : i < t.weights.length)
    (h : Retrieved t f (2 * i + 2) chosen t') :
    Retrieved t f i chosen
      { t' with
        nodes := t'.nodes.set i (nodeOf t.weights.length (Function.update f chosen 0) i) } where
  lt := h.lt
  inside := (InSubtree.rightChild i).trans h.inside
  pos := h.pos
  weights := h.weights
  seeded := h.seeded
  rebuilt := by
    have hleft := hrem.nodes_clear fun hleft : InSubtree (2 * i + 1) chosen =>
      hleft.disjoint h.inside
    exact (Rebuilt.refl hleft).node (hrem.length ▸ hi) h.rebuilt

/-- A node above the subtree is as before, and can be set. -/
theorem above (hrem : t.Remaining f) {j : ℕ} (h : Retrieved t f j chosen t')
    (hi : i < t.weights.length)
    (hj : i < j) :
    t'.nodes[i]? = some (nodeOf t.weights.length f i) ∧ i < t'.nodes.length ∧
      t'.weights[chosen]? = some (.ofNat (f chosen)) := by
  refine ⟨?_, ?_, ?_⟩
  · rw [h.rebuilt.outside i fun hin => absurd hin.le (by omega), hrem.nodes i hi]
  · rwa [h.rebuilt.length, hrem.length]
  · rw [h.weights, hrem.getElem?_weights h.lt h.pos]

/-- The seed is of no account. -/
theorem of_eq {t₁ : WeightedShuffleTree} (h : Retrieved t₁ f i chosen t')
    (hweights : t₁.weights = t.weights) (hnodes : t₁.nodes = t.nodes) :
    Retrieved t f i chosen t' where
  lt := hweights ▸ h.lt
  inside := h.inside
  pos := h.pos
  weights := h.weights.trans hweights
  seeded := h.seeded
  rebuilt := hweights ▸ hnodes ▸ h.rebuilt

end Retrieved

/-- The random number hits one of the three parts of a node. -/
theorem Remaining.hit {i : ℕ} (h : t.Remaining f) (hpos : 0 < subtotal t.weights.length f i)
    (hi : i < t.weights.length) (rand : UInt32) :
    let node := nodeOf t.weights.length f i
    let total := node.rightWeight + node.leftWeight + node.thisWeight
    let r := rand % total
    total ≠ 0 ∧ (r < node.thisWeight → 0 < f i) ∧
      (¬r < node.thisWeight → r < node.thisWeight + node.leftWeight →
        0 < subtotal t.weights.length f (2 * i + 1)) ∧
      (¬r < node.thisWeight → ¬r < node.thisWeight + node.leftWeight →
        0 < subtotal t.weights.length f (2 * i + 2)) := by
  intro node total r
  have hnode := (totals_subtotal t.weights.length f).node i hi
  have hfits : subtotal t.weights.length f i < 2 ^ 32 :=
    ((totals_subtotal _ f).le_root i).trans_lt h.fits
  have htotal : total = .ofNat (subtotal t.weights.length f i) := by
    have hcomm : total = node.thisWeight + (node.rightWeight + node.leftWeight) :=
      UInt32.add_comm _ _
    rw [hcomm, UInt32.add_comm node.rightWeight, ← UInt32.add_assoc, total_nodeOf f hi]
  have htoNat : total.toNat = subtotal t.weights.length f i := by
    rw [htotal, h.toNat_subtotal]
  have hr : r.toNat < subtotal t.weights.length f i := by
    rw [UInt32.toNat_mod, htoNat]
    exact Nat.mod_lt _ hpos
  have hthis : r < node.thisWeight ↔ r.toNat < f i :=
    UInt32.lt_ofNat_iff (show f i < 2 ^ 32 by omega)
  have hleft : r < node.thisWeight + node.leftWeight ↔
      r.toNat < f i + subtotal t.weights.length f (2 * i + 1) := by
    have hadd : node.thisWeight + node.leftWeight =
        .ofNat (f i + subtotal t.weights.length f (2 * i + 1)) := (UInt32.ofNat_add _ _).symm
    rw [hadd]
    exact UInt32.lt_ofNat_iff (show _ < 2 ^ 32 by omega)
  refine ⟨?_, ?_, ?_, ?_⟩
  · intro hzero
    rw [hzero] at htoNat
    exact hpos.ne htoNat
  · rw [hthis]
    omega
  · rw [hthis, hleft]
    omega
  · rw [hthis, hleft]
    omega

/-- With something left in the subtree, an index of it is chosen. -/
theorem retrieve_spec (fuel i : ℕ) (h : t.Remaining f) (hpos : 0 < subtotal t.weights.length f i)
    (hfuel : t.weights.length ≤ i + fuel) :
    ∃ chosen t', retrieve sha256 fuel i t = some (chosen, t') ∧ Retrieved t f i chosen t' := by
  have hi : i < t.weights.length := (totals_subtotal _ f).lt_of_pos hpos
  induction fuel generalizing i t with
  | zero => omega
  | succ fuel ih =>
    obtain ⟨rand, t₁, hrand, hweights, hnodes, hseeded⟩ := rand32_spec sha256 h.seeded
    have hrem : t₁.Remaining f := h.of_eq hweights hnodes hseeded
    rw [← hweights] at hpos hfuel hi
    obtain ⟨htotal, hthis, hleft, hright⟩ := hrem.hit hpos hi rand
    suffices hstep : ∃ chosen t', retrieve sha256 (fuel + 1) i t = some (chosen, t') ∧
        Retrieved t₁ f i chosen t' by
      obtain ⟨chosen, t', hretrieve, hchosen⟩ := hstep
      exact ⟨chosen, t', hretrieve, hchosen.of_eq hweights hnodes⟩
    have hnode : t.nodes[i]? = some (nodeOf t₁.weights.length f i) := hnodes ▸ hrem.nodes i hi
    have hlen : i < t₁.nodes.length := hrem.length ▸ hi
    simp only [retrieve, Option.bind_eq_bind, hnode, Option.bind_some, hrand, if_neg htotal]
    split
    · next hhit =>
      refine ⟨i, _, ?_, .this hrem hi (hthis hhit)⟩
      rw [setNode_of_lt hlen, nodeOf_clear_this]
      rfl
    split
    · next hnot hhit =>
      have hsome := hleft hnot hhit
      obtain ⟨chosen, t', hretrieve, hchosen⟩ := ih _ hrem hsome (by omega)
        ((totals_subtotal _ f).lt_of_pos hsome)
      obtain ⟨habove, hlen', hweight⟩ := hchosen.above hrem hi (by omega)
      refine ⟨chosen, _, ?_, hchosen.up_left hrem hi⟩
      simp only [leftIndex_eq, hretrieve, Option.bind_some, hweight, habove, setNode_of_lt hlen',
        nodeOf_clear_left f hchosen.lt hchosen.inside]
      rfl
    · next hnot hnot' =>
      have hsome := hright hnot hnot'
      obtain ⟨chosen, t', hretrieve, hchosen⟩ := ih _ hrem hsome (by omega)
        ((totals_subtotal _ f).lt_of_pos hsome)
      obtain ⟨habove, hlen', hweight⟩ := hchosen.above hrem hi (by omega)
      refine ⟨chosen, _, ?_, hchosen.up_right hrem hi⟩
      simp only [rightIndex_eq, hretrieve, Option.bind_some, hweight, habove, setNode_of_lt hlen',
        nodeOf_clear_right f hchosen.lt hchosen.inside]
      rfl

/-- At the root, the chosen weight is cleared. -/
theorem retrieve_root (h : t.Remaining f) (hpos : ∃ k < t.weights.length, 0 < f k) :
    ∃ chosen t', retrieve sha256 t.weights.length 0 t = some (chosen, t') ∧
      t'.weights = t.weights ∧ chosen < t.weights.length ∧ 0 < f chosen ∧
        t'.Remaining (Function.update f chosen 0) := by
  obtain ⟨k, hk, hfk⟩ := hpos
  have hroot : f k ≤ subtotal t.weights.length f 0 :=
    ((totals_subtotal _ f).value_le hk).trans ((totals_subtotal _ f).le_root k)
  obtain ⟨chosen, t', hretrieve, hchosen⟩ :=
    retrieve_spec sha256 t.weights.length 0 h (by omega) (by omega)
  refine ⟨chosen, t', hretrieve, hchosen.weights, hchosen.lt, hchosen.pos, ?_⟩
  constructor
  · rw [hchosen.weights, hchosen.rebuilt.length, h.length]
  · rw [hchosen.weights]
    exact fun k hk => hchosen.rebuilt.inside k hk (.of_zero k)
  · intro k
    rw [hchosen.weights, Function.update_apply]
    split
    · exact .inl rfl
    · exact h.values k
  · rw [hchosen.weights]
    have hclear := subtotal_clear f hchosen.lt (.of_zero chosen)
    have hfits := h.fits
    omega
  · exact hchosen.seeded

/-! ## The loop -/

/-- The indexes that were not chosen yet. -/
def unchosen (t : WeightedShuffleTree) (f : ℕ → ℕ) : Finset ℕ :=
  (Finset.range t.weights.length).filter (0 < f ·)

theorem mem_unchosen {k : ℕ} :
    k ∈ t.unchosen f ↔ k < t.weights.length ∧ 0 < f k := by
  rw [unchosen, Finset.mem_filter, Finset.mem_range]

theorem unchosen_clear {t t' : WeightedShuffleTree} (f : ℕ → ℕ) (c : ℕ)
    (h : t'.weights = t.weights) :
    t'.unchosen (Function.update f c 0) = (t.unchosen f).erase c := by
  ext k
  rw [Finset.mem_erase, mem_unchosen, mem_unchosen, h, Function.update_apply]
  split
  · simp [*]
  · simp [*]

theorem retrieves_spec {size : ℕ} (h : t.Remaining f) (hsize : size ≤ (t.unchosen f).card) :
    ∃ permutation, retrieves sha256 size t = some permutation ∧ permutation.length = size ∧
      permutation.Nodup ∧ ∀ c ∈ permutation, c ∈ t.unchosen f := by
  induction size generalizing t f with
  | zero => exact ⟨[], rfl, rfl, List.nodup_nil, fun c hc => absurd hc (List.not_mem_nil)⟩
  | succ size ih =>
    obtain ⟨k, hk⟩ : (t.unchosen f).Nonempty := Finset.card_pos.mp (by omega)
    obtain ⟨chosen, t', hretrieve, hweights, hlt, hpos, hrem⟩ :=
      retrieve_root sha256 h ⟨k, mem_unchosen.mp hk⟩
    have hunchosen := unchosen_clear f chosen hweights
    obtain ⟨permutation, hretrieves, hlen, hnodup, hmem⟩ := ih hrem (by
      rw [hunchosen, Finset.card_erase_of_mem (mem_unchosen.mpr ⟨hlt, hpos⟩)]
      omega)
    rw [hunchosen] at hmem
    refine ⟨chosen :: permutation, ?_, ?_, ?_, ?_⟩
    · rw [retrieves, hretrieve]
      simp only [Option.bind_eq_bind, Option.bind_some, hretrieves]
      rfl
    · rw [List.length_cons, hlen]
    · exact List.nodup_cons.mpr ⟨fun hc => Finset.notMem_erase _ _ (hmem chosen hc), hnodup⟩
    · intro c hc
      rcases List.mem_cons.mp hc with rfl | hc
      · exact mem_unchosen.mpr ⟨hlt, hpos⟩
      · exact Finset.mem_of_mem_erase (hmem c hc)

/-- A longer loop begins as a shorter one. -/
theorem retrieves_isPrefix {size size' : ℕ} {permutation permutation' : List ℕ} (hle : size ≤ size')
    (h : retrieves sha256 size t = some permutation)
    (h' : retrieves sha256 size' t = some permutation') : permutation <+: permutation' := by
  induction size generalizing size' t permutation permutation' with
  | zero =>
    obtain rfl := Option.some.inj h
    exact List.nil_prefix
  | succ size ih =>
    obtain ⟨size', rfl⟩ : ∃ k, size' = k + 1 := ⟨size' - 1, by omega⟩
    rw [retrieves] at h h'
    obtain ⟨⟨chosen, t'⟩, hretrieve, h⟩ := Option.bind_eq_some_iff.mp h
    obtain ⟨⟨_, _⟩, hretrieve', h'⟩ := Option.bind_eq_some_iff.mp h'
    cases hretrieve.symm.trans hretrieve'
    obtain ⟨rest, hrest, h⟩ := Option.bind_eq_some_iff.mp h
    obtain ⟨rest', hrest', h'⟩ := Option.bind_eq_some_iff.mp h'
    cases h
    cases h'
    exact (List.prefix_cons_inj chosen).mpr (ih (by omega) hrest hrest')

end WeightedShuffleTree

/-! ## `WeightedPermutation` -/

/-- Weights of which a permutation can be made. -/
structure Weighable (weights : List UInt32) : Prop where
  ne_nil : weights ≠ []
  pos : ∀ w ∈ weights, 0 < w
  fits : (weights.map UInt32.toNat).sum < 2 ^ 32

theorem sum_weightAt (weights : List UInt32) :
    ∑ k ∈ Finset.range weights.length, weightAt weights k = (weights.map UInt32.toNat).sum := by
  rw [Finset.sum_range, ← Fin.sum_univ_fun_getElem]
  refine Finset.sum_congr rfl fun k _ => ?_
  exact weightAt_of_getElem? (List.getElem?_eq_getElem k.isLt)

namespace Weighable

variable {weights : List UInt32} (h : Weighable weights) (seed : Hash)

include h

theorem weightAt_pos {k : ℕ} (hk : k < weights.length) : 0 < weightAt weights k := by
  rw [weightAt_of_getElem? (List.getElem?_eq_getElem hk)]
  exact UInt32.lt_iff_toNat_lt.mp (h.pos _ (List.getElem_mem hk))

/-- The tree that is built, with nothing chosen yet. -/
theorem exists_tree : ∃ tree : WeightedShuffleTree, tree.weights = weights ∧
    tree.Remaining (weightAt weights) ∧ ∀ sha256 size, size ≤ weights.length →
      weightedPermutation sha256 size weights seed = tree.retrieves sha256 size := by
  obtain ⟨nodes, hbuild, hnodes⟩ := build_spec (weights.length + 1) 0
    (t := ⟨seed, 0, weights, List.replicate weights.length ⟨0, 0, 0⟩⟩) h.pos List.length_replicate
    (Nat.lt_succ_self _)
  refine ⟨⟨seed, 0, weights, nodes⟩, rfl, ?_, ?_⟩
  · constructor
    · exact hnodes.length.trans List.length_replicate
    · exact fun k hk => hnodes.inside k hk (.of_zero k)
    · exact fun k => .inr rfl
    · rw [(totals_subtotal _ _).root, sum_weightAt]
      exact h.fits
    · exact ⟨Nat.zero_le _, Nat.dvd_zero _⟩
  · intro sha256 size hsize
    rw [weightedPermutation, if_neg (Nat.not_lt.mpr hsize),
      if_neg fun hzero => h.ne_nil (List.length_eq_zero_iff.mp hzero), hbuild]
    rfl

/-- The permutations of all sizes are the beginnings of one of all the indexes. -/
theorem exists_permutation (sha256 : List UInt8 → Hash) :
    ∃ permutation : List ℕ, permutation.Perm (List.range weights.length) ∧
      ∀ size ≤ weights.length,
        weightedPermutation sha256 size weights seed = some (permutation.take size) := by
  obtain ⟨tree, rfl, hrem, htree⟩ := h.exists_tree seed
  have hall : tree.unchosen (weightAt tree.weights) = Finset.range tree.weights.length :=
    Finset.filter_true_of_mem fun k hk => h.weightAt_pos (Finset.mem_range.mp hk)
  have hspec : ∀ size ≤ tree.weights.length, _ := fun size hsize =>
    retrieves_spec sha256 hrem (hsize.trans (by rw [hall, Finset.card_range]))
  obtain ⟨permutation, hretrieves, hlen, hnodup, hmem⟩ := hspec _ (Nat.le_refl _)
  refine ⟨permutation, ?_, ?_⟩
  · rw [hall] at hmem
    refine (List.subperm_of_subset hnodup fun c hc => ?_).perm_of_length_le ?_
    · exact List.mem_range.mpr (Finset.mem_range.mp (hmem c hc))
    · rw [List.length_range, hlen]
  · intro size hsize
    obtain ⟨shorter, hshorter, hlen', -, -⟩ := hspec size hsize
    have hshort := retrieves_isPrefix sha256 hsize hshorter hretrieves
    rw [htree sha256 size hsize, hshorter, List.prefix_iff_eq_take.mp hshort, hlen']

end Weighable

end Zilionixx
