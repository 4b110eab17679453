import Mathlib

/-!
# Binary heaps

The algorithms of `container/heap` over an array, for the order of a key. In a heap no element is
smaller than the one at its parent, so the first is a smallest one. `push`, `pop`, `remove` and
`init` end in a heap, with the elements that they should have.

An element that may be out of order is moved `up` or `down`. While it moves, all pairs of a parent
and a child are in order but the ones with this element, and the elements below it are not smaller
than the one above it: these are `UpReady` and `DownReady`.
-/

namespace BinaryHeap

variable {α β : Type*} [LinearOrder β] (key : α → β)

/-- `up` -/
def up (h : Array α) (j : ℕ) : Array α :=
  if hj : 0 < j ∧ j < h.size then
    if key h[j] < key h[(j - 1) / 2] then up (h.swap ((j - 1) / 2) j) ((j - 1) / 2) else h
  else h
termination_by j

/-- The smaller child, the left one if both are equal. -/
def child (h : Array α) (i : ℕ) (hi : 2 * i + 1 < h.size) : ℕ :=
  if hr : 2 * i + 2 < h.size then
    if key h[2 * i + 2] < key h[2 * i + 1] then 2 * i + 2 else 2 * i + 1
  else 2 * i + 1

/-- The child that is compared is below the node. -/
theorem child_spec (h : Array α) (i : ℕ) (hi : 2 * i + 1 < h.size) :
    child key h i hi < h.size ∧ i < child key h i hi ∧ (child key h i hi - 1) / 2 = i := by
  unfold child
  split
  · split <;> omega
  · omega

/-- `down`, with the index where the element ends. -/
def down (h : Array α) (i : ℕ) : Array α × ℕ :=
  if hi : 2 * i + 1 < h.size then
    have hc := child_spec key h i hi
    if key (h[child key h i hi]) < key h[i] then
      down (h.swap i (child key h i hi)) (child key h i hi)
    else (h, i)
  else (h, i)
termination_by h.size - i
decreasing_by
  rw [Array.size_swap]
  omega

/-- `heap.Push` -/
def push (h : Array α) (x : α) : Array α :=
  up key (h.push x) h.size

/-- `heap.Pop`, without the element that it returns, which is the first. The last element is cut
off before the first one moves down, which does not look at it. -/
def pop (h : Array α) : Array α :=
  if hpos : 0 < h.size then (down key (h.swap 0 (h.size - 1)).pop 0).1 else h

/-- `heap.Remove`, without the element that it returns. -/
def remove (h : Array α) (i : ℕ) : Array α :=
  if hi : i < h.size - 1 then
    let moved := down key (h.swap i (h.size - 1)).pop i
    if i < moved.2 then moved.1 else up key moved.1 i
  else h.pop

/-- `heap.Init`: the elements with an index below `n`, from the last, move down. -/
def initFrom (h : Array α) : ℕ → Array α
  | 0 => h
  | n + 1 => initFrom (down key h n).1 n

/-- `heap.Init` -/
def init (h : Array α) : Array α :=
  initFrom key h (h.size / 2)

/-! ## The elements -/

/-- Moving up keeps the elements. -/
theorem perm_up (h : Array α) (j : ℕ) : (up key h j).Perm h := by
  fun_induction up key h j with
  | case1 h j hj hlt ih => exact ih.trans (Array.swap_perm _ _)
  | case2 => exact Array.Perm.refl _
  | case3 => exact Array.Perm.refl _

/-- So does moving down. -/
theorem perm_down (h : Array α) (i : ℕ) : (down key h i).1.Perm h := by
  fun_induction down key h i with
  | case1 h i hi hc hlt ih => exact ih.trans (Array.swap_perm _ _)
  | case2 => exact Array.Perm.refl _
  | case3 => exact Array.Perm.refl _

/-- One element is added. -/
theorem perm_push (h : Array α) (x : α) : (push key h x).toList.Perm (x :: h.toList) := by
  have hup := Array.perm_iff_toList_perm.mp (perm_up key (h.push x) h.size)
  rw [Array.toList_push] at hup
  exact hup.trans (List.perm_append_singleton x h.toList)

/-- Cutting off an element after it was exchanged with the last one. -/
theorem perm_cons_pop_swap (h : Array α) {i : ℕ} (hi : i < h.size) :
    h.toList.Perm (h[i] :: (h.swap i (h.size - 1)).pop.toList) := by
  have hswap := Array.perm_iff_toList_perm.mp
    (Array.swap_perm hi (show h.size - 1 < h.size by omega))
  have hne : (h.swap i (h.size - 1)).toList ≠ [] := by
    intro hnil
    have := congrArg List.length hnil
    rw [Array.length_toList, Array.size_swap, List.length_nil] at this
    omega
  have hlast : (h.swap i (h.size - 1)).toList.getLast hne = h[i] := by
    rw [List.getLast_eq_getElem]
    simp
  refine hswap.symm.trans ?_
  rw [Array.toList_pop, ← hlast]
  conv_lhs => rw [← List.dropLast_append_getLast hne]
  exact List.perm_append_singleton _ _

/-- The head is removed. -/
theorem perm_pop (h : Array α) (hpos : 0 < h.size) :
    h.toList.Perm (h[0] :: (pop key h).toList) := by
  rw [pop, dif_pos hpos]
  exact (perm_cons_pop_swap h hpos).trans
    (List.Perm.cons _ (Array.perm_iff_toList_perm.mp (perm_down key _ 0)).symm)

theorem size_pop_lt (h : Array α) (hpos : 0 < h.size) : (pop key h).size < h.size := by
  have hsize := (perm_pop key h hpos).length_eq
  rw [Array.length_toList, List.length_cons, Array.length_toList] at hsize
  omega

/-- One element is removed. -/
theorem perm_remove (h : Array α) {i : ℕ} (hi : i < h.size) :
    h.toList.Perm (h[i] :: (remove key h i).toList) := by
  have hdown := Array.perm_iff_toList_perm.mp (perm_down key (h.swap i (h.size - 1)).pop i)
  have hcut := perm_cons_pop_swap h hi
  rw [remove]
  split
  · dsimp only
    split
    · exact hcut.trans (List.Perm.cons _ hdown.symm)
    · refine hcut.trans (List.Perm.cons _ (List.Perm.trans hdown.symm ?_))
      exact (Array.perm_iff_toList_perm.mp (perm_up key _ i)).symm
  · obtain rfl : i = h.size - 1 := by omega
    have hself : h.swap (h.size - 1) (h.size - 1) = h := by grind
    rwa [hself] at hcut

theorem perm_initFrom (h : Array α) (n : ℕ) : (initFrom key h n).Perm h := by
  induction n generalizing h with
  | zero => exact Array.Perm.refl _
  | succ n ih => exact (ih _).trans (perm_down key h n)

/-- Heapifying keeps the elements. -/
theorem perm_init (h : Array α) : (init key h).toList.Perm h.toList :=
  Array.perm_iff_toList_perm.mp (perm_initFrom key h _)

/-! ## The order -/

/-- No element is smaller than its parent, for the parents from `lo` on. -/
def OrderedFrom (h : Array α) (lo : ℕ) : Prop :=
  ∀ i (_ : i < h.size), 0 < i → lo ≤ (i - 1) / 2 → key h[(i - 1) / 2] ≤ key h[i]

/-- A heap. -/
def IsHeap (h : Array α) : Prop :=
  OrderedFrom key h 0

/-- The element at `j` is perhaps smaller than its parent. -/
structure UpReady (h : Array α) (j : ℕ) : Prop where
  except : ∀ i (_ : i < h.size), 0 < i → i ≠ j → key h[(i - 1) / 2] ≤ key h[i]
  grand : ∀ i (_ : i < h.size) (_ : 0 < i) (_ : (i - 1) / 2 = j), 0 < j →
    key h[(j - 1) / 2] ≤ key h[i]

/-- The element at `j` is perhaps larger than its children. -/
structure DownReady (h : Array α) (lo j : ℕ) : Prop where
  except : ∀ i (_ : i < h.size), 0 < i → lo ≤ (i - 1) / 2 → (i - 1) / 2 ≠ j →
    key h[(i - 1) / 2] ≤ key h[i]
  grand : ∀ i (_ : i < h.size) (_ : 0 < i) (_ : (i - 1) / 2 = j), 0 < j → lo ≤ (j - 1) / 2 →
    key h[(j - 1) / 2] ≤ key h[i]

variable {key} {h : Array α}

/-- One round of `up` moves the place in doubt to the parent. -/
theorem UpReady.move {j : ℕ} (hr : UpReady key h j) (hj : 0 < j ∧ j < h.size)
    (hlt : key h[j] < key h[(j - 1) / 2]) :
    UpReady key (h.swap ((j - 1) / 2) j) ((j - 1) / 2) := by
  constructor
  · intro i hi hpos hne
    rw [Array.size_swap] at hi
    rw [Array.getElem_swap, Array.getElem_swap]
    have := hr.except i hi hpos
    have := hr.grand i hi hpos
    grind
  · intro i hi hpos hparent hj0
    rw [Array.size_swap] at hi
    rw [Array.getElem_swap, Array.getElem_swap]
    have := hr.except i hi hpos
    have := hr.except ((j - 1) / 2) (by omega) hj0 (by omega)
    grind

/-- If the place in doubt is in order, all is. -/
theorem UpReady.isHeap {j : ℕ} (hr : UpReady key h j)
    (hj : ∀ _ : j < h.size, 0 < j → key h[(j - 1) / 2] ≤ key h[j]) : IsHeap key h := by
  intro i hi hpos _
  by_cases hij : i = j
  · subst hij
    exact hj hi hpos
  · exact hr.except i hi hpos hij

theorem IsHeap.upReady (hh : IsHeap key h) (j : ℕ) : UpReady key h j := by
  refine ⟨fun i hi hpos _ => hh i hi hpos (Nat.zero_le _), ?_⟩
  intro i hi hpos hparent hj
  have hchild := hh i hi hpos (Nat.zero_le _)
  simp only [hparent] at hchild
  exact (hh j (by omega) hj (Nat.zero_le _)).trans hchild

/-- `up` puts the place in doubt in order. -/
theorem isHeap_up {j : ℕ} (hr : UpReady key h j) : IsHeap key (up key h j) := by
  fun_induction up key h j with
  | case1 h j hj hlt ih => exact ih (hr.move hj hlt)
  | case2 h j hj hlt => exact hr.isHeap fun _ _ => not_lt.mp hlt
  | case3 h j hj => exact hr.isHeap fun hlt hpos => absurd ⟨hpos, hlt⟩ hj

/-- The smaller child is not larger than any child. -/
theorem key_child_le (h : Array α) {j : ℕ} (hj : 2 * j + 1 < h.size)
    (hc : child key h j hj < h.size) (i : ℕ) (hi : i < h.size) (hpos : 0 < i)
    (hparent : (i - 1) / 2 = j) : key (h[child key h j hj]) ≤ key h[i] := by
  obtain rfl | rfl : i = 2 * j + 1 ∨ i = 2 * j + 2 := by omega
  · simp only [child]
    split
    · split <;> grind
    · exact le_rfl
  · simp only [child]
    grind

/-- One round of `down` moves the place in doubt to the least child. -/
theorem DownReady.move {lo j c : ℕ} (hr : DownReady key h lo j) (hj : j < h.size) (hc : c < h.size)
    (hjc : j < c) (hparent : (c - 1) / 2 = j)
    (hmin : ∀ i (_ : i < h.size), 0 < i → (i - 1) / 2 = j → key h[c] ≤ key h[i])
    (hlt : key h[c] < key h[j]) : DownReady key (h.swap j c) lo c := by
  constructor
  · intro i hi hpos hlo hne
    rw [Array.size_swap] at hi
    rw [Array.getElem_swap, Array.getElem_swap]
    have := hr.except i hi hpos
    have := hr.grand c hc
    grind
  · intro i hi hpos hparent' hj0 hlo
    rw [Array.size_swap] at hi
    rw [Array.getElem_swap, Array.getElem_swap]
    have := hr.except i hi hpos
    grind

/-- If the place in doubt is in order, all from `lo` on is. -/
theorem DownReady.orderedFrom {lo j : ℕ} (hr : DownReady key h lo j)
    (hj : ∀ i (_ : i < h.size) (_ : 0 < i) (_ : (i - 1) / 2 = j), key h[j] ≤ key h[i]) :
    OrderedFrom key h lo := by
  intro i hi hpos hlo
  by_cases hij : (i - 1) / 2 = j
  · subst hij
    exact hj i hi hpos rfl
  · exact hr.except i hi hpos hlo hij

/-- `down` puts the place in doubt in order. -/
theorem orderedFrom_down {lo j : ℕ} (hr : DownReady key h lo j) :
    OrderedFrom key (down key h j).1 lo := by
  fun_induction down key h j with
  | case1 h j hj hc hlt ih =>
    exact ih (hr.move (by omega) hc.1 hc.2.1 hc.2.2 (key_child_le h hj hc.1) hlt)
  | case2 h j hj hc hlt =>
    refine hr.orderedFrom ?_
    intro i hi hpos hparent
    exact (not_lt.mp hlt).trans (key_child_le h hj hc.1 i hi hpos hparent)
  | case3 h j hj =>
    refine hr.orderedFrom ?_
    intro i hi hpos hparent
    omega

/-- An element that is not larger than its children does not move. -/
theorem down_eq_self {j : ℕ} (hj : j < h.size)
    (hle : ∀ i (_ : i < h.size) (_ : 0 < i) (_ : (i - 1) / 2 = j), key h[j] ≤ key h[i]) :
    down key h j = (h, j) := by
  rw [down]
  split
  · rename_i hchild
    have hc := child_spec key h j hchild
    rw [if_neg (not_lt.mpr (hle _ hc.1 (by omega) hc.2.2))]
  · rfl

/-! ## The operations -/

theorem isHeap_empty : IsHeap key #[] := by
  intro i hi
  exact absurd hi (Nat.not_lt_zero i)

/-- `Push` keeps the order. -/
theorem isHeap_push (hh : IsHeap key h) (x : α) : IsHeap key (push key h x) := by
  refine isHeap_up ⟨?_, ?_⟩
  · intro i hi hpos hne
    have := hh i
    grind
  · intro i hi
    rw [Array.size_push] at hi
    omega

/-- The first element of a heap is a smallest one. -/
theorem key_head_le (hh : IsHeap key h) (i : ℕ) (hi : i < h.size) :
    key h[0] ≤ key h[i] := by
  induction i using Nat.strongRecOn with
  | ind i ih =>
    by_cases hpos : 0 < i
    · exact (ih ((i - 1) / 2) (by omega) (by omega)).trans (hh i hi hpos (Nat.zero_le _))
    · obtain rfl : i = 0 := by omega
      exact le_rfl

/-- The head is least. -/
theorem key_head_le_of_mem (hh : IsHeap key h) (hpos : 0 < h.size) {x : α} (hx : x ∈ h) :
    key h[0] ≤ key x := by
  obtain ⟨i, hi, rfl⟩ := Array.getElem_of_mem hx
  exact key_head_le hh i hi

/-- `Pop` keeps the order. -/
theorem isHeap_pop (hh : IsHeap key h) : IsHeap key (pop key h) := by
  rw [pop]
  split
  · refine orderedFrom_down ⟨?_, ?_⟩
    · intro i hi hpos _ hne
      have := hh i
      grind
    · intro i _ _ _ hpos
      exact absurd hpos (Nat.lt_irrefl 0)
  · exact hh

/-- `Remove` keeps the order, wherever the last element goes. -/
theorem isHeap_remove (hh : IsHeap key h) (i : ℕ) : IsHeap key (remove key h i) := by
  rw [remove]
  split
  · rename_i hi
    generalize hg : (h.swap i (h.size - 1)).pop = g
    have hsize : g.size = h.size - 1 := by rw [← hg, Array.size_pop, Array.size_swap]
    -- all pairs without the element at `i` are in order, and its neighbours are
    have hexcept : ∀ k (_ : k < g.size), 0 < k → k ≠ i → (k - 1) / 2 ≠ i →
        key g[(k - 1) / 2] ≤ key g[k] := by
      intro k hk hpos hne hne'
      have := hh k
      grind
    have hgrand : ∀ k (_ : k < g.size) (_ : 0 < k) (_ : (k - 1) / 2 = i), 0 < i →
        key g[(i - 1) / 2] ≤ key g[k] := by
      intro k hk hpos hparent hi0
      have hk' := hh k (by omega) hpos (Nat.zero_le _)
      have hi' := hh i (by omega) hi0 (Nat.zero_le _)
      have := hi'.trans (by simpa only [hparent] using hk')
      grind
    have hig : i < g.size := by omega
    by_cases hup : 0 < i ∧ key g[i] < key g[(i - 1) / 2]
    · -- it is smaller than its parent, so than its children, and does not move down
      have hstay : down key g i = (g, i) := by
        refine down_eq_self hig ?_
        intro k hk hpos hparent
        exact hup.2.le.trans (hgrand k hk hpos hparent hup.1)
      rw [hstay]
      dsimp only
      rw [if_neg (Nat.lt_irrefl i)]
      refine isHeap_up ⟨?_, hgrand⟩
      intro k hk hpos hne
      by_cases hparent : (k - 1) / 2 = i
      · subst hparent
        exact hup.2.le.trans (hgrand k hk hpos rfl hup.1)
      · exact hexcept k hk hpos hne hparent
    · have hready : DownReady key g 0 i := by
        refine ⟨?_, fun k hk hpos hparent hi0 _ => hgrand k hk hpos hparent hi0⟩
        intro k hk hpos _ hne
        by_cases hki : k = i
        · subst hki
          exact not_lt.mp fun hlt => hup ⟨hpos, hlt⟩
        · exact hexcept k hk hpos hki hne
      have hheap : IsHeap key (down key g i).1 := orderedFrom_down hready
      dsimp only
      split
      · exact hheap
      · exact isHeap_up (hheap.upReady i)
  · intro k hk hpos _
    rw [Array.size_pop] at hk
    rw [Array.getElem_pop, Array.getElem_pop]
    exact hh k (by omega) hpos (Nat.zero_le _)

/-- Each round of `Init` orders one more subtree. -/
theorem orderedFrom_initFrom {n : ℕ} (hh : OrderedFrom key h n) :
    IsHeap key (initFrom key h n) := by
  induction n generalizing h with
  | zero => exact hh
  | succ n ih =>
    refine ih (orderedFrom_down ⟨?_, ?_⟩)
    · intro i hi hpos hlo hne
      exact hh i hi hpos (by omega)
    · intro i hi hpos hparent hn hlo
      omega

/-- `Init` makes a heap of any array. -/
theorem isHeap_init (h : Array α) : IsHeap key (init key h) := by
  refine orderedFrom_initFrom ?_
  intro i hi hpos hlo
  omega

end BinaryHeap
