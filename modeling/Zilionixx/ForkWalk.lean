import Mathlib

/-!
# The fork of two branches

Blocks with parents, of which each is one lower. From two blocks one goes down to the same height
and then with equal steps, until the two have the same key. What is passed on both sides is all
above the fork.
-/

namespace ForkWalk

section

variable {β κ : Type} [DecidableEq κ] (parent : β → Option β) (height : β → ℕ) (key : β → κ)

/-- From a block down to another one, with the blocks that are passed. -/
inductive Branch : β → List β → β → Prop
  | here (b : β) : Branch b [] b
  | step {b p c : β} {bs : List β} (hparent : parent b = some p) (hrest : Branch p bs c) :
    Branch b (b :: bs) c

/-- Down to a height; the first argument bounds the steps. -/
def descend (floor : ℕ) : ℕ → β → Option (List β × β)
  | 0, _ => none
  | fuel + 1, b =>
    if floor < height b then
      (parent b).bind fun p => (descend floor fuel p).map fun walk => (b :: walk.1, walk.2)
    else some ([], b)

/-- Down from two blocks to the same key; the first argument bounds the steps. -/
def meet : ℕ → β → β → Option (List β × List β)
  | 0, _, _ => none
  | fuel + 1, r, a =>
    if key r = key a then some ([], [])
    else
      (parent r).bind fun r' => (parent a).bind fun a' =>
        (meet fuel r' a').map fun walk => (r :: walk.1, a :: walk.2)

/-- The blocks above the fork of two blocks. -/
def fork (r a : β) : Option (List β × List β) :=
  (descend parent height (height a) (height r + 1) r).bind fun old =>
    (descend parent height (height old.2) (height a + 1) a).bind fun new =>
      (meet parent key (height old.2 + 1) old.2 new.2).map fun walk =>
        (old.1 ++ walk.1, new.1 ++ walk.2)

end

section

variable {β κ : Type} [DecidableEq κ] {parent : β → Option β} {height : β → ℕ} {key : β → κ}
  {a b c r : β} {bs bs' : List β}

theorem Branch.append (h : Branch parent b bs c) (h' : Branch parent c bs' a) :
    Branch parent b (bs ++ bs') a := by
  induction h with
  | here => exact h'
  | step hparent _ ih => exact .step hparent (ih h')

theorem branch_nil : Branch parent b [] c ↔ b = c := by
  constructor
  · rintro ⟨⟩
    rfl
  · rintro rfl
    exact .here _

variable (hheight : ∀ b p, parent b = some p → height p + 1 = height b)

include hheight

/-- Each parent is one lower. -/
theorem Branch.length (h : Branch parent b bs c) : height c + bs.length = height b := by
  induction h with
  | here => rfl
  | step hparent _ ih =>
    rw [List.length_cons, ← hheight _ _ hparent, ← ih]
    omega

/-- The blocks that are passed are above the last one, and not above the first. -/
theorem Branch.bounds (h : Branch parent b bs c) (ha : a ∈ bs) :
    height c < height a ∧ height a ≤ height b := by
  induction h with
  | here => exact absurd ha List.not_mem_nil
  | step hparent hrest ih =>
    have hle := hheight _ _ hparent
    have hlength := hrest.length hheight
    rcases List.mem_cons.mp ha with rfl | ha
    · exact ⟨by omega, Nat.le_refl _⟩
    · have := ih ha
      exact ⟨this.1, by omega⟩

/-- There is a block at each height in between. -/
theorem Branch.split (h : Branch parent b bs c) {n : ℕ} (hlow : height c ≤ n)
    (hhigh : n ≤ height b) :
    ∃ bs₁ bs₂ m, bs = bs₁ ++ bs₂ ∧ Branch parent b bs₁ m ∧ Branch parent m bs₂ c ∧
      height m = n := by
  induction h with
  | here b => exact ⟨[], [], b, rfl, .here b, .here b, Nat.le_antisymm hlow hhigh⟩
  | @step b p c bs hparent hrest ih =>
    by_cases hn : height b = n
    · exact ⟨[], b :: bs, b, rfl, .here b, .step hparent hrest, hn⟩
    · have hp := hheight _ _ hparent
      obtain ⟨bs₁, bs₂, m, rfl, hbranch₁, hbranch₂, hm⟩ := ih hlow (by omega)
      exact ⟨b :: bs₁, bs₂, m, rfl, .step hparent hbranch₁, hbranch₂, hm⟩

/-- The branch down to a height. -/
theorem descend_eq_some {floor fuel : ℕ} (hfuel : height b < fuel) :
    descend parent height floor fuel b = some (bs, c) ↔
      Branch parent b bs c ∧ height c = min floor (height b) := by
  induction fuel generalizing b bs with
  | zero => exact absurd hfuel (Nat.not_lt_zero _)
  | succ fuel ih =>
    rw [descend]
    split
    · rename_i hlt
      rw [Nat.min_eq_left (Nat.le_of_lt hlt)]
      constructor
      · intro h
        obtain ⟨p, hparent, h⟩ := Option.bind_eq_some_iff.mp h
        obtain ⟨⟨bs', c'⟩, hwalk, heq⟩ := Option.map_eq_some_iff.mp h
        obtain ⟨rfl, rfl⟩ := Prod.mk.inj heq
        have hp := hheight _ _ hparent
        obtain ⟨hbranch, hc⟩ := (ih (by omega)).mp hwalk
        exact ⟨.step hparent hbranch, by omega⟩
      · rintro ⟨hbranch, hc⟩
        cases hbranch with
        | here => omega
        | @step _ p _ bs hparent hrest =>
          have hp := hheight _ _ hparent
          rw [hparent, Option.bind_some, (ih (by omega)).mpr ⟨hrest, by omega⟩]
          rfl
    · rename_i hle
      rw [Nat.min_eq_right (Nat.not_lt.mp hle), Option.some_inj, Prod.mk.injEq]
      constructor
      · rintro ⟨rfl, rfl⟩
        exact ⟨.here _, rfl⟩
      · rintro ⟨hbranch, hc⟩
        have hlength := hbranch.length hheight
        obtain rfl : bs = [] := List.eq_nil_of_length_eq_zero (by omega)
        exact ⟨rfl, branch_nil.mp hbranch⟩

/-- The branches down to a common block. -/
theorem meet_eq_some {fuel : ℕ} (hfuel : height r < fuel) (heq : height r = height a) :
    meet parent key fuel r a = some (bs, bs') ↔
      ∃ c c', Branch parent r bs c ∧ Branch parent a bs' c' ∧ height c = height c' ∧
        key c = key c' ∧ ∀ b ∈ bs, ∀ b' ∈ bs', height b = height b' → key b ≠ key b' := by
  induction fuel generalizing r a bs bs' with
  | zero => exact absurd hfuel (Nat.not_lt_zero _)
  | succ fuel ih =>
    rw [meet]
    split
    · rename_i hkey
      rw [Option.some_inj, Prod.mk.injEq]
      constructor
      · rintro ⟨rfl, rfl⟩
        exact ⟨r, a, .here r, .here a, heq, hkey, List.forall_mem_nil _⟩
      · rintro ⟨c, c', hbranch, hbranch', hc, -, hne⟩
        cases hbranch with
        | here =>
          have hlength := hbranch'.length hheight
          exact ⟨rfl, (List.eq_nil_of_length_eq_zero (by omega)).symm⟩
        | step hparent hrest =>
          have hlength := (Branch.step hparent hrest).length hheight
          cases hbranch' with
          | here =>
            rw [List.length_cons] at hlength
            omega
          | step hparent' hrest' =>
            exact absurd hkey (hne _ List.mem_cons_self _ List.mem_cons_self heq)
    · rename_i hkey
      constructor
      · intro h
        obtain ⟨r', hr', h⟩ := Option.bind_eq_some_iff.mp h
        obtain ⟨a', ha', h⟩ := Option.bind_eq_some_iff.mp h
        obtain ⟨⟨bs₁, bs₂⟩, hwalk, hpair⟩ := Option.map_eq_some_iff.mp h
        obtain ⟨rfl, rfl⟩ := Prod.mk.inj hpair
        have hr := hheight _ _ hr'
        have ha := hheight _ _ ha'
        obtain ⟨c, c', hbranch, hbranch', hc, hcc, hne⟩ :=
          (ih (by omega) (by omega)).mp hwalk
        refine ⟨c, c', .step hr' hbranch, .step ha' hbranch', hc, hcc, ?_⟩
        -- one below is lower than the other side's first
        intro b hb b' hb' hbb
        rcases List.mem_cons.mp hb with rfl | hb <;> rcases List.mem_cons.mp hb' with rfl | hb'
        · exact hkey
        · have := (hbranch'.bounds hheight hb').2
          omega
        · have := (hbranch.bounds hheight hb).2
          omega
        · exact hne b hb b' hb' hbb
      · rintro ⟨c, c', hbranch, hbranch', hc, hcc, hne⟩
        have hlength := hbranch.length hheight
        have hlength' := hbranch'.length hheight
        cases hbranch with
        | here =>
          obtain rfl : bs' = [] :=
            List.eq_nil_of_length_eq_zero (by rw [List.length_nil] at *; omega)
          obtain rfl := branch_nil.mp hbranch'
          exact absurd hcc hkey
        | @step _ r' _ bs hr' hrest =>
          cases hbranch' with
          | here =>
            rw [List.length_cons, List.length_nil] at *
            omega
          | @step _ a' _ bs' ha' hrest' =>
            have hr := hheight _ _ hr'
            have ha := hheight _ _ ha'
            have hwalk := (ih (by omega) (by omega)).mpr ⟨c, c', hrest, hrest', hc, hcc,
              fun b hb b' hb' => hne b (List.mem_cons_of_mem _ hb) b' (List.mem_cons_of_mem _ hb')⟩
            rw [hr', Option.bind_some, ha', Option.bind_some, hwalk]
            rfl

/-- **The walk finds the fork.** It gives the blocks on both sides down to the highest ones with the
same key at the same height, and it fails only if there are none. -/
theorem fork_eq_some : fork parent height key r a = some (bs, bs') ↔
    ∃ c c', Branch parent r bs c ∧ Branch parent a bs' c' ∧ height c = height c' ∧
      key c = key c' ∧ ∀ b ∈ bs, ∀ b' ∈ bs', height b = height b' → key b ≠ key b' := by
  rw [fork]
  constructor
  · intro h
    obtain ⟨⟨old, r'⟩, hold, h⟩ := Option.bind_eq_some_iff.mp h
    obtain ⟨⟨new, a'⟩, hnew, h⟩ := Option.bind_eq_some_iff.mp h
    obtain ⟨⟨bs₁, bs₂⟩, hmeet, hpair⟩ := Option.map_eq_some_iff.mp h
    obtain ⟨rfl, rfl⟩ := Prod.mk.inj hpair
    obtain ⟨hold, hr'⟩ := (descend_eq_some hheight (Nat.lt_succ_self _)).mp hold
    obtain ⟨hnew, ha'⟩ := (descend_eq_some hheight (Nat.lt_succ_self _)).mp hnew
    dsimp only at hr' ha' hmeet
    obtain ⟨c, c', hbranch, hbranch', hc, hkey, hne⟩ :=
      (meet_eq_some hheight (Nat.lt_succ_self _) (by omega)).mp hmeet
    refine ⟨c, c', hold.append hbranch, hnew.append hbranch', hc, hkey, ?_⟩
    intro b hb b' hb' hbb
    rcases List.mem_append.mp hb with hb | hb <;> rcases List.mem_append.mp hb' with hb' | hb'
    · have hbounds := hold.bounds hheight hb
      have hbounds' := hnew.bounds hheight hb'
      omega
    · have hbounds := hold.bounds hheight hb
      have hbounds' := hbranch'.bounds hheight hb'
      omega
    · have hbounds := hbranch.bounds hheight hb
      have hbounds' := hnew.bounds hheight hb'
      omega
    · exact hne b hb b' hb' hbb
  · rintro ⟨c, c', hbranch, hbranch', hc, hkey, hne⟩
    have hlength := hbranch.length hheight
    have hlength' := hbranch'.length hheight
    obtain ⟨old, bs₁, r', rfl, hold, hrest, hr'⟩ :=
      hbranch.split hheight (n := min (height a) (height r)) (by omega) (by omega)
    obtain ⟨new, bs₂, a', rfl, hnew, hrest', ha'⟩ :=
      hbranch'.split hheight (n := height r') (by omega) (by omega)
    rw [(descend_eq_some hheight (Nat.lt_succ_self _)).mpr ⟨hold, hr'⟩, Option.bind_some,
      (descend_eq_some hheight (Nat.lt_succ_self _)).mpr ⟨hnew, by dsimp only; omega⟩,
      Option.bind_some, (meet_eq_some hheight (Nat.lt_succ_self _) ha'.symm).mpr
        ⟨c, c', hrest, hrest', hc, hkey, fun b hb b' hb' =>
          hne b (List.mem_append_right _ hb) b' (List.mem_append_right _ hb')⟩]
    rfl

end

end ForkWalk
