import Zilionixx.BitList

/-!
# Two-stream codecs

A binary format that keeps its small fields in a **bit stream** and everything
else in a **byte stream** beside it. Three layers:

* `Decoder` / `Encoder` — the **programs**: free monads over the few things a
  reader or a writer of such a format can do with its two cursors. A program
  says nothing about how a cursor is represented.
* `parse` / `emit` — the **meaning** of a program on the two streams as plain
  lists: what a decoder takes off the front, what an encoder appends.
* `Reads` / `Inverts` — what it means that a decoder and an encoder belong
  together. `Reads m d a`: whatever `m` writes, `d` reads back as `a` and stops
  exactly there. `Inverts d w E`: whatever `d` accepts as an `a` in `E` is what
  `w a` writes. A `Lawful` codec has both; lawful codecs compose field by field
  (`Lawful.bind`) and along loops (`Lawful.list`).

A decoder may mark a condition it does **not** check with `omitted`. The mark
does nothing in the decoder's own reading; `parse made` is the reading in which
the marked checks selected by `made` are made as well. So one program has a
lax and a strict reading, and the difference between the two is exactly the
set of missing checks.
-/

namespace Codec

/-- The two streams of an encoding: bits and bytes. -/
structure Streams where
  /-- the bit stream -/
  bits : List Bool
  /-- the byte stream -/
  bytes : List UInt8
  deriving DecidableEq

namespace Streams

instance : Append Streams := ⟨fun s t => ⟨s.bits ++ t.bits, s.bytes ++ t.bytes⟩⟩

instance : EmptyCollection Streams := ⟨⟨[], []⟩⟩

@[simp] theorem bits_append (s t : Streams) : (s ++ t).bits = s.bits ++ t.bits := rfl

@[simp] theorem bytes_append (s t : Streams) : (s ++ t).bytes = s.bytes ++ t.bytes := rfl

theorem ext' {s t : Streams} (hbits : s.bits = t.bits) (hbytes : s.bytes = t.bytes) : s = t := by
  cases s; cases t
  subst hbits; subst hbytes
  rfl

@[simp] theorem empty_append (s : Streams) : ∅ ++ s = s := rfl

@[simp] theorem append_empty (s : Streams) : s ++ ∅ = s :=
  ext' (List.append_nil _) (List.append_nil _)

theorem append_assoc (s t u : Streams) : s ++ t ++ u = s ++ (t ++ u) :=
  ext' (List.append_assoc ..) (List.append_assoc ..)

/-- Neither stream is longer. -/
structure NoLonger (s t : Streams) : Prop where
  bits : s.bits.length ≤ t.bits.length
  bytes : s.bytes.length ≤ t.bytes.length

theorem NoLonger.refl (s : Streams) : s.NoLonger s := ⟨Nat.le_refl _, Nat.le_refl _⟩

theorem NoLonger.trans {s t u : Streams} (h : s.NoLonger t) (h' : t.NoLonger u) : s.NoLonger u :=
  ⟨Nat.le_trans h.bits h'.bits, Nat.le_trans h.bytes h'.bytes⟩

/-- Both streams count on their own. -/
theorem NoLonger.append_right {s t : Streams} (h : s.NoLonger t) (u : Streams) :
    (s ++ u).NoLonger (t ++ u) := by
  constructor
  · simp only [bits_append, List.length_append]
    exact Nat.add_le_add_right h.bits _
  · simp only [bytes_append, List.length_append]
    exact Nat.add_le_add_right h.bytes _

theorem NoLonger.append_left {s t : Streams} (h : s.NoLonger t) (u : Streams) :
    (u ++ s).NoLonger (u ++ t) := by
  constructor
  · simp only [bits_append, List.length_append]
    exact Nat.add_le_add_left h.bits _
  · simp only [bytes_append, List.length_append]
    exact Nat.add_le_add_left h.bytes _

theorem NoLonger.of_append (s t : Streams) : t.NoLonger (s ++ t) := by
  constructor
  · simp only [bits_append, List.length_append]
    exact Nat.le_add_left _ _
  · simp only [bytes_append, List.length_append]
    exact Nat.le_add_left _ _

/-- Two parts, one after the other. -/
theorem NoLonger.append {o o' s s₁ s' : Streams} (h : (o ++ s₁).NoLonger s)
    (h' : (o' ++ s').NoLonger s₁) : (o ++ o' ++ s').NoLonger s := by
  rw [append_assoc]
  exact (h'.append_left o).trans h

end Streams

/-! ## Decoders -/

/-- Decoder programs, with returned errors in `ε`, marks in `κ` and a result
in `α`.

* `panic` — give up without an error value (an index out of range, an explicit
  panic).
* `fail e` — return the error `e`.
* `readBits n k`, `viewBits n k` — take, or only look at, the next `n` bits as a
  number; a machine word keeps its low 64 bits.
* `readByte k`, `readBytes n k` — take the next byte, or the next `n` bytes.
* `omitted c holds k` — a check `c` the program does not make; `holds` says
  whether it would have passed. -/
inductive Decoder (ε κ α : Type) : Type where
  /-- return a value -/
  | ret : α → Decoder ε κ α
  /-- give up without an error value -/
  | panic : Decoder ε κ α
  /-- return an error -/
  | fail : ε → Decoder ε κ α
  /-- take the next bits -/
  | readBits : ℕ → (ℕ → Decoder ε κ α) → Decoder ε κ α
  /-- look at the next bits -/
  | viewBits : ℕ → (ℕ → Decoder ε κ α) → Decoder ε κ α
  /-- take the next byte -/
  | readByte : (UInt8 → Decoder ε κ α) → Decoder ε κ α
  /-- take the next bytes -/
  | readBytes : ℕ → (List UInt8 → Decoder ε κ α) → Decoder ε κ α
  /-- a check that is not made -/
  | omitted : κ → Bool → Decoder ε κ α → Decoder ε κ α

namespace Decoder

variable {ε κ α β γ : Type}

/-- Graft a continuation onto every `ret` leaf. -/
protected def bind : Decoder ε κ α → (α → Decoder ε κ β) → Decoder ε κ β
  | ret a, g => g a
  | panic, _ => panic
  | fail e, _ => fail e
  | readBits n k, g => readBits n fun v => (k v).bind g
  | viewBits n k, g => viewBits n fun v => (k v).bind g
  | readByte k, g => readByte fun b => (k b).bind g
  | readBytes n k, g => readBytes n fun bs => (k bs).bind g
  | omitted c holds k, g => omitted c holds (k.bind g)

instance : Monad (Decoder ε κ) where
  pure := ret
  bind := Decoder.bind

theorem bind_eq (d : Decoder ε κ α) (g : α → Decoder ε κ β) : d >>= g = d.bind g := rfl

/-- The next `n` bits, as a number. -/
def bits (n : ℕ) : Decoder ε κ ℕ := readBits n ret

/-- The next `n` bits, as a number, without taking them. -/
def view (n : ℕ) : Decoder ε κ ℕ := viewBits n ret

/-- The next byte. -/
def byte : Decoder ε κ UInt8 := readByte ret

/-- The next `n` bytes. -/
def bytes (n : ℕ) : Decoder ε κ (List UInt8) := readBytes n ret

/-- Mark that the check `c`, which would pass when `holds`, is not made. -/
def unchecked (c : κ) (holds : Bool) : Decoder ε κ Unit := omitted c holds (ret ())

/-- A decoder followed by a check that is not made. -/
def marked (d : Decoder ε κ α) (c : κ) (holds : α → Bool) : Decoder ε κ α := do
  let a ← d
  unchecked c (holds a)
  pure a

/-- Run a decoder `n` times and collect the results in order. -/
def times (d : Decoder ε κ α) : ℕ → Decoder ε κ (List α)
  | 0 => pure []
  | n + 1 => do
    let a ← d
    let as ← times d n
    pure (a :: as)

/-! ### Meaning -/

/-- What a decoder does on the two streams: the result and what is left of
them, or `none` when it panics, returns an error or runs out of input. The
marked checks in `made` are made. -/
def parse (made : κ → Bool) : Decoder ε κ α → Streams → Option (α × Streams)
  | ret a, s => some (a, s)
  | panic, _ => none
  | fail _, _ => none
  | readBits n k, s =>
    if n ≤ s.bits.length then
      parse made (k (BitList.toNat (s.bits.take n) % 2 ^ 64)) { s with bits := s.bits.drop n }
    else none
  | viewBits n k, s =>
    if n ≤ s.bits.length then parse made (k (BitList.toNat (s.bits.take n) % 2 ^ 64)) s else none
  | readByte k, s =>
    match s.bytes with
    | [] => none
    | b :: bs => parse made (k b) { s with bytes := bs }
  | readBytes n k, s =>
    if n ≤ s.bytes.length then
      parse made (k (s.bytes.take n)) { s with bytes := s.bytes.drop n }
    else none
  | omitted c holds k, s => if made c && !holds then none else parse made k s

/-- No marked check is made: the decoder's own reading. -/
def lax : κ → Bool := fun _ => false

/-- Every marked check is made. -/
def strict : κ → Bool := fun _ => true

variable {made made' : κ → Bool} {d : Decoder ε κ α} {s s' : Streams} {g : α → Decoder ε κ β}
  {S : κ → Prop}

@[simp] theorem parse_ret (a : α) (s : Streams) :
    parse made (ret a : Decoder ε κ α) s = some (a, s) := rfl

@[simp] theorem parse_pure (a : α) (s : Streams) :
    parse made (pure a : Decoder ε κ α) s = some (a, s) := rfl

/-- What is returned is returned as it is, and nothing is read. -/
theorem parse_pure_eq_some {a b : α} (h : parse made (pure a : Decoder ε κ α) s = some (b, s')) :
    a = b ∧ s = s' :=
  Prod.mk.inj (Option.some.inj h)

theorem parse_bits (n : ℕ) (s : Streams) :
    parse made (bits n : Decoder ε κ ℕ) s =
      if n ≤ s.bits.length then
        some (BitList.toNat (s.bits.take n) % 2 ^ 64, { s with bits := s.bits.drop n })
      else none := rfl

theorem parse_view (n : ℕ) (s : Streams) :
    parse made (view n : Decoder ε κ ℕ) s =
      if n ≤ s.bits.length then some (BitList.toNat (s.bits.take n) % 2 ^ 64, s) else none := rfl

theorem parse_byte_cons (b : UInt8) (bs : List UInt8) (bits : List Bool) :
    parse made (byte : Decoder ε κ UInt8) ⟨bits, b :: bs⟩ = some (b, ⟨bits, bs⟩) := rfl

/-- A byte is the first one. -/
theorem parse_byte_eq_some {b : UInt8} (h : parse made (byte : Decoder ε κ UInt8) s = some (b, s'))
    :
    s = ⟨[], [b]⟩ ++ s' := by
  obtain ⟨bits, _ | ⟨b', bs⟩⟩ := s
  · cases h
  · rw [parse_byte_cons, Option.some.injEq, Prod.mk.injEq] at h
    obtain ⟨rfl, rfl⟩ := h
    rfl

theorem parse_bytes (n : ℕ) (s : Streams) :
    parse made (bytes n : Decoder ε κ (List UInt8)) s =
      if n ≤ s.bytes.length then
        some (s.bytes.take n, { s with bytes := s.bytes.drop n })
      else none := rfl

/-- Bits that were read stood at the front. -/
theorem parse_bits_eq_some {n v : ℕ} (hn : n ≤ 64)
    (h : parse made (bits n : Decoder ε κ ℕ) s = some (v, s')) :
    v < 2 ^ n ∧ s = ⟨BitList.ofNat n v, []⟩ ++ s' := by
  rw [parse_bits] at h
  split at h
  case isFalse => cases h
  rename_i hle
  rw [Option.some.injEq, Prod.mk.injEq] at h
  obtain ⟨rfl, rfl⟩ := h
  have hlen : (s.bits.take n).length = n := List.length_take_of_le hle
  have hlt := BitList.toNat_lt (s.bits.take n)
  rw [hlen] at hlt
  have hword : 2 ^ n ≤ 2 ^ 64 := Nat.pow_le_pow_right (by decide) hn
  rw [Nat.mod_eq_of_lt (Nat.lt_of_lt_of_le hlt hword)]
  refine ⟨hlt, Streams.ext' ?_ rfl⟩
  have hspell := BitList.ofNat_toNat (s.bits.take n)
  rw [hlen] at hspell
  rw [Streams.bits_append, hspell, List.take_append_drop]

/-- Bits are read as they were put in front. -/
theorem parse_bits_append {n v : ℕ} (hn : n ≤ 64) (hv : v < 2 ^ n) (s : Streams) :
    parse made (bits n : Decoder ε κ ℕ) (⟨BitList.ofNat n v, []⟩ ++ s) = some (v, s) := by
  have hword : 2 ^ n ≤ 2 ^ 64 := Nat.pow_le_pow_right (by decide) hn
  rw [parse_bits, if_pos (by simp), Streams.bits_append,
    List.take_left' (BitList.length_ofNat n v), List.drop_left' (BitList.length_ofNat n v),
    BitList.toNat_ofNat_of_lt hv, Nat.mod_eq_of_lt (Nat.lt_of_lt_of_le hv hword)]
  rfl

/-- A number at the front is seen, and stays. -/
theorem parse_view_append {n v : ℕ} (hn : n ≤ 64) (hv : v < 2 ^ n) (s : Streams) :
    parse made (view n : Decoder ε κ ℕ) (⟨BitList.ofNat n v, []⟩ ++ s) =
      some (v, ⟨BitList.ofNat n v, []⟩ ++ s) := by
  have hword : 2 ^ n ≤ 2 ^ 64 := Nat.pow_le_pow_right (by decide) hn
  rw [parse_view, if_pos (by simp), Streams.bits_append,
    List.take_left' (BitList.length_ofNat n v), BitList.toNat_ofNat_of_lt hv,
    Nat.mod_eq_of_lt (Nat.lt_of_lt_of_le hv hword)]

/-- Bytes that were read stood at the front. -/
theorem parse_bytes_eq_some {n : ℕ} {bs : List UInt8}
    (h : parse made (bytes n : Decoder ε κ (List UInt8)) s = some (bs, s')) :
    bs.length = n ∧ s = ⟨[], bs⟩ ++ s' := by
  rw [parse_bytes] at h
  split at h
  case isFalse => cases h
  rename_i hle
  rw [Option.some.injEq, Prod.mk.injEq] at h
  obtain ⟨rfl, rfl⟩ := h
  refine ⟨List.length_take_of_le hle, Streams.ext' rfl ?_⟩
  rw [Streams.bytes_append, List.take_append_drop]

theorem parse_bytes_append (bs : List UInt8) (s : Streams) :
    parse made (bytes bs.length : Decoder ε κ (List UInt8)) (⟨[], bs⟩ ++ s) = some (bs, s) := by
  rw [parse_bytes, if_pos (by simp), Streams.bytes_append, List.take_left, List.drop_left]
  rfl

/-- A marked check is made just if it is selected. -/
theorem parse_unchecked_eq_some {c : κ} {holds : Bool}
    (h : parse made (unchecked c holds : Decoder ε κ Unit) s = some ((), s')) :
    s = s' ∧ (made c = true → holds = true) := by
  rw [unchecked, parse] at h
  split at h
  · cases h
  · rename_i hc
    rw [parse_ret, Option.some.injEq, Prod.mk.injEq] at h
    refine ⟨h.2, fun hmade => ?_⟩
    rw [hmade, Bool.true_and, Bool.not_eq_true, Bool.not_eq_false'] at hc
    exact hc

theorem parse_unchecked_of {c : κ} {holds : Bool} (hholds : holds = true) (s : Streams) :
    parse made (unchecked c holds : Decoder ε κ Unit) s = some ((), s) := by
  rw [hholds, unchecked, parse, Bool.not_true, Bool.and_false]
  rfl

/-- Reading composes: the second decoder starts where the first stopped. -/
theorem parse_bind (d : Decoder ε κ α) (g : α → Decoder ε κ β) (s : Streams) :
    parse made (d >>= g) s = (parse made d s).bind fun p => parse made (g p.1) p.2 := by
  rw [bind_eq]
  induction d generalizing s with
  | ret a => rfl
  | panic => rfl
  | fail e => rfl
  | readBits n k ih =>
    simp only [Decoder.bind, parse]
    split
    · exact ih _ _
    · rfl
  | viewBits n k ih =>
    simp only [Decoder.bind, parse]
    split
    · exact ih _ _
    · rfl
  | readByte k ih =>
    simp only [Decoder.bind, parse]
    split
    · rfl
    · exact ih _ _
  | readBytes n k ih =>
    simp only [Decoder.bind, parse]
    split
    · exact ih _ _
    · rfl
  | omitted c holds k ih =>
    simp only [Decoder.bind, parse]
    split
    · rfl
    · exact ih _

/-- Introduction for `bind`. -/
theorem parse_bind_some {s s₁ s₂ : Streams} {a : α} {b : β} (hd : parse made d s = some (a, s₁))
    (hg : parse made (g a) s₁ = some (b, s₂)) : parse made (d >>= g) s = some (b, s₂) := by
  rw [parse_bind, hd]
  exact hg

/-- Inversion for `bind`. -/
theorem parse_bind_eq_some {s s₂ : Streams} {b : β} (h : parse made (d >>= g) s = some (b, s₂)) :
    ∃ a s₁, parse made d s = some (a, s₁) ∧ parse made (g a) s₁ = some (b, s₂) := by
  rw [parse_bind] at h
  rcases hd : parse made d s with _ | ⟨a, s₁⟩
  · rw [hd] at h; cases h
  · rw [hd] at h
    exact ⟨a, s₁, rfl, h⟩

/-- Reading a marked decoder: the reading itself, and the check if it is made. -/
theorem parse_marked {c : κ} {holds : α → Bool} {a : α} :
    parse made (marked d c holds) s = some (a, s') ↔
      parse made d s = some (a, s') ∧ (made c = true → holds a = true) := by
  constructor
  · intro h
    obtain ⟨a', s₁, hd, h⟩ := parse_bind_eq_some h
    obtain ⟨⟨⟩, s₂, hcheck, h⟩ := parse_bind_eq_some h
    obtain ⟨rfl, rfl⟩ := parse_pure_eq_some h
    obtain ⟨rfl, hholds⟩ := parse_unchecked_eq_some hcheck
    exact ⟨hd, hholds⟩
  · rintro ⟨hd, hholds⟩
    refine parse_bind_some hd ?_
    by_cases hmade : made c = true
    · exact parse_bind_some (parse_unchecked_of (hholds hmade) s') rfl
    · rw [Bool.not_eq_true] at hmade
      refine parse_bind_some (a := ()) ?_ rfl
      rw [unchecked, parse, hmade]
      rfl

/-- Making fewer checks accepts no less, with the same result. -/
theorem parse_mono (hle : ∀ c, made' c = true → made c = true) :
    ∀ {d : Decoder ε κ α} {s : Streams} {p : α × Streams},
      parse made d s = some p → parse made' d s = some p := by
  intro d
  induction d with
  | ret a => exact fun h => h
  | panic => exact fun h => h
  | fail e => exact fun h => h
  | readBits n k ih =>
    intro s p h
    simp only [parse] at h ⊢
    split at h
    · rw [if_pos ‹_›]
      exact ih _ h
    · cases h
  | viewBits n k ih =>
    intro s p h
    simp only [parse] at h ⊢
    split at h
    · rw [if_pos ‹_›]
      exact ih _ h
    · cases h
  | readByte k ih =>
    intro s p h
    simp only [parse] at h ⊢
    split at h
    · cases h
    · exact ih _ h
  | readBytes n k ih =>
    intro s p h
    simp only [parse] at h ⊢
    split at h
    · rw [if_pos ‹_›]
      exact ih _ h
    · cases h
  | omitted c holds k ih =>
    intro s p h
    simp only [parse] at h ⊢
    split at h
    · cases h
    · rename_i hc
      rw [if_neg ?_]
      · exact ih h
      · -- a check made in the laxer reading is made in the stricter one
        intro hc'
        rw [Bool.and_eq_true] at hc'
        exact hc (by rw [hle c hc'.1, hc'.2]; rfl)

/-- Only the marks in `S` occur in the program. -/
def MarksIn (S : κ → Prop) : Decoder ε κ α → Prop
  | ret _ => True
  | panic => True
  | fail _ => True
  | readBits _ k => ∀ v, MarksIn S (k v)
  | viewBits _ k => ∀ v, MarksIn S (k v)
  | readByte k => ∀ b, MarksIn S (k b)
  | readBytes _ k => ∀ bs, MarksIn S (k bs)
  | omitted c _ k => S c ∧ MarksIn S k

/-- The marks of a sequence are those of its parts. -/
theorem MarksIn.bind (hd : MarksIn S d) (hg : ∀ a, MarksIn S (g a)) : MarksIn S (d >>= g) := by
  rw [bind_eq]
  induction d with
  | ret a => exact hg a
  | panic => trivial
  | fail e => trivial
  | readBits n k ih => exact fun v => ih v (hd v)
  | viewBits n k ih => exact fun v => ih v (hd v)
  | readByte k ih => exact fun b => ih b (hd b)
  | readBytes n k ih => exact fun bs => ih bs (hd bs)
  | omitted c holds k ih => exact ⟨hd.1, ih hd.2⟩

theorem MarksIn.pure (a : α) : MarksIn S (Pure.pure a : Decoder ε κ α) := trivial

theorem MarksIn.times (hd : MarksIn S d) :
    ∀ n, MarksIn S (times d n) := by
  intro n
  induction n with
  | zero => trivial
  | succ n ih => exact hd.bind fun _ => ih.bind fun _ => MarksIn.pure _

/-- Checks that the program has no mark for make no difference. -/
theorem parse_congr (h : ∀ c, S c → made c = made' c) :
    ∀ {d : Decoder ε κ α}, MarksIn S d → ∀ s, parse made d s = parse made' d s := by
  intro d
  induction d with
  | ret a => exact fun _ s => rfl
  | panic => exact fun _ s => rfl
  | fail e => exact fun _ s => rfl
  | readBits n k ih => intro hd s; simp only [parse, ih _ (hd _)]
  | viewBits n k ih => intro hd s; simp only [parse, ih _ (hd _)]
  | readByte k ih =>
    intro hd s
    obtain ⟨bits, _ | ⟨b, bs⟩⟩ := s
    · rfl
    · exact ih b (hd b) _
  | readBytes n k ih => intro hd s; simp only [parse, ih _ (hd _)]
  | omitted c holds k ih => intro hd s; simp only [parse, ih hd.2, h c hd.1]

/-- A loop of `n` rounds returns `n` results, each of them read by the body. -/
theorem parse_times_forall {P : α → Prop} (h : ∀ s a s', parse made d s = some (a, s') → P a) :
    ∀ {n : ℕ} {s s' : Streams} {as : List α},
      parse made (times d n) s = some (as, s') → as.length = n ∧ ∀ a ∈ as, P a := by
  intro n
  induction n with
  | zero =>
    intro s s' as hs
    obtain ⟨rfl, rfl⟩ := parse_pure_eq_some hs
    exact ⟨rfl, by simp⟩
  | succ n ih =>
    intro s s' as hs
    obtain ⟨a, s₁, ha, hs⟩ := parse_bind_eq_some hs
    obtain ⟨as', s₂, has, hs⟩ := parse_bind_eq_some hs
    obtain ⟨rfl, rfl⟩ := parse_pure_eq_some hs
    obtain ⟨hlen, hall⟩ := ih has
    refine ⟨by rw [List.length_cons, hlen], ?_⟩
    rintro b (_ | ⟨_, hb⟩)
    · exact h _ _ _ ha
    · exact hall b hb

end Decoder

/-! ## Encoders -/

/-- Encoder programs: give up, return an error, append a number of `n` bits,
append a byte or append some bytes. -/
inductive Encoder (ε α : Type) : Type where
  /-- return a value -/
  | ret : α → Encoder ε α
  /-- give up without an error value -/
  | panic : Encoder ε α
  /-- return an error -/
  | fail : ε → Encoder ε α
  /-- append the low bits of a number -/
  | writeBits : ℕ → ℕ → Encoder ε α → Encoder ε α
  /-- append a byte -/
  | writeByte : UInt8 → Encoder ε α → Encoder ε α
  /-- append bytes -/
  | writeBytes : List UInt8 → Encoder ε α → Encoder ε α

namespace Encoder

variable {ε κ α β : Type} {w : α → Encoder ε Unit} {g : α → Encoder ε β} {m : Encoder ε α}

/-- Graft a continuation onto the `ret` leaf. -/
protected def bind : Encoder ε α → (α → Encoder ε β) → Encoder ε β
  | ret a, g => g a
  | panic, _ => panic
  | fail e, _ => fail e
  | writeBits n v k, g => writeBits n v (k.bind g)
  | writeByte b k, g => writeByte b (k.bind g)
  | writeBytes bs k, g => writeBytes bs (k.bind g)

instance : Monad (Encoder ε) where
  pure := ret
  bind := Encoder.bind

theorem bind_eq (m : Encoder ε α) (g : α → Encoder ε β) : m >>= g = m.bind g := rfl

/-- Append the low `n` bits of `v`. -/
def bits (n v : ℕ) : Encoder ε Unit := writeBits n v (ret ())

/-- Append a byte. -/
def byte (b : UInt8) : Encoder ε Unit := writeByte b (ret ())

/-- Append bytes. -/
def bytes (bs : List UInt8) : Encoder ε Unit := writeBytes bs (ret ())

/-- Write every element of a list in order. -/
def forEach (w : α → Encoder ε Unit) : List α → Encoder ε Unit
  | [] => pure ()
  | a :: as => do
    w a
    forEach w as

/-- What an encoder appends to the two streams, and its result; `none` when it
panics or returns an error. -/
def emit : Encoder ε α → Option (α × Streams)
  | ret a => some (a, ∅)
  | panic => none
  | fail _ => none
  | writeBits n v k => (emit k).map fun p => (p.1, ⟨BitList.ofNat n v, []⟩ ++ p.2)
  | writeByte b k => (emit k).map fun p => (p.1, ⟨[], [b]⟩ ++ p.2)
  | writeBytes bs k => (emit k).map fun p => (p.1, ⟨[], bs⟩ ++ p.2)

/-- Every number fits the bits it is given and no write is empty, so that
writing it bit by bit is what `emit` says. -/
def Sized : Encoder ε α → Prop
  | ret _ => True
  | panic => True
  | fail _ => True
  | writeBits n v k => 0 < n ∧ v < 2 ^ n ∧ Sized k
  | writeByte _ k => Sized k
  | writeBytes _ k => Sized k

@[simp] theorem emit_pure (a : α) : emit (pure a : Encoder ε α) = some (a, ∅) := rfl

@[simp] theorem emit_fail (e : ε) : emit (fail e : Encoder ε α) = none := rfl

@[simp] theorem emit_bits (n v : ℕ) :
    emit (bits n v : Encoder ε Unit) = some ((), ⟨BitList.ofNat n v, []⟩) := by
  simp [bits, emit]

@[simp] theorem emit_byte (b : UInt8) :
    emit (byte b : Encoder ε Unit) = some ((), ⟨[], [b]⟩) := by
  simp [byte, emit]

@[simp] theorem emit_bytes (bs : List UInt8) :
    emit (bytes bs : Encoder ε Unit) = some ((), ⟨[], bs⟩) := by
  simp [bytes, emit]

/-- Writing composes: the second encoder's output follows the first's. -/
theorem emit_bind (m : Encoder ε α) (g : α → Encoder ε β) :
    emit (m >>= g) =
      (emit m).bind fun p => (emit (g p.1)).map fun q => (q.1, p.2 ++ q.2) := by
  rw [bind_eq]
  induction m with
  | ret a => simp [Encoder.bind, emit]
  | panic => rfl
  | fail e => rfl
  | writeBits n v k ih =>
    simp only [Encoder.bind, emit, ih]
    rcases emit k with _ | ⟨a, o⟩
    · rfl
    · simp [Function.comp_def, Streams.append_assoc]
  | writeByte b k ih =>
    simp only [Encoder.bind, emit, ih]
    rcases emit k with _ | ⟨a, o⟩
    · rfl
    · simp [Function.comp_def, Streams.append_assoc]
  | writeBytes bs k ih =>
    simp only [Encoder.bind, emit, ih]
    rcases emit k with _ | ⟨a, o⟩
    · rfl
    · simp [Function.comp_def, Streams.append_assoc]

/-- Introduction for `bind`. -/
theorem emit_bind_some {a : α} {b : β} {o o' : Streams} (hm : emit m = some (a, o))
    (hg : emit (g a) = some (b, o')) :
    emit (m >>= g) = some (b, o ++ o') := by
  rw [emit_bind, hm]
  simp [hg]

/-- Inversion for `bind`. -/
theorem emit_bind_eq_some {b : β} {out : Streams} (h : emit (m >>= g) = some (b, out)) :
    ∃ a o o', emit m = some (a, o) ∧ emit (g a) = some (b, o') ∧ out = o ++ o' := by
  rw [emit_bind] at h
  rcases hm : emit m with _ | ⟨a, o⟩
  · rw [hm] at h; cases h
  · rw [hm, Option.bind_some] at h
    rcases hg : emit (g a) with _ | ⟨b', o'⟩
    · rw [hg] at h; cases h
    · rw [hg, Option.map_some, Option.some.injEq, Prod.mk.injEq] at h
      obtain ⟨rfl, rfl⟩ := h
      exact ⟨a, o, o', rfl, hg, rfl⟩

/-- The second encoder need only be sized for the result of the first. -/
theorem Sized.bind (hm : Sized m) (hg : ∀ a o, emit m = some (a, o) → Sized (g a)) :
    Sized (m >>= g) := by
  rw [bind_eq]
  induction m with
  | ret a => exact hg a ∅ rfl
  | panic => trivial
  | fail e => trivial
  | writeBits n v k ih =>
    refine ⟨hm.1, hm.2.1, ih hm.2.2 ?_⟩
    intro a o ho
    exact hg a _ (by rw [emit, ho]; rfl)
  | writeByte b k ih =>
    refine ih hm ?_
    intro a o ho
    exact hg a _ (by rw [emit, ho]; rfl)
  | writeBytes bs k ih =>
    refine ih hm ?_
    intro a o ho
    exact hg a _ (by rw [emit, ho]; rfl)

theorem Sized.seq {m' : Encoder ε β} (hm : Sized m) (hm' : Sized m') :
    Sized (m >>= fun _ => m') := hm.bind fun _ _ _ => hm'

theorem Sized.pure (a : α) : Sized (pure a : Encoder ε α) := trivial

theorem Sized.bits {n v : ℕ} (hn : 0 < n) (hv : v < 2 ^ n) :
    Sized (bits n v : Encoder ε Unit) := ⟨hn, hv, trivial⟩

theorem Sized.byte (b : UInt8) : Sized (byte b : Encoder ε Unit) := trivial

theorem Sized.bytes (bs : List UInt8) : Sized (bytes bs : Encoder ε Unit) := trivial

/-- A loop writes what its rounds write. -/
theorem Sized.forEach (hw : ∀ a, Sized (w a)) :
    ∀ as : List α, Sized (forEach w as) := by
  intro as
  induction as with
  | nil => exact Sized.pure ()
  | cons a as ih => exact (hw a).seq ih

/-- The program never gives up without an error value. -/
def NoPanic : Encoder ε α → Prop
  | ret _ => True
  | panic => False
  | fail _ => True
  | writeBits _ _ k => NoPanic k
  | writeByte _ k => NoPanic k
  | writeBytes _ k => NoPanic k

/-- A sequence panics only in one of its parts. -/
theorem NoPanic.bind (hm : NoPanic m) (hg : ∀ a, NoPanic (g a)) : NoPanic (m >>= g) := by
  rw [bind_eq]
  induction m with
  | ret a => exact hg a
  | panic => exact hm.elim
  | fail e => trivial
  | writeBits n v k ih => exact ih hm
  | writeByte b k ih => exact ih hm
  | writeBytes bs k ih => exact ih hm

theorem NoPanic.forEach (hw : ∀ a, NoPanic (w a)) :
    ∀ as : List α, NoPanic (forEach w as) := by
  intro as
  induction as with
  | nil => trivial
  | cons a as ih => exact (hw a).bind fun _ => ih

theorem emit_forEach_some {as : List α} (h : ∀ a ∈ as, ∃ o, emit (w a) = some ((), o)) :
    ∃ o, emit (forEach w as) = some ((), o) := by
  induction as with
  | nil => exact ⟨∅, rfl⟩
  | cons a as ih =>
    obtain ⟨o, ho⟩ := h a (List.mem_cons_self ..)
    obtain ⟨o', ho'⟩ := ih fun b hb => h b (List.mem_cons_of_mem _ hb)
    exact ⟨o ++ o', emit_bind_some ho ho'⟩

/-- The encoder succeeds and appends at most `k` bits and `k` bytes. -/
def EmitsWithin (m : Encoder ε Unit) (k : ℕ) : Prop :=
  ∃ out, emit m = some ((), out) ∧ out.bits.length ≤ k ∧ out.bytes.length ≤ k

theorem EmitsWithin.pure : EmitsWithin (Pure.pure () : Encoder ε Unit) 0 :=
  ⟨∅, rfl, Nat.le_refl 0, Nat.le_refl 0⟩

theorem EmitsWithin.mono {m : Encoder ε Unit} {k k' : ℕ} (h : EmitsWithin m k) (hk : k ≤ k') :
    EmitsWithin m k' := by
  obtain ⟨o, ho, hbits, hbytes⟩ := h
  exact ⟨o, ho, hbits.trans hk, hbytes.trans hk⟩

/-- The bounds of a sequence add up. -/
theorem EmitsWithin.seq {m m' : Encoder ε Unit} {k k' : ℕ} (h : EmitsWithin m k)
    (h' : EmitsWithin m' k') : EmitsWithin (m >>= fun _ => m') (k + k') := by
  obtain ⟨o, ho, hbits, hbytes⟩ := h
  obtain ⟨o', ho', hbits', hbytes'⟩ := h'
  refine ⟨o ++ o', emit_bind_some ho ho', ?_, ?_⟩
  · rw [Streams.bits_append, List.length_append]
    exact Nat.add_le_add hbits hbits'
  · rw [Streams.bytes_append, List.length_append]
    exact Nat.add_le_add hbytes hbytes'

/-- Those of a loop are a product. -/
theorem EmitsWithin.forEach {k : ℕ} {as : List α} (h : ∀ a ∈ as, EmitsWithin (w a) k) :
    EmitsWithin (forEach w as) (as.length * k) := by
  induction as with
  | nil =>
    rw [List.length_nil, Nat.zero_mul]
    exact EmitsWithin.pure
  | cons a as ih =>
    have hrest := ih fun b hb => h b (List.mem_cons_of_mem _ hb)
    rw [List.length_cons, Nat.succ_mul, Nat.add_comm]
    exact (h a (List.mem_cons_self ..)).seq hrest

theorem exists_emit_of_mem {as : List α} :
    ∀ {out : Streams}, emit (forEach w as) = some ((), out) →
      ∀ a ∈ as, ∃ o, emit (w a) = some ((), o) := by
  induction as with
  | nil => intro out _ a ha; cases ha
  | cons b as ih =>
    intro out h a ha
    obtain ⟨⟨⟩, o, o', hb, has, -⟩ := emit_bind_eq_some h
    rcases List.mem_cons.mp ha with rfl | ha
    · exact ⟨o, hb⟩
    · exact ih has a ha

end Encoder

/-! ## Encoders and decoders that belong together -/

section Laws

variable {ε κ α β : Type} {d : Decoder ε κ α} {w : α → Encoder ε Unit} {g : α → Decoder ε κ β}
  {P E : α → Prop}

open Decoder Encoder

/-- **Round trip.** Whatever `m` writes, `d` reads back as `a` with every check
made, and stops where `m` stopped writing. -/
def Reads (m : Encoder ε Unit) (d : Decoder ε κ α) (a : α) : Prop :=
  ∀ out, emit m = some ((), out) → ∀ rest, parse strict d (out ++ rest) = some (a, rest)

/-- **Canonicity.** Whatever `d` accepts with every check made as an `a` in `E`
is what `w a` writes. -/
def Inverts (d : Decoder ε κ α) (w : α → Encoder ε Unit) (E : α → Prop) : Prop :=
  ∀ s a s', parse strict d s = some (a, s') → E a →
    ∃ out, emit (w a) = some ((), out) ∧ s = out ++ s'

/-- **Writing anew does not grow.** What `w` writes for a value read by `d` is no
longer than what was read, whichever checks were made. -/
def Shrinks (d : Decoder ε κ α) (w : α → Encoder ε Unit) : Prop :=
  ∀ made s a s', parse made d s = some (a, s') →
    ∀ out, emit (w a) = some ((), out) → (out ++ s').NoLonger s

theorem Reads.pure (a : α) : Reads (pure () : Encoder ε Unit) (pure a : Decoder ε κ α) a := by
  intro out hout rest
  rw [emit_pure, Option.some.injEq, Prod.mk.injEq] at hout
  rw [← hout.2]
  rfl

/-- Reading back composes. -/
theorem Reads.bind {m m' : Encoder ε Unit} {a : α} {b : β} (h : Reads m d a) (h' : Reads m' (g a) b)
    :
    Reads (m >>= fun _ => m') (d >>= g) b := by
  intro out hout rest
  obtain ⟨⟨⟩, o, o', hm, hm', rfl⟩ := emit_bind_eq_some hout
  rw [Streams.append_assoc]
  exact parse_bind_some (h o hm _) (h' o' hm' rest)

/-- A last step of the decoder that reads nothing. -/
theorem Reads.map {m : Encoder ε Unit} {a : α} {b : β} (h : Reads m d a)
    (hg : ∀ s, parse strict (g a) s = some (b, s)) : Reads m (d >>= g) b := by
  intro out hout rest
  exact parse_bind_some (h out hout rest) (hg rest)

/-- Reading a loop back: one round per element. -/
theorem Reads.forEach {as : List α} (h : ∀ a ∈ as, Reads (w a) d a) :
    Reads (forEach w as) (times d as.length) as := by
  induction as with
  | nil => exact Reads.pure []
  | cons a as ih =>
    refine Reads.bind (h a (List.mem_cons_self ..)) ?_
    exact (ih fun b hb => h b (List.mem_cons_of_mem _ hb)).map fun s => rfl

/-- Inverting a loop: one element per round. -/
theorem Inverts.times {E : α → Prop} (h : Inverts d w E) :
    ∀ n, Inverts (times d n) (forEach w) fun as => ∀ a ∈ as, E a := by
  intro n
  induction n with
  | zero =>
    intro s as s' hs _
    obtain ⟨rfl, rfl⟩ := parse_pure_eq_some hs
    exact ⟨∅, rfl, rfl⟩
  | succ n ih =>
    intro s as s' hs hE
    obtain ⟨a, s₁, ha, hs⟩ := parse_bind_eq_some hs
    obtain ⟨as', s₂, has, hs⟩ := parse_bind_eq_some hs
    obtain ⟨rfl, rfl⟩ := parse_pure_eq_some hs
    obtain ⟨o, ho, rfl⟩ := h _ _ _ ha (hE a (List.mem_cons_self ..))
    obtain ⟨o', ho', rfl⟩ := ih _ _ _ has fun b hb => hE b (List.mem_cons_of_mem _ hb)
    exact ⟨o ++ o', emit_bind_some ho ho', (Streams.append_assoc ..).symm⟩

/-- A decoder that accepts one form only, whichever checks are made. -/
theorem Shrinks.of_exact (h : ∀ made s a s', parse made d s = some (a, s') → ∃ out, emit (w a) =
      some ((), out) ∧ s = out ++ s') : Shrinks d w := by
  intro made s a s' hs out hout
  obtain ⟨out', hout', rfl⟩ := h made s a s' hs
  rw [hout', Option.some.injEq, Prod.mk.injEq] at hout
  rw [hout.2]
  exact Streams.NoLonger.refl _

/-- A loop of shrinking fields shrinks. -/
theorem Shrinks.times (h : Shrinks d w) :
    ∀ n, Shrinks (times d n) (forEach w) := by
  intro n
  induction n with
  | zero =>
    intro made s as s' hs out hout
    obtain ⟨rfl, rfl⟩ := parse_pure_eq_some hs
    rw [forEach, emit_pure, Option.some.injEq, Prod.mk.injEq] at hout
    rw [← hout.2]
    exact Streams.NoLonger.refl _
  | succ n ih =>
    intro made s as s' hs out hout
    obtain ⟨a, s₁, ha, hs⟩ := parse_bind_eq_some hs
    obtain ⟨as', s₂, has, hs⟩ := parse_bind_eq_some hs
    obtain ⟨rfl, rfl⟩ := parse_pure_eq_some hs
    obtain ⟨⟨⟩, o, o', ho, ho', rfl⟩ := emit_bind_eq_some hout
    exact (h _ _ _ _ ha o ho).append (ih _ _ _ _ has o' ho')

/-- **A lawful codec.** `P` are the values the decoder can return, `E` those
among them that the encoder does not refuse. -/
structure Lawful (d : Decoder ε κ α) (w : α → Encoder ε Unit) (P E : α → Prop) : Prop where
  /-- every value in `P` and `E` can be written -/
  emits : ∀ a, P a → E a → ∃ out, emit (w a) = some ((), out)
  /-- every value in `P` that is written is read back -/
  reads : ∀ a, P a → Reads (w a) d a
  /-- only values in `P` are read, whichever checks are made -/
  range : ∀ made s a s', parse made d s = some (a, s') → P a
  /-- with every check made, only what `w` writes is accepted -/
  inverts : Inverts d w E
  /-- what is read is not written any longer -/
  shrinks : Shrinks d w

/-- Any value at all. -/
def Any : α → Prop := fun _ => True

/-- A value that is not written at all. -/
theorem Lawful.const {a : α} (ha : P a) (huniq : ∀ b, P b → b = a) :
    Lawful (pure a : Decoder ε κ α) (fun _ => pure ()) P E where
  emits b _ _ := ⟨∅, rfl⟩
  reads b hb := by
    obtain rfl := huniq b hb
    exact Reads.pure b
  range made s b s' hs := by
    rwa [← (parse_pure_eq_some hs).1]
  inverts s b s' hs _ := by
    rw [parse_pure, Option.some.injEq, Prod.mk.injEq] at hs
    exact ⟨∅, rfl, by rw [hs.2]; rfl⟩
  shrinks := by
    refine Shrinks.of_exact fun made s b s' hs => ?_
    rw [parse_pure, Option.some.injEq, Prod.mk.injEq] at hs
    exact ⟨∅, rfl, by rw [hs.2]; rfl⟩

/-- **Codecs of records compose field by field.** The first field `π b` is read
and written by the first codec; the rest of the decoder, knowing it, reads the
values of `P` that have it. -/
theorem Lawful.bind {P₁ E₁ : α → Prop} {w' : β → Encoder ε Unit} {P E : β → Prop}
    (h : Lawful d w P₁ E₁) (π : β → α) (hP : ∀ b, P b → P₁ (π b)) (hE : ∀ b, P b → E b → E₁ (π b))
    (h' : ∀ a, P₁ a → Lawful (g a) w' (fun b => P b ∧ π b = a) E) :
    Lawful (d >>= g) (fun b => w (π b) >>= fun _ => w' b) P E where
  emits b hb hEb := by
    obtain ⟨o, ho⟩ := h.emits (π b) (hP b hb) (hE b hb hEb)
    obtain ⟨o', ho'⟩ := (h' (π b) (hP b hb)).emits b ⟨hb, rfl⟩ hEb
    exact ⟨o ++ o', emit_bind_some ho ho'⟩
  reads b hb := (h.reads (π b) (hP b hb)).bind ((h' (π b) (hP b hb)).reads b ⟨hb, rfl⟩)
  range made s b s' hs := by
    obtain ⟨a, s₁, ha, hb⟩ := parse_bind_eq_some hs
    exact ((h' a (h.range _ _ _ _ ha)).range _ _ _ _ hb).1
  inverts s b s' hs hEb := by
    obtain ⟨a, s₁, ha, hb⟩ := parse_bind_eq_some hs
    have hrest := h' a (h.range _ _ _ _ ha)
    obtain ⟨hPb, rfl⟩ := hrest.range _ _ _ _ hb
    obtain ⟨o', ho', rfl⟩ := hrest.inverts _ _ _ hb hEb
    obtain ⟨o, ho, rfl⟩ := h.inverts _ _ _ ha (hE b hPb hEb)
    exact ⟨o ++ o', emit_bind_some ho ho', (Streams.append_assoc ..).symm⟩
  shrinks made s b s' hs out hout := by
    obtain ⟨a, s₁, ha, hb⟩ := parse_bind_eq_some hs
    have hrest := h' a (h.range _ _ _ _ ha)
    obtain ⟨-, rfl⟩ := hrest.range _ _ _ _ hb
    obtain ⟨⟨⟩, o, o', ho, ho', rfl⟩ := emit_bind_eq_some hout
    exact (h.shrinks _ _ _ _ ha o ho).append (hrest.shrinks _ _ _ _ hb o' ho')

/-- Only what is written on `P` matters. -/
theorem Lawful.congr {w w' : α → Encoder ε Unit} (h : Lawful d w P E) (hw : ∀ a, P a → w a = w' a) :
    Lawful d w' P E where
  emits a ha := hw a ha ▸ h.emits a ha
  reads a ha := hw a ha ▸ h.reads a ha
  range := h.range
  inverts s a s' hs := hw a (h.range _ _ _ _ hs) ▸ h.inverts s a s' hs
  shrinks made s a s' hs := hw a (h.range _ _ _ _ hs) ▸ h.shrinks made s a s' hs

/-- `Lawful.bind` for a field whose encoder looks at fields read before it. -/
theorem Lawful.bindOn {P₁ E₁ : α → Prop} {w₁ w' : β → Encoder ε Unit} {P E : β → Prop}
    (h : Lawful d w P₁ E₁) (π : β → α) (hw : ∀ b, P b → w (π b) = w₁ b) (hP : ∀ b, P b → P₁ (π b))
    (hE : ∀ b, P b → E b → E₁ (π b)) (h' : ∀ a, P₁ a → Lawful (g a) w' (fun b => P b ∧ π b = a) E) :
    Lawful (d >>= g) (fun b => w₁ b >>= fun _ => w' b) P E :=
  (h.bind π hP hE h').congr fun b hb => by rw [hw b hb]

theorem Lawful.of_iff {P P' E : α → Prop} (h : Lawful d w P E) (hP : ∀ a, P a ↔ P' a) :
    Lawful d w P' E := by
  rwa [show P' = P from funext fun a => propext (hP a).symm]

/-- An encoder that first refuses the values outside `G`. -/
theorem Lawful.guard {w w' : α → Encoder ε Unit} {P E E₁ G : α → Prop} (h : Lawful d w P E₁)
    (hE : ∀ a, P a → E a → E₁ a ∧ G a) (hyes : ∀ a, G a → w' a = w a)
    (hno : ∀ a, ¬ G a → emit (w' a) = none) : Lawful d w' P E where
  emits a ha hEa := hyes a (hE a ha hEa).2 ▸ h.emits a ha (hE a ha hEa).1
  reads a ha := by
    intro out hout
    by_cases hGa : G a
    · rw [hyes a hGa] at hout
      exact h.reads a ha out hout
    · rw [hno a hGa] at hout
      cases hout
  range := h.range
  inverts s a s' hs hEa := by
    obtain ⟨hE₁, hGa⟩ := hE a (h.range _ _ _ _ hs) hEa
    exact hyes a hGa ▸ h.inverts s a s' hs hE₁
  shrinks made s a s' hs out hout := by
    by_cases hGa : G a
    · rw [hyes a hGa] at hout
      exact h.shrinks _ _ _ _ hs out hout
    · rw [hno a hGa] at hout
      cases hout

/-- A missing check that everything written passes. -/
theorem Lawful.marked {c : κ} {holds : α → Bool} (h : Lawful d w P E)
    (hholds : ∀ a out, emit (w a) = some ((), out) → holds a = true) :
    Lawful (marked d c holds) w P E where
  emits := h.emits
  reads a ha out hout rest := parse_marked.mpr ⟨h.reads a ha out hout rest,
    fun _ => hholds a out hout⟩
  range _ _ _ _ hs := h.range _ _ _ _ (parse_marked.mp hs).1
  inverts _ _ _ hs := h.inverts _ _ _ (parse_marked.mp hs).1
  shrinks _ _ _ _ hs := h.shrinks _ _ _ _ (parse_marked.mp hs).1

/-- A lawful codec for a type that represents another one: `f` reads off the
value, `g` gives the representative. -/
theorem Lawful.map {P E₁ : α → Prop} {Q E : β → Prop} (h : Lawful d w P E₁) (f : α → β) (g : β → α)
    (hE : ∀ b, E b → E₁ (g b)) (hfg : ∀ b, Q b → P (g b) ∧ f (g b) = b)
    (hgf : ∀ a, P a → Q (f a) ∧ g (f a) = a) :
    Lawful (d >>= fun a => pure (f a)) (fun b => w (g b)) Q E where
  emits b hb hEb := h.emits (g b) (hfg b hb).1 (hE b hEb)
  reads b hb := by
    refine (h.reads (g b) (hfg b hb).1).map fun s => ?_
    rw [parse_pure, (hfg b hb).2]
  range made s b s' hs := by
    obtain ⟨a, s₁, ha, hs⟩ := parse_bind_eq_some hs
    rw [← (parse_pure_eq_some hs).1]
    exact (hgf a (h.range _ _ _ _ ha)).1
  inverts s b s' hs hEb := by
    obtain ⟨a, s₁, ha, hs⟩ := parse_bind_eq_some hs
    obtain ⟨rfl, rfl⟩ := parse_pure_eq_some hs
    have hback := (hgf a (h.range _ _ _ _ ha)).2
    have hEa := hE _ hEb
    rw [hback] at hEa
    simp only [hback]
    exact h.inverts _ _ _ ha hEa
  shrinks made s b s' hs out hout := by
    obtain ⟨a, s₁, ha, hs⟩ := parse_bind_eq_some hs
    obtain ⟨rfl, rfl⟩ := parse_pure_eq_some hs
    simp only [(hgf a (h.range _ _ _ _ ha)).2] at hout
    exact h.shrinks _ _ _ _ ha out hout

/-- A list whose length is known is read and written one element at a time. -/
theorem Lawful.list (h : Lawful d w P E) (n : ℕ) :
    Lawful (times d n) (Encoder.forEach w) (fun as => as.length = n ∧ ∀ a ∈ as, P a)
      fun as => ∀ a ∈ as, E a where
  emits _ has hE := emit_forEach_some fun a ha => h.emits a (has.2 a ha) (hE a ha)
  reads _ has := has.1 ▸ Reads.forEach fun a ha => h.reads a (has.2 a ha)
  range made _ _ _ hs := parse_times_forall (h.range made) hs
  inverts := h.inverts.times n
  shrinks := h.shrinks.times n

end Laws

end Codec
