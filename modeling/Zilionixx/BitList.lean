import Mathlib.Data.List.Basic
import Mathlib.Tactic.Ring
import Mathlib.Tactic.Linarith

/-!
# Bit lists: numbers and bytes as lists of bits

The denotation of a bit-packed stream. A number of `n` bits is the list of its
bits, **least significant first**; a byte array is the concatenation of the
bits of its bytes. Two facts carry everything above this file:

* `ofNat` and `toNat` are inverse to each other on `n` bits (`toNat_ofNat`,
  `ofNat_toNat`), and both turn concatenation into `+ 2 ^ n *`;
* `unpack` is injective, so a byte array is determined by its bits.
-/

namespace BitList

/-- The low `n` bits of `v`, least significant first. -/
def ofNat : ℕ → ℕ → List Bool
  | 0, _ => []
  | n + 1, v => v.testBit 0 :: ofNat n (v / 2)

/-- The number that a list of bits spells, least significant first. -/
def toNat : List Bool → ℕ
  | [] => 0
  | b :: bs => b.toNat + 2 * toNat bs

theorem toNat_cons (b : Bool) (bs : List Bool) :
    toNat (b :: bs) = b.toNat + 2 * toNat bs := rfl

@[simp] theorem length_ofNat (n v : ℕ) : (ofNat n v).length = n := by
  induction n generalizing v with
  | zero => rfl
  | succ n ih => rw [ofNat, List.length_cons, ih]

/-- The bits of a number, lowest first. -/
theorem getElem?_ofNat (n v i : ℕ) :
    (ofNat n v)[i]? = if i < n then some (v.testBit i) else none := by
  induction n generalizing v i with
  | zero => simp
  | succ n ih =>
    cases i with
    | zero => simp [ofNat]
    | succ i =>
      rw [ofNat, List.getElem?_cons_succ, ih, ← Nat.testBit_succ]
      simp

/-- A list of bits spells a number of that many bits. -/
theorem toNat_lt (bs : List Bool) : toNat bs < 2 ^ bs.length := by
  induction bs with
  | nil => exact Nat.one_pos
  | cons b bs ih =>
    rw [toNat_cons, List.length_cons, Nat.pow_succ]
    have hb : b.toNat ≤ 1 := Bool.toNat_le b
    omega

/-- The bits behind count above the others. -/
theorem toNat_append (as bs : List Bool) :
    toNat (as ++ bs) = toNat as + 2 ^ as.length * toNat bs := by
  induction as with
  | nil => simp [toNat]
  | cons a as ih =>
    rw [List.cons_append, toNat_cons, toNat_cons, ih, List.length_cons, Nat.pow_succ]
    ring

@[simp] theorem toNat_replicate_false (n : ℕ) : toNat (List.replicate n false) = 0 := by
  induction n with
  | zero => rfl
  | succ n ih => rw [List.replicate_succ, toNat_cons, ih]; rfl

/-- Only a list of zero bits spells zero. -/
theorem toNat_eq_zero {bs : List Bool} (h : toNat bs = 0) :
    bs = List.replicate bs.length false := by
  induction bs with
  | nil => rfl
  | cons b bs ih =>
    rw [toNat_cons] at h
    have hb : b = false := by
      cases b
      · rfl
      · rw [Bool.toNat_true] at h; omega
    rw [List.length_cons, List.replicate_succ, hb, ← ih (by omega)]

/-- A number is cut off to its bits. -/
theorem toNat_ofNat (n v : ℕ) : toNat (ofNat n v) = v % 2 ^ n := by
  induction n generalizing v with
  | zero => rw [Nat.pow_zero, Nat.mod_one]; rfl
  | succ n ih =>
    rw [ofNat, toNat_cons, ih, Nat.testBit_zero, Nat.pow_succ', Nat.mod_mul]
    rcases Nat.mod_two_eq_zero_or_one v with h | h <;> rw [h] <;> simp

theorem toNat_ofNat_of_lt {n v : ℕ} (h : v < 2 ^ n) : toNat (ofNat n v) = v := by
  rw [toNat_ofNat, Nat.mod_eq_of_lt h]

/-- Bits are those of their number. -/
theorem ofNat_toNat (bs : List Bool) : ofNat bs.length (toNat bs) = bs := by
  induction bs with
  | nil => rfl
  | cons b bs ih =>
    rw [List.length_cons, ofNat, toNat_cons]
    have hdiv : (b.toNat + 2 * toNat bs) / 2 = toNat bs := by
      have hb : b.toNat ≤ 1 := Bool.toNat_le b
      omega
    have hbit : (b.toNat + 2 * toNat bs).testBit 0 = b := by
      rw [Nat.testBit_zero]
      cases b <;> simp
    rw [hdiv, hbit, ih]

theorem toNat_inj {as bs : List Bool} (hlen : as.length = bs.length)
    (h : toNat as = toNat bs) : as = bs := by
  rw [← ofNat_toNat as, ← ofNat_toNat bs, hlen, h]

/-- Splitting a number splits its bits. -/
theorem ofNat_add (m n v : ℕ) : ofNat (m + n) v = ofNat m v ++ ofNat n (v / 2 ^ m) := by
  induction m generalizing v with
  | zero => simp [ofNat]
  | succ m ih =>
    rw [Nat.succ_add, ofNat, ofNat, ih, List.cons_append, Nat.div_div_eq_div_mul,
      Nat.pow_succ']

/-- Bits above a number are zero. -/
theorem ofNat_of_lt {m n v : ℕ} (hn : n ≤ m) (hv : v < 2 ^ n) :
    ofNat m v = ofNat n v ++ List.replicate (m - n) false := by
  obtain ⟨k, rfl⟩ := Nat.exists_eq_add_of_le hn
  rw [ofNat_add, Nat.div_eq_of_lt hv, Nat.add_sub_cancel_left]
  congr 1
  apply List.ext_getElem?
  intro i
  rw [getElem?_ofNat, List.getElem?_replicate, Nat.zero_testBit]

theorem ofNat_mod (n v : ℕ) : ofNat n (v % 2 ^ n) = ofNat n v := by
  apply toNat_inj (by rw [length_ofNat, length_ofNat])
  rw [toNat_ofNat, toNat_ofNat, Nat.mod_mod]

/-- Dropping bits divides. -/
theorem drop_ofNat (n k v : ℕ) (h : k ≤ n) :
    (ofNat n v).drop k = ofNat (n - k) (v / 2 ^ k) := by
  obtain ⟨m, rfl⟩ := Nat.exists_eq_add_of_le h
  rw [ofNat_add, List.drop_left' (length_ofNat ..), Nat.add_sub_cancel_left]

theorem take_ofNat (n k v : ℕ) (h : k ≤ n) :
    (ofNat n v).take k = ofNat k v := by
  obtain ⟨m, rfl⟩ := Nat.exists_eq_add_of_le h
  rw [ofNat_add, List.take_left' (length_ofNat ..)]

/-! ## Bytes -/

/-- The eight bits of a byte. -/
def byteBits (b : UInt8) : List Bool := ofNat 8 b.toNat

/-- The bits of a byte array. -/
def unpack (bytes : List UInt8) : List Bool := bytes.flatMap byteBits

@[simp] theorem length_byteBits (b : UInt8) : (byteBits b).length = 8 := length_ofNat 8 _

theorem toNat_byteBits (b : UInt8) : toNat (byteBits b) = b.toNat :=
  toNat_ofNat_of_lt b.toNat_lt

@[simp] theorem unpack_nil : unpack [] = [] := rfl

@[simp] theorem unpack_cons (b : UInt8) (bytes : List UInt8) :
    unpack (b :: bytes) = byteBits b ++ unpack bytes := rfl

/-- Bytes are unpacked one by one. -/
theorem unpack_append (as bs : List UInt8) : unpack (as ++ bs) = unpack as ++ unpack bs := by
  simp [unpack]

@[simp] theorem length_unpack (bytes : List UInt8) :
    (unpack bytes).length = 8 * bytes.length := by
  induction bytes with
  | nil => rfl
  | cons b bytes ih => rw [unpack_cons, List.length_append, ih, length_byteBits]; simp; ring

/-- Whole bytes are dropped from the bits eight at a time. -/
theorem drop_unpack (bytes : List UInt8) (i : ℕ) :
    (unpack bytes).drop (8 * i) = unpack (bytes.drop i) := by
  induction bytes generalizing i with
  | nil => simp
  | cons b bytes ih =>
    cases i with
    | zero => simp
    | succ i =>
      rw [unpack_cons, List.drop_succ_cons, ← ih i, List.drop_append,
        List.drop_eq_nil_of_le (by simp), length_byteBits, List.nil_append]
      congr 1

/-- A byte array is determined by its bits. -/
theorem unpack_injective : Function.Injective unpack := by
  intro as
  induction as with
  | nil =>
    intro bs h
    have hlen := congrArg List.length h
    rw [length_unpack, length_unpack, List.length_nil] at hlen
    exact (List.eq_nil_of_length_eq_zero (by omega)).symm
  | cons a as ih =>
    intro bs h
    cases bs with
    | nil =>
      have hlen := congrArg List.length h
      rw [length_unpack, length_unpack, List.length_cons, List.length_nil] at hlen
      omega
    | cons b bs =>
      rw [unpack_cons, unpack_cons] at h
      obtain ⟨hhead, htail⟩ := List.append_inj h (by simp)
      have hbyte : a = b := by
        apply UInt8.toNat_inj.mp
        rw [← toNat_byteBits a, ← toNat_byteBits b, hhead]
      rw [hbyte, ih htail]

end BitList
