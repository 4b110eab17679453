import Mathlib.Data.Nat.Digits.Lemmas
import Mathlib.Tactic.Ring

/-!
# Numbers as byte strings

A number is written in base 256, **least significant byte first** (`toLE`,
`ofLE`) or most significant first (`toBE`, `ofBE`), without leading zeros; a
format that asks for at least `m` bytes pads with zeros (`padded m`, `fixedBE m`). The digit
lists are Mathlib's `Nat.digits`; what is added here is the translation to
`UInt8` and the one fact formats rest on, `padded_ofLE`: a byte string with no
superfluous byte is the only one that spells its number.
-/

namespace ByteNumber

/-- The number a byte string spells, least significant byte first. -/
def ofLE (bs : List UInt8) : ℕ := Nat.ofDigits 256 (bs.map UInt8.toNat)

/-- The bytes of a number, least significant first, without leading zeros. -/
def toLE (v : ℕ) : List UInt8 := (Nat.digits 256 v).map UInt8.ofNat

/-- The number a byte string spells, most significant byte first. -/
def ofBE (bs : List UInt8) : ℕ := ofLE bs.reverse

/-- The bytes of a number, most significant first, without leading zeros. -/
def toBE (v : ℕ) : List UInt8 := (toLE v).reverse

/-- The bytes of a number, least significant first, at least `m` of them. -/
def padded (m v : ℕ) : List UInt8 :=
  toLE v ++ List.replicate (m - (toLE v).length) 0

/-- The bytes of a number, most significant first, at least `m` of them. -/
def fixedBE (m v : ℕ) : List UInt8 := (padded m v).reverse

@[simp] theorem ofLE_nil : ofLE [] = 0 := rfl

@[simp] theorem toLE_zero : toLE 0 = [] := by simp [toLE]

theorem ofLE_cons (b : UInt8) (bs : List UInt8) :
    ofLE (b :: bs) = b.toNat + 256 * ofLE bs := by
  simp [ofLE, Nat.ofDigits_cons]

theorem toLE_of_pos {v : ℕ} (hv : 0 < v) :
    toLE v = UInt8.ofNat (v % 256) :: toLE (v / 256) := by
  rw [toLE, Nat.digits_def' (by decide) hv, List.map_cons]
  rfl

theorem ofLE_append (as bs : List UInt8) :
    ofLE (as ++ bs) = ofLE as + 256 ^ as.length * ofLE bs := by
  simp [ofLE, Nat.ofDigits_append]

theorem ofLE_lt (bs : List UInt8) : ofLE bs < 256 ^ bs.length := by
  have h := Nat.ofDigits_lt_base_pow_length (b := 256) (l := bs.map UInt8.toNat) (by decide)
    (by simp only [List.mem_map]; rintro _ ⟨b, -, rfl⟩; exact b.toNat_lt)
  rwa [List.length_map] at h

@[simp] theorem ofLE_replicate_zero (n : ℕ) : ofLE (List.replicate n 0) = 0 := by
  simp [ofLE, Nat.ofDigits_replicate_zero]

@[simp] theorem ofLE_toLE (v : ℕ) : ofLE (toLE v) = v := by
  have hdigits : ((Nat.digits 256 v).map UInt8.ofNat).map UInt8.toNat = Nat.digits 256 v := by
    rw [List.map_map]
    conv_rhs => rw [← List.map_id (Nat.digits 256 v)]
    apply List.map_congr_left
    intro d hd
    have hlt : d < 256 := Nat.digits_lt_base (by decide) hd
    simp [Nat.mod_eq_of_lt hlt]
  rw [ofLE, toLE, hdigits, Nat.ofDigits_digits]

@[simp] theorem ofBE_toBE (v : ℕ) : ofBE (toBE v) = v := by
  rw [ofBE, toBE, List.reverse_reverse, ofLE_toLE]

theorem length_toLE_le {n v : ℕ} (h : v < 256 ^ n) : (toLE v).length ≤ n := by
  rw [toLE, List.length_map]
  exact (Nat.digits_length_le_iff (by decide) v).mpr h

@[simp] theorem length_toBE (v : ℕ) : (toBE v).length = (toLE v).length :=
  List.length_reverse

theorem ofBE_lt (bs : List UInt8) : ofBE bs < 256 ^ bs.length := by
  have h := ofLE_lt bs.reverse
  rwa [List.length_reverse] at h

/-- Leading zeros do not change the number. -/
theorem ofBE_replicate_zero_append (n : ℕ) (bs : List UInt8) :
    ofBE (List.replicate n 0 ++ bs) = ofBE bs := by
  rw [ofBE, List.reverse_append, List.reverse_replicate, ofLE_append, ofLE_replicate_zero,
    Nat.mul_zero, Nat.add_zero]
  rfl

/-! ## Padding -/

@[simp] theorem ofLE_padded (m v : ℕ) : ofLE (padded m v) = v := by
  rw [padded, ofLE_append, ofLE_toLE, ofLE_replicate_zero, Nat.mul_zero, Nat.add_zero]

theorem le_length_padded (m v : ℕ) : m ≤ (padded m v).length := by
  rw [padded, List.length_append, List.length_replicate]
  omega

theorem length_padded_le {m n v : ℕ} (hm : m ≤ n) (hv : v < 256 ^ n) :
    (padded m v).length ≤ n := by
  have h := length_toLE_le hv
  rw [padded, List.length_append, List.length_replicate]
  omega

theorem length_fixedBE {m v : ℕ} (hv : v < 256 ^ m) : (fixedBE m v).length = m := by
  rw [fixedBE, List.length_reverse]
  exact Nat.le_antisymm (length_padded_le (Nat.le_refl m) hv) (le_length_padded m v)

@[simp] theorem ofBE_fixedBE (m v : ℕ) : ofBE (fixedBE m v) = v := by
  rw [ofBE, fixedBE, List.reverse_reverse, ofLE_padded]

@[simp] theorem padded_zero_zero : padded 0 0 = [] := by simp [padded]

/-- One round of writing a number byte by byte. -/
theorem padded_succ {m v : ℕ} (h : 0 < m ∨ v ≠ 0) :
    padded m v = UInt8.ofNat (v % 256) :: padded (m - 1) (v / 256) := by
  rcases Nat.eq_zero_or_pos v with rfl | hv
  · have hm : 0 < m := by omega
    obtain ⟨m, rfl⟩ : ∃ k, m = k + 1 := ⟨m - 1, by omega⟩
    simp [padded, List.replicate_succ]
  · rw [padded, toLE_of_pos hv, padded, List.cons_append, List.length_cons]
    congr 3
    omega

/-- A number written in more bytes than asked for has no leading zero. -/
theorem getLast?_padded_ne {m v : ℕ} (h : m < (padded m v).length) :
    (padded m v).getLast? ≠ some 0 := by
  have hlen : m - (toLE v).length = 0 := by
    rw [padded, List.length_append, List.length_replicate] at h
    omega
  rw [padded, hlen, List.replicate_zero, List.append_nil] at h ⊢
  have hne : Nat.digits 256 v ≠ [] := by
    intro hnil
    rw [toLE, hnil] at h
    cases h
  have hv : v ≠ 0 := Nat.digits_ne_nil_iff_ne_zero.mp hne
  have hlast := Nat.getLast_digit_ne_zero 256 hv
  have hlt : (Nat.digits 256 v).getLast hne < 256 :=
    Nat.digits_lt_base (by decide) (List.getLast_mem hne)
  rw [toLE, List.getLast?_map, List.getLast?_eq_some_getLast hne, Option.map_some]
  intro hzero
  have hz := congrArg UInt8.toNat (Option.some.inj hzero)
  rw [UInt8.toNat_ofNat', Nat.mod_eq_of_lt hlt] at hz
  exact hlast hz

/-- **Uniqueness.** A byte string of at least `m` bytes, without a leading zero
when it has more than `m`, is how its number is written. -/
theorem padded_ofLE {m : ℕ} {bs : List UInt8} (hm : m ≤ bs.length)
    (hlast : m < bs.length → bs.getLast? ≠ some 0) : padded m (ofLE bs) = bs := by
  induction bs generalizing m with
  | nil =>
    obtain rfl : m = 0 := by simpa using hm
    simp
  | cons b bs ih =>
    rw [List.length_cons] at hm hlast
    have hround : 0 < m ∨ ofLE (b :: bs) ≠ 0 := by
      rcases Nat.eq_zero_or_pos m with rfl | hpos
      · -- nothing is padded: the number is positive, its highest byte being non-zero
        right
        intro hzero
        apply hlast (by omega)
        have hne : b :: bs ≠ [] := List.cons_ne_nil _ _
        rw [List.getLast?_eq_some_getLast hne]
        have hsplit := List.dropLast_append_getLast hne
        have hval : 256 ^ (b :: bs).dropLast.length * ((b :: bs).getLast hne).toNat = 0 := by
          have := ofLE_append (b :: bs).dropLast [(b :: bs).getLast hne]
          rw [hsplit, hzero, ofLE_cons, ofLE_nil, Nat.mul_zero, Nat.add_zero] at this
          omega
        rcases Nat.mul_eq_zero.mp hval with hpow | hbyte
        · exact absurd hpow (by positivity)
        · exact congrArg some (UInt8.toNat_inj.mp hbyte)
      · exact Or.inl hpos
    rw [padded_succ hround, ofLE_cons]
    have hb : b.toNat < 256 := b.toNat_lt
    have hmod : (b.toNat + 256 * ofLE bs) % 256 = b.toNat := by omega
    have hdiv : (b.toNat + 256 * ofLE bs) / 256 = ofLE bs := by omega
    rw [hmod, hdiv, UInt8.ofNat_toNat, ih (by omega)]
    intro hlt hb0
    apply hlast (by omega)
    have hne : bs ≠ [] := by rintro rfl; cases hlt
    rwa [List.getLast?_cons_of_ne_nil hne]

/-- A byte string without a leading zero is how its number is written, most
significant byte first. -/
theorem toBE_ofBE {bs : List UInt8} (h : bs.head? ≠ some 0) : toBE (ofBE bs) = bs := by
  have hlast : bs.reverse.getLast? ≠ some 0 := by rwa [List.getLast?_reverse]
  have hpad := padded_ofLE (Nat.zero_le bs.reverse.length) fun _ => hlast
  rw [padded, Nat.zero_sub, List.replicate_zero, List.append_nil] at hpad
  rw [toBE, ofBE, hpad, List.reverse_reverse]

/-- A byte string is how its number is written in so many bytes. -/
theorem fixedBE_ofBE (bs : List UInt8) : fixedBE bs.length (ofBE bs) = bs := by
  have hpad := padded_ofLE (m := bs.length) (Nat.le_of_eq bs.length_reverse.symm)
    fun h => absurd h (by rw [List.length_reverse]; exact Nat.lt_irrefl _)
  rw [fixedBE, ofBE, hpad, List.reverse_reverse]

/-- Leading zeros bring the minimal bytes of a number back to a given length. -/
theorem replicate_append_toBE_ofBE (bs : List UInt8) :
    List.replicate (bs.length - (toBE (ofBE bs)).length) 0 ++ toBE (ofBE bs) = bs := by
  have hfixed := fixedBE_ofBE bs
  rwa [fixedBE, padded, List.reverse_append, List.reverse_replicate, ← length_toBE] at hfixed

/-- The minimal bytes of a number do not start with zero. -/
theorem head?_toBE_ne (v : ℕ) : (toBE v).head? ≠ some 0 := by
  rcases Nat.eq_zero_or_pos v with rfl | hv
  · simp [toBE]
  · have h := getLast?_padded_ne (m := 0) (v := v) (by
      rw [padded_succ (Or.inr (by omega)), List.length_cons]
      omega)
    rw [padded, Nat.zero_sub, List.replicate_zero, List.append_nil] at h
    rwa [toBE, List.head?_reverse]

theorem ofBE_cons (b : UInt8) (bs : List UInt8) :
    ofBE (b :: bs) = b.toNat * 256 ^ bs.length + ofBE bs := by
  rw [ofBE, List.reverse_cons, ofLE_append, List.length_reverse, ofLE_cons, ofLE_nil, ofBE]
  ring

theorem ofBE_append (as bs : List UInt8) :
    ofBE (as ++ bs) = ofBE as * 256 ^ bs.length + ofBE bs := by
  rw [ofBE, List.reverse_append, ofLE_append, List.length_reverse, ofBE, ofBE]
  ring

/-- Trailing zeros shift the number. -/
theorem ofBE_append_replicate_zero (bs : List UInt8) (n : ℕ) :
    ofBE (bs ++ List.replicate n 0) = ofBE bs * 256 ^ n := by
  rw [ofBE_append, List.length_replicate]
  simp [ofBE]

/-- A positive number is shifted by trailing zeros. -/
theorem toBE_mul_pow {v : ℕ} (hv : 0 < v) (n : ℕ) :
    toBE (v * 256 ^ n) = toBE v ++ List.replicate n 0 := by
  have hne : toBE v ≠ [] := by
    intro hnil
    have hzero := congrArg ofBE hnil
    rw [ofBE_toBE] at hzero
    exact hv.ne' hzero
  have hhead : (toBE v ++ List.replicate n 0).head? ≠ some 0 := by
    rw [List.head?_append_of_ne_nil _ hne]
    exact head?_toBE_ne v
  rw [← toBE_ofBE hhead, ofBE_append_replicate_zero, ofBE_toBE]

/-- The first digit decides. -/
theorem mul_add_lt_mul_add {p d e r s : ℕ} (hde : d < e) (hr : r < p) :
    d * p + r < e * p + s :=
  calc d * p + r < d * p + p := Nat.add_lt_add_left hr _
    _ = (d + 1) * p := (Nat.succ_mul d p).symm
    _ ≤ e * p := Nat.mul_le_mul_right p hde
    _ ≤ e * p + s := Nat.le_add_right _ _

/-- Byte strings of one length are ordered as their numbers. -/
theorem lt_iff_ofBE_lt {as bs : List UInt8} (h : as.length = bs.length) :
    as < bs ↔ ofBE as < ofBE bs := by
  induction as generalizing bs with
  | nil =>
    obtain rfl := List.length_eq_zero_iff.mp h.symm
    simp
  | cons a as ih =>
    obtain ⟨b, bs, rfl⟩ := List.exists_cons_of_length_eq_add_one h.symm
    have hlen : as.length = bs.length := Nat.succ.inj h
    have has := ofBE_lt as
    have hbs := ofBE_lt bs
    rw [List.cons_lt_cons_iff, ih hlen, ofBE_cons, ofBE_cons, UInt8.lt_iff_toNat_lt,
      ← UInt8.toNat_inj]
    rw [hlen] at has ⊢
    generalize 256 ^ bs.length = p at *
    refine ⟨?_, ?_⟩
    · rintro (hlt | ⟨heq, hlt⟩)
      · exact mul_add_lt_mul_add hlt has
      · rw [heq]
        omega
    · intro hlt
      rcases Nat.lt_trichotomy a.toNat b.toNat with hab | hab | hab
      · exact .inl hab
      · rw [hab] at hlt
        exact .inr ⟨hab, by omega⟩
      · exact absurd hlt (Nat.lt_asymm (mul_add_lt_mul_add hab hbs))

end ByteNumber
