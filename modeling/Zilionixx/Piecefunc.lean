import Mathlib.Data.List.Chain
import Zilionixx.CheckedWord
import Zilionixx.Interpolation

/-!
# `piecefunc`: piecewise linear functions

Ratios are integers with six decimal digits. `NewFunc` panics unless there are two
dots and their X coordinates increase; here this is part of a `Func`.
-/

namespace Zilionixx

namespace Piecefunc

/-- `DecimalUnit` -/
def decimalUnit : UInt64 := 1000000

/-- `Dot` -/
structure Dot where
  x : UInt64
  y : UInt64

/-- `Func`, as it is made by `NewFunc` -/
structure Func where
  dots : List Dot
  two_le : 2 ≤ dots.length
  increasing : dots.IsChain fun p q => p.x < q.x

/-- `NewFunc`; `none` is the panic -/
def newFunc (dots : List Dot) : Option Func :=
  if h : 2 ≤ dots.length ∧ dots.IsChain fun p q => p.x < q.x then some ⟨dots, h.1, h.2⟩ else none

/-- `Mul` -/
def mul (a b : UInt64) : UInt64 := a * b / decimalUnit

/-- `Div` -/
def div (a b : UInt64) : UInt64 := a * decimalUnit / b

namespace Func

variable (f : Func)

/-- The start of the piece for `x`: the first inner dot beyond `x` ends it, and if there is
none, it is the last piece. -/
def piece (x : UInt64) : ℕ :=
  match f.dots.tail.dropLast.findIdx? fun dot => dot.x > x with
  | some i => i
  | none => f.dots.length - 2

theorem piece_succ_lt (x : UInt64) : f.piece x + 1 < f.dots.length := by
  have htwo := f.two_le
  unfold piece
  split
  · rename_i i hi
    have hlt := (List.findIdx?_eq_some_iff_getElem.mp hi).1
    rw [List.length_dropLast, List.length_tail] at hlt
    omega
  · omega

/-- `Get` -/
def get (x : UInt64) : UInt64 :=
  let p0 := f.dots.get ⟨f.piece x, Nat.lt_of_succ_lt (f.piece_succ_lt x)⟩
  let p1 := f.dots.get ⟨f.piece x + 1, f.piece_succ_lt x⟩
  -- linearly interpolate
  let ratio := div (x - p0.x) (p1.x - p0.x)
  mul p0.y (decimalUnit - ratio) + mul p1.y ratio

/-! ## Where the piece is -/

/-- The dot where the piece for `x` starts. -/
def pieceStart (x : UInt64) : Dot := f.dots.get ⟨f.piece x, Nat.lt_of_succ_lt (f.piece_succ_lt x)⟩

/-- The dot where the piece for `x` ends. -/
def pieceEnd (x : UInt64) : Dot := f.dots.get ⟨f.piece x + 1, f.piece_succ_lt x⟩

variable {f} {x v : UInt64}

theorem pieceStart_lt_pieceEnd : (f.pieceStart x).x < (f.pieceEnd x).x :=
  f.increasing.getElem _ (f.piece_succ_lt x)

/-- An inner dot is beyond `x`, the ones before it are not. -/
theorem piece_of_some {i : ℕ}
    (h : (f.dots.tail.dropLast.findIdx? fun dot => dot.x > x) = some i) : f.piece x = i := by
  rw [piece, h]

theorem piece_of_none (h : (f.dots.tail.dropLast.findIdx? fun dot => dot.x > x) = none) :
    f.piece x = f.dots.length - 2 := by
  rw [piece, h]

theorem getElem_inner {i : ℕ} (h : i < f.dots.tail.dropLast.length) :
    ∃ hi : i + 1 < f.dots.length, f.dots.tail.dropLast[i] = f.dots.get ⟨i + 1, hi⟩ := by
  have hlen := h
  rw [List.length_dropLast, List.length_tail] at hlen
  refine ⟨by omega, ?_⟩
  rw [List.getElem_dropLast, List.getElem_tail]
  rfl

/-- The inner dots up to the start of the piece are not beyond `x`. -/
theorem inner_le {i : ℕ} (hi : i + 1 ≤ f.piece x) (hlt : i + 1 < f.dots.length) :
    (f.dots.get ⟨i + 1, hlt⟩).x ≤ x := by
  have hpiece := f.piece_succ_lt x
  have hinner : i < f.dots.tail.dropLast.length := by
    rw [List.length_dropLast, List.length_tail]
    omega
  obtain ⟨_, hget⟩ := getElem_inner hinner
  rw [← hget]
  cases hfind : f.dots.tail.dropLast.findIdx? fun dot => dot.x > x with
  | some j =>
    rw [piece_of_some hfind] at hi
    have hbefore := (List.findIdx?_eq_some_iff_getElem.mp hfind).2.2 i (by omega)
    simpa using hbefore
  | none =>
    have hnone := List.findIdx?_eq_none_iff.mp hfind _ (List.getElem_mem hinner)
    simpa using hnone

theorem pieceStart_eq {i : ℕ} (h : f.piece x = i) (hi : i < f.dots.length) :
    f.pieceStart x = f.dots.get ⟨i, hi⟩ := by
  subst h
  rfl

theorem pieceEnd_eq {i : ℕ} (h : f.piece x + 1 = i) (hi : i < f.dots.length) :
    f.pieceEnd x = f.dots.get ⟨i, hi⟩ := by
  subst h
  rfl

theorem pieceStart_le (h0 : 0 < f.dots.length) (hfirst : (f.dots.get ⟨0, h0⟩).x ≤ x) :
    (f.pieceStart x).x ≤ x := by
  have hlt := f.piece_succ_lt x
  cases hpiece : f.piece x with
  | zero =>
    rw [pieceStart_eq hpiece h0]
    exact hfirst
  | succ i =>
    rw [hpiece] at hlt
    rw [pieceStart_eq hpiece (Nat.lt_of_succ_lt hlt)]
    exact inner_le (Nat.le_of_eq hpiece.symm) _

/-- The end of a piece is beyond `x`, unless it is the last piece. -/
theorem lt_pieceEnd (h : f.piece x + 2 < f.dots.length) : x < (f.pieceEnd x).x := by
  cases hfind : f.dots.tail.dropLast.findIdx? fun dot => dot.x > x with
  | some j =>
    obtain ⟨hj, hbeyond, -⟩ := List.findIdx?_eq_some_iff_getElem.mp hfind
    obtain ⟨hlt, hget⟩ := getElem_inner hj
    rw [hget, decide_eq_true_eq] at hbeyond
    rw [pieceEnd_eq (congrArg (· + 1) (piece_of_some hfind)) hlt]
    exact hbeyond
  | none =>
    rw [piece_of_none hfind] at h
    omega

theorem le_pieceEnd (hlen : f.dots.length - 1 < f.dots.length)
    (hlast : x ≤ (f.dots.get ⟨f.dots.length - 1, hlen⟩).x) : x ≤ (f.pieceEnd x).x := by
  by_cases hinner : f.piece x + 2 < f.dots.length
  · exact UInt64.le_of_lt (lt_pieceEnd hinner)
  · have hlt := f.piece_succ_lt x
    have hend : f.piece x + 1 = f.dots.length - 1 := by omega
    rw [pieceEnd_eq hend hlen]
    exact hlast

theorem x_lt_x {i j : ℕ} (hij : i < j) (hj : j < f.dots.length) :
    (f.dots.get ⟨i, Nat.lt_trans hij hj⟩).x < (f.dots.get ⟨j, hj⟩).x := by
  have hpairwise : f.dots.Pairwise fun p q => p.x < q.x := by
    have htrans : IsTrans Dot fun p q => p.x < q.x := ⟨fun _ _ _ => UInt64.lt_trans⟩
    exact List.isChain_iff_pairwise.mp f.increasing
  exact List.pairwise_iff_get.mp hpairwise _ _ hij

theorem x_le_x {i j : ℕ} (hij : i ≤ j) (hj : j < f.dots.length) :
    (f.dots.get ⟨i, Nat.lt_of_le_of_lt hij hj⟩).x ≤ (f.dots.get ⟨j, hj⟩).x := by
  rcases Nat.lt_or_eq_of_le hij with hlt | rfl
  · exact UInt64.le_of_lt (x_lt_x hlt hj)
  · exact UInt64.le_refl _

/-- A piece that contains `x` is the one that is used, or the one before it. -/
theorem piece_cases {i : ℕ} (hi : i + 1 < f.dots.length)
    (hstart : (f.dots.get ⟨i, Nat.lt_of_succ_lt hi⟩).x ≤ x)
    (hend : x ≤ (f.dots.get ⟨i + 1, hi⟩).x) :
    f.piece x = i ∨ f.piece x = i + 1 ∧ x = (f.dots.get ⟨i + 1, hi⟩).x := by
  have hlt := f.piece_succ_lt x
  rcases Nat.lt_trichotomy (f.piece x) i with hbefore | hsame | hafter
  · -- the piece would end before `x`
    have hbeyond := lt_pieceEnd (f := f) (x := x) (by omega)
    rw [pieceEnd_eq rfl hlt] at hbeyond
    have hle := UInt64.le_trans (x_le_x hbefore (Nat.lt_of_succ_lt hi)) hstart
    exact absurd hbeyond (UInt64.not_lt.mpr hle)
  · exact .inl hsame
  · have hinner := inner_le (f := f) (x := x) (i := i) hafter hi
    have heq : x = (f.dots.get ⟨i + 1, hi⟩).x := UInt64.le_antisymm hend hinner
    refine .inr ⟨?_, heq⟩
    by_contra hne
    have hbetween : i + 1 < f.piece x := by omega
    have hstrict := x_lt_x hbetween (Nat.lt_of_succ_lt hlt)
    rw [← heq] at hstrict
    have hfirst := UInt64.le_trans (x_le_x (Nat.zero_le i) (Nat.lt_of_succ_lt hi)) hstart
    exact absurd hstrict (UInt64.not_lt.mpr (pieceStart_le (by omega) hfirst))

end Func

/-! ## Without wrap-around -/

/-- `Mul`, with nothing that wraps around -/
def mulChecked (a b : UInt64) : Option UInt64 := (CheckedWord.mul a b).map (· / decimalUnit)

/-- `Div`, with nothing that wraps around -/
def divChecked (a b : UInt64) : Option UInt64 := (CheckedWord.mul a decimalUnit).map (· / b)

/-- `Get`, with nothing that wraps around -/
def Func.getChecked (f : Func) (x : UInt64) : Option UInt64 := do
  let offset ← CheckedWord.sub x (f.pieceStart x).x
  let width ← CheckedWord.sub (f.pieceEnd x).x (f.pieceStart x).x
  let ratio ← divChecked offset width
  let rest ← CheckedWord.sub decimalUnit ratio
  let y0 ← mulChecked (f.pieceStart x).y rest
  let y1 ← mulChecked (f.pieceEnd x).y ratio
  CheckedWord.add y0 y1

/-- `Get` in unbounded integers -/
def Func.value (f : Func) (x : UInt64) : ℕ :=
  Interpolation.value 1000000 (f.pieceStart x).x.toNat (f.pieceStart x).y.toNat
    (f.pieceEnd x).x.toNat (f.pieceEnd x).y.toNat x.toNat

theorem eq_mulChecked {a b c : UInt64} (h : mulChecked a b = some c) : mul a b = c := by
  obtain ⟨product, hproduct, rfl⟩ := Option.map_eq_some_iff.mp h
  rw [mul, CheckedWord.eq_mul hproduct]

theorem eq_divChecked {a b c : UInt64} (h : divChecked a b = some c) : div a b = c := by
  obtain ⟨product, hproduct, rfl⟩ := Option.map_eq_some_iff.mp h
  rw [div, CheckedWord.eq_mul hproduct]

theorem exists_mulChecked {a b : UInt64} (h : a.toNat * b.toNat < 2 ^ 64) :
    ∃ c, mulChecked a b = some c ∧ c.toNat = a.toNat * b.toNat / 1000000 := by
  obtain ⟨product, hproduct, hvalue⟩ := CheckedWord.exists_mul h
  refine ⟨product / decimalUnit, by rw [mulChecked, hproduct, Option.map_some], ?_⟩
  rw [UInt64.toNat_div, hvalue]
  rfl

theorem exists_divChecked {a b : UInt64} (h : a.toNat * 1000000 < 2 ^ 64) :
    ∃ c, divChecked a b = some c ∧ c.toNat = a.toNat * 1000000 / b.toNat := by
  obtain ⟨product, hproduct, hvalue⟩ := CheckedWord.exists_mul (b := decimalUnit) h
  refine ⟨product / b, by rw [divChecked, hproduct, Option.map_some], ?_⟩
  rw [UInt64.toNat_div, hvalue]
  rfl

namespace Func

variable {f : Func} {x v : UInt64}

/-- If nothing wraps around, then `Get` returns the same. -/
theorem get_of_getChecked (h : f.getChecked x = some v) : f.get x = v := by
  obtain ⟨offset, hoffset, h⟩ := Option.bind_eq_some_iff.mp h
  obtain ⟨width, hwidth, h⟩ := Option.bind_eq_some_iff.mp h
  obtain ⟨ratio, hratio, h⟩ := Option.bind_eq_some_iff.mp h
  obtain ⟨rest, hrest, h⟩ := Option.bind_eq_some_iff.mp h
  obtain ⟨y0, hy0, h⟩ := Option.bind_eq_some_iff.mp h
  obtain ⟨y1, hy1, h⟩ := Option.bind_eq_some_iff.mp h
  rw [← CheckedWord.eq_add h, ← eq_mulChecked hy0, ← eq_mulChecked hy1, ← CheckedWord.eq_sub hrest,
    ← eq_divChecked hratio, ← CheckedWord.eq_sub hwidth, ← CheckedWord.eq_sub hoffset]
  rfl

/-- The value where the piece starts. -/
theorem value_of_pieceStart (h : (f.pieceStart x).x = x) :
    f.value x = (f.pieceStart x).y.toNat := by
  rw [value, h]
  exact Interpolation.value_left (by decide)

/-- The value where the piece ends. -/
theorem value_of_pieceEnd (h : (f.pieceEnd x).x = x) : f.value x = (f.pieceEnd x).y.toNat := by
  have hlt := UInt64.lt_iff_toNat_lt.mp (pieceStart_lt_pieceEnd (f := f) (x := x))
  rw [h] at hlt
  rw [value, h]
  exact Interpolation.value_right (by decide) hlt

/-- In unbounded integers the value is between those at the ends of the piece, but for one. -/
theorem value_between (hend : x ≤ (f.pieceEnd x).x) :
    min (f.pieceStart x).y.toNat (f.pieceEnd x).y.toNat ≤ f.value x + 1 ∧
      f.value x ≤ max (f.pieceStart x).y.toNat (f.pieceEnd x).y.toNat := by
  have hlt := UInt64.lt_iff_toNat_lt.mp (pieceStart_lt_pieceEnd (f := f) (x := x))
  have hratio : Interpolation.ratio 1000000 (f.pieceStart x).x.toNat (f.pieceEnd x).x.toNat
      x.toNat ≤ 1000000 := Interpolation.ratio_le hlt (UInt64.le_iff_toNat_le.mp hend)
  exact ⟨Interpolation.le_mean_add_one (by decide) hratio (Nat.min_le_left _ _)
      (Nat.min_le_right _ _),
    Interpolation.mean_le (by decide) hratio (Nat.le_max_left _ _) (Nat.le_max_right _ _)⟩

/-- In a piece that is not too long, with values that are not too large, nothing wraps around. -/
theorem exists_getChecked (hstart : (f.pieceStart x).x ≤ x) (hend : x ≤ (f.pieceEnd x).x)
    (hlong : (x.toNat - (f.pieceStart x).x.toNat) * 1000000 < 2 ^ 64)
    (hy0 : (f.pieceStart x).y.toNat * 1000000 < 2 ^ 64)
    (hy1 : (f.pieceEnd x).y.toNat * 1000000 < 2 ^ 64) :
    ∃ v, f.getChecked x = some v ∧ v.toNat = f.value x := by
  have hlt := UInt64.lt_iff_toNat_lt.mp (pieceStart_lt_pieceEnd (f := f) (x := x))
  have hbetween := (value_between hend).2
  rw [UInt64.le_iff_toNat_le] at hstart hend
  obtain ⟨offset, hoffset, hoffsetNat⟩ := CheckedWord.exists_sub hstart
  obtain ⟨width, hwidth, hwidthNat⟩ := CheckedWord.exists_sub (Nat.le_of_lt hlt)
  obtain ⟨ratio, hratio, hratioNat⟩ := exists_divChecked (b := width) (hoffsetNat ▸ hlong)
  rw [hoffsetNat, hwidthNat] at hratioNat
  have hle : ratio.toNat ≤ 1000000 := hratioNat ▸ Interpolation.ratio_le hlt hend
  obtain ⟨rest, hrest, hrestNat⟩ := CheckedWord.exists_sub (a := decimalUnit) (b := ratio) hle
  have hrestLe : rest.toNat ≤ 1000000 := hrestNat ▸ Nat.sub_le _ _
  obtain ⟨z0, hz0, hz0Nat⟩ :=
    exists_mulChecked (Nat.lt_of_le_of_lt (Nat.mul_le_mul_left _ hrestLe) hy0)
  obtain ⟨z1, hz1, hz1Nat⟩ :=
    exists_mulChecked (Nat.lt_of_le_of_lt (Nat.mul_le_mul_left _ hle) hy1)
  have hvalue : z0.toNat + z1.toNat = f.value x := by
    rw [hz0Nat, hz1Nat, hrestNat, hratioNat]
    rfl
  have hsum : z0.toNat + z1.toNat < 2 ^ 64 := by
    rw [hvalue]
    exact Nat.lt_of_le_of_lt hbetween (Nat.max_lt.mpr ⟨UInt64.toNat_lt _, UInt64.toNat_lt _⟩)
  obtain ⟨v, hv, hvNat⟩ := CheckedWord.exists_add hsum
  refine ⟨v, ?_, hvNat.trans hvalue⟩
  refine Option.bind_eq_some_iff.mpr ⟨offset, hoffset, ?_⟩
  refine Option.bind_eq_some_iff.mpr ⟨width, hwidth, ?_⟩
  refine Option.bind_eq_some_iff.mpr ⟨ratio, hratio, ?_⟩
  refine Option.bind_eq_some_iff.mpr ⟨rest, hrest, ?_⟩
  refine Option.bind_eq_some_iff.mpr ⟨z0, hz0, ?_⟩
  exact Option.bind_eq_some_iff.mpr ⟨z1, hz1, hv⟩

/-- The pieces are not too long, and the values are not too large. -/
structure Moderate (f : Func) : Prop where
  width : ∀ i (hi : i + 1 < f.dots.length),
    (f.dots[i + 1].x.toNat - f.dots[i].x.toNat) * 1000000 < 2 ^ 64
  value : ∀ dot ∈ f.dots, dot.y.toNat * 1000000 < 2 ^ 64

/-- In a piece nothing wraps around. -/
theorem Moderate.getChecked (h : f.Moderate) (hstart : (f.pieceStart x).x ≤ x)
    (hend : x ≤ (f.pieceEnd x).x) :
    f.getChecked x = some (f.get x) ∧ (f.get x).toNat = f.value x := by
  have hlong : (x.toNat - (f.pieceStart x).x.toNat) * 1000000 < 2 ^ 64 := by
    refine Nat.lt_of_le_of_lt (Nat.mul_le_mul_right _ ?_) (h.width _ (f.piece_succ_lt x))
    exact Nat.sub_le_sub_right (UInt64.le_iff_toNat_le.mp hend) _
  obtain ⟨v, hv, hvalue⟩ := exists_getChecked hstart hend hlong
    (h.value _ (List.get_mem _ _)) (h.value _ (List.get_mem _ _))
  rw [get_of_getChecked hv]
  exact ⟨hv, hvalue⟩

/-- Where the piece starts. -/
theorem Moderate.get_of_pieceStart (h : f.Moderate) (hx : (f.pieceStart x).x = x) :
    f.getChecked x = some (f.get x) ∧ f.get x = (f.pieceStart x).y := by
  have hle : x ≤ (f.pieceEnd x).x :=
    UInt64.le_trans (UInt64.le_of_eq hx.symm) (UInt64.le_of_lt pieceStart_lt_pieceEnd)
  obtain ⟨hchecked, hvalue⟩ := h.getChecked (UInt64.le_of_eq hx) hle
  rw [← UInt64.toNat_inj, hvalue]
  exact ⟨hchecked, value_of_pieceStart hx⟩

/-- Where the piece ends. -/
theorem Moderate.get_of_pieceEnd (h : f.Moderate) (hx : (f.pieceEnd x).x = x) :
    f.get x = (f.pieceEnd x).y := by
  have hle : (f.pieceStart x).x ≤ x :=
    UInt64.le_trans (UInt64.le_of_lt pieceStart_lt_pieceEnd) (UInt64.le_of_eq hx)
  rw [← UInt64.toNat_inj, (h.getChecked hle (UInt64.le_of_eq hx.symm)).2]
  exact value_of_pieceEnd hx

/-- On a piece the value is between those of its ends, but for one. -/
theorem Moderate.between (h : f.Moderate) {i : ℕ} (hi : i + 1 < f.dots.length)
    (hstart : f.dots[i].x ≤ x) (hend : x ≤ f.dots[i + 1].x) :
    f.getChecked x = some (f.get x) ∧
      min f.dots[i].y.toNat f.dots[i + 1].y.toNat ≤ (f.get x).toNat + 1 ∧
      (f.get x).toNat ≤ max f.dots[i].y.toNat f.dots[i + 1].y.toNat := by
  rcases piece_cases hi hstart hend with hpiece | ⟨hpiece, heq⟩
  · have hleft : f.pieceStart x = f.dots[i] := pieceStart_eq hpiece _
    have hright : f.pieceEnd x = f.dots[i + 1] := pieceEnd_eq (congrArg (· + 1) hpiece) hi
    rw [← hleft] at hstart ⊢
    rw [← hright] at hend ⊢
    obtain ⟨hchecked, hvalue⟩ := h.getChecked hstart hend
    rw [hvalue]
    exact ⟨hchecked, value_between hend⟩
  · -- the next piece starts here
    have hleft : f.pieceStart x = f.dots[i + 1] := pieceStart_eq hpiece hi
    obtain ⟨hchecked, hget⟩ := h.get_of_pieceStart ((congrArg Dot.x hleft).trans heq.symm)
    rw [hget, hleft]
    rw [hget, hleft] at hchecked
    exact ⟨hchecked, Nat.le_succ_of_le (Nat.min_le_right _ _), Nat.le_max_right _ _⟩

/-- A dot is hit. -/
theorem Moderate.get_dot (h : f.Moderate) {dot : Dot} (hdot : dot ∈ f.dots) :
    f.get dot.x = dot.y := by
  obtain ⟨i, hi, rfl⟩ := List.getElem_of_mem hdot
  have htwo := f.two_le
  by_cases hlast : i + 1 < f.dots.length
  · -- the piece starts at the dot
    have hlt : f.dots[i].x < f.dots[i + 1].x := x_lt_x (Nat.lt_succ_self i) hlast
    rcases piece_cases hlast (UInt64.le_refl _) (UInt64.le_of_lt hlt) with hpiece | ⟨-, heq⟩
    · have hleft : f.pieceStart f.dots[i].x = f.dots[i] := pieceStart_eq hpiece hi
      rw [(h.get_of_pieceStart (congrArg Dot.x hleft)).2, hleft]
    · exact absurd heq (UInt64.ne_of_lt hlt)
  · -- the last piece ends at the last dot
    obtain ⟨j, rfl⟩ : ∃ j, i = j + 1 := ⟨i - 1, by omega⟩
    have hlt : f.dots[j].x < f.dots[j + 1].x := x_lt_x (Nat.lt_succ_self j) hi
    rcases piece_cases hi (UInt64.le_of_lt hlt) (UInt64.le_refl _) with hpiece | ⟨hpiece, -⟩
    · have hright : f.pieceEnd f.dots[j + 1].x = f.dots[j + 1] :=
        pieceEnd_eq (congrArg (· + 1) hpiece) hi
      rw [h.get_of_pieceEnd (congrArg Dot.x hright), hright]
    · have hpieceLt := f.piece_succ_lt f.dots[j + 1].x
      omega

/-- Too far from the start of the piece, the ratio wraps around. -/
theorem getChecked_eq_none (hstart : (f.pieceStart x).x ≤ x)
    (hlong : 2 ^ 64 ≤ (x.toNat - (f.pieceStart x).x.toNat) * 1000000) : f.getChecked x = none := by
  rw [Option.eq_none_iff_forall_ne_some]
  intro v h
  rw [UInt64.le_iff_toNat_le] at hstart
  obtain ⟨offset, hoffset, h⟩ := Option.bind_eq_some_iff.mp h
  obtain ⟨width, -, h⟩ := Option.bind_eq_some_iff.mp h
  obtain ⟨ratio, hratio, -⟩ := Option.bind_eq_some_iff.mp h
  obtain ⟨offset', hoffset', hoffsetNat⟩ := CheckedWord.exists_sub hstart
  rw [hoffset] at hoffset'
  obtain rfl := Option.some.inj hoffset'
  rw [← hoffsetNat] at hlong
  rw [divChecked, CheckedWord.mul_eq_none hlong] at hratio
  cases hratio

end Func

/-! ## Functions that are accepted -/

theorem dots_of_newFunc {dots : List Dot} {f : Func} (h : newFunc dots = some f) :
    f.dots = dots := by
  rw [newFunc] at h
  split at h
  · cases h
    rfl
  · cases h

/-- **Interpolation.** Let the dots be accepted by `NewFunc`, with pieces that are not too long and
values that are not too large. Then `Get` hits the dots. Each `x` between the first and the last dot
is on a piece, and on all pieces that it is on, its value is at most the larger one of those at the
ends, and at least the smaller one, less one; nothing wraps around. -/
theorem interpolation_hits_dots (dots : List Dot) (f : Func) (hf : newFunc dots = some f)
    (hwidth : ∀ i (hi : i + 1 < dots.length),
      (dots[i + 1].x.toNat - dots[i].x.toNat) * 1000000 < 2 ^ 64)
    (hvalue : ∀ dot ∈ dots, dot.y.toNat * 1000000 < 2 ^ 64) :
    (∀ dot ∈ dots, f.get dot.x = dot.y) ∧
      (∀ x, (∀ first ∈ dots.head?, first.x ≤ x) → (∀ last ∈ dots.getLast?, x ≤ last.x) →
        ∃ i, ∃ hi : i + 1 < dots.length, dots[i].x ≤ x ∧ x ≤ dots[i + 1].x) ∧
      ∀ x i (hi : i + 1 < dots.length), dots[i].x ≤ x → x ≤ dots[i + 1].x →
        f.getChecked x = some (f.get x) ∧
          min dots[i].y.toNat dots[i + 1].y.toNat ≤ (f.get x).toNat + 1 ∧
          (f.get x).toNat ≤ max dots[i].y.toNat dots[i + 1].y.toNat := by
  obtain rfl := dots_of_newFunc hf
  have hmoderate : f.Moderate := ⟨hwidth, hvalue⟩
  have htwo := f.two_le
  refine ⟨fun dot hdot => hmoderate.get_dot hdot, ?_, ?_⟩
  · intro x hfirst hlast
    refine ⟨f.piece x, f.piece_succ_lt x, ?_, ?_⟩
    · refine Func.pieceStart_le (by omega) (hfirst _ ?_)
      rw [List.head?_eq_getElem?]
      exact List.getElem?_eq_getElem _
    · refine Func.le_pieceEnd (by omega) (hlast _ ?_)
      rw [List.getLast?_eq_getElem?]
      exact List.getElem?_eq_getElem _
  · intro x i hi hstart hend
    exact hmoderate.between hi hstart hend

/-- A function that goes up and down again. -/
def sampleDots : List Dot := [⟨0, 10⟩, ⟨3, 17⟩, ⟨10, 2⟩]

theorem interpolation_hits_dots_sampleDots :
    ∃ f, newFunc sampleDots = some f ∧ f.get 3 = 17 ∧ 2 ≤ (f.get 5).toNat + 1 ∧
      (f.get 5).toNat ≤ 17 := by
  have haccepted : (newFunc sampleDots).isSome = true := by decide
  obtain ⟨f, hf⟩ := Option.isSome_iff_exists.mp haccepted
  have hwidth : ∀ i (hi : i + 1 < sampleDots.length),
      (sampleDots[i + 1].x.toNat - sampleDots[i].x.toNat) * 1000000 < 2 ^ 64 := by
    intro i hi
    have hle : ∀ dot ∈ sampleDots, dot.x.toNat ≤ 10 := by simp [sampleDots]
    have hnext := hle _ (List.getElem_mem hi)
    omega
  have hvalue : ∀ dot ∈ sampleDots, dot.y.toNat * 1000000 < 2 ^ 64 := by
    simp [sampleDots]
  obtain ⟨hdots, -, hbetween⟩ := interpolation_hits_dots sampleDots f hf hwidth hvalue
  obtain ⟨-, hmin, hmax⟩ := hbetween 5 1 (by decide) (by decide) (by decide)
  refine ⟨f, hf, hdots ⟨3, 17⟩ (by simp [sampleDots]), ?_, ?_⟩
  · simpa [sampleDots] using hmin
  · simpa [sampleDots] using hmax

end Piecefunc

end Zilionixx
