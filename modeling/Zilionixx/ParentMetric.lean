import Zilionixx.Piecefunc
import Zilionixx.Rules

/-!
# The metric of parents

The emitter prefers parents through which it observes many new events of heavy validators. How
much a validator counts is a piecewise linear function of how far its last event is ahead of the
median, and `updMetric` is a difference of two values of it, in unsigned integers. The values
are rounded, and in the last, long piece the function goes down by one at first.
-/

namespace Zilionixx

/-- `GetWeightByIdx`, which panics beyond the last index -/
def Validators.getWeightByIdx (vv : Validators) (validatorIdx : ℕ) : Option UInt32 :=
  vv.sortedIDs[validatorIdx]?.map vv.get

namespace ParentMetric

open Piecefunc

/-- `scalarUpdMetricF` -/
def scalarUpdMetricF : Func where
  dots := [⟨0, 0⟩, ⟨1000000, 660000⟩, ⟨2000000, 800000⟩, ⟨8000000, 990000⟩, ⟨100000000, 999000⟩,
    ⟨4294967295000000, 999900⟩]
  two_le := by decide
  increasing := by decide

/-- `scalarUpdMetric`; to divide by no weight is a panic -/
def scalarUpdMetric (diff weight totalWeight : UInt32) : Option UInt64 :=
  if totalWeight = 0 then none
  else some (scalarUpdMetricF.get (diff.toUInt64 * decimalUnit) * weight.toUInt64 /
    totalWeight.toUInt64)

/-- `updMetric` -/
def updMetric (median cur upd : UInt32) (validatorIdx : ℕ) (validators : Validators) :
    Option UInt64 :=
  if upd ≤ median ∨ upd ≤ cur then some 0
  else do
    let weight ← validators.getWeightByIdx validatorIdx
    if median < cur then do
      let updated ← scalarUpdMetric (upd - median) weight validators.totalWeight
      let current ← scalarUpdMetric (cur - median) weight validators.totalWeight
      some (updated - current)
    else scalarUpdMetric (upd - median) weight validators.totalWeight

/-- `scalarUpdMetric`, with nothing that wraps around -/
def scalarUpdMetricChecked (diff weight totalWeight : UInt32) : Option UInt64 := do
  let x ← CheckedWord.mul diff.toUInt64 decimalUnit
  let y ← scalarUpdMetricF.getChecked x
  let product ← CheckedWord.mul y weight.toUInt64
  if totalWeight = 0 then none else some (product / totalWeight.toUInt64)

/-- `updMetric`, with nothing that wraps around -/
def updMetricChecked (median cur upd : UInt32) (validatorIdx : ℕ) (validators : Validators) :
    Option UInt64 :=
  if upd ≤ median ∨ upd ≤ cur then some 0
  else do
    let weight ← validators.getWeightByIdx validatorIdx
    let ahead ← CheckedWord.sub32 upd median
    let updated ← scalarUpdMetricChecked ahead weight validators.totalWeight
    if median < cur then do
      let before ← CheckedWord.sub32 cur median
      let current ← scalarUpdMetricChecked before weight validators.totalWeight
      CheckedWord.sub updated current
    else some updated

/-! ## If nothing wraps around -/

variable {diff weight totalWeight median cur upd : UInt32} {validatorIdx : ℕ}
  {validators : Validators} {v : UInt64} {d : ℕ}

theorem scalarUpdMetric_of_checked
    (h : scalarUpdMetricChecked diff weight totalWeight = some v) :
    scalarUpdMetric diff weight totalWeight = some v := by
  obtain ⟨x, hx, h⟩ := Option.bind_eq_some_iff.mp h
  obtain ⟨y, hy, h⟩ := Option.bind_eq_some_iff.mp h
  obtain ⟨product, hproduct, h⟩ := Option.bind_eq_some_iff.mp h
  rw [scalarUpdMetric, CheckedWord.eq_mul hx, Func.get_of_getChecked hy,
    CheckedWord.eq_mul hproduct]
  exact h

/-- If nothing wraps around, then `updMetric` returns the same. -/
theorem updMetric_of_checked
    (h : updMetricChecked median cur upd validatorIdx validators = some v) :
    updMetric median cur upd validatorIdx validators = some v := by
  rw [updMetricChecked] at h
  rw [updMetric]
  split at h
  · next hzero => rw [if_pos hzero, h]
  · next hzero =>
    rw [not_or, UInt32.not_le, UInt32.not_le] at hzero
    obtain ⟨weight, hweight, hthen⟩ := Option.bind_eq_some_iff.mp h
    obtain ⟨ahead, hahead, hthen⟩ := Option.bind_eq_some_iff.mp hthen
    obtain ⟨updated, hupdated, hlast⟩ := Option.bind_eq_some_iff.mp hthen
    rw [CheckedWord.sub32_of_le (UInt32.le_of_lt hzero.1)] at hahead
    obtain rfl := Option.some.inj hahead
    rw [if_neg (by rw [not_or, UInt32.not_le, UInt32.not_le]; exact hzero), hweight]
    simp only [Option.bind_eq_bind, Option.bind_some, scalarUpdMetric_of_checked hupdated]
    by_cases hcur : median < cur
    · rw [if_pos hcur] at hlast ⊢
      obtain ⟨before, hbefore, hthen⟩ := Option.bind_eq_some_iff.mp hlast
      obtain ⟨current, hcurrent, hsub⟩ := Option.bind_eq_some_iff.mp hthen
      rw [CheckedWord.sub32_of_le (UInt32.le_of_lt hcur)] at hbefore
      obtain rfl := Option.some.inj hbefore
      rw [scalarUpdMetric_of_checked hcurrent, Option.bind_some, CheckedWord.eq_sub hsub]
    · rw [if_neg hcur] at hlast ⊢
      exact hlast

/-! ## The values of the function -/

/-- The value for a whole number of events. -/
def unitValue (d : ℕ) : ℕ := scalarUpdMetricF.value (UInt64.ofNat (d * 1000000))

theorem unitValue_small : ∀ d < 100, unitValue d ≤ 998901 ∧ unitValue d ≤ unitValue (d + 1) := by
  decide +kernel

theorem toNat_units (hd : d < 2 ^ 32) : (UInt64.ofNat (d * 1000000)).toNat = d * 1000000 :=
  UInt64.toNat_ofNat_of_lt' (by rw [UInt64.size]; omega)

/-- From a hundred events on, it is the last piece. -/
theorem piece_of_large (h : 100 ≤ d) (hd : d < 2 ^ 32) :
    scalarUpdMetricF.piece (UInt64.ofNat (d * 1000000)) = 4 := by
  refine Func.piece_of_none (List.findIdx?_eq_none_iff.mpr ?_)
  intro dot hdot
  have hinner : ∀ dot ∈ scalarUpdMetricF.dots.tail.dropLast, dot.x.toNat ≤ 100000000 := by decide
  have hle := hinner dot hdot
  rw [decide_eq_false_iff_not, gt_iff_lt, UInt64.lt_iff_toNat_lt, toNat_units hd]
  omega

theorem pieceStart_of_large (h : 100 ≤ d) (hd : d < 2 ^ 32) :
    scalarUpdMetricF.pieceStart (UInt64.ofNat (d * 1000000)) = ⟨100000000, 999000⟩ :=
  Func.pieceStart_eq (piece_of_large h hd) (by decide)

theorem pieceEnd_of_large (h : 100 ≤ d) (hd : d < 2 ^ 32) :
    scalarUpdMetricF.pieceEnd (UInt64.ofNat (d * 1000000)) = ⟨4294967295000000, 999900⟩ :=
  Func.pieceEnd_eq (congrArg (· + 1) (piece_of_large h hd)) (by decide)

/-- How far it is in the last piece, in units. -/
def lastRatio (d : ℕ) : ℕ := (d - 100) * 1000000 / 4294967195

/-- Above 100, the value is on the last piece. -/
theorem unitValue_large (h : 100 ≤ d) (hd : d < 2 ^ 32) :
    unitValue d = Interpolation.mean 1000000 999000 999900 (lastRatio d) := by
  have hratio : Interpolation.ratio 1000000 100000000 4294967295000000 (d * 1000000) =
      lastRatio d := by
    rw [Interpolation.ratio, lastRatio]
    omega
  rw [unitValue, Func.value, pieceStart_of_large h hd, pieceEnd_of_large h hd, toNat_units hd,
    ← hratio]
  rfl

/-- Up to there the ratio is rounded to zero. -/
theorem unitValue_flat (h : 100 ≤ d) (hd : d ≤ 4394) : unitValue d = 999000 := by
  have hratio : lastRatio d = 0 := by
    rw [lastRatio]
    omega
  rw [unitValue_large h (by omega), hratio]
  rfl

/-- And from there on both summands are rounded down. -/
theorem unitValue_last (h : 4395 ≤ d) (hd : d ≤ 18446844) :
    unitValue d = 998999 + lastRatio d / 1000 := by
  have hpos : 1 ≤ lastRatio d := by
    rw [lastRatio]
    omega
  have hle : lastRatio d ≤ 4294 := by
    rw [lastRatio]
    omega
  have hleft : 999000 * (1000000 - lastRatio d) / 1000000 + lastRatio d =
      999000 + lastRatio d / 1000 := by
    omega
  have hright : 999900 * lastRatio d / 1000000 + 1 = lastRatio d := by
    omega
  rw [unitValue_large (by omega) (by omega), Interpolation.mean]
  omega

theorem lastRatio_mono {d d' : ℕ} (h : d ≤ d') : lastRatio d ≤ lastRatio d' :=
  Nat.div_le_div_right (Nat.mul_le_mul_right _ (Nat.sub_le_sub_right h _))

theorem unitValue_le (hd : d ≤ 18446844) : unitValue d ≤ 1000000 := by
  rcases Nat.lt_or_ge d 100 with hsmall | hlarge
  · exact (unitValue_small d hsmall).1.trans (by decide)
  rcases Nat.lt_or_ge 4394 d with hlast | hflat
  · rw [unitValue_last hlast hd, lastRatio]
    omega
  · rw [unitValue_flat hlarge hflat]
    decide

theorem unitValue_le_of_small {d d' : ℕ} (h : d ≤ d') (hd' : d' ≤ 100) :
    unitValue d ≤ unitValue d' := by
  induction h with
  | refl => exact Nat.le_refl _
  | step h ih => exact (ih (by omega)).trans (unitValue_small _ (by omega)).2

/-- The values where the function goes down. -/
def Drop (d d' : ℕ) : Prop := 100 ≤ d ∧ d ≤ 4394 ∧ 4395 ≤ d' ∧ d' ≤ 4295067

instance (d d' : ℕ) : Decidable (Drop d d') := inferInstanceAs (Decidable (_ ∧ _ ∧ _ ∧ _))

/-- Where the function goes down. -/
theorem unitValue_of_drop {d d' : ℕ} (h : Drop d d') :
    unitValue d = 999000 ∧ unitValue d' = 998999 := by
  obtain ⟨h100, hflat, hlast, hdrop⟩ := h
  refine ⟨unitValue_flat h100 hflat, ?_⟩
  rw [unitValue_last hlast (by omega), lastRatio]
  omega

/-- Elsewhere it does not go down, as far as nothing wraps around. -/
theorem unitValue_mono {d d' : ℕ} (h : d ≤ d') (hd' : d' ≤ 18446844) (hdrop : ¬Drop d d') :
    unitValue d ≤ unitValue d' := by
  rcases Nat.lt_or_ge 100 d' with hlarge' | hsmall
  swap
  · exact unitValue_le_of_small h hsmall
  rcases Nat.lt_or_ge 4394 d' with hlast' | hflat'
  swap
  · -- at most a hundred, or in the flat part
    rw [unitValue_flat (Nat.le_of_lt hlarge') hflat']
    rcases Nat.lt_or_ge d 100 with hsmall | hlarge
    · exact (unitValue_small d hsmall).1.trans (by decide)
    · exact (unitValue_flat hlarge (h.trans hflat')).le
  rw [unitValue_last hlast' hd']
  rcases Nat.lt_or_ge d 100 with hsmall | hlarge
  · exact (unitValue_small d hsmall).1.trans (by omega)
  rcases Nat.lt_or_ge 4394 d with hlast | hflat
  · rw [unitValue_last hlast (h.trans hd')]
    exact Nat.add_le_add_left (Nat.div_le_div_right (lastRatio_mono h)) _
  · have hrise : 4295068 ≤ d' := by
      by_contra hlt
      exact hdrop ⟨hlarge, hflat, hlast', by omega⟩
    rw [unitValue_flat hlarge hflat, lastRatio]
    omega

/-! ## When nothing wraps around -/

theorem mul_decimalUnit (diff : UInt32) :
    CheckedWord.mul diff.toUInt64 decimalUnit = some (UInt64.ofNat (diff.toNat * 1000000)) := by
  have hlt := diff.toNat_lt
  have hfits : diff.toUInt64.toNat * decimalUnit.toNat < 2 ^ 64 := by
    rw [UInt32.toNat_toUInt64]
    have hunit : decimalUnit.toNat = 1000000 := rfl
    rw [hunit]
    omega
  obtain ⟨x, hx, hxNat⟩ := CheckedWord.exists_mul hfits
  rw [hx, Option.some_inj, ← UInt64.toNat_inj, toNat_units hlt, hxNat, UInt32.toNat_toUInt64]
  rfl

theorem exists_getChecked_units (h : d ≤ 18446844) :
    ∃ y, scalarUpdMetricF.getChecked (UInt64.ofNat (d * 1000000)) = some y ∧
      y.toNat = unitValue d := by
  have hd : d < 2 ^ 32 := by omega
  have hy : ∀ dot ∈ scalarUpdMetricF.dots, dot.y.toNat * 1000000 < 2 ^ 64 := by decide
  have hstart : (scalarUpdMetricF.pieceStart (UInt64.ofNat (d * 1000000))).x ≤
      UInt64.ofNat (d * 1000000) :=
    Func.pieceStart_le (by decide) UInt64.zero_le
  have hend : UInt64.ofNat (d * 1000000) ≤
      (scalarUpdMetricF.pieceEnd (UInt64.ofNat (d * 1000000))).x := by
    refine Func.le_pieceEnd (by decide) ?_
    rw [UInt64.le_iff_toNat_le, toNat_units hd]
    have hlast : (scalarUpdMetricF.dots.get ⟨5, by decide⟩).x.toNat = 4294967295000000 := rfl
    exact Nat.le_trans (by omega) hlast.ge
  refine Func.exists_getChecked hstart hend ?_ (hy _ (List.get_mem _ _)) (hy _ (List.get_mem _ _))
  rw [toNat_units hd]
  rcases Nat.lt_or_ge d 100 with hsmall | hlarge
  · omega
  · rw [pieceStart_of_large hlarge hd]
    have hx : (100000000 : UInt64).toNat = 100000000 := rfl
    rw [hx]
    omega

/-- Above this, the product wraps. -/
theorem getChecked_units_eq_none (h : 18446844 < d) (hd : d < 2 ^ 32) :
    scalarUpdMetricF.getChecked (UInt64.ofNat (d * 1000000)) = none := by
  have hx : (100000000 : UInt64).toNat = 100000000 := rfl
  refine Func.getChecked_eq_none (Func.pieceStart_le (by decide) UInt64.zero_le) ?_
  rw [pieceStart_of_large (by omega) hd, toNat_units hd, hx]
  omega

theorem exists_scalarUpdMetricChecked (hW : totalWeight ≠ 0) (h : diff.toNat ≤ 18446844) :
    ∃ v, scalarUpdMetricChecked diff weight totalWeight = some v ∧
      v.toNat = unitValue diff.toNat * weight.toNat / totalWeight.toNat := by
  obtain ⟨y, hy, hyNat⟩ := exists_getChecked_units h
  have hfits : y.toNat * weight.toUInt64.toNat < 2 ^ 64 := by
    rw [hyNat, UInt32.toNat_toUInt64]
    calc unitValue diff.toNat * weight.toNat
        ≤ 1000000 * 2 ^ 32 := Nat.mul_le_mul (unitValue_le h) (Nat.le_of_lt weight.toNat_lt)
      _ < 2 ^ 64 := by decide
  obtain ⟨product, hproduct, hproductNat⟩ := CheckedWord.exists_mul hfits
  refine ⟨product / totalWeight.toUInt64, ?_, ?_⟩
  · refine Option.bind_eq_some_iff.mpr ⟨_, mul_decimalUnit diff, ?_⟩
    refine Option.bind_eq_some_iff.mpr ⟨y, hy, ?_⟩
    exact Option.bind_eq_some_iff.mpr ⟨product, hproduct, if_neg hW⟩
  · rw [UInt64.toNat_div, hproductNat, hyNat, UInt32.toNat_toUInt64, UInt32.toNat_toUInt64]

theorem le_of_scalarUpdMetricChecked (h : scalarUpdMetricChecked diff weight totalWeight = some v) :
    diff.toNat ≤ 18446844 := by
  obtain ⟨x, hx, h⟩ := Option.bind_eq_some_iff.mp h
  obtain ⟨y, hy, -⟩ := Option.bind_eq_some_iff.mp h
  rw [mul_decimalUnit] at hx
  obtain rfl := Option.some.inj hx
  by_contra hlt
  rw [getChecked_units_eq_none (Nat.not_le.mp hlt) diff.toNat_lt] at hy
  cases hy

theorem toNat_of_scalarUpdMetricChecked (hW : totalWeight ≠ 0)
    (h : scalarUpdMetricChecked diff weight totalWeight = some v) :
    v.toNat = unitValue diff.toNat * weight.toNat / totalWeight.toNat := by
  obtain ⟨v', hv', hvalue⟩ := exists_scalarUpdMetricChecked hW (le_of_scalarUpdMetricChecked h)
  rw [h] at hv'
  rw [Option.some.inj hv', hvalue]

/-- When `updMetric` does without wrap-around: it returns zero at once, or else the event is not
too far ahead of the median and the two values are not such that the function goes down between
them and this is still seen in the shares of the weight. -/
def NoWrap (median cur upd weight totalWeight : ℕ) : Prop :=
  upd ≤ median ∨ upd ≤ cur ∨
    (upd - median ≤ 18446844 ∧
      ¬(median < cur ∧ Drop (cur - median) (upd - median) ∧
        998999 * weight / totalWeight < 999000 * weight / totalWeight))

theorem updMetricChecked_eq_some_iff (hupd : median < upd) (hcur : cur < upd)
    (hweight : validators.getWeightByIdx validatorIdx = some weight) :
    updMetricChecked median cur upd validatorIdx validators = some v ↔
      ∃ updated, scalarUpdMetricChecked (upd - median) weight validators.totalWeight =
        some updated ∧
        (if median < cur then
          ∃ current,
            scalarUpdMetricChecked (cur - median) weight validators.totalWeight = some current ∧
              CheckedWord.sub updated current = some v
        else updated = v) := by
  have hguard : ¬(upd ≤ median ∨ upd ≤ cur) := by
    rw [not_or, UInt32.not_le, UInt32.not_le]
    exact ⟨hupd, hcur⟩
  have hahead := CheckedWord.sub32_of_le (UInt32.le_of_lt hupd)
  rw [updMetricChecked, if_neg hguard]
  constructor
  · intro h
    obtain ⟨weight', hweight', h⟩ := Option.bind_eq_some_iff.mp h
    obtain ⟨ahead, hahead', h⟩ := Option.bind_eq_some_iff.mp h
    obtain ⟨updated, hupdated, hlast⟩ := Option.bind_eq_some_iff.mp h
    obtain rfl := Option.some.inj (hweight.symm.trans hweight')
    obtain rfl := Option.some.inj (hahead.symm.trans hahead')
    refine ⟨updated, hupdated, ?_⟩
    by_cases hmedian : median < cur
    · rw [if_pos hmedian] at hlast ⊢
      obtain ⟨before, hbefore, h⟩ := Option.bind_eq_some_iff.mp hlast
      obtain ⟨current, hcurrent, hsub⟩ := Option.bind_eq_some_iff.mp h
      rw [CheckedWord.sub32_of_le (UInt32.le_of_lt hmedian)] at hbefore
      obtain rfl := Option.some.inj hbefore
      exact ⟨current, hcurrent, hsub⟩
    · rw [if_neg hmedian] at hlast ⊢
      exact Option.some.inj hlast
  · rintro ⟨updated, hupdated, hlast⟩
    refine Option.bind_eq_some_iff.mpr ⟨weight, hweight, ?_⟩
    refine Option.bind_eq_some_iff.mpr ⟨_, hahead, ?_⟩
    refine Option.bind_eq_some_iff.mpr ⟨updated, hupdated, ?_⟩
    by_cases hmedian : median < cur
    · rw [if_pos hmedian] at hlast ⊢
      obtain ⟨current, hcurrent, hsub⟩ := hlast
      refine Option.bind_eq_some_iff.mpr ⟨_, CheckedWord.sub32_of_le (UInt32.le_of_lt hmedian), ?_⟩
      exact Option.bind_eq_some_iff.mpr ⟨current, hcurrent, hsub⟩
    · rw [if_neg hmedian] at hlast ⊢
      rw [hlast]

section

variable (hweight : validators.getWeightByIdx validatorIdx = some weight)
  (htotal : validators.totalWeight ≠ 0) (hupd : median < upd) (hcur : cur < upd)

include hweight htotal hupd hcur

theorem noWrap_of_checked (h : updMetricChecked median cur upd validatorIdx validators = some v) :
    upd.toNat - median.toNat ≤ 18446844 ∧
      ¬(median.toNat < cur.toNat ∧ Drop (cur.toNat - median.toNat) (upd.toNat - median.toNat) ∧
        998999 * weight.toNat / validators.totalWeight.toNat <
          999000 * weight.toNat / validators.totalWeight.toNat) := by
  obtain ⟨updated, hupdated, hlast⟩ := (updMetricChecked_eq_some_iff hupd hcur hweight).mp h
  have hahead := UInt32.toNat_sub_of_le _ _ (UInt32.le_of_lt hupd)
  have hlong := le_of_scalarUpdMetricChecked hupdated
  have hvalue := toNat_of_scalarUpdMetricChecked htotal hupdated
  rw [hahead] at hlong hvalue
  refine ⟨hlong, ?_⟩
  rintro ⟨hmedian, hdrop, hseen⟩
  rw [← UInt32.lt_iff_toNat_lt] at hmedian
  rw [if_pos hmedian] at hlast
  obtain ⟨current, hcurrent, hsub⟩ := hlast
  have hvalue' := toNat_of_scalarUpdMetricChecked htotal hcurrent
  rw [UInt32.toNat_sub_of_le _ _ (UInt32.le_of_lt hmedian)] at hvalue'
  obtain ⟨hhigh, hlow⟩ := unitValue_of_drop hdrop
  rw [hlow] at hvalue
  rw [hhigh] at hvalue'
  rw [CheckedWord.sub_eq_none (by rw [hvalue, hvalue']; exact hseen)] at hsub
  cases hsub

theorem exists_checked (hlong : upd.toNat - median.toNat ≤ 18446844)
    (hdrop : ¬(median.toNat < cur.toNat ∧
      Drop (cur.toNat - median.toNat) (upd.toNat - median.toNat) ∧
        998999 * weight.toNat / validators.totalWeight.toNat <
          999000 * weight.toNat / validators.totalWeight.toNat)) :
    ∃ metric, updMetricChecked median cur upd validatorIdx validators = some metric ∧
      metric.toNat ≤ 1000000 * weight.toNat / validators.totalWeight.toNat := by
  have hahead := UInt32.toNat_sub_of_le _ _ (UInt32.le_of_lt hupd)
  rw [← hahead] at hlong
  obtain ⟨updated, hupdated, hvalue⟩ := exists_scalarUpdMetricChecked htotal hlong
  have hshare : updated.toNat ≤ 1000000 * weight.toNat / validators.totalWeight.toNat := by
    rw [hvalue]
    exact Nat.div_le_div_right (Nat.mul_le_mul_right _ (unitValue_le hlong))
  by_cases hmedian : median < cur
  · have hbefore := UInt32.toNat_sub_of_le _ _ (UInt32.le_of_lt hmedian)
    have hle : (cur - median).toNat ≤ (upd - median).toNat := by
      rw [UInt32.lt_iff_toNat_lt] at hcur
      omega
    obtain ⟨current, hcurrent, hvalue'⟩ :=
      exists_scalarUpdMetricChecked htotal (hle.trans hlong)
    have hnotless : current.toNat ≤ updated.toNat := by
      rw [hvalue, hvalue']
      by_cases hd : Drop (cur - median).toNat (upd - median).toNat
      · -- the function goes down by one, but the shares are equal
        obtain ⟨hhigh, hlow⟩ := unitValue_of_drop hd
        rw [hhigh, hlow]
        rw [hahead, hbefore] at hd
        by_contra hlt
        exact hdrop ⟨UInt32.lt_iff_toNat_lt.mp hmedian, hd, Nat.not_le.mp hlt⟩
      · exact Nat.div_le_div_right (Nat.mul_le_mul_right _ (unitValue_mono hle hlong hd))
    obtain ⟨metric, hsub, hmetric⟩ := CheckedWord.exists_sub hnotless
    refine ⟨metric, (updMetricChecked_eq_some_iff hupd hcur hweight).mpr ⟨updated, hupdated, ?_⟩,
      ?_⟩
    · rw [if_pos hmedian]
      exact ⟨current, hcurrent, hsub⟩
    · rw [hmetric]
      exact (Nat.sub_le _ _).trans hshare
  · refine ⟨updated, (updMetricChecked_eq_some_iff hupd hcur hweight).mpr ⟨updated, hupdated, ?_⟩,
      hshare⟩
    rw [if_neg hmedian]

end

/-- **When the metric does not underflow.** `updMetric` has no operation that wraps around, and
returns at most the share of the validator in the total weight, if and only if `NoWrap` is true
of its arguments. -/
theorem updMetric_noWrap_iff (validators : Validators) (validatorIdx : ℕ) (weight : UInt32)
    (hweight : validators.getWeightByIdx validatorIdx = some weight)
    (htotal : validators.totalWeight ≠ 0) (median cur upd : UInt32) :
    (∃ metric, updMetricChecked median cur upd validatorIdx validators = some metric ∧
        updMetric median cur upd validatorIdx validators = some metric ∧
        metric.toNat ≤ 1000000 * weight.toNat / validators.totalWeight.toNat) ↔
      NoWrap median.toNat cur.toNat upd.toNat weight.toNat validators.totalWeight.toNat := by
  by_cases hmedian : upd ≤ median
  · exact iff_of_true ⟨0, if_pos (.inl hmedian), if_pos (.inl hmedian), Nat.zero_le _⟩
      (.inl (UInt32.le_iff_toNat_le.mp hmedian))
  by_cases hcur : upd ≤ cur
  · exact iff_of_true ⟨0, if_pos (.inr hcur), if_pos (.inr hcur), Nat.zero_le _⟩
      (.inr (.inl (UInt32.le_iff_toNat_le.mp hcur)))
  rw [UInt32.not_le] at hmedian hcur
  constructor
  · rintro ⟨metric, hchecked, -, -⟩
    exact .inr (.inr (noWrap_of_checked hweight htotal hmedian hcur hchecked))
  · rintro (hle | hle | ⟨hlong, hdrop⟩)
    · exact absurd (UInt32.le_iff_toNat_le.mpr hle) (UInt32.not_le.mpr hmedian)
    · exact absurd (UInt32.le_iff_toNat_le.mpr hle) (UInt32.not_le.mpr hcur)
    · obtain ⟨metric, hchecked, hshare⟩ :=
        exists_checked hweight htotal hmedian hcur hlong hdrop
      exact ⟨metric, hchecked, updMetric_of_checked hchecked, hshare⟩

/-- A single validator, for examples. -/
def soleValidator : Validators := .ofWeights [(1, 1)] (by decide)

/-- Where the function goes up. -/
theorem updMetric_noWrap_iff_sample :
    ∃ metric, updMetricChecked 0 1 100 0 soleValidator = some metric ∧
      updMetric 0 1 100 0 soleValidator = some metric ∧
      metric.toNat ≤ 1000000 * 1 / soleValidator.totalWeight.toNat := by
  refine (updMetric_noWrap_iff soleValidator 0 1 (by decide) (by decide) 0 1 100).mpr ?_
  refine .inr (.inr ⟨by decide, ?_⟩)
  rintro ⟨-, hdrop, -⟩
  revert hdrop
  decide

/-- The last event of a sole validator is 100 ahead of the median, and it would be 4395 ahead:
the difference wraps around. -/
theorem updMetric_underflows :
    scalarUpdMetric 100 1 1 = some 999000 ∧ scalarUpdMetric 4395 1 1 = some 998999 ∧
      updMetric 0 100 4395 0 soleValidator = some 18446744073709551615 ∧
      updMetricChecked 0 100 4395 0 soleValidator = none := by
  decide +kernel

end ParentMetric

end Zilionixx
