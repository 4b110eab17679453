import Mathlib.Order.Lattice
import Zilionixx.Piecefunc
import Zilionixx.Rules

/-!
# `gossip/gasprice`: the suggested gas price

The price that an oracle suggests is the minimum gas price times a multiplier, which depends on
how much gas power is left. The parameters of the oracle are sanitized when it is made: each
one that is missing is given its default, and each one that is out of range is moved to the end
of the range. A default is not moved.
-/

namespace Zilionixx

namespace GasPrice

open Piecefunc

/-- `DecimalUnitBn` -/
def decimalUnitBn : ℤ := 1000000

/-- `DefaultMaxPrice`, in wei -/
def defaultMaxPrice : ℤ := 1000000 * 1000000000

/-- `Config`; `none` is `nil` -/
structure Config where
  maxPrice : Option ℤ
  minPrice : Option ℤ
  maxPriceMultiplierRatio : Option ℤ
  middlePriceMultiplierRatio : Option ℤ
  gasPowerWallRatio : Option ℤ

/-- `Reader`: what the backend of an oracle answers -/
structure Reader where
  latestBlockIndex : UInt64
  totalGasPowerLeft : UInt64
  rules : Rules
  pendingRules : Rules

/-- A `Config` in which nothing is missing. -/
structure Params where
  maxPrice : ℤ
  minPrice : ℤ
  maxPriceMultiplierRatio : ℤ
  middlePriceMultiplierRatio : ℤ
  gasPowerWallRatio : ℤ
  deriving DecidableEq

/-- `Oracle` -/
structure Oracle where
  cfg : Params
  lastHead : UInt64
  /-- `none` is `nil` -/
  lastPrice : Option ℤ

/-- `sanitizeBigInt` -/
def sanitizeBigInt (val min max : Option ℤ) (default : ℤ) : ℤ :=
  match val with
  | none => default
  | some val =>
    if val = 0 then default
    else
      match min.filter (val < ·), max.filter (· < val) with
      | some min, _ => min
      | none, some max => max
      | none, none => val

/-- The parameters that `NewOracle` gives to an oracle. -/
def sanitize (params : Config) : Params :=
  let maxRatio := sanitizeBigInt params.maxPriceMultiplierRatio (some decimalUnitBn) none
    (10 * decimalUnitBn)
  { maxPrice := sanitizeBigInt params.maxPrice none none defaultMaxPrice
    minPrice := sanitizeBigInt params.minPrice none none 0
    gasPowerWallRatio := sanitizeBigInt params.gasPowerWallRatio (some 1)
      (some (decimalUnitBn - 2)) 1
    maxPriceMultiplierRatio := maxRatio
    middlePriceMultiplierRatio := sanitizeBigInt params.middlePriceMultiplierRatio
      (some decimalUnitBn) (some maxRatio) (2 * decimalUnitBn) }

/-- `NewOracle` -/
def newOracle (params : Config) : Oracle := ⟨sanitize params, 0, none⟩

/-- `Uint64` of a big integer: the low bits of its absolute value -/
def uint64 (v : ℤ) : UInt64 := UInt64.ofNat v.natAbs

/-- `minGasPrice`; `none` is the panic on a `nil` price -/
def minGasPrice (cfg : Params) (backend : Reader) : Option ℤ := do
  let minPrice ← backend.rules.economy.minGasPrice
  let pendingMinPrice ← backend.pendingRules.economy.minGasPrice
  let minPrice := if minPrice < pendingMinPrice then pendingMinPrice else minPrice
  some (if minPrice < cfg.minPrice then cfg.minPrice else minPrice)

/-- `maxTotalGasPower` -/
def maxTotalGasPower (rules : Rules) : ℤ :=
  rules.economy.longGasPower.allocPerSec.toNat * rules.economy.longGasPower.maxAllocPeriod.toNat /
    1000000000

/-- The ratio of gas power left, in `suggestPrice`; to divide by zero is a panic -/
def freeRatio (backend : Reader) : Option UInt64 :=
  if maxTotalGasPower backend.rules = 0 then none
  else
    let freeRatio := uint64
      (backend.totalGasPowerLeft.toNat * decimalUnitBn / maxTotalGasPower backend.rules)
    some (if freeRatio > decimalUnit then decimalUnit else freeRatio)

/-- Where the multiplier is the middle one. -/
def middle (cfg : Params) : UInt64 :=
  uint64 cfg.gasPowerWallRatio + (decimalUnit - uint64 cfg.gasPowerWallRatio) / 2

/-- The dots of `multiplierFn` -/
def multiplierDots (cfg : Params) : List Dot :=
  [⟨0, uint64 cfg.maxPriceMultiplierRatio⟩,
    ⟨uint64 cfg.gasPowerWallRatio, uint64 cfg.maxPriceMultiplierRatio⟩,
    ⟨middle cfg, uint64 cfg.middlePriceMultiplierRatio⟩, ⟨decimalUnit, decimalUnit⟩]

/-- `multiplierFn` -/
def multiplierFn (cfg : Params) : Option Func := newFunc (multiplierDots cfg)

/-- `suggestPrice` -/
def suggestPrice (cfg : Params) (backend : Reader) : Option ℤ := do
  let freeRatio ← freeRatio backend
  let multiplierFn ← multiplierFn cfg
  let minGasPrice ← minGasPrice cfg backend
  -- price = multiplier * min gas price
  some ((multiplierFn.get freeRatio).toNat * minGasPrice / decimalUnitBn)

/-- `SuggestPrice`; the price is `nil` when there is none for the last head -/
def Oracle.suggestPrice (o : Oracle) (backend : Reader) : Option (Option ℤ × Oracle) :=
  if backend.latestBlockIndex = o.lastHead then some (o.lastPrice, o)
  else do
    let price ← GasPrice.suggestPrice o.cfg backend
    let price := if price > o.cfg.maxPrice then o.cfg.maxPrice else price
    let minimum ← minGasPrice o.cfg backend
    let price := if price < minimum then minimum else price
    some (some price, { o with lastHead := backend.latestBlockIndex, lastPrice := some price })

/-! ## What sanitizing ensures -/

/-- A parameter is not given. -/
def Missing (val : Option ℤ) : Prop := val = none ∨ val = some 0

instance (val : Option ℤ) : Decidable (Missing val) := inferInstanceAs (Decidable (_ ∨ _))

theorem sanitizeBigInt_of_missing {val : Option ℤ} (h : Missing val) (min max : Option ℤ)
    (default : ℤ) : sanitizeBigInt val min max default = default := by
  rcases h with rfl | rfl
  · rfl
  · rfl

/-- What `sanitizeBigInt` does with a parameter. -/
theorem sanitizeBigInt_cases (val : Option ℤ) (min : ℤ) (max : Option ℤ) (default : ℤ) :
    (Missing val ∧ sanitizeBigInt val (some min) max default = default) ∨
      ∃ v, val = some v ∧ v ≠ 0 ∧
        ((v < min ∧ sanitizeBigInt val (some min) max default = min) ∨
          (min ≤ v ∧ ∃ m, max = some m ∧ m < v ∧
            sanitizeBigInt val (some min) max default = m) ∨
          (min ≤ v ∧ (∀ m, max = some m → v ≤ m) ∧
            sanitizeBigInt val (some min) max default = v)) := by
  rcases val with - | v
  · exact .inl ⟨.inl rfl, rfl⟩
  by_cases hzero : v = 0
  · subst hzero
    exact .inl ⟨.inr rfl, rfl⟩
  refine .inr ⟨v, rfl, hzero, ?_⟩
  rw [sanitizeBigInt]
  simp only [if_neg hzero]
  have hkept : ∀ (p : ℤ → Bool) (m : ℤ), p m = true → (some m).filter p = some m := fun p m h =>
    Option.filter_eq_some_iff.mpr ⟨rfl, h⟩
  have hdropped : ∀ (p : ℤ → Bool) (m : ℤ), ¬p m = true → (some m).filter p = none := fun p m h =>
    Option.filter_eq_none_iff.mpr fun m' hm' => Option.some.inj hm' ▸ h
  by_cases hmin : v < min
  · rw [hkept _ _ (decide_eq_true hmin)]
    exact .inl ⟨hmin, rfl⟩
  · rw [hdropped _ _ (by simpa using hmin)]
    rw [Int.not_lt] at hmin
    rcases max with - | m
    · exact .inr (.inr ⟨hmin, fun m h => absurd h.symm (Option.some_ne_none m), rfl⟩)
    · by_cases hmax : m < v
      · rw [hkept _ _ (decide_eq_true hmax)]
        exact .inr (.inl ⟨hmin, m, rfl, hmax, rfl⟩)
      · rw [hdropped _ _ (by simpa using hmax)]
        refine .inr (.inr ⟨hmin, ?_, rfl⟩)
        intro m' hm'
        obtain rfl := Option.some.inj hm'
        exact Int.not_lt.mp hmax

theorem le_sanitizeBigInt {val max : Option ℤ} {min default : ℤ} (hdefault : min ≤ default)
    (hmax : ∀ m, max = some m → min ≤ m) : min ≤ sanitizeBigInt val (some min) max default := by
  rcases sanitizeBigInt_cases val min max default with
    ⟨-, h⟩ | ⟨v, -, -, ⟨-, h⟩ | ⟨-, m, hm, -, h⟩ | ⟨hle, -, h⟩⟩
  · rw [h]
    exact hdefault
  · exact h.ge
  · rw [h]
    exact hmax m hm
  · rw [h]
    exact hle

theorem sanitizeBigInt_le {val max : Option ℤ} {min default bound : ℤ} (hdefault : default ≤ bound)
    (hmin : min ≤ bound) (hval : ∀ v, val = some v → v ≤ bound) :
    sanitizeBigInt val (some min) max default ≤ bound := by
  rcases sanitizeBigInt_cases val min max default with
    ⟨-, h⟩ | ⟨v, hv, -, ⟨-, h⟩ | ⟨-, m, -, hlt, h⟩ | ⟨-, -, h⟩⟩
  · rw [h]
    exact hdefault
  · rw [h]
    exact hmin
  · rw [h]
    exact hlt.le.trans (hval v hv)
  · rw [h]
    exact hval v hv

theorem sanitizeBigInt_le_max {val : Option ℤ} {min max default : ℤ} (hrange : min ≤ max)
    (hdefault : Missing val → default ≤ max) :
    sanitizeBigInt val (some min) (some max) default ≤ max := by
  rcases sanitizeBigInt_cases val min (some max) default with
    ⟨hmissing, h⟩ | ⟨v, -, -, ⟨-, h⟩ | ⟨-, m, hm, -, h⟩ | ⟨-, hle, h⟩⟩
  · rw [h]
    exact hdefault hmissing
  · rw [h]
    exact hrange
  · rw [h]
    exact (Option.some.inj hm).ge
  · rw [h]
    exact hle max rfl

/-- The multipliers of a configuration are at most 10¹³. -/
structure Config.Moderate (params : Config) : Prop where
  maxRatio : ∀ v, params.maxPriceMultiplierRatio = some v → v ≤ 10000000000000
  middleRatio : ∀ v, params.middlePriceMultiplierRatio = some v → v ≤ 10000000000000

/-- The ranges of the ratios that `suggestPrice` needs. -/
structure Params.InRange (cfg : Params) : Prop where
  one_le_wall : 1 ≤ cfg.gasPowerWallRatio
  wall_le : cfg.gasPowerWallRatio ≤ 999998
  unit_le_max : 1000000 ≤ cfg.maxPriceMultiplierRatio
  max_le : cfg.maxPriceMultiplierRatio ≤ 10000000000000
  unit_le_middle : 1000000 ≤ cfg.middlePriceMultiplierRatio
  middle_le : cfg.middlePriceMultiplierRatio ≤ 10000000000000

theorem unit_le_maxRatio (params : Config) :
    1000000 ≤ (sanitize params).maxPriceMultiplierRatio :=
  le_sanitizeBigInt (by decide) fun m h => absurd h.symm (Option.some_ne_none m)

variable {params : Config}

theorem Config.Moderate.inRange (h : params.Moderate) :
    (sanitize params).InRange where
  one_le_wall := le_sanitizeBigInt (by decide) fun m hm => by
    obtain rfl := Option.some.inj hm
    decide
  wall_le := sanitizeBigInt_le_max (by decide) fun _ => by decide
  unit_le_max := unit_le_maxRatio params
  max_le := sanitizeBigInt_le (by decide) (by decide) h.maxRatio
  unit_le_middle := le_sanitizeBigInt (by decide) fun m hm => by
    obtain rfl := Option.some.inj hm
    exact unit_le_maxRatio params
  middle_le := sanitizeBigInt_le (by decide) (by decide) h.middleRatio

/-- The middle multiplier is not larger than the highest one, unless it is the default. -/
theorem middle_le_max (h : Missing params.middlePriceMultiplierRatio → 2000000 ≤ (sanitize
      params).maxPriceMultiplierRatio) :
    (sanitize params).middlePriceMultiplierRatio ≤ (sanitize params).maxPriceMultiplierRatio :=
  sanitizeBigInt_le_max (unit_le_maxRatio params) h

/-! ## The multiplier -/

section

variable {cfg : Params}

theorem toNat_uint64 {v : ℤ} (hpos : 0 ≤ v) (hlt : v < 2 ^ 64) : ((uint64 v).toNat : ℤ) = v := by
  have habs : v.natAbs < UInt64.size := by
    rw [UInt64.size]
    omega
  rw [uint64, UInt64.toNat_ofNat_of_lt' habs]
  exact Int.natAbs_of_nonneg hpos

variable (h : cfg.InRange)

include h

theorem toNat_wall : ((uint64 cfg.gasPowerWallRatio).toNat : ℤ) = cfg.gasPowerWallRatio := by
  have := h.one_le_wall
  have := h.wall_le
  exact toNat_uint64 (by omega) (by omega)

theorem toNat_maxRatio :
    ((uint64 cfg.maxPriceMultiplierRatio).toNat : ℤ) = cfg.maxPriceMultiplierRatio := by
  have := h.unit_le_max
  have := h.max_le
  exact toNat_uint64 (by omega) (by omega)

theorem toNat_middleRatio :
    ((uint64 cfg.middlePriceMultiplierRatio).toNat : ℤ) = cfg.middlePriceMultiplierRatio := by
  have := h.unit_le_middle
  have := h.middle_le
  exact toNat_uint64 (by omega) (by omega)

/-- The middle is between the wall and the unit. -/
theorem toNat_middle :
    (middle cfg).toNat = (uint64 cfg.gasPowerWallRatio).toNat +
      (1000000 - (uint64 cfg.gasPowerWallRatio).toNat) / 2 := by
  have hwall := toNat_wall h
  have := h.wall_le
  have hunit : decimalUnit.toNat = 1000000 := rfl
  have hle : uint64 cfg.gasPowerWallRatio ≤ decimalUnit := by
    rw [UInt64.le_iff_toNat_le, hunit]
    omega
  rw [middle, UInt64.toNat_add, UInt64.toNat_div, UInt64.toNat_sub_of_le _ _ hle, hunit]
  have htwo : (2 : UInt64).toNat = 2 := rfl
  rw [htwo]
  omega

theorem isChain_multiplierDots : (multiplierDots cfg).IsChain fun p q => p.x < q.x := by
  have hwall := toNat_wall h
  have hmiddle := toNat_middle h
  have := h.one_le_wall
  have := h.wall_le
  have hunit : decimalUnit.toNat = 1000000 := rfl
  have hzero : (0 : UInt64).toNat = 0 := rfl
  have h₀ : 0 < uint64 cfg.gasPowerWallRatio := by
    rw [UInt64.lt_iff_toNat_lt, hzero]
    omega
  have h₁ : uint64 cfg.gasPowerWallRatio < middle cfg := by
    rw [UInt64.lt_iff_toNat_lt]
    omega
  have h₂ : middle cfg < decimalUnit := by
    rw [UInt64.lt_iff_toNat_lt, hunit]
    omega
  simp [multiplierDots, h₀, h₁, h₂]

/-- The dots are in order, so that there is no panic. -/
theorem exists_multiplierFn : ∃ f, multiplierFn cfg = some f ∧ f.dots = multiplierDots cfg := by
  have hdots : 2 ≤ (multiplierDots cfg).length ∧
      (multiplierDots cfg).IsChain fun p q => p.x < q.x :=
    ⟨Nat.le_add_left 2 2, isChain_multiplierDots h⟩
  exact ⟨⟨_, hdots.1, hdots.2⟩, dif_pos hdots, rfl⟩

theorem mem_multiplierDots {dot : Dot} (hdot : dot ∈ multiplierDots cfg) :
    1000000 ≤ dot.y.toNat ∧ dot.y.toNat ≤ 10000000000000 ∧
      (dot.y.toNat : ℤ) ≤ max cfg.maxPriceMultiplierRatio cfg.middlePriceMultiplierRatio := by
  have hmax := toNat_maxRatio h
  have hmiddle := toNat_middleRatio h
  have := h.unit_le_max
  have := h.max_le
  have := h.unit_le_middle
  have := h.middle_le
  have hunit : decimalUnit.toNat = 1000000 := rfl
  rw [multiplierDots] at hdot
  simp only [List.mem_cons, List.not_mem_nil, or_false] at hdot
  rcases hdot with rfl | rfl | rfl | rfl
  · dsimp only
    omega
  · dsimp only
    omega
  · dsimp only
    omega
  · dsimp only
    rw [hunit]
    omega

variable {f : Func} (hf : f.dots = multiplierDots cfg) {x : UInt64} (hx : x ≤ decimalUnit)

include hf hx

omit h in
/-- A ratio is in its piece. -/
theorem mem_piece : (f.pieceStart x).x ≤ x ∧ x ≤ (f.pieceEnd x).x := by
  have hlen : f.dots.length = 4 := congrArg List.length hf
  have hfirst : ∀ h0, f.dots.get ⟨0, h0⟩ = ⟨0, uint64 cfg.maxPriceMultiplierRatio⟩ := by
    simp [hf, multiplierDots]
  have hlast : ∀ hlast, f.dots.get ⟨f.dots.length - 1, hlast⟩ = ⟨decimalUnit, decimalUnit⟩ := by
    simp [hf, multiplierDots]
  refine ⟨Func.pieceStart_le (by omega) ?_, Func.le_pieceEnd (by omega) ?_⟩
  · rw [hfirst]
    exact UInt64.zero_le
  · rw [hlast]
    exact hx

/-- The multiplier of a ratio: no operation wraps around. -/
theorem toNat_get : (f.get x).toNat = f.value x := by
  have hmem : ∀ dot ∈ f.dots, dot.y.toNat * 1000000 < 2 ^ 64 := by
    intro dot hdot
    obtain ⟨-, hle, -⟩ := mem_multiplierDots h (hf ▸ hdot)
    omega
  have hlong : x.toNat ≤ 1000000 := UInt64.le_iff_toNat_le.mp hx
  obtain ⟨hstart, hend⟩ := mem_piece hf hx
  obtain ⟨v, hv, hvalue⟩ := Func.exists_getChecked hstart hend (by omega)
    (hmem _ (List.get_mem _ _)) (hmem _ (List.get_mem _ _))
  rw [Func.get_of_getChecked hv, hvalue]

/-- It is at least one, and at most the larger one of the two multipliers. -/
theorem get_mem_range :
    1000000 ≤ (f.get x).toNat ∧
      ((f.get x).toNat : ℤ) ≤ max cfg.maxPriceMultiplierRatio cfg.middlePriceMultiplierRatio := by
  have hstartMem := mem_multiplierDots h (hf ▸ List.get_mem _ _ : f.pieceStart x ∈ _)
  have hendMem := mem_multiplierDots h (hf ▸ List.get_mem _ _ : f.pieceEnd x ∈ _)
  have hlt := UInt64.lt_iff_toNat_lt.mp (Func.pieceStart_lt_pieceEnd (f := f) (x := x))
  have hratio : Interpolation.ratio 1000000 _ _ x.toNat ≤ 1000000 :=
    Interpolation.ratio_le hlt (UInt64.le_iff_toNat_le.mp (mem_piece hf hx).2)
  rw [toNat_get h hf hx]
  refine ⟨Interpolation.unit_le_mean (by decide) hratio hstartMem.1 hendMem.1, ?_⟩
  have hmean : f.value x ≤ max (f.pieceStart x).y.toNat (f.pieceEnd x).y.toNat :=
    Interpolation.mean_le (by decide) hratio (Nat.le_max_left _ _) (Nat.le_max_right _ _)
  omega

omit hx in
/-- In the middle it is the middle multiplier. -/
theorem toNat_get_middle :
    ((f.get (middle cfg)).toNat : ℤ) = cfg.middlePriceMultiplierRatio := by
  have hlen : f.dots.length = 4 := congrArg List.length hf
  have hchain := isChain_multiplierDots h
  simp only [multiplierDots, List.isChain_cons_cons] at hchain
  obtain ⟨-, h₁, h₂, -⟩ := hchain
  have hpiece : f.piece (middle cfg) = 2 := by
    have hnone : f.dots.tail.dropLast.findIdx? (fun dot => dot.x > middle cfg) = none := by
      rw [List.findIdx?_eq_none_iff]
      intro dot hdot
      simp only [hf, multiplierDots, List.tail_cons, List.dropLast, List.mem_cons,
        List.not_mem_nil, or_false] at hdot
      rw [decide_eq_false_iff_not, gt_iff_lt, UInt64.not_lt]
      rcases hdot with rfl | rfl
      · exact UInt64.le_of_lt h₁
      · exact UInt64.le_refl _
    rw [Func.piece_of_none hnone, hlen]
  have hget : f.pieceStart (middle cfg) = ⟨middle cfg, uint64 cfg.middlePriceMultiplierRatio⟩ := by
    rw [Func.pieceStart_eq hpiece (by omega)]
    simp [hf, multiplierDots]
  rw [toNat_get h hf (UInt64.le_of_lt h₂), Func.value, hget, Interpolation.value_left (by decide)]
  exact toNat_middleRatio h

end

/-! ## The price -/

section

variable {cfg : Params} {o : Oracle} {backend : Reader} {price minimum multiplier : ℤ}

theorem exists_freeRatio (h : 0 < maxTotalGasPower backend.rules) :
    ∃ x, freeRatio backend = some x ∧ x ≤ decimalUnit := by
  rw [freeRatio, if_neg h.ne']
  refine ⟨_, rfl, ?_⟩
  split
  · exact UInt64.le_refl _
  · next hle => exact UInt64.not_lt.mp hle

theorem minGasPrice_eq {minPrice pendingMinPrice : ℤ}
    (h : backend.rules.economy.minGasPrice = some minPrice)
    (hpending : backend.pendingRules.economy.minGasPrice = some pendingMinPrice) :
    minGasPrice cfg backend = some (max (max minPrice pendingMinPrice) cfg.minPrice) := by
  rw [minGasPrice, h, hpending]
  simp only [Option.bind_eq_bind, Option.bind_some, Option.some_inj]
  split <;> split <;> omega

/-- With ratios in range and positive gas power there is no panic. -/
theorem exists_suggestPrice (h : cfg.InRange) (hpower : 0 < maxTotalGasPower backend.rules)
    (hmin : minGasPrice cfg backend = some minimum) :
    ∃ multiplier : ℤ, 1000000 ≤ multiplier ∧
      multiplier ≤ max cfg.maxPriceMultiplierRatio cfg.middlePriceMultiplierRatio ∧
      suggestPrice cfg backend = some (multiplier * minimum / 1000000) := by
  obtain ⟨x, hx, hle⟩ := exists_freeRatio hpower
  obtain ⟨f, hf, hdots⟩ := exists_multiplierFn h
  obtain ⟨hlower, hupper⟩ := get_mem_range h hdots hle
  refine ⟨(f.get x).toNat, by omega, hupper, ?_⟩
  refine Option.bind_eq_some_iff.mpr ⟨x, hx, ?_⟩
  refine Option.bind_eq_some_iff.mpr ⟨f, hf, ?_⟩
  exact Option.bind_eq_some_iff.mpr ⟨minimum, hmin, rfl⟩

/-- For a new head the price is limited from above and then from below. -/
theorem Oracle.suggestPrice_eq (hhead : backend.latestBlockIndex ≠ o.lastHead)
    (hprice : GasPrice.suggestPrice o.cfg backend = some price)
    (hmin : minGasPrice o.cfg backend = some minimum) :
    o.suggestPrice backend =
      some (some (max minimum (min price o.cfg.maxPrice)),
        { o with
          lastHead := backend.latestBlockIndex
          lastPrice := some (max minimum (min price o.cfg.maxPrice)) }) := by
  have hlimit :
      (if (if price > o.cfg.maxPrice then o.cfg.maxPrice else price) < minimum then minimum
      else if price > o.cfg.maxPrice then o.cfg.maxPrice else price) =
        max minimum (min price o.cfg.maxPrice) := by
    split <;> split <;> omega
  rw [Oracle.suggestPrice, if_neg hhead]
  refine Option.bind_eq_some_iff.mpr ⟨price, hprice, ?_⟩
  refine Option.bind_eq_some_iff.mpr ⟨minimum, hmin, ?_⟩
  dsimp only
  rw [hlimit]

/-- What the claimed upper limit of the price is. -/
def upperLimit (cfg : Params) (minimum : ℤ) : ℤ :=
  max minimum (min cfg.maxPrice (cfg.maxPriceMultiplierRatio * minimum / 1000000))

/-- A minimum that is not positive is not raised. -/
theorem mul_ediv_le_of_nonpos (hone : 1000000 ≤ multiplier) (h : minimum ≤ 0) :
    multiplier * minimum / 1000000 ≤ minimum := by
  have hmul : multiplier * minimum ≤ 1000000 * minimum := Int.mul_le_mul_of_nonpos_right hone h
  omega

theorem mul_ediv_le_of_nonneg {ratio : ℤ} (hle : multiplier ≤ ratio) (h : 0 ≤ minimum) :
    multiplier * minimum / 1000000 ≤ ratio * minimum / 1000000 :=
  Int.ediv_le_ediv (by decide) (Int.mul_le_mul_of_nonneg_right hle h)

/-- The configurations for which the price can exceed its limit: the middle multiplier is the
default, which is larger than the highest one, and the limit by the highest multiplier counts
for the smallest positive minimum. -/
def Exceeds (params : Config) : Prop :=
  Missing params.middlePriceMultiplierRatio ∧
    (sanitize params).maxPriceMultiplierRatio < 2000000 ∧
    (sanitize params).maxPriceMultiplierRatio * max 1 (sanitize params).minPrice / 1000000 <
      (sanitize params).maxPrice

instance (params : Config) : Decidable (Exceeds params) := inferInstanceAs (Decidable (_ ∧ _ ∧ _))

theorem price_le_upperLimit {params : Config} (h : ¬Exceeds params)
    (hminimum : (sanitize params).minPrice ≤ minimum) (hone : 1000000 ≤ multiplier)
    (hle : multiplier ≤ max (sanitize params).maxPriceMultiplierRatio
      (sanitize params).middlePriceMultiplierRatio) :
    max minimum (min (multiplier * minimum / 1000000) (sanitize params).maxPrice) ≤
      upperLimit (sanitize params) minimum := by
  rw [upperLimit]
  by_cases hpos : 0 < minimum
  swap
  · have := mul_ediv_le_of_nonpos hone (Int.not_lt.mp hpos)
    omega
  by_cases hmiddle : (sanitize params).middlePriceMultiplierRatio ≤
      (sanitize params).maxPriceMultiplierRatio
  · rw [max_eq_left hmiddle] at hle
    have := mul_ediv_le_of_nonneg hle hpos.le
    omega
  · -- the default is larger, but the limit by the highest price counts
    have hmissing : Missing params.middlePriceMultiplierRatio := by
      by_contra hgiven
      exact hmiddle (middle_le_max fun hmissing => absurd hmissing hgiven)
    have hsmall : (sanitize params).maxPriceMultiplierRatio < 2000000 := by
      by_contra hlarge
      exact hmiddle (middle_le_max fun _ => Int.not_lt.mp hlarge)
    have hlimit : (sanitize params).maxPrice ≤
        (sanitize params).maxPriceMultiplierRatio * max 1 (sanitize params).minPrice / 1000000 := by
      by_contra hlt
      exact h ⟨hmissing, hsmall, Int.not_le.mp hlt⟩
    have hmono : (sanitize params).maxPriceMultiplierRatio * max 1 (sanitize params).minPrice ≤
        (sanitize params).maxPriceMultiplierRatio * minimum := by
      refine Int.mul_le_mul_of_nonneg_left (by omega) ?_
      have := unit_le_maxRatio params
      omega
    have := Int.ediv_le_ediv (c := 1000000) (by decide) hmono
    omega

end

/-- The price that an oracle with these parameters suggests for a new head stays within its
limits, whatever the rules and the gas power left are. -/
def WithinLimits (params : Config) : Prop :=
  ∀ (o : Oracle) (backend : Reader) (minPrice pendingMinPrice : ℤ),
    o.cfg = (newOracle params).cfg → backend.latestBlockIndex ≠ o.lastHead →
    0 < maxTotalGasPower backend.rules → backend.rules.economy.minGasPrice = some minPrice →
    backend.pendingRules.economy.minGasPrice = some pendingMinPrice →
    ∃ minimum price o', minGasPrice o.cfg backend = some minimum ∧
      (suggestPrice o.cfg backend).isSome ∧ o.suggestPrice backend = some (some price, o') ∧
      minimum ≤ price ∧ price ≤ upperLimit o.cfg minimum

/-- Rules for examples, with a maximum of a million of gas power. -/
def millionRules (minGasPrice : ℤ) : Rules :=
  { mainNetRules with
    economy := { mainNetRules.economy with
      minGasPrice := some minGasPrice
      longGasPower := { mainNetRules.economy.longGasPower with
        allocPerSec := 1000000
        maxAllocPeriod := 1000000000 } } }

/-- A backend for examples: with these rules, the gas power left is the ratio. -/
def millionReader (minGasPrice : ℤ) (left : UInt64) : Reader :=
  ⟨1, left, millionRules minGasPrice, millionRules minGasPrice⟩

theorem maxTotalGasPower_millionRules (minGasPrice : ℤ) :
    maxTotalGasPower (millionRules minGasPrice) = 1000000 := by
  have halloc : (millionRules minGasPrice).economy.longGasPower.allocPerSec.toNat = 1000000 := rfl
  have hperiod : (millionRules minGasPrice).economy.longGasPower.maxAllocPeriod.toNat =
      1000000000 := rfl
  rw [maxTotalGasPower, halloc, hperiod]
  exact Int.mul_ediv_cancel 1000000 (by decide)

theorem freeRatio_millionReader (minGasPrice : ℤ) {left : UInt64} (h : left ≤ decimalUnit) :
    freeRatio (millionReader minGasPrice left) = some left := by
  have hpower : maxTotalGasPower (millionReader minGasPrice left).rules = 1000000 :=
    maxTotalGasPower_millionRules minGasPrice
  have hratio : (left.toNat : ℤ) * decimalUnitBn / 1000000 = left.toNat :=
    Int.mul_ediv_cancel _ (by decide)
  have huint : uint64 (left.toNat : ℤ) = left := by
    rw [uint64, Int.natAbs_natCast, UInt64.ofNat_toNat]
  have hleft : (millionReader minGasPrice left).totalGasPowerLeft = left := rfl
  rw [freeRatio, hpower, if_neg (by decide), hleft, hratio, huint]
  exact congrArg some (if_neg (UInt64.not_lt.mpr h))

/-- With the default as the middle multiplier, the price for the smallest positive minimum. -/
theorem upperLimit_lt (h : Exceeds params) :
    upperLimit (sanitize params) (max 1 (sanitize params).minPrice) <
      max (max 1 (sanitize params).minPrice)
        (min (2000000 * max 1 (sanitize params).minPrice / 1000000)
          (sanitize params).maxPrice) := by
  obtain ⟨-, hsmall, hlimit⟩ := h
  rw [upperLimit]
  generalize hminimum : max 1 (sanitize params).minPrice = minimum at *
  have hpos : 0 < minimum := by omega
  have hlower : 1000000 * minimum ≤ (sanitize params).maxPriceMultiplierRatio * minimum :=
    Int.mul_le_mul_of_nonneg_right (unit_le_maxRatio params) hpos.le
  have hupper : (sanitize params).maxPriceMultiplierRatio * minimum < 2000000 * minimum :=
    Int.mul_lt_mul_of_pos_right hsmall hpos
  omega

theorem not_withinLimits (hmoderate : params.Moderate) (h : Exceeds params) :
    ¬WithinLimits params := by
  intro hwithin
  have hrange := hmoderate.inRange
  have hmiddle : (sanitize params).middlePriceMultiplierRatio = 2000000 :=
    sanitizeBigInt_of_missing h.1 _ _ _
  generalize hminimum : max 1 (sanitize params).minPrice = minimum
  -- the gas power left is the middle ratio
  obtain ⟨f, hf, hdots⟩ := exists_multiplierFn hrange
  have hget := toNat_get_middle hrange hdots
  have hratio : middle (sanitize params) ≤ decimalUnit := by
    have hnat := toNat_middle hrange
    have hunit : decimalUnit.toNat = 1000000 := rfl
    have hwall := toNat_wall hrange
    have := hrange.wall_le
    rw [UInt64.le_iff_toNat_le]
    omega
  have hmin : minGasPrice (sanitize params) (millionReader minimum (middle (sanitize params))) =
      some minimum := by
    rw [minGasPrice_eq rfl rfl]
    congr 1
    omega
  have hprice : suggestPrice (sanitize params) (millionReader minimum (middle (sanitize params))) =
      some (2000000 * minimum / 1000000) := by
    refine Option.bind_eq_some_iff.mpr ⟨_, freeRatio_millionReader minimum hratio, ?_⟩
    refine Option.bind_eq_some_iff.mpr ⟨f, hf, ?_⟩
    refine Option.bind_eq_some_iff.mpr ⟨minimum, hmin, ?_⟩
    rw [hget, hmiddle]
    rfl
  have hhead : (millionReader minimum (middle (sanitize params))).latestBlockIndex ≠
      (newOracle params).lastHead :=
    (by decide : (1 : UInt64) ≠ 0)
  have hpower : 0 < maxTotalGasPower (millionRules minimum) := by
    rw [maxTotalGasPower_millionRules]
    decide
  obtain ⟨minimum', price, o', hmin', -, hsuggested, -, hle⟩ := hwithin (newOracle params)
    (millionReader minimum (middle (sanitize params))) minimum minimum rfl hhead hpower rfl rfl
  obtain rfl : minimum = minimum' := Option.some.inj (hmin.symm.trans hmin')
  rw [Oracle.suggestPrice_eq hhead hprice hmin] at hsuggested
  obtain rfl := Option.some.inj (Prod.ext_iff.mp (Option.some.inj hsuggested)).1
  have hlt := upperLimit_lt h
  rw [hminimum] at hlt
  exact absurd hle (Int.not_le.mpr hlt)

/-- **When the suggested price stays within its limits.** With multipliers of at most 10¹³ there is
no panic, and the price for a new head is at least the minimum gas price and at most the larger one
of it and of the limits by the highest price and the highest multiplier, for all rules and any
gas power left, if and only if it is not the case that the middle multiplier is missing, and its
default exceeds the highest multiplier where that is the limit that counts. -/
theorem withinLimits_iff (params : Config) (hmoderate : params.Moderate) :
    WithinLimits params ↔ ¬Exceeds params := by
  constructor
  · intro hwithin hexceeds
    exact not_withinLimits hmoderate hexceeds hwithin
  · intro hnot o backend minPrice pendingMinPrice hcfg hhead hpower hmin hpending
    have hcfg : o.cfg = sanitize params := hcfg
    have hrange : o.cfg.InRange := hcfg ▸ hmoderate.inRange
    have hminimum : minGasPrice o.cfg backend =
        some (max (max minPrice pendingMinPrice) o.cfg.minPrice) := minGasPrice_eq hmin hpending
    obtain ⟨multiplier, hone, hle, hprice⟩ := exists_suggestPrice hrange hpower hminimum
    refine ⟨_, _, _, hminimum, Option.isSome_of_eq_some hprice,
      Oracle.suggestPrice_eq hhead hprice hminimum, le_max_left _ _, ?_⟩
    rw [hcfg] at hle ⊢
    exact price_le_upperLimit hnot (le_max_right _ _) hone hle

/-- The configuration in which everything is missing. -/
def emptyConfig : Config := ⟨none, none, none, none, none⟩

/-- A configuration with all ratios. -/
def ratioConfig : Config := ⟨none, none, some 3000000, some 1500000, some 900000⟩

theorem withinLimits_ratioConfig : WithinLimits ratioConfig := by
  have hmoderate : ratioConfig.Moderate :=
    ⟨fun v h => by cases h; decide, fun v h => by cases h; decide⟩
  exact (withinLimits_iff ratioConfig hmoderate).mpr (by decide)

/-- Only the highest multiplier is given, and it is one: in the middle, twice the minimum is
suggested. -/
theorem suggestPrice_exceeds :
    ((newOracle { emptyConfig with maxPriceMultiplierRatio := some 1000000 }).suggestPrice
        (millionReader 1000000000 500000)).map Prod.fst = some (some 2000000000) ∧
      upperLimit (sanitize { emptyConfig with maxPriceMultiplierRatio := some 1000000 })
        1000000000 = 1000000000 := by
  decide +kernel

end GasPrice

end Zilionixx
