import Mathlib.Algebra.Order.Field.Basic
import Mathlib.Data.Int.Log
import Mathlib.Data.Rat.Floor
import Mathlib.Tactic.Linarith

/-!
# Numbers and times

A number of the source is a double. A finite one is kept as the rational it
stands for, and a product is the exact product rounded to the nearest double,
ties to even. `timeClip` is what a `Date` keeps of a number of milliseconds.
-/

namespace Tabnode

/-- A double: a finite value, an infinity or not a number. -/
inductive JsNumber where
  | finite (value : ℚ)
  | infinity (negative : Bool)
  | nan
  deriving DecidableEq

namespace JsNumber

def roundTiesEven (x : ℚ) : ℤ :=
  if x - ⌊x⌋ < 1 / 2 then ⌊x⌋
  else if 1 / 2 < x - ⌊x⌋ then ⌊x⌋ + 1
  else if ⌊x⌋ % 2 = 0 then ⌊x⌋
  else ⌊x⌋ + 1

def round (x : ℚ) : JsNumber :=
  if x = 0 then finite 0
  else
    -- the unit in the last place, bounded below where doubles are subnormal
    let ulp : ℚ := 2 ^ (max (Int.log 2 |x|) (-1022) - 52)
    let rounded : ℚ := roundTiesEven (x / ulp) * ulp
    if |rounded| < 2 ^ (1024 : ℕ) then finite rounded else infinity (x < 0)

/-- `x * 1000`. -/
def timesThousand : JsNumber → JsNumber
  | finite x => round (x * 1000)
  | x => x

/-- A `Date`'s time value: a whole number of milliseconds within 8.64e15 of the
epoch, else not a number. -/
def timeClip : JsNumber → JsNumber
  | finite x =>
      if |x| ≤ 8640000000000000 then
        finite ((if 0 ≤ x then ⌊x⌋ else ⌈x⌉ : ℤ) : ℚ)
      else nan
  | _ => nan

def ofInt (n : ℤ) : JsNumber := finite n

def toInt? : JsNumber → Option ℤ
  | finite x => if x.den = 1 then some x.num else none
  | _ => none

/-- `Number.isFinite`. -/
def isFinite : JsNumber → Bool
  | finite _ => true
  | _ => false

end JsNumber

end Tabnode

/-!
## How far rounding goes

A rational is rounded up by no more than one, an integer is rounded to itself, and the
double nearest to a rational of moderate size is finite.
-/

namespace Tabnode

namespace JsNumber

theorem roundTiesEven_cases (x : ℚ) : roundTiesEven x = ⌊x⌋ ∨ roundTiesEven x = ⌊x⌋ + 1 := by
  unfold roundTiesEven
  grind

@[simp] theorem roundTiesEven_intCast (n : ℤ) : roundTiesEven n = n := by
  simp [roundTiesEven]

theorem roundTiesEven_le (x : ℚ) : (roundTiesEven x : ℚ) ≤ x + 1 := by
  have hfloor := Int.floor_le x
  rcases roundTiesEven_cases x with h | h
  · rw [h]
    linarith
  · rw [h]
    push_cast
    linarith

theorem roundTiesEven_nonneg {x : ℚ} (h : 0 ≤ x) : 0 ≤ roundTiesEven x := by
  have hfloor : 0 ≤ ⌊x⌋ := Int.floor_nonneg.2 h
  rcases roundTiesEven_cases x with hcase | hcase
  · rwa [hcase]
  · rw [hcase]
    omega

/-- What is not much larger than a number of 64 bits is rounded to a finite double. -/
theorem round_eq_finite {x : ℚ} (hlow : 0 ≤ x) (h : x ≤ 2 ^ (100 : ℕ)) :
    ∃ y, round x = finite y ∧ 0 ≤ y ∧ y ≤ 2 ^ (101 : ℕ) := by
  unfold round
  split
  · exact ⟨0, rfl, le_refl _, by positivity⟩
  · next hne =>
    have hpos : 0 < |x| := abs_pos.2 hne
    rw [abs_of_nonneg hlow] at hpos ⊢
    dsimp only
    generalize hulp : (2 : ℚ) ^ (max (Int.log 2 x) (-1022) - 52) = ulp
    have hulpPos : 0 < ulp := by
      rw [← hulp]
      exact zpow_pos (by norm_num) _
    have hulpLe : ulp ≤ 2 ^ (100 : ℕ) := by
      have hlog : Int.log 2 x ≤ 100 := by
        have hmono := Int.log_mono_right (b := 2) hpos h
        have hpow : Int.log 2 ((2 : ℚ) ^ (100 : ℕ)) = 100 := by
          have := Int.log_zpow (R := ℚ) (b := 2) (by decide) 100
          simpa using this
        rwa [hpow] at hmono
      rw [← hulp, ← zpow_natCast]
      exact zpow_le_zpow_right₀ (by norm_num) (by omega)
    have hnonneg : 0 ≤ (roundTiesEven (x / ulp) : ℚ) * ulp := by
      have := roundTiesEven_nonneg (div_nonneg hlow hulpPos.le)
      exact mul_nonneg (by exact_mod_cast this) hulpPos.le
    have hupper : (roundTiesEven (x / ulp) : ℚ) * ulp ≤ 2 ^ (101 : ℕ) := by
      have hround := mul_le_mul_of_nonneg_right (roundTiesEven_le (x / ulp)) hulpPos.le
      rw [add_mul, div_mul_cancel₀ x hulpPos.ne', one_mul] at hround
      calc (roundTiesEven (x / ulp) : ℚ) * ulp ≤ x + ulp := hround
        _ ≤ 2 ^ (100 : ℕ) + 2 ^ (100 : ℕ) := add_le_add h hulpLe
        _ = 2 ^ (101 : ℕ) := by norm_num
    refine ⟨_, if_pos ?_, hnonneg, hupper⟩
    rw [abs_of_nonneg hnonneg]
    exact lt_of_le_of_lt hupper (pow_lt_pow_right₀ (by norm_num) (by norm_num))

end JsNumber

end Tabnode
