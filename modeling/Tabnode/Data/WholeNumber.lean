import Mathlib.Data.Nat.Log
import Mathlib.Order.WithBot
import Mathlib.Tactic.Linarith
import Mathlib.Tactic.Ring

/-!
# Whole numbers as doubles

A whole number of the source is a double that is not negative: a natural number of 53
significant bits, or infinity. Rounding keeps the order (`nearest_mono`), though not always
a difference.
-/

namespace Tabnode

abbrev WholeNumber := WithTop ℕ

instance : LinearOrder WholeNumber := WithTop.linearOrder

instance : Ord WholeNumber := (WithTop.linearOrder : LinearOrder (WithTop ℕ)).toOrd

namespace WholeNumber

/-- The unit in the last place of the doubles about `n`. -/
def ulp (n : ℕ) : ℕ := 2 ^ (Nat.log 2 n - 52)

def units (n unit : ℕ) : ℕ :=
  if 2 * (n % unit) < unit ∨ 2 * (n % unit) = unit ∧ n / unit % 2 = 0 then n / unit
  else n / unit + 1

def overflow : ℕ := 2 ^ 1024

def nearest (n : ℕ) : WholeNumber :=
  if units n (ulp n) * ulp n < overflow then ((units n (ulp n) * ulp n : ℕ) : WholeNumber) else ⊤

/-- `x + 1`. -/
def succ : WholeNumber → WholeNumber
  | ⊤ => ⊤
  | (n : ℕ) => nearest (n + 1)

/-- The fewest digits that are rounded to `n` when followed by at most `zeros` zeros, and
how many zeros follow them. -/
def shortest (n : ℕ) : ℕ → ℕ × ℕ
  | 0 => (n, 0)
  | zeros + 1 =>
      let below := n / 10 ^ (zeros + 1)
      let nearer := if 2 * (n % 10 ^ (zeros + 1)) ≤ 10 ^ (zeros + 1) then below else below + 1
      let found := [nearer, below, below + 1].find? fun s =>
        s != 0 && nearest (s * 10 ^ (zeros + 1)) == (n : WholeNumber)
      match found with
      | some s => (s, zeros + 1)
      | none => shortest n zeros

/-- `String(x)`. -/
def text : WholeNumber → List Char
  | ⊤ => "Infinity".toList
  | (n : ℕ) =>
      let (s, zeros) := shortest n (Nat.log 10 n + 1)
      let digits := Nat.toDigits 10 s
      if digits.length + zeros ≤ 21 then digits ++ List.replicate zeros '0'
      else
        let exponent := "e+".toList ++ Nat.toDigits 10 (digits.length + zeros - 1)
        match digits with
        | d :: d' :: rest => d :: '.' :: d' :: rest ++ exponent
        | digits => digits ++ exponent

/-! ## Rounding keeps the order -/

theorem ulp_pos (n : ℕ) : 0 < ulp n := by
  unfold ulp
  positivity

theorem units_le {n unit : ℕ} : units n unit ≤ n / unit + 1 := by
  unfold units
  split <;> omega

theorem le_units {n unit : ℕ} : n / unit ≤ units n unit := by
  unfold units
  split <;> omega

theorem units_mono {n m unit : ℕ} (h : n ≤ m) : units n unit ≤ units m unit := by
  have hdiv : n / unit ≤ m / unit := Nat.div_le_div_right h
  rcases hdiv.lt_or_eq with hlt | heq
  · calc units n unit ≤ n / unit + 1 := units_le
      _ ≤ m / unit := hlt
      _ ≤ units m unit := le_units
  · -- of two numbers above the same unit, the larger has the larger rest
    have hn := Nat.div_add_mod n unit
    have hm := Nat.div_add_mod m unit
    have hrest : n % unit ≤ m % unit := by
      rw [← heq] at hm
      omega
    unfold units
    rw [heq]
    split <;> split <;> omega

theorem units_mul_le {n k : ℕ} (hn : n < 2 ^ (k + 1)) (hk : Nat.log 2 n = k) :
    units n (ulp n) * ulp n ≤ 2 ^ (k + 1) := by
  have hpow : 2 ^ (k + 1) = 2 ^ (k + 1 - (k - 52)) * ulp n := by
    rw [ulp, hk, ← pow_add]
    congr 1
    omega
  have hdiv : n / ulp n < 2 ^ (k + 1 - (k - 52)) := by
    rw [Nat.div_lt_iff_lt_mul (ulp_pos n), ← hpow]
    exact hn
  calc units n (ulp n) * ulp n ≤ (n / ulp n + 1) * ulp n := Nat.mul_le_mul_right _ units_le
    _ ≤ 2 ^ (k + 1 - (k - 52)) * ulp n := Nat.mul_le_mul_right _ hdiv
    _ = 2 ^ (k + 1) := hpow.symm

/-- What is rounded is no smaller than the power of two below it. -/
theorem le_units_mul {n k : ℕ} (hn : 2 ^ k ≤ n) (hk : Nat.log 2 n = k) :
    2 ^ k ≤ units n (ulp n) * ulp n := by
  have hpow : 2 ^ k = 2 ^ (k - (k - 52)) * ulp n := by
    rw [ulp, hk, ← pow_add]
    congr 1
    omega
  have hdiv : 2 ^ (k - (k - 52)) ≤ n / ulp n := by
    rw [Nat.le_div_iff_mul_le (ulp_pos n), ← hpow]
    exact hn
  calc 2 ^ k = 2 ^ (k - (k - 52)) * ulp n := hpow
    _ ≤ n / ulp n * ulp n := Nat.mul_le_mul_right _ hdiv
    _ ≤ units n (ulp n) * ulp n := Nat.mul_le_mul_right _ le_units

theorem units_mul_mono {n m : ℕ} (h : n ≤ m) :
    units n (ulp n) * ulp n ≤ units m (ulp m) * ulp m := by
  rcases (Nat.log_mono_right (b := 2) h).lt_or_eq with hlt | heq
  · have hn : n < 2 ^ (Nat.log 2 n + 1) := Nat.lt_pow_succ_log_self (by decide) n
    have hm : 2 ^ Nat.log 2 m ≤ m := Nat.pow_log_le_self 2 (by rintro rfl; simp at hlt)
    calc units n (ulp n) * ulp n ≤ 2 ^ (Nat.log 2 n + 1) := units_mul_le hn rfl
      _ ≤ 2 ^ Nat.log 2 m := Nat.pow_le_pow_right (by decide) hlt
      _ ≤ units m (ulp m) * ulp m := le_units_mul hm rfl
  · have hulp : ulp n = ulp m := by rw [ulp, ulp, heq]
    rw [hulp]
    exact Nat.mul_le_mul_right _ (units_mono h)

theorem nearest_mono {n m : ℕ} (h : n ≤ m) : nearest n ≤ nearest m := by
  have hmono := units_mul_mono h
  by_cases hm : units m (ulp m) * ulp m < overflow
  · rw [nearest, nearest, if_pos (hmono.trans_lt hm), if_pos hm]
    exact WithTop.coe_le_coe.2 hmono
  · rw [nearest, nearest, if_neg hm]
    exact le_top

end WholeNumber

end Tabnode
