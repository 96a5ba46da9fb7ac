import Mathlib.Order.Bounds.Basic
import Mathlib.Data.Int.Notation

/-!
# Stepping through positions

A loop over the whole numbers from one on, by steps of one size, which stops at the first
that is matched. Upwards it finds the least matched position of those it reaches
(`least_up`), downwards the greatest (`greatest_down`).
-/

namespace Tabnode

namespace Scan

variable (matched : ℤ → Bool) (step : ℤ)

/-- `for (index = from; index < bound; index += step)`. A round for each number below the
bound is enough. -/
def upRounds (bound : ℤ) : ℕ → ℤ → Option ℤ
  | 0, _ => none
  | rounds + 1, index =>
      if index < bound then
        if matched index then some index else upRounds bound rounds (index + step)
      else none

def up (bound start : ℤ) : Option ℤ := upRounds matched step bound (bound - start).toNat start

/-- `for (index = from; index >= 0; index -= step)`. -/
def downRounds : ℕ → ℤ → Option ℤ
  | 0, _ => none
  | rounds + 1, index =>
      if 0 ≤ index then
        if matched index then some index else downRounds rounds (index - step)
      else none

def down (start : ℤ) : Option ℤ := downRounds matched step (start + 1).toNat start

def Above (bound start : ℤ) : Set ℤ :=
  {q | start ≤ q ∧ q < bound ∧ step ∣ q - start ∧ matched q}

def Below (start : ℤ) : Set ℤ := {q | 0 ≤ q ∧ q ≤ start ∧ step ∣ start - q ∧ matched q}

/-- An answer that is the least element of a set, and none where it has no element. -/
def Least (S : Set ℤ) : Option ℤ → Prop
  | some q => IsLeast S q
  | none => S = ∅

def Greatest (S : Set ℤ) : Option ℤ → Prop
  | some q => IsGreatest S q
  | none => S = ∅

variable {matched step}

theorem le_of_dvd_of_lt {a b : ℤ} (hdvd : step ∣ b - a) (hlt : a < b) :
    a + step ≤ b := by
  have hle := Int.le_of_dvd (by omega) hdvd
  omega

/-- Where a position is not matched, those above it are those above the next. -/
theorem above_next (hstep : 0 < step) {bound start : ℤ} (h : matched start = false) :
    Above matched step bound start = Above matched step bound (start + step) := by
  ext q
  constructor
  · rintro ⟨hle, hbound, hdvd, hq⟩
    have hne : start ≠ q := by
      rintro rfl
      simp [h] at hq
    refine ⟨le_of_dvd_of_lt hdvd (by omega), hbound, ?_, hq⟩
    rw [show q - (start + step) = q - start - step by omega]
    exact Int.dvd_sub hdvd (Int.dvd_refl step)
  · rintro ⟨hle, hbound, hdvd, hq⟩
    refine ⟨by omega, hbound, ?_, hq⟩
    rw [show q - start = q - (start + step) + step by omega]
    exact Int.dvd_add hdvd (Int.dvd_refl step)

theorem below_next (hstep : 0 < step) {start : ℤ} (h : matched start = false) :
    Below matched step start = Below matched step (start - step) := by
  ext q
  constructor
  · rintro ⟨hnonneg, hle, hdvd, hq⟩
    have hne : start ≠ q := by
      rintro rfl
      simp [h] at hq
    have hnext := le_of_dvd_of_lt hdvd (by omega)
    refine ⟨hnonneg, by omega, ?_, hq⟩
    rw [show start - step - q = start - q - step by omega]
    exact Int.dvd_sub hdvd (Int.dvd_refl step)
  · rintro ⟨hnonneg, hle, hdvd, hq⟩
    refine ⟨hnonneg, by omega, ?_, hq⟩
    rw [show start - q = start - step - q + step by omega]
    exact Int.dvd_add hdvd (Int.dvd_refl step)

theorem least_upRounds (hstep : 0 < step) (bound : ℤ) (rounds : ℕ) (index : ℤ)
    (h : bound - index ≤ rounds) :
    Least (Above matched step bound index) (upRounds matched step bound rounds index) := by
  induction rounds generalizing index with
  | zero =>
    apply Set.eq_empty_of_forall_notMem
    rintro q ⟨hle, hbound, -⟩
    omega
  | succ rounds ih =>
    rw [upRounds]
    split_ifs with hbound hmatched
    · refine ⟨⟨le_rfl, hbound, by simp, hmatched⟩, ?_⟩
      rintro q ⟨hle, -⟩
      exact hle
    · rw [above_next hstep (by simpa using hmatched)]
      refine ih _ ?_
      push_cast at h
      omega
    · apply Set.eq_empty_of_forall_notMem
      rintro q ⟨hle, hlt, -⟩
      omega

theorem greatest_downRounds (hstep : 0 < step) (rounds : ℕ) (index : ℤ) (h : index + 1 ≤ rounds) :
    Greatest (Below matched step index) (downRounds matched step rounds index) := by
  induction rounds generalizing index with
  | zero =>
    apply Set.eq_empty_of_forall_notMem
    rintro q ⟨hnonneg, hle, -⟩
    omega
  | succ rounds ih =>
    rw [downRounds]
    split_ifs with hnonneg hmatched
    · refine ⟨⟨hnonneg, le_rfl, by simp, hmatched⟩, ?_⟩
      rintro q ⟨-, hle, -⟩
      exact hle
    · rw [below_next hstep (by simpa using hmatched)]
      refine ih _ ?_
      push_cast at h
      omega
    · apply Set.eq_empty_of_forall_notMem
      rintro q ⟨hpos, hle, -⟩
      omega

/-- The loop upwards answers the least matched position it reaches. -/
theorem least_up (hstep : 0 < step) (bound start : ℤ) :
    Least (Above matched step bound start) (up matched step bound start) :=
  least_upRounds hstep bound _ start (by omega)

theorem greatest_down (hstep : 0 < step) (start : ℤ) :
    Greatest (Below matched step start) (down matched step start) :=
  greatest_downRounds hstep _ start (by omega)

end Scan

end Tabnode
