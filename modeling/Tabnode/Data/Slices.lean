import Mathlib.Data.List.Basic

/-!
# A list in slices of a length

`slices n l` cuts a list in slices of `n`, the last one shorter. The slices joined are
the list, and none is longer than `n` or empty.
-/

namespace Tabnode

namespace Slices

open List

def first {α : Type*} (n : ℕ) : ℕ → List α → List (List α)
  | 0, _ => []
  | _ + 1, [] => []
  | k + 1, x :: l => (x :: l).take n :: first n k ((x :: l).drop n)

def slices {α : Type*} (n : ℕ) (l : List α) : List (List α) := first n l.length l

variable {α : Type*} {n : ℕ}

variable {k : ℕ} {l : List α}

theorem flatten_first (hn : 0 < n) (hk : l.length ≤ k) : (first n k l).flatten = l := by
  induction k generalizing l with
  | zero =>
    rw [length_eq_zero_iff.1 (Nat.le_zero.1 hk)]
    rfl
  | succ k ih =>
    cases l with
    | nil => rfl
    | cons x l =>
      have hrest : ((x :: l).drop n).length ≤ k := by
        rw [length_drop, length_cons]
        rw [length_cons] at hk
        omega
      rw [first, flatten_cons, ih hrest, take_append_drop]

theorem flatten_slices (hn : 0 < n) (l : List α) : (slices n l).flatten = l :=
  flatten_first hn (Nat.le_refl _)

variable {s : List α}

theorem length_le_of_mem_first (h : s ∈ first n k l) : s.length ≤ n := by
  induction k generalizing l with
  | zero => simp [first] at h
  | succ k ih =>
    cases l with
    | nil => simp [first] at h
    | cons x l =>
      rcases mem_cons.1 h with rfl | hmem
      · exact length_take_le n _
      · exact ih hmem

theorem length_le_of_mem_slices (h : s ∈ slices n l) : s.length ≤ n :=
  length_le_of_mem_first h

theorem first_of_le (hn : 0 < n) (hk : l.length ≤ k) : first n k l = slices n l := by
  induction k using Nat.strongRecOn generalizing l with
  | ind k ih =>
    cases l with
    | nil => cases k <;> rfl
    | cons x l =>
      cases k with
      | zero => simp at hk
      | succ k =>
        have hdrop : ((x :: l).drop n).length ≤ l.length := by
          rw [length_drop, length_cons]
          omega
        have hl : l.length ≤ k := by simpa using hk
        rw [slices, length_cons, first, first,
          ih k (Nat.lt_succ_self k) (Nat.le_trans hdrop hl)]
        rcases Nat.lt_or_ge l.length (k + 1) with hless | hge
        · rw [ih l.length hless hdrop]
        · omega

theorem slices_of_ne_nil (hn : 0 < n) (h : l ≠ []) :
    slices n l = l.take n :: slices n (l.drop n) := by
  cases l with
  | nil => exact absurd rfl h
  | cons x l =>
    have hdrop : ((x :: l).drop n).length ≤ l.length := by
      rw [length_drop, length_cons]
      omega
    rw [slices, length_cons, first, first_of_le hn hdrop]

theorem slices_append (hn : 0 < n) {x : List α} (h : n ∣ x.length) (y : List α) :
    slices n (x ++ y) = slices n x ++ slices n y := by
  obtain ⟨k, hk⟩ := h
  induction k generalizing x with
  | zero =>
    obtain rfl : x = [] := length_eq_zero_iff.1 (by simpa using hk)
    rfl
  | succ k ih =>
    have hlong : n ≤ x.length := by
      rw [hk]
      exact Nat.le_mul_of_pos_right n (Nat.succ_pos k)
    have hx : x ≠ [] := by
      rintro rfl
      simp at hlong
      omega
    have hrest : (x.drop n).length = n * k := by
      rw [length_drop, hk, Nat.mul_succ, Nat.add_sub_cancel]
    rw [slices_of_ne_nil hn (by simp [hx]), slices_of_ne_nil hn hx,
      take_append_of_le_length hlong, drop_append_of_le_length hlong, ih hrest,
      cons_append]

theorem length_of_mem_slices (hn : 0 < n) (h : n ∣ l.length)
    (hs : s ∈ slices n l) : s.length = n := by
  obtain ⟨k, hk⟩ := h
  induction k generalizing l with
  | zero =>
    obtain rfl : l = [] := length_eq_zero_iff.1 (by simpa using hk)
    simp [slices, first] at hs
  | succ k ih =>
    have hlong : n ≤ l.length := by
      rw [hk]
      exact Nat.le_mul_of_pos_right n (Nat.succ_pos k)
    have hl : l ≠ [] := by
      rintro rfl
      simp at hlong
      omega
    rw [slices_of_ne_nil hn hl] at hs
    rcases mem_cons.1 hs with rfl | hmem
    · exact length_take_of_le hlong
    · refine ih hmem ?_
      rw [length_drop, hk, Nat.mul_succ, Nat.add_sub_cancel]

theorem slices_of_length (hn : 0 < n) (h : l.length = n) : slices n l = [l] := by
  have hl : l ≠ [] := by
    rintro rfl
    simp at h
    omega
  rw [slices_of_ne_nil hn hl, take_of_length_le (Nat.le_of_eq h),
    drop_of_length_le (Nat.le_of_eq h)]
  rfl

theorem slices_flatten (hn : 0 < n) {ss : List (List α)} (h : ∀ s ∈ ss, s.length = n) :
    slices n ss.flatten = ss := by
  induction ss with
  | nil => rfl
  | cons s ss ih =>
    have hs : s.length = n := h s (by simp)
    rw [flatten_cons, slices_append hn ⟨1, by simp [hs]⟩, slices_of_length hn hs,
      ih fun t ht => h t (by simp [ht])]
    rfl

end Slices

end Tabnode
