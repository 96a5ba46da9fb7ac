import Mathlib.Data.List.Basic
import Mathlib.Data.Nat.Notation

/-!
# UTF-16

Code units of bytes, the low one first, and the code units a decoder gives for them: a
surrogate without its other half becomes U+FFFD.
-/

namespace Tabnode

namespace Utf16

def IsLead (u : ℕ) : Prop := 0xD800 ≤ u ∧ u ≤ 0xDBFF

def IsTrail (u : ℕ) : Prop := 0xDC00 ≤ u ∧ u ≤ 0xDFFF

instance (u : ℕ) : Decidable (IsLead u) := inferInstanceAs (Decidable (_ ∧ _))

instance (u : ℕ) : Decidable (IsTrail u) := inferInstanceAs (Decidable (_ ∧ _))

def units : List UInt8 → List ℕ
  | a :: b :: bytes => (a.toNat + 256 * b.toNat) :: units bytes
  | [_] => []
  | [] => []

def toWellFormed : List ℕ → List ℕ
  | u :: v :: us =>
      if IsLead u ∧ IsTrail v then u :: v :: toWellFormed us
      else if IsLead u ∨ IsTrail u then 0xFFFD :: toWellFormed (v :: us)
      else u :: toWellFormed (v :: us)
  | [u] => if IsLead u ∨ IsTrail u then [0xFFFD] else [u]
  | [] => []

def WellFormed : List ℕ → Prop
  | u :: v :: us =>
      if IsLead u ∧ IsTrail v then WellFormed us
      else ¬ (IsLead u ∨ IsTrail u) ∧ WellFormed (v :: us)
  | [u] => ¬ (IsLead u ∨ IsTrail u)
  | [] => True

theorem units_append {x : List UInt8} (h : x.length % 2 = 0) (y : List UInt8) :
    units (x ++ y) = units x ++ units y := by
  induction x using units.induct with
  | case1 a b bytes ih =>
    have hlen : bytes.length % 2 = 0 := by
      simp only [List.length_cons] at h
      omega
    simp only [List.cons_append, units, ih hlen]
  | case2 a => simp at h
  | case3 => rfl

theorem length_toWellFormed (us : List ℕ) : (toWellFormed us).length = us.length := by
  fun_induction toWellFormed us with
  | case1 u v us h ih => simp [ih]
  | case2 u v us h h' ih => simp [ih]
  | case3 u v us h h' ih => simp [ih]
  | case4 u h => rfl
  | case5 u h => rfl
  | case6 => rfl

theorem ne_replacement {u : ℕ} (h : IsLead u ∨ IsTrail u) : (0xFFFD : ℕ) ≠ u := by
  simp only [IsLead, IsTrail] at h
  omega

theorem toWellFormed_eq_self_iff (us : List ℕ) : toWellFormed us = us ↔ WellFormed us := by
  fun_induction toWellFormed us with
  | case1 u v us h ih => simp [WellFormed, h, ih]
  | case2 u v us h h' ih =>
    rw [WellFormed, if_neg h]
    refine iff_of_false (fun heq => ne_replacement h' (List.cons.inj heq).1) fun hwell => ?_
    exact hwell.1 h'
  | case3 u v us h h' ih => simp [WellFormed, h, h', ih]
  | case4 u h =>
    refine iff_of_false (fun heq => ne_replacement h (List.cons.inj heq).1) fun hwell => ?_
    exact hwell h
  | case5 u h => simp [WellFormed, h]
  | case6 => simp [WellFormed]

theorem head?_toWellFormed_eq_bom_iff (us : List ℕ) :
    (toWellFormed us).head? = some 0xFEFF ↔ us.head? = some 0xFEFF := by
  have hbom : ¬ (IsLead 0xFEFF ∨ IsTrail 0xFEFF) := by decide
  fun_cases toWellFormed us with
  | case1 u v us h => simp
  | case2 u v us h h' =>
    refine iff_of_false (by simp) fun heq => hbom ?_
    rwa [← Option.some.inj heq]
  | case3 u v us h h' => simp
  | case4 u h =>
    refine iff_of_false (by simp) fun heq => hbom ?_
    rwa [← Option.some.inj heq]
  | case5 u h => simp
  | case6 => simp

theorem not_isLead_getLast_toWellFormed (us : List ℕ) {u : ℕ}
    (h : (toWellFormed us).getLast? = some u) : ¬ IsLead u := by
  fun_induction toWellFormed us with
  | case1 a v us hpair ih =>
    cases hrest : toWellFormed us with
    | nil =>
      rw [hrest] at h
      obtain rfl : v = u := by simpa using h
      have htrail := hpair.2
      simp only [IsLead, IsTrail] at htrail ⊢
      omega
    | cons b rest =>
      rw [hrest] at h ih
      exact ih (by simpa using h)
  | case2 a v us hpair hlone ih =>
    cases hrest : toWellFormed (v :: us) with
    | nil =>
      rw [hrest] at h
      obtain rfl : 0xFFFD = u := by simpa using h
      decide
    | cons b rest =>
      rw [hrest] at h ih
      exact ih (by simpa using h)
  | case3 a v us hpair hlone ih =>
    cases hrest : toWellFormed (v :: us) with
    | nil =>
      rw [hrest] at h
      obtain rfl : a = u := by simpa using h
      exact fun hlead => hlone (.inl hlead)
    | cons b rest =>
      rw [hrest] at h ih
      exact ih (by simpa using h)
  | case4 a hlone =>
    obtain rfl : 0xFFFD = u := by simpa using h
    decide
  | case5 a hlone =>
    obtain rfl : a = u := by simpa using h
    exact fun hlead => hlone (.inl hlead)
  | case6 => simp at h

end Utf16

end Tabnode
