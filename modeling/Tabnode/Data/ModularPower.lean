import Mathlib.Data.Nat.ChineseRemainder
import Mathlib.FieldTheory.Finite.Basic
import Mathlib.NumberTheory.LucasPrimality
import Mathlib.Tactic.Ring

/-!
# Powers under a modulus

Powers by squaring, and what they are modulo two primes: an exponent counts modulo the
prime less one, and where two exponents multiply to one the second power undoes the first.
A number is found again from its residues modulo the primes by the inverse of one of them
(`recombine`).
-/

namespace Tabnode

namespace ModularPower

def rounds (modulus : ℕ) : ℕ → ℕ → ℕ → ℕ → ℕ
  | 0, _, _, result => result
  | fuel + 1, left, power, result =>
    if left = 0 then result
    else
      rounds modulus fuel (left / 2) (power * power % modulus)
        (if left % 2 = 1 then result * power % modulus else result)

def powMod (base exponent modulus : ℕ) : ℕ :=
  rounds modulus (exponent.log2 + 1) exponent (base % modulus) 1

theorem rounds_eq {modulus fuel left : ℕ} (hfuel : left < 2 ^ fuel) (power result : ℕ) :
    rounds modulus fuel left power result =
      if left = 0 then result else result * power ^ left % modulus := by
  induction fuel generalizing left power result with
  | zero =>
    have hzero : left = 0 := by simpa using hfuel
    rw [rounds, if_pos hzero]
  | succ fuel ih =>
    by_cases hzero : left = 0
    · rw [rounds, if_pos hzero, if_pos hzero]
    · have hhalf : left / 2 < 2 ^ fuel := by
        rw [pow_succ] at hfuel
        omega
      have hsquare : (power * power % modulus) ^ (left / 2) ≡ power ^ (2 * (left / 2))
          [MOD modulus] := by
        rw [pow_mul, pow_two]
        exact (Nat.mod_modEq _ _).pow _
      rw [rounds, if_neg hzero, if_neg hzero, ih hhalf]
      by_cases hone : left / 2 = 0
      · have hleft : left = 1 := by omega
        rw [if_pos hone, hleft, if_pos rfl, pow_one]
      · rw [if_neg hone]
        by_cases hodd : left % 2 = 1
        · rw [if_pos hodd]
          have hleft : power * power ^ (2 * (left / 2)) = power ^ left := by
            rw [← pow_succ']
            congr 1
            omega
          refine ((Nat.mod_modEq _ _).mul hsquare).trans ?_
          rw [mul_assoc, hleft]
        · rw [if_neg hodd]
          have hleft : 2 * (left / 2) = left := by omega
          rw [hleft] at hsquare
          exact hsquare.mul_left _

theorem powMod_eq (base exponent modulus : ℕ) :
    powMod base exponent modulus = if exponent = 0 then 1 else base ^ exponent % modulus := by
  rw [powMod, rounds_eq Nat.lt_log2_self, one_mul, ← Nat.pow_mod]

theorem powMod_modEq (base exponent modulus : ℕ) :
    powMod base exponent modulus ≡ base ^ exponent [MOD modulus] := by
  rw [powMod_eq]
  split
  · rename_i hzero
    rw [hzero, pow_zero]
  · exact Nat.mod_modEq _ _

/-- Powers in the ring of residues, as a primality test takes them. -/
theorem natCast_powMod (base exponent modulus : ℕ) :
    ((powMod base exponent modulus : ℕ) : ZMod modulus) = (base : ZMod modulus) ^ exponent := by
  rw [← Nat.cast_pow, ZMod.natCast_eq_natCast_iff]
  exact powMod_modEq base exponent modulus

theorem powMod_le {modulus : ℕ} (h : modulus ≠ 0) (base exponent : ℕ) :
    powMod base exponent modulus ≤ modulus := by
  rw [powMod_eq]
  split
  · exact Nat.one_le_iff_ne_zero.2 h
  · exact (Nat.mod_lt _ (Nat.pos_of_ne_zero h)).le

theorem powMod_self_le (exponent modulus : ℕ) : powMod modulus exponent modulus ≤ 1 := by
  rw [powMod_eq]
  split
  · exact le_rfl
  · rename_i hexponent
    rw [Nat.mod_eq_zero_of_dvd (dvd_pow_self modulus hexponent)]
    exact Nat.zero_le 1

/-- A number is a prime where some power tells it, as Lucas has it. -/
theorem prime_of_powMod {p a : ℕ} (hone : 1 < p) (hwhole : powMod a (p - 1) p = 1)
    (hparts : ∀ r, r.Prime → r ∣ p - 1 → powMod a ((p - 1) / r) p % p ≠ 1) : p.Prime := by
  have hpow : ∀ k, (a : ZMod p) ^ k = 1 ↔ powMod a k p % p = 1 := by
    intro k
    rw [← natCast_powMod, ← Nat.cast_one, ZMod.natCast_eq_natCast_iff', Nat.mod_eq_of_lt hone]
  refine lucas_primality p (a : ZMod p) ?_ fun r hr hdvd => ?_
  · rw [hpow, hwhole, Nat.mod_eq_of_lt hone]
  · rw [Ne, hpow]
    exact hparts r hr hdvd

theorem eq_or_eq_two_of_dvd {k r n : ℕ} (hk : k.Prime) (hr : r.Prime) (hdvd : r ∣ k * 2 ^ n) :
    r = k ∨ r = 2 := by
  rcases hr.dvd_mul.1 hdvd with hodd | htwo
  · exact .inl ((Nat.prime_dvd_prime_iff_eq hr hk).1 hodd)
  · exact .inr ((Nat.prime_dvd_prime_iff_eq hr Nat.prime_two).1 (hr.dvd_of_dvd_pow htwo))

/-- A root of 1 in so many squarings is 1, or one of the squares before is -1. -/
theorem eq_one_or_pow_eq_neg_one {R : Type*} [CommRing R] [NoZeroDivisors R] {x : R} {k : ℕ}
    (h : x ^ 2 ^ k = 1) : x = 1 ∨ ∃ i < k, x ^ 2 ^ i = -1 := by
  induction k with
  | zero =>
    rw [pow_zero, pow_one] at h
    exact .inl h
  | succ k ih =>
    rw [pow_succ, pow_mul, sq_eq_one_iff] at h
    rcases h with hone | hminus
    · obtain hone | ⟨i, hi, hminus⟩ := ih hone
      · exact .inl hone
      · exact .inr ⟨i, hi.trans (Nat.lt_succ_self k), hminus⟩
    · exact .inr ⟨k, Nat.lt_succ_self k, hminus⟩

/-! ## Exponents -/

/-- Exponents that agree modulo a prime less one give the same power. -/
theorem pow_modEq_pow {p : ℕ} (hp : p.Prime) (a : ℕ) {i j : ℕ} (hi : 0 < i) (hj : 0 < j)
    (h : i ≡ j [MOD p - 1]) : a ^ i ≡ a ^ j [MOD p] := by
  have hle : ∀ {i j : ℕ}, 0 < i → i ≤ j → i ≡ j [MOD p - 1] → a ^ i ≡ a ^ j [MOD p] := by
    intro i j hi hij h
    by_cases hdvd : p ∣ a
    · have hzero : ∀ {k : ℕ}, 0 < k → a ^ k ≡ 0 [MOD p] := fun hk =>
        Nat.modEq_zero_iff_dvd.2 (dvd_pow hdvd hk.ne')
      exact (hzero hi).trans (hzero (hi.trans_le hij)).symm
    · obtain ⟨k, hk⟩ := (Nat.modEq_iff_dvd' hij).1 h
      have hj : j = i + (p - 1) * k := by omega
      have hone : a ^ (p - 1) ≡ 1 [MOD p] := by
        rw [← Nat.totient_prime hp]
        exact Nat.ModEq.pow_totient ((Nat.Prime.coprime_iff_not_dvd hp).2 hdvd).symm
      have hpow := (hone.pow k).mul_left (a ^ i)
      rw [one_pow, mul_one, ← pow_mul, ← pow_add, ← hj] at hpow
      exact hpow.symm
  rcases le_total i j with hij | hji
  · exact hle hi hij h
  · exact (hle hj hji h.symm).symm

/-- Where two exponents multiply to one modulo both primes less one, one power undoes the
other. -/
theorem pow_pow_modEq {p q e d : ℕ} (hp : p.Prime) (hq : q.Prime) (hpq : p ≠ q)
    (hpositive : 0 < d * e) (h : e * d ≡ 1 [MOD (p - 1).lcm (q - 1)]) (a : ℕ) :
    (a ^ d) ^ e ≡ a [MOD p * q] := by
  have hmod : ∀ {r : ℕ}, r.Prime → r - 1 ∣ (p - 1).lcm (q - 1) → (a ^ d) ^ e ≡ a [MOD r] := by
    intro r hr hdvd
    have hexponents : d * e ≡ 1 [MOD r - 1] := by
      rw [mul_comm]
      exact h.of_dvd hdvd
    have hpow := pow_modEq_pow hr a hpositive Nat.one_pos hexponents
    rwa [pow_mul, pow_one] at hpow
  exact (Nat.modEq_and_modEq_iff_modEq_mul ((Nat.coprime_primes hp hq).2 hpq)).1
    ⟨hmod hp (Nat.dvd_lcm_left _ _), hmod hq (Nat.dvd_lcm_right _ _)⟩

/-! ## Two residues -/

/-- What is to be added, in multiples of `q`, to a residue modulo `q` for a residue modulo
`p`. -/
def lift (p qi first second : ℕ) : ℕ :=
  qi * (((first : ℤ) - second).tmod p + p).toNat % p

/-- The number of two residues, by the inverse of `q` modulo `p`. -/
def recombine (p q qi first second : ℕ) : ℕ := second + lift p qi first second * q

variable {p q qi first second : ℕ}

theorem difference_modEq (hp : 0 < p) (first second : ℕ) :
    (((first : ℤ) - second).tmod p + p).toNat + second ≡ first [MOD p] := by
  have hlower : -(p : ℤ) < ((first : ℤ) - second).tmod p :=
    Int.lt_tmod_of_pos _ (by exact_mod_cast hp)
  have hcast : ((((first : ℤ) - second).tmod p + p).toNat : ℤ) =
      ((first : ℤ) - second).tmod p + p := Int.toNat_of_nonneg (by omega)
  have hdvd : (p : ℤ) ∣ (first : ℤ) - second - ((first : ℤ) - second).tmod p :=
    Int.dvd_self_sub_tmod
  rw [← Int.natCast_modEq_iff, Int.modEq_iff_dvd, Nat.cast_add, hcast]
  have heq : (first : ℤ) - (((first : ℤ) - second).tmod p + p + second) =
      (first : ℤ) - second - ((first : ℤ) - second).tmod p - p := by ring
  rw [heq]
  exact dvd_sub hdvd (dvd_refl _)

theorem recombine_le (hp : 0 < p) (hsecond : second ≤ q) :
    recombine p q qi first second ≤ p * q := by
  have hlift : lift p qi first second < p := Nat.mod_lt _ hp
  calc recombine p q qi first second
      ≤ q + lift p qi first second * q := Nat.add_le_add_right hsecond _
    _ = (lift p qi first second + 1) * q := by ring
    _ ≤ p * q := Nat.mul_le_mul_right q hlift

theorem recombine_lt (hp : 0 < p) (hsecond : second < q) :
    recombine p q qi first second < p * q := by
  have hlift : lift p qi first second < p := Nat.mod_lt _ hp
  calc recombine p q qi first second
      < q + lift p qi first second * q := Nat.add_lt_add_right hsecond _
    _ = (lift p qi first second + 1) * q := by ring
    _ ≤ p * q := Nat.mul_le_mul_right q hlift

theorem recombine_modEq_right : recombine p q qi first second ≡ second [MOD q] := by
  have h : lift p qi first second * q ≡ 0 [MOD q] :=
    Nat.modEq_zero_iff_dvd.2 (Dvd.intro_left _ rfl)
  exact h.add_left second

theorem recombine_modEq_left (hp : 0 < p) (hqi : qi * q ≡ 1 [MOD p]) :
    recombine p q qi first second ≡ first [MOD p] := by
  have hlift : lift p qi first second * q ≡
      (((first : ℤ) - second).tmod p + p).toNat [MOD p] := by
    have h := ((Nat.mod_modEq (qi * (((first : ℤ) - second).tmod p + p).toNat) p).mul_right q)
    refine h.trans ?_
    have hone := hqi.mul_right (((first : ℤ) - second).tmod p + p).toNat
    rw [one_mul] at hone
    rwa [mul_right_comm]
  have h := (hlift.add_left second).trans ((Nat.add_comm _ _) ▸ difference_modEq hp first second)
  exact h

theorem recombine_eq {x : ℕ} (hp : 0 < p) (hcoprime : p.Coprime q) (hqi : qi * q ≡ 1 [MOD p])
    (hx : x < p * q) (hsecond : second < q) (hleft : x ≡ first [MOD p])
    (hright : x ≡ second [MOD q]) : recombine p q qi first second = x := by
  have hmod : recombine p q qi first second ≡ x [MOD p * q] :=
    (Nat.modEq_and_modEq_iff_modEq_mul hcoprime).1
      ⟨(recombine_modEq_left hp hqi).trans hleft.symm, recombine_modEq_right.trans hright.symm⟩
  exact hmod.eq_of_lt_of_lt (recombine_lt hp hsecond) hx

end ModularPower

end Tabnode
