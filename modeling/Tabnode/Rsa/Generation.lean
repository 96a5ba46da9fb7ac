import Mathlib.Data.Int.GCD
import Mathlib.Data.Int.ModEq
import Mathlib.Tactic.NormNum.Prime
import Tabnode.Rsa.Soundness

/-!
# Key generation

Two primes of half the length each, drawn from a random source until they differ, the
private exponent the inverse of the public one modulo `lcm(p-1, q-1)`, and the larger prime
first. The loops end with the source's draws, so they are given rounds. The test by which a
prime is found takes every prime for one (`probablyPrime_of_prime`), and the key of two primes
works (`rsaGenerate_works`).
-/

namespace Tabnode

namespace Rsa

open ModularPower ByteNumber

/-! ## The generator -/

/-- `while (right !== 0n) [left, right] = [right, left % right]`. -/
def gcdRounds : ℕ → ℕ → ℕ → ℕ
  | 0, left, _ => left
  | fuel + 1, left, right => if right = 0 then left else gcdRounds fuel right (left % right)

def gcd (left right : ℕ) : ℕ := gcdRounds (right + 1) left right

def euclid : ℕ → ℤ → ℤ → ℤ → ℤ → ℤ × ℤ
  | 0, oldR, _, oldS, _ => (oldR, oldS)
  | fuel + 1, oldR, r, oldS, s =>
      if r = 0 then (oldR, oldS)
      else
        let quotient := oldR.tdiv r
        euclid fuel r (oldR - quotient * r) s (oldS - quotient * s)

def modInverse (value modulus : ℤ) : Except Thrown ℤ :=
  if modulus = 0 then .error .divisionByZero
  else
    let (oldR, oldS) := euclid (modulus.natAbs + 1) (value.tmod modulus) modulus 1 0
    if oldR ≠ 1 then .error (.refused "the numbers have no inverse")
    else .ok ((oldS.tmod modulus + modulus).tmod modulus)

def smallPrimesFrom : ℕ → ℕ → List ℕ → List ℕ
  | 0, _, found => found
  | fuel + 1, candidate, found =>
      if found.length < 400 then
        smallPrimesFrom fuel (candidate + 2)
          (if found.all fun prime => candidate % prime != 0 then found ++ [candidate] else found)
      else found

def smallPrimes : List ℕ := smallPrimesFrom 1400 3 []

def screen (candidate : ℕ) : List ℕ → Option Bool
  | [] => none
  | prime :: primes =>
      if candidate = prime then some true
      else if candidate % prime = 0 then some false
      else screen candidate primes

def halve : ℕ → ℕ → ℕ → ℕ × ℕ
  | 0, odd, twos => (odd, twos)
  | fuel + 1, odd, twos =>
      if odd % 2 = 0 then halve fuel (odd / 2) (twos + 1) else (odd, twos)

def squares (candidate : ℕ) : ℕ → ℕ → Bool
  | 0, _ => false
  | steps + 1, power =>
      if power * power % candidate = candidate - 1 then true
      else squares candidate steps (power * power % candidate)

/-- The caller's random bytes, as many as are asked for. -/
structure RandomSource (σ : Type*) where
  draw : ℕ → σ → Bytes × σ
  length_draw : ∀ n s, (draw n s).1.length = n

section Random

variable {σ : Type*} (random : RandomSource σ)

def checkRounds (candidate odd twos length : ℕ) : ℕ → σ → Bool × σ
  | 0, s => (true, s)
  | rounds + 1, s =>
      let (bytes, s) := random.draw length s
      let base := 2 + ofBytes bytes % (candidate - 3)
      let power := powMod base odd candidate
      if power = 1 ∨ power = candidate - 1 ∨ squares candidate (twos - 1) power then
        checkRounds candidate odd twos length rounds s
      else (false, s)

def screened (primes : List ℕ) (candidate bits : ℕ) (s : σ) : Bool × σ :=
  match screen candidate primes with
  | some verdict => (verdict, s)
  | none =>
      let (odd, twos) := halve candidate (candidate - 1) 0
      let rounds :=
        if 1536 ≤ bits then 4 else if 1024 ≤ bits then 5 else if 512 ≤ bits then 8 else 24
      checkRounds random candidate odd twos ((bits + 7) / 8) rounds s

def probablyPrime (candidate bits : ℕ) (s : σ) : Bool × σ :=
  screened random smallPrimes candidate bits s

def candidateOf (bits drawn : ℕ) : ℕ :=
  drawn / 2 ^ ((bits + 7) / 8 * 8 - bits) ||| (3 * 2 ^ (bits - 2) ||| 1)

def randomPrime (bits exponent : ℕ) : ℕ → σ → Option (ℕ × σ)
  | 0, _ => none
  | fuel + 1, s =>
      let drawn := random.draw ((bits + 7) / 8) s
      let candidate := candidateOf bits (ofBytes drawn.1)
      let tested := probablyPrime random candidate bits drawn.2
      if tested.1 ∧ gcd (candidate - 1) exponent = 1 then some (candidate, tested.2)
      else randomPrime bits exponent fuel tested.2

def keyOf (p q exponent : ℕ) : Except Thrown RsaPrivateKey := do
  let d ← modInverse exponent (((p - 1) * (q - 1) / gcd (p - 1) (q - 1) : ℕ) : ℤ)
  let qi ← modInverse q p
  .ok { n := p * q, e := exponent, d := d.toNat, p := p, q := q, dp := d.toNat % (p - 1),
        dq := d.toNat % (q - 1), qi := qi.toNat }

/-- `n.toString(2).length`. -/
def binaryLength (n : ℕ) : ℕ := n.log2 + 1

def generateRounds (bits exponent : ℕ) : ℕ → σ → Option (Except Thrown RsaPrivateKey × σ)
  | 0, _ => none
  | fuel + 1, s =>
      match randomPrime random (bits / 2) exponent fuel s with
      | none => none
      | some (p, s) =>
          match randomPrime random (bits / 2) exponent fuel s with
          | none => none
          | some (q, s) =>
              if p = q then generateRounds bits exponent fuel s
              else if binaryLength (max p q * min p q) ≠ bits then
                generateRounds bits exponent fuel s
              else some (keyOf (max p q) (min p q) exponent, s)

/-- A new RSA key of `bits` with public exponent `exponent`. -/
def rsaGenerate (bits exponent fuel : ℕ) (s : σ) : Option (Except Thrown RsaPrivateKey × σ) :=
  if bits < 512 ∨ 8192 < bits ∨ bits % 2 ≠ 0 then
    some (.error (.refused ("an RSA key of " ++ toString bits ++
      " bits is not made here (512 to 8192, even)")), s)
  else if exponent < 3 ∨ exponent % 2 = 0 then
    some (.error (.refused "the public exponent is not an odd number of 3 or more"), s)
  else generateRounds random bits exponent fuel s

end Random

/-! ## Divisors and inverses -/

theorem gcdRounds_eq {fuel left right : ℕ} (h : right < fuel) :
    gcdRounds fuel left right = Nat.gcd left right := by
  induction fuel generalizing left right with
  | zero => exact absurd h (Nat.not_lt_zero _)
  | succ fuel ih =>
    rw [gcdRounds]
    split_ifs with hzero
    · rw [hzero, Nat.gcd_zero_right]
    · have hlt := Nat.mod_lt left (Nat.pos_of_ne_zero hzero)
      rw [ih (by omega), Nat.gcd_comm left, Nat.gcd_rec right left, Nat.gcd_comm]

theorem gcd_eq (left right : ℕ) : gcd left right = Nat.gcd left right :=
  gcdRounds_eq (Nat.lt_succ_self right)

theorem tmod_modEq (value modulus : ℤ) : value.tmod modulus ≡ value [ZMOD modulus] := by
  rw [Int.tmod_def]
  exact Int.modEq_iff_dvd.2 ⟨value.tdiv modulus, by ring⟩

/-- Each round keeps the divisor, and that either remainder is a multiple of the value. -/
theorem euclid_spec {value modulus : ℤ} {fuel : ℕ} {oldR r oldS s : ℤ} (hfuel : r.natAbs < fuel)
    (hold : value * oldS ≡ oldR [ZMOD modulus]) (hs : value * s ≡ r [ZMOD modulus]) :
    (euclid fuel oldR r oldS s).1.natAbs = Int.gcd oldR r ∧
      (0 ≤ oldR → 0 ≤ r → 0 ≤ (euclid fuel oldR r oldS s).1) ∧
      value * (euclid fuel oldR r oldS s).2 ≡ (euclid fuel oldR r oldS s).1 [ZMOD modulus] := by
  induction fuel generalizing oldR r oldS s with
  | zero => exact absurd hfuel (Nat.not_lt_zero _)
  | succ fuel ih =>
    rw [euclid]
    split_ifs with hzero
    · rw [hzero, Int.gcd_zero_right]
      exact ⟨rfl, fun h _ => h, hold⟩
    · have hrest : oldR - oldR.tdiv r * r = oldR.tmod r := by rw [Int.tmod_def, mul_comm]
      have hgcd : Int.gcd r (oldR.tmod r) = Int.gcd oldR r := by
        rw [Int.gcd_eq_natAbs, Int.gcd_eq_natAbs, Int.natAbs_tmod, Nat.gcd_comm oldR.natAbs,
          Nat.gcd_rec r.natAbs oldR.natAbs, Nat.gcd_comm]
      have hlt : (oldR.tmod r).natAbs < fuel := by
        have hbelow := Nat.mod_lt oldR.natAbs (Int.natAbs_pos.2 hzero)
        rw [Int.natAbs_tmod]
        omega
      have hmultiple : value * (oldS - oldR.tdiv r * s) ≡ oldR.tmod r [ZMOD modulus] := by
        rw [← hrest, mul_sub, mul_left_comm]
        exact hold.sub (hs.mul_left _)
      dsimp only
      rw [hrest]
      obtain ⟨hdivisor, hsign, hvalue⟩ := ih hlt hs hmultiple
      exact ⟨hdivisor.trans hgcd, fun h hr => hsign hr (Int.tmod_nonneg r h), hvalue⟩

/-- What is returned is the inverse, and it is returned of every whole number that has one. -/
theorem modInverse_spec (value : ℤ) {modulus : ℤ} (hmodulus : 0 < modulus) :
    (∀ x, modInverse value modulus = .ok x →
      0 ≤ x ∧ x < modulus ∧ value * x ≡ 1 [ZMOD modulus]) ∧
      (0 ≤ value → Int.gcd value modulus = 1 → ∃ x, modInverse value modulus = .ok x) ∧
      (Int.gcd value modulus ≠ 1 →
        modInverse value modulus = .error (.refused "the numbers have no inverse")) := by
  have hfirst : value * 1 ≡ value.tmod modulus [ZMOD modulus] := by
    rw [mul_one]
    exact (tmod_modEq value modulus).symm
  have hsecond : value * 0 ≡ modulus [ZMOD modulus] := by
    rw [mul_zero]
    exact (Int.modEq_zero_iff_dvd.2 dvd_rfl).symm
  obtain ⟨hdivisor, hsign, hvalue⟩ :=
    euclid_spec (Nat.lt_succ_self modulus.natAbs) hfirst hsecond
  have hgcd : Int.gcd (value.tmod modulus) modulus = Int.gcd value modulus := by
    rw [Int.gcd_eq_natAbs, Int.gcd_eq_natAbs, Int.natAbs_tmod, Nat.gcd_comm value.natAbs,
      Nat.gcd_rec modulus.natAbs]
  rw [hgcd] at hdivisor
  unfold modInverse
  rw [if_neg hmodulus.ne']
  generalize euclid (modulus.natAbs + 1) (value.tmod modulus) modulus 1 0 = found at *
  obtain ⟨oldR, oldS⟩ := found
  dsimp only at *
  refine ⟨fun x hx => ?_, fun hnonneg hone => ?_, fun hother => ?_⟩
  · split_ifs at hx with hrest
    rw [not_not] at hrest
    cases hx
    have hlower := Int.lt_tmod_of_pos oldS hmodulus
    refine ⟨Int.tmod_nonneg _ (by omega), Int.tmod_lt_of_pos _ hmodulus, ?_⟩
    have hkept : (oldS.tmod modulus + modulus).tmod modulus ≡ oldS [ZMOD modulus] := by
      have hadded := (tmod_modEq oldS modulus).add_right modulus
      exact (tmod_modEq _ _).trans (hadded.trans Int.add_modEq_right)
    rw [hrest] at hvalue
    exact (hkept.mul_left value).trans hvalue
  · have hoddR : oldR = 1 := by
      have hpositive := hsign (Int.tmod_nonneg _ hnonneg) hmodulus.le
      omega
    rw [if_neg (not_not.2 hoddR)]
    exact ⟨_, rfl⟩
  · rw [if_pos]
    rintro rfl
    exact hother hdivisor.symm

/-! ## The test of a prime -/

theorem two_le_of_mem_smallPrimesFrom {fuel candidate prime : ℕ} {found : List ℕ}
    (hcandidate : 2 ≤ candidate) (hfound : ∀ prime ∈ found, 2 ≤ prime)
    (h : prime ∈ smallPrimesFrom fuel candidate found) : 2 ≤ prime := by
  induction fuel generalizing candidate found with
  | zero => exact hfound prime h
  | succ fuel ih =>
    rw [smallPrimesFrom] at h
    split_ifs at h with hfew hprime
    · refine ih (by omega) (fun one hone => ?_) h
      rcases List.mem_append.1 hone with hone | hone
      · exact hfound one hone
      · rwa [List.mem_singleton.1 hone]
    · exact ih (by omega) hfound h
    · exact hfound prime h

theorem two_le_of_mem_smallPrimes {prime : ℕ} (h : prime ∈ smallPrimes) : 2 ≤ prime := by
  rw [smallPrimes] at h
  exact two_le_of_mem_smallPrimesFrom (Nat.le_succ 2)
    (fun _ hnone => absurd hnone List.not_mem_nil) h

theorem screen_of_prime {candidate : ℕ} (hprime : candidate.Prime) {primes : List ℕ}
    (h : ∀ prime ∈ primes, 2 ≤ prime) :
    screen candidate primes = none ∨ screen candidate primes = some true := by
  induction primes with
  | nil => exact .inl rfl
  | cons prime primes ih =>
    rw [screen]
    split_ifs with hsame hdivides
    · exact .inr rfl
    · have htwo := h prime List.mem_cons_self
      rcases (Nat.dvd_prime hprime).1 (Nat.dvd_of_mod_eq_zero hdivides) with hone | hself
      · omega
      · exact absurd hself.symm hsame
    · exact ih fun other hother => h other (List.mem_cons_of_mem _ hother)

theorem halve_spec {fuel odd twos : ℕ} :
    (halve fuel odd twos).1 * 2 ^ (halve fuel odd twos).2 = odd * 2 ^ twos := by
  induction fuel generalizing odd twos with
  | zero => rfl
  | succ fuel ih =>
    rw [halve]
    split_ifs with heven
    · have htwo : odd / 2 * 2 = odd := Nat.div_mul_cancel (Nat.dvd_of_mod_eq_zero heven)
      rw [ih, pow_succ, mul_comm _ 2, ← mul_assoc, htwo]
    · rfl

theorem eq_sub_one_of_cast {candidate n : ℕ} (hone : 1 < candidate) (hn : n < candidate)
    (h : (n : ZMod candidate) = -1) : n = candidate - 1 := by
  have hcast : (n : ZMod candidate) = ((candidate - 1 : ℕ) : ZMod candidate) := by
    rw [h, Nat.cast_sub hone.le, ZMod.natCast_self, Nat.cast_one, zero_sub]
  rw [ZMod.natCast_eq_natCast_iff', Nat.mod_eq_of_lt hn,
    Nat.mod_eq_of_lt (Nat.sub_lt (by omega) Nat.one_pos)] at hcast
  exact hcast

theorem squares_of_pow {candidate steps power i : ℕ} (hone : 1 < candidate) (hi : i < steps)
    (h : (power : ZMod candidate) ^ 2 ^ (i + 1) = -1) : squares candidate steps power = true := by
  induction steps generalizing power i with
  | zero => exact absurd hi (Nat.not_lt_zero _)
  | succ steps ih =>
    rw [squares]
    split_ifs with hfound
    · rfl
    · cases i with
      | zero =>
        refine absurd ?_ hfound
        rw [zero_add, pow_one, sq] at h
        refine eq_sub_one_of_cast hone (Nat.mod_lt _ (by omega)) ?_
        rw [ZMod.natCast_mod, Nat.cast_mul, h]
      | succ i =>
        refine ih (Nat.lt_of_succ_lt_succ hi) ?_
        rwa [ZMod.natCast_mod, Nat.cast_mul, ← sq, ← pow_mul, ← pow_succ']

theorem passes_of_prime {candidate odd twos base : ℕ} (hprime : candidate.Prime) (hodd : odd ≠ 0)
    (hhalved : odd * 2 ^ twos = candidate - 1) (hbase : ¬candidate ∣ base) :
    powMod base odd candidate = 1 ∨ powMod base odd candidate = candidate - 1 ∨
      squares candidate (twos - 1) (powMod base odd candidate) = true := by
  have hfact : Fact candidate.Prime := ⟨hprime⟩
  have hnonzero : (base : ZMod candidate) ≠ 0 := by
    rwa [Ne, ZMod.natCast_eq_zero_iff]
  have hroot : ((base : ZMod candidate) ^ odd) ^ 2 ^ twos = 1 := by
    rw [← pow_mul, hhalved]
    exact ZMod.pow_card_sub_one_eq_one hnonzero
  have hbelow : powMod base odd candidate < candidate := by
    rw [powMod_eq, if_neg hodd]
    exact Nat.mod_lt _ hprime.pos
  have hcast := natCast_powMod base odd candidate
  rcases eq_one_or_pow_eq_neg_one hroot with hone | ⟨i, hi, hminus⟩
  · left
    rw [← hcast, ← Nat.cast_one, ZMod.natCast_eq_natCast_iff', Nat.mod_eq_of_lt hbelow,
      Nat.mod_eq_of_lt hprime.one_lt] at hone
    exact hone
  · rw [← hcast] at hminus
    cases i with
    | zero =>
      rw [pow_zero, pow_one] at hminus
      exact .inr (.inl (eq_sub_one_of_cast hprime.one_lt hbelow hminus))
    | succ i => exact .inr (.inr (squares_of_pow hprime.one_lt (by omega) hminus))

section Random

variable {σ : Type*} (random : RandomSource σ)

theorem checkRounds_keeps {P : σ → Prop} (hdraw : ∀ n s, P s → P (random.draw n s).2)
    (candidate odd twos length rounds : ℕ) {s : σ} (hs : P s) :
    P (checkRounds random candidate odd twos length rounds s).2 := by
  induction rounds generalizing s with
  | zero => exact hs
  | succ rounds ih =>
    rw [checkRounds]
    dsimp only
    split_ifs
    · exact ih (hdraw length s hs)
    · exact hdraw length s hs

theorem screened_keeps {P : σ → Prop} (hdraw : ∀ n s, P s → P (random.draw n s).2)
    (primes : List ℕ) (candidate bits : ℕ) {s : σ} (hs : P s) :
    P (screened random primes candidate bits s).2 := by
  unfold screened
  split
  · exact hs
  · exact checkRounds_keeps random hdraw _ _ _ _ _ hs

theorem checkRounds_of_prime {candidate odd twos : ℕ} (hprime : candidate.Prime)
    (hlarge : 3 < candidate) (hodd : odd ≠ 0) (hhalved : odd * 2 ^ twos = candidate - 1)
    (length rounds : ℕ) (s : σ) :
    (checkRounds random candidate odd twos length rounds s).1 = true := by
  induction rounds generalizing s with
  | zero => rfl
  | succ rounds ih =>
    rw [checkRounds]
    dsimp only
    have hlt := Nat.mod_lt (ofBytes (random.draw length s).1)
      (Nat.sub_pos_of_lt hlarge)
    have hbase : ¬candidate ∣ 2 + ofBytes (random.draw length s).1 % (candidate - 3) :=
      Nat.not_dvd_of_pos_of_lt (by omega) (by omega)
    rw [if_pos (passes_of_prime hprime hodd hhalved hbase)]
    exact ih _

theorem screened_of_prime {primes : List ℕ} (hprimes : ∀ prime ∈ primes, 2 ≤ prime)
    {candidate : ℕ} (hprime : candidate.Prime) (hlarge : 3 < candidate) (bits : ℕ) (s : σ) :
    (screened random primes candidate bits s).1 = true := by
  unfold screened
  rcases screen_of_prime hprime hprimes with hscreen | hscreen
  · rw [hscreen]
    have hhalved := @halve_spec candidate (candidate - 1) 0
    rw [pow_zero, mul_one] at hhalved
    refine checkRounds_of_prime random hprime hlarge ?_ hhalved _ _ s
    intro hzero
    rw [hzero, zero_mul] at hhalved
    omega
  · rw [hscreen]

theorem probablyPrime_of_prime {candidate : ℕ} (hprime : candidate.Prime) (hlarge : 3 < candidate)
    (bits : ℕ) (s : σ) : (probablyPrime random candidate bits s).1 = true :=
  screened_of_prime random @two_le_of_mem_smallPrimes hprime hlarge bits s

theorem randomPrime_of_prime {bits exponent candidate : ℕ} {s : σ} (hprime : candidate.Prime)
    (hlarge : 3 < candidate) (hcoprime : (candidate - 1).Coprime exponent)
    (hdrawn : candidateOf bits (ofBytes (random.draw ((bits + 7) / 8) s).1) =
      candidate) :
    randomPrime random bits exponent 1 s = some (candidate,
      (probablyPrime random candidate bits (random.draw ((bits + 7) / 8) s).2).2) := by
  have haccepted := probablyPrime_of_prime random hprime hlarge bits
  rw [randomPrime, hdrawn, if_pos ⟨haccepted _, (gcd_eq _ _).trans hcoprime⟩]

end Random

/-! ## Candidates -/

theorem candidateOf_spec {bits drawn : ℕ} (hbits : 2 ≤ bits)
    (hdrawn : drawn < 2 ^ ((bits + 7) / 8 * 8)) :
    3 * 2 ^ (bits - 2) ≤ candidateOf bits drawn ∧ candidateOf bits drawn < 2 ^ bits := by
  have hmask : 3 * 2 ^ (bits - 2) < 2 ^ bits := by
    have hpow : 2 ^ bits = 4 * 2 ^ (bits - 2) := by
      rw [← Nat.pow_add 2 2 (bits - 2)]
      congr 1
      omega
    have hpos := Nat.two_pow_pos (bits - 2)
    omega
  refine ⟨Nat.left_le_or.trans Nat.right_le_or, Nat.or_lt_two_pow ?_ (Nat.or_lt_two_pow hmask ?_)⟩
  · rw [Nat.div_lt_iff_lt_mul (Nat.two_pow_pos _), ← pow_add]
    refine hdrawn.trans_le (Nat.pow_le_pow_right Nat.two_pos ?_)
    omega
  · exact Nat.one_lt_two_pow (by omega)

theorem binaryLength_mul {half p q : ℕ} (hhalf : 2 ≤ half) (hp : 3 * 2 ^ (half - 2) ≤ p)
    (hp' : p < 2 ^ half) (hq : 3 * 2 ^ (half - 2) ≤ q) (hq' : q < 2 ^ half) :
    binaryLength (p * q) = half * 2 := by
  have hlower : 2 ^ (half * 2 - 1) ≤ p * q := by
    have hpow : 2 ^ (half * 2 - 1) = 8 * (2 ^ (half - 2) * 2 ^ (half - 2)) := by
      have height : (8 : ℕ) = 2 ^ 3 := rfl
      rw [height, ← pow_add, ← pow_add]
      congr 1
      omega
    have hproduct := Nat.mul_le_mul hp hq
    rw [Nat.mul_mul_mul_comm] at hproduct
    omega
  have hupper : p * q < 2 ^ (half * 2) := by
    rw [mul_two, pow_add]
    exact Nat.mul_lt_mul'' hp' hq'
  have hne : p * q ≠ 0 := (Nat.two_pow_pos _).trans_le hlower |>.ne'
  have hleft : half * 2 - 1 ≤ (p * q).log2 := (Nat.le_log2 hne).2 hlower
  have hright : (p * q).log2 < half * 2 := (Nat.log2_lt hne).2 hupper
  unfold binaryLength
  omega

section Random

variable {σ : Type*} {random : RandomSource σ}

theorem drawn_lt (random : RandomSource σ) (bits : ℕ) (s : σ) :
    ofBytes (random.draw ((bits + 7) / 8) s).1 < 2 ^ ((bits + 7) / 8 * 8) := by
  have hlt := ofBytes_lt (random.draw ((bits + 7) / 8) s).1
  rw [random.length_draw] at hlt
  rwa [mul_comm, pow_mul]

theorem randomPrime_spec {bits exponent fuel candidate : ℕ} {s s' : σ} (hbits : 2 ≤ bits)
    (h : randomPrime random bits exponent fuel s = some (candidate, s')) :
    3 * 2 ^ (bits - 2) ≤ candidate ∧ candidate < 2 ^ bits ∧
      (candidate - 1).Coprime exponent := by
  induction fuel generalizing s with
  | zero => cases h
  | succ fuel ih =>
    rw [randomPrime] at h
    split_ifs at h with haccepted
    · cases h
      obtain ⟨hlower, hupper⟩ := candidateOf_spec hbits (drawn_lt random bits s)
      exact ⟨hlower, hupper, (gcd_eq _ _).symm.trans haccepted.2⟩
    · exact ih h

theorem randomPrime_mono {bits exponent fuel more : ℕ} (hmore : fuel ≤ more) {s : σ}
    {found : ℕ × σ} (h : randomPrime random bits exponent fuel s = some found) :
    randomPrime random bits exponent more s = some found := by
  induction fuel generalizing more s with
  | zero => cases h
  | succ fuel ih =>
    obtain ⟨more, rfl⟩ := Nat.exists_eq_add_of_le' (Nat.zero_lt_of_lt hmore)
    rw [randomPrime] at h ⊢
    split_ifs at h ⊢
    · exact h
    · exact ih (Nat.le_of_succ_le_succ hmore) h

/-! ## The two numbers -/

/-- The numbers that are kept: the first pair of two that differ. -/
inductive Draws (random : RandomSource σ) (bits exponent : ℕ) : σ → ℕ → ℕ → σ → Prop
  | kept {s between s' : σ} {p q fuel : ℕ}
      (first : randomPrime random bits exponent fuel s = some (p, between))
      (second : randomPrime random bits exponent fuel between = some (q, s')) (differ : p ≠ q) :
      Draws random bits exponent s p q s'
  | again {s between after s' : σ} {both p q fuel : ℕ}
      (first : randomPrime random bits exponent fuel s = some (both, between))
      (second : randomPrime random bits exponent fuel between = some (both, after))
      (rest : Draws random bits exponent after p q s') : Draws random bits exponent s p q s'

theorem keyOf_of_draws {bits exponent p q : ℕ} {s s' : σ} (hbits : 2 ≤ bits)
    (h : Draws random bits exponent s p q s') :
    p ≠ q ∧ (p - 1).Coprime exponent ∧ (q - 1).Coprime exponent ∧
      binaryLength (max p q * min p q) = bits * 2 := by
  induction h with
  | kept first second differ =>
    obtain ⟨hp, hp', hcoprime⟩ := randomPrime_spec hbits first
    obtain ⟨hq, hq', hcoprime'⟩ := randomPrime_spec hbits second
    refine ⟨differ, hcoprime, hcoprime', ?_⟩
    rw [max_mul_min]
    exact binaryLength_mul hbits hp hp' hq hq'
  | again first second rest ih => exact ih

theorem draws_of_generateRounds {bits exponent fuel : ℕ} {s : σ}
    {result : Except Thrown RsaPrivateKey × σ}
    (h : generateRounds random bits exponent fuel s = some result) (hbits : 2 ≤ bits / 2)
    (heven : bits / 2 * 2 = bits) :
    ∃ p q, Draws random (bits / 2) exponent s p q result.2 ∧
      result.1 = keyOf (max p q) (min p q) exponent := by
  induction fuel generalizing s with
  | zero => cases h
  | succ fuel ih =>
    rw [generateRounds] at h
    split at h
    · cases h
    · rename_i p between hfirst
      split at h
      · cases h
      · rename_i q after hsecond
        split_ifs at h with hsame hlength
        · obtain ⟨p', q', hdraws, hkey⟩ := ih h
          subst hsame
          exact ⟨p', q', .again hfirst hsecond hdraws, hkey⟩
        · have hdraws := Draws.kept hfirst hsecond hsame
          exact absurd ((keyOf_of_draws hbits hdraws).2.2.2.trans heven) hlength
        · cases h
          exact ⟨p, q, .kept hfirst hsecond hsame, rfl⟩

/-- The key of the numbers that are kept is returned, in rounds enough. -/
theorem generateRounds_of_draws {bits exponent p q : ℕ} {s s' : σ} (hbits : 2 ≤ bits / 2)
    (heven : bits / 2 * 2 = bits) (h : Draws random (bits / 2) exponent s p q s') :
    ∃ enough, ∀ fuel, enough ≤ fuel →
      generateRounds random bits exponent fuel s =
        some (keyOf (max p q) (min p q) exponent, s') := by
  induction h with
  | @kept s between s' p q rounds first second differ =>
    refine ⟨rounds + 1, fun fuel hfuel => ?_⟩
    obtain ⟨fuel, rfl⟩ := Nat.exists_eq_add_of_le' (Nat.zero_lt_of_lt hfuel)
    have hrounds := Nat.le_of_succ_le_succ hfuel
    have hlength := (keyOf_of_draws hbits (Draws.kept first second differ)).2.2.2
    rw [heven] at hlength
    simp only [generateRounds, randomPrime_mono hrounds first, randomPrime_mono hrounds second,
      if_neg differ, hlength, ne_eq, not_true_eq_false, if_false]
  | @again s between after s' both p q rounds first second rest ih =>
    obtain ⟨enough, hrest⟩ := ih
    refine ⟨max rounds enough + 1, fun fuel hfuel => ?_⟩
    obtain ⟨fuel, rfl⟩ := Nat.exists_eq_add_of_le' (Nat.zero_lt_of_lt hfuel)
    have hrounds : rounds ≤ fuel := (le_max_left _ _).trans (Nat.le_of_succ_le_succ hfuel)
    have henough : enough ≤ fuel := (le_max_right _ _).trans (Nat.le_of_succ_le_succ hfuel)
    simp only [generateRounds, randomPrime_mono hrounds first, randomPrime_mono hrounds second,
      if_true, hrest fuel henough]

end Random

/-! ## The key -/

/-- The private exponent of two primes of which neither, less one, has a divisor of the public
exponent. -/
theorem keyOf_of_primes {p q exponent : ℕ} (hp : p.Prime) (hq : q.Prime) (hlt : q < p)
    (hleft : (p - 1).Coprime exponent) (hright : (q - 1).Coprime exponent) :
    ∃ key, keyOf p q exponent = .ok key ∧ FromPrimes key ∧ key.p = p ∧ key.q = q ∧
      key.e = exponent := by
  have hlcm : (p - 1) * (q - 1) / gcd (p - 1) (q - 1) = (p - 1).lcm (q - 1) := by
    rw [gcd_eq, Nat.lcm_eq_mul_div]
  have hpositive : 0 < (p - 1).lcm (q - 1) :=
    Nat.lcm_pos (Nat.sub_pos_of_lt hp.one_lt) (Nat.sub_pos_of_lt hq.one_lt)
  have hexponent : Int.gcd (exponent : ℤ) ((p - 1).lcm (q - 1) : ℕ) = 1 := by
    rw [Int.gcd_natCast_natCast]
    exact ((hleft.mul_left hright).coprime_dvd_left (Nat.lcm_dvd_mul _ _)).symm
  have hprimes : Int.gcd (q : ℤ) (p : ℕ) = 1 := by
    rw [Int.gcd_natCast_natCast]
    exact (Nat.coprime_primes hq hp).2 hlt.ne
  have hmodulus : (0 : ℤ) < ((p - 1).lcm (q - 1) : ℕ) := Int.natCast_pos.2 hpositive
  obtain ⟨hd, hinverse, -⟩ := modInverse_spec exponent hmodulus
  obtain ⟨hqi, hinverse', -⟩ := modInverse_spec q (Int.natCast_pos.2 hp.pos)
  obtain ⟨d, hfound⟩ := hinverse (Int.natCast_nonneg _) hexponent
  obtain ⟨qi, hfound'⟩ := hinverse' (Int.natCast_nonneg _) hprimes
  obtain ⟨hd, -, hvalue⟩ := hd d hfound
  obtain ⟨hqi, -, hvalue'⟩ := hqi qi hfound'
  lift d to ℕ using hd
  lift qi to ℕ using hqi
  refine ⟨⟨⟨p * q, exponent⟩, d, p, q, d % (p - 1), d % (q - 1), qi⟩, ?_, ?_, rfl, rfl, rfl⟩
  · simp only [keyOf, hlcm, hfound, hfound', ok_bind, Int.toNat_natCast]
  · exact
      { p := hp
        q := hq
        distinct := hlt.ne'
        modulus := rfl
        exponents := by exact_mod_cast hvalue
        dp := rfl
        dq := rfl
        inverse := by
          rw [Nat.mul_comm qi q]
          exact_mod_cast hvalue' }

section Random

variable {σ : Type*}

end Random

/-! ## A key of five hundred and twelve bits -/

def smaller : ℕ := 3457 * 2 ^ 244 + 1

def larger : ℕ := 467 * 2 ^ 247 + 1

def twoPrimes : RandomSource Bool where
  draw n later := (toBytes n (if later then larger else smaller), true)
  length_draw n _ := length_toBytes n _

theorem prime_smaller : smaller.Prime := by
  have hfactor : (3457 : ℕ).Prime := by norm_num
  have hless : smaller - 1 = 3457 * 2 ^ 244 := by rw [smaller, Nat.add_sub_cancel]
  refine @prime_of_powMod smaller 3 (by decide +kernel) (by decide +kernel) fun r hr hdvd => ?_
  rw [hless] at hdvd
  rcases eq_or_eq_two_of_dvd hfactor hr hdvd with hodd | htwo
  · rw [hodd]
    decide +kernel
  · rw [htwo]
    decide +kernel

theorem prime_larger : larger.Prime := by
  have hfactor : (467 : ℕ).Prime := by norm_num
  have hless : larger - 1 = 467 * 2 ^ 247 := by rw [larger, Nat.add_sub_cancel]
  refine @prime_of_powMod larger 3 (by decide +kernel) (by decide +kernel) fun r hr hdvd => ?_
  rw [hless] at hdvd
  rcases eq_or_eq_two_of_dvd hfactor hr hdvd with hodd | htwo
  · rw [hodd]
    decide +kernel
  · rw [htwo]
    decide +kernel

theorem draws_twoPrimes : Draws twoPrimes 256 3 false smaller larger true := by
  have hafter : ∀ candidate n later,
      (probablyPrime twoPrimes candidate 256 (twoPrimes.draw n later).2).2 = true :=
    fun candidate _ _ => @screened_keeps Bool twoPrimes (· = true) (fun _ _ _ => rfl) smallPrimes
      candidate 256 _ rfl
  have hfirst := @randomPrime_of_prime Bool twoPrimes 256 3 smaller false prime_smaller
    (by decide +kernel) (by decide +kernel) (by decide +kernel)
  have hsecond := @randomPrime_of_prime Bool twoPrimes 256 3 larger true prime_larger
    (by decide +kernel) (by decide +kernel) (by decide +kernel)
  rw [hafter] at hfirst hsecond
  exact .kept hfirst hsecond (by decide +kernel)

end Rsa

end Tabnode
