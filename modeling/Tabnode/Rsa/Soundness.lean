import Tabnode.Rsa.Signing

/-!
# What is signed is verified

A signature that leaves is one that its own public half takes, of every key whose primes
are not zero and multiply to no more than its modulus; the reader of DER takes no others.
Where the primes are primes and the exponents are what they should be, it is the power of
the encoded message.
-/

namespace Tabnode

namespace Rsa

open ModularPower ByteNumber List

/-! ## Keys -/

/-- The reader of DER takes no other numbers. -/
structure Checked (key : RsaPrivateKey) : Prop where
  n : key.n ≠ 0
  e : key.e ≠ 0
  p : 1 < key.p
  q : 1 < key.q
  modulus : key.p * key.q = key.n

variable {key : RsaPrivateKey}

theorem checked_of_privateNumbers {der : Bytes} {parts : List Element}
    (h : privateNumbers der parts = .ok key) : Checked key := by
  unfold privateNumbers at h
  split at h
  · cases h
  · obtain ⟨version, -, h⟩ := bind_eq_ok h
    split at h
    · cases h
    · obtain ⟨n, -, h⟩ := bind_eq_ok h
      obtain ⟨e, -, h⟩ := bind_eq_ok h
      obtain ⟨d, -, h⟩ := bind_eq_ok h
      obtain ⟨p, -, h⟩ := bind_eq_ok h
      obtain ⟨q, -, h⟩ := bind_eq_ok h
      obtain ⟨dp, -, h⟩ := bind_eq_ok h
      obtain ⟨dq, -, h⟩ := bind_eq_ok h
      obtain ⟨qi, -, h⟩ := bind_eq_ok h
      split at h
      · cases h
      · rename_i hnumbers
        cases h
        simp only [not_or, not_le, not_not] at hnumbers
        obtain ⟨hn, he, hp, hq, hmodulus⟩ := hnumbers
        exact ⟨hn, he, hp, hq, hmodulus⟩

theorem checked_of_readPrivateKey {fuel : ℕ} {der : Bytes}
    (h : readPrivateKey fuel der = .ok key) : Checked key := by
  induction fuel generalizing der with
  | zero => cases h
  | succ fuel ih =>
    rw [readPrivateKey] at h
    obtain ⟨top, -, h⟩ := bind_eq_ok h
    split at h
    · cases h
    · obtain ⟨parts, -, h⟩ := bind_eq_ok h
      split at h
      · obtain ⟨rsa, -, h⟩ := bind_eq_ok h
        split at h
        · cases h
        · split at h
          · split at h
            · exact ih h
            · cases h
          · cases h
      · exact checked_of_privateNumbers h

/-! ## Numbers of a length -/

theorem lt_byteLength (n : ℕ) : n < 256 ^ byteLength n := by
  have hlog : n < 2 ^ (n.log2 + 1) := Nat.lt_log2_self
  have hexponent : n.log2 + 1 ≤ 8 * byteLength n := by
    unfold byteLength
    omega
  calc n < 2 ^ (n.log2 + 1) := hlog
    _ ≤ 2 ^ (8 * byteLength n) := Nat.pow_le_pow_right (by decide) hexponent
    _ = 256 ^ byteLength n := by rw [Nat.pow_mul]

theorem byteLength_le {n : ℕ} (hn : n ≠ 0) : 256 ^ (byteLength n - 1) ≤ n := by
  have hexponent : 8 * (byteLength n - 1) ≤ n.log2 := by
    unfold byteLength
    omega
  calc 256 ^ (byteLength n - 1) = 2 ^ (8 * (byteLength n - 1)) := by rw [Nat.pow_mul]
    _ ≤ 2 ^ n.log2 := Nat.pow_le_pow_right (by decide) hexponent
    _ ≤ n := Nat.log2_self_le hn

/-! ## Encoded messages -/

variable {digest : String} {hash bytes : Bytes} {length : ℕ}

/-- What is encoded is as long as asked, and begins with the bytes 0 and 1. -/
theorem encoded_spec (h : encoded digest hash length = .ok bytes) :
    bytes.length = length ∧ ∃ rest, bytes = 0 :: 1 :: rest ∧ 9 ≤ rest.length := by
  unfold encoded at h
  split at h
  · cases h
  · split at h
    · cases h
    · split at h
      · cases h
      · rename_i info _ _ hlong
        cases h
        refine ⟨?_, List.replicate (length - (info.length + hash.length) - 3) 0xff ++ [0x00] ++
          info ++ hash, rfl, ?_⟩
        · simp only [emsa, length_append, length_cons, length_nil,
            length_replicate]
          omega
        · simp only [length_append, length_cons, length_nil,
            length_replicate]
          omega

theorem encoded_refused {thrown : Thrown}
    (h : encoded digest hash length = .error thrown) : ∃ message, thrown = .refused message := by
  unfold encoded at h
  split at h
  · cases h
    exact ⟨_, rfl⟩
  · split at h
    · cases h
      exact ⟨_, rfl⟩
    · split at h
      · cases h
        exact ⟨_, rfl⟩
      · cases h

theorem one_lt_of_encoded
    (h : encoded digest hash length = .ok bytes) : 1 < ofBytes bytes := by
  obtain ⟨-, rest, rfl, hrest⟩ := encoded_spec h
  rw [ofBytes_cons, ofBytes_cons]
  have hpow : 256 ^ 1 ≤ 256 ^ rest.length := Nat.pow_le_pow_right (by decide) (by omega)
  have hone : (1 : UInt8).toNat = 1 := rfl
  have hzero : (0 : UInt8).toNat = 0 := rfl
  rw [hone, hzero]
  omega

theorem lt_of_encoded {n : ℕ} (hn : n ≠ 0)
    (h : encoded digest hash (byteLength n) = .ok bytes) : ofBytes bytes < n := by
  obtain ⟨hlength, rest, rfl, -⟩ := encoded_spec h
  have hrest : ofBytes (1 :: rest) < 256 ^ (1 :: rest).length :=
    ofBytes_lt _
  have hzero : ofBytes (0 :: 1 :: rest) = ofBytes (1 :: rest) := by
    rw [ofBytes_cons]
    have h : (0 : UInt8).toNat = 0 := rfl
    rw [h, Nat.mul_zero, Nat.zero_add]
  have hn := byteLength_le hn
  rw [← hlength] at hn
  rw [hzero]
  exact Nat.lt_of_lt_of_le hrest hn

/-! ## Signatures -/

/-- A signature is refused, or it is one that the public half of its key takes. No other
exception is thrown. -/
def Sound (key : RsaPrivateKey) (digest : String) (hash : Bytes) : Prop :=
  (∃ message, rsaSign digest hash key = .error (.refused message)) ∨
    ∃ signature, rsaSign digest hash key = .ok signature ∧
      rsaVerify digest hash key.toRsaPublicKey signature = .ok true

def signed (key : RsaPrivateKey) (message : ℕ) : ℕ :=
  recombine key.p key.q key.qi (powMod (message % key.p) key.dp key.p)
    (powMod (message % key.q) key.dq key.q)

theorem rsaSign_eq (hn : key.n ≠ 0) (hp : key.p ≠ 0) (hq : key.q ≠ 0)
    (h : encoded digest hash (byteLength key.n) = .ok bytes) : rsaSign digest hash key =
      if powMod (signed key (ofBytes bytes)) key.e key.n ≠ ofBytes bytes then
        .error (.refused "the signature did not check against the key's public half")
      else .ok (toBytes (byteLength key.n) (signed key (ofBytes bytes))) := by
  simp only [rsaSign, h, ok_bind, bigMod, modPow, if_neg hn, if_neg hp, if_neg hq, signed]
  rfl

theorem rsaVerify_eq {s : ℕ} (hn : key.n ≠ 0)
    (h : encoded digest hash (byteLength key.n) = .ok bytes) (hs : s < key.n)
    (hopened : powMod s key.e key.n = ofBytes bytes) :
    rsaVerify digest hash key.toRsaPublicKey (toBytes (byteLength key.n) s) =
      .ok true := by
  have hgiven : ofBytes (toBytes (byteLength key.n) s) = s :=
    ofBytes_toBytes_of_lt (Nat.lt_trans hs (lt_byteLength key.n))
  have hbytes : toBytes (byteLength key.n) (ofBytes bytes) = bytes := by
    rw [← (encoded_spec h).1, toBytes_ofBytes]
  simp only [rsaVerify, length_toBytes, hgiven, h, modPow, if_neg hn,
    if_neg (Nat.not_le.2 hs), hopened, hbytes, ok_bind, beq_self_eq_true]
  simp

/-- What leaves is checked, and below the modulus where the primes are not too large for
it. -/
theorem sound_of_mul_le (hn : key.n ≠ 0) (hp : key.p ≠ 0) (hq : key.q ≠ 0)
    (hmodulus : key.p * key.q ≤ key.n) (digest : String) (hash : Bytes) :
    Sound key digest hash := by
  cases hencoded : encoded digest hash (byteLength key.n) with
  | error thrown =>
    obtain ⟨message, rfl⟩ := encoded_refused hencoded
    refine .inl ⟨message, ?_⟩
    simp only [rsaSign, hencoded, error_bind]
  | ok bytes =>
    have hsign := rsaSign_eq hn hp hq hencoded
    by_cases hopened : powMod (signed key (ofBytes bytes)) key.e key.n =
        ofBytes bytes
    · rw [if_neg (not_not.2 hopened)] at hsign
      have hle : signed key (ofBytes bytes) ≤ key.n :=
        (recombine_le (Nat.pos_of_ne_zero hp) (powMod_le hq _ _)).trans hmodulus
      have hne : signed key (ofBytes bytes) ≠ key.n := by
        intro heq
        have hself := powMod_self_le key.e key.n
        rw [heq] at hopened
        rw [hopened] at hself
        exact absurd (one_lt_of_encoded hencoded) (Nat.not_lt.2 hself)
      exact .inr ⟨_, hsign, rsaVerify_eq hn hencoded (Nat.lt_of_le_of_ne hle hne) hopened⟩
    · rw [if_pos hopened] at hsign
      exact .inl ⟨_, hsign⟩

/-! ## Keys of primes -/

/-- The numbers of a key are made of two primes as they should be. -/
structure FromPrimes (key : RsaPrivateKey) : Prop where
  p : key.p.Prime
  q : key.q.Prime
  distinct : key.p ≠ key.q
  modulus : key.n = key.p * key.q
  exponents : key.e * key.d ≡ 1 [MOD (key.p - 1).lcm (key.q - 1)]
  dp : key.dp = key.d % (key.p - 1)
  dq : key.dq = key.d % (key.q - 1)
  inverse : key.qi * key.q ≡ 1 [MOD key.p]

theorem sub_one_eq_one {r k : ℕ} (h : 0 ≡ 1 [MOD k]) (hr : r - 1 ∣ k) (hprime : r.Prime) :
    r = 2 := by
  have hone : k = 1 := Nat.dvd_one.1 ((Nat.modEq_iff_dvd' (Nat.zero_le 1)).1 h)
  rw [hone, Nat.dvd_one] at hr
  have hpos := hprime.two_le
  omega

theorem FromPrimes.mul_pos (h : FromPrimes key) : 0 < key.d * key.e := by
  rw [Nat.pos_iff_ne_zero, Nat.mul_comm]
  intro hzero
  have hexponents := h.exponents
  rw [hzero] at hexponents
  exact h.distinct ((sub_one_eq_one hexponents (Nat.dvd_lcm_left _ _) h.p).trans
    (sub_one_eq_one hexponents (Nat.dvd_lcm_right _ _) h.q).symm)

variable {m : ℕ}

/-- The power of one half is that of the whole, but for an even message modulo 2. -/
theorem powMod_half {r d e : ℕ} (hr : r.Prime) (hpositive : 0 < d) (h : e * d ≡ 1 [MOD r - 1])
    (hodd : r ≠ 2 ∨ m % 2 = 1) : powMod (m % r) (d % (r - 1)) r = m ^ d % r := by
  rw [powMod_eq]
  split
  · rename_i hzero
    have hnone : 0 ≡ 1 [MOD r - 1] := by
      have hdvd : r - 1 ∣ e * d := Dvd.dvd.mul_left (Nat.dvd_of_mod_eq_zero hzero) e
      exact (Nat.modEq_zero_iff_dvd.2 hdvd).symm.trans h
    have htwo : r = 2 := sub_one_eq_one hnone (dvd_refl _) hr
    have hm : m % 2 = 1 := hodd.resolve_left (not_not.2 htwo)
    rw [htwo, Nat.pow_mod, hm, one_pow, Nat.mod_eq_of_lt (by decide : 1 < 2)]
  · rename_i hsome
    rw [← Nat.pow_mod]
    exact pow_modEq_pow hr m (Nat.pos_of_ne_zero hsome) hpositive (Nat.mod_modEq _ _)

/-- The two halves of a key of primes make the power of the whole. -/
theorem signed_eq (h : FromPrimes key)
    (hodd : key.p ≠ 2 ∧ key.q ≠ 2 ∨ m % 2 = 1) : signed key m = m ^ key.d % key.n := by
  have hpositive : 0 < key.d := Nat.pos_of_mul_pos_right h.mul_pos
  have hcoprime : key.p.Coprime key.q := (Nat.coprime_primes h.p h.q).2 h.distinct
  have hleft : powMod (m % key.p) key.dp key.p = m ^ key.d % key.p := by
    rw [h.dp]
    exact powMod_half h.p hpositive (h.exponents.of_dvd (Nat.dvd_lcm_left _ _)) (hodd.imp_left And.left)
  have hright : powMod (m % key.q) key.dq key.q = m ^ key.d % key.q := by
    rw [h.dq]
    exact powMod_half h.q hpositive (h.exponents.of_dvd (Nat.dvd_lcm_right _ _))
      (hodd.imp_left And.right)
  have hresidue : ∀ {r : ℕ}, r ∣ key.n → m ^ key.d % key.n ≡ m ^ key.d % r [MOD r] := by
    intro r hr
    exact ((Nat.mod_modEq _ _).of_dvd hr).trans (Nat.mod_modEq _ _).symm
  rw [signed, hleft, hright]
  refine recombine_eq h.p.pos hcoprime h.inverse ?_ (Nat.mod_lt _ h.q.pos)
    (hresidue ?_) (hresidue ?_)
  · rw [← h.modulus]
    exact Nat.mod_lt _ (h.modulus ▸ Nat.mul_pos h.p.pos h.q.pos)
  · rw [h.modulus]
    exact Nat.dvd_mul_right _ _
  · rw [h.modulus]
    exact Nat.dvd_mul_left _ _

theorem powMod_signed (h : FromPrimes key) (hm : m < key.n)
    (hodd : key.p ≠ 2 ∧ key.q ≠ 2 ∨ m % 2 = 1) : powMod (signed key m) key.e key.n = m := by
  have hexponent : key.e ≠ 0 := (Nat.pos_of_mul_pos_left h.mul_pos).ne'
  have hopened : (m ^ key.d % key.n) ^ key.e ≡ m [MOD key.n] := by
    refine ((Nat.mod_modEq _ _).pow _).trans ?_
    rw [h.modulus]
    exact pow_pow_modEq h.p h.q h.distinct h.mul_pos h.exponents m
  rw [signed_eq h hodd, powMod_eq, if_neg hexponent]
  exact Eq.trans hopened (Nat.mod_eq_of_lt hm)

theorem rsaSign_of_primes (h : FromPrimes key)
    (hencoded : encoded digest hash (byteLength key.n) = .ok bytes)
    (hodd : key.p ≠ 2 ∧ key.q ≠ 2 ∨ ofBytes bytes % 2 = 1) :
    rsaSign digest hash key = .ok (toBytes (byteLength key.n)
      (ofBytes bytes ^ key.d % key.n)) := by
  have hn : key.n ≠ 0 := by
    rw [h.modulus]
    exact Nat.mul_ne_zero h.p.ne_zero h.q.ne_zero
  rw [rsaSign_eq hn h.p.ne_zero h.q.ne_zero hencoded,
    if_neg (not_not.2 (powMod_signed h (lt_of_encoded hn hencoded) hodd)), signed_eq h hodd]

theorem n_ne_zero_of_jwk {jwk : Jwk}
    (h : rsaKeyFromJwk jwk = .ok (some (.privateKey key))) : key.n ≠ 0 := by
  unfold rsaKeyFromJwk at h
  obtain ⟨n, -, h⟩ := bind_eq_ok h
  obtain ⟨e, -, h⟩ := bind_eq_ok h
  split at h
  · rename_i n e
    split at h
    · cases h
    · rename_i hpositive
      split at h
      · cases h
      · unfold privateKeyFromJwk at h
        obtain ⟨d, -, h⟩ := bind_eq_ok h
        obtain ⟨p, -, h⟩ := bind_eq_ok h
        obtain ⟨q, -, h⟩ := bind_eq_ok h
        obtain ⟨dp, -, h⟩ := bind_eq_ok h
        obtain ⟨dq, -, h⟩ := bind_eq_ok h
        obtain ⟨qi, -, h⟩ := bind_eq_ok h
        split at h
        · cases h
          exact fun hn => hpositive (.inl hn)
        · cases h
  · cases h

/-- A hash of its digest's length, under a modulus that is long enough, is encoded. -/
theorem encoded_eq {info : Bytes} (hinfo : digestInfo.lookup digest = some info)
    (hhash : hash.length = (info.getLastD 0).toNat)
    (hlong : info.length + hash.length + 11 ≤ length) :
    encoded digest hash length = .ok (emsa info hash length) := by
  simp only [encoded, hinfo]
  rw [if_neg (not_not.2 hhash), if_neg (Nat.not_lt.2 hlong)]

/-- A key that the reader of DER takes, or that of a JWK where its primes are not zero and
multiply to no more than its modulus, makes no signature that is not verified; and where
its numbers are made of primes it makes the power of the encoded hash. -/
theorem rsaSign_sound (key : RsaPrivateKey) (digest : String) (hash : Bytes) :
    ((∃ der, rsaPrivateKeyFromDer der = .ok key) ∨
        (∃ jwk, rsaKeyFromJwk jwk = .ok (some (.privateKey key))) ∧ key.p ≠ 0 ∧ key.q ≠ 0 ∧
          key.p * key.q ≤ key.n →
      Sound key digest hash) ∧
    ∀ info, FromPrimes key → digestInfo.lookup digest = some info →
      hash.length = (info.getLastD 0).toNat →
      info.length + hash.length + 11 ≤ byteLength key.n →
      (key.p ≠ 2 ∧ key.q ≠ 2 ∨
        ofBytes (emsa info hash (byteLength key.n)) % 2 = 1) →
      rsaSign digest hash key = .ok (toBytes (byteLength key.n)
        (ofBytes (emsa info hash (byteLength key.n)) ^ key.d % key.n)) := by
  refine ⟨fun hkey => ?_, fun info hprimes hinfo hhash hlong hodd =>
    rsaSign_of_primes hprimes (encoded_eq hinfo hhash hlong) hodd⟩
  rcases hkey with ⟨der, hder⟩ | ⟨⟨jwk, hjwk⟩, hp, hq, hmodulus⟩
  · have hchecked := checked_of_readPrivateKey hder
    exact sound_of_mul_le hchecked.n (Nat.ne_of_gt (Nat.zero_lt_one.trans hchecked.p))
      (Nat.ne_of_gt (Nat.zero_lt_one.trans hchecked.q)) hchecked.modulus.le digest hash
  · exact sound_of_mul_le (n_ne_zero_of_jwk hjwk) hp hq hmodulus digest hash

/-! ## A key of forty-five bytes -/

def largePrime : ℕ := 3 * (2 ^ 176 * 2 ^ 177) + 1

theorem prime_largePrime : largePrime.Prime := by
  refine @prime_of_powMod largePrime 5 (by decide +kernel) (by decide +kernel) fun r hr hdvd => ?_
  have hfactor : largePrime - 1 = 3 * 2 ^ (176 + 177) := by
    rw [pow_add, largePrime, Nat.add_sub_cancel]
  rw [hfactor] at hdvd
  rcases eq_or_eq_two_of_dvd Nat.prime_three hr hdvd with rfl | rfl
  · decide +kernel
  · decide +kernel

def oddKey : RsaPrivateKey where
  n := largePrime * 3
  e := 5
  d := (4 * (largePrime - 1) + 1) / 5
  p := largePrime
  q := 3
  dp := (4 * (largePrime - 1) + 1) / 5
  dq := 1
  qi := (2 * largePrime + 1) / 3

def oddKeyDer : Bytes :=
  [0x30, 0x81, 247, 2, 1, 0] ++
    ([2, 45, 18] ++ List.replicate 43 0 ++ [3]) ++ [2, 1, 5] ++
    ([2, 45, 4] ++ List.replicate 43 204 ++ [205]) ++
    ([2, 45, 6] ++ List.replicate 43 0 ++ [1]) ++ [2, 1, 3] ++
    ([2, 45, 4] ++ List.replicate 43 204 ++ [205]) ++ [2, 1, 1] ++
    ([2, 45, 4] ++ List.replicate 43 0 ++ [1])

theorem fromPrimes_oddKey : FromPrimes oddKey where
  p := prime_largePrime
  q := Nat.prime_three
  distinct := by decide +kernel
  modulus := rfl
  exponents := by decide +kernel
  dp := by decide +kernel
  dq := by decide +kernel
  inverse := by decide +kernel

theorem rsaSign_sound_oddKey :
    Sound oddKey "md5" (List.replicate 16 7) ∧
      rsaSign "md5" (List.replicate 16 7) oddKey = .ok (toBytes 45
        (ofBytes (emsa ((digestInfo.lookup "md5").getD []) (List.replicate 16 7) 45) ^
          oddKey.d % oddKey.n)) := by
  obtain ⟨hsound, hsigned⟩ := rsaSign_sound oddKey "md5" (List.replicate 16 7)
  have hlength : byteLength oddKey.n = 45 := by decide +kernel
  rw [hlength] at hsigned
  exact ⟨hsound (.inl ⟨oddKeyDer, by decide +kernel⟩), hsigned _ fromPrimes_oddKey rfl rfl (by decide)
    (.inl ⟨by decide +kernel, by decide +kernel⟩)⟩

def zeroJwk : Jwk where
  n := .string ('g' :: List.replicate 58 'A' ++ ['B'])
  e := .string ['A', 'w']
  d := .string ['A', 'Q']
  p := .string ['A', 'A']
  q := .string ['A', 'w']
  dp := .string ['A', 'Q']
  dq := .string ['A', 'Q']
  qi := .string ['A', 'Q']

def zeroKey : RsaPrivateKey where
  n := 0x80 * 256 ^ 44 + 1
  e := 3
  d := 1
  p := 0
  q := 3
  dp := 1
  dq := 1
  qi := 1

def evenKey : RsaPrivateKey where
  n := 2 * largePrime
  e := 5
  d := (4 * (largePrime - 1) + 1) / 5
  p := 2
  q := largePrime
  dp := 0
  dq := (4 * (largePrime - 1) + 1) / 5
  qi := 1

theorem fromPrimes_evenKey : FromPrimes evenKey where
  p := Nat.prime_two
  q := prime_largePrime
  distinct := by decide +kernel
  modulus := rfl
  exponents := by decide +kernel
  dp := by decide +kernel
  dq := by decide +kernel
  inverse := by decide +kernel

/-- A key of a JWK that divides by zero, and a key of primes that signs no even
message. -/
theorem not_rsaSign_sound :
    (∃ key, rsaKeyFromJwk zeroJwk = .ok (some (.privateKey key)) ∧
      rsaSign "md5" (List.replicate 16 0) key = .error .divisionByZero) ∧
    FromPrimes evenKey ∧ 18 + 16 + 11 ≤ byteLength evenKey.n ∧
      ∃ message, rsaSign "md5" (List.replicate 16 0) evenKey = .error (.refused message) := by
  refine ⟨⟨zeroKey, by decide +kernel, by decide +kernel⟩, fromPrimes_evenKey,
    by decide +kernel, "the signature did not check against the key's public half", ?_⟩
  decide +kernel

end Rsa

end Tabnode
