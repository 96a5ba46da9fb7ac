import Mathlib.Data.List.Basic
import Mathlib.Data.UInt

/-!
# Numbers as bytes

A number below `256 ^ w` is `w` bytes, the most significant first (`toBytes`, `ofBytes`).
Underneath both is the same number with the least significant byte first, which is how a
carry runs (`increment`).
-/

namespace Tabnode

namespace ByteNumber

open List

def ofLittle : List UInt8 → ℕ
  | [] => 0
  | b :: bs => b.toNat + 256 * ofLittle bs

def toLittle : ℕ → ℕ → List UInt8
  | 0, _ => []
  | w + 1, n => UInt8.ofNat n :: toLittle w (n / 256)

def ofBytes (bs : List UInt8) : ℕ := ofLittle bs.reverse

def toBytes (w n : ℕ) : List UInt8 := (toLittle w n).reverse

/-- One more, the carry running from the least significant byte until a byte does not
wrap. -/
def succLittle : List UInt8 → List UInt8
  | [] => []
  | b :: bs => if b + 1 = 0 then (b + 1) :: succLittle bs else (b + 1) :: bs

def increment (bs : List UInt8) : List UInt8 := (succLittle bs.reverse).reverse

@[simp] theorem length_toLittle (w n : ℕ) : (toLittle w n).length = w := by
  induction w generalizing n with
  | zero => rfl
  | succ w ih => rw [toLittle, length_cons, ih]

@[simp] theorem length_toBytes (w n : ℕ) : (toBytes w n).length = w := by
  rw [toBytes, length_reverse, length_toLittle]

theorem ofLittle_lt (bs : List UInt8) : ofLittle bs < 256 ^ bs.length := by
  induction bs with
  | nil => simp [ofLittle]
  | cons b bs ih =>
    have hb := b.toNat_lt
    rw [ofLittle, length_cons, Nat.pow_succ]
    omega

theorem ofBytes_lt (bs : List UInt8) : ofBytes bs < 256 ^ bs.length := by
  have h := ofLittle_lt bs.reverse
  rwa [length_reverse] at h

theorem ofLittle_append (bs bs' : List UInt8) :
    ofLittle (bs ++ bs') = ofLittle bs + 256 ^ bs.length * ofLittle bs' := by
  induction bs with
  | nil => simp [ofLittle]
  | cons b bs ih =>
    rw [cons_append, ofLittle, ofLittle, ih, length_cons, Nat.pow_succ', Nat.mul_add,
      Nat.mul_assoc, Nat.add_assoc]

theorem ofBytes_cons (b : UInt8) (bs : List UInt8) :
    ofBytes (b :: bs) = 256 ^ bs.length * b.toNat + ofBytes bs := by
  rw [ofBytes, reverse_cons, ofLittle_append, length_reverse, ofLittle, ofLittle,
    Nat.mul_zero, Nat.add_zero, ofBytes, Nat.add_comm]

theorem ofLittle_toLittle (w n : ℕ) : ofLittle (toLittle w n) = n % 256 ^ w := by
  induction w generalizing n with
  | zero => simp [toLittle, ofLittle, Nat.mod_one]
  | succ w ih =>
    rw [toLittle, ofLittle, ih, Nat.pow_succ, Nat.mul_comm (256 ^ w), Nat.mod_mul]
    rfl

theorem ofBytes_toBytes (w n : ℕ) : ofBytes (toBytes w n) = n % 256 ^ w := by
  rw [ofBytes, toBytes, reverse_reverse, ofLittle_toLittle]

theorem ofBytes_toBytes_of_lt {w n : ℕ} (h : n < 256 ^ w) : ofBytes (toBytes w n) = n := by
  rw [ofBytes_toBytes, Nat.mod_eq_of_lt h]

theorem toLittle_ofLittle (bs : List UInt8) : toLittle bs.length (ofLittle bs) = bs := by
  induction bs with
  | nil => rfl
  | cons b bs ih =>
    have hb := b.toNat_lt
    have hhead : UInt8.ofNat (b.toNat + 256 * ofLittle bs) = b := by
      apply UInt8.toNat_inj.1
      simp
    have htail : (b.toNat + 256 * ofLittle bs) / 256 = ofLittle bs := by omega
    rw [length_cons, ofLittle, toLittle, hhead, htail, ih]

theorem toBytes_ofBytes (bs : List UInt8) : toBytes bs.length (ofBytes bs) = bs := by
  have h := toLittle_ofLittle bs.reverse
  rw [length_reverse] at h
  rw [toBytes, ofBytes, h, reverse_reverse]

theorem toLittle_mod (w n : ℕ) : toLittle w (n % 256 ^ w) = toLittle w n := by
  have h := toLittle_ofLittle (toLittle w n)
  rwa [length_toLittle, ofLittle_toLittle] at h

theorem toBytes_mod (w n : ℕ) : toBytes w (n % 256 ^ w) = toBytes w n := by
  rw [toBytes, toLittle_mod, toBytes]

theorem succLittle_eq (bs : List UInt8) :
    succLittle bs = toLittle bs.length (ofLittle bs + 1) := by
  induction bs with
  | nil => rfl
  | cons b bs ih =>
    have hb := b.toNat_lt
    have hhead : UInt8.ofNat (b.toNat + 256 * ofLittle bs + 1) = b + 1 := by
      apply UInt8.toNat_inj.1
      simp
    rw [succLittle, length_cons, ofLittle, toLittle, hhead]
    split
    · rename_i hwrap
      have hmax : b.toNat = 255 := by
        have hzero := congrArg UInt8.toNat hwrap
        simp at hzero
        omega
      have hcarry : (b.toNat + 256 * ofLittle bs + 1) / 256 = ofLittle bs + 1 := by omega
      rw [hcarry, ih]
    · rename_i hstay
      have hless : b.toNat ≠ 255 := by
        intro hmax
        apply hstay
        apply UInt8.toNat_inj.1
        simp [hmax]
      have hcarry : (b.toNat + 256 * ofLittle bs + 1) / 256 = ofLittle bs := by omega
      rw [hcarry, toLittle_ofLittle]

theorem increment_eq (bs : List UInt8) :
    increment bs = toBytes bs.length (ofBytes bs + 1) := by
  rw [increment, succLittle_eq, length_reverse, toBytes, ofBytes]

end ByteNumber

end Tabnode
