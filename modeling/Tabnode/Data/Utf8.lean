import Mathlib.Data.List.Basic
import Mathlib.Data.Nat.Notation

/-!
# UTF-8

The decoder of the Encoding Standard: a byte that cannot continue the character being
read ends it with one U+FFFD and is read anew. Decoding in two parts is decoding whole
where the second part begins with a byte that continues nothing
(`decode_append_of_starts`), or the first leaves nothing unfinished
(`decode_append_of_finished`).
-/

namespace Tabnode

namespace Utf8

open List

def replacement : ℕ := 0xFFFD

def bom : List UInt8 := [0xEF, 0xBB, 0xBF]

/-- What has been read of a character: its bits so far, the bytes still needed, and the
range the next one must be in. -/
structure State where
  codePoint : ℕ
  needed : ℕ
  lower : ℕ
  upper : ℕ
  lower_ge : 0x80 ≤ lower
  upper_le : upper ≤ 0xBF

def State.initial : State := ⟨0, 0, 0x80, 0xBF, by decide, by decide⟩

/-- A byte at the beginning of a character: what it begins, and what it stands for. -/
def first (b : ℕ) : State × List ℕ :=
  if b ≤ 0x7F then (.initial, [b])
  else if 0xC2 ≤ b ∧ b ≤ 0xDF then
    (⟨b - 0xC0, 1, 0x80, 0xBF, by decide, by decide⟩, [])
  else if 0xE0 ≤ b ∧ b ≤ 0xEF then
    (⟨b - 0xE0, 2, if b = 0xE0 then 0xA0 else 0x80, if b = 0xED then 0x9F else 0xBF,
      by split <;> decide, by split <;> decide⟩, [])
  else if 0xF0 ≤ b ∧ b ≤ 0xF4 then
    (⟨b - 0xF0, 3, if b = 0xF0 then 0x90 else 0x80, if b = 0xF4 then 0x8F else 0xBF,
      by split <;> decide, by split <;> decide⟩, [])
  else (.initial, [replacement])

def step (s : State) (b : ℕ) : State × List ℕ :=
  if s.needed = 0 then first b
  else if s.lower ≤ b ∧ b ≤ s.upper then
    let codePoint := s.codePoint * 64 + b % 64
    if s.needed = 1 then (.initial, [codePoint])
    else (⟨codePoint, s.needed - 1, 0x80, 0xBF, by decide, by decide⟩, [])
  else ((first b).1, replacement :: (first b).2)

def after (s : State) (bytes : List UInt8) : State :=
  bytes.foldl (fun s b => (step s b.toNat).1) s

def run : State → List UInt8 → List ℕ
  | s, [] => if s.needed = 0 then [] else [replacement]
  | s, b :: bytes => (step s b.toNat).2 ++ run (step s b.toNat).1 bytes

def Accepts (s : State) (b : ℕ) : Prop :=
  if s.needed = 0 then b ≤ 0x7F ∨ 0xC2 ≤ b ∧ b ≤ 0xF4 else s.lower ≤ b ∧ b ≤ s.upper

instance (s : State) (b : ℕ) : Decidable (Accepts s b) := by
  unfold Accepts
  infer_instance

/-- The code points of bytes that are each in their place, with nothing left unfinished. -/
def fatal : State → List UInt8 → Option (List ℕ)
  | s, [] => if s.needed = 0 then some [] else none
  | s, b :: bytes =>
    if Accepts s b.toNat then (fatal (step s b.toNat).1 bytes).map ((step s b.toNat).2 ++ ·)
    else none

def units (codePoint : ℕ) : List ℕ :=
  if codePoint < 0x10000 then [codePoint]
  else [0xD800 + (codePoint - 0x10000) / 0x400, 0xDC00 + (codePoint - 0x10000) % 0x400]

def decode (bytes : List UInt8) : List ℕ := (run .initial bytes).flatMap units

def Starts (bytes : List UInt8) : Prop :=
  ∀ b ∈ bytes.head?, b.toNat < 0x80 ∨ 0xBF < b.toNat

variable {s : State}

theorem step_of_needed_eq_zero (h : s.needed = 0) (b : ℕ) : step s b = step .initial b := by
  simp [step, h, State.initial]

theorem run_of_needed_eq_zero (h : s.needed = 0) (bytes : List UInt8) :
    run s bytes = run .initial bytes := by
  cases bytes with
  | nil => simp [run, h, State.initial]
  | cons b bytes => rw [run, run, step_of_needed_eq_zero h]

variable {x y : List UInt8}

theorem run_append (h : (after s x).needed = 0) : run s (x ++ y) = run s x ++ run .initial y := by
  induction x generalizing s with
  | nil =>
    have hs : s.needed = 0 := h
    rw [nil_append, run_of_needed_eq_zero hs y, run, if_pos hs, nil_append]
  | cons b x ih =>
    rw [cons_append, run, run, ih h, append_assoc]

theorem run_append_of_starts (hy : Starts y) : run s (x ++ y) = run s x ++ run .initial y := by
  induction x generalizing s with
  | nil =>
    by_cases hs : s.needed = 0
    · rw [nil_append, run_of_needed_eq_zero hs y, run, if_pos hs, nil_append]
    · cases y with
      | nil => simp [run, State.initial]
      | cons b y =>
        have hb := hy b (by simp)
        have hlower := s.lower_ge
        have hupper := s.upper_le
        have hout : ¬ (s.lower ≤ b.toNat ∧ b.toNat ≤ s.upper) := by omega
        have hstep : step s b.toNat = ((first b.toNat).1, replacement :: (first b.toNat).2) := by
          rw [step, if_neg hs, if_neg hout]
        have hinitial : step .initial b.toNat = first b.toNat := rfl
        rw [nil_append, run, run, run, hstep, hinitial, if_neg hs]
        rfl
  | cons b x ih => rw [cons_append, run, run, ih, append_assoc]

theorem decode_append_of_finished (h : (after .initial x).needed = 0) :
    decode (x ++ y) = decode x ++ decode y := by
  rw [decode, run_append h, flatMap_append]
  rfl

theorem decode_append_of_starts (hy : Starts y) : decode (x ++ y) = decode x ++ decode y := by
  rw [decode, run_append_of_starts hy, flatMap_append]
  rfl

theorem run_cons (s : State) (b : UInt8) (bytes : List UInt8) :
    run s (b :: bytes) = (step s b.toNat).2 ++ run (step s b.toNat).1 bytes := rfl

def continued (codePoint : ℕ) (bytes : List UInt8) : ℕ :=
  bytes.foldl (fun codePoint b => codePoint * 64 + b.toNat % 64) codePoint

def Continues (b : UInt8) : Prop := 0x80 ≤ b.toNat ∧ b.toNat ≤ 0xBF

end Utf8

end Tabnode
