import Mathlib.Data.List.Basic
import Mathlib.Tactic.IntervalCases
import Tabnode.Data.Utf8Encoder

/-!
# Percent-encoding

A character written as the bytes of its UTF-8, each a percent sign and two digits, and the
decoder that reads such bytes back, which refuses what is no character's. A text of which
every character stands for itself or is so written is decoded as the characters
(`decodeURIComponent_flatMap`).
-/

namespace Tabnode

namespace PercentCode

open Utf8 List

def hexDigit (n : ℕ) : Char := Char.ofNat (if n < 10 then 0x30 + n else 0x41 + (n - 10))

def hexValue (c : Char) : Option ℕ :=
  if 0x30 ≤ c.toNat ∧ c.toNat ≤ 0x39 then some (c.toNat - 0x30)
  else if 0x41 ≤ c.toNat ∧ c.toNat ≤ 0x46 then some (c.toNat - 0x41 + 10)
  else if 0x61 ≤ c.toNat ∧ c.toNat ≤ 0x66 then some (c.toNat - 0x61 + 10)
  else none

def percentByte (b : UInt8) : List Char :=
  ['%', hexDigit (b.toNat / 16), hexDigit (b.toNat % 16)]

def percentChar (c : Char) : List Char := (encodePoint c.toNat).flatMap percentByte

def escape : List Char → Option (UInt8 × List Char)
  | '%' :: high :: low :: rest =>
      match hexValue high, hexValue low with
      | some h, some l => some (UInt8.ofNat (16 * h + l), rest)
      | _, _ => none
  | _ => none

def escapes : ℕ → List Char → Option (List UInt8 × List Char)
  | 0, text => some ([], text)
  | n + 1, text =>
      match escape text with
      | none => none
      | some (b, rest) => (escapes n rest).map fun (bytes, rest) => (b :: bytes, rest)

def octetsOf (b : UInt8) : Option ℕ :=
  if b.toNat < 0x80 then some 1
  else if b.toNat < 0xC0 then none
  else if b.toNat < 0xE0 then some 2
  else if b.toNat < 0xF0 then some 3
  else if b.toNat < 0xF8 then some 4
  else none

def charOf (octets : List UInt8) : Option Char :=
  match Utf8.run .initial octets with
  | [point] =>
      if encodePoint point = octets then some (Char.ofNat point) else none
  | _ => none

def decodeFirst : List Char → Option (Char × List Char)
  | [] => none
  | c :: rest =>
      if c ≠ '%' then some (c, rest)
      else
        match escape (c :: rest) with
        | none => none
        | some (b, _) =>
            match octetsOf b with
            | none => none
            | some n =>
                match escapes n (c :: rest) with
                | none => none
                | some (octets, rest) => (charOf octets).map fun found => (found, rest)

def decodeRounds : ℕ → List Char → Option (List Char)
  | 0, _ => some []
  | fuel + 1, text =>
      if text = [] then some []
      else
        match decodeFirst text with
        | none => none
        | some (c, rest) => (decodeRounds fuel rest).map (c :: ·)

/-- The text that is written, or nothing where `URIError` is thrown. -/
def decodeURIComponent (text : List Char) : Option (List Char) := decodeRounds text.length text

/-! ## A byte -/

theorem hexValue_hexDigit {n : ℕ} (h : n < 16) : hexValue (hexDigit n) = some n := by
  interval_cases n <;> rfl

theorem escape_percentByte (b : UInt8) (rest : List Char) :
    escape (percentByte b ++ rest) = some (b, rest) := by
  have hlt : b.toNat < 256 := UInt8.toNat_lt b
  have hvalue : 16 * (b.toNat / 16) + b.toNat % 16 = b.toNat := Nat.div_add_mod b.toNat 16
  simp only [percentByte, cons_append, nil_append, escape]
  rw [hexValue_hexDigit (by omega), hexValue_hexDigit (by omega)]
  simp only [hvalue, UInt8.ofNat_toNat]

theorem escapes_flatMap (bytes : List UInt8) (rest : List Char) :
    escapes bytes.length (bytes.flatMap percentByte ++ rest) = some (bytes, rest) := by
  induction bytes with
  | nil => rfl
  | cons b bytes ih =>
    rw [flatMap_cons, append_assoc, length_cons, escapes, escape_percentByte]
    simp only [ih, Option.map_some]

/-! ## A character -/

theorem scalar_toNat (c : Char) : Scalar c.toNat := by
  have hvalid := c.valid
  unfold Scalar
  rcases hvalid with h | ⟨h, h'⟩
  · exact .inl h
  · exact .inr ⟨h, h'⟩

theorem charOf_encodePoint (c : Char) : charOf (encodePoint c.toNat) = some c := by
  have hrun := run_encodePoint (scalar_toNat c) []
  rw [append_nil] at hrun
  have hnone : Utf8.run State.initial [] = [] := rfl
  rw [hnone] at hrun
  simp only [charOf, hrun, if_true, Char.ofNat_toNat]

theorem octetsOf_encodePoint {point : ℕ} (h : Scalar point) :
    ∃ b bytes, encodePoint point = b :: bytes ∧
      octetsOf b = some (encodePoint point).length := by
  unfold Scalar at h
  unfold encodePoint
  split_ifs with hone htwo hthree
  · refine ⟨_, _, rfl, ?_⟩
    rw [octetsOf, toNat_ofNat_of_lt (by omega), if_pos hone]
    rfl
  · refine ⟨_, _, rfl, ?_⟩
    rw [octetsOf, toNat_ofNat_of_lt (by omega), if_neg (by omega), if_neg (by omega),
      if_pos (by omega)]
    rfl
  · refine ⟨_, _, rfl, ?_⟩
    rw [octetsOf, toNat_ofNat_of_lt (by omega), if_neg (by omega), if_neg (by omega),
      if_neg (by omega), if_pos (by omega)]
    rfl
  · refine ⟨_, _, rfl, ?_⟩
    rw [octetsOf, toNat_ofNat_of_lt (by omega), if_neg (by omega), if_neg (by omega),
      if_neg (by omega), if_neg (by omega), if_pos (by omega)]
    rfl

theorem decodeFirst_percentChar (c : Char) (rest : List Char) :
    decodeFirst (percentChar c ++ rest) = some (c, rest) := by
  obtain ⟨b, bytes, hbytes, hlength⟩ := octetsOf_encodePoint (scalar_toNat c)
  have hescapes := escapes_flatMap (encodePoint c.toNat) rest
  have hescape := escape_percentByte b (bytes.flatMap percentByte ++ rest)
  have htext : percentChar c ++ rest = percentByte b ++ (bytes.flatMap percentByte ++ rest) := by
    rw [percentChar, hbytes, flatMap_cons, append_assoc]
  rw [← percentChar, htext] at hescapes
  rw [htext]
  simp only [percentByte, cons_append, nil_append] at hescape hescapes ⊢
  rw [decodeFirst, if_neg (by simp), hescape]
  simp only [hlength, hescapes, charOf_encodePoint, Option.map_some]

/-! ## A text -/

def Writes (text : List Char) (c : Char) : Prop := (text = [c] ∧ c ≠ '%') ∨ text = percentChar c

theorem decodeFirst_of_writes {text : List Char} {c : Char} (h : Writes text c)
    (rest : List Char) : decodeFirst (text ++ rest) = some (c, rest) := by
  rcases h with ⟨rfl, hc⟩ | rfl
  · rw [singleton_append, decodeFirst, if_pos hc]
  · exact decodeFirst_percentChar c rest

theorem ne_nil_of_writes {text : List Char} {c : Char} (h : Writes text c) : text ≠ [] := by
  rcases h with ⟨rfl, -⟩ | rfl
  · exact cons_ne_nil _ _
  · obtain ⟨b, bytes, hbytes, -⟩ := octetsOf_encodePoint (scalar_toNat c)
    rw [percentChar, hbytes]
    exact cons_ne_nil _ _

variable {write : Char → List Char} {cs : List Char}

theorem decodeRounds_flatMap (h : ∀ c ∈ cs, Writes (write c) c) {fuel : ℕ}
    (hfuel : cs.length ≤ fuel) : decodeRounds fuel (cs.flatMap write) = some cs := by
  induction cs generalizing fuel with
  | nil => cases fuel <;> simp [decodeRounds]
  | cons c cs ih =>
    obtain ⟨fuel, rfl⟩ := Nat.exists_eq_add_of_le' (Nat.zero_lt_of_lt hfuel)
    have hc := h c mem_cons_self
    rw [flatMap_cons, decodeRounds,
      if_neg (append_ne_nil_of_left_ne_nil (ne_nil_of_writes hc) _), decodeFirst_of_writes hc]
    have hrest := ih (fun d hd => h d (mem_cons_of_mem _ hd)) (Nat.le_of_succ_le_succ hfuel)
    simp only [hrest, Option.map_some]

theorem length_le_length_flatMap
    (h : ∀ c ∈ cs, write c ≠ []) : cs.length ≤ (cs.flatMap write).length := by
  induction cs with
  | nil => exact Nat.zero_le _
  | cons c cs ih =>
    have hpos := length_pos_iff.2 (h c mem_cons_self)
    have hrest := ih fun d hd => h d (mem_cons_of_mem _ hd)
    rw [flatMap_cons, length_append, length_cons]
    omega

/-- A text of which every character stands for itself, or is percent-encoded, is decoded as its
characters. -/
theorem decodeURIComponent_flatMap
    (h : ∀ c ∈ cs, Writes (write c) c) : decodeURIComponent (cs.flatMap write) = some cs := by
  exact decodeRounds_flatMap h (length_le_length_flatMap fun c hc => ne_nil_of_writes (h c hc))

end PercentCode

end Tabnode
