import Tabnode.Data.Base64
import Tabnode.Data.Utf8Encoder

/-!
# Text of a buffer

What `toString` makes of bytes in each encoding a decoder takes: `slice` by the binding's
own functions, three of them through the platform's `TextDecoder`, and `text` as it is
meant. Text is a list of UTF-16 code units. The two are the same on `Faithful` bytes and
on no others (`slice_eq_text_iff`).
-/

namespace Tabnode

namespace StringDecoder

open Utf16

/-- The encodings a decoder takes. -/
inductive Encoding
  | utf8
  | utf16le
  | latin1
  | ascii
  | hex
  | base64
  | base64url
  deriving DecidableEq

/-! ## The binding -/

/-- What a `TextDecoder` of a Unicode encoding does with a byte order mark. -/
def dropBom : List ℕ → List ℕ
  | 0xFEFF :: text => text
  | text => text

/-- `new TextDecoder('utf-8')`, over the bytes. -/
def utf8Slice (bytes : List UInt8) : List ℕ :=
  (dropBom (Utf8.run .initial bytes)).flatMap Utf8.units

/-- `new TextDecoder('utf-16le')`, over the whole units. -/
def ucs2Slice (bytes : List UInt8) : List ℕ := dropBom (toWellFormed (units bytes))

/-- The characters of the bytes from 0x80 to 0x9F in windows-1252, which `latin1` is a
label of. -/
def windows1252 : List ℕ :=
  [0x20AC, 0x81, 0x201A, 0x0192, 0x201E, 0x2026, 0x2020, 0x2021,
   0x02C6, 0x2030, 0x0160, 0x2039, 0x0152, 0x8D, 0x017D, 0x8F,
   0x90, 0x2018, 0x2019, 0x201C, 0x201D, 0x2022, 0x2013, 0x2014,
   0x02DC, 0x2122, 0x0161, 0x203A, 0x0153, 0x9D, 0x017E, 0x0178]

def windows1252Char (b : ℕ) : ℕ :=
  if 0x80 ≤ b ∧ b ≤ 0x9F then windows1252.getD (b - 0x80) b else b

/-- `new TextDecoder('latin1')`, over the bytes. -/
def latin1Slice (bytes : List UInt8) : List ℕ := bytes.map fun b => windows1252Char b.toNat

def asciiSlice (bytes : List UInt8) : List ℕ := bytes.map fun b => b.toNat % 0x80

def hexDigits : List Char := "0123456789abcdef".toList

def hexSlice (bytes : List UInt8) : List ℕ :=
  bytes.flatMap fun b =>
    [(hexDigits.getD (b.toNat / 16) '0').toNat, (hexDigits.getD (b.toNat % 16) '0').toNat]

def base64Slice (bytes : List UInt8) : List ℕ :=
  (Base64.encode (bytes.map UInt8.toNat)).map Char.toNat

def urlDigit (c : Char) : Char := if c = '+' then '-' else if c = '/' then '_' else c

def base64urlSlice (bytes : List UInt8) : List ℕ :=
  (((Base64.encode (bytes.map UInt8.toNat)).map urlDigit).filter (· ≠ '=')).map Char.toNat

def slice : Encoding → List UInt8 → List ℕ
  | .utf8 => utf8Slice
  | .utf16le => ucs2Slice
  | .latin1 => latin1Slice
  | .ascii => asciiSlice
  | .hex => hexSlice
  | .base64 => base64Slice
  | .base64url => base64urlSlice

/-! ## The text that is meant -/

/-- The text of bytes: a U+FEFF is kept, a half of a pair is kept, and a byte of `latin1`
is the character of its number. -/
def text : Encoding → List UInt8 → List ℕ
  | .utf8, bytes => Utf8.decode bytes
  | .utf16le, bytes => units bytes
  | .latin1, bytes => bytes.map UInt8.toNat
  | .ascii, bytes => asciiSlice bytes
  | .hex, bytes => hexSlice bytes
  | .base64, bytes => base64Slice bytes
  | .base64url, bytes => base64urlSlice bytes

/-- Bytes whose text the platform's decoder has right: no U+FEFF stands first, each
surrogate is half of a pair, and no byte is one that windows-1252 has another character
for. -/
def Faithful : Encoding → List UInt8 → Prop
  | .utf8, bytes => ¬ Utf8.bom <+: bytes
  | .utf16le, bytes =>
      (units bytes).head? ≠ some 0xFEFF ∧ WellFormed (units bytes)
  | .latin1, bytes =>
      ∀ b ∈ bytes, ¬ (0x80 ≤ b.toNat ∧ b.toNat ≤ 0x9F) ∨ b ∈ [0x81, 0x8D, 0x8F, 0x90, 0x9D]
  | _, _ => True

theorem dropBom_cases (text : List ℕ) :
    text.head? = some 0xFEFF ∧ text = 0xFEFF :: dropBom text ∨
      text.head? ≠ some 0xFEFF ∧ dropBom text = text := by
  unfold dropBom
  split
  · exact .inl ⟨rfl, rfl⟩
  · rename_i hne
    refine .inr ⟨fun hhead => ?_, rfl⟩
    cases text with
    | nil => cases hhead
    | cons u text => exact hne text (by rw [Option.some.inj hhead])

theorem utf8Slice_cases (bytes : List UInt8) :
    Utf8.bom <+: bytes ∧ Utf8.decode bytes = 0xFEFF :: utf8Slice bytes ∨
      ¬ Utf8.bom <+: bytes ∧ utf8Slice bytes = Utf8.decode bytes := by
  rcases dropBom_cases (Utf8.run .initial bytes) with ⟨hhead, hrun⟩ | ⟨hhead, hrun⟩
  · refine .inl ⟨Utf8.bom_prefix_of_run hhead, ?_⟩
    rw [Utf8.decode, hrun]
    rfl
  · refine .inr ⟨?_, by rw [utf8Slice, hrun]; rfl⟩
    rintro ⟨rest, rfl⟩
    exact hhead rfl

theorem ucs2Slice_cases (bytes : List UInt8) :
    (units bytes).head? = some 0xFEFF ∧
        (ucs2Slice bytes).length + 1 = (units bytes).length ∨
      (units bytes).head? ≠ some 0xFEFF ∧
        ucs2Slice bytes = toWellFormed (units bytes) := by
  have hhead : (toWellFormed (units bytes)).head? = some 0xFEFF ↔
      (units bytes).head? = some 0xFEFF := head?_toWellFormed_eq_bom_iff _
  rcases dropBom_cases (toWellFormed (units bytes)) with ⟨hbom, hdrop⟩ | ⟨hbom, hdrop⟩
  · refine .inl ⟨hhead.1 hbom, ?_⟩
    rw [← length_toWellFormed (units bytes), hdrop]
    rfl
  · exact .inr ⟨fun h => hbom (hhead.2 h), hdrop⟩

theorem windows1252Char_eq_self_iff (b : UInt8) :
    windows1252Char b.toNat = b.toNat ↔
      ¬ (0x80 ≤ b.toNat ∧ b.toNat ≤ 0x9F) ∨ b ∈ [0x81, 0x8D, 0x8F, 0x90, 0x9D] := by
  by_cases hrange : 0x80 ≤ b.toNat ∧ b.toNat ≤ 0x9F
  · have hall : ∀ m : Fin 32, windows1252.getD m (m + 0x80) = m + 0x80 ↔
        UInt8.ofNat (m + 0x80) ∈ ([0x81, 0x8D, 0x8F, 0x90, 0x9D] : List UInt8) := by decide
    have hb := hall ⟨b.toNat - 0x80, by omega⟩
    have hadd : b.toNat - 0x80 + 0x80 = b.toNat := by omega
    simp only [hadd, UInt8.ofNat_toNat] at hb
    rw [windows1252Char, if_pos hrange, hb]
    simp [hrange]
  · simp [windows1252Char, hrange]

theorem length_slice_le (enc : Encoding) (bytes : List UInt8) :
    (slice enc bytes).length ≤ (text enc bytes).length := by
  cases enc with
  | utf8 =>
    rcases utf8Slice_cases bytes with ⟨-, heq⟩ | ⟨-, heq⟩
    · simp [slice, text, heq]
    · simp [slice, text, heq]
  | utf16le =>
    rcases ucs2Slice_cases bytes with ⟨-, hlen⟩ | ⟨-, heq⟩
    · simp only [slice, text]
      omega
    · simp [slice, text, heq, length_toWellFormed]
  | latin1 => simp [slice, text, latin1Slice]
  | ascii | hex | base64 | base64url => exact Nat.le_refl _

/-- The binding has the text right of faithful bytes and of no others. -/
theorem slice_eq_text_iff (enc : Encoding) (bytes : List UInt8) :
    slice enc bytes = text enc bytes ↔ Faithful enc bytes := by
  cases enc with
  | utf8 =>
    rcases utf8Slice_cases bytes with ⟨hbom, heq⟩ | ⟨hbom, heq⟩
    · refine iff_of_false (fun hsame => ?_) fun hno => hno hbom
      have hlen := congrArg List.length (heq.symm.trans hsame.symm)
      simp [slice] at hlen
    · exact iff_of_true heq hbom
  | utf16le =>
    rcases ucs2Slice_cases bytes with ⟨hbom, hlen⟩ | ⟨hbom, heq⟩
    · refine iff_of_false (fun hsame => ?_) fun hfaithful => hfaithful.1 hbom
      have hlen' := congrArg List.length hsame
      simp only [slice, text] at hlen'
      omega
    · rw [slice, heq, text, toWellFormed_eq_self_iff, Faithful, and_iff_right hbom]
  | latin1 =>
    rw [slice, latin1Slice, text, List.map_inj_left, Faithful]
    exact forall₂_congr fun b _ => windows1252Char_eq_self_iff b
  | ascii | hex | base64 | base64url => exact iff_of_true rfl trivial

end StringDecoder

end Tabnode
