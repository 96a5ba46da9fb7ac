import Mathlib.Algebra.Order.Ring.Int
import Tabnode.Data.Utf8Encoder
import Tabnode.StringDecoder.Encoding

/-!
# The bytes of a string

How the buffer binding writes a string's bytes in each encoding, and the range of a buffer
that its slices take. A string is its UTF-16 code units, as `charCodeAt` reads them. A
write goes from an offset on, as far as its length and the buffer allow, and answers how
many bytes it wrote.
-/

namespace Tabnode

namespace BufferCodec

open StringDecoder List

abbrev Bytes := List UInt8

/-! ## Ranges -/

/-- libuv's `uv_buf` clamp. A bound that is no number is left out. -/
def clamp (length : ℕ) (start stop : Option ℤ) : ℤ × ℤ :=
  let lower := max (start.getD 0) 0
  let upper := min (stop.getD length) length
  (lower, if upper < lower then lower else upper)

def sliceRange (enc : Encoding) (buf : Bytes) (start stop : Option ℤ) : List ℕ :=
  slice enc ((buf.take (clamp buf.length start stop).2.toNat).drop
    (clamp buf.length start stop).1.toNat)

theorem sliceRange_whole (enc : Encoding) (buf : Bytes) :
    sliceRange enc buf none none = slice enc buf := by
  have hclamp : clamp buf.length none none = (0, (buf.length : ℤ)) := by
    simp only [clamp, Option.getD_none, Int.max_self, Int.min_self]
    rw [if_neg (by omega)]
  rw [sliceRange, hclamp]
  simp

/-! ## Writes -/

def writeAt (buf : Bytes) (offset : ℕ) (data : Bytes) : Bytes :=
  buf.take offset ++ data ++ buf.drop (offset + data.length)

def unitWrite (byte : ℕ → ℕ) (buf : Bytes) (string : List ℕ) (offset length : ℕ) : ℕ × Bytes :=
  let room := min (min length (buf.length - offset)) string.length
  (room, writeAt buf offset ((string.take room).map fun u => UInt8.ofNat (byte u)))

/-- Node's `StringWrite<ASCII>`: the low seven bits of each unit, one byte each. -/
def asciiWriteStatic : Bytes → List ℕ → ℕ → ℕ → ℕ × Bytes := unitWrite (· % 0x80)

/-- Node's `StringWrite<LATIN1>`: the low eight bits of each unit. -/
def latin1WriteStatic : Bytes → List ℕ → ℕ → ℕ → ℕ × Bytes := unitWrite (· % 0x100)

/-- Node's `StringWrite<UCS2>`: whole 16-bit units, little-endian. -/
def ucs2Write (buf : Bytes) (string : List ℕ) (offset length : ℕ) : ℕ × Bytes :=
  let room := min length (buf.length - offset)
  let units := min string.length (room / 2)
  (units * 2, writeAt buf offset (Utf16.bytes (string.take units)))

def hexValue (code : ℕ) : Option ℕ :=
  if 48 ≤ code ∧ code ≤ 57 then some (code - 48)
  else if 97 ≤ code ∧ code ≤ 102 then some (code - 87)
  else if 65 ≤ code ∧ code ≤ 70 then some (code - 55)
  else none

def hexPairs : List ℕ → Bytes
  | high :: low :: rest =>
      match hexValue high, hexValue low with
      | some h, some l => UInt8.ofNat (h * 16 + l) :: hexPairs rest
      | _, _ => []
  | _ => []

/-- Node's `StringWrite<HEX>`: whole byte pairs, stopping at the first that is not one. -/
def hexWrite (buf : Bytes) (string : List ℕ) (offset length : ℕ) : ℕ × Bytes :=
  let room := min length (buf.length - offset)
  let pairs := min (string.length / 2) room
  let data := hexPairs (string.take (2 * pairs))
  (data.length, writeAt buf offset data)

/-! ## Base64 -/

def base64Alphabet : List ℕ := Base64.alphabet.map Char.toNat

/-- The digits of a string up to the first `=`, those of either alphabet and no other
character. -/
def cleaned : List ℕ → List ℕ
  | [] => []
  | u :: string =>
      if u = '='.toNat then []
      else if u = '-'.toNat then '+'.toNat :: cleaned string
      else if u = '_'.toNat then '/'.toNat :: cleaned string
      else if u ∈ base64Alphabet then u :: cleaned string
      else cleaned string

/-- The bytes of digits, of which `bits` bits of `held` are not given out yet. What was held
before them runs off the 32 bits of a number, and no byte is of these. -/
def base64Loop : List ℕ → ℕ → ℕ → Bytes
  | [], _, _ => []
  | u :: digits, bits, held =>
      let held := (held * 0x40 + base64Alphabet.idxOf u) % 2 ^ 32
      let bits := bits + 6
      if 8 ≤ bits then
        UInt8.ofNat (held / 2 ^ (bits - 8) % 0x100) :: base64Loop digits (bits - 8) held
      else base64Loop digits bits held

/-- The bytes a base64 string stands for. A group of one digit stands for no byte. -/
def base64Bytes (string : List ℕ) : Bytes :=
  let digits := cleaned string
  base64Loop (digits.take (digits.length - if digits.length % 4 = 1 then 1 else 0)) 0 0

/-- Node's `StringWrite<BASE64>`, and `StringWrite<BASE64URL>`. -/
def base64Write (buf : Bytes) (string : List ℕ) (offset length : ℕ) : ℕ × Bytes :=
  let data := base64Bytes string
  let room := min (min length (buf.length - offset)) data.length
  (room, writeAt buf offset (data.take room))

/-! ## Whole strings -/

def encodingOf (name : String) : Encoding :=
  if name = "ascii" then .ascii
  else if name ∈ ["latin1", "binary"] then .latin1
  else if name ∈ ["ucs2", "ucs-2", "utf16le", "utf-16le"] then .utf16le
  else if name = "hex" then .hex
  else if name = "base64" then .base64
  else if name = "base64url" then .base64url
  else .utf8

def alloc (length : ℕ) : Bytes := List.replicate length 0

def bytesOfString (value : List ℕ) (encoding : String) : Bytes :=
  match encodingOf encoding with
  | .ascii => (asciiWriteStatic (alloc value.length) value 0 value.length).2
  | .latin1 => (latin1WriteStatic (alloc value.length) value 0 value.length).2
  | .utf16le => (ucs2Write (alloc (value.length * 2)) value 0 (value.length * 2)).2
  | .hex =>
      let written := hexWrite (alloc (value.length / 2)) value 0 (value.length / 2)
      written.2.take written.1
  | .base64 | .base64url => base64Bytes value
  | .utf8 => Utf8.encode value

/-! ## What is written -/

theorem length_writeAt {buf data : Bytes} {offset : ℕ} (h : offset + data.length ≤ buf.length) :
    (writeAt buf offset data).length = buf.length := by
  rw [writeAt, length_append, length_append, length_take, length_drop]
  omega

theorem writeAt_alloc {data : Bytes} {length : ℕ} (h : data.length = length) :
    writeAt (alloc length) 0 data = data := by
  rw [writeAt, Nat.zero_add, h, alloc, drop_of_length_le (by simp), take_zero,
    nil_append, append_nil]

theorem latin1_alloc (value : List ℕ) :
    (latin1WriteStatic (alloc value.length) value 0 value.length).2 =
      value.map fun u => UInt8.ofNat (u % 0x100) := by
  have hroom : min (min value.length ((alloc value.length).length - 0)) value.length =
      value.length := by simp [alloc]
  simp only [latin1WriteStatic, unitWrite]
  rw [hroom, take_length, writeAt_alloc (length_map _)]

theorem ucs2_alloc (value : List ℕ) :
    (ucs2Write (alloc (value.length * 2)) value 0 (value.length * 2)).2 = Utf16.bytes value := by
  have hunits : min value.length
      (min (value.length * 2) ((alloc (value.length * 2)).length - 0) / 2) = value.length := by
    simp [alloc]
  simp only [ucs2Write]
  rw [hunits, take_length, writeAt_alloc]
  rw [Utf16.length_bytes, Nat.mul_comm]

theorem hex_alloc (value : List ℕ) (heven : value.length % 2 = 0) :
    (hexWrite (alloc (value.length / 2)) value 0 (value.length / 2)).2.take
      (hexWrite (alloc (value.length / 2)) value 0 (value.length / 2)).1 = hexPairs value := by
  have hpairs : 2 * min (value.length / 2)
      (min (value.length / 2) ((alloc (value.length / 2)).length - 0)) = value.length := by
    simp only [alloc, length_replicate]
    omega
  simp only [hexWrite]
  rw [hpairs, take_length, writeAt, take_zero, nil_append, take_left]

end BufferCodec

end Tabnode
