import Tabnode.BufferCodec.Writes

/-!
# Bytes as text and back

The slices and the writes of the binding, one after the other. In hexadecimal and in
base64 bytes come back as they were. Where the slice is the platform's decoder they do so
if and only if that decoder has the text right (`slice_eq_text_iff`), and so do the code
units of a string.
-/

namespace Tabnode

namespace BufferCodec

open StringDecoder Utf16 Base64 List

/-! ## Hexadecimal -/

variable {n : ℕ}

theorem hexValue_hexDigits (h : n < 16) : hexValue (hexDigits.getD n '0').toNat = some n := by
  have hall : ∀ m : Fin 16, hexValue (hexDigits.getD m '0').toNat = some m.val := by decide
  exact hall ⟨n, h⟩

theorem hexPairs_hexSlice (bytes : Bytes) : hexPairs (hexSlice bytes) = bytes := by
  induction bytes with
  | nil => rfl
  | cons b bytes ih =>
    have hb := b.toNat_lt
    have hbyte : UInt8.ofNat (b.toNat / 16 * 16 + b.toNat % 16) = b := by
      rw [Nat.mul_comm, Nat.div_add_mod, UInt8.ofNat_toNat]
    have hslice : hexSlice (b :: bytes) = (hexDigits.getD (b.toNat / 16) '0').toNat ::
        (hexDigits.getD (b.toNat % 16) '0').toNat :: hexSlice bytes := rfl
    rw [hslice, hexPairs, hexValue_hexDigits (by omega), hexValue_hexDigits (by omega)]
    simp only [hbyte, ih]

theorem length_hexSlice (bytes : Bytes) : (hexSlice bytes).length = 2 * bytes.length := by
  induction bytes with
  | nil => rfl
  | cons b bytes ih =>
    rw [hexSlice, flatMap_cons, length_append, ← hexSlice, ih, length_cons]
    simp only [length_cons, length_nil]
    omega

/-! ## Base64 -/

def digitUnit (n : ℕ) : ℕ := (digit n).toNat

def urlUnit (n : ℕ) : ℕ := (urlDigit (digit n)).toNat

theorem idxOf_digitUnit (h : n < 64) : base64Alphabet.idxOf (digitUnit n) = n := by
  have hall : ∀ m : Fin 64, base64Alphabet.idxOf (digitUnit m) = m.val := by
    set_option maxRecDepth 20000 in
    decide
  exact hall ⟨n, h⟩

theorem cleaned_digitUnit (h : n < 64) (rest : List ℕ) :
    cleaned (digitUnit n :: rest) = digitUnit n :: cleaned rest := by
  have hall : ∀ m : Fin 64, digitUnit m ≠ '='.toNat ∧ digitUnit m ≠ '-'.toNat ∧
      digitUnit m ≠ '_'.toNat ∧ digitUnit m ∈ base64Alphabet := by
    set_option maxRecDepth 20000 in
    decide
  obtain ⟨hpad, hminus, hunder, hmem⟩ := hall ⟨n, h⟩
  rw [cleaned, if_neg hpad, if_neg hminus, if_neg hunder, if_pos hmem]

theorem cleaned_urlUnit (h : n < 64) (rest : List ℕ) :
    cleaned (urlUnit n :: rest) = digitUnit n :: cleaned rest := by
  have hall : ∀ m : Fin 64, urlUnit m = '-'.toNat ∧ digitUnit m = '+'.toNat ∨
      urlUnit m = '_'.toNat ∧ digitUnit m = '/'.toNat ∨
      urlUnit m = digitUnit m := by
    set_option maxRecDepth 20000 in
    decide
  rcases hall ⟨n, h⟩ with ⟨hminus, hplus⟩ | ⟨hunder, hslash⟩ | hsame
  · rw [hminus, hplus, cleaned, if_neg (by decide), if_pos rfl]
  · rw [hunder, hslash, cleaned, if_neg (by decide), if_neg (by decide), if_pos rfl]
  · rw [hsame, cleaned_digitUnit h]

theorem cleaned_map {f : ℕ → ℕ}
    (hf : ∀ n < 64, ∀ rest, cleaned (f n :: rest) = digitUnit n :: cleaned rest) {l : List ℕ}
    (hl : ∀ n ∈ l, n < 64) (rest : List ℕ) :
    cleaned (l.map f ++ rest) = l.map digitUnit ++ cleaned rest := by
  induction l with
  | nil => rfl
  | cons n l ih =>
    rw [map_cons, cons_append, hf n (hl n (by simp)), ih fun m hm => hl m (by simp [hm])]
    rfl

def shifted (held n : ℕ) : ℕ := (held * 0x40 + n) % 2 ^ 32

theorem base64Loop_nil (bits held : ℕ) : base64Loop [] bits held = [] := rfl

theorem base64Loop_zero (h : n < 64) (digits : List ℕ) (held : ℕ) :
    base64Loop (digitUnit n :: digits) 0 held = base64Loop digits 6 (shifted held n) := by
  rw [base64Loop, idxOf_digitUnit h]
  rfl

theorem base64Loop_six (h : n < 64) (digits : List ℕ) (held : ℕ) :
    base64Loop (digitUnit n :: digits) 6 held =
      UInt8.ofNat (shifted held n / 0x10 % 0x100) :: base64Loop digits 4 (shifted held n) := by
  rw [base64Loop, idxOf_digitUnit h]
  rfl

theorem base64Loop_four (h : n < 64) (digits : List ℕ) (held : ℕ) :
    base64Loop (digitUnit n :: digits) 4 held =
      UInt8.ofNat (shifted held n / 4 % 0x100) :: base64Loop digits 2 (shifted held n) := by
  rw [base64Loop, idxOf_digitUnit h]
  rfl

theorem base64Loop_two (h : n < 64) (digits : List ℕ) (held : ℕ) :
    base64Loop (digitUnit n :: digits) 2 held =
      UInt8.ofNat (shifted held n / 1 % 0x100) :: base64Loop digits 0 (shifted held n) := by
  rw [base64Loop, idxOf_digitUnit h]
  rfl

theorem shifted_two {w x : ℕ} (hw : w < 64) (hx : x < 64) (held : ℕ) :
    shifted (shifted held w) x / 0x10 % 0x100 = w * 4 + x / 16 := by
  unfold shifted
  omega

theorem shifted_three {y : ℕ} (x : ℕ) (hy : y < 64) (held : ℕ) :
    shifted (shifted held x) y / 4 % 0x100 = x % 16 * 16 + y / 4 := by
  unfold shifted
  omega

theorem shifted_four {z : ℕ} (y : ℕ) (hz : z < 64) (held : ℕ) :
    shifted (shifted held y) z / 1 % 0x100 = y % 4 * 64 + z := by
  unfold shifted
  omega

/-- The loop gives the bytes of groups of six bits, whatever was held before them. -/
theorem base64Loop_map {l bytes : List ℕ} (hl : ∀ n ∈ l, n < 64)
    (h : octets l = some bytes) (held : ℕ) :
    base64Loop (l.map digitUnit) 0 held = bytes.map UInt8.ofNat := by
  induction l using octets.induct generalizing bytes held with
  | case1 w x y z rest ih =>
    have hw : w < 64 := hl w (by simp)
    have hx : x < 64 := hl x (by simp)
    have hy : y < 64 := hl y (by simp)
    have hz : z < 64 := hl z (by simp)
    rw [octets] at h
    obtain ⟨tail, htail, rfl⟩ := Option.map_eq_some_iff.1 h
    simp only [map_cons, base64Loop_zero hw, base64Loop_six hx, base64Loop_four hy,
      base64Loop_two hz, shifted_two hw hx, shifted_three x hy, shifted_four y hz,
      ih (fun n hn => hl n (by simp [hn])) htail]
  | case2 w x y =>
    have hw : w < 64 := hl w (by simp)
    have hx : x < 64 := hl x (by simp)
    have hy : y < 64 := hl y (by simp)
    cases h
    simp only [map_cons, map_nil, base64Loop_zero hw, base64Loop_six hx,
      base64Loop_four hy, shifted_two hw hx, shifted_three x hy, base64Loop_nil]
  | case3 w x =>
    have hw : w < 64 := hl w (by simp)
    have hx : x < 64 := hl x (by simp)
    cases h
    simp only [map_cons, map_nil, base64Loop_zero hw, base64Loop_six hx,
      shifted_two hw hx, base64Loop_nil]
  | case4 w => cases h
  | case5 =>
    cases h
    rfl

variable {string : List ℕ}

/-- The digits of bytes, and what else is read of them, are the bytes. -/
theorem base64Bytes_of_cleaned {bytes : Bytes}
    (h : cleaned string = (sextets (bytes.map UInt8.toNat)).map digitUnit) :
    base64Bytes string = bytes := by
  have hrange : ∀ b ∈ bytes.map UInt8.toNat, b < 256 := by
    intro b hb
    obtain ⟨c, -, rfl⟩ := mem_map.1 hb
    exact c.toNat_lt
  have hrest : (sextets (bytes.map UInt8.toNat)).length % 4 ≠ 1 := by
    have hlength := length_sextets (bytes.map UInt8.toNat)
    have hpadding : (padding (bytes.map UInt8.toNat)).length ≤ 2 := by
      rw [padding]
      split <;> decide
    omega
  have hbytes : (bytes.map UInt8.toNat).map UInt8.ofNat = bytes := by
    rw [map_map]
    refine (map_congr_left fun b _ => ?_).trans (map_id bytes)
    exact UInt8.ofNat_toNat
  simp only [base64Bytes, h, length_map, if_neg hrest, Nat.sub_zero]
  rw [← length_map (f := digitUnit), take_length,
    base64Loop_map (sextets_lt hrange) (octets_sextets hrange), hbytes]

theorem cleaned_padding (bytes : List ℕ) :
    cleaned ((padding bytes).map Char.toNat) = [] := by
  rw [padding]
  split <;> rfl

theorem sextets_lt (bytes : Bytes) : ∀ n ∈ Base64.sextets (bytes.map UInt8.toNat), n < 64 := by
  refine Base64.sextets_lt fun b hb => ?_
  obtain ⟨c, -, rfl⟩ := mem_map.1 hb
  exact c.toNat_lt

theorem base64Bytes_base64Slice (bytes : Bytes) : base64Bytes (base64Slice bytes) = bytes := by
  apply base64Bytes_of_cleaned
  rw [base64Slice, encode, map_append, map_map]
  have h := cleaned_map (f := digitUnit) (fun n hn => cleaned_digitUnit hn) (sextets_lt bytes)
    ((padding (bytes.map UInt8.toNat)).map Char.toNat)
  rw [cleaned_padding, append_nil] at h
  exact h

theorem base64urlSlice_eq (bytes : Bytes) :
    base64urlSlice bytes = (sextets (bytes.map UInt8.toNat)).map urlUnit := by
  have hdigit : ∀ m : Fin 64, urlDigit (digit m) ≠ '=' := by
    set_option maxRecDepth 20000 in
    decide
  have hdigits : (((sextets (bytes.map UInt8.toNat)).map digit).map urlDigit).filter
      (· ≠ '=') = ((sextets (bytes.map UInt8.toNat)).map digit).map urlDigit := by
    rw [filter_eq_self]
    intro c hc
    rw [map_map] at hc
    obtain ⟨n, hn, rfl⟩ := mem_map.1 hc
    exact decide_eq_true (hdigit ⟨n, sextets_lt bytes n hn⟩)
  have hpadding : ((padding (bytes.map UInt8.toNat)).map urlDigit).filter (· ≠ '=') = [] := by
    rw [padding]
    split <;> rfl
  rw [base64urlSlice, encode, map_append, filter_append, hdigits, hpadding,
    append_nil, map_map, map_map]
  rfl

theorem base64Bytes_base64urlSlice (bytes : Bytes) :
    base64Bytes (base64urlSlice bytes) = bytes := by
  apply base64Bytes_of_cleaned
  have h := cleaned_map (f := urlUnit) (fun n hn => cleaned_urlUnit hn) (sextets_lt bytes) []
  rw [append_nil, cleaned, append_nil] at h
  rw [base64urlSlice_eq, h]

/-! ## The platform's decoders -/

/-- No character that windows-1252 has for another byte has that byte's number last. -/
theorem windows1252Char_mod_iff (b : UInt8) :
    UInt8.ofNat (windows1252Char b.toNat % 0x100) = b ↔ windows1252Char b.toNat = b.toNat := by
  have hall : ∀ n : Fin 256, UInt8.ofNat (windows1252Char n % 0x100) = UInt8.ofNat n ↔
      windows1252Char n = n := by
    set_option maxRecDepth 20000 in
    decide
  have hb := hall ⟨b.toNat, b.toNat_lt⟩
  rwa [UInt8.ofNat_toNat] at hb

theorem latin1_iff (bytes : Bytes) :
    (latin1Slice bytes).map (fun u => UInt8.ofNat (u % 0x100)) = bytes ↔
      Faithful .latin1 bytes := by
  have hback : (latin1Slice bytes).map (fun u => UInt8.ofNat (u % 0x100)) = bytes.map id ↔
      ∀ b ∈ bytes, UInt8.ofNat (windows1252Char b.toNat % 0x100) = b := by
    rw [latin1Slice, map_map]
    exact map_inj_left
  have hsame : slice .latin1 bytes = text .latin1 bytes ↔
      ∀ b ∈ bytes, windows1252Char b.toNat = b.toNat := by
    rw [slice, latin1Slice, text]
    exact map_inj_left
  rw [map_id] at hback
  rw [← slice_eq_text_iff, hback, hsame]
  exact forall₂_congr fun b _ => windows1252Char_mod_iff b

/-- Bytes are the bytes of code units only where these are the units they make. -/
theorem utf16le_iff {bytes : Bytes} (h : bytes.length % 2 = 0) :
    Utf16.bytes (ucs2Slice bytes) = bytes ↔ Faithful .utf16le bytes := by
  have hrange : Utf16.InRange (ucs2Slice bytes) := by
    intro u hu
    have hall := Utf16.inRange_toWellFormed (Utf16.inRange_units bytes)
    rcases dropBom_cases (Utf16.toWellFormed (Utf16.units bytes)) with ⟨-, hdrop⟩ | ⟨-, hdrop⟩
    · exact hall u (by rw [hdrop]; exact mem_cons_of_mem _ hu)
    · exact hall u (by rw [← hdrop]; exact hu)
  rw [← slice_eq_text_iff, slice, text]
  constructor
  · intro hback
    rw [← Utf16.units_bytes hrange, hback]
  · intro hsame
    rw [hsame, Utf16.bytes_units h]

theorem bytesOfString_slice_iff (name : String) (bytes : Bytes)
    (hutf8 : encodingOf name ≠ .utf8) (hascii : encodingOf name ≠ .ascii)
    (heven : encodingOf name = .utf16le → bytes.length % 2 = 0) :
    bytesOfString (sliceRange (encodingOf name) bytes none none) name = bytes ↔
      Faithful (encodingOf name) bytes := by
  rw [sliceRange_whole, bytesOfString]
  cases henc : encodingOf name with
  | utf8 => exact absurd henc hutf8
  | ascii => exact absurd henc hascii
  | latin1 => rw [latin1_alloc, slice, latin1_iff]
  | utf16le => rw [ucs2_alloc, slice, utf16le_iff (heven henc)]
  | hex =>
    have hlength : (hexSlice bytes).length % 2 = 0 := by
      rw [length_hexSlice]
      omega
    refine iff_of_true ?_ trivial
    simp only [slice]
    rw [hex_alloc _ hlength, hexPairs_hexSlice]
  | base64 => exact iff_of_true (base64Bytes_base64Slice bytes) trivial
  | base64url => exact iff_of_true (base64Bytes_base64urlSlice bytes) trivial

/-- The code units of a string, of whose bytes the text is taken. -/
theorem ucs2Slice_bytes_iff (h : InRange string) :
    sliceRange .utf16le (bytes string) none none = string ↔
      string.head? ≠ some 0xFEFF ∧ WellFormed string := by
  have hunits := units_bytes h
  have hiff := slice_eq_text_iff .utf16le (bytes string)
  rw [text, Faithful, hunits] at hiff
  rw [sliceRange_whole, hiff]

theorem utf8Slice_encode_iff (h : InRange string) (hwell : WellFormed string) :
    sliceRange .utf8 (bytesOfString string "utf8") none none = string ↔
      string.head? ≠ some 0xFEFF := by
  have hbytes : bytesOfString string "utf8" = Utf8.encode string := rfl
  have hiff := slice_eq_text_iff .utf8 (Utf8.encode string)
  rw [text, Faithful, Utf8.decode_encode h hwell, Utf8.bom_isPrefix_encode_iff h] at hiff
  rw [sliceRange_whole, hbytes, hiff]

/-- Bytes come back from their text, and a string from its bytes, if and only if the
platform's decoder has the text right: no byte of `latin1` that windows-1252 has another
character for, no first U+FEFF, and no half of a pair in UTF-16. -/
theorem codecs_round_trip_iff (name : String) (bytes : Bytes) (string : List ℕ)
    (hutf8 : encodingOf name ≠ .utf8) (hascii : encodingOf name ≠ .ascii)
    (heven : encodingOf name = .utf16le → bytes.length % 2 = 0)
    (hstring : Utf16.InRange string) :
    (bytesOfString (sliceRange (encodingOf name) bytes none none) name = bytes ↔
        Faithful (encodingOf name) bytes) ∧
      (sliceRange .utf16le (bytesOfString string "utf16le") none none = string ↔
        string.head? ≠ some 0xFEFF ∧ Utf16.WellFormed string) ∧
      (Utf16.WellFormed string →
        (sliceRange .utf8 (bytesOfString string "utf8") none none = string ↔
          string.head? ≠ some 0xFEFF)) := by
  have hbytes : bytesOfString string "utf16le" = Utf16.bytes string := ucs2_alloc string
  refine ⟨bytesOfString_slice_iff name bytes hutf8 hascii heven, ?_, utf8Slice_encode_iff hstring⟩
  rw [hbytes, ucs2Slice_bytes_iff hstring]

/-- The byte of the sign for the euro, a lone half of a pair, and U+FEFF before a
letter. -/
theorem not_codecs_round_trip :
    bytesOfString (sliceRange .latin1 [0x80] none none) "latin1" ≠ [0x80] ∧
      bytesOfString (sliceRange .utf16le [0x00, 0xD8] none none) "utf16le" ≠ [0x00, 0xD8] ∧
      sliceRange .utf16le (bytesOfString [0xFEFF, 0x61] "utf16le") none none ≠ [0xFEFF, 0x61] ∧
      sliceRange .utf8 (bytesOfString [0xFEFF, 0x61] "utf8") none none ≠ [0xFEFF, 0x61] := by
  decide +kernel

theorem codecs_round_trip_of_text :
    bytesOfString (sliceRange .latin1 [0x61, 0xE9] none none) "latin1" = [0x61, 0xE9] ∧
      sliceRange .utf16le (bytesOfString [0x61, 0xD83D, 0xDE00] "utf16le") none none =
        [0x61, 0xD83D, 0xDE00] ∧
      sliceRange .utf8 (bytesOfString [0x61, 0xD83D, 0xDE00] "utf8") none none =
        [0x61, 0xD83D, 0xDE00] := by
  have hwell : WellFormed [0x61, 0xD83D, 0xDE00] := by
    simp [WellFormed, IsLead, IsTrail]
  obtain ⟨hbytes, hucs2, hutf8⟩ := codecs_round_trip_iff "latin1" [0x61, 0xE9]
    [0x61, 0xD83D, 0xDE00] (by decide) (by decide) (by decide) (by decide)
  refine ⟨hbytes.2 ?_, hucs2.2 ⟨by decide, hwell⟩, (hutf8 hwell).2 (by decide)⟩
  simp [Faithful, encodingOf]

end BufferCodec

end Tabnode
