import Tabnode.Data.Utf8Encoder

/-!
# Transcoding

`buffer.transcode`, between the encodings the engine carries. A text that both encodings
hold is kept. Malformed input is refused between UTF-8 and UCS-2 and replaced elsewhere, and
an odd byte at the end of UCS-2 is no unit.
-/

namespace Tabnode

namespace Transcode

open Utf16 Utf8 List

inductive Encoding
  | utf8
  | ucs2
  | latin1
  | ascii

/-- An error of ICU's. -/
structure Refusal where
  message : String
  code : String
  errno : ℕ

def refuse (code : String) (errno : ℕ) : Refusal :=
  ⟨"Unable to transcode Buffer [" ++ code ++ "]", code, errno⟩

def invalidCharFound : Refusal := refuse "U_INVALID_CHAR_FOUND" 10

def QUESTION : UInt8 := 0x3F

def single (most point : ℕ) : UInt8 := if most < point then QUESTION else UInt8.ofNat point

/-- The code points of a string's iterator, which leaves a lone surrogate as it is. -/
def points : List ℕ → List ℕ
  | u :: v :: us =>
      if IsLead u ∧ IsTrail v then pair u v :: points us else u :: points (v :: us)
  | us => us

def singleByte (text : List ℕ) (most : ℕ) : List UInt8 := (points text).map (single most)

def fromLatin1 (bytes : List UInt8) : List ℕ := bytes.map UInt8.toNat

def Encoding.most : Encoding → ℕ
  | .latin1 => 0xFF
  | _ => 0x7F

instance (us : List ℕ) : Decidable (WellFormed us) :=
  decidable_of_iff _ (toWellFormed_eq_self_iff us)

/-- `convert(bytes, from, to)`: `unitsOf` and `utf16le` are `Utf16.units` and `Utf16.bytes`,
`wellFormed` and `replaceLone` are `Utf16.WellFormed` and `Utf16.toWellFormed`. -/
def convert (bytes : List UInt8) : Encoding → Encoding → Except Refusal (List UInt8)
  | .utf8, .ucs2 =>
      match fatal .initial bytes with
      | some cps => .ok (Utf16.bytes (cps.flatMap Utf8.units))
      | none => .error invalidCharFound
  | .utf8, .utf8 => .ok (encode (decode bytes))
  | .utf8, target => .ok (singleByte (decode bytes) target.most)
  | .ucs2, .utf8 =>
      if WellFormed (Utf16.units bytes) then .ok (encode (Utf16.units bytes))
      else .error invalidCharFound
  | .ucs2, .ucs2 => .ok (Utf16.bytes (toWellFormed (Utf16.units bytes) ++
      if bytes.length % 2 = 0 then [] else [0xFFFD]))
  | .ucs2, target => .ok (singleByte (Utf16.units bytes) target.most)
  | _, .ucs2 => .ok (Utf16.bytes (fromLatin1 bytes))
  | .latin1, .utf8 => .ok (encode (fromLatin1 bytes))
  | .ascii, .utf8 => .ok (encode ((fromLatin1 bytes).map fun u => if u < 0x80 then u else 0xFFFD))
  | .latin1, .latin1 => .ok bytes
  | _, _ => .ok (bytes.map fun byte => if 0x7F < byte.toNat then QUESTION else byte)

/-! ## What texts, bytes and pieces are -/

def Holds : Encoding → List ℕ → Prop
  | .utf8, us | .ucs2, us => InRange us ∧ WellFormed us
  | e, us => ∀ u ∈ us, u ≤ e.most

def bytesOf : Encoding → List ℕ → List UInt8
  | .utf8, us => encode us
  | .ucs2, us => Utf16.bytes us
  | _, us => us.map UInt8.ofNat

def pieces : Encoding → List UInt8 → List ℕ
  | .utf8, bytes => run .initial bytes
  | .ucs2, bytes => codePoints (Utf16.units bytes)
  | e, bytes => bytes.map fun b => if e.most < b.toNat then 0xFFFD else b.toNat

/-! ## Code points as single bytes -/

variable {us : List ℕ} {most : ℕ}

theorem single_of_lt {cp : ℕ} (h : most < cp) : single most cp = QUESTION := if_pos h

theorem singleByte_eq (hmost : most ≤ 0xFF) (us : List ℕ) :
    singleByte us most = (codePoints us).map (single most) := by
  have hlone : ∀ u, single most u =
      single most (if IsLead u ∨ IsTrail u then 0xFFFD else u) := by
    intro u
    split_ifs with h
    · unfold IsLead IsTrail at h
      rw [single_of_lt (by omega), single_of_lt (by omega)]
    · rfl
  unfold singleByte
  induction us using codePoints.induct with
  | case1 u v us h ih => rw [points, codePoints, if_pos h, if_pos h, map_cons, ih, map_cons]
  | case2 u v us h ih =>
    rw [points, codePoints, if_neg h, if_neg h, map_cons, ih, map_cons, ← hlone]
  | case3 u => exact congrArg (· :: []) (hlone u)
  | case4 => rfl

theorem codePoints_cons {u : ℕ} (h : ¬ (IsLead u ∨ IsTrail u)) (us : List ℕ) :
    codePoints (u :: us) = u :: codePoints us := by
  cases us with
  | nil => rw [codePoints, if_neg h, codePoints]
  | cons v us => rw [codePoints, if_neg fun hpair => h (.inl hpair.1), if_neg h]

theorem codePoints_flatMap_units {cps : List ℕ} (h : ∀ cp ∈ cps, Scalar cp) :
    codePoints (cps.flatMap Utf8.units) = cps := by
  induction cps with
  | nil => rfl
  | cons cp cps ih =>
    obtain ⟨hcp, hcps⟩ := forall_mem_cons.1 h
    unfold Scalar at hcp
    rw [flatMap_cons, Utf8.units]
    split_ifs with hsmall
    · have hlone : ¬ (IsLead cp ∨ IsTrail cp) := by
        unfold IsLead IsTrail
        omega
      rw [cons_append, nil_append, codePoints_cons hlone, ih hcps]
    · have hpair : IsLead (0xD800 + (cp - 0x10000) / 0x400) ∧
          IsTrail (0xDC00 + (cp - 0x10000) % 0x400) := by
        unfold IsLead IsTrail
        omega
      have hcp' : pair (0xD800 + (cp - 0x10000) / 0x400) (0xDC00 + (cp - 0x10000) % 0x400) = cp := by
        unfold pair
        omega
      rw [cons_append, cons_append, nil_append, codePoints, if_pos hpair, hcp',
        ih hcps]

theorem codePoints_of_le (h : ∀ u ∈ us, u ≤ 0xFF) : codePoints us = us := by
  induction us with
  | nil => rfl
  | cons u us ih =>
    obtain ⟨hu, hus⟩ := forall_mem_cons.1 h
    have hlone : ¬ (IsLead u ∨ IsTrail u) := by
      unfold IsLead IsTrail
      omega
    rw [codePoints_cons hlone, ih hus]

theorem Encoding.most_le (e : Encoding) : e.most ≤ 0xFF := by
  cases e <;> decide

theorem pieces_bytesOf {e : Encoding} (h : Holds e us) : pieces e (bytesOf e us) = codePoints us := by
  have hsmall (hus : ∀ u ∈ us, u ≤ e.most) : (us.map UInt8.ofNat).map
      (fun b => if e.most < b.toNat then 0xFFFD else b.toNat) = codePoints us := by
    have hle (u : ℕ) (hu : u ∈ us) : u ≤ 0xFF := Nat.le_trans (hus u hu) e.most_le
    rw [codePoints_of_le hle, map_map]
    refine (map_congr_left fun u hu => ?_).trans us.map_id
    simp only [Function.comp_apply, toNat_ofNat_of_lt (Nat.lt_succ_of_le (hle u hu)),
      if_neg (Nat.not_lt.2 (hus u hu)), id]
  cases e with
  | utf8 => exact run_flatMap_encodePoint (scalar_codePoints h.1)
  | ucs2 => exact congrArg codePoints (units_bytes h.1)
  | latin1 | ascii => exact hsmall h

theorem fromLatin1_map (h : ∀ u ∈ us, u ≤ 0xFF) : fromLatin1 (us.map UInt8.ofNat) = us := by
  rw [fromLatin1, map_map]
  refine (map_congr_left fun u hu => ?_).trans us.map_id
  exact toNat_ofNat_of_lt (Nat.lt_succ_of_le (h u hu))

/-! ## Conversions -/

variable {e e' : Encoding}

theorem convert_eq_pieces (h : e' = .latin1 ∨ e' = .ascii) (bytes : List UInt8) :
    convert bytes e e' = .ok ((pieces e bytes).map (single e'.most)) := by
  have hpiece (m m' : ℕ) (b : UInt8) (h' : m' ≤ 0xFF) :
      single m' (if m < b.toNat then 0xFFFD else b.toNat) =
        if m < b.toNat ∨ m' < b.toNat then QUESTION else b := by
    unfold single
    split_ifs <;> first | omega | simp
  have hnarrow {m m' : ℕ} (hm : 0x7F ≤ m ∧ 0x7F ≤ m' ∧ (m = 0x7F ∨ m' = 0x7F)) :
      bytes.map (fun b => if 0x7F < b.toNat then QUESTION else b) =
        bytes.map fun b => if m < b.toNat ∨ m' < b.toNat then QUESTION else b :=
    map_congr_left fun b _ => if_congr (by omega) rfl rfl
  cases e with
  | utf8 =>
    have hconvert : convert bytes .utf8 e' = .ok (singleByte (decode bytes) e'.most) := by
      obtain rfl | rfl := h <;> rfl
    rw [hconvert, singleByte_eq e'.most_le, decode,
      codePoints_flatMap_units fun cp => scalar_of_mem_run]
    rfl
  | ucs2 =>
    have hconvert : convert bytes .ucs2 e' = .ok (singleByte (Utf16.units bytes) e'.most) := by
      obtain rfl | rfl := h <;> rfl
    rw [hconvert, singleByte_eq e'.most_le]
    rfl
  | latin1 =>
    simp only [pieces, map_map, Function.comp_def, hpiece _ _ _ e'.most_le]
    obtain rfl | rfl := h
    · refine congrArg Except.ok
        ((map_congr_left fun b _ => if_neg ?_).trans bytes.map_id).symm
      have hb := b.toNat_lt
      simp only [Encoding.most]
      omega
    · exact congrArg Except.ok (hnarrow (by decide))
  | ascii =>
    simp only [pieces, map_map, Function.comp_def, hpiece _ _ _ e'.most_le]
    obtain rfl | rfl := h <;> exact congrArg Except.ok (hnarrow (by decide))

theorem convert_bytesOf (h : Holds e us) (h' : Holds e' us) :
    convert (bytesOf e us) e e' = .ok (bytesOf e' us) := by
  have hback (hus : ∀ u ∈ us, u ≤ e.most) : fromLatin1 (us.map UInt8.ofNat) = us :=
    fromLatin1_map fun u hu => Nat.le_trans (hus u hu) e.most_le
  cases e' with
  | utf8 =>
    cases e with
    | utf8 => simp only [convert, bytesOf, decode_encode h.1 h.2]
    | ucs2 => simp only [convert, bytesOf, units_bytes h.1, if_pos h.2]
    | latin1 => simp only [convert, bytesOf, hback h]
    | ascii =>
      have hkept : us.map (fun u => if u < 0x80 then u else 0xFFFD) = us :=
        (map_congr_left fun u hu => if_pos (Nat.lt_succ_of_le (h u hu))).trans us.map_id
      simp only [convert, bytesOf, hback h, hkept]
  | ucs2 =>
    cases e with
    | utf8 =>
      have hfatal : fatal .initial (encode us) = some (codePoints us) :=
        fatal_eq_some_iff.2 ⟨scalar_codePoints h.1, rfl⟩
      simp only [convert, bytesOf, hfatal, flatMap_units_codePoints h.1 h.2]
    | ucs2 =>
      have heven : (Utf16.bytes us).length % 2 = 0 := by
        rw [length_bytes, Nat.mul_mod_right]
      simp only [convert, bytesOf, units_bytes h.1, (toWellFormed_eq_self_iff us).2 h.2, heven,
        if_true, append_nil]
    | latin1 | ascii => simp only [convert, bytesOf, hback h]
  | latin1 | ascii =>
    rw [convert_eq_pieces (by simp), pieces_bytesOf h,
      codePoints_of_le fun u hu => Nat.le_trans (h' u hu) (Encoding.most_le _)]
    exact congrArg Except.ok (map_congr_left fun u hu => if_neg (Nat.not_lt.2 (h' u hu)))

/-- A text that two encodings hold is converted from the one to the other and back. Between
UTF-8 and UCS-2 what is refused is bytes of no code points, and units of lone surrogates.
Towards a single-byte encoding each piece is one byte: itself, or a `?`. -/
theorem convert_keeps (e e' : Encoding) (bytes : List UInt8) :
    (∀ us, Holds e us → Holds e' us → convert (bytesOf e us) e e' = .ok (bytesOf e' us) ∧
      (convert (bytesOf e us) e e').bind (convert · e' e) = .ok (bytesOf e us)) ∧
    (convert bytes .utf8 .ucs2 = .error invalidCharFound ↔
      ¬ ∃ cps : List ℕ, (∀ cp ∈ cps, Scalar cp) ∧ cps.flatMap encodePoint = bytes) ∧
    (convert bytes .ucs2 .utf8 = .error invalidCharFound ↔ ¬ WellFormed (Utf16.units bytes)) ∧
    (e' = .latin1 ∨ e' = .ascii → convert bytes e e' = .ok ((pieces e bytes).map fun cp =>
      if e'.most < cp then QUESTION else UInt8.ofNat cp)) := by
  refine ⟨fun us h h' => ⟨convert_bytesOf h h', ?_⟩, ?_, ?_, fun h => convert_eq_pieces h bytes⟩
  · rw [convert_bytesOf h h']
    exact convert_bytesOf h' h
  · rw [← not_congr (exists_congr fun cps => fatal_eq_some_iff), convert]
    cases fatal .initial bytes <;> simp
  · rw [convert]
    split_ifs with hwell <;> simp [hwell]

theorem convert_keeps_pair :
    convert (encode [0xFEFF, 0xD83D, 0xDE00]) .utf8 .ucs2 =
      .ok [0xFF, 0xFE, 0x3D, 0xD8, 0x00, 0xDE] :=
  ((convert_keeps .utf8 .ucs2 []).1 [0xFEFF, 0xD83D, 0xDE00] ⟨by decide, by decide⟩
    ⟨by decide, by decide⟩).1

/-- A lone surrogate is not kept in UCS-2, and an odd byte of UCS-2 is not refused. -/
theorem convert_not_kept :
    (convert (bytesOf .ucs2 [0xD800]) .ucs2 .ucs2 = .ok [0xFD, 0xFF] ∧
      bytesOf .ucs2 [0xD800] = [0x00, 0xD8]) ∧
    convert [0x41] .ucs2 .utf8 = .ok [] ∧ (¬ ∃ us, bytesOf .ucs2 us = [0x41]) ∧
    convert [0x41] .ucs2 .ascii = .ok [] := by
  refine ⟨⟨rfl, rfl⟩, rfl, ?_, rfl⟩
  rintro ⟨us, hus⟩
  have hlength := congrArg List.length hus
  rw [bytesOf, length_bytes, length_singleton] at hlength
  omega

end Transcode

end Tabnode
