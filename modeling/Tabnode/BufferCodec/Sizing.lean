import Mathlib.Algebra.Order.Group.Nat
import Tabnode.BufferCodec.Writes

/-!
# The size of a string in UTF-8

`byteLengthUtf8` counts the bytes of a string without encoding it, and `utf8WriteStatic`
writes as many whole code points as fit: into the buffer's own memory, or, where that is
shared, into a scratch that is then copied. The count is the length of the encoding, and
both ways write the same bytes (`utf8_sizing`).
-/

namespace Tabnode

open List

open Utf16

namespace Utf8

/-! ## Encoding into a room -/

/-- The bytes of code points, as long as the next one fits in what is left of a room. -/
def encodePointsInto : List ℕ → ℕ → List UInt8
  | [], _ => []
  | cp :: cps, room =>
      if (encodePoint cp).length ≤ room then
        encodePoint cp ++ encodePointsInto cps (room - (encodePoint cp).length)
      else []

/-- `TextEncoder.encodeInto`: what is written into a room. -/
def encodeInto (us : List ℕ) (room : ℕ) : List UInt8 :=
  encodePointsInto (codePoints us) room

theorem length_encodePointsInto_le (cps : List ℕ) (room : ℕ) :
    (encodePointsInto cps room).length ≤ room := by
  induction cps generalizing room with
  | nil => simp [encodePointsInto]
  | cons cp cps ih =>
    rw [encodePointsInto]
    split_ifs with hfits
    · have hrest := ih (room - (encodePoint cp).length)
      rw [length_append]
      omega
    · simp

theorem encodePointsInto_min {cps : List ℕ} {bound : ℕ}
    (h : (cps.flatMap encodePoint).length ≤ bound) (room : ℕ) :
    encodePointsInto cps (min room bound) = encodePointsInto cps room := by
  induction cps generalizing room bound with
  | nil => rfl
  | cons cp cps ih =>
    rw [flatMap_cons, length_append] at h
    have hsub : min room bound - (encodePoint cp).length =
        min (room - (encodePoint cp).length) (bound - (encodePoint cp).length) := by
      omega
    rw [encodePointsInto, encodePointsInto, hsub, ih (by omega)]
    split_ifs with hfits hroom hroom
    · rfl
    · omega
    · omega
    · rfl

/-- What is written is the longest run of first code points that fits. -/
theorem encodePointsInto_eq (cps : List ℕ) (room : ℕ) :
    ∃ k ≤ cps.length, encodePointsInto cps room = (cps.take k).flatMap encodePoint ∧
      ∀ j ≤ cps.length, ((cps.take j).flatMap encodePoint).length ≤ room → j ≤ k := by
  induction cps generalizing room with
  | nil => exact ⟨0, le_rfl, rfl, fun j hj _ => hj⟩
  | cons cp cps ih =>
    rw [encodePointsInto]
    split_ifs with hfits
    · obtain ⟨k, hk, heq, hmax⟩ := ih (room - (encodePoint cp).length)
      refine ⟨k + 1, by simpa using hk, by rw [take_succ_cons, flatMap_cons, heq], ?_⟩
      intro j hj hj_fits
      cases j with
      | zero => omega
      | succ j =>
        rw [take_succ_cons, flatMap_cons, length_append] at hj_fits
        have hle := hmax j (by simpa using hj) (by omega)
        omega
    · refine ⟨0, by simp, rfl, ?_⟩
      intro j hj hj_fits
      cases j with
      | zero => exact le_rfl
      | succ j =>
        rw [take_succ_cons, flatMap_cons, length_append] at hj_fits
        omega

end Utf8

namespace BufferCodec

/-- Node's `ByteLengthUtf8`. -/
def byteLengthUtf8 : List ℕ → ℕ
  | code :: next :: string =>
      if code < 0x80 then 1 + byteLengthUtf8 (next :: string)
      else if code < 0x800 then 2 + byteLengthUtf8 (next :: string)
      else if 0xD800 ≤ code ∧ code < 0xDC00 then
        if 0xDC00 ≤ next ∧ next < 0xE000 then 4 + byteLengthUtf8 string
        else 3 + byteLengthUtf8 (next :: string)
      else 3 + byteLengthUtf8 (next :: string)
  | [code] => if code < 0x80 then 1 else if code < 0x800 then 2 else 3
  | [] => 0

/-- Node's `StringWrite<UTF8>`: as many whole code points as fit. Into shared memory they go
by way of a scratch that is no larger than the string can fill. -/
def utf8WriteStatic (isSharedView : Bool) (buf : Bytes) (string : List ℕ)
    (offset length : ℕ) : ℕ × Bytes :=
  let room := min length (buf.length - offset)
  if room = 0 then (0, buf)
  else if isSharedView then
    let scratch := Utf8.encodeInto string (min room (string.length * 3))
    (scratch.length, writeAt buf offset scratch)
  else
    let written := Utf8.encodeInto string room
    (written.length, writeAt buf offset written)

/-- A write of a string into a room of a buffer: the first `points` code points, the most
that fit, and no other byte of the buffer. -/
structure WritesLongest (buf : Bytes) (string : List ℕ) (offset length : ℕ)
    (result : ℕ × Bytes) (points : ℕ) : Prop where
  le : points ≤ (codePoints string).length
  written : result.1 = (((codePoints string).take points).flatMap Utf8.encodePoint).length
  fits : result.1 ≤ min length (buf.length - offset)
  bytes : (result.2.drop offset).take result.1 =
    ((codePoints string).take points).flatMap Utf8.encodePoint
  longest : ∀ k ≤ (codePoints string).length,
    (((codePoints string).take k).flatMap Utf8.encodePoint).length ≤
      min length (buf.length - offset) → k ≤ points
  length_eq : result.2.length = buf.length
  outside : ∀ i, i < offset ∨ offset + result.1 ≤ i → result.2[i]? = buf[i]?

/-! ## The count -/

theorem length_encodePoint_unit {u : ℕ} (hunit : u < 0x10000) :
    (Utf8.encodePoint (if IsLead u ∨ IsTrail u then 0xFFFD else u)).length =
      if u < 0x80 then 1 else if u < 0x800 then 2 else 3 := by
  unfold Utf8.encodePoint IsLead IsTrail
  split_ifs <;> first | rfl | omega

theorem length_encodePoint_pair (u v : ℕ) : (Utf8.encodePoint (pair u v)).length = 4 := by
  have hpair : 0x10000 ≤ pair u v := by
    unfold pair
    omega
  unfold Utf8.encodePoint
  rw [if_neg (by omega), if_neg (by omega), if_neg (by omega)]
  rfl

theorem byteLengthUtf8_pair {u v : ℕ} (h : IsLead u ∧ IsTrail v) (us : List ℕ) :
    byteLengthUtf8 (u :: v :: us) = 4 + byteLengthUtf8 us := by
  obtain ⟨⟨hlow, hhigh⟩, hlow', hhigh'⟩ := h
  rw [byteLengthUtf8, if_neg (by omega), if_neg (by omega), if_pos (by omega),
    if_pos (by omega)]

theorem byteLengthUtf8_lone {u v : ℕ} (h : ¬ (IsLead u ∧ IsTrail v)) (us : List ℕ) :
    byteLengthUtf8 (u :: v :: us) =
      (if u < 0x80 then 1 else if u < 0x800 then 2 else 3) + byteLengthUtf8 (v :: us) := by
  unfold IsLead IsTrail at h
  rw [byteLengthUtf8]
  split_ifs <;> first | rfl | omega

theorem byteLengthUtf8_eq {string : List ℕ} (h : InRange string) :
    byteLengthUtf8 string = (Utf8.encode string).length := by
  induction string using codePoints.induct with
  | case1 u v us hpair ih =>
    rw [byteLengthUtf8_pair hpair, ih fun w hw => h w (by simp [hw]), Utf8.encode, Utf8.encode,
      codePoints, if_pos hpair, flatMap_cons, length_append,
      length_encodePoint_pair]
  | case2 u v us hpair ih =>
    rw [byteLengthUtf8_lone hpair, ih fun w hw => h w (mem_cons_of_mem u hw), Utf8.encode,
      Utf8.encode, codePoints, if_neg hpair, flatMap_cons, length_append,
      length_encodePoint_unit (h u (by simp))]
  | case3 u =>
    rw [Utf8.encode, codePoints, flatMap_cons, flatMap_nil, append_nil,
      length_encodePoint_unit (h u (by simp)), byteLengthUtf8]
  | case4 => rfl

theorem byteLengthUtf8_le (string : List ℕ) : byteLengthUtf8 string ≤ string.length * 3 := by
  induction string using codePoints.induct with
  | case1 u v us hpair ih =>
    rw [byteLengthUtf8_pair hpair, length_cons, length_cons]
    omega
  | case2 u v us hpair ih =>
    rw [byteLengthUtf8_lone hpair, length_cons]
    split_ifs <;> omega
  | case3 u =>
    rw [byteLengthUtf8, length_singleton]
    split_ifs <;> omega
  | case4 => exact Nat.zero_le _

/-! ## The write -/

theorem getElem?_writeAt_outside {buf data : Bytes} {offset i : ℕ}
    (hroom : offset + data.length ≤ buf.length) (h : i < offset ∨ offset + data.length ≤ i) :
    (writeAt buf offset data)[i]? = buf[i]? := by
  have htake : (buf.take offset).length = offset := by
    rw [length_take]
    omega
  rw [writeAt, append_assoc]
  rcases h with hlt | hle
  · rw [getElem?_append_left (by omega), getElem?_take_of_lt hlt]
  · rw [getElem?_append_right (by omega), getElem?_append_right (by omega),
      getElem?_drop, htake]
    congr 1
    omega

theorem take_drop_writeAt {buf data : Bytes} {offset : ℕ} (h : offset ≤ buf.length) :
    ((writeAt buf offset data).drop offset).take data.length = data := by
  have htake : (buf.take offset).length = offset := by
    rw [length_take]
    omega
  rw [writeAt, append_assoc, drop_append_of_le_length (by omega), ← htake]
  simp

theorem writeAt_nil (buf : Bytes) (offset : ℕ) : writeAt buf offset [] = buf := by
  simp [writeAt]

theorem utf8WriteStatic_shared {string : List ℕ} (h : InRange string) (buf : Bytes)
    (offset length : ℕ) : utf8WriteStatic true buf string offset length =
      utf8WriteStatic false buf string offset length := by
  have hlength : ((codePoints string).flatMap Utf8.encodePoint).length ≤
      string.length * 3 := by
    have hle := byteLengthUtf8_le string
    rwa [byteLengthUtf8_eq h] at hle
  simp only [utf8WriteStatic, Utf8.encodeInto, Utf8.encodePointsInto_min hlength, if_true,
    Bool.false_eq_true, if_false]

theorem utf8WriteStatic_unshared (buf : Bytes) (string : List ℕ) (offset length : ℕ) :
    utf8WriteStatic false buf string offset length =
      ((Utf8.encodeInto string (min length (buf.length - offset))).length,
        writeAt buf offset (Utf8.encodeInto string (min length (buf.length - offset)))) := by
  have hfits := Utf8.length_encodePointsInto_le (codePoints string)
    (min length (buf.length - offset))
  by_cases hroom : min length (buf.length - offset) = 0
  · have hnil : Utf8.encodeInto string 0 = [] := by
      rw [hroom] at hfits
      exact eq_nil_of_length_eq_zero (Nat.le_zero.1 hfits)
    rw [utf8WriteStatic, if_pos hroom, hroom, hnil, writeAt_nil]
    rfl
  · rw [utf8WriteStatic, if_neg hroom, if_neg (by decide)]

/-- A write into memory that is not shared writes the most code points that fit. -/
theorem writesLongest_utf8WriteStatic (buf : Bytes) (string : List ℕ) (offset length : ℕ) :
    ∃ points, WritesLongest buf string offset length
      (utf8WriteStatic false buf string offset length) points := by
  rw [utf8WriteStatic_unshared]
  generalize hroom : min length (buf.length - offset) = room
  generalize hdata : Utf8.encodeInto string room = data
  obtain ⟨points, hle, heq, hlongest⟩ :=
    Utf8.encodePointsInto_eq (codePoints string) room
  have hfits := Utf8.length_encodePointsInto_le (codePoints string) room
  rw [Utf8.encodeInto] at hdata
  rw [hdata] at heq hfits
  have hinside : data = [] ∨ offset + data.length ≤ buf.length := by
    rcases Nat.eq_zero_or_pos data.length with hzero | hpos
    · exact .inl (eq_nil_of_length_eq_zero hzero)
    · right
      omega
  rw [← hroom] at hfits hlongest
  refine ⟨points, hle, congrArg List.length heq, hfits, ?_, hlongest, ?_, ?_⟩
  · rw [← heq]
    rcases hinside with rfl | hinside
    · rfl
    · exact take_drop_writeAt (by omega)
  · rcases hinside with rfl | hinside
    · rw [writeAt_nil]
    · exact length_writeAt hinside
  · intro i hi
    rcases hinside with rfl | hinside
    · rw [writeAt_nil]
    · exact getElem?_writeAt_outside hinside hi

/-- **Sizing and writing agree.** The count of a string's bytes is the length of its
encoding, and a write, into shared memory or not, leaves the most whole code points that fit
and nothing else, the same bytes and the same count both ways. -/
theorem utf8_sizing {string : List ℕ} (h : InRange string) :
    byteLengthUtf8 string = (Utf8.encode string).length ∧
      ∀ buf offset length,
        utf8WriteStatic true buf string offset length =
            utf8WriteStatic false buf string offset length ∧
          ∃ points, WritesLongest buf string offset length
            (utf8WriteStatic false buf string offset length) points :=
  ⟨byteLengthUtf8_eq h, fun buf offset length => ⟨utf8WriteStatic_shared h buf offset length,
    writesLongest_utf8WriteStatic buf string offset length⟩⟩

/-- A pair between two lone halves. -/
theorem utf8_sizing_of_mixed :
    byteLengthUtf8 [0xDC00, 0xD83D, 0xDE00, 0xD83D] = 10 ∧
      utf8WriteStatic true (alloc 8) [0xDC00, 0xD83D, 0xDE00, 0xD83D] 0 8 =
        utf8WriteStatic false (alloc 8) [0xDC00, 0xD83D, 0xDE00, 0xD83D] 0 8 := by
  obtain ⟨hlength, hwrite⟩ := @utf8_sizing [0xDC00, 0xD83D, 0xDE00, 0xD83D] (by decide)
  exact ⟨hlength.trans (by decide), (hwrite (alloc 8) 0 8).1⟩

end BufferCodec

end Tabnode
