import Mathlib.Algebra.Group.Int.Even
import Tabnode.BufferCodec.Writes
import Tabnode.Data.Scan

/-!
# Searching a buffer

`indexOfBuffer`, `indexOfString` and `indexOfNumber`. The offset that a search begins at is
counted from the end where it is negative, and a search of a 16-bit encoding looks at even
positions only. What is answered is the least position of the needle from the offset on,
or the greatest up to it (`search_exact`).
-/

namespace Tabnode

namespace BufferCodec

open Scan

/-! ## The binding's searches -/

def ASCII : ℕ := 0
def BASE64 : ℕ := 2
def UCS2 : ℕ := 3
def LATIN1 : ℕ := 4
def HEX : ℕ := 5
def BASE64URL : ℕ := 7

/-- `buffer[index]`, where there is one. -/
def byteAt (buffer : Bytes) (index : ℤ) : Option UInt8 :=
  if 0 ≤ index then buffer[index.toNat]? else none

def matchesAt (buffer : Bytes) (index : ℤ) : Bytes → Bool
  | [] => true
  | byte :: needle =>
      if byteAt buffer index = some byte then matchesAt buffer (index + 1) needle else false

def counted (length byteOffset : ℤ) : ℤ :=
  if byteOffset < 0 then length + byteOffset else byteOffset

def alignedUp (step start : ℤ) : ℤ := if step = 2 ∧ start % 2 ≠ 0 then start + 1 else start

def alignedDown (step start : ℤ) : ℤ := if step = 2 ∧ start % 2 ≠ 0 then start - 1 else start

def searchBytes (buffer needle : Bytes) (byteOffset : ℤ) (isForward : Bool) (step : ℤ) : ℤ :=
  let length : ℤ := buffer.length
  let offset := counted length byteOffset
  if needle = [] then
    if length < byteOffset then length
    else if byteOffset < 0 then max 0 (length + byteOffset) else byteOffset
  else if buffer.length < needle.length then -1
  else if isForward then
    let start := if offset < 0 then 0 else offset
    (up (matchesAt buffer · needle) step (length - needle.length + 1)
      (alignedUp step start)).getD (-1)
  else
    let start := if length - needle.length < offset then length - needle.length else offset
    if start < 0 then -1
    else (down (matchesAt buffer · needle) step (alignedDown step start)).getD (-1)

/-- Node's `IndexOfBuffer`. A 16-bit encoding searches on even boundaries only. -/
def indexOfBuffer (buffer value : Bytes) (byteOffset : ℤ) (encoding : ℕ) (isForward : Bool) : ℤ :=
  searchBytes buffer value byteOffset isForward (if encoding = UCS2 then 2 else 1)

def needleEncoding (encoding : ℕ) : String :=
  if encoding = UCS2 then "utf16le"
  else if encoding = LATIN1 then "latin1"
  else if encoding = ASCII then "ascii"
  else if encoding = HEX then "hex"
  else if encoding = BASE64 then "base64"
  else if encoding = BASE64URL then "base64url"
  else "utf8"

/-- Node's `IndexOfString`. -/
def indexOfString (buffer : Bytes) (value : List ℕ) (byteOffset : ℤ) (encoding : ℕ)
    (isForward : Bool) : ℤ :=
  indexOfBuffer buffer (bytesOfString value (needleEncoding encoding)) byteOffset encoding
    isForward

/-- `value & 0xff`. -/
def lowByte (value : ℤ) : UInt8 := UInt8.ofNat (value % 0x100).toNat

/-- Node's `IndexOfNumber`. -/
def indexOfNumber (buffer : Bytes) (value byteOffset : ℤ) (isForward : Bool) : ℤ :=
  let length : ℤ := buffer.length
  let found (index : ℤ) : Bool := byteAt buffer index = some (lowByte value)
  if isForward then
    let start := counted length byteOffset
    let start := if start < 0 then 0 else start
    (up found 1 length start).getD (-1)
  else
    let start := if byteOffset < 0 then length + byteOffset else min byteOffset (length - 1)
    let start := if length ≤ start then length - 1 else start
    (down found 1 start).getD (-1)

/-! ## What a search is for -/

def positions (buffer needle : Bytes) (encoding : ℕ) : Set ℤ :=
  {p | 0 ≤ p ∧ needle <+: buffer.drop p.toNat ∧ (encoding = UCS2 → Even p)}

/-- The offset counted from the end where it is negative, and clamped to the buffer. A search
backward from before the buffer stays there and finds nothing. -/
def clampedOffset (length : ℕ) (byteOffset : ℤ) (isForward : Bool) : ℤ :=
  if isForward then max 0 (counted length byteOffset) else min (counted length byteOffset) length

def eligible (buffer needle : Bytes) (byteOffset : ℤ) (encoding : ℕ) (isForward : Bool) : Set ℤ :=
  let offset := clampedOffset buffer.length byteOffset isForward
  {p ∈ positions buffer needle encoding | if isForward then offset ≤ p else p ≤ offset}

/-- The answer of a search: the nearest of the positions there are, and -1 where there is
none and nowhere else. -/
structure Exact (eligible : Set ℤ) (isForward : Bool) (answer : ℤ) : Prop where
  least : isForward = true → eligible.Nonempty → IsLeast eligible answer
  greatest : isForward = false → eligible.Nonempty → IsGreatest eligible answer
  none_iff : answer = -1 ↔ eligible = ∅

/-! ## The searches are exact -/

variable {buffer : Bytes}

theorem byteAt_eq_some_iff {index : ℤ} {byte : UInt8} (h : 0 ≤ index) :
    byteAt buffer index = some byte ↔ (buffer.drop index.toNat).head? = some byte := by
  rw [byteAt, if_pos h, List.head?_drop]

variable {needle : Bytes}

theorem matchesAt_iff {index : ℤ} (h : 0 ≤ index) :
    matchesAt buffer index needle = true ↔ needle <+: buffer.drop index.toNat := by
  induction needle generalizing index with
  | nil => simp [matchesAt]
  | cons byte needle ih =>
    have hnext : buffer.drop (index + 1).toNat = (buffer.drop index.toNat).tail := by
      rw [List.tail_drop]
      congr 1
      omega
    rw [matchesAt]
    split_ifs with hbyte
    · rw [ih (by omega), hnext]
      rw [byteAt_eq_some_iff h] at hbyte
      cases hrest : buffer.drop index.toNat with
      | nil => simp [hrest] at hbyte
      | cons first rest =>
        obtain rfl : first = byte := by simpa [hrest] using hbyte
        simp
    · refine iff_of_false (by simp) fun hprefix => hbyte ?_
      rw [byteAt_eq_some_iff h]
      obtain ⟨rest, hrest⟩ := hprefix
      rw [← hrest]
      rfl

theorem add_length_le_of_isPrefix {p : ℤ} (hp : 0 ≤ p) (hne : needle ≠ [])
    (h : needle <+: buffer.drop p.toNat) : p + needle.length ≤ buffer.length := by
  have hlength := h.length_le
  have hpos := List.length_pos_iff.2 hne
  rw [List.length_drop] at hlength
  omega

theorem step_cases (encoding : ℕ) :
    encoding = UCS2 ∧ (if encoding = UCS2 then (2 : ℤ) else 1) = 2 ∨
      encoding ≠ UCS2 ∧ (if encoding = UCS2 then (2 : ℤ) else 1) = 1 := by
  by_cases h : encoding = UCS2 <;> simp [h]

variable {encoding : ℕ}

theorem above_alignedUp (hne : needle ≠ []) {start : ℤ} (h : 0 ≤ start) {step : ℤ}
    (hstep : step = if encoding = UCS2 then 2 else 1) :
    Above (matchesAt buffer · needle) step (buffer.length - needle.length + 1)
      (alignedUp step start) = {p ∈ positions buffer needle encoding | start ≤ p} := by
  ext q
  simp only [Above, positions, Set.mem_ofPred_eq, alignedUp]
  rcases step_cases encoding with ⟨henc, htwo⟩ | ⟨henc, hone⟩
  · rw [hstep, htwo]
    simp only [henc, forall_const, true_and, Int.even_iff]
    constructor
    · rintro ⟨hle, hbound, hdvd, hq⟩
      have hpos : 0 ≤ q ∧ start ≤ q ∧ q % 2 = 0 := by
        split_ifs at hle hdvd <;> omega
      exact ⟨⟨hpos.1, (matchesAt_iff hpos.1).1 hq, hpos.2.2⟩, hpos.2.1⟩
    · rintro ⟨⟨hnonneg, hprefix, heven⟩, hle⟩
      have hbound := add_length_le_of_isPrefix hnonneg hne hprefix
      refine ⟨?_, by omega, ?_, (matchesAt_iff hnonneg).2 hprefix⟩ <;> split_ifs <;> omega
  · rw [hstep, hone]
    simp only [henc, false_implies, and_true, show ¬ (1 : ℤ) = 2 by decide, false_and, if_false]
    constructor
    · rintro ⟨hle, hbound, -, hq⟩
      exact ⟨⟨by omega, (matchesAt_iff (by omega)).1 hq⟩, hle⟩
    · rintro ⟨⟨hnonneg, hprefix⟩, hle⟩
      have hbound := add_length_le_of_isPrefix hnonneg hne hprefix
      exact ⟨hle, by omega, Int.one_dvd _, (matchesAt_iff hnonneg).2 hprefix⟩

theorem below_alignedDown {start : ℤ} {step : ℤ} (hstep : step = if encoding = UCS2 then 2 else 1) :
    Below (matchesAt buffer · needle) step (alignedDown step start) =
      {p ∈ positions buffer needle encoding | p ≤ start} := by
  ext q
  simp only [Below, positions, Set.mem_ofPred_eq, alignedDown]
  rcases step_cases encoding with ⟨henc, htwo⟩ | ⟨henc, hone⟩
  · rw [hstep, htwo]
    simp only [henc, forall_const, true_and, Int.even_iff]
    constructor
    · rintro ⟨hnonneg, hle, hdvd, hq⟩
      have hpos : q ≤ start ∧ q % 2 = 0 := by
        split_ifs at hle hdvd <;> omega
      exact ⟨⟨hnonneg, (matchesAt_iff hnonneg).1 hq, hpos.2⟩, hpos.1⟩
    · rintro ⟨⟨hnonneg, hprefix, heven⟩, hle⟩
      refine ⟨hnonneg, ?_, ?_, (matchesAt_iff hnonneg).2 hprefix⟩ <;> split_ifs <;> omega
  · rw [hstep, hone]
    simp only [henc, false_implies, and_true, show ¬ (1 : ℤ) = 2 by decide, false_and, if_false]
    constructor
    · rintro ⟨hnonneg, hle, -, hq⟩
      exact ⟨⟨hnonneg, (matchesAt_iff hnonneg).1 hq⟩, hle⟩
    · rintro ⟨⟨hnonneg, hprefix⟩, hle⟩
      exact ⟨hnonneg, hle, Int.one_dvd _, (matchesAt_iff hnonneg).2 hprefix⟩

theorem nonneg_of_mem_eligible {byteOffset p : ℤ} {isForward : Bool}
    (h : p ∈ eligible buffer needle byteOffset encoding isForward) : 0 ≤ p :=
  h.1.1

variable {S : Set ℤ}

/-- An answer that says none by -1 is exact where the positions are no negative ones. -/
theorem exact_of_least (hS : ∀ p ∈ S, 0 ≤ p) {answer : Option ℤ}
    (h : Least S answer) : Exact S true (answer.getD (-1)) := by
  cases answer with
  | none =>
    have hempty : S = ∅ := h
    refine ⟨fun _ hne => ?_, nofun, by simp [hempty]⟩
    exact absurd hempty hne.ne_empty
  | some q =>
    have hq : IsLeast S q := h
    have hnonneg := hS q hq.1
    refine ⟨fun _ _ => hq, nofun, ?_⟩
    refine iff_of_false (fun heq => ?_) (Set.nonempty_iff_ne_empty.1 ⟨q, hq.1⟩)
    have : q = -1 := heq
    omega

theorem exact_of_greatest (hS : ∀ p ∈ S, 0 ≤ p) {answer : Option ℤ}
    (h : Greatest S answer) : Exact S false (answer.getD (-1)) := by
  cases answer with
  | none =>
    have hempty : S = ∅ := h
    refine ⟨nofun, fun _ hne => ?_, by simp [hempty]⟩
    exact absurd hempty hne.ne_empty
  | some q =>
    have hq : IsGreatest S q := h
    have hnonneg := hS q hq.1
    refine ⟨nofun, fun _ _ => hq, ?_⟩
    refine iff_of_false (fun heq => ?_) (Set.nonempty_iff_ne_empty.1 ⟨q, hq.1⟩)
    have : q = -1 := heq
    omega

theorem exact_empty (hS : S = ∅) (isForward : Bool) : Exact S isForward (-1) :=
  ⟨fun _ h => absurd hS h.ne_empty, fun _ h => absurd hS h.ne_empty, by simp [hS]⟩

theorem Exact.unique {isForward : Bool} {a b : ℤ} (ha : Exact S isForward a)
    (hb : Exact S isForward b) : a = b := by
  by_cases hS : S = ∅
  · rw [ha.none_iff.2 hS, hb.none_iff.2 hS]
  · have hne := Set.nonempty_iff_ne_empty.2 hS
    cases isForward with
    | true => exact (ha.least rfl hne).unique (hb.least rfl hne)
    | false => exact (ha.greatest rfl hne).unique (hb.greatest rfl hne)

theorem eligible_eq_empty_of_length_lt (hne : needle ≠ []) (h : buffer.length < needle.length)
    (byteOffset : ℤ) (encoding : ℕ) (isForward : Bool) :
    eligible buffer needle byteOffset encoding isForward = ∅ := by
  apply Set.eq_empty_of_forall_notMem
  rintro p ⟨⟨hnonneg, hprefix, -⟩, -⟩
  have hbound := add_length_le_of_isPrefix hnonneg hne hprefix
  omega

theorem eligible_forward (buffer needle : Bytes) (byteOffset : ℤ) (encoding : ℕ) :
    eligible buffer needle byteOffset encoding true =
      {p ∈ positions buffer needle encoding | max 0 (counted buffer.length byteOffset) ≤ p} := by
  simp [eligible, clampedOffset]

theorem eligible_backward (hne : needle ≠ []) (byteOffset : ℤ)
    (encoding : ℕ) : eligible buffer needle byteOffset encoding false =
      {p ∈ positions buffer needle encoding |
        p ≤ min (counted buffer.length byteOffset) (buffer.length - needle.length)} := by
  ext p
  simp only [eligible, clampedOffset, Bool.false_eq_true, if_false, Set.mem_ofPred_eq,
    and_congr_right_iff]
  rintro ⟨hnonneg, hprefix, -⟩
  have hbound := add_length_le_of_isPrefix hnonneg hne hprefix
  omega

theorem exact_forward (hne : needle ≠ []) (byteOffset : ℤ)
    (encoding : ℕ) : Exact (eligible buffer needle byteOffset encoding true) true
      (indexOfBuffer buffer needle byteOffset encoding true) := by
  by_cases hlength : buffer.length < needle.length
  · rw [indexOfBuffer, searchBytes, if_neg hne, if_pos hlength]
    exact exact_empty (eligible_eq_empty_of_length_lt hne hlength ..) true
  · have hstart : ∀ offset : ℤ, (if offset < 0 then 0 else offset) = max 0 offset := by
      intro offset
      split_ifs <;> omega
    rw [indexOfBuffer, searchBytes, if_neg hne, if_neg hlength, if_pos rfl]
    refine exact_of_least (fun p => nonneg_of_mem_eligible) ?_
    rw [hstart, eligible_forward, ← above_alignedUp hne (le_max_left 0 _) rfl]
    exact least_up (by split <;> decide) _ _

theorem exact_backward (hne : needle ≠ []) (byteOffset : ℤ)
    (encoding : ℕ) : Exact (eligible buffer needle byteOffset encoding false) false
      (indexOfBuffer buffer needle byteOffset encoding false) := by
  by_cases hlength : buffer.length < needle.length
  · rw [indexOfBuffer, searchBytes, if_neg hne, if_pos hlength]
    exact exact_empty (eligible_eq_empty_of_length_lt hne hlength ..) false
  · have hstart : ∀ last offset : ℤ, (if last < offset then last else offset) =
        min offset last := by
      intro last offset
      split_ifs <;> omega
    rw [indexOfBuffer, searchBytes, if_neg hne, if_neg hlength, if_neg (by decide)]
    dsimp only
    rw [hstart]
    by_cases hneg : min (counted buffer.length byteOffset)
        ((buffer.length : ℤ) - needle.length) < 0
    · rw [if_pos hneg]
      refine exact_empty ?_ false
      rw [eligible_backward hne]
      apply Set.eq_empty_of_forall_notMem
      rintro p ⟨⟨hnonneg, -⟩, hle⟩
      omega
    · rw [if_neg hneg]
      refine exact_of_greatest (fun p => nonneg_of_mem_eligible) ?_
      rw [eligible_backward hne, ← below_alignedDown rfl]
      exact greatest_down (by split <;> decide) _

theorem exact_indexOfBuffer (hne : needle ≠ []) (byteOffset : ℤ) (encoding : ℕ) (isForward : Bool) :
    Exact (eligible buffer needle byteOffset encoding isForward) isForward
      (indexOfBuffer buffer needle byteOffset encoding isForward) := by
  cases isForward with
  | true => exact exact_forward hne byteOffset encoding
  | false => exact exact_backward hne byteOffset encoding

theorem exact_indexOfNumber (buffer : Bytes) (value byteOffset : ℤ) (h : encoding ≠ UCS2)
    (isForward : Bool) :
    Exact (eligible buffer [lowByte value] byteOffset encoding isForward) isForward
      (indexOfNumber buffer value byteOffset isForward) := by
  have hfound : (fun index => decide (byteAt buffer index = some (lowByte value))) =
      (matchesAt buffer · [lowByte value]) := by
    funext index
    simp [matchesAt]
  have hne : [lowByte value] ≠ [] := by simp
  have hstep : (1 : ℤ) = if encoding = UCS2 then 2 else 1 := by rw [if_neg h]
  cases isForward with
  | true =>
    have hone : ∀ start, alignedUp 1 start = start := fun start => if_neg (by simp)
    have hstart : ∀ offset : ℤ, (if offset < 0 then 0 else offset) = max 0 offset := by
      intro offset
      split_ifs <;> omega
    have hbound : (buffer.length : ℤ) = buffer.length - [lowByte value].length + 1 := by simp
    simp only [indexOfNumber, if_true, hfound]
    refine exact_of_least (fun p => nonneg_of_mem_eligible) ?_
    rw [eligible_forward, ← above_alignedUp hne (le_max_left 0 _) hstep, ← hbound, hstart, hone]
    exact least_up (by decide) _ _
  | false =>
    have hone : ∀ start, alignedDown 1 start = start := fun start => if_neg (by simp)
    have hstart : (if (buffer.length : ℤ) ≤
        (if byteOffset < 0 then (buffer.length : ℤ) + byteOffset
          else min byteOffset ((buffer.length : ℤ) - 1)) then (buffer.length : ℤ) - 1
        else (if byteOffset < 0 then (buffer.length : ℤ) + byteOffset
          else min byteOffset ((buffer.length : ℤ) - 1))) =
        min (counted buffer.length byteOffset) (buffer.length - [lowByte value].length) := by
      rw [counted, List.length_singleton]
      split_ifs <;> omega
    simp only [indexOfNumber, Bool.false_eq_true, if_false, hfound]
    refine exact_of_greatest (fun p => nonneg_of_mem_eligible) ?_
    rw [eligible_backward hne, ← below_alignedDown hstep, hone, ← hstart]
    exact greatest_down (by decide) _

/-- **Byte search is exact.** A search answers the least position of its needle from the
clamped offset on, or the greatest up to it, an even one of a 16-bit encoding, and -1 exactly
where there is none; a search for a number is the search for its byte. -/
theorem search_exact (buffer : Bytes) (byteOffset : ℤ) (isForward : Bool) :
    (∀ needle encoding, needle ≠ [] →
      Exact (eligible buffer needle byteOffset encoding isForward) isForward
        (indexOfBuffer buffer needle byteOffset encoding isForward)) ∧
    (∀ value encoding, bytesOfString value (needleEncoding encoding) ≠ [] →
      Exact (eligible buffer (bytesOfString value (needleEncoding encoding)) byteOffset encoding
        isForward) isForward (indexOfString buffer value byteOffset encoding isForward)) ∧
    ∀ value encoding, encoding ≠ UCS2 →
      indexOfNumber buffer value byteOffset isForward =
        indexOfBuffer buffer [lowByte value] byteOffset encoding isForward :=
  ⟨fun _ encoding h => exact_indexOfBuffer h byteOffset encoding isForward,
    fun _ encoding h => exact_indexOfBuffer h byteOffset encoding isForward,
    fun value encoding h => (exact_indexOfNumber buffer value byteOffset h isForward).unique
      (exact_indexOfBuffer (by simp) byteOffset encoding isForward)⟩

end BufferCodec

end Tabnode
