import Mathlib.Data.List.Basic
import Mathlib.Data.List.Chain

/-!
# The chunks of a gathered write

A write of several buffers goes to the owner in chunks of no more than its byte credit. A
chunk is a piece of one buffer where that fills it or is the last, and else a buffer of its
own that is filled from the parts in their order. The chunks are the bytes of the parts, none
is empty, and each but the last is full.
-/

namespace Tabnode

namespace NativeStream

open List

def skipEmpty (parts : List (List UInt8)) (next : ℕ) : ℕ :=
  next + ((parts.drop next).takeWhile List.isEmpty).length

def gather (parts : List (List UInt8)) (limit : ℕ) :
    ℕ → ℕ → ℕ → List UInt8 → ℕ × ℕ × List UInt8
  | 0, part, offset, used => (part, offset, used)
  | fuel + 1, part, offset, used =>
      if used.length < limit ∧ part < parts.length then
        let whole := parts.getD part []
        if offset = whole.length then gather parts limit fuel (part + 1) 0 used
        else
          let bytes := (whole.drop offset).take (limit - used.length)
          gather parts limit fuel part (offset + bytes.length) (used ++ bytes)
      else (part, offset, used)

def roundsOf (parts : List (List UInt8)) : ℕ := parts.length + parts.flatten.length + 1

def chunksFrom (parts : List (List UInt8)) (limit : ℕ) : ℕ → ℕ → ℕ → List (List UInt8)
  | 0, _, _ => []
  | fuel + 1, part, offset =>
      if part < parts.length then
        let whole := parts.getD part []
        if offset = whole.length then chunksFrom parts limit fuel (part + 1) 0
        else
          let first := (whole.drop offset).take limit
          if first.length = limit ∨ skipEmpty parts (part + 1) = parts.length then
            first :: chunksFrom parts limit fuel part (offset + first.length)
          else
            let gathered := gather parts limit (roundsOf parts) part (offset + first.length) first
            gathered.2.2 :: chunksFrom parts limit fuel gathered.1 gathered.2.1
      else []

/-- A writev submits consecutive buffers together, within the owner's byte credit. -/
def writeChunks (parts : List (List UInt8)) (limit : ℕ) : List (List UInt8) :=
  chunksFrom parts limit (roundsOf parts) 0 0

def leftOf (parts : List (List UInt8)) (part offset : ℕ) : List UInt8 :=
  (parts.getD part []).drop offset ++ (parts.drop (part + 1)).flatten

variable {parts : List (List UInt8)}

theorem leftOf_start (part : ℕ) : leftOf parts part 0 = (parts.drop part).flatten := by
  rw [leftOf, drop_zero]
  rcases Nat.lt_or_ge part parts.length with hlt | hge
  · rw [drop_eq_getElem_cons hlt, flatten_cons, getD_eq_getElem?_getD,
      getElem?_eq_getElem hlt, Option.getD_some]
  · rw [drop_eq_nil_of_le hge, drop_eq_nil_of_le (hge.trans (Nat.le_succ part)),
      getD_eq_getElem?_getD, getElem?_eq_none hge]
    rfl

variable {part offset : ℕ}

theorem leftOf_end
    (h : offset = (parts.getD part []).length) :
    leftOf parts part offset = leftOf parts (part + 1) 0 := by
  rw [leftOf_start, leftOf, h, drop_length, nil_append]

theorem leftOf_take (part offset n : ℕ) :
    leftOf parts part offset = ((parts.getD part []).drop offset).take n ++
      leftOf parts part (offset + (((parts.getD part []).drop offset).take n).length) := by
  rw [leftOf, leftOf, ← append_assoc]
  congr 1
  rw [← drop_drop]
  have hdrop : (((parts.getD part []).drop offset).take n).length =
      min n ((parts.getD part []).drop offset).length := length_take
  generalize (parts.getD part []).drop offset = rest at *
  rcases Nat.le_total n rest.length with hle | hge
  · rw [hdrop, Nat.min_eq_left hle, take_append_drop]
  · rw [hdrop, Nat.min_eq_right hge, take_of_length_le hge, drop_length, append_nil]

theorem leftOf_of_length_le (h : parts.length ≤ part)
    (offset : ℕ) : leftOf parts part offset = [] := by
  rw [leftOf, getD_eq_getElem?_getD, getElem?_eq_none h,
    drop_eq_nil_of_le (h.trans (Nat.le_succ part)), Option.getD_none, drop_nil]
  rfl

def measureOf (parts : List (List UInt8)) (part offset : ℕ) : ℕ :=
  (parts.length - part) + (leftOf parts part offset).length

structure Gathered (parts : List (List UInt8)) (limit part offset : ℕ) (used : List UInt8)
    (result : ℕ × ℕ × List UInt8) : Prop where
  bytes : ∃ taken, result.2.2 = used ++ taken ∧
    leftOf parts part offset = taken ++ leftOf parts result.1 result.2.1
  length_le : result.2.2.length ≤ limit
  full : result.2.2.length = limit ∨ leftOf parts result.1 result.2.1 = []
  offset_le : result.2.1 ≤ (parts.getD result.1 []).length
  measure_le : measureOf parts result.1 result.2.1 ≤ measureOf parts part offset

variable {limit : ℕ}

theorem gathered_gather {fuel : ℕ} {used : List UInt8} (hused : used.length ≤ limit)
    (hoffset : offset ≤ (parts.getD part []).length) (hfuel : measureOf parts part offset < fuel) :
    Gathered parts limit part offset used (gather parts limit fuel part offset used) := by
  induction fuel generalizing part offset used with
  | zero => exact absurd hfuel (Nat.not_lt_zero _)
  | succ fuel ih =>
    rw [gather]
    dsimp only
    split_ifs with hmore hdone
    · have hleft := leftOf_end hdone
      have hmeasure : measureOf parts (part + 1) 0 < measureOf parts part offset := by
        rw [measureOf, measureOf, hleft]
        omega
      obtain ⟨hbytes, hlength, hfull, hinside, hrest⟩ :=
        ih hused (Nat.zero_le _) (by omega : measureOf parts (part + 1) 0 < fuel)
      exact ⟨hleft ▸ hbytes, hlength, hfull, hinside, hrest.trans hmeasure.le⟩
    · have htake := @leftOf_take parts part offset (limit - used.length)
      have hlength : (((parts.getD part []).drop offset).take (limit - used.length)).length =
          min (limit - used.length) ((parts.getD part []).length - offset) := by
        rw [length_take, length_drop]
      generalize ((parts.getD part []).drop offset).take (limit - used.length) = bytes at *
      have hmeasure : measureOf parts part (offset + bytes.length) < measureOf parts part offset := by
        have hsum := congrArg List.length htake
        rw [length_append] at hsum
        rw [measureOf, measureOf]
        omega
      have hused' : (used ++ bytes).length ≤ limit := by
        rw [length_append]
        omega
      obtain ⟨⟨taken, htaken, hleft⟩, hlimit, hfull, hinside, hrest⟩ :=
        ih hused' (by omega) (by omega : measureOf parts part (offset + bytes.length) < fuel)
      refine ⟨⟨bytes ++ taken, ?_, ?_⟩, hlimit, hfull, hinside, hrest.trans hmeasure.le⟩
      · rw [htaken, append_assoc]
      · rw [htake, hleft, append_assoc]
    · refine ⟨⟨[], (append_nil _).symm, rfl⟩, hused, ?_, hoffset, le_rfl⟩
      rw [not_and_or] at hmore
      rcases hmore with hfull | hend
      · exact .inl (Nat.le_antisymm hused (Nat.le_of_not_lt hfull))
      · exact .inr (leftOf_of_length_le (Nat.le_of_not_lt hend) offset)

/-- Chunks of no more than so many bytes and no fewer than one, each but the last full. -/
structure Chunked (limit : ℕ) (bytes : List UInt8) (chunks : List (List UInt8)) : Prop where
  flatten : chunks.flatten = bytes
  bounded : ∀ chunk ∈ chunks, 1 ≤ chunk.length ∧ chunk.length ≤ limit
  full : chunks.IsChain fun chunk _ => chunk.length = limit

variable {chunks : List (List UInt8)}

theorem Chunked.nil_of_flatten (h : Chunked limit [] chunks) : chunks = [] := by
  rw [eq_nil_iff_forall_not_mem]
  intro chunk hchunk
  have hlength := (h.bounded chunk hchunk).1
  rw [flatten_eq_nil_iff.1 h.flatten chunk hchunk] at hlength
  exact absurd hlength (Nat.not_succ_le_zero 0)

theorem Chunked.cons {chunk bytes : List UInt8} (hpositive : 1 ≤ chunk.length)
    (hlimit : chunk.length ≤ limit) (hfull : chunk.length = limit ∨ bytes = [])
    (h : Chunked limit bytes chunks) : Chunked limit (chunk ++ bytes) (chunk :: chunks) where
  flatten := by rw [flatten_cons, h.flatten]
  bounded c hc := by
    rcases mem_cons.1 hc with rfl | hc
    · exact ⟨hpositive, hlimit⟩
    · exact h.bounded c hc
  full := by
    rcases hfull with hfull | rfl
    · exact isChain_cons.2 ⟨fun _ _ => hfull, h.full⟩
    · rw [h.nil_of_flatten]
      exact isChain_singleton _

/-- Where the buffers after a part are empty, only the part is left. -/
theorem leftOf_of_skipEmpty (hpart : part < parts.length)
    (h : skipEmpty parts (part + 1) = parts.length) (offset : ℕ) :
    leftOf parts part offset = (parts.getD part []).drop offset := by
  have hall : (parts.drop (part + 1)).takeWhile List.isEmpty = parts.drop (part + 1) := by
    refine (List.takeWhile_prefix _).eq_of_length ?_
    rw [skipEmpty] at h
    rw [length_drop]
    omega
  have hempty : (parts.drop (part + 1)).flatten = [] := by
    rw [flatten_eq_nil_iff]
    intro other hother
    rw [← hall] at hother
    exact isEmpty_iff.1 (all_eq_true.1 all_takeWhile other hother)
  rw [leftOf, hempty, append_nil]

theorem chunked_chunksFrom {fuel : ℕ} (hlimit : 1 ≤ limit)
    (hoffset : offset ≤ (parts.getD part []).length) (hfuel : measureOf parts part offset < fuel)
    (hrounds : measureOf parts part offset < roundsOf parts) :
    Chunked limit (leftOf parts part offset) (chunksFrom parts limit fuel part offset) := by
  induction fuel generalizing part offset with
  | zero => exact absurd hfuel (Nat.not_lt_zero _)
  | succ fuel ih =>
    rw [chunksFrom]
    dsimp only
    split_ifs with hpart hdone hwhole
    · have hleft := leftOf_end hdone
      have hmeasure : measureOf parts (part + 1) 0 < measureOf parts part offset := by
        rw [measureOf, measureOf, hleft]
        omega
      rw [hleft]
      exact ih (Nat.zero_le _) (by omega) (by omega)
    · have htake := @leftOf_take parts part offset limit
      have hlength : (((parts.getD part []).drop offset).take limit).length =
          min limit ((parts.getD part []).length - offset) := by
        rw [length_take, length_drop]
      have hsum := congrArg List.length htake
      rw [length_append] at hsum
      have hmeasure : measureOf parts part
          (offset + (((parts.getD part []).drop offset).take limit).length) <
            measureOf parts part offset := by
        rw [measureOf, measureOf]
        omega
      rw [htake]
      refine Chunked.cons (by omega) (by omega) ?_ (ih (by omega) (by omega) (by omega))
      rcases hwhole with hfull | hlast
      · exact .inl hfull
      · rw [leftOf_of_skipEmpty hpart hlast, drop_eq_nil_iff, hlength]
        omega
    · have htake := @leftOf_take parts part offset limit
      have hlength : (((parts.getD part []).drop offset).take limit).length =
          min limit ((parts.getD part []).length - offset) := by
        rw [length_take, length_drop]
      have hsum := congrArg List.length htake
      rw [length_append] at hsum
      have hmeasure : measureOf parts part
          (offset + (((parts.getD part []).drop offset).take limit).length) <
            measureOf parts part offset := by
        rw [measureOf, measureOf]
        omega
      generalize ((parts.getD part []).drop offset).take limit = first at *
      obtain ⟨⟨taken, hbytes, hleft⟩, hlimited, hfull, hinside, hrest⟩ :=
        @gathered_gather parts part (offset + first.length) limit (roundsOf parts) first
          (by omega) (by omega) (by omega)
      have hpositive := congrArg List.length hbytes
      rw [length_append] at hpositive
      rw [htake, hleft, ← append_assoc, ← hbytes]
      exact Chunked.cons (by omega) hlimited hfull (ih hinside (by omega) (by omega))
    · rw [leftOf_of_length_le (Nat.le_of_not_lt hpart)]
      exact ⟨rfl, fun _ hc => absurd hc not_mem_nil, isChain_nil⟩

theorem chunked_writeChunks (parts : List (List UInt8)) (hlimit : 1 ≤ limit) :
    Chunked limit parts.flatten (writeChunks parts limit) := by
  have hstart : leftOf parts 0 0 = parts.flatten := by rw [leftOf_start, drop_zero]
  have hmeasure : measureOf parts 0 0 < roundsOf parts := by
    rw [measureOf, roundsOf, hstart]
    omega
  rw [← hstart]
  exact chunked_chunksFrom hlimit (Nat.zero_le _) hmeasure hmeasure

theorem Chunked.eq_singleton {bytes : List UInt8} (h : Chunked limit bytes chunks)
    (hpositive : 1 ≤ bytes.length) (hlimit : bytes.length ≤ limit) : chunks = [bytes] := by
  obtain ⟨hflatten, hbounded, hfull⟩ := h
  match chunks with
  | [] =>
    rw [← hflatten] at hpositive
    exact absurd hpositive (Nat.not_succ_le_zero 0)
  | [chunk] => rw [← hflatten, flatten_cons, flatten_nil, append_nil]
  | first :: second :: rest =>
    have hfirst := hfull.rel
    have hsecond := (hbounded second (by simp)).1
    rw [← hflatten, flatten_cons, flatten_cons, length_append,
      length_append] at hlimit
    omega

end NativeStream

end Tabnode
