import Mathlib.Data.List.Basic

/-!
# Byte buffers and views

A heap of byte buffers, each named by its index, and views of a stretch of one, several of
which may share bytes. Bytes are written through a view in place (`write`); a view keeps
its bytes when they lie before what is written, or in another buffer. Overwriting is on
plain lists first (`overwrite`).
-/

namespace Tabnode

namespace ByteHeap

open List

/-! ## Overwriting a list -/

def overwrite {α : Type*} (l : List α) (position : ℕ) (source : List α) : List α :=
  l.take position ++ source ++ l.drop (position + source.length)

section Overwrite

variable {α : Type*} {l source : List α} {position n : ℕ}

theorem length_overwrite (h : position + source.length ≤ l.length) :
    (overwrite l position source).length = l.length := by
  simp only [overwrite, length_append, length_take, length_drop]
  omega

theorem take_overwrite_of_le (h : n ≤ position) (hlength : position ≤ l.length) :
    (overwrite l position source).take n = l.take n := by
  rw [overwrite, append_assoc, take_append_of_le_length (by simp; omega),
    take_take, Nat.min_eq_left h]

theorem overwrite_take (hposition : position ≤ n) (hn : n ≤ l.length) :
    overwrite (l.take n) position source =
      (overwrite l position source).take (max n (position + source.length)) := by
  have hsize : (l.take position ++ source).length = position + source.length := by
    rw [length_append, length_take, Nat.min_eq_left (by omega)]
  have hlast : max n (position + source.length) - (position + source.length) =
      n - (position + source.length) := by omega
  have hreach : (l.take position ++ source).length ≤ max n (position + source.length) :=
    hsize ▸ Nat.le_max_right ..
  rw [overwrite, overwrite, take_take, Nat.min_eq_left hposition, drop_take,
    take_append, hsize, take_of_length_le hreach, hlast]

theorem overwrite_length (l source : List α) : overwrite l l.length source = l ++ source := by
  rw [overwrite, take_length, drop_eq_nil_of_le (by omega), append_nil]

end Overwrite

/-! ## Views -/

/-- A stretch of the bytes of a buffer. -/
structure View where
  buffer : ℕ
  byteOffset : ℕ
  byteLength : ℕ
  deriving DecidableEq

def View.subarray (v : View) (start stop : ℕ) : View where
  buffer := v.buffer
  byteOffset := v.byteOffset + min start v.byteLength
  byteLength := min stop v.byteLength - min start v.byteLength

def View.stop (v : View) : ℕ :=
  v.byteOffset + v.byteLength

abbrev Heap := List (List UInt8)

namespace Heap

def bytes (h : Heap) (b : ℕ) : List UInt8 :=
  h.getD b []

def contents (h : Heap) (v : View) : List UInt8 :=
  ((h.bytes v.buffer).drop v.byteOffset).take v.byteLength

def allocate (h : Heap) (bytes : List UInt8) : Heap :=
  h ++ [bytes]

def next (h : Heap) (byteLength : ℕ) : View where
  buffer := h.length
  byteOffset := 0
  byteLength := byteLength

def write (h : Heap) (v : View) (position : ℕ) (source : List UInt8) : Heap :=
  h.modify v.buffer fun bytes => overwrite bytes (v.byteOffset + position) source

/-- The view lies in a buffer of the heap. -/
structure Fits (h : Heap) (v : View) : Prop where
  buffer_lt : v.buffer < h.length
  stop_le : v.stop ≤ (h.bytes v.buffer).length

variable {h : Heap} {v room : View} {position b : ℕ} {source bytes : List UInt8}

theorem bytes_write_of_ne (hb : b ≠ room.buffer) :
    (h.write room position source).bytes b = h.bytes b := by
  simp [Heap.bytes, write, getD_eq_getElem?_getD, Ne.symm hb]

theorem bytes_write_self (hb : room.buffer < h.length) :
    (h.write room position source).bytes room.buffer =
      overwrite (h.bytes room.buffer) (room.byteOffset + position) source := by
  simp [Heap.bytes, write, getD_eq_getElem?_getD, hb]

theorem bytes_allocate_of_lt (hb : b < h.length) : (h.allocate bytes).bytes b = h.bytes b := by
  simp [Heap.bytes, allocate, getD_eq_getElem?_getD, getElem?_append_left hb]

theorem bytes_allocate_length : (h.allocate bytes).bytes h.length = bytes := by
  simp [Heap.bytes, allocate, getD_eq_getElem?_getD]

theorem length_write : (h.write room position source).length = h.length :=
  length_modify ..

theorem contents_congr {h' : Heap} (hbytes : h'.bytes v.buffer = h.bytes v.buffer) :
    h'.contents v = h.contents v := by
  rw [contents, hbytes, contents]

theorem contents_write_of_ne (hb : v.buffer ≠ room.buffer) :
    (h.write room position source).contents v = h.contents v :=
  contents_congr (bytes_write_of_ne hb)

theorem contents_write_of_stop_le (hroom : h.Fits room) (hposition : position ≤ room.byteLength)
    (hstop : v.stop ≤ room.byteOffset + position) :
    (h.write room position source).contents v = h.contents v := by
  by_cases hb : v.buffer = room.buffer
  · have hlength := hroom.stop_le
    unfold View.stop at hstop hlength
    rw [contents, contents, hb, bytes_write_self hroom.buffer_lt, take_drop,
      take_drop, take_overwrite_of_le hstop (by omega)]
  · exact contents_write_of_ne hb

theorem contents_allocate (hv : v.buffer < h.length) :
    (h.allocate bytes).contents v = h.contents v :=
  contents_congr (bytes_allocate_of_lt hv)

end Heap

end ByteHeap

end Tabnode
