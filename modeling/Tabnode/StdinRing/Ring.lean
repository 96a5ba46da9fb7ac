import Mathlib.Data.List.GetD
import Mathlib.Data.Nat.ModEq
import Mathlib.Logic.Function.Basic
import Tabnode.Data.Fifo
import Tabnode.Data.Machine

/-!
# The stdin ring

A run's fd 0 over shared memory: a byte ring that a host's thread writes and the run's
thread reads. Each thread is given as the atomic steps it makes on the shared words
and bytes, in the order of the source; what the other thread does may fall between any
two of them. `step` is one step of either thread, or a call that is made on one.

The words of the header are 32-bit: an index counts the bytes that have passed, ever,
modulo 2^32. The word that holds the capacity is never written after the ring is made,
so it is a parameter here.
-/

namespace Tabnode

namespace StdinRing

abbrev Word := BitVec 32

/-- The data area's length in bytes: a power of two that a header word can hold. -/
structure Capacity where
  exponent : ℕ
  isInt32 : exponent ≤ 30

def Capacity.size (cap : Capacity) : ℕ := 2 ^ cap.exponent

/-- Why a shared buffer of `byteLength` bytes whose header says `capacity` is not a stdin
ring, or `none` when it is one. -/
def stdinRingProblem (byteLength : ℕ) (capacity : Word) : Option String :=
  if byteLength < 32 then some "stdinShared is shorter than its 32-byte header"
  else if capacity.toInt ≤ 0 ∨ capacity &&& (capacity - 1) ≠ 0 then
    some "stdinShared capacity must be a power of two"
  else if byteLength < 32 + capacity.toNat then
    some "stdinShared is shorter than its header and capacity"
  else none

theorem exists_capacity {byteLength : ℕ} {capacity : Word}
    (h : stdinRingProblem byteLength capacity = none) :
    ∃ cap : Capacity, capacity.toNat = cap.size := by
  simp only [stdinRingProblem] at h
  split at h
  · cases h
  · split at h
    · cases h
    · rename_i hcapacity
      obtain ⟨hpos, hbits⟩ := not_or.1 hcapacity
      have hlt : capacity.toNat < 2 ^ 31 ∧ capacity.toNat ≠ 0 := by
        rw [BitVec.toInt_eq_toNat_cond] at hpos
        split at hpos <;> omega
      have hpred : (capacity - 1).toNat = capacity.toNat - 1 := by bv_omega
      have hand : capacity.toNat &&& (capacity.toNat - 1) = 0 := by
        rw [← hpred, ← BitVec.toNat_and, not_not.1 hbits]
        rfl
      obtain ⟨exponent, hexponent⟩ :=
        (Nat.and_sub_one_eq_zero_iff_isPowerOfTwo hlt.2).1 hand
      have hlog : exponent < 31 := by
        rw [hexponent] at hlt
        exact (Nat.pow_lt_pow_iff_right (by decide)).1 hlt.1
      exact ⟨⟨exponent, Nat.le_of_lt_succ hlog⟩, hexponent⟩

/-- What the two threads share: the words of the header, and the data area by offset. -/
structure Ring where
  writeIndex : Word
  readIndex : Word
  closed : Word
  signal : Word
  data : ℕ → UInt8

def available (write read : Word) : ℕ := (write - read).toNat

/-- The bytes of a write and how many of them are in the ring. -/
structure Job where
  bytes : List UInt8
  offset : ℕ

/-- Where `put` stands. Each constructor is named for the step it is about to make:
the load of CLOSED, the two loads at the top of the loop, `Atomics.waitAsync`, a copied
byte or (when all are copied) the store of WRITE_INDEX, the add to SIGNAL and its
notification. `parked` waits for the promise of `waitAsync`, and `woken` for its turn
after that promise. -/
inductive Put where
  | idle
  | start (bytes : List UInt8)
  | loadRead (job : Job)
  | loadWrite (job : Job) (readRaw : Word)
  | wait (job : Job) (readRaw : Word)
  | parked (job : Job) (readRaw : Word)
  | woken (job : Job)
  | copy (job : Job) (written : Word) (count done : ℕ)
  | add (job : Job) (count : ℕ)
  | notify (job : Job) (count : ℕ)

/-- Where a call of `close` stands: before its store, its add and its notification. -/
inductive Close where
  | idle
  | store
  | add
  | notify
  deriving DecidableEq

/-- The producer's thread: the writes chained on the promise queue, the `put` that was
taken off it, and a `close` in progress. -/
structure Writer where
  queue : List (List UInt8)
  put : Put
  close : Close

/-- The thread has nothing to run: no `put`, or one that waits for a promise. -/
def Put.suspended : Put → Bool
  | .idle => true
  | .parked _ _ => true
  | .woken _ => true
  | _ => false

/-- Which call a `take` serves. -/
inductive Frame where
  | take
  | takeAll
  | takeBlocking (length : ℕ) (signal : Word)

/-- Where the reader's thread stands, named for the step it is about to make. `size`
is the `available()` of `takeAll`; `count`, `closed` and `left` are the look of `take`
and `read`, `copy` and `notify` the rest of it; `signal`, `wait` and `parked` belong to
`takeBlocking`, and the `watch` steps to `whenWritten`. -/
inductive Pc where
  | idle
  | sizeWrite
  | sizeRead (write : Word)
  | signal (length : ℕ)
  | countWrite (frame : Frame) (length : ℕ)
  | countRead (frame : Frame) (length : ℕ) (write : Word)
  | closed (frame : Frame)
  | leftWrite (frame : Frame)
  | leftRead (frame : Frame) (write : Word)
  | read (frame : Frame) (count : ℕ)
  | copy (frame : Frame) (count : ℕ) (read : Word) (into : List UInt8)
  | notify (into : List UInt8)
  | wait (length : ℕ) (signal : Word)
  | parked (length : ℕ) (signal : Word)
  | watchSignal
  | watchWrite (signal : Word)
  | watchRead (signal : Word) (write : Word)
  | watchClosed (signal : Word)
  | watchWait (signal : Word)

/-- The consumer's thread, and the values of SIGNAL that the unresolved promises of
`whenWritten` wait on. -/
structure Reader where
  pc : Pc
  watchers : List Word

/-- A ring with its two threads, and what was asked and answered so far. -/
structure World where
  ring : Ring
  writer : Writer
  reader : Reader
  history : List (Fifo.Event UInt8)

def World.new (index signal : Word) (data : ℕ → UInt8) : World where
  ring := ⟨index, index, 0, signal, data⟩
  writer := ⟨[], .idle, .idle⟩
  reader := ⟨.idle, []⟩
  history := []

/-! ## The producer -/

def Job.rest (job : Job) : List UInt8 := job.bytes.drop job.offset

/-- The loop of `put`: once more, or done. -/
def Put.loop (job : Job) : Put :=
  if job.offset < job.bytes.length then .loadRead job else .idle

/-- Where byte `index` of a chunk of `count` goes: `data.set` is called once for what
fits before the end of the data area and once for what is left. -/
def target (capacity written count index : ℕ) : ℕ :=
  let at' := written % capacity
  let first := min count (capacity - at')
  if index < first then at' + index else index - first

/-- `Atomics.notify` on SIGNAL: a blocked reader goes round its loop, and the promises
of `whenWritten` resolve. -/
def Reader.notified (reader : Reader) : Reader where
  pc := match reader.pc with
    | .parked length _ => .signal length
    | pc => pc
  watchers := []

/-- The next step of a `put`. Where the realm has no `Atomics.waitAsync` a full ring
ends it with an error. -/
def putStep (waitsAsync : Bool) (cap : Capacity) (w : World) : Option World :=
  let ring := w.ring
  let next (put : Put) : World := { w with writer := { w.writer with put } }
  match w.writer.put with
  | .idle =>
    match w.writer.queue with
    | [] => none
    | bytes :: queue => some { w with writer := { w.writer with queue, put := .start bytes } }
  | .start bytes =>
    if ring.closed = 1 then some (next .idle) else some (next (.loop ⟨bytes, 0⟩))
  | .loadRead job => some (next (.loadWrite job ring.readIndex))
  | .loadWrite job readRaw =>
    let written := ring.writeIndex
    let room := cap.size - available written readRaw
    if room = 0 then
      if waitsAsync then some (next (.wait job readRaw)) else some (next .idle)
    else
      some (next (.copy job written (min room (job.bytes.length - job.offset)) 0))
  | .wait job readRaw =>
    if ring.readIndex = readRaw then some (next (.parked job readRaw))
    else some (next (.loop job))
  | .parked _ _ => none
  | .woken job => some (next (.loop job))
  | .copy job written count done =>
    if done < count then
      let byte := job.bytes.getD (job.offset + done) 0
      some { next (.copy job written count (done + 1)) with
        ring.data := Function.update ring.data (target cap.size written.toNat count done) byte }
    else
      some { next (.add job count) with
        ring.writeIndex := BitVec.ofNat 32 (written.toNat + count) }
  | .add job count => some { next (.notify job count) with ring.signal := ring.signal + 1 }
  | .notify job count =>
    some { next (.loop { job with offset := job.offset + count }) with
      reader := w.reader.notified }

/-- The next step of a `close`. -/
def closeStep (w : World) : Option World :=
  let next (close : Close) : World := { w with writer := { w.writer with close } }
  match w.writer.close with
  | .idle => none
  | .store => some { next .add with ring.closed := 1 }
  | .add => some { next .notify with ring.signal := w.ring.signal + 1 }
  | .notify => some { next .idle with reader := w.reader.notified }

/-- The next step of the producer's thread: a `close` runs to its end before the `put`
of the queue goes on. -/
def writerStep (waitsAsync : Bool) (cap : Capacity) (w : World) : Option World :=
  if w.writer.close = .idle then putStep waitsAsync cap w else closeStep w

/-! ## The consumer -/

/-- The call that a `take` answering null serves: a blocking one waits. -/
def Frame.null : Frame → Pc
  | .take => .idle
  | .takeAll => .idle
  | .takeBlocking length signal => .wait length signal

/-- `Atomics.notify` on READ_INDEX: a `put` that waits may go on. -/
def Writer.notified (writer : Writer) : Writer :=
  match writer.put with
  | .parked job _ => { writer with put := .woken job }
  | _ => writer

def readerStep (cap : Capacity) (w : World) : Option World :=
  let ring := w.ring
  let next (pc : Pc) : World := { w with reader := { w.reader with pc } }
  match w.reader.pc with
  | .idle => none
  | .sizeWrite => some (next (.sizeRead ring.writeIndex))
  | .sizeRead write => some (next (.countWrite .takeAll (available write ring.readIndex)))
  | .signal length => some (next (.countWrite (.takeBlocking length ring.signal) length))
  | .countWrite frame length => some (next (.countRead frame length ring.writeIndex))
  | .countRead frame length write =>
    let count := min length (available write ring.readIndex)
    if count = 0 then some (next (.closed frame)) else some (next (.read frame count))
  | .closed frame =>
    if ring.closed = 1 then some (next (.leftWrite frame)) else some (next frame.null)
  | .leftWrite frame => some (next (.leftRead frame ring.writeIndex))
  | .leftRead frame write =>
    if available write ring.readIndex = 0 then
      some { next .idle with history := w.history ++ [.eof] }
    else some (next frame.null)
  | .read frame count => some (next (.copy frame count ring.readIndex []))
  | .copy frame count read into =>
    if into.length < count then
      let byte := ring.data ((read.toNat + into.length) % cap.size)
      some (next (.copy frame count read (into ++ [byte])))
    else
      some { next (.notify into) with
        ring.readIndex := BitVec.ofNat 32 (read.toNat + count) }
  | .notify into =>
    some { next .idle with
      writer := w.writer.notified
      history := w.history ++ [.take into] }
  | .wait length signal =>
    if ring.signal = signal then some (next (.parked length signal))
    else some (next (.signal length))
  | .parked _ _ => none
  | .watchSignal => some (next (.watchWrite ring.signal))
  | .watchWrite signal => some (next (.watchRead signal ring.writeIndex))
  | .watchRead signal write =>
    if 0 < available write ring.readIndex then some (next .idle)
    else some (next (.watchClosed signal))
  | .watchClosed signal =>
    if ring.closed = 1 then some (next .idle) else some (next (.watchWait signal))
  | .watchWait signal =>
    if ring.signal = signal then
      some { w with reader := ⟨.idle, signal :: w.reader.watchers⟩ }
    else some (next .idle)

/-! ## Interleavings -/

/-- A call made on the consumer's thread. -/
inductive ReadCall where
  | take (length : ℕ)
  | takeAll
  | takeBlocking (length : ℕ)
  | whenWritten
  deriving DecidableEq

def ReadCall.entry : ReadCall → Pc
  | .take length => .countWrite .take length
  | .takeAll => .sizeWrite
  | .takeBlocking length => .signal length
  | .whenWritten => .watchSignal

/-- What may happen next: a call made on a thread that is free to make one, or the next
atomic step of a thread. -/
inductive Action where
  | write (bytes : List UInt8)
  | close
  | writer
  | call (c : ReadCall)
  | reader
  deriving DecidableEq

/-- The producer's thread can run a task of its own: no `close` runs, and no `put`
stands between two awaits. -/
def Writer.free (writer : Writer) : Bool :=
  writer.close = .idle && writer.put.suspended

def Pc.free : Pc → Bool
  | .idle => true
  | _ => false

/-- `write` chains a `put` of a copy of the bytes on the queue. -/
def World.write (w : World) (bytes : List UInt8) : World :=
  { w with
    writer := { w.writer with queue := w.writer.queue ++ [bytes] }
    history := w.history ++ [.write bytes] }

/-- `close` begins. -/
def World.close (w : World) : World :=
  { w with
    writer := { w.writer with close := .store }
    history := w.history ++ [.close] }

def step (waitsAsync : Bool) (cap : Capacity) (w : World) : Action → Option World
  | .write bytes => if w.writer.free then some (w.write bytes) else none
  | .close => if w.writer.free then some w.close else none
  | .writer => writerStep waitsAsync cap w
  | .call c =>
    if w.reader.pc.free then some { w with reader := { w.reader with pc := c.entry } }
    else none
  | .reader => readerStep cap w

end StdinRing

end Tabnode

/-!
## Indices that wrap

The two indices count modulo 2^32 and a place in the data area is taken modulo the
capacity, a power of two that divides 2^32. What a reader finds is therefore a list:
`contents` reads it off the ring. `Fed` is all that the producer can do to a ring and
`Drained` all that the consumer can, as the other thread sees it.
-/

namespace Tabnode

namespace StdinRing

variable {cap : Capacity}

theorem Capacity.size_le (cap : Capacity) : cap.size ≤ 2 ^ 30 :=
  Nat.pow_le_pow_right (by decide) cap.isInt32

theorem Capacity.size_dvd (cap : Capacity) : cap.size ∣ 2 ^ 32 :=
  pow_dvd_pow 2 (Nat.le_trans cap.isInt32 (by decide))

theorem available_eq_zero {write read : Word} : available write read = 0 ↔ write = read := by
  unfold available
  bv_omega

@[simp] theorem available_self (index : Word) : available index index = 0 :=
  available_eq_zero.2 rfl

theorem available_write {write read : Word} {count : ℕ}
    (h : available write read + count < 2 ^ 32) :
    available (BitVec.ofNat 32 (write.toNat + count)) read =
      available write read + count := by
  unfold available at *
  bv_omega

theorem available_read {write read : Word} {count : ℕ} (h : count ≤ available write read) :
    available write (BitVec.ofNat 32 (read.toNat + count)) =
      available write read - count := by
  unfold available at *
  bv_omega

/-- The write index is the read index and what is available, as places go. -/
theorem writeIndex_mod (cap : Capacity) (write read : Word) (i : ℕ) :
    (read.toNat + (available write read + i)) % cap.size = (write.toNat + i) % cap.size := by
  have hmod : (read.toNat + available write read) % 2 ^ 32 = write.toNat % 2 ^ 32 := by
    unfold available
    bv_omega
  have hcap : (read.toNat + available write read) ≡ write.toNat [MOD cap.size] :=
    Nat.ModEq.of_dvd cap.size_dvd hmod
  rw [← Nat.add_assoc]
  exact hcap.add_right i

/-- Both calls of `data.set` put the bytes where their numbers say. -/
theorem target_eq {capacity written count index : ℕ} (hcount : count ≤ capacity)
    (hindex : index < count) :
    target capacity written count index = (written + index) % capacity := by
  have hpos : 0 < capacity := by omega
  have hlt : written % capacity < capacity := Nat.mod_lt _ hpos
  simp only [target]
  rw [← Nat.mod_add_mod]
  generalize written % capacity = at' at hlt
  split
  · rw [Nat.mod_eq_of_lt]
    omega
  · have hwrap : at' + index = (index - min count (capacity - at')) + capacity := by omega
    rw [hwrap, Nat.add_mod_right, Nat.mod_eq_of_lt]
    omega

theorem place_inj (cap : Capacity) {base i j : ℕ} (hi : i < cap.size) (hj : j < cap.size)
    (h : (base + i) % cap.size = (base + j) % cap.size) : i = j := by
  have hmod : i ≡ j [MOD cap.size] := Nat.ModEq.add_left_cancel' base h
  exact Nat.ModEq.eq_of_lt_of_lt hmod hi hj

namespace Ring

def size (r : Ring) : ℕ := available r.writeIndex r.readIndex

/-- The byte `i` places after the next one to read. -/
def cell (cap : Capacity) (r : Ring) (i : ℕ) : UInt8 :=
  r.data ((r.readIndex.toNat + i) % cap.size)

def contents (cap : Capacity) (r : Ring) : List UInt8 :=
  (List.range r.size).map (r.cell cap)

@[simp] theorem length_contents (cap : Capacity) (r : Ring) :
    (r.contents cap).length = r.size := by
  simp [contents]

/-- A ring the producer may have made of another: bytes were added at the end. -/
structure Fed (cap : Capacity) (r r' : Ring) : Prop where
  readIndex : r'.readIndex = r.readIndex
  size_le : r.size ≤ r'.size
  contents : r.contents cap <+: r'.contents cap

/-- A ring the consumer may have made of another: bytes were taken from the front. -/
structure Drained (r r' : Ring) : Prop where
  writeIndex : r'.writeIndex = r.writeIndex
  closed : r'.closed = r.closed
  signal : r'.signal = r.signal
  data : r'.data = r.data
  size_le : r'.size ≤ r.size

theorem Fed.of_eq {r r' : Ring} (hread : r'.readIndex = r.readIndex)
    (hwrite : r'.writeIndex = r.writeIndex) (hdata : r'.data = r.data) : Fed cap r r' where
  readIndex := hread
  size_le := by simp [size, hread, hwrite]
  contents := by
    have hcell : r'.cell cap = r.cell cap := funext fun i => by simp [cell, hread, hdata]
    simp [Ring.contents, size, hread, hwrite, hcell]

theorem Drained.refl (r : Ring) : Drained r r := ⟨rfl, rfl, rfl, rfl, Nat.le_refl _⟩

/-- A byte written past the end of the contents changes none of them. -/
theorem contents_update (cap : Capacity) {r : Ring} {j : ℕ} (hj : r.size + j < cap.size) (byte : UInt8) :
    contents cap { r with
        data := Function.update r.data ((r.writeIndex.toNat + j) % cap.size) byte } =
      r.contents cap := by
  apply List.map_congr_left
  intro i hi
  have hi' : i < r.size := by simpa [size] using hi
  have hne : (r.readIndex.toNat + i) % cap.size ≠ (r.writeIndex.toNat + j) % cap.size := by
    rw [← writeIndex_mod cap r.writeIndex r.readIndex j]
    intro h
    have := place_inj cap (by omega) (by unfold size at hj; omega) h
    unfold size at hi'
    omega
  simp [cell, Function.update_of_ne hne]

/-- Storing the write index makes the bytes copied past the end part of the contents. -/
theorem contents_write (cap : Capacity) (r : Ring) {bytes : List UInt8} (hroom : r.size + bytes.length < 2 ^ 32)
    (hcells : ∀ j < bytes.length, r.data ((r.writeIndex.toNat + j) % cap.size) = bytes.getD j 0) :
    contents cap { r with
        writeIndex := BitVec.ofNat 32 (r.writeIndex.toNat + bytes.length) } =
      r.contents cap ++ bytes := by
  have hsize : size { r with
      writeIndex := BitVec.ofNat 32 (r.writeIndex.toNat + bytes.length) } =
        r.size + bytes.length := available_write hroom
  rw [contents, hsize, List.range_add, List.map_append, List.map_map]
  congr 1
  apply List.ext_getElem (by simp)
  intro j hj hj'
  have hplace : (r.readIndex.toNat + (r.size + j)) % cap.size =
      (r.writeIndex.toNat + j) % cap.size := writeIndex_mod cap r.writeIndex r.readIndex j
  simp only [List.getElem_map, List.getElem_range, Function.comp_apply, cell]
  rw [hplace, hcells j hj', List.getD_eq_getElem _ _ hj']

theorem contents_read (cap : Capacity) {r : Ring} {count : ℕ} (h : count ≤ r.size) :
    contents cap { r with readIndex := BitVec.ofNat 32 (r.readIndex.toNat + count) } =
      (r.contents cap).drop count := by
  have hsize : size { r with readIndex := BitVec.ofNat 32 (r.readIndex.toNat + count) } =
      r.size - count := available_read h
  apply List.ext_getElem (by simp [hsize])
  intro i hi hi'
  have hplace : (BitVec.ofNat 32 (r.readIndex.toNat + count)).toNat + i ≡
      r.readIndex.toNat + (count + i) [MOD cap.size] := by
    rw [BitVec.toNat_ofNat, ← Nat.add_assoc]
    exact ((Nat.mod_modEq _ _).of_dvd cap.size_dvd).add_right i
  simp only [contents, List.getElem_map, List.getElem_drop, List.getElem_range, cell]
  rw [hplace]

/-- The byte the reader copies next is the next one of the contents. -/
theorem take_contents (cap : Capacity) {r : Ring} {i : ℕ} (h : i < r.size) :
    (r.contents cap).take i ++ [r.cell cap i] = (r.contents cap).take (i + 1) := by
  rw [List.take_add_one, List.getElem?_eq_getElem (by simpa using h)]
  simp [contents]

end Ring

end StdinRing

end Tabnode
