import Tabnode.FileBuffers.Sharing

/-!
# Room for a write

A write goes into a buffer that is ready for it: one with the file's content, and zeros
behind it up to the position, of which nobody holds anything from the position on
(`Ready`). A new buffer with room to grow is ready; so is the file's own room, for an
append, and for a write at a position where the content is not lent.
-/

namespace Tabnode

namespace FileBuffers

open ByteHeap VirtualFS List

variable {Name : Type*} {fs : VirtualFS Name} {name : Name} {node : FSNode}
  {room v : View} {heap : Heap} {bytes : List UInt8} {length position : ℕ}

theorem length_contents (h : heap.Fits v) : (heap.contents v).length = v.byteLength := by
  have hstop := h.stop_le
  rw [View.stop] at hstop
  rw [Heap.contents, length_take, length_drop, Nat.min_eq_left (by omega)]

theorem Grows.refl (heap : Heap) : Grows heap heap :=
  ⟨Nat.le_refl _, fun _ _ => rfl⟩

theorem Grows.allocate (heap : Heap) (bytes : List UInt8) : Grows heap (heap.allocate bytes) where
  length_le := by simp [Heap.allocate]
  bytes_length := fun _ hb => by rw [Heap.bytes_allocate_of_lt hb]

theorem Grows.write {heap' : Heap} (h : Grows heap heap') (hroom : heap'.Fits room)
    (hposition : room.byteOffset + position + bytes.length ≤ (heap'.bytes room.buffer).length) :
    Grows heap (heap'.write room position bytes) where
  length_le := by
    rw [Heap.length_write]
    exact h.length_le
  bytes_length := by
    intro b hb
    by_cases hbuffer : b = room.buffer
    · rw [hbuffer, Heap.bytes_write_self hroom.buffer_lt, length_overwrite hposition, ← hbuffer]
      exact h.bytes_length b hb
    · rw [Heap.bytes_write_of_ne hbuffer]
      exact h.bytes_length b hb

/-! ## New arrays -/

theorem Apart.allocate (h : Apart fs) (bytes : List UInt8) :
    Apart { fs with heap := fs.heap.allocate bytes } where
  arrays_fit := fun w hw => (Grows.allocate fs.heap bytes).fits (h.arrays_fit w hw)
  content_fits := fun name node hnode =>
    (Grows.allocate fs.heap bytes).fits (h.content_fits name node hnode)
  owns := by
    intro name node room hnode hroom
    have howns := h.owns name node room hnode hroom
    refine ⟨(Grows.allocate fs.heap bytes).fits howns.fits, ?_, howns.content_in, howns.behind,
      howns.unlent⟩
    rw [Heap.bytes_allocate_of_lt howns.fits.buffer_lt]
    exact howns.whole
  rooms_apart := h.rooms_apart

theorem plain_allocate (h : Apart fs) (bytes : List UInt8) :
    ({ fs with heap := fs.heap.allocate bytes } : VirtualFS Name).plain = fs.plain := by
  have hfiles : ∀ name, (({ fs with heap := fs.heap.allocate bytes } :
      VirtualFS Name).plain).files name = fs.plain.files name := by
    intro name
    cases hnode : fs.files name with
    | none => simp [plain, hnode]
    | some node =>
      have hcontent : (fs.heap.allocate bytes).contents node.content =
          fs.heap.contents node.content :=
        Heap.contents_allocate (h.content_fits name node hnode).buffer_lt
      simp [plain, hnode, hcontent]
  have harrays : fs.arrays.map (fs.heap.allocate bytes).contents =
      fs.arrays.map fs.heap.contents :=
    map_congr_left fun w hw => Heap.contents_allocate (h.arrays_fit w hw).buffer_lt
  unfold plain at hfiles ⊢
  simp only [harrays, PlainFS.mk.injEq, and_true]
  exact funext hfiles

theorem fits_next (heap : Heap) (bytes : List UInt8) :
    (heap.allocate bytes).Fits (heap.next bytes.length) where
  buffer_lt := by simp [Heap.allocate, Heap.next]
  stop_le := by
    simp only [View.stop, Heap.next, Nat.zero_add]
    exact Nat.le_of_eq (congrArg List.length Heap.bytes_allocate_length.symm)

theorem contents_next (heap : Heap) (bytes : List UInt8) :
    (heap.allocate bytes).contents (heap.next bytes.length) = bytes := by
  rw [Heap.contents, Heap.next, Heap.bytes_allocate_length, drop_zero, take_length]

theorem Apart.shareable_next (h : Apart fs) (bytes : List UInt8) :
    Shareable { fs with heap := fs.heap.allocate bytes } (fs.heap.next bytes.length) where
  fits := fits_next fs.heap bytes
  within := by
    intro name node room hnode hroom hbuffer
    have hlt := (h.owns name node room hnode hroom).fits.buffer_lt
    rw [← hbuffer] at hlt
    exact absurd hlt (Nat.lt_irrefl _)

/-! ## Buffers to write into -/

/-- A buffer and a heap in which a write may be made for a file: the buffer has the
file's content and zeros up to the position, none of it is held by another file as its
room, and what others hold of it lies before the position. -/
structure Ready (fs : VirtualFS Name) (name : Name) (node : FSNode) (heap : Heap) (room : View)
    (position length : ℕ) : Prop where
  grows : Grows fs.heap heap
  fits : heap.Fits room
  whole : room.byteOffset = 0 ∧ room.byteLength = (heap.bytes room.buffer).length
  rooms : ∀ name' node' room', name' ≠ name → fs.files name' = some node' →
    node'.room = some room' → room'.buffer ≠ room.buffer
  same : ∀ w, Other fs name w → heap.contents w = fs.heap.contents w
  behind : ∀ w, Other fs name w → w.buffer = room.buffer → w.stop ≤ position
  length_le : length ≤ room.byteLength
  base : (heap.bytes room.buffer).take (max node.content.byteLength position) =
    fs.heap.contents node.content ++ List.replicate (position - node.content.byteLength) 0

theorem bytes_withRoom (hnode : fs.heap.Fits node.content) :
    (fs.withRoom node.content length).bytes fs.heap.length = fs.heap.contents node.content ++
      List.replicate (roomSize node.content length - node.content.byteLength) 0 := by
  have hlt : fs.heap.length <
      (fs.heap.allocate (List.replicate (roomSize node.content length) 0)).length := by
    simp [Heap.allocate]
  have hwrite : (fs.withRoom node.content length).bytes fs.heap.length = _ :=
    Heap.bytes_write_self hlt
  have hsize := length_contents hnode
  refine hwrite.trans ?_
  simp only [Heap.next, Heap.bytes_allocate_length, overwrite, Nat.add_zero, take_zero,
    nil_append, Nat.zero_add, hsize, drop_replicate]

theorem Apart.ready_withRoom (h : Apart fs) (hnode : fs.files name = some node)
    (hlength : max node.content.byteLength position ≤ length) :
    Ready fs name node (fs.withRoom node.content length)
      (fs.heap.next (roomSize node.content length)) position length := by
  have hfits := h.content_fits name node hnode
  have hsize := length_contents hfits
  have hroom : length ≤ roomSize node.content length := Nat.le_max_left ..
  have hbytes : (fs.withRoom node.content length).bytes fs.heap.length = _ := bytes_withRoom hfits
  have hbytesLength : ((fs.withRoom node.content length).bytes fs.heap.length).length =
      roomSize node.content length := by
    rw [hbytes, length_append, hsize, length_replicate]
    omega
  have hzeros : (Heap.next fs.heap (roomSize node.content length)).byteOffset + 0 +
      (fs.heap.contents node.content).length ≤ ((fs.heap.allocate
        (List.replicate (roomSize node.content length) 0)).bytes fs.heap.length).length := by
    rw [Heap.bytes_allocate_length, hsize, length_replicate]
    simp only [Heap.next]
    omega
  have hnext := fits_next fs.heap (List.replicate (roomSize node.content length) 0)
  rw [length_replicate] at hnext
  have hgrows := (Grows.allocate fs.heap _).write hnext hzeros
  have hother : ∀ w, Other fs name w → w.buffer ≠ fs.heap.length := fun w hw =>
    Nat.ne_of_lt (h.fits_of_other hw).buffer_lt
  refine ⟨hgrows, ⟨?_, ?_⟩, ⟨rfl, hbytesLength.symm⟩, ?_, ?_, ?_, hroom, ?_⟩
  · rw [withRoom, Heap.length_write]
    exact hnext.buffer_lt
  · exact Nat.le_of_eq ((Nat.zero_add _).trans hbytesLength.symm)
  · intro name' node' room' _ hnode' hroom'
    exact Nat.ne_of_lt (h.owns name' node' room' hnode' hroom').fits.buffer_lt
  · intro w hw
    rw [withRoom, Heap.contents_write_of_ne (hother w hw),
      Heap.contents_allocate (h.fits_of_other hw).buffer_lt]
  · intro w hw hbuffer
    exact absurd hbuffer (hother w hw)
  · change ((fs.withRoom node.content length).bytes fs.heap.length).take _ = _
    rw [hbytes, take_append, hsize, take_of_length_le (by omega), take_replicate]
    congr 2
    omega

theorem ownRoom_eq_some (h : ownRoom node length = some room) :
    node.room = some room ∧ length ≤ room.byteLength := by
  unfold ownRoom at h
  split at h
  · rename_i room' hroom
    split at h
    · cases h
    · rename_i hcond
      cases h
      simp only [not_or, Nat.not_lt] at hcond
      exact ⟨hroom, hcond.2.2⟩
  · cases h

theorem Owns.take_bytes (h : Owns fs name node room) :
    (fs.heap.bytes room.buffer).take node.content.byteLength = fs.heap.contents node.content := by
  rw [Heap.contents, h.content_in.1, h.content_in.2, drop_zero]

theorem Apart.ready_append (h : Apart fs) (hnode : fs.files name = some node)
    (hroom : node.room = some room) (hlength : length ≤ room.byteLength) :
    Ready fs name node fs.heap room node.content.byteLength length := by
  have howns := h.owns name node room hnode hroom
  refine ⟨.refl _, howns.fits, howns.whole, ?_, fun _ _ => rfl, ?_, hlength, ?_⟩
  · intro name' node' room' hne hnode' hroom'
    exact h.rooms_apart name name' node node' room room' hne hnode hnode' hroom hroom'
  · intro w hw hbuffer
    have hbehind := howns.behind w hw hbuffer
    rwa [View.stop, View.stop, howns.content_in.2, Nat.zero_add] at hbehind
  · rw [Nat.max_self, howns.take_bytes, Nat.sub_self, replicate_zero, append_nil]

/-- A write in place at a position, where nobody else holds any of the buffer. -/
theorem Apart.ready_fillGap (h : Apart fs) (hnode : fs.files name = some node)
    (hlent : node.lent = false) (hroom : node.room = some room) (hlength : length ≤ room.byteLength)
    (hposition : position ≤ length) :
    Ready fs name node (fs.fillGap node.content room position) room position length := by
  have howns := h.owns name node room hnode hroom
  have hwhole := howns.whole
  have hother := howns.unlent hlent
  have hrooms : ∀ name' node' room', name' ≠ name → fs.files name' = some node' →
      node'.room = some room' → room'.buffer ≠ room.buffer := by
    intro name' node' room' hne hnode' hroom'
    exact h.rooms_apart name name' node node' room room' hne hnode hnode' hroom hroom'
  unfold fillGap
  split
  · rename_i hgap
    have hend : room.byteOffset + node.content.byteLength +
        (List.replicate (position - node.content.byteLength) (0 : UInt8)).length ≤
          (fs.heap.bytes room.buffer).length := by
      rw [hwhole.1, length_replicate, ← hwhole.2]
      omega
    have hbytes : (fs.heap.write room node.content.byteLength
        (List.replicate (position - node.content.byteLength) 0)).bytes room.buffer = _ :=
      Heap.bytes_write_self howns.fits.buffer_lt
    rw [hwhole.1, Nat.zero_add] at hbytes hend
    have hbytesLength := congrArg List.length hbytes
    rw [length_overwrite hend] at hbytesLength
    refine ⟨(Grows.refl _).write howns.fits (by rw [hwhole.1, Nat.zero_add]; exact hend),
      ⟨by rw [Heap.length_write]; exact howns.fits.buffer_lt, ?_⟩, ?_, hrooms, ?_, ?_, hlength, ?_⟩
    · rw [hbytesLength]
      exact howns.fits.stop_le
    · rw [hbytesLength]
      exact hwhole
    · exact fun w hw => Heap.contents_write_of_ne (hother w hw)
    · exact fun w hw hbuffer => absurd hbuffer (hother w hw)
    · have hcontent : node.content.byteLength ≤ (fs.heap.bytes room.buffer).length := by
        rw [← hwhole.2]
        omega
      have htake : overwrite ((fs.heap.bytes room.buffer).take node.content.byteLength)
          node.content.byteLength
          (List.replicate (position - node.content.byteLength) 0) = _ :=
        overwrite_take (Nat.le_refl node.content.byteLength) hcontent
      rw [howns.take_bytes, length_replicate] at htake
      have hsize := length_contents (h.content_fits name node hnode)
      have hreach : max node.content.byteLength
          (node.content.byteLength + (position - node.content.byteLength)) =
            max node.content.byteLength position := by omega
      have hfilled := overwrite_length (fs.heap.contents node.content)
        (List.replicate (position - node.content.byteLength) 0)
      rw [hsize] at hfilled
      rw [hbytes, ← hreach, ← htake]
      exact hfilled
  · rename_i hgap
    refine ⟨.refl _, howns.fits, hwhole, hrooms, fun _ _ => rfl,
      fun w hw hbuffer => absurd hbuffer (hother w hw), hlength, ?_⟩
    rw [Nat.max_eq_left (by omega), howns.take_bytes, Nat.sub_eq_zero_of_le (by omega),
      replicate_zero, append_nil]

end FileBuffers

end Tabnode
