import Mathlib.Logic.Function.Basic
import Tabnode.Data.ByteHeap

/-!
# Files that share their buffers

A file's content is an array, a view of a buffer that other arrays may show too: a read
hands out the content as it is, and a write keeps the array it is given. An append, and a
write at a position, go into a buffer with room to grow that the file keeps for itself
(`room`); `lent` says that its content may be held by someone else. The calls here are the
filesystem's on its files, each named by its place in the tree; the caller makes arrays,
cuts stretches out of the arrays it has, and passes them to any of the calls.
-/

namespace Tabnode

namespace FileBuffers

open ByteHeap

/-- A file of the tree. -/
structure FSNode where
  content : View
  room : Option View := none
  lent : Bool := false

/-- The buffers, the files, and the arrays the caller has, in the order it got them. -/
structure VirtualFS (Name : Type*) where
  heap : Heap
  files : Name → Option FSNode
  arrays : List View

/-- What the caller does next; arrays are named by their place among those it has. -/
inductive Call (Name : Type*) where
  /-- the caller makes an array -/
  | array (bytes : List UInt8)
  /-- the caller takes a stretch of one -/
  | subarray (array start stop : ℕ)
  | readFileSync (name : Name)
  | writeFileSync (name : Name) (array : ℕ)
  | copyFileSync (src dest : Name)
  | appendFileSync (name : Name) (array : ℕ)
  | writeAtSync (name : Name) (array position : ℕ)

variable {Name : Type*} [DecidableEq Name]

namespace VirtualFS

variable (fs : VirtualFS Name) (name : Name) (data : View)

def new : VirtualFS Name where
  heap := []
  files := fun _ => none
  arrays := []

def setFile (node : FSNode) : VirtualFS Name :=
  { fs with files := Function.update fs.files name (some node) }

theorem setFile_files (node : FSNode) (name' : Name) : (fs.setFile name node).files name' =
    if name' = name then some node else fs.files name' :=
  Function.update_apply ..

/-- The file's content is the array it is given; a file there was is marked as holding
bytes that are not its own. -/
def writeFileSyncInternal : VirtualFS Name :=
  match fs.files name with
  | some node => fs.setFile name { node with content := data, room := none, lent := true }
  | none => fs.setFile name { content := data }

def readFileSync : Option (View × VirtualFS Name) :=
  match fs.files name with
  | some node => some (node.content, fs.setFile name { node with lent := true })
  | none => none

/-- The bytes of `bytes.slice()` and of the arrays made for new files. -/
def writeNew (bytes : List UInt8) : VirtualFS Name :=
  { fs with heap := fs.heap.allocate bytes }.writeFileSyncInternal name
    (fs.heap.next bytes.length)

def roomSize (current : View) (length : ℕ) : ℕ :=
  max length (max (current.byteLength * 2) 4096)

def withRoom (current : View) (length : ℕ) : Heap :=
  (fs.heap.allocate (List.replicate (roomSize current length) 0)).write
    (fs.heap.next (roomSize current length)) 0 (fs.heap.contents current)

def ownRoom (node : FSNode) (length : ℕ) : Option View :=
  match node.room with
  | some room =>
    if node.content.buffer ≠ room.buffer ∨ node.content.byteOffset ≠ 0 ∨
      room.byteLength < length then none
    else some room
  | none => none

/-- The bytes are written into the buffer, which the file then has its content in. -/
def writeInto (heap : Heap) (node : FSNode) (room : View) (position length : ℕ) :
    VirtualFS Name :=
  { fs with heap := heap.write room position (heap.contents data) }.setFile name
    { node with content := room.subarray 0 length, room := some room }

def appendFileSync : VirtualFS Name :=
  match fs.files name with
  | none => fs.writeNew name (fs.heap.contents data)
  | some node =>
    let length := node.content.byteLength + data.byteLength
    match ownRoom node length with
    | some room => fs.writeInto name data fs.heap node room node.content.byteLength length
    | none =>
      fs.writeInto name data (fs.withRoom node.content length) node
        (fs.heap.next (roomSize node.content length)) node.content.byteLength length

def fillGap (current room : View) (position : ℕ) : Heap :=
  if current.byteLength < position then
    fs.heap.write room current.byteLength (List.replicate (position - current.byteLength) 0)
  else fs.heap

def writeAtSync (position : ℕ) : VirtualFS Name :=
  match fs.files name with
  | none =>
    fs.writeNew name (overwrite (List.replicate (position + data.byteLength) 0) position
      (fs.heap.contents data))
  | some node =>
    if data.byteLength = 0 then fs
    else
      let length := max node.content.byteLength (position + data.byteLength)
      match if node.lent then none else ownRoom node length with
      | some room =>
        fs.writeInto name data (fs.fillGap node.content room position) node room position length
      | none =>
        fs.writeInto name data (fs.withRoom node.content length) { node with lent := false }
          (fs.heap.next (roomSize node.content length)) position length

def copyFileSync (src dest : Name) : VirtualFS Name :=
  match fs.readFileSync src with
  | some (content, fs') => fs'.writeFileSyncInternal dest content
  | none => fs

/-- One call, or one array the caller makes. A read, and a copy, of a file that is not
there throws. -/
def call : Call Name → Option (VirtualFS Name)
  | .array bytes =>
    some { fs with
      heap := fs.heap.allocate bytes
      arrays := fs.arrays ++ [fs.heap.next bytes.length] }
  | .subarray array start stop =>
    fs.arrays[array]?.map fun v => { fs with arrays := fs.arrays ++ [v.subarray start stop] }
  | .readFileSync name =>
    match fs.readFileSync name with
    | some (content, fs') => some { fs' with arrays := fs'.arrays ++ [content] }
    | none => some fs
  | .writeFileSync name array => fs.arrays[array]?.map (fs.writeFileSyncInternal name)
  | .copyFileSync src dest => some (fs.copyFileSync src dest)
  | .appendFileSync name array => fs.arrays[array]?.map (fs.appendFileSync name)
  | .writeAtSync name array position =>
    fs.arrays[array]?.map fun v => fs.writeAtSync name v position

end VirtualFS

/-! ## Files that own their bytes -/

/-- Every file owns a list of bytes, and so does every array of the caller. -/
structure PlainFS (Name : Type*) where
  files : Name → Option (List UInt8)
  arrays : List (List UInt8)

namespace PlainFS

variable (fs : PlainFS Name) (name : Name)

def new : PlainFS Name where
  files := fun _ => none
  arrays := []

def setFile (bytes : List UInt8) : PlainFS Name :=
  { fs with files := Function.update fs.files name (some bytes) }

theorem setFile_files (bytes : List UInt8) (name' : Name) : (fs.setFile name bytes).files name' =
    if name' = name then some bytes else fs.files name' :=
  Function.update_apply ..

/-- The bytes put at a position, over those that are there and behind a gap of zeros where
the position is past their end. -/
def putAt (bytes data : List UInt8) (position : ℕ) : List UInt8 :=
  overwrite (bytes ++ List.replicate (position - bytes.length) 0) position data

def call : Call Name → Option (PlainFS Name)
  | .array bytes => some { fs with arrays := fs.arrays ++ [bytes] }
  | .subarray array start stop =>
    fs.arrays[array]?.map fun bytes =>
      { fs with arrays := fs.arrays ++ [(bytes.take stop).drop start] }
  | .readFileSync name =>
    match fs.files name with
    | some bytes => some { fs with arrays := fs.arrays ++ [bytes] }
    | none => some fs
  | .writeFileSync name array => fs.arrays[array]?.map (fs.setFile name)
  | .copyFileSync src dest =>
    match fs.files src with
    | some bytes => some (fs.setFile dest bytes)
    | none => some fs
  | .appendFileSync name array =>
    fs.arrays[array]?.map fun data => fs.setFile name ((fs.files name).getD [] ++ data)
  | .writeAtSync name array position =>
    fs.arrays[array]?.map fun data =>
      if data = [] ∧ (fs.files name).isSome then fs
      else fs.setFile name (putAt ((fs.files name).getD []) data position)

end PlainFS

def VirtualFS.plain (fs : VirtualFS Name) : PlainFS Name where
  files := fun name => (fs.files name).map fun node => fs.heap.contents node.content
  arrays := fs.arrays.map fs.heap.contents

end FileBuffers

end Tabnode

/-!
## Sharing is not seen

What a file has room for is its own: every other array on that buffer, and every other
file's content, ends within the file's content, and where the content is not lent there is
none (`Apart`). So bytes are written in place behind whatever others hold, or where nobody
holds any, and the filesystem shows the files and arrays of one in which each file owns
its bytes.
-/

namespace Tabnode

namespace FileBuffers

open ByteHeap

variable {Name : Type*}

def Other (fs : VirtualFS Name) (name : Name) (v : View) : Prop :=
  v ∈ fs.arrays ∨ ∃ name' node', name' ≠ name ∧ fs.files name' = some node' ∧ node'.content = v

/-- A file's room is a buffer in which it has its content, and of which others hold no more
than that, and nothing where the content is not lent. -/
structure Owns (fs : VirtualFS Name) (name : Name) (node : FSNode) (room : View) : Prop where
  fits : fs.heap.Fits room
  whole : room.byteOffset = 0 ∧ room.byteLength = (fs.heap.bytes room.buffer).length
  content_in : node.content.buffer = room.buffer ∧ node.content.byteOffset = 0
  behind : ∀ v, Other fs name v → v.buffer = room.buffer → v.stop ≤ node.content.stop
  unlent : node.lent = false → ∀ v, Other fs name v → v.buffer ≠ room.buffer

/-- Every array lies in its buffer, and what a file has room for is its own. -/
structure Apart (fs : VirtualFS Name) : Prop where
  arrays_fit : ∀ v ∈ fs.arrays, fs.heap.Fits v
  content_fits : ∀ name node, fs.files name = some node → fs.heap.Fits node.content
  owns : ∀ name node room, fs.files name = some node → node.room = some room →
    Owns fs name node room
  rooms_apart : ∀ name name' node node' room room', name' ≠ name → fs.files name = some node →
    fs.files name' = some node' → node.room = some room → node'.room = some room' →
    room'.buffer ≠ room.buffer

/-- The array may be held by someone besides the files that have room on its buffer. -/
structure Shareable (fs : VirtualFS Name) (v : View) : Prop where
  fits : fs.heap.Fits v
  within : ∀ name node room, fs.files name = some node → node.room = some room →
    v.buffer = room.buffer → v.stop ≤ node.content.stop ∧ node.lent = true

variable {fs : VirtualFS Name} {name : Name} {node : FSNode} {room v : View} {heap : Heap}
  {bytes : List UInt8} {length : ℕ} {lent : Bool}

theorem Apart.fits_of_other (h : Apart fs) (hv : Other fs name v) : fs.heap.Fits v := by
  rcases hv with hv | ⟨name', node', -, hnode', rfl⟩
  · exact h.arrays_fit v hv
  · exact h.content_fits name' node' hnode'

/-- Where an array is held that is not the file's content, the file is lent. -/
theorem Owns.within (h : Owns fs name node room) (hv : Other fs name v)
    (hbuffer : v.buffer = room.buffer) : v.stop ≤ node.content.stop ∧ node.lent = true := by
  refine ⟨h.behind v hv hbuffer, ?_⟩
  by_contra hlent
  exact h.unlent (by simpa using hlent) v hv hbuffer

theorem Apart.shareable_of_mem (h : Apart fs) (hv : v ∈ fs.arrays) : Shareable fs v where
  fits := h.arrays_fit v hv
  within := fun name node room hnode hroom =>
    (h.owns name node room hnode hroom).within (.inl hv)

theorem Shareable.subarray (h : Shareable fs v) (start stop : ℕ) :
    Shareable fs (v.subarray start stop) := by
  have hstop : (v.subarray start stop).stop ≤ v.stop := by
    simp only [View.stop, View.subarray]
    omega
  refine ⟨⟨h.fits.buffer_lt, Nat.le_trans hstop h.fits.stop_le⟩, ?_⟩
  intro name node room hnode hroom hbuffer
  exact (h.within name node room hnode hroom hbuffer).imp_left (Nat.le_trans hstop)

theorem apart_new : Apart (.new : VirtualFS Name) where
  arrays_fit := by
    intro v hv
    cases hv
  content_fits := by
    intro name node hnode
    cases hnode
  owns := by
    intro name node room hnode
    cases hnode
  rooms_apart := by
    intro name name' node node' room room' _ hnode
    cases hnode

theorem Apart.hold (h : Apart fs) (hv : Shareable fs v) :
    Apart { fs with arrays := fs.arrays ++ [v] } := by
  have hother : ∀ name w, Other { fs with arrays := fs.arrays ++ [v] } name w →
      Other fs name w ∨ w = v := by
    rintro name w (hw | hw)
    · rcases List.mem_append.1 hw with hw | hw
      · exact .inl (.inl hw)
      · exact .inr (List.mem_singleton.1 hw)
    · exact .inl (.inr hw)
  refine ⟨?_, h.content_fits, ?_, h.rooms_apart⟩
  · intro w hw
    rcases List.mem_append.1 hw with hw | hw
    · exact h.arrays_fit w hw
    · rw [List.mem_singleton.1 hw]
      exact hv.fits
  · intro name node room hnode hroom
    have howns := h.owns name node room hnode hroom
    refine ⟨howns.fits, howns.whole, howns.content_in, fun w hw hbuffer => ?_,
      fun hlent w hw hbuffer => ?_⟩
    · rcases hother name w hw with hw | rfl
      · exact howns.behind w hw hbuffer
      · exact (hv.within name node room hnode hroom hbuffer).1
    · rcases hother name w hw with hw | rfl
      · exact howns.unlent hlent w hw hbuffer
      · rw [(hv.within name node room hnode hroom hbuffer).2] at hlent
        cases hlent

variable [DecidableEq Name]

theorem files_setFile_cases {name' : Name} {node' : FSNode}
    (h : (fs.setFile name node).files name' = some node') :
    name' = name ∧ node' = node ∨ name' ≠ name ∧ fs.files name' = some node' := by
  rw [VirtualFS.setFile_files] at h
  split at h
  · rename_i hname
    cases h
    exact .inl ⟨hname, rfl⟩
  · rename_i hname
    exact .inr ⟨hname, h⟩

theorem Other.of_setFile {name' : Name} (h : Other (fs.setFile name node) name' v) :
    Other fs name' v ∨ name' ≠ name ∧ v = node.content := by
  rcases h with hv | ⟨name'', node'', hne, hnode'', rfl⟩
  · exact .inl (.inl hv)
  · rcases files_setFile_cases hnode'' with ⟨rfl, rfl⟩ | ⟨-, hnode⟩
    · exact .inr ⟨hne.symm, rfl⟩
    · exact .inl (.inr ⟨name'', node'', hne, hnode, rfl⟩)

/-- A file that had room keeps owning it when others get what may be shared. -/
theorem Owns.setFile (h : Owns fs name node room) {name' : Name} {node' : FSNode}
    (hwithin : name ≠ name' → node'.content.buffer = room.buffer →
      node'.content.stop ≤ node.content.stop ∧ node.lent = true) :
    Owns (fs.setFile name' node') name node room where
  __ := h
  behind := by
    intro w hw hbuffer
    rcases hw.of_setFile with hw | ⟨hne, rfl⟩
    · exact h.behind w hw hbuffer
    · exact (hwithin hne hbuffer).1
  unlent := by
    intro hlent w hw hbuffer
    rcases hw.of_setFile with hw | ⟨hne, rfl⟩
    · exact h.unlent hlent w hw hbuffer
    · rw [(hwithin hne hbuffer).2] at hlent
      cases hlent

theorem Apart.setContent (h : Apart fs) (hv : Shareable fs v) :
    Apart (fs.setFile name { content := v, lent := lent }) := by
  refine ⟨h.arrays_fit, ?_, ?_, ?_⟩
  · intro name' node' hnode'
    rcases files_setFile_cases hnode' with ⟨-, rfl⟩ | ⟨-, hold⟩
    · exact hv.fits
    · exact h.content_fits name' node' hold
  · intro name' node' room hnode' hroom
    rcases files_setFile_cases hnode' with ⟨-, rfl⟩ | ⟨-, hold⟩
    · cases hroom
    · exact (h.owns name' node' room hold hroom).setFile fun _ =>
        hv.within name' node' room hold hroom
  · intro name₁ name₂ node₁ node₂ room₁ room₂ hne hnode₁ hnode₂ hroom₁ hroom₂
    rcases files_setFile_cases hnode₁ with ⟨-, rfl⟩ | ⟨-, hold₁⟩
    · cases hroom₁
    · rcases files_setFile_cases hnode₂ with ⟨-, rfl⟩ | ⟨-, hold₂⟩
      · cases hroom₂
      · exact h.rooms_apart name₁ name₂ node₁ node₂ room₁ room₂ hne hold₁ hold₂ hroom₁ hroom₂

theorem Apart.lend (h : Apart fs) (hnode : fs.files name = some node) :
    Apart (fs.setFile name { node with lent := true }) := by
  refine ⟨h.arrays_fit, ?_, ?_, ?_⟩
  · intro name' node' hnode'
    rcases files_setFile_cases hnode' with ⟨-, rfl⟩ | ⟨-, hold⟩
    · exact h.content_fits name node hnode
    · exact h.content_fits name' node' hold
  · intro name' node' room hnode' hroom
    rcases files_setFile_cases hnode' with ⟨rfl, rfl⟩ | ⟨hne, hold⟩
    · have howns := h.owns name' node room hnode hroom
      refine ⟨howns.fits, howns.whole, howns.content_in, ?_, ?_⟩
      · intro w hw
        rcases hw.of_setFile with hw | ⟨hne, -⟩
        · exact howns.behind w hw
        · exact absurd rfl hne
      · intro hlent
        cases hlent
    · have howns := h.owns name' node' room hold hroom
      exact howns.setFile fun _ => howns.within (.inr ⟨name, node, hne.symm, hnode, rfl⟩)
  · intro name₁ name₂ node₁ node₂ room₁ room₂ hne hnode₁ hnode₂ hroom₁ hroom₂
    rcases files_setFile_cases hnode₁ with ⟨rfl, rfl⟩ | ⟨-, hold₁⟩ <;>
      rcases files_setFile_cases hnode₂ with ⟨rfl, rfl⟩ | ⟨-, hold₂⟩
    · exact absurd rfl hne
    · exact h.rooms_apart name₁ name₂ node node₂ room₁ room₂ hne hnode hold₂ hroom₁ hroom₂
    · exact h.rooms_apart name₁ name₂ node₁ node room₁ room₂ hne hold₁ hnode hroom₁ hroom₂
    · exact h.rooms_apart name₁ name₂ node₁ node₂ room₁ room₂ hne hold₁ hold₂ hroom₁ hroom₂

theorem Apart.shareable_content (h : Apart fs) (hnode : fs.files name = some node)
    (hlent : node.lent = true) : Shareable fs node.content where
  fits := h.content_fits name node hnode
  within := by
    intro name' node' room hnode' hroom hbuffer
    by_cases hname : name' = name
    · subst hname
      cases hnode.symm.trans hnode'
      exact ⟨Nat.le_refl _, hlent⟩
    · exact (h.owns name' node' room hnode' hroom).within
        (.inr ⟨name, node, Ne.symm hname, hnode, rfl⟩) hbuffer

/-! ### A file's bytes in a buffer of its own -/

/-- A heap in which every buffer there was has kept its length. -/
structure Grows (heap heap' : Heap) : Prop where
  length_le : heap.length ≤ heap'.length
  bytes_length : ∀ b < heap.length, (heap'.bytes b).length = (heap.bytes b).length

theorem Grows.fits {heap' : Heap} (h : Grows heap heap') (hv : heap.Fits v) : heap'.Fits v where
  buffer_lt := Nat.lt_of_lt_of_le hv.buffer_lt h.length_le
  stop_le := by
    rw [h.bytes_length v.buffer hv.buffer_lt]
    exact hv.stop_le

/-- A file gets its content in a buffer of which others hold at most what lies behind it. -/
theorem Apart.setRoom (h : Apart fs) (hnode : fs.files name = some node)
    (hgrows : Grows fs.heap heap) (hfits : heap.Fits room)
    (hwhole : room.byteOffset = 0 ∧ room.byteLength = (heap.bytes room.buffer).length)
    (hrooms : ∀ name' node' room', name' ≠ name → fs.files name' = some node' →
      node'.room = some room' → room'.buffer ≠ room.buffer)
    (hlength : length ≤ room.byteLength)
    (hbehind : ∀ w, Other fs name w → w.buffer = room.buffer → w.stop ≤ length)
    (hunlent : lent = false → ∀ w, Other fs name w → w.buffer ≠ room.buffer) :
    Apart ({ fs with heap := heap }.setFile name
      { content := room.subarray 0 length, room := some room, lent := lent }) := by
  have hcontent : (room.subarray 0 length).byteOffset = 0 ∧ (room.subarray 0 length).stop = length := by
    simp only [View.stop, View.subarray, hwhole.1]
    omega
  refine ⟨fun w hw => hgrows.fits (h.arrays_fit w hw), ?_, ?_, ?_⟩
  · intro name' node' hnode'
    rcases files_setFile_cases hnode' with ⟨-, rfl⟩ | ⟨-, hold⟩
    · refine ⟨hfits.buffer_lt, ?_⟩
      change (room.subarray 0 length).stop ≤ (heap.bytes room.buffer).length
      rw [hcontent.2, ← hwhole.2]
      exact hlength
    · exact hgrows.fits (h.content_fits name' node' hold)
  · intro name' node' room' hnode' hroom'
    rcases files_setFile_cases hnode' with ⟨rfl, rfl⟩ | ⟨hne, hold⟩
    · cases hroom'
      refine ⟨hfits, hwhole, ⟨rfl, hcontent.1⟩, ?_, ?_⟩
      · intro w hw
        rw [hcontent.2]
        rcases hw.of_setFile with hw | ⟨hne, -⟩
        · exact hbehind w hw
        · exact absurd rfl hne
      · intro hlent w hw
        rcases hw.of_setFile with hw | ⟨hne, -⟩
        · exact hunlent hlent w hw
        · exact absurd rfl hne
    · have howns := h.owns name' node' room' hold hroom'
      have hkept : Owns { fs with heap := heap } name' node' room' :=
        ⟨hgrows.fits howns.fits,
          by rw [hgrows.bytes_length room'.buffer howns.fits.buffer_lt]; exact howns.whole,
          howns.content_in, howns.behind, howns.unlent⟩
      refine hkept.setFile fun _ hbuffer => ?_
      exact absurd hbuffer.symm (hrooms name' node' room' hne hold hroom')
  · intro name₁ name₂ node₁ node₂ room₁ room₂ hne hnode₁ hnode₂ hroom₁ hroom₂
    rcases files_setFile_cases hnode₁ with ⟨rfl, rfl⟩ | ⟨hne₁, hold₁⟩ <;>
      rcases files_setFile_cases hnode₂ with ⟨rfl, rfl⟩ | ⟨hne₂, hold₂⟩
    · exact absurd rfl hne
    · cases hroom₁
      exact hrooms name₂ node₂ room₂ hne hold₂ hroom₂
    · cases hroom₂
      exact (hrooms name₁ node₁ room₁ hne.symm hold₁ hroom₁).symm
    · exact h.rooms_apart name₁ name₂ node₁ node₂ room₁ room₂ hne hold₁ hold₂ hroom₁ hroom₂

end FileBuffers

end Tabnode
