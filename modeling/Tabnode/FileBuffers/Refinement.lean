import Tabnode.Data.Machine
import Tabnode.FileBuffers.Rooms

/-!
# The filesystem shows plain files

Each call changes the plain files and arrays that are shown as the same call changes plain
files that own their bytes, and keeps what is shared apart. So whatever calls are made, in
any order, on any files, every file shows its own bytes and every array that was handed out
keeps the bytes it had.
-/

namespace Tabnode

namespace FileBuffers

open ByteHeap VirtualFS List Option

variable {Name : Type*} [DecidableEq Name] {fs : VirtualFS Name} {name : Name} {node : FSNode}
  {room v data : View} {heap : Heap} {bytes : List UInt8} {length position : ℕ}

/-- What is shared is apart, and the filesystem shows these plain files and arrays. -/
structure Shows (fs : VirtualFS Name) (plain : PlainFS Name) : Prop where
  apart : Apart fs
  plain_eq : fs.plain = plain

/-! ## What is shown -/

theorem plain_setFile (hsame : ∀ w, Other fs name w → heap.contents w = fs.heap.contents w) :
    ({ fs with heap := heap }.setFile name node).plain =
      fs.plain.setFile name (heap.contents node.content) := by
  have hfiles : ∀ name', ({ fs with heap := heap }.setFile name node).plain.files name' =
      (fs.plain.setFile name (heap.contents node.content)).files name' := by
    intro name'
    rw [plain, PlainFS.setFile_files]
    simp only [setFile_files]
    split
    · rfl
    · rename_i hname
      cases hnode : fs.files name' with
      | none => simp [plain, hnode]
      | some node' =>
        simp [plain, hnode, setFile,
          hsame _ (.inr ⟨name', node', hname, hnode, rfl⟩)]
  have harrays : fs.arrays.map heap.contents = fs.arrays.map fs.heap.contents :=
    map_congr_left fun w hw => hsame w (.inl hw)
  unfold plain PlainFS.setFile setFile at hfiles ⊢
  simp only [harrays, PlainFS.mk.injEq, and_true]
  exact funext hfiles

theorem plain_lend (hnode : fs.files name = some node) :
    (fs.setFile name { node with lent := true }).plain = fs.plain := by
  have hfiles : ∀ name', (fs.setFile name { node with lent := true }).plain.files name' =
      fs.plain.files name' := by
    intro name'
    simp only [plain, setFile_files]
    split
    · rename_i hname
      rw [hname, hnode]
      rfl
    · rfl
  unfold plain at hfiles ⊢
  simp only [PlainFS.mk.injEq]
  exact ⟨funext hfiles, rfl⟩

/-! ## Writes of whole files -/

theorem Apart.writeFileSyncInternal (h : Apart fs) (hv : Shareable fs v) :
    Apart (fs.writeFileSyncInternal name v) := by
  unfold VirtualFS.writeFileSyncInternal
  split <;> exact h.setContent hv

theorem plain_writeFileSyncInternal :
    (fs.writeFileSyncInternal name v).plain = fs.plain.setFile name (fs.heap.contents v) := by
  unfold writeFileSyncInternal
  split <;> exact plain_setFile fun _ _ => rfl

theorem Apart.writeNew (h : Apart fs) (bytes : List UInt8) : Apart (fs.writeNew name bytes) :=
  (h.allocate bytes).writeFileSyncInternal (h.shareable_next bytes)

theorem plain_writeNew (h : Apart fs) (bytes : List UInt8) :
    (fs.writeNew name bytes).plain = fs.plain.setFile name bytes := by
  rw [writeNew, plain_writeFileSyncInternal, plain_allocate h, contents_next]

/-! ## Writes in place -/

/-- A write where everything is ready shows the bytes put at the position. -/
theorem Ready.writeInto (hr : Ready fs name node heap room position length) (h : Apart fs)
    (hnode : fs.files name = some node) (hdata : data ∈ fs.arrays)
    (hlength : length = max node.content.byteLength (position + data.byteLength))
    {node' : FSNode}
    (hunlent : node'.lent = false → ∀ w, Other fs name w → w.buffer ≠ room.buffer) :
    Shows (fs.writeInto name data heap node' room position length) (fs.plain.setFile name
      (PlainFS.putAt (fs.heap.contents node.content) (fs.heap.contents data) position)) := by
  have hfits : heap.Fits data := hr.grows.fits (h.arrays_fit data hdata)
  have hsize : (heap.contents data).length = data.byteLength := length_contents hfits
  have hend : room.byteOffset + position + (heap.contents data).length ≤
      (heap.bytes room.buffer).length := by
    have hle := hr.length_le
    rw [hr.whole.1, hsize, ← hr.whole.2]
    omega
  have hgrows := hr.grows.write hr.fits hend
  have hbytes : ((heap.write room position (heap.contents data)).bytes room.buffer) =
      overwrite (heap.bytes room.buffer) position (heap.contents data) := by
    rw [Heap.bytes_write_self hr.fits.buffer_lt, hr.whole.1, Nat.zero_add]
  have hbytesLength : ((heap.write room position (heap.contents data)).bytes room.buffer).length =
      (heap.bytes room.buffer).length := by
    rw [hbytes, length_overwrite (by rw [hr.whole.1, Nat.zero_add] at hend; exact hend)]
  have hsame : ∀ w, Other fs name w →
      (heap.write room position (heap.contents data)).contents w = fs.heap.contents w := by
    intro w hw
    rw [← hr.same w hw]
    by_cases hbuffer : w.buffer = room.buffer
    · apply Heap.contents_write_of_stop_le hr.fits
      · have hle := hr.length_le
        omega
      · rw [hr.whole.1, Nat.zero_add]
        exact hr.behind w hw hbuffer
    · exact Heap.contents_write_of_ne hbuffer
  refine ⟨?_, ?_⟩
  · refine h.setRoom hnode hgrows ⟨by rw [Heap.length_write]; exact hr.fits.buffer_lt, ?_⟩ ?_
      hr.rooms hr.length_le ?_ hunlent
    · rw [hbytesLength]
      exact hr.fits.stop_le
    · rw [hbytesLength]
      exact hr.whole
    · intro w hw hbuffer
      have hbehind := hr.behind w hw hbuffer
      omega
  · have hcontents : (heap.write room position (heap.contents data)).contents
        (room.subarray 0 length) = PlainFS.putAt (fs.heap.contents node.content)
          (fs.heap.contents data) position := by
      have hwhole := hr.whole
      have hle := hr.length_le
      have hview : room.subarray 0 length = ⟨room.buffer, 0, length⟩ := by
        simp only [View.subarray, hwhole.1, View.mk.injEq, true_and]
        omega
      have hlast : max (max node.content.byteLength position)
          (position + (heap.contents data).length) = length := by
        rw [hsize, hlength]
        omega
      rw [hview, Heap.contents, hbytes, drop_zero, PlainFS.putAt,
        length_contents (h.content_fits name node hnode), ← hr.base,
        ← hr.same data (.inl hdata), overwrite_take (Nat.le_max_right ..) ?_, hlast]
      rw [← hwhole.2]
      omega
    rw [VirtualFS.writeInto, plain_setFile hsame, hcontents]

/-! ## The calls -/

omit [DecidableEq Name] in
theorem plain_files (hnode : fs.files name = some node) :
    fs.plain.files name = some (fs.heap.contents node.content) := by
  simp [plain, hnode]

omit [DecidableEq Name] in
theorem plain_files_none (hnode : fs.files name = none) : fs.plain.files name = none := by
  simp [plain, hnode]

theorem Apart.appendFileSync (h : Apart fs) (hdata : data ∈ fs.arrays) :
    Shows (fs.appendFileSync name data) (fs.plain.setFile name
      ((fs.plain.files name).getD [] ++ fs.heap.contents data)) := by
  unfold VirtualFS.appendFileSync
  cases hnode : fs.files name with
  | none =>
    rw [plain_files_none hnode]
    exact ⟨h.writeNew _, plain_writeNew h _⟩
  | some node =>
    have hput : PlainFS.putAt (fs.heap.contents node.content) (fs.heap.contents data)
        node.content.byteLength = fs.heap.contents node.content ++ fs.heap.contents data := by
      rw [← length_contents (h.content_fits name node hnode), PlainFS.putAt, Nat.sub_self,
        replicate_zero, append_nil, overwrite_length]
    have hlength : node.content.byteLength + data.byteLength =
        max node.content.byteLength (node.content.byteLength + data.byteLength) := by omega
    rw [plain_files hnode, getD_some, ← hput]
    cases hown : VirtualFS.ownRoom node (node.content.byteLength + data.byteLength) with
    | some room =>
      obtain ⟨hroom, hle⟩ := ownRoom_eq_some hown
      have howns := h.owns name node room hnode hroom
      simp only [hown]
      exact (h.ready_append hnode hroom hle).writeInto h hnode hdata hlength howns.unlent
    | none =>
      have hle : max node.content.byteLength node.content.byteLength ≤
          node.content.byteLength + data.byteLength := by omega
      simp only [hown]
      exact (h.ready_withRoom hnode hle).writeInto h hnode hdata hlength
        fun _ w hw => Nat.ne_of_lt (h.fits_of_other hw).buffer_lt

theorem putAt_nil_left (data : List UInt8) (position : ℕ) :
    PlainFS.putAt [] data position =
      overwrite (List.replicate (position + data.length) 0) position data := by
  have hfront : min position (position + data.length) = position := by omega
  have hback : position - (position + data.length) = 0 := by omega
  rw [PlainFS.putAt, overwrite, overwrite, nil_append, length_nil, Nat.sub_zero,
    take_replicate, take_replicate, drop_replicate, drop_replicate,
    Nat.min_self, hfront, hback, Nat.sub_self]

theorem Apart.writeAtSync (h : Apart fs) (hdata : data ∈ fs.arrays) :
    Shows (fs.writeAtSync name data position)
      (if fs.heap.contents data = [] ∧ (fs.plain.files name).isSome then fs.plain
      else fs.plain.setFile name (PlainFS.putAt ((fs.plain.files name).getD [])
        (fs.heap.contents data) position)) := by
  have hsize := length_contents (h.arrays_fit data hdata)
  have hempty : fs.heap.contents data = [] ↔ data.byteLength = 0 := by
    rw [← hsize, length_eq_zero_iff]
  unfold VirtualFS.writeAtSync
  cases hnode : fs.files name with
  | none =>
    rw [plain_files_none hnode, if_neg (by simp), getD_none, putAt_nil_left, hsize]
    exact ⟨h.writeNew _, plain_writeNew h _⟩
  | some node =>
    rw [plain_files hnode]
    by_cases hzero : data.byteLength = 0
    · rw [if_pos ⟨hempty.2 hzero, rfl⟩]
      simp only [hzero, if_true]
      exact ⟨h, rfl⟩
    · rw [if_neg fun hboth => hzero (hempty.1 hboth.1), getD_some]
      simp only [hzero, if_false]
      cases hown : if node.lent = true then none else
          VirtualFS.ownRoom node (max node.content.byteLength (position + data.byteLength)) with
      | some room =>
        split at hown
        · cases hown
        · rename_i hlent
          obtain ⟨hroom, hle⟩ := ownRoom_eq_some hown
          have hunlent : node.lent = false := by simpa using hlent
          have hposition : position ≤ max node.content.byteLength (position + data.byteLength) := by
            omega
          exact (h.ready_fillGap hnode hunlent hroom hle hposition).writeInto h hnode hdata rfl
            (h.owns name node room hnode hroom).unlent
      | none =>
        have hle : max node.content.byteLength position ≤
            max node.content.byteLength (position + data.byteLength) := by omega
        exact (h.ready_withRoom hnode hle).writeInto h hnode hdata rfl
          fun _ w hw => Nat.ne_of_lt (h.fits_of_other hw).buffer_lt

theorem Apart.readFileSync {fs' : VirtualFS Name} (h : Apart fs)
    (hread : fs.readFileSync name = some (v, fs')) :
    Shows fs' fs.plain ∧ Shareable fs' v ∧ fs'.heap = fs.heap ∧
      fs.plain.files name = some (fs.heap.contents v) := by
  unfold VirtualFS.readFileSync at hread
  cases hnode : fs.files name with
  | none => simp [hnode] at hread
  | some node =>
    simp only [hnode, Option.some.injEq, Prod.mk.injEq] at hread
    obtain ⟨rfl, rfl⟩ := hread
    have hlent := h.lend hnode
    have hfile : (fs.setFile name { node with lent := true }).files name =
        some { node with lent := true } := by
      rw [VirtualFS.setFile_files, if_pos rfl]
    have hshare := hlent.shareable_content hfile rfl
    exact ⟨⟨hlent, plain_lend hnode⟩, hshare, rfl, plain_files hnode⟩

theorem readFileSync_eq_none (hread : fs.readFileSync name = none) :
    fs.plain.files name = none := by
  unfold readFileSync at hread
  cases hnode : fs.files name with
  | none => exact plain_files_none hnode
  | some node => simp [hnode] at hread

theorem Apart.copyFileSync {src dest : Name} (h : Apart fs) :
    Shows (fs.copyFileSync src dest) (match fs.plain.files src with
      | some bytes => fs.plain.setFile dest bytes
      | none => fs.plain) := by
  unfold VirtualFS.copyFileSync
  cases hread : fs.readFileSync src with
  | none =>
    rw [readFileSync_eq_none hread]
    exact ⟨h, rfl⟩
  | some result =>
    obtain ⟨v, fs'⟩ := result
    obtain ⟨⟨hapart, hplain⟩, hv, hheap, hfile⟩ := h.readFileSync hread
    rw [hfile]
    refine ⟨hapart.writeFileSyncInternal hv, ?_⟩
    rw [plain_writeFileSyncInternal, hplain, hheap]

omit [DecidableEq Name] in
theorem plain_hold (v : View) : ({ fs with arrays := fs.arrays ++ [v] } : VirtualFS Name).plain =
    { fs.plain with arrays := fs.plain.arrays ++ [fs.heap.contents v] } := by
  simp [plain]

theorem contents_subarray (heap : Heap) (v : View) (start stop : ℕ) :
    heap.contents (v.subarray start stop) = ((heap.contents v).take stop).drop start := by
  simp only [Heap.contents, View.subarray]
  rw [← drop_drop, take_take, drop_take]
  rcases Nat.le_total start v.byteLength with hstart | hstart
  · rw [Nat.min_eq_left hstart]
  · have hle : min stop v.byteLength ≤ start := Nat.le_trans (Nat.min_le_right ..) hstart
    rw [Nat.min_eq_right hstart, Nat.sub_eq_zero_of_le (Nat.min_le_right ..),
      Nat.sub_eq_zero_of_le hle, take_zero, take_zero]

omit [DecidableEq Name] in
theorem plain_arrays_getElem? (k : ℕ) :
    fs.plain.arrays[k]? = fs.arrays[k]?.map fs.heap.contents :=
  getElem?_map

omit [DecidableEq Name] in
theorem Shows.hold {plain : PlainFS Name} (h : Shows fs plain) (hv : Shareable fs v) :
    Shows { fs with arrays := fs.arrays ++ [v] }
      { plain with arrays := plain.arrays ++ [fs.heap.contents v] } :=
  ⟨h.apart.hold hv, by rw [plain_hold, h.plain_eq]⟩

/-- A call keeps what is shared apart, and shows what the call does to plain files. -/
theorem Apart.call (h : Apart fs) (c : Call Name) :
    (∀ fs', fs.call c = some fs' → Apart fs') ∧
      (fs.call c).map VirtualFS.plain = fs.plain.call c := by
  have hshown : ∀ {k : ℕ} {f : View → VirtualFS Name} {g : List UInt8 → PlainFS Name},
      (∀ v ∈ fs.arrays, Shows (f v) (g (fs.heap.contents v))) →
      (∀ fs', fs.arrays[k]?.map f = some fs' → Apart fs') ∧
        (fs.arrays[k]?.map f).map VirtualFS.plain = fs.plain.arrays[k]?.map g := by
    intro k f g hfg
    rw [plain_arrays_getElem?]
    cases hk : fs.arrays[k]? with
    | none =>
      refine ⟨?_, rfl⟩
      rintro fs' ⟨⟩
    | some v =>
      have hv := hfg v (mem_of_getElem? hk)
      refine ⟨?_, congrArg some hv.plain_eq⟩
      rintro fs' ⟨⟩
      exact hv.apart
  have hone : ∀ {fs' : VirtualFS Name} {plain : PlainFS Name}, Shows fs' plain →
      (∀ fs'', some fs' = some fs'' → Apart fs'') ∧
        (some fs').map VirtualFS.plain = some plain := by
    intro fs' plain hfs'
    refine ⟨?_, congrArg some hfs'.plain_eq⟩
    rintro fs'' ⟨⟩
    exact hfs'.apart
  cases c with
  | array bytes =>
    have hnew : Shows { fs with heap := fs.heap.allocate bytes } fs.plain :=
      ⟨h.allocate bytes, plain_allocate h bytes⟩
    have hheld := hnew.hold (h.shareable_next bytes)
    rw [contents_next] at hheld
    exact hone hheld
  | subarray array start stop =>
    refine hshown fun v hv => ?_
    have hheld := (Shows.mk h rfl).hold ((h.shareable_of_mem hv).subarray start stop)
    rw [contents_subarray] at hheld
    exact hheld
  | readFileSync name =>
    simp only [VirtualFS.call, PlainFS.call]
    cases hread : fs.readFileSync name with
    | none =>
      rw [readFileSync_eq_none hread]
      exact hone ⟨h, rfl⟩
    | some result =>
      obtain ⟨v, fs'⟩ := result
      obtain ⟨hfs', hv, hheap, hfile⟩ := h.readFileSync hread
      have hheld := hfs'.hold hv
      have hcontents : fs'.heap.contents v = fs.heap.contents v := by rw [hheap]
      rw [hcontents] at hheld
      rw [hfile]
      exact hone hheld
  | writeFileSync name array =>
    exact hshown fun v hv => ⟨h.writeFileSyncInternal (h.shareable_of_mem hv),
      plain_writeFileSyncInternal⟩
  | copyFileSync src dest =>
    have hcopied : Shows (fs.copyFileSync src dest) _ := h.copyFileSync
    simp only [VirtualFS.call, PlainFS.call]
    cases hsrc : fs.plain.files src with
    | none | some _ =>
      rw [hsrc] at hcopied
      exact hone hcopied
  | appendFileSync name array => exact hshown fun v hv => h.appendFileSync hv
  | writeAtSync name array position => exact hshown fun v hv => h.writeAtSync hv

/-! ## Arrays stay with the caller -/

theorem getElem?_of_append {α : Type*} {l l' : List α} {k : ℕ} {x : α} (h : l <+: l')
    (hk : l[k]? = some x) : l'[k]? = some x := by
  obtain ⟨more, rfl⟩ := h
  rw [List.getElem?_append_left (List.getElem?_eq_some_iff.1 hk).1]
  exact hk

theorem PlainFS.arrays_of_call {fs fs' : PlainFS Name} {c : Call Name}
    (h : fs.call c = some fs') : fs.arrays <+: fs'.arrays := by
  cases c with
  | array bytes =>
    cases h
    exact prefix_append ..
  | subarray array start stop =>
    obtain ⟨v, -, rfl⟩ := map_eq_some_iff.1 h
    exact prefix_append ..
  | readFileSync name =>
    simp only [PlainFS.call] at h
    split at h <;> cases h
    · exact prefix_append ..
    · exact prefix_rfl
  | writeFileSync name array =>
    obtain ⟨v, -, rfl⟩ := map_eq_some_iff.1 h
    exact prefix_rfl
  | copyFileSync src dest =>
    simp only [PlainFS.call] at h
    split at h <;> cases h <;> exact prefix_rfl
  | appendFileSync name array =>
    obtain ⟨v, -, rfl⟩ := map_eq_some_iff.1 h
    exact prefix_rfl
  | writeAtSync name array position =>
    obtain ⟨v, -, rfl⟩ := map_eq_some_iff.1 h
    split <;> exact prefix_rfl

theorem arrays_writeFileSyncInternal :
    (fs.writeFileSyncInternal name v).arrays = fs.arrays := by
  unfold writeFileSyncInternal
  split <;> rfl

theorem arrays_writeNew (bytes : List UInt8) : (fs.writeNew name bytes).arrays = fs.arrays :=
  arrays_writeFileSyncInternal

theorem arrays_appendFileSync : (fs.appendFileSync name data).arrays = fs.arrays := by
  unfold appendFileSync
  split
  · exact arrays_writeNew _
  · dsimp only
    split <;> rfl

theorem arrays_writeAtSync : (fs.writeAtSync name data position).arrays = fs.arrays := by
  unfold writeAtSync
  split
  · exact arrays_writeNew _
  · split
    · rfl
    · dsimp only
      split <;> rfl

theorem arrays_of_readFileSync {fs' : VirtualFS Name}
    (h : fs.readFileSync name = some (v, fs')) : fs'.arrays = fs.arrays := by
  unfold readFileSync at h
  split at h <;> cases h
  rfl

theorem arrays_copyFileSync {src dest : Name} :
    (fs.copyFileSync src dest).arrays = fs.arrays := by
  unfold copyFileSync
  split
  · rename_i hread
    exact arrays_writeFileSyncInternal.trans (arrays_of_readFileSync hread)
  · rfl

theorem VirtualFS.arrays_of_call {fs' : VirtualFS Name} {c : Call Name}
    (h : fs.call c = some fs') : fs.arrays <+: fs'.arrays := by
  cases c with
  | array bytes =>
    cases h
    exact prefix_append ..
  | subarray array start stop =>
    obtain ⟨v, -, rfl⟩ := map_eq_some_iff.1 h
    exact prefix_append ..
  | readFileSync name =>
    simp only [call] at h
    split at h <;> cases h
    · rename_i hread
      exact (arrays_of_readFileSync hread) ▸ prefix_append ..
    · exact prefix_rfl
  | writeFileSync name array =>
    obtain ⟨v, -, rfl⟩ := map_eq_some_iff.1 h
    exact ⟨[], by rw [append_nil, arrays_writeFileSyncInternal]⟩
  | copyFileSync src dest =>
    cases h
    exact ⟨[], by rw [append_nil, arrays_copyFileSync]⟩
  | appendFileSync name array =>
    obtain ⟨v, -, rfl⟩ := map_eq_some_iff.1 h
    exact ⟨[], by rw [append_nil, arrays_appendFileSync]⟩
  | writeAtSync name array position =>
    obtain ⟨v, -, rfl⟩ := map_eq_some_iff.1 h
    exact ⟨[], by rw [append_nil, arrays_writeAtSync]⟩

theorem apart_of_run {calls : List (Call Name)}
    (h : Machine.run call .new calls = some fs) : Apart fs :=
  Machine.invariant (fun _ c fs' h hcall => (Apart.call h c).1 fs' hcall) apart_new h

theorem Apart.plain_run (h : Apart fs) (calls : List (Call Name)) :
    (Machine.run VirtualFS.call fs calls).map VirtualFS.plain =
      Machine.run PlainFS.call fs.plain calls :=
  Machine.map_run (fun _ c fs' h hcall => (Apart.call h c).1 fs' hcall)
    (fun _ c h => (Apart.call h c).2) h calls

/-- The array an array's name stands for, and its bytes, stay what they are. -/
theorem Apart.contents_of_run {fs' : VirtualFS Name} {calls : List (Call Name)} (h : Apart fs)
    (hrun : Machine.run VirtualFS.call fs calls = some fs') {k : ℕ}
    (hk : fs.arrays[k]? = some v) :
    fs'.arrays[k]? = some v ∧ fs'.heap.contents v = fs.heap.contents v := by
  have harrays : fs.arrays <+: fs'.arrays :=
    Machine.invariant (I := fun fs' => fs.arrays <+: fs'.arrays)
      (fun _ _ _ hfs hcall => hfs.trans (VirtualFS.arrays_of_call hcall)) prefix_rfl hrun
  have hplain := h.plain_run calls
  rw [hrun, map_some] at hplain
  have hbytes : fs.plain.arrays <+: fs'.plain.arrays :=
    Machine.invariant (I := fun p => fs.plain.arrays <+: p.arrays)
      (fun _ _ _ hp hcall => hp.trans (PlainFS.arrays_of_call hcall)) prefix_rfl hplain.symm
  have hk' : fs'.arrays[k]? = some v := getElem?_of_append harrays hk
  refine ⟨hk', ?_⟩
  have hold : fs.plain.arrays[k]? = some (fs.heap.contents v) := by
    rw [plain_arrays_getElem?, hk, map_some]
  have hnew : fs'.plain.arrays[k]? = some (fs'.heap.contents v) := by
    rw [plain_arrays_getElem?, hk', map_some]
  exact Option.some.inj (hnew.symm.trans (getElem?_of_append hbytes hold))

end FileBuffers

end Tabnode
