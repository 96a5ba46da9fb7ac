import Tabnode.Wasi.Memory

/-!
# Reading a directory page by page

A guest lists a directory with `fd_readdir`, buffer after buffer. A header or a name may be cut
where a buffer ends; the guest reads the entries that came whole, goes on behind the last of them,
and is done when a call leaves part of its buffer. Of a directory that does not change it reads
every entry once, in order, however large its buffers are, provided each holds any one entry.
-/

namespace Tabnode

namespace Wasi

open Effect ByteNumber List

variable {η : Type}

/-! ## The guest's side -/

/-- An entry of a directory as the guest sees it: where the next one is, the bytes of its name,
and the number of its type. -/
structure Seen where
  next : ℕ
  name : List UInt8
  type : ℕ
  deriving DecidableEq

def firstEntry (bytes : List UInt8) : Option (Seen × ℕ) :=
  let length := ofLittle (bytesIn bytes 16 4)
  if SIZE.dirent + length ≤ bytes.length then
    some (⟨ofLittle (bytesIn bytes 0 8), bytesIn bytes SIZE.dirent length,
      ofLittle (bytesIn bytes 20 1)⟩, SIZE.dirent + length)
  else none

def entriesUpTo : ℕ → List UInt8 → List Seen
  | 0, _ => []
  | most + 1, bytes =>
    match firstEntry bytes with
    | some (entry, size) => entry :: entriesUpTo most (bytes.drop size)
    | none => []

def wholeEntries (bytes : List UInt8) : List Seen := entriesUpTo bytes.length bytes

/-- Where the guest has an entry put, and the bytes used. -/
structure DirBuffer where
  ptr : UInt32
  len : UInt32
  usedPtr : UInt32

/-- What a call brought: the length of its buffer, how much of it is used, and the entries in it. -/
structure Page where
  length : ℕ
  used : ℕ
  entries : List Seen

def DirBuffer.page (buffer : DirBuffer) (w : World η) : Page :=
  let used := ofLittle (bytesIn w.memory buffer.usedPtr.toNat 4)
  ⟨buffer.len.toNat, used, wholeEntries (bytesIn w.memory buffer.ptr.toNat used)⟩

def resumeAt (cookie : UInt64) (page : Page) : UInt64 :=
  match page.entries.getLast? with
  | some entry => UInt64.ofNat entry.next
  | none => cookie

/-- The calls of a guest until one leaves part of its buffer, of so many at most. Before each call
the guest does what it likes, and chooses the buffer. -/
def listFrom (host : Host η) (fd : UInt32) (guest : ℕ → World η → DirBuffer × World η) :
    ℕ → ℕ → UInt64 → World η → Option (List Page)
  | 0, _, _, _ => none
  | most + 1, turn, cookie, w =>
    let (buffer, w) := guest turn w
    match perform host w (.fd_readdir fd buffer.ptr buffer.len cookie buffer.usedPtr) with
    | (.errno .ESUCCESS, w) =>
      let page := buffer.page w
      if page.used < page.length then some [page]
      else (page :: ·) <$> listFrom host fd guest most (turn + 1) (resumeAt cookie page) w
    | _ => none

/-! ## The directory -/

def listing : ℕ → List HostDirent → List Seen
  | _, [] => []
  | index, entry :: entries =>
    ⟨index + 1, encodeText entry.name, (direntType entry).number⟩ :: listing (index + 1) entries

/-- A directory that does not change while the host is in good states, which asking for its
entries and their stats keeps it in. Its entries are an array of JavaScript's. -/
structure Unchanging (host : Host η) (path : Str) (entries : List HostDirent) (good : η → Prop) :
    Prop where
  length_lt : entries.length < 2 ^ 32
  readdir : ∀ s, good s → (host.answer s (.readdirSync path)).1 = .ok entries
  readdir_good : ∀ s, good s → good (host.answer s (.readdirSync path)).2
  lstat_good : ∀ s name, good s → good (host.answer s (.lstatSync name)).2

/-- The descriptor is of the directory, and may be used to list it. -/
structure Listable (fd : UInt32) (path : Str) (good : η → Prop) (w : World η) : Prop where
  descriptor : ∃ d, w.lookup fd.toNat RIGHT.FD_READDIR = .ok d ∧ d.kind = .dir ∧ d.hostPath = path
  good : good w.host

/-- A buffer of the guest that holds any one entry, in its memory and apart from where the bytes
used are put. -/
structure DirBuffer.Holds (buffer : DirBuffer) (entries : List HostDirent) (w : World η) :
    Prop where
  fits : w.fits buffer.ptr.toNat buffer.len.toNat = true
  usedFits : w.fits buffer.usedPtr.toNat 4 = true
  apart : buffer.ptr.toNat + buffer.len.toNat ≤ buffer.usedPtr.toNat ∨
    buffer.usedPtr.toNat + 4 ≤ buffer.ptr.toNat
  header : SIZE.dirent ≤ buffer.len.toNat
  longest : ∀ entry ∈ entries, SIZE.dirent + (encodeText entry.name).length ≤ buffer.len.toNat

/-! ## Entries in bytes -/

variable {bytes : List UInt8} {size : ℕ}

theorem size_of_firstEntry {entry : Seen}
    (h : firstEntry bytes = some (entry, size)) : SIZE.dirent ≤ size ∧ size ≤ bytes.length := by
  unfold firstEntry at h
  dsimp only at h
  split_ifs at h with hsize
  cases h
  exact ⟨Nat.le_add_right _ _, hsize⟩

theorem entriesUpTo_congr {most more : ℕ} (hmost : bytes.length ≤ most)
    (hmore : bytes.length ≤ more) : entriesUpTo most bytes = entriesUpTo more bytes := by
  induction most generalizing more bytes with
  | zero =>
    rw [length_eq_zero_iff.1 (Nat.le_zero.1 hmost)]
    cases more <;> rfl
  | succ most ih =>
    cases more with
    | zero =>
      rw [length_eq_zero_iff.1 (Nat.le_zero.1 hmore)]
      rfl
    | succ more =>
      rw [entriesUpTo, entriesUpTo]
      rcases hfirst : firstEntry bytes with _ | ⟨entry, size⟩
      · rfl
      · have hsize := size_of_firstEntry hfirst
        have hshort : (bytes.drop size).length + SIZE.dirent ≤ bytes.length := by
          rw [length_drop]
          omega
        unfold SIZE.dirent at hshort
        exact congrArg (entry :: ·) (ih (by omega) (by omega))

theorem wholeEntries_of_none (h : firstEntry bytes = none) : wholeEntries bytes = [] := by
  rw [wholeEntries]
  rcases bytes.length with _ | most
  · rfl
  · rw [entriesUpTo, h]

theorem wholeEntries_of_short (h : bytes.length < SIZE.dirent) : wholeEntries bytes = [] :=
  wholeEntries_of_none (by rw [firstEntry, if_neg (by omega)])

theorem wholeEntries_of_some {entry : Seen} (h : firstEntry bytes = some (entry, size)) :
    wholeEntries bytes = entry :: wholeEntries (bytes.drop size) := by
  have hsize := size_of_firstEntry h
  unfold SIZE.dirent at hsize
  have hone : entriesUpTo bytes.length bytes = entriesUpTo (bytes.length + 1) bytes :=
    entriesUpTo_congr le_rfl (Nat.le_succ _)
  rw [wholeEntries, hone, entriesUpTo, h]
  exact congrArg (entry :: ·) (entriesUpTo_congr (by simp) le_rfl)

theorem wholeEntries_bytesIn {memory : List UInt8} {offset length : ℕ}
    (hfits : offset + size ≤ memory.length) (hheader : SIZE.dirent ≤ size)
    (hlength : ofLittle (bytesIn memory (offset + 16) 4) = length) :
    wholeEntries (bytesIn memory offset size) =
      if SIZE.dirent + length ≤ size then
        ⟨ofLittle (bytesIn memory offset 8),
          bytesIn memory (offset + SIZE.dirent) length,
          ofLittle (bytesIn memory (offset + 20) 1)⟩ ::
          wholeEntries (bytesIn memory (offset + (SIZE.dirent + length))
            (size - (SIZE.dirent + length)))
      else [] := by
  unfold SIZE.dirent at *
  have hfield : ofLittle (bytesIn (bytesIn memory offset size) 16 4) = length := by
    rw [bytesIn_bytesIn (by omega), hlength]
  split_ifs with hwhole
  · have hfirst : firstEntry (bytesIn memory offset size) =
        some (⟨ofLittle (bytesIn memory offset 8), bytesIn memory (offset + 24) length,
          ofLittle (bytesIn memory (offset + 20) 1)⟩, 24 + length) := by
      unfold firstEntry SIZE.dirent
      dsimp only
      rw [hfield, length_bytesIn hfits, if_pos hwhole, bytesIn_bytesIn (by omega),
        bytesIn_bytesIn (by omega), bytesIn_bytesIn (by omega), Nat.add_zero]
    rw [wholeEntries_of_some hfirst, drop_bytesIn]
  · refine wholeEntries_of_none ?_
    unfold firstEntry SIZE.dirent
    dsimp only
    rw [hfield, length_bytesIn hfits, if_neg hwhole]

/-! ## A call -/

variable {host : Host η} {path : Str} {entries : List HostDirent} {good : η → Prop} {w : World η}

theorem run_attempt_ask (host : Host η) (call : HostCall) (w : World η) :
    (attempt (ask host call)).run w = (.ok (host.answer w.host call).1.toOption, { w with
      host := (host.answer w.host call).2, history := w.history ++ [.call w.host call] }) := by
  have hmap : (some <$> ask host call).run w =
      (((host.answer w.host call).1.mapError .thrown).map some, { w with
        host := (host.answer w.host call).2, history := w.history ++ [.call w.host call] }) := by
    rw [map_eq_pure_bind, run_bind, run_ask]
    rcases (host.answer w.host call).1 with e | a
    · rfl
    · rfl
  rw [Effect.run] at hmap
  rw [attempt, Effect.run, catching, hmap]
  rcases (host.answer w.host call).1 with e | a
  · rfl
  · rfl

/-- The stat of an entry, answered or not, changes nothing of the guest's. -/
theorem run_direntIno (hdir : Unchanging host path entries good) (hgood : good w.host)
    (name : Str) : ∃ (ino : ℕ) (w' : World η), (direntIno host path name).run w = (.ok ino, w') ∧
      w'.table = w.table ∧ w'.memory = w.memory ∧ good w'.host := by
  have hrun := run_attempt_ask host
    (.lstatSync ((if path = ['/'] then [] else path) ++ '/' :: name)) w
  rw [direntIno, run_bind_ok hrun]
  rcases (host.answer w.host _).1.toOption with _ | stats
  · exact ⟨0, _, rfl, rfl, rfl, hdir.lstat_good _ _ hgood⟩
  · exact ⟨stats.ino.getD 0, _, rfl, rfl, rfl, hdir.lstat_good _ _ hgood⟩

variable {ptr index : ℕ}

/-- The header of an entry and what there is room for of its name, as they are read back. -/
theorem run_entry {ino type length : ℕ} {name : List UInt8} {β : Type} (rest : Syscall η β)
    (hgood : good w.host) (hfits : ptr + SIZE.dirent + name.length ≤ w.memory.length) : ∃ w', (do
        setU64 ptr index
        setU64 (ptr + 8) ino
        setU32 (ptr + 16) length
        setU8 (ptr + 20) type
        store (ptr + SIZE.dirent) name
        rest : Syscall η β).run w = rest.run w' ∧
      Leaves good ptr (ptr + SIZE.dirent + name.length) w w' ∧
      ofLittle (bytesIn w'.memory ptr 8) = index % 256 ^ 8 ∧
      ofLittle (bytesIn w'.memory (ptr + 16) 4) = length % 256 ^ 4 ∧
      ofLittle (bytesIn w'.memory (ptr + 20) 1) = type % 256 ^ 1 ∧
      bytesIn w'.memory (ptr + SIZE.dirent) name.length = name := by
  unfold SIZE.dirent at *
  obtain ⟨w₁, hrun₁, h₁, hindex⟩ := @run_storeNumber _ good w 8 ptr index hgood (by omega)
  have hlength₁ := h₁.length
  obtain ⟨w₂, hrun₂, h₂, -⟩ := @run_storeNumber _ good w₁ 8 (ptr + 8) ino h₁.good (by omega)
  have hlength₂ := h₂.length
  obtain ⟨w₃, hrun₃, h₃, hlength⟩ :=
    @run_storeNumber _ good w₂ 4 (ptr + 16) length h₂.good (by omega)
  have hlength₃ := h₃.length
  obtain ⟨w₄, hrun₄, h₄, htype⟩ := @run_storeNumber _ good w₃ 1 (ptr + 20) type h₃.good (by omega)
  have hlength₄ := h₄.length
  obtain ⟨w₅, hrun₅, h₅, hname⟩ := @run_store _ good w₄ (ptr + 24) name h₄.good (by omega)
  refine ⟨w₅, ?_, ?_, ?_, ?_, ?_, hname⟩
  · rw [setU64, run_bind_ok hrun₁, setU64, run_bind_ok hrun₂, setU32,
      run_bind_ok hrun₃, setU8, run_bind_ok hrun₄, run_bind_ok hrun₅]
  · refine (h₁.mono le_rfl (by omega)).trans ((h₂.mono (by omega) (by omega)).trans
      ((h₃.mono (by omega) (by omega)).trans ((h₄.mono (by omega) (by omega)).trans
        (h₅.mono (by omega) (by omega)))))
  · rw [h₅.bytesIn (by omega), h₄.bytesIn (by omega), h₃.bytesIn (by omega),
      h₂.bytesIn (by omega), hindex]
  · rw [h₅.bytesIn (by omega), h₄.bytesIn (by omega), hlength]
  · rw [h₅.bytesIn (by omega), htype]

/-! ## The entries of a call -/

theorem listing_append (index : ℕ) (first second : List HostDirent) :
    listing index (first ++ second) =
      listing index first ++ listing (index + first.length) second := by
  induction first generalizing index with
  | nil => rfl
  | cons entry first ih =>
    rw [cons_append, listing, ih, listing, length_cons, cons_append,
      Nat.add_right_comm, Nat.add_assoc]

theorem direntType_lt (entry : HostDirent) : (direntType entry).number < 256 ^ 1 := by
  unfold direntType
  split_ifs <;> decide

theorem readdirLoop_cons (host : Host η) (path : Str) (ptr len index : ℕ) (entry : HostDirent)
    (rest : List HostDirent) (used : ℕ) :
    readdirLoop host path ptr len index (entry :: rest) used =
      if len < used + SIZE.dirent then pure len
      else direntIno host path entry.name >>= fun ino => (do
        setU64 (ptr + used) (index + 1 : ℕ)
        setU64 (ptr + used + 8) ino
        setU32 (ptr + used + 16) (encodeText entry.name).length
        setU8 (ptr + used + 20) (direntType entry).number
        store (ptr + (used + SIZE.dirent)) ((encodeText entry.name).take
          (min (len - (used + SIZE.dirent)) (encodeText entry.name).length))
        if len - (used + SIZE.dirent + min (len - (used + SIZE.dirent))
          (encodeText entry.name).length) = 0 then
          pure (used + SIZE.dirent +
            min (len - (used + SIZE.dirent)) (encodeText entry.name).length)
        else readdirLoop host path ptr len (index + 1) rest (used + SIZE.dirent +
          min (len - (used + SIZE.dirent)) (encodeText entry.name).length)) := by
  delta readdirLoop
  dsimp only

/-- The part of a buffer that entries were put in: so many of them are whole, and the buffer is
used up unless they are all. -/
structure Filled (good : η → Prop) (ptr len used index : ℕ) (rest : List HostDirent) (w : World η)
    (used' : ℕ) (w' : World η) (count : ℕ) : Prop where
  leaves : Leaves good (ptr + used) (ptr + len) w w'
  used_le : used ≤ used'
  le_len : used' ≤ len
  count_le : count ≤ rest.length
  entries : wholeEntries (bytesIn w'.memory (ptr + used) (used' - used)) =
    listing index (rest.take count)
  full : count < rest.length → used' = len
  nothing : rest = [] → used' = used
  room : ∀ entry ∈ rest.head?, used + SIZE.dirent + (encodeText entry.name).length ≤ len → 0 < count

theorem filled_of_short {len used : ℕ} {rest : List HostDirent} (hgood : good w.host)
    (hused : used ≤ len) (hfits : ptr + len ≤ w.memory.length) (hshort : len < used + SIZE.dirent)
    (hrest : rest ≠ []) : Filled good ptr len used index rest w len w 0 where
  leaves := ⟨rfl, hgood, rfl, fun _ _ => rfl⟩
  used_le := hused
  le_len := le_rfl
  count_le := Nat.zero_le _
  entries := by
    refine wholeEntries_of_short ?_
    rw [length_bytesIn (by omega)]
    omega
  full _ := rfl
  nothing hnil := absurd hnil hrest
  room _ _ hroom := by omega

theorem run_readdirLoop (hdir : Unchanging host path entries good) {len used : ℕ}
    {rest : List HostDirent} (hgood : good w.host) (hused : used ≤ len)
    (hfits : ptr + len ≤ w.memory.length) (hindex : index + rest.length < 2 ^ 64)
    (hnames : ∀ entry ∈ rest, (encodeText entry.name).length < 2 ^ 32) :
    ∃ used' w' count, (readdirLoop host path ptr len index rest used).run w = (.ok used', w') ∧
      Filled good ptr len used index rest w used' w' count := by
  induction rest generalizing used index w with
  | nil =>
    refine ⟨used, w, 0, rfl, ⟨rfl, hgood, rfl, fun _ _ => rfl⟩, le_rfl, hused, le_rfl, ?_, by simp,
      fun _ => rfl, by simp⟩
    rw [Nat.sub_self]
    exact wholeEntries_of_short (by simp [bytesIn, SIZE.dirent])
  | cons entry rest ih =>
    rw [readdirLoop_cons]
    set name := encodeText entry.name with hname
    by_cases hheader : len < used + SIZE.dirent
    · rw [if_pos hheader]
      exact ⟨len, w, 0, rfl, filled_of_short hgood hused hfits hheader (by simp)⟩
    · rw [if_neg hheader]
      obtain ⟨ino, w₁, hino, htable, hmemory, hgood₁⟩ := run_direntIno hdir hgood entry.name
      rw [run_bind_ok hino]
      set copied := min (len - (used + SIZE.dirent)) name.length with hcopied
      have hcut : (name.take copied).length = copied := length_take_of_le (by omega)
      rw [length_cons] at hindex
      rw [← Nat.add_assoc ptr used SIZE.dirent]
      obtain ⟨w₂, hrun₂, hleaves₂, hnext, hsize, htype, hcopy⟩ := @run_entry _ good w₁ (ptr + used)
        (index + 1) ino (direntType entry).number name.length (name.take copied) _
        (if len - (used + SIZE.dirent + copied) = 0 then pure (used + SIZE.dirent + copied)
          else readdirLoop host path ptr len (index + 1) rest (used + SIZE.dirent + copied))
        hgood₁ (by rw [hcut, hmemory]; omega)
      rw [hrun₂]
      rw [hcut] at hleaves₂ hcopy
      have hshort : name.length < 256 ^ 4 := hnames entry mem_cons_self
      rw [Nat.mod_eq_of_lt (by omega)] at hnext
      rw [Nat.mod_eq_of_lt hshort] at hsize
      rw [Nat.mod_eq_of_lt (direntType_lt entry)] at htype
      have hleaves : Leaves good (ptr + used) (ptr + used + SIZE.dirent + copied) w w₂ := by
        refine ⟨hleaves₂.table.trans htable, hleaves₂.good, ?_, ?_⟩
        · rw [hleaves₂.length, hmemory]
        · rw [← hmemory]
          exact hleaves₂.outside
      have hroom : ptr + len ≤ w₂.memory.length := by rwa [hleaves.length]
      by_cases hfull : len - (used + SIZE.dirent + copied) = 0
      · rw [if_pos hfull]
        have hend : used + SIZE.dirent + copied = len := by omega
        have hwhole := @wholeEntries_bytesIn (len - used) w₂.memory (ptr + used) name.length
          (by omega) (by omega) hsize
        by_cases hcomplete : SIZE.dirent + name.length ≤ len - used
        · -- the entry ends where the buffer does
          have hall : copied = name.length := by omega
          rw [if_pos hcomplete] at hwhole
          refine ⟨_, w₂, 1, rfl, hleaves.mono le_rfl (by omega), by omega, by omega, by simp, ?_,
            fun _ => hend, by simp, fun _ _ _ => Nat.one_pos⟩
          have hrest : len - used - (SIZE.dirent + name.length) = 0 := by omega
          rw [hall, take_length] at hcopy
          rw [hend, hwhole, hnext, hcopy, htype, hrest, wholeEntries_of_short (by
            simp [bytesIn, SIZE.dirent])]
          rfl
        · rw [if_neg hcomplete] at hwhole
          refine ⟨_, w₂, 0, rfl, hleaves.mono le_rfl (by omega), by omega, by omega,
            Nat.zero_le _, ?_, fun _ => hend, by simp, ?_⟩
          · rw [hend, hwhole]
            rfl
          · simp only [head?_cons, Option.mem_def, Option.some.injEq]
            rintro _ rfl hplace
            rw [← hname] at hplace
            omega
      · rw [if_neg hfull]
        have hall : copied = name.length := by omega
        obtain ⟨used', w', count, hrun, hfilled⟩ := @ih w₂ (index + 1)
          (used + SIZE.dirent + copied) hleaves.good (by omega) hroom (by omega)
          fun entry hmem => hnames entry (mem_cons_of_mem _ hmem)
        have hkept := hfilled.leaves
        have hgrow := hfilled.used_le
        have hlength : w'.memory.length = w₂.memory.length := hkept.length
        have hle := hfilled.le_len
        have hsame : ∀ offset size, offset + size ≤ ptr + (used + SIZE.dirent + copied) →
            bytesIn w'.memory offset size = bytesIn w₂.memory offset size :=
          fun offset size hle => hkept.bytesIn (.inl hle)
        have hsizes : 21 ≤ SIZE.dirent := by decide
        rw [← hsame _ _ (by omega)] at hnext hsize htype hcopy
        refine ⟨used', w', count + 1, hrun, (hleaves.mono le_rfl (by omega)).trans
          (hkept.mono (by omega) le_rfl), by omega, hle, ?_, ?_, ?_, by simp,
          fun _ _ _ => Nat.succ_pos _⟩
        · rw [length_cons]
          exact Nat.succ_le_succ hfilled.count_le
        · have hoffset : ptr + used + (SIZE.dirent + name.length) =
              ptr + (used + SIZE.dirent + copied) := by omega
          have hrest : used' - used - (SIZE.dirent + name.length) =
              used' - (used + SIZE.dirent + copied) := by omega
          rw [hall, take_length] at hcopy
          rw [wholeEntries_bytesIn (by omega) (by omega) hsize, if_pos (by omega), hnext, hcopy,
            htype, hoffset, hrest, hfilled.entries]
          rfl
        · rw [length_cons]
          exact fun hlt => hfilled.full (Nat.lt_of_succ_lt_succ hlt)

variable {fd : UInt32} {cookie : UInt64}

/-- A call with a cookie of the directory: the entries from there on, so many of them whole. -/
theorem perform_readdir (hdir : Unchanging host path entries good) {buffer : DirBuffer}
    (hlist : Listable fd path good w) (hbuffer : buffer.Holds entries w)
    (hcookie : cookie.toNat ≤ entries.length) :
    ∃ w' count, perform host w (.fd_readdir fd buffer.ptr buffer.len cookie buffer.usedPtr) =
        (.errno .ESUCCESS, w') ∧ Listable fd path good w' ∧
      (buffer.page w').length = buffer.len.toNat ∧
      (buffer.page w').used ≤ buffer.len.toNat ∧
      (buffer.page w').entries = listing cookie.toNat ((entries.drop cookie.toNat).take count) ∧
      count ≤ (entries.drop cookie.toNat).length ∧
      (count < (entries.drop cookie.toNat).length →
        (buffer.page w').used = buffer.len.toNat ∧ 0 < count) ∧
      (entries.drop cookie.toNat = [] → (buffer.page w').used = 0) := by
  obtain ⟨⟨d, hlookup, hkind, rfl⟩, hgood⟩ := hlist
  have hentries := hdir.length_lt
  have hindex : (nearest (cookie.toNat : ℤ)).toNat = cookie.toNat := by
    rw [nearest_of_lt (by omega) (by omega)]
    exact Int.toNat_natCast _
  have hfits : buffer.ptr.toNat + buffer.len.toNat ≤ w.memory.length := by
    simpa [World.fits] using hbuffer.fits
  have husedFits : buffer.usedPtr.toNat + 4 ≤ w.memory.length := by
    simpa [World.fits] using hbuffer.usedFits
  have hlen : buffer.len.toNat < 2 ^ 32 := buffer.len.toNat_lt
  have hask : (ask host (.readdirSync d.hostPath)).run w = (.ok entries, { w with
      host := (host.answer w.host (.readdirSync d.hostPath)).2,
      history := w.history ++ [.call w.host (.readdirSync d.hostPath)] }) := by
    rw [run_ask, hdir.readdir _ hgood]
    rfl
  obtain ⟨used, w₂, count, hloop, hfilled⟩ := @run_readdirLoop _ host d.hostPath entries good
    { w with
      host := (host.answer w.host (.readdirSync d.hostPath)).2,
      history := w.history ++ [.call w.host (.readdirSync d.hostPath)] }
    buffer.ptr.toNat cookie.toNat hdir buffer.len.toNat 0 (entries.drop cookie.toNat)
    (hdir.readdir_good _ hgood) (Nat.zero_le _) hfits (by rw [length_drop]; omega)
    (fun entry hmem => by have := hbuffer.longest entry (mem_of_mem_drop hmem); omega)
  have hleaves := hfilled.leaves
  have hle := hfilled.le_len
  have hlength : w₂.memory.length = w.memory.length := hleaves.length
  obtain ⟨w₃, hstore, hleaves₃, hused⟩ := @run_storeNumber _ good w₂ 4 buffer.usedPtr.toNat used
    hleaves.good (by omega)
  have hrun : (fd_readdir host fd.toNat buffer.ptr.toNat buffer.len.toNat cookie.toNat
      buffer.usedPtr.toNat).run w = (.ok (), w₃) := by
    rw [fd_readdir, run_bind_ok (run_checkFits hbuffer.fits),
      run_bind_ok (run_checkFits hbuffer.usedFits), run_bind_ok (run_lookup hlookup)]
    simp only [hkind, require, decide_true, if_true, run_pure_bind]
    rw [run_bind_ok hask, hindex, run_bind_ok hloop]
    exact hstore
  have hpage : (buffer.page w₃).used = used := by
    rw [DirBuffer.page]
    dsimp only
    rw [hused, Nat.mod_eq_of_lt (by omega)]
  have htable : w₃.table = w.table := hleaves₃.table.trans hleaves.table
  refine ⟨w₃, count, ?_, ⟨⟨d, ?_, hkind, rfl⟩, hleaves₃.good⟩, rfl, hpage ▸ hle, ?_,
    hfilled.count_le, fun hlt => ⟨hpage ▸ hfilled.full hlt, ?_⟩,
    fun hnil => hpage ▸ hfilled.nothing hnil⟩
  · rw [perform]
    dsimp only [Call.syscall]
    rw [hrun]
    rfl
  · rw [← hlookup, World.lookup, World.lookup, htable]
  · have hapart := hbuffer.apart
    have hsame : bytesIn w₃.memory buffer.ptr.toNat used = bytesIn w₂.memory buffer.ptr.toNat used :=
      hleaves₃.bytesIn (by omega)
    have hentries := hfilled.entries
    rw [Nat.add_zero, Nat.sub_zero, ← hsame, ← hpage] at hentries
    exact hentries
  · rcases hrest : entries.drop cookie.toNat with _ | ⟨entry, rest⟩
    · rw [hrest] at hlt
      exact absurd hlt (Nat.not_lt_zero _)
    · have hmem : entry ∈ entries := mem_of_mem_drop (hrest ▸ mem_cons_self)
      refine hfilled.room entry (by rw [hrest]; rfl) ?_
      rw [Nat.zero_add]
      exact hbuffer.longest entry hmem

/-! ## The calls of a guest -/

theorem getLast?_listing (index : ℕ) {entries : List HostDirent} (h : entries ≠ []) :
    ∃ entry, (listing index entries).getLast? = some entry ∧
      entry.next = index + entries.length := by
  induction entries generalizing index with
  | nil => exact absurd rfl h
  | cons entry entries ih =>
    rcases eq_or_ne entries [] with rfl | hne
    · exact ⟨_, rfl, rfl⟩
    · obtain ⟨last, hlast, hnext⟩ := ih (index + 1) hne
      refine ⟨last, ?_, by rw [hnext, length_cons]; omega⟩
      rw [listing, getLast?_cons, hlast]
      rfl

/-- What a guest that is done has read, from an index of the directory on. -/
structure ReadFrom (entries : List HostDirent) (index : ℕ) (pages : List Page) : Prop where
  entries : pages.flatMap Page.entries = listing index (entries.drop index)
  full : ∀ page ∈ pages.dropLast, page.used = page.length
  last : ∃ page, pages.getLast? = some page ∧ page.used < page.length

/-- A call that does not leave part of its buffer brings the guest further. -/
theorem page_of_turn (hdir : Unchanging host path entries good) {buffer : DirBuffer}
    (hlist : Listable fd path good w) (hbuffer : buffer.Holds entries w)
    (hcookie : cookie.toNat ≤ entries.length) :
    ∃ w', perform host w (.fd_readdir fd buffer.ptr buffer.len cookie buffer.usedPtr) =
        (.errno .ESUCCESS, w') ∧ Listable fd path good w' ∧
      ((buffer.page w').used < (buffer.page w').length ∧
          (buffer.page w').entries = listing cookie.toNat (entries.drop cookie.toNat) ∨
        (buffer.page w').used = (buffer.page w').length ∧
          cookie.toNat < (resumeAt cookie (buffer.page w')).toNat ∧
          (resumeAt cookie (buffer.page w')).toNat ≤ entries.length ∧
          (buffer.page w').entries ++ listing (resumeAt cookie (buffer.page w')).toNat
            (entries.drop (resumeAt cookie (buffer.page w')).toNat) =
              listing cookie.toNat (entries.drop cookie.toNat)) := by
  obtain ⟨w', count, hperform, hlist', hlength, hused, hentries, hcount, hmore, hnone⟩ :=
    perform_readdir hdir hlist hbuffer hcookie
  have hbound := hdir.length_lt
  have hheader := hbuffer.header
  unfold SIZE.dirent at hheader
  refine ⟨w', hperform, hlist', ?_⟩
  rw [hlength]
  rcases Nat.lt_or_ge (buffer.page w').used buffer.len.toNat with hlt | hge
  · have hall : count = (entries.drop cookie.toNat).length := by
      refine le_antisymm hcount (Nat.not_lt.1 fun hfew => ?_)
      exact absurd (hmore hfew).1 (Nat.ne_of_lt hlt)
    refine .inl ⟨hlt, ?_⟩
    rw [hentries, hall, take_length]
  · have hpos : 0 < count := by
      rcases Nat.lt_or_ge count (entries.drop cookie.toNat).length with hfew | hall
      · exact (hmore hfew).2
      · rcases eq_or_ne (entries.drop cookie.toNat) [] with hnil | hne
        · have := hnone hnil
          omega
        · exact (length_pos_iff.2 hne).trans_le hall
    have htake : ((entries.drop cookie.toNat).take count).length = count :=
      length_take_of_le hcount
    rw [length_drop] at hcount
    obtain ⟨last, hlast, hnext⟩ := getLast?_listing cookie.toNat
      (ne_nil_of_length_pos (htake.symm ▸ hpos))
    have hresume : (resumeAt cookie (buffer.page w')).toNat = cookie.toNat + count := by
      rw [resumeAt, hentries, hlast]
      dsimp only
      rw [hnext, htake, UInt64.toNat_ofNat_of_lt']
      unfold UInt64.size
      omega
    refine .inr ⟨le_antisymm hused hge, by omega, by omega, ?_⟩
    have hsplit := listing_append cookie.toNat ((entries.drop cookie.toNat).take count)
      ((entries.drop cookie.toNat).drop count)
    rw [take_append_drop, htake, drop_drop] at hsplit
    rw [hresume, hentries, hsplit]

theorem listFrom_succ {guest : ℕ → World η → DirBuffer × World η} {left turn : ℕ} {w' : World η}
    (h : perform host (guest turn w).2 (.fd_readdir fd (guest turn w).1.ptr (guest turn w).1.len
      cookie (guest turn w).1.usedPtr) = (.errno .ESUCCESS, w')) :
    listFrom host fd guest (left + 1) turn cookie w =
      if ((guest turn w).1.page w').used < ((guest turn w).1.page w').length then
        some [(guest turn w).1.page w']
      else ((guest turn w).1.page w' :: ·) <$> listFrom host fd guest left (turn + 1)
        (resumeAt cookie ((guest turn w).1.page w')) w' := by
  rw [listFrom]
  dsimp only
  rw [h]

theorem ReadFrom.single {page : Page} (hlt : page.used < page.length)
    (h : page.entries = listing index (entries.drop index)) : ReadFrom entries index [page] where
  entries := by rw [flatMap_singleton, h]
  full := by simp
  last := ⟨page, rfl, hlt⟩

/-- The pages of a guest that goes on while its buffer is used up. -/
theorem listFrom_spec (hdir : Unchanging host path entries good)
    {guest : ℕ → World η → DirBuffer × World η}
    (hguest : ∀ turn w, Listable fd path good w → Listable fd path good (guest turn w).2 ∧
      (guest turn w).1.Holds entries (guest turn w).2) {left turn : ℕ}
    (hlist : Listable fd path good w) (hcookie : cookie.toNat ≤ entries.length)
    (hleft : entries.length - cookie.toNat ≤ left) :
    ∃ pages, listFrom host fd guest (left + 1) turn cookie w = some pages ∧
      ReadFrom entries cookie.toNat pages := by
  induction left generalizing turn cookie w with
  | zero =>
    obtain ⟨hready, hholds⟩ := hguest turn w hlist
    obtain ⟨w', hperform, hlist', ⟨hlt, hentries⟩ | ⟨-, hmore, hle, -⟩⟩ :=
      page_of_turn hdir hready hholds hcookie
    · refine ⟨_, ?_, .single hlt hentries⟩
      rw [listFrom_succ hperform, if_pos hlt]
    · omega
  | succ left ih =>
    obtain ⟨hready, hholds⟩ := hguest turn w hlist
    obtain ⟨w', hperform, hlist', ⟨hlt, hentries⟩ | ⟨hfull, hmore, hle, hsplit⟩⟩ :=
      page_of_turn hdir hready hholds hcookie
    · refine ⟨_, ?_, .single hlt hentries⟩
      rw [listFrom_succ hperform, if_pos hlt]
    · obtain ⟨pages, hpages, hread⟩ := @ih w' _ (turn + 1) hlist' hle (by omega)
      obtain ⟨last, hlast, hrest⟩ := hread.last
      have hne : pages ≠ [] := by
        rintro rfl
        cases hlast
      refine ⟨(guest turn w).1.page w' :: pages, ?_, ?_, ?_, last, ?_, hrest⟩
      · rw [listFrom_succ hperform, if_neg (by omega), hpages]
        rfl
      · rw [flatMap_cons, hread.entries, hsplit]
      · rw [dropLast_cons_of_ne_nil hne]
        intro page hpage
        rcases mem_cons.1 hpage with rfl | hpage
        · exact hfull
        · exact hread.full page hpage
      · rw [getLast?_cons, hlast]
        rfl

/-- Whatever buffers a guest lists an unchanging directory with, it is done after finitely many
calls and has then read every entry once, in order; each call but the last used its buffer up. -/
theorem fd_readdir_pages (host : Host η) (path : Str) (entries : List HostDirent)
    (good : η → Prop) (fd : UInt32) (guest : ℕ → World η → DirBuffer × World η) (w : World η)
    (hdir : Unchanging host path entries good) (hlist : Listable fd path good w)
    (hguest : ∀ turn w, Listable fd path good w → Listable fd path good (guest turn w).2 ∧
      (guest turn w).1.Holds entries (guest turn w).2) :
    ∃ pages, listFrom host fd guest (entries.length + 1) 0 0 w = some pages ∧
      pages.flatMap Page.entries = listing 0 entries ∧
      (∀ page ∈ pages.dropLast, page.used = page.length) ∧
      ∃ page, pages.getLast? = some page ∧ page.used < page.length := by
  obtain ⟨pages, hpages, hread⟩ : ∃ pages, listFrom host fd guest (entries.length + 1) 0 0 w =
      some pages ∧ ReadFrom entries 0 pages :=
    listFrom_spec hdir hguest hlist (Nat.zero_le _) (Nat.sub_le _ _)
  exact ⟨pages, hpages, hread.entries, hread.full, hread.last⟩

def smallHost : Host Unit where
  answer _ call :=
    match call with
    | .readdirSync _ => (.ok [⟨['a'], true, false, false⟩, ⟨['b', 'c'], false, true, false⟩], ())
    | _ => (.error ⟨none⟩, ())
  isTTY _ := false
  hasUtimes := false
  hasReadlink := false
  hasSymlink := false

def smallWorld : World Unit :=
  { emptyWorld [] () with
    table := [(3, ⟨.dir, ['.'], ['/'], .DIRECTORY, RIGHTS_DIRECTORY_BASE,
      RIGHTS_DIRECTORY_INHERITING, true, 0, 0, 0, []⟩)] }

/-- A buffer with room for either entry and a byte more, in a memory that the guest clears. -/
def smallGuest (_ : ℕ) (w : World Unit) : DirBuffer × World Unit :=
  (⟨0, 27, 32⟩, { w with memory := List.replicate 36 0 })

theorem fd_readdir_pages_small :
    ∃ pages, listFrom smallHost 3 smallGuest 3 0 0 smallWorld = some pages ∧
      pages.flatMap Page.entries = [⟨1, [97], 4⟩, ⟨2, [98, 99], 3⟩] ∧
      (∀ page ∈ pages.dropLast, page.used = page.length) ∧
      ∃ page, pages.getLast? = some page ∧ page.used < page.length := by
  have hlongest : ∀ entry ∈ ([⟨['a'], true, false, false⟩, ⟨['b', 'c'], false, true, false⟩] :
      List HostDirent), SIZE.dirent + (encodeText entry.name).length ≤ 27 := by decide
  refine fd_readdir_pages smallHost ['/']
    [⟨['a'], true, false, false⟩, ⟨['b', 'c'], false, true, false⟩] (fun _ => True) 3 smallGuest
    smallWorld ⟨by decide, fun _ _ => rfl, fun _ _ => trivial, fun _ _ _ => trivial⟩
    ⟨⟨_, rfl, rfl, rfl⟩, trivial⟩ fun _ w hw => ⟨⟨hw.descriptor, trivial⟩, ?_⟩
  exact ⟨by simp [World.fits, smallGuest], by simp [World.fits, smallGuest],
    .inl (show 0 + 27 ≤ 32 by decide), show 24 ≤ 27 by decide, hlongest⟩

end Wasi

end Tabnode
