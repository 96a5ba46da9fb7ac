import Tabnode.Wasi.Checked

/-!
# Bytes in and out of the guest's buffers

Reads and writes go buffer by buffer, each from where the last has ended. The positions and
lengths handed to the host are in its ranges where those of the whole row are: `InSteps`.
-/

namespace Tabnode

namespace Wasi

open Effect List

variable {η : Type} {ranges : List (ℕ × ℕ)} {w : World η} {cond : Prop}

/-- Buffers of lengths that the host takes, at positions that it takes, if each is filled. -/
def InSteps : ℤ → List (ℕ × ℕ) → Prop
  | _, [] => True
  | position, (_, len) :: iovs =>
      len < 2 ^ 31 ∧ position < 2 ^ 53 ∧ InSteps (position + len) iovs

variable {position : ℤ} {iovs : List (ℕ × ℕ)}

theorem InSteps.of_le {position' : ℤ} (h : InSteps position iovs)
    (hle : position' ≤ position) : InSteps position' iovs := by
  induction iovs generalizing position position' with
  | nil => trivial
  | cons iov iovs ih =>
    obtain ⟨hlen, hposition, hrest⟩ := h
    exact ⟨hlen, by omega, ih hrest (by omega)⟩

/-- The position after a buffer is the exact sum where it matters. -/
theorem InSteps.nearest (h : InSteps position iovs)
    (hlow : 0 ≤ position) : InSteps (nearest position) iovs := by
  cases iovs with
  | nil => trivial
  | cons iov iovs =>
    rw [nearest_of_lt hlow h.2.1]
    exact h

variable {ptr len : ℕ}

theorem InSteps.next {count : ℕ} (h : InSteps position ((ptr, len) :: iovs)) (hlow : 0 ≤ position)
    (hcount : count ≤ len) : InSteps (Wasi.nearest (position + count)) iovs :=
  (h.2.2.of_le (by omega)).nearest (by omega)

def Rooms (ranges : List (ℕ × ℕ)) (w : World η) (iovs : List (ℕ × ℕ)) : Prop :=
  ∀ iov ∈ iovs, Room ranges w iov.1 iov.2

theorem Rooms.head (h : Rooms ranges w ((ptr, len) :: iovs)) :
    Room ranges w ptr len := h _ mem_cons_self

theorem Rooms.tail {iov : ℕ × ℕ} (h : Rooms ranges w (iov :: iovs)) {w' : World η}
    (hkeeps : Keeps ranges w w') : Rooms ranges w' iovs :=
  fun iov' hmem => (h iov' (mem_cons_of_mem _ hmem)).keeps hkeeps

variable {host : Host η} (hhost : Documented host)

include hhost

/-! ## Files -/

variable {hostFd : ℕ}

theorem stays_readSync (hroom : Room ranges w ptr len) (hlow : 0 ≤ position)
    (hcond : cond → len < 2 ^ 31 ∧ position < 2 ^ 53) {α : Type} {f : List UInt8 → Syscall η α}
    {Q : α → World η → Prop}
    (h : ∀ bytes w', Keeps ranges w w' → bytes.length ≤ len → Stays cond ranges (f bytes) w' Q) :
    Stays cond ranges (do
      let bytes ← ask host (.readSync hostFd len position)
      store ptr bytes
      f bytes) w Q := by
  refine (stays_ask hhost (.readSync hostFd len position) fun hc => ?_).bind
    fun bytes w₁ hkeeps₁ hbytes => ?_
  · exact ⟨(hcond hc).1, by omega, (hcond hc).2⟩
  · have hlength : bytes.length ≤ len := hbytes.2.1
    refine (stays_store ((hroom.sub (le_refl _) (by omega)).keeps hkeeps₁)).bind
      fun _ w₂ hkeeps₂ _ => ?_
    exact h bytes w₂ (IsTrans.trans _ _ _ hkeeps₁ hkeeps₂) hlength

variable {total : ℤ}

theorem stays_preadLoop (hrooms : Rooms ranges w iovs) (hlow : 0 ≤ position)
    (hcond : cond → InSteps position iovs) :
    Stays cond ranges (preadLoop host hostFd iovs position total) w fun _ _ => True := by
  induction iovs generalizing position total w with
  | nil => exact .pure trivial
  | cons iov iovs ih =>
    obtain ⟨ptr, len⟩ := iov
    refine stays_readSync hhost hrooms.head hlow (fun hc => ⟨(hcond hc).1, (hcond hc).2.1⟩) ?_
    intro bytes w' hkeeps hlength
    dsimp only
    split
    · exact .pure trivial
    · exact ih (hrooms.tail hkeeps) (nearest_nonneg (by omega)) fun hc =>
        (hcond hc).next hlow hlength

variable {fd : ℕ} {d : Descriptor}

theorem stays_readLoop (hrooms : Rooms ranges w iovs) (hd : d.Sane)
    (hcond : cond → InSteps d.position iovs) :
    Stays cond ranges (readLoop host fd hostFd iovs d total) w fun _ _ => True := by
  induction iovs generalizing d total w with
  | nil => exact .pure trivial
  | cons iov iovs ih =>
    obtain ⟨ptr, len⟩ := iov
    refine stays_readSync hhost hrooms.head hd.position
      (fun hc => ⟨(hcond hc).1, (hcond hc).2.1⟩) ?_
    intro bytes w₁ hkeeps₁ hlength
    have hnext : Descriptor.Sane { d with position := nearest (d.position + bytes.length) } := by
      have := hd.position
      exact ⟨hd.path, hd.hostPath, nearest_nonneg (by omega)⟩
    refine (stays_update hnext).bind fun _ w₂ hkeeps₂ _ => ?_
    dsimp only
    split
    · exact .pure trivial
    · exact ih (hrooms.tail (IsTrans.trans _ _ _ hkeeps₁ hkeeps₂)) hnext fun hc =>
        (hcond hc).next hd.position hlength

theorem stays_writeSync (hroom : Room ranges w ptr len) (hlow : 0 ≤ position)
    (hcond : cond → len < 2 ^ 31 ∧ position < 2 ^ 53) {α : Type} {f : ℕ → Syscall η α}
    {Q : α → World η → Prop}
    (h : ∀ count w', Keeps ranges w w' → count ≤ len → Stays cond ranges (f count) w' Q) :
    Stays cond ranges (do
      let bytes ← bytesAt ptr len
      let count : ℕ ← ask host (.writeSync hostFd bytes position)
      f count) w Q := by
  refine (stays_bytesAt hroom).bind fun bytes w₁ hkeeps₁ hbytes => ?_
  refine (stays_ask hhost (.writeSync hostFd bytes position) fun hc => ?_).bind
    fun count w₂ hkeeps₂ hcount => ?_
  · exact ⟨by rw [hbytes.2.1]; exact (hcond hc).1, by omega, (hcond hc).2⟩
  · have hle : count ≤ bytes.length := hcount.2.1
    rw [hbytes.2.1] at hle
    exact h count w₂ (IsTrans.trans _ _ _ hkeeps₁ hkeeps₂) hle

theorem stays_pwriteLoop (hrooms : Rooms ranges w iovs) (hlow : 0 ≤ position)
    (hcond : cond → InSteps position iovs) :
    Stays cond ranges (pwriteLoop host hostFd iovs position total) w fun _ _ => True := by
  induction iovs generalizing position total w with
  | nil => exact .pure trivial
  | cons iov iovs ih =>
    obtain ⟨ptr, len⟩ := iov
    refine stays_writeSync hhost hrooms.head hlow (fun hc => ⟨(hcond hc).1, (hcond hc).2.1⟩) ?_
    intro count w' hkeeps hcount
    exact ih (hrooms.tail hkeeps) (nearest_nonneg (by omega)) fun hc => (hcond hc).next hlow hcount

/-- The buffers that a write of a descriptor can take: where it appends, each write lands at the
file's size. -/
def WritesInSteps (d : Descriptor) (iovs : List (ℕ × ℕ)) : Prop :=
  if hasFlag d.fdflags FDFLAG.APPEND then ∀ iov ∈ iovs, iov.2 < 2 ^ 31
  else InSteps d.position iovs

omit hhost in
theorem WritesInSteps.head (h : WritesInSteps d ((ptr, len) :: iovs)) : len < 2 ^ 31 := by
  rw [WritesInSteps] at h
  split at h
  · exact h _ mem_cons_self
  · exact h.1

theorem stays_writePosition (hd : d.Sane) (hcond : cond → WritesInSteps d ((ptr, len) :: iovs)) :
    Stays cond ranges (writePosition host d) w fun position _ => 0 ≤ position ∧
      (cond → position < 2 ^ 53) ∧ ∀ count ≤ len, cond →
        WritesInSteps { d with position := nearest (position + (count : ℕ)) } iovs := by
  unfold writePosition
  by_cases happend : hasFlag d.fdflags FDFLAG.APPEND = true
  · rw [if_pos happend]
    refine (stays_sizeOf hhost d).map fun size _ _ hsize => ?_
    refine ⟨by omega, fun _ => by omega, fun count _ hc => ?_⟩
    have h := hcond hc
    rw [WritesInSteps, if_pos happend] at h ⊢
    exact fun iov hmem => h iov (mem_cons_of_mem _ hmem)
  · rw [if_neg happend]
    have hsteps : cond → InSteps d.position ((ptr, len) :: iovs) := fun hc => by
      have h := hcond hc
      rwa [WritesInSteps, if_neg happend] at h
    refine .pure ⟨hd.position, fun hc => (hsteps hc).2.1, fun count hcount hc => ?_⟩
    rw [WritesInSteps, if_neg happend]
    exact (hsteps hc).next hd.position hcount

theorem stays_writeLoop (hrooms : Rooms ranges w iovs) (hd : d.Sane)
    (hcond : cond → WritesInSteps d iovs) :
    Stays cond ranges (writeLoop host fd hostFd iovs d total) w fun _ _ => True := by
  induction iovs generalizing d total w with
  | nil => exact .pure trivial
  | cons iov iovs ih =>
    obtain ⟨ptr, len⟩ := iov
    refine (stays_writePosition hhost hd hcond).bind fun position w₁ hkeeps₁ hposition => ?_
    obtain ⟨hlow, hhigh, hnext⟩ := hposition
    refine stays_writeSync hhost (hrooms.head.keeps hkeeps₁) hlow
      (fun hc => ⟨(hcond hc).head, hhigh hc⟩) ?_
    intro count w₂ hkeeps₂ hcount
    have hsane : Descriptor.Sane { d with position := nearest (position + count) } :=
      ⟨hd.path, hd.hostPath, nearest_nonneg (by omega)⟩
    refine (stays_update hsane).bind fun _ w₃ hkeeps₃ _ => ?_
    have hkeeps := IsTrans.trans _ _ _ hkeeps₁ (IsTrans.trans _ _ _ hkeeps₂ hkeeps₃)
    exact ih (hrooms.tail hkeeps) hsane (hnext count hcount)

/-! ## Streams -/

theorem stays_pullStdin : Stays cond ranges (pullStdin host) w fun _ _ => True := by
  refine (stays_ask hhost .readStream fun _ => trivial).bind fun chunk w' _ _ => ?_
  cases chunk with
  | none | some _ => exact stays_modify rfl rfl id trivial

theorem stays_readStdin (length : ℕ) :
    Stays cond ranges (readStdin host length) w fun bytes _ => bytes.length ≤ length := by
  refine meets_get_bind ((stays_onlyIf fun _ => stays_pullStdin hhost).bind fun _ w' _ _ => ?_)
  refine meets_get_bind ((stays_modify rfl rfl id trivial).bind (P := fun _ _ => True)
    fun _ _ _ _ => .pure ?_)
  exact length_take_le _ _

theorem stays_readStreamLoop (hrooms : Rooms ranges w iovs) :
    Stays cond ranges (readStreamLoop host iovs total) w fun _ _ => True := by
  induction iovs generalizing total w with
  | nil => exact .pure trivial
  | cons iov iovs ih =>
    obtain ⟨ptr, len⟩ := iov
    refine (stays_readStdin hhost len).bind fun bytes w₁ hkeeps₁ hlength => ?_
    refine (stays_store ((hrooms.head.sub (le_refl _) (by omega)).keeps hkeeps₁)).bind
      fun _ w₂ hkeeps₂ _ => ?_
    dsimp only
    split
    · exact .pure trivial
    · exact ih (hrooms.tail (IsTrans.trans _ _ _ hkeeps₁ hkeeps₂))

theorem stays_writeStream (stream : Stream) (bytes : List UInt8) :
    Stays cond ranges (writeStream host stream bytes) w fun _ _ => True := by
  unfold writeStream
  split
  · exact .pure trivial
  · exact (stays_ask hhost (.writeStream _ _) fun _ => trivial).weaken

theorem stays_writeStreamLoop {stream : Stream} (hrooms : Rooms ranges w iovs) :
    Stays cond ranges (writeStreamLoop host stream iovs total) w fun _ _ => True := by
  induction iovs generalizing total w with
  | nil => exact .pure trivial
  | cons iov iovs ih =>
    obtain ⟨ptr, len⟩ := iov
    refine (stays_bytesAt hrooms.head).bind fun bytes w₁ hkeeps₁ _ => ?_
    refine (stays_writeStream hhost stream bytes).bind fun _ w₂ hkeeps₂ _ => ?_
    exact ih (hrooms.tail (IsTrans.trans _ _ _ hkeeps₁ hkeeps₂))

/-! ## Syscalls on buffers -/

def transferRanges (w : World η) (iovsPtr iovsLen countPtr : ℕ) : List (ℕ × ℕ) :=
  (countPtr, 4) :: iovecRanges w iovsPtr iovsLen

variable {iovsPtr iovsLen : ℕ}

omit hhost in
theorem checked_transfer {countPtr : ℕ} {f : List (ℕ × ℕ) → Syscall η Unit}
    (h : ∀ w', Keeps (transferRanges w iovsPtr iovsLen countPtr) w w' → Still w w' →
      AllFit w (transferRanges w iovsPtr iovsLen countPtr) →
      Room (transferRanges w iovsPtr iovsLen countPtr) w' countPtr 4 →
      Rooms (transferRanges w iovsPtr iovsLen countPtr) w' (iovecsAt w.memory iovsLen iovsPtr) →
        Stays cond (transferRanges w iovsPtr iovsLen countPtr)
          (f (iovecsAt w.memory iovsLen iovsPtr)) w' fun _ _ => True) :
    Checked cond (transferRanges w iovsPtr iovsLen countPtr)
      (transferRanges w iovsPtr iovsLen countPtr) (do
        checkFits countPtr 4
        let iovs ← iovecsOf iovsPtr iovsLen
        f iovs) w := by
  refine checked_cons fun hcount => checked_iovecs (subset_cons_self _ _) ?_
  intro w' hkeeps hstill hfit hrooms
  refine h w' hkeeps hstill (forall_mem_cons.2 ⟨hcount, hfit⟩) ?_ hrooms
  exact (room_of_mem mem_cons_self hcount).keeps hkeeps

omit hhost in
theorem Still.opened {w' : World η} (h : Still w w') {rights : Rights}
    (hopened : w'.Opened fd rights d) : w.Opened fd rights d :=
  ⟨by rw [← h.table]; exact hopened.find, hopened.rights, hopened.file⟩

theorem checked_fd_pread (hw : Tidy w) {offset nreadPtr : ℕ}
    (hcond : cond → AllFit w (transferRanges w iovsPtr iovsLen nreadPtr) →
      ∀ d, w.Opened fd (RIGHT.FD_READ ||| RIGHT.FD_SEEK) d →
        InSteps offset (iovecsAt w.memory iovsLen iovsPtr)) :
    Checked cond (transferRanges w iovsPtr iovsLen nreadPtr)
      (transferRanges w iovsPtr iovsLen nreadPtr)
      (fd_pread host fd iovsPtr iovsLen offset nreadPtr) w := by
  refine checked_transfer fun w₁ hkeeps hstill hfit hcount hrooms => ?_
  refine stays_lookup_bind (hkeeps.tidy hw) fun d hd hfind hrights => ?_
  split
  · next hostFd hkind =>
    refine (stays_preadLoop hhost hrooms (nearest_nonneg (by omega)) fun hc => ?_).bind
      fun total w₂ hkeeps₂ _ => stays_storeNumber (hcount.keeps hkeeps₂)
    have hsteps := hcond hc hfit d (hstill.opened ⟨hfind, hrights, hostFd, hkind⟩)
    exact hsteps.nearest (Int.natCast_nonneg _)
  · exact stays_answer (by decide)

theorem checked_fd_pwrite (hw : Tidy w) {offset nwrittenPtr : ℕ}
    (hcond : cond → AllFit w (transferRanges w iovsPtr iovsLen nwrittenPtr) →
      ∀ d, w.Opened fd (RIGHT.FD_WRITE ||| RIGHT.FD_SEEK) d →
        InSteps offset (iovecsAt w.memory iovsLen iovsPtr)) :
    Checked cond (transferRanges w iovsPtr iovsLen nwrittenPtr)
      (transferRanges w iovsPtr iovsLen nwrittenPtr)
      (fd_pwrite host fd iovsPtr iovsLen offset nwrittenPtr) w := by
  refine checked_transfer fun w₁ hkeeps hstill hfit hcount hrooms => ?_
  refine stays_lookup_bind (hkeeps.tidy hw) fun d hd hfind hrights => ?_
  split
  · next hostFd hkind =>
    refine (stays_pwriteLoop hhost hrooms (nearest_nonneg (by omega)) fun hc => ?_).bind
      fun total w₂ hkeeps₂ _ => stays_storeNumber (hcount.keeps hkeeps₂)
    have hsteps := hcond hc hfit d (hstill.opened ⟨hfind, hrights, hostFd, hkind⟩)
    exact hsteps.nearest (Int.natCast_nonneg _)
  · exact stays_answer (by decide)

theorem checked_fd_read (hw : Tidy w) {nreadPtr : ℕ}
    (hcond : cond → AllFit w (transferRanges w iovsPtr iovsLen nreadPtr) →
      ∀ d, w.Opened fd RIGHT.FD_READ d →
        InSteps d.position (iovecsAt w.memory iovsLen iovsPtr)) :
    Checked cond (transferRanges w iovsPtr iovsLen nreadPtr)
      (transferRanges w iovsPtr iovsLen nreadPtr)
      (fd_read host fd iovsPtr iovsLen nreadPtr) w := by
  refine checked_transfer fun w₁ hkeeps hstill hfit hcount hrooms => ?_
  refine stays_lookup_bind (hkeeps.tidy hw) fun d hd hfind hrights => ?_
  split
  · refine stays_require_bind (by decide) fun _ => ?_
    exact (stays_readStreamLoop hhost hrooms).bind fun total w₂ hkeeps₂ _ =>
      stays_storeNumber (hcount.keeps hkeeps₂)
  · next hostFd hkind =>
    refine (stays_readLoop hhost hrooms hd fun hc => ?_).bind
      fun total w₂ hkeeps₂ _ => stays_storeNumber (hcount.keeps hkeeps₂)
    exact hcond hc hfit d (hstill.opened ⟨hfind, hrights, hostFd, hkind⟩)
  · exact stays_answer (by decide)

theorem checked_fd_write (hw : Tidy w) {nwrittenPtr : ℕ}
    (hcond : cond → AllFit w (transferRanges w iovsPtr iovsLen nwrittenPtr) →
      ∀ d, w.Opened fd RIGHT.FD_WRITE d →
        WritesInSteps d (iovecsAt w.memory iovsLen iovsPtr)) :
    Checked cond (transferRanges w iovsPtr iovsLen nwrittenPtr)
      (transferRanges w iovsPtr iovsLen nwrittenPtr)
      (fd_write host fd iovsPtr iovsLen nwrittenPtr) w := by
  refine checked_transfer fun w₁ hkeeps hstill hfit hcount hrooms => ?_
  refine stays_lookup_bind (hkeeps.tidy hw) fun d hd hfind hrights => ?_
  split
  · refine stays_require_bind (by decide) fun _ => ?_
    exact (stays_writeStreamLoop hhost hrooms).bind fun total w₂ hkeeps₂ _ =>
      stays_storeNumber (hcount.keeps hkeeps₂)
  · next hostFd hkind =>
    refine (stays_writeLoop hhost hrooms hd fun hc => ?_).bind
      fun total w₂ hkeeps₂ _ => stays_storeNumber (hcount.keeps hkeeps₂)
    exact hcond hc hfit d (hstill.opened ⟨hfind, hrights, hostFd, hkind⟩)
  · exact stays_answer (by decide)

/-! ## Preopens, directories and cursors -/

omit hhost in
theorem checked_fd_prestat_get (hw : Tidy w) (fd bufPtr : ℕ) :
    Checked cond [(bufPtr, SIZE.prestat)] [(bufPtr, SIZE.prestat)]
      (fd_prestat_get fd bufPtr) w := by
  refine checked_cons fun hfits => checked_nil (stays_lookup_bind hw fun d _ _ _ => ?_)
  have hroom : Room [(bufPtr, 8)] w bufPtr 8 := room_of_mem (by simp) hfits
  refine stays_require_bind (by decide) fun _ => ?_
  refine (stays_storeNumber (hroom.sub (by omega) (by omega))).bind fun _ w₁ hkeeps _ => ?_
  exact stays_storeNumber ((hroom.keeps hkeeps).sub (by omega) (by omega))

omit hhost in
theorem checked_fd_prestat_dir_name (hw : Tidy w) (fd pathPtr pathLen : ℕ) :
    Checked cond [(pathPtr, pathLen)] [(pathPtr, pathLen)]
      (fd_prestat_dir_name fd pathPtr pathLen) w := by
  refine checked_cons fun hfits => checked_nil (stays_lookup_bind hw fun d _ _ _ => ?_)
  have hroom : Room [(pathPtr, pathLen)] w pathPtr pathLen := room_of_mem (by simp) hfits
  refine stays_require_bind (by decide) fun _ => stays_require_bind (by decide) fun hlength => ?_
  exact stays_store (hroom.sub (by omega) (by simpa using hlength))

theorem stays_direntIno (hostPath name : Str) :
    Stays cond ranges (direntIno host hostPath name) w fun _ _ => True := by
  refine (stays_attempt_ask hhost (.lstatSync _)).bind fun stats w' _ _ => ?_
  cases stats with
  | none | some _ => exact .pure trivial

theorem stays_readdirLoop {hostPath : Str} {bufPtr bufLen index used : ℕ}
    {entries : List HostDirent} (hroom : Room ranges w bufPtr bufLen) :
    Stays cond ranges (readdirLoop host hostPath bufPtr bufLen index entries used) w
      fun _ _ => True := by
  induction entries generalizing index used w with
  | nil => exact .pure trivial
  | cons entry entries ih =>
    refine stays_ite (fun _ => .pure trivial) fun hnot => ?_
    have hle : used + 24 ≤ bufLen := not_lt.1 hnot
    refine (stays_direntIno hhost hostPath entry.name).bind fun ino w₁ hkeeps₁ _ => ?_
    have hroom₁ := hroom.keeps hkeeps₁
    refine (stays_storeNumber (hroom₁.sub (by omega) (by omega))).bind fun _ w₂ hkeeps₂ _ => ?_
    have hroom₂ := hroom₁.keeps hkeeps₂
    refine (stays_storeNumber (hroom₂.sub (by omega) (by omega))).bind fun _ w₃ hkeeps₃ _ => ?_
    have hroom₃ := hroom₂.keeps hkeeps₃
    refine (stays_storeNumber (hroom₃.sub (by omega) (by omega))).bind fun _ w₄ hkeeps₄ _ => ?_
    have hroom₄ := hroom₃.keeps hkeeps₄
    refine (stays_storeNumber (hroom₄.sub (by omega) (by omega))).bind fun _ w₅ hkeeps₅ _ => ?_
    have hroom₅ := hroom₄.keeps hkeeps₅
    refine (stays_store (hroom₅.sub ?_ ?_)).bind fun _ w₆ hkeeps₆ _ => ?_
    · simp only [SIZE.dirent]
      omega
    · simp only [SIZE.dirent, length_take]
      omega
    · exact stays_ite (fun _ => .pure trivial) fun _ => ih (hroom₅.keeps hkeeps₆)

theorem checked_fd_readdir (hw : Tidy w) (fd bufPtr bufLen cookie bufusedPtr : ℕ) :
    Checked cond [(bufPtr, bufLen), (bufusedPtr, 4)] [(bufPtr, bufLen), (bufusedPtr, 4)]
      (fd_readdir host fd bufPtr bufLen cookie bufusedPtr) w := by
  refine checked_cons fun hbuf => checked_cons fun hused => checked_nil ?_
  refine stays_lookup_bind hw fun d hd _ _ => stays_require_bind (by decide) fun _ => ?_
  refine (stays_ask hhost (.readdirSync d.hostPath) fun _ => hd.hostPath).bind
    fun entries w₁ hkeeps₁ _ => ?_
  have hroom : Room [(bufPtr, bufLen), (bufusedPtr, 4)] w bufPtr bufLen :=
    room_of_mem (by simp) hbuf
  refine (stays_readdirLoop hhost (hroom.keeps hkeeps₁)).bind fun used w₂ hkeeps₂ _ => ?_
  exact stays_storeNumber (((room_of_mem (by simp) hused).keeps hkeeps₁).keeps hkeeps₂)

theorem checked_fd_renumber (hw : Tidy w) (source target : ℕ) :
    Checked cond [] [] (fd_renumber host source target) w := by
  refine checked_nil ?_
  unfold fd_renumber
  split
  · exact .pure trivial
  · refine meets_get_bind ?_
    split
    · next moved closed hmoved hclosed =>
      exact (stays_closeHost hhost closed).bind fun _ _ _ _ => stays_move (hw source moved hmoved)
    · exact stays_answer (by decide)

theorem stays_seekBase (hd : d.Sane) (whence : ℕ) :
    Stays cond ranges (seekBase host d whence) w fun base _ => 0 ≤ base := by
  unfold seekBase
  split
  · exact .pure (le_refl _)
  · exact .pure hd.position
  · exact (stays_sizeOf hhost d).map fun size _ _ _ => Int.natCast_nonneg size
  · exact stays_answer (by decide)

theorem checked_fd_seek (hw : Tidy w) (fd : ℕ) (offset : ℤ) (whence newOffsetPtr : ℕ) :
    Checked cond [(newOffsetPtr, 8)] [(newOffsetPtr, 8)]
      (fd_seek host fd offset whence newOffsetPtr) w := by
  refine checked_cons fun hfits => checked_nil (stays_lookup_bind hw fun d hd _ _ => ?_)
  split
  · refine (stays_seekBase hhost hd whence).bind fun base w₁ hkeeps₁ _ => ?_
    refine stays_require_bind (by decide) fun hnext => ?_
    have hsane : Descriptor.Sane { d with position := nearest (base + nearest offset) } :=
      ⟨hd.path, hd.hostPath, by simpa using hnext⟩
    refine (stays_update hsane).bind fun _ w₂ hkeeps₂ _ => ?_
    exact stays_storeNumber (((room_of_mem (by simp) hfits).keeps hkeeps₁).keeps hkeeps₂)
  · exact stays_answer (by decide)

omit hhost in
theorem checked_fd_sync (hw : Tidy w) (fd : ℕ) : Checked cond [] [] (fd_sync fd) w :=
  checked_nil (stays_lookup_bind hw fun _ _ _ _ => .pure trivial)

omit hhost in
theorem checked_fd_tell (hw : Tidy w) (fd offsetPtr : ℕ) :
    Checked cond [(offsetPtr, 8)] [(offsetPtr, 8)] (fd_tell fd offsetPtr) w := by
  refine checked_cons fun hfits => checked_nil (stays_lookup_bind hw fun d _ _ _ => ?_)
  split
  · exact stays_storeNumber (room_of_mem (by simp) hfits)
  · exact stays_answer (by decide)

end Wasi

end Tabnode
