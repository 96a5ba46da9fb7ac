import Tabnode.Wasi.Bounds

/-!
# The syscalls, their ranges checked

Each syscall checks the ranges its arguments name before it does anything else, and after
that stays inside them. What it may throw is left to a condition on the sizes, offsets and
names it hands to the host.
-/

namespace Tabnode

namespace Wasi

open Effect List

variable {η : Type} {ranges : List (ℕ × ℕ)} {w : World η} {cond : Prop}

/-! ## Checks -/

def AllFit (w : World η) (ranges : List (ℕ × ℕ)) : Prop :=
  ∀ r ∈ ranges, w.fits r.1 r.2 = true

/-- How a syscall ends before its last line: with `EOVERFLOW` exactly where a range does not
fit. -/
def Answers (cond fit : Prop) : Stop → Prop
  | .answer errno => errno = .EOVERFLOW ↔ ¬ fit
  | .thrown e => fit ∧ (cond → FsFault e)

abbrev Checked (cond : Prop) (ranges rest : List (ℕ × ℕ)) (x : Syscall η Unit) (w : World η) :
    Prop :=
  Meets (Keeps ranges) (Answers cond (AllFit w rest)) x w fun _ _ => AllFit w rest

theorem Answers.congr {fit fit' : Prop} (h : fit ↔ fit') {stop : Stop}
    (hstop : Answers cond fit stop) : Answers cond fit' stop := by
  rwa [← propext h]

theorem checked_nil {x : Syscall η Unit}
    (h : Stays cond ranges x w fun _ _ => True) : Checked cond ranges [] x w := by
  have hall : AllFit w [] := fun r hr => by simp at hr
  refine h.mono (fun _ h => h) (fun stop hstop => ?_) fun _ _ _ _ => hall
  cases stop with
  | answer errno => exact iff_of_false hstop (not_not_intro hall)
  | thrown e => exact ⟨hall, hstop⟩

theorem checked_cons {offset size : ℕ} {rest : List (ℕ × ℕ)} {f : Unit → Syscall η Unit}
    (h : w.fits offset size = true → Checked cond ranges rest (f ()) w) :
    Checked cond ranges ((offset, size) :: rest) (checkFits offset size >>= f) w := by
  refine meets_checkFits_bind (fun hfits => ?_) fun hfits => ?_
  · refine iff_of_true rfl fun hall => ?_
    rw [hall (offset, size) mem_cons_self] at hfits
    cases hfits
  · have hiff : AllFit w rest ↔ AllFit w ((offset, size) :: rest) := by
      simp [AllFit, hfits]
    exact (h hfits).mono (fun _ h => h) (fun _ h => h.congr hiff) fun _ _ _ h => hiff.1 h

def iovecRanges (w : World η) (iovsPtr iovsLen : ℕ) : List (ℕ × ℕ) :=
  (iovsPtr, iovsLen * SIZE.iovec) ::
    if w.fits iovsPtr (iovsLen * SIZE.iovec) then iovecsAt w.memory iovsLen iovsPtr else []

theorem checked_iovecs {iovsPtr iovsLen : ℕ} {f : List (ℕ × ℕ) → Syscall η Unit}
    (hsub : iovecRanges w iovsPtr iovsLen ⊆ ranges)
    (h : ∀ w', Keeps ranges w w' → Still w w' → AllFit w (iovecRanges w iovsPtr iovsLen) →
      (∀ iov ∈ iovecsAt w.memory iovsLen iovsPtr, Room ranges w' iov.1 iov.2) →
        Stays cond ranges (f (iovecsAt w.memory iovsLen iovsPtr)) w' fun _ _ => True) :
    Checked cond ranges (iovecRanges w iovsPtr iovsLen) (iovecsOf iovsPtr iovsLen >>= f) w := by
  rw [iovecsOf, Effect.bind_assoc']
  refine checked_cons fun hfits => ?_
  rw [if_pos hfits]
  have hentries : iovecRanges w iovsPtr iovsLen =
      (iovsPtr, iovsLen * SIZE.iovec) :: iovecsAt w.memory iovsLen iovsPtr := by
    rw [iovecRanges, if_pos hfits]
  rw [hentries] at hsub h
  have hroom : Room ranges w iovsPtr (iovsLen * SIZE.iovec) :=
    room_of_mem (hsub mem_cons_self) hfits
  refine (meets_iovecsFrom (R := Keeps ranges) (fun i hi w' hstill => ?_) fun hnot => ?_).bind ?_
  · have hroom' : Room ranges w' (iovsPtr + 4 * i) 4 := by
      have hkeeps : Room ranges w' iovsPtr (iovsLen * SIZE.iovec) := by
        rwa [Room, hstill.fits]
      refine hkeeps.sub (by omega) ?_
      simp only [SIZE.iovec]
      omega
    exact stays_loadNumber hroom'
  · obtain ⟨iov, hmem, hfits'⟩ := hnot
    refine iff_of_true rfl fun hall => ?_
    rw [hall iov hmem] at hfits'
    cases hfits'
  · rintro _ w' hkeeps ⟨rfl, hall, hstill⟩
    have hfit : AllFit w ((iovsPtr, iovsLen * SIZE.iovec) :: iovecsAt w.memory iovsLen iovsPtr) :=
      forall_mem_cons.2 ⟨hfits, hall⟩
    refine (h w' hkeeps hstill hfit fun iov hmem => ?_).mono (fun _ h => h) (fun stop hstop => ?_)
      fun _ _ _ _ => hall
    · exact (room_of_mem (hsub (mem_cons_of_mem _ hmem)) (hall iov hmem)).keeps hkeeps
    · cases stop with
      | answer errno => exact iff_of_false hstop (not_not_intro hall)
      | thrown e => exact ⟨hall, hstop⟩

variable {α : Type} {condition : Bool}

theorem stays_require_bind {errno : Errno} {f : Unit → Syscall η α} {Q : α → World η → Prop}
    (herrno : errno ≠ .EOVERFLOW) (h : condition = true → Stays cond ranges (f ()) w Q) :
    Stays cond ranges (require condition errno >>= f) w Q :=
  meets_require_bind (fun _ => herrno) h

theorem stays_lookup_bind {fd : ℕ} {base inheriting : Rights} {f : Descriptor → Syscall η α}
    {Q : α → World η → Prop} (hw : Tidy w)
    (h : ∀ d, d.Sane → OrderedMap.find fd w.table = some d → Within base d.rightsBase →
      Stays cond ranges (f d) w Q) : Stays cond ranges (lookup fd base inheriting >>= f) w Q :=
  meets_lookup_bind nofun nofun fun d hfind hbase _ => h d (hw fd d hfind) hfind hbase

theorem stays_onlyIf {x : Syscall η Unit}
    (h : condition = true → Stays cond ranges x w fun _ _ => True) :
    Stays cond ranges (onlyIf condition x) w fun _ _ => True := by
  cases condition with
  | true => exact h rfl
  | false => exact .pure trivial

theorem stays_ite {p : Prop} [Decidable p] {x y : Syscall η α} {Q : α → World η → Prop}
    (hx : p → Stays cond ranges x w Q)
    (hy : ¬p → Stays cond ranges y w Q) : Stays cond ranges (if p then x else y) w Q := by
  split
  · next h => exact hx h
  · next h => exact hy h

theorem stays_require {errno : Errno} (herrno : errno ≠ .EOVERFLOW) :
    Stays cond ranges (require condition errno : Syscall η Unit) w fun _ _ => True := by
  cases condition with
  | true => exact .pure trivial
  | false => exact stays_answer herrno

/-! ## Arguments, environment, clocks -/

theorem stays_putStrings {E : Stop → Prop} {chunks : List (List UInt8)} {ptr position : ℕ}
    (hptr : Room ranges w ptr (chunks.length * 4))
    (hposition : Room ranges w position (chunks.map List.length).sum) :
    Meets (Keeps ranges) E (putStrings chunks ptr position : Syscall η Unit) w
      fun _ _ => True := by
  induction chunks generalizing ptr position w with
  | nil => exact .pure trivial
  | cons chunk chunks ih =>
    rw [length_cons] at hptr
    rw [map_cons, sum_cons] at hposition
    refine (stays_storeNumber (hptr.sub (by omega) (by omega))).bind fun _ w₁ hkeeps₁ _ => ?_
    refine (stays_store ((hposition.sub (by omega) (by omega)).keeps hkeeps₁)).bind
      fun _ w₂ hkeeps₂ _ => ?_
    exact ih (((hptr.sub (by omega) (by omega)).keeps hkeeps₁).keeps hkeeps₂)
      (((hposition.sub (by omega) (by omega)).keeps hkeeps₁).keeps hkeeps₂)

theorem checked_stringsGet (strings : List Str) (ptr bufPtr : ℕ) :
    Checked cond [(bufPtr, stringsSize strings), (ptr, strings.length * 4)]
      [(bufPtr, stringsSize strings), (ptr, strings.length * 4)]
      (stringsGet strings ptr bufPtr) w := by
  refine checked_cons fun hbuf => checked_cons fun hptr => checked_nil ?_
  refine stays_putStrings (room_of_mem (by simp [terminated]) ?_) (room_of_mem ?_ hbuf)
  · simpa [terminated] using hptr
  · simp [stringsSize]

theorem checked_stringsSizesGet (strings : List Str) (countPtr bufSizePtr : ℕ) :
    Checked cond [(countPtr, 4), (bufSizePtr, 4)] [(countPtr, 4), (bufSizePtr, 4)]
      (stringsSizesGet strings countPtr bufSizePtr) w := by
  refine checked_cons fun hcount => checked_cons fun hsize => checked_nil ?_
  refine (stays_storeNumber (room_of_mem (by simp) hcount)).bind fun _ w₁ hkeeps _ => ?_
  exact stays_storeNumber ((room_of_mem (by simp) hsize).keeps hkeeps)

theorem checked_clock_res_get (clockId resolutionPtr : ℕ) :
    Checked cond [(resolutionPtr, 8)] [(resolutionPtr, 8)]
      (clock_res_get clockId resolutionPtr) w := by
  refine checked_cons fun hfits => checked_nil (stays_require_bind (by decide) fun _ => ?_)
  exact stays_storeNumber (room_of_mem (by simp) hfits)

section Host

variable {host : Host η} (hhost : Documented host)

include hhost

theorem stays_realtimeNanos :
    Stays cond ranges (realtimeNanos host) w fun nanos _ => 0 ≤ nanos ∧ nanos ≤ 2 ^ 110 :=
  (stays_ask hhost .realtime fun _ => trivial).map fun _ _ _ hms =>
    nanosSince_bounds hms.2.1.1 hms.2.1.2

theorem stays_monotonicNanos : Stays cond ranges (monotonicNanos host) w fun _ _ => True :=
  (stays_ask hhost .monotonic fun _ => trivial).map fun _ _ _ _ => trivial

theorem checked_clock_time_get (clockId timePtr : ℕ) :
    Checked cond [(timePtr, 8)] [(timePtr, 8)] (clock_time_get host clockId timePtr) w := by
  refine checked_cons fun hfits => checked_nil ?_
  have hroom : Room [(timePtr, 8)] w timePtr 8 := room_of_mem (by simp) hfits
  have hmonotonic : Stays cond [(timePtr, 8)] (do setU64 timePtr (← monotonicNanos host)) w
      fun _ _ => True :=
    (stays_monotonicNanos hhost).bind fun _ _ hkeeps _ => stays_storeNumber (hroom.keeps hkeeps)
  split
  · exact (stays_realtimeNanos hhost).bind fun _ _ hkeeps _ =>
      stays_storeNumber (hroom.keeps hkeeps)
  · exact hmonotonic
  · exact hmonotonic
  · exact hmonotonic
  · exact stays_answer (by decide)

/-! ## Sizes and stats -/

theorem stays_sizeOf (d : Descriptor) :
    Stays cond ranges (sizeOf host d) w fun size w' => size < 2 ^ 53 ∧ w'.memory = w.memory ∧
      w'.table = w.table := by
  unfold sizeOf
  split
  · exact (stays_ask hhost (.fstatSync _) fun _ => trivial).map fun stats _ _ h =>
      ⟨h.2.1.size, h.2.2.2, h.2.2.1⟩
  · exact .pure ⟨by norm_num, rfl, rfl⟩

def Filestat.Timed (stat : Filestat) : Prop :=
  (0 ≤ stat.atim ∧ stat.atim ≤ 2 ^ 110) ∧ 0 ≤ stat.mtim ∧ stat.mtim ≤ 2 ^ 110

omit hhost in
theorem nanosOf_bounds {ms date : Option JsNumber} (h : Dated ms date) :
    0 ≤ nanosOf ms date ∧ nanosOf ms date ≤ 2 ^ 110 := by
  unfold nanosOf
  split
  · next value hvalue =>
    split
    · norm_num
    · next hpos => exact nanosSince_bounds (not_le.1 hpos).le (h value hvalue)
  · norm_num

omit hhost in
theorem timed_filestatOf {stats : HostStats} (h : stats.Documented) : (filestatOf stats).Timed :=
  ⟨nanosOf_bounds h.atime, nanosOf_bounds h.mtime⟩

theorem stays_filestatOfDescriptor {d : Descriptor} (hd : d.Sane) :
    Stays cond ranges (filestatOfDescriptor host d) w fun stat _ => stat.Timed := by
  unfold filestatOfDescriptor
  split
  · exact (stays_ask hhost (.fstatSync _) fun _ => trivial).map fun _ _ _ h =>
      timed_filestatOf h.2.1
  · exact (stays_ask hhost (.statSync _) fun _ => hd.hostPath).map fun _ _ _ h =>
      timed_filestatOf h.2.1
  · exact .pure ⟨⟨le_refl _, by norm_num⟩, le_refl _, by norm_num⟩

variable {hostPath : Str}

theorem stays_currentFilestat {descriptor : Option Descriptor}
    (hdescriptor : ∀ d, descriptor = some d → d.Sane) (hpath : cond → Clean hostPath) :
    Stays cond ranges (currentFilestat host descriptor hostPath) w fun stat _ => stat.Timed := by
  cases descriptor with
  | some d => exact stays_filestatOfDescriptor hhost (hdescriptor d rfl)
  | none => exact (stays_ask hhost (.lstatSync _) hpath).map fun _ _ _ h => timed_filestatOf h.2.1

theorem stays_timesToSet {descriptor : Option Descriptor}
    (hdescriptor : ∀ d, descriptor = some d → d.Sane) (hpath : cond → Clean hostPath)
    (atim mtim : UInt64) (flags : ℕ) :
    Stays cond ranges (timesToSet host descriptor hostPath atim.toNat mtim.toNat flags) w
      fun times _ => times.1.isFinite = true ∧ times.2.isFinite = true := by
  refine (stays_realtimeNanos hhost).bind fun now w₁ _ hnow => ?_
  have hcurrent : Stays cond ranges (keptTimes host descriptor hostPath flags) w₁
      fun stat _ => stat.Timed := by
    unfold keptTimes
    split
    · exact stays_currentFilestat hhost hdescriptor hpath
    · exact .pure ⟨⟨le_refl _, by norm_num⟩, le_refl _, by norm_num⟩
  refine hcurrent.bind fun current w₂ _ htimed => .pure ?_
  have hgiven : ∀ given : UInt64, (0 : ℤ) ≤ given.toNat ∧ (given.toNat : ℤ) ≤ 2 ^ 110 := by
    intro given
    have := given.toNat_lt
    omega
  have hchoice : ∀ (now' given stat : Bool) (a b c : ℤ), 0 ≤ a ∧ a ≤ 2 ^ 110 →
      0 ≤ b ∧ b ≤ 2 ^ 110 → 0 ≤ c ∧ c ≤ 2 ^ 110 →
      (seconds (if now' then a else if given then b else c)).isFinite = true := by
    intro now' given stat a b c ha hb hc
    split
    · exact isFinite_seconds ha.1 ha.2
    · split
      · exact isFinite_seconds hb.1 hb.2
      · exact isFinite_seconds hc.1 hc.2
  exact ⟨hchoice _ _ true _ _ _ hnow (hgiven atim) htimed.1,
    hchoice _ _ true _ _ _ hnow (hgiven mtim) htimed.2⟩

theorem stays_setTimes (hpath : cond → Clean hostPath) {times : JsNumber × JsNumber}
    (htimes : times.1.isFinite = true ∧ times.2.isFinite = true) :
    Stays cond ranges (setTimes host hostPath times) w fun _ _ => True :=
  stays_require_bind (by decide) fun _ => (stays_ask hhost (.utimesSync _ _ _) fun hcond =>
    ⟨hpath hcond, htimes.1, htimes.2⟩).weaken

/-! ## Descriptors -/

omit hhost in
theorem checked_fd_advise (hw : Tidy w) (fd advice : ℕ) :
    Checked cond [] [] (fd_advise fd advice) w :=
  checked_nil (stays_lookup_bind hw fun _ _ _ _ => stays_require (by decide))

/-- A descriptor of an open file, which has rights. -/
structure World.Opened (w : World η) (fd : ℕ) (rights : Rights) (d : Descriptor) : Prop where
  find : OrderedMap.find fd w.table = some d
  rights : Within rights d.rightsBase
  file : ∃ hostFd, d.kind = .file hostFd

theorem checked_fd_allocate (hw : Tidy w) {fd offset len : ℕ}
    (hcond : cond → ∀ d, w.Opened fd RIGHT.FD_ALLOCATE d → offset + len < 2 ^ 53) :
    Checked cond [] [] (fd_allocate host fd offset len) w := by
  refine checked_nil (stays_lookup_bind hw fun d hd hfind hrights => ?_)
  split
  · next hostFd hkind =>
    refine (stays_sizeOf hhost d).bind fun size w' _ _ => stays_onlyIf fun _ => ?_
    refine (stays_ask hhost (.ftruncateSync _ _) fun h => ?_).weaken
    have hlt := hcond h d ⟨hfind, hrights, hostFd, hkind⟩
    have hnearest : nearest (offset + len) = offset + len :=
      nearest_of_lt (by omega) (by omega)
    exact ⟨by rw [hnearest]; omega, by rw [hnearest]; omega⟩
  · exact stays_answer (by decide)

theorem stays_closeHost (d : Descriptor) :
    Stays cond ranges (closeHost host d) w fun _ _ => True := by
  unfold closeHost
  split
  · exact (stays_ask hhost (.closeSync _) fun _ => trivial).weaken
  · exact .pure trivial

theorem checked_fd_close (hw : Tidy w) (fd : ℕ) : Checked cond [] [] (fd_close host fd) w :=
  checked_nil (stays_lookup_bind hw fun d _ _ _ =>
    (stays_closeHost hhost d).bind fun _ _ _ _ => stays_erase fd)

omit hhost in
theorem checked_fd_datasync (hw : Tidy w) (fd : ℕ) : Checked cond [] [] (fd_datasync fd) w :=
  checked_nil (stays_lookup_bind hw fun _ _ _ _ => .pure trivial)

omit hhost in
theorem checked_fd_fdstat_get (hw : Tidy w) (fd bufPtr : ℕ) :
    Checked cond [(bufPtr, SIZE.fdstat)] [(bufPtr, SIZE.fdstat)] (fd_fdstat_get fd bufPtr) w := by
  refine checked_cons fun hfits => checked_nil (stays_lookup_bind hw fun d _ _ _ => ?_)
  have hroom : Room [(bufPtr, 24)] w bufPtr 24 := room_of_mem (by simp) hfits
  refine (stays_storeNumber (hroom.sub (by omega) (by omega))).bind fun _ w₁ hkeeps₁ _ => ?_
  have hroom₁ := hroom.keeps hkeeps₁
  refine (stays_storeNumber (hroom₁.sub (by omega) (by omega))).bind fun _ w₂ hkeeps₂ _ => ?_
  have hroom₂ := hroom₁.keeps hkeeps₂
  refine (stays_storeNumber (hroom₂.sub (by omega) (by omega))).bind fun _ w₃ hkeeps₃ _ => ?_
  exact stays_storeNumber ((hroom₂.keeps hkeeps₃).sub (by omega) (by omega))

omit hhost in
theorem checked_fd_fdstat_set_flags (hw : Tidy w) (fd flags : ℕ) :
    Checked cond [] [] (fd_fdstat_set_flags fd flags) w :=
  checked_nil (stays_lookup_bind hw fun _ hd _ _ =>
    stays_update ⟨hd.path, hd.hostPath, hd.position⟩)

omit hhost in
theorem checked_fd_fdstat_set_rights (hw : Tidy w) (fd : ℕ) (base inheriting : Rights) :
    Checked cond [] [] (fd_fdstat_set_rights fd base inheriting) w :=
  checked_nil (stays_lookup_bind hw fun _ hd _ _ => stays_require_bind (by decide) fun _ =>
    stays_update ⟨hd.path, hd.hostPath, hd.position⟩)

omit hhost in
theorem stays_writeFilestat {offset : ℕ} (stat : Filestat)
    (hroom : Room ranges w offset SIZE.filestat) :
    Stays cond ranges (writeFilestat offset stat) w fun _ _ => True := by
  have hput : ∀ {w' : World η} {size k : ℕ} {value : ℤ} {x : Syscall η Unit},
      Room ranges w' offset 64 → k + size ≤ 64 →
      (∀ w'', Room ranges w'' offset 64 → Stays cond ranges x w'' fun _ _ => True) →
      Stays cond ranges (storeNumber size (offset + k) value >>= fun _ => x) w'
        fun _ _ => True := by
    intro w' size k value x hroom' hle hx
    exact (stays_storeNumber (hroom'.sub (by omega) (by omega))).bind fun _ w'' hkeeps _ =>
      hx w'' (hroom'.keeps hkeeps)
  refine hput (k := 0) hroom (by decide) fun _ h => hput h (by decide) fun _ h =>
    hput h (by decide) fun _ h => hput h (by decide) fun _ h => hput h (by decide) fun _ h =>
    hput h (by decide) fun _ h => hput h (by decide) fun _ h => ?_
  exact stays_storeNumber (h.sub (by omega) (by omega))

theorem checked_fd_filestat_get (hw : Tidy w) (fd bufPtr : ℕ) :
    Checked cond [(bufPtr, SIZE.filestat)] [(bufPtr, SIZE.filestat)]
      (fd_filestat_get host fd bufPtr) w := by
  refine checked_cons fun hfits => checked_nil (stays_lookup_bind hw fun d hd _ _ => ?_)
  refine (stays_filestatOfDescriptor hhost hd).bind fun stat w' hkeeps _ => ?_
  exact stays_writeFilestat stat ((room_of_mem (by simp) hfits).keeps hkeeps)

theorem checked_fd_filestat_set_size (hw : Tidy w) {fd size : ℕ}
    (hcond : cond → ∀ d, w.Opened fd RIGHT.FD_FILESTAT_SET_SIZE d → size < 2 ^ 53) :
    Checked cond [] [] (fd_filestat_set_size host fd size) w := by
  refine checked_nil (stays_lookup_bind hw fun d hd hfind hrights => ?_)
  split
  · next hostFd hkind =>
    refine (stays_ask hhost (.ftruncateSync _ _) fun h => ?_).weaken
    have hlt := hcond h d ⟨hfind, hrights, hostFd, hkind⟩
    have hnearest : nearest size = size := nearest_of_lt (by omega) (by omega)
    exact ⟨by rw [hnearest]; omega, by rw [hnearest]; omega⟩
  · exact stays_answer (by decide)

theorem checked_fd_filestat_set_times (hw : Tidy w) (fd : ℕ) (atim mtim : UInt64) (flags : ℕ) :
    Checked cond [] [] (fd_filestat_set_times host fd atim.toNat mtim.toNat flags) w := by
  refine checked_nil (stays_lookup_bind hw fun d hd _ _ => ?_)
  have htimes : Stays cond [] (do
      let times ← timesToSet host (some d) d.hostPath atim.toNat mtim.toNat flags
      setTimes host d.hostPath times) w fun _ _ => True := by
    refine (stays_timesToSet hhost (fun d' hd' => ?_) (fun _ => hd.hostPath) _ _ _).bind
      fun times w' _ hfinite => stays_setTimes hhost (fun _ => hd.hostPath) hfinite
    cases hd'
    exact hd
  split
  · exact stays_answer (by decide)
  · exact htimes

end Host

end Wasi

end Tabnode
