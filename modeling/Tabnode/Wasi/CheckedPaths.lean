import Tabnode.Wasi.Transfers

/-!
# Syscalls on paths, polls and random bytes

A path that the guest names holds no NUL, nor does the host path it is resolved to. Only
where a link is followed from a directory whose own name holds one may the host be asked for
a path it does not take.
-/

namespace Tabnode

namespace Wasi

open Effect List
open VirtualFS (Name)

variable {η : Type} {ranges : List (ℕ × ℕ)} {w : World η} {cond : Prop}

/-! ## Resolution -/

theorem clean_of_mem_splitSegments {input : Str} (h : Clean input) {n : Name}
    (hn : n ∈ VirtualFS.splitSegments input) : Clean n :=
  fun hmem => h (mem_of_mem_splitSegments hn hmem)

variable {path : Str}

theorem clean_hostUnder {names : List Name} (hpath : Clean path)
    (hnames : ∀ n ∈ names, Clean n) : Clean (hostUnder path names) := by
  intro hmem
  rcases mem_hostUnder hmem with hmem | hslash | ⟨n, hn, hmem⟩
  · exact hpath hmem
  · exact absurd hslash (by decide)
  · exact hnames n hn hmem

theorem clean_under {names : List Name} (hpath : Clean path)
    (hnames : ∀ n ∈ names, Clean n) : Clean (under path names) := by
  intro hmem
  rcases mem_under hmem with hmem | hslash | ⟨n, hn, hmem⟩
  · exact hpath hmem
  · exact absurd hslash (by decide)
  · exact hnames n hn hmem

theorem clean_dirnameOf (hpath : Clean path) : Clean (dirnameOf path) := by
  intro hmem
  rcases mem_dirnameOf hmem with hmem | hslash | hdot
  · exact hpath hmem
  · exact absurd hslash (by decide)
  · exact absurd hdot (by decide)

theorem Clean.joined {front back : Str} (hfront : Clean front) (hback : Clean back) :
    Clean (front ++ '/' :: back) := by
  intro hmem
  rcases mem_append.1 hmem with hmem | hmem
  · exact hfront hmem
  · rcases mem_cons.1 hmem with hslash | hmem
    · exact absurd hslash (by decide)
    · exact hback hmem

section Host

variable {host : Host η} (hhost : Documented host)

include hhost

theorem stays_requireDirectory (mustBeDirectory : Bool) (path : Str) :
    Stays cond ranges (requireDirectory host mustBeDirectory path) w fun _ _ => True := by
  unfold requireDirectory
  refine stays_ite (fun _ => ?_) fun _ => .pure trivial
  refine (stays_attempt_ask hhost (.statSync path)).bind fun stats _ _ _ => ?_
  cases stats with
  | none => exact .pure trivial
  | some stats => exact stays_require (by decide)

theorem stays_linkTarget (path : Str) :
    Stays False ranges (linkTarget host path) w fun target _ => ∀ t, target = some t → Clean t := by
  refine (stays_ask hhost (.lstatSync path) False.elim).bind fun stats w' _ _ => ?_
  refine stays_ite (fun _ => .pure nofun) fun _ => ?_
  refine (stays_ask hhost (.readlinkSync path) False.elim).bind fun target _ _ htarget => .pure ?_
  rintro _ ⟨⟩
  exact htarget.2.1

variable {d : Descriptor} {flags : ℕ}

theorem stays_resolveLoop (hd : d.Sane) {mustBeDirectory : Bool}
    (hfollow : cond → followsLinks flags = true → Clean d.path) (left : ℕ) {input : Str}
    (hinput : cond → Clean input) :
    Stays cond ranges (resolveLoop host d mustBeDirectory flags left input) w fun r _ =>
      IsNormal r.guest ∧ (cond → Clean r.host) := by
  induction left generalizing input w with
  | zero => exact stays_answer (by decide)
  | succ left ih =>
    refine stays_require_bind (by decide) fun hsandboxed => ?_
    obtain ⟨below, hbelow, hguest, hpath⟩ := sandboxed_below hd.path hsandboxed
    have hnames : cond → ∀ n ∈ below, Clean n := fun hc n hn =>
      clean_of_mem_splitSegments (hinput hc) (hbelow n hn).2
    have hhostPath : cond →
        Clean (hostPathOf d (normalizePath (d.path ++ '/' :: input))) := fun hc => by
      rw [hpath]
      exact clean_hostUnder hd.hostPath (hnames hc)
    have hanswer : IsNormal (normalizePath (d.path ++ '/' :: input)) ∧ (cond →
        Clean (hostPathOf d (normalizePath (d.path ++ '/' :: input)))) :=
      ⟨isNormal_normalizePath _, hhostPath⟩
    refine (stays_requireDirectory hhost mustBeDirectory _).bind fun _ w₁ _ _ => ?_
    refine stays_ite (fun hfollows => ?_) fun _ => .pure hanswer
    refine (meets_attempt (E := Fine cond) (stays_linkTarget hhost _) fun _ h => h).bind
      fun link w₂ _ hlink => ?_
    rcases link with - | - | target
    · exact .pure hanswer
    · exact .pure hanswer
    · refine stays_require_bind (by decide) fun _ => stays_require_bind (by decide) fun _ => ?_
      refine ih fun hc => Clean.joined (clean_dirnameOf ?_) (hlink _ rfl target rfl)
      rw [hguest]
      exact clean_under (hfollow hc hfollows) (hnames hc)

theorem stays_resolve (hd : d.Sane) (path : Str)
    (hfollow : cond → followsLinks flags = true → Clean d.path) :
    Stays cond ranges (resolve host d path flags) w fun r _ =>
      IsNormal r.guest ∧ (cond → Clean r.host) := by
  refine stays_require_bind (by decide) fun _ => stays_require_bind (by decide) fun _ =>
    stays_require_bind (by decide) fun hnul => stays_require_bind (by decide) fun _ => ?_
  refine stays_resolveLoop hhost hd hfollow _ fun _ hmem => ?_
  simp [hmem] at hnul

theorem stays_resolve_memory (hd : d.Sane) (path : Str)
    (hfollow : cond → followsLinks flags = true → Clean d.path) :
    Stays cond ranges (resolve host d path flags) w fun r w' =>
      IsNormal r.guest ∧ (cond → Clean r.host) ∧ w'.memory = w.memory := by
  have hnone : Stays cond [] (resolve host d path flags) w fun r _ =>
      IsNormal r.guest ∧ (cond → Clean r.host) := stays_resolve hhost hd path hfollow
  exact hnone.mono (fun _ hkeeps => hkeeps.mono (nil_subset _)) (fun _ h => h)
    fun _ _ hkeeps hr => ⟨hr.1, hr.2, hkeeps.memory_eq⟩

theorem stays_resolve_plain (hd : d.Sane) (path : Str) :
    Stays cond ranges (resolve host d path 0) w fun r w' =>
      IsNormal r.guest ∧ (cond → Clean r.host) ∧ w'.memory = w.memory :=
  stays_resolve_memory hhost hd path fun _ h => by cases h

/-! ## Paths -/

variable {fd pathPtr pathLen : ℕ}

theorem stays_resolved {base inheriting : Rights} (hw : Tidy w)
    (hroom : Room ranges w pathPtr pathLen) (hfollow : cond → followsLinks flags = true →
      ∀ d, OrderedMap.find fd w.table = some d → Clean d.path) {α : Type}
    {f : Descriptor → Resolved → Syscall η α} {Q : α → World η → Prop}
    (h : ∀ d r w', Keeps ranges w w' → d.Sane → IsNormal r.guest → (cond → Clean r.host) →
      w'.memory = w.memory → Stays cond ranges (f d r) w' Q) : Stays cond ranges (do
      let d ← lookup fd base inheriting
      let path ← text pathPtr pathLen
      let r ← resolve host d path flags
      f d r) w Q := by
  refine stays_lookup_bind hw fun d hd hfind _ => ?_
  refine (stays_text hroom).bind fun path w₁ hkeeps₁ hpath => ?_
  refine (stays_resolve_memory hhost hd path fun hc hflags => hfollow hc hflags d hfind).bind
    fun r w₂ hkeeps₂ hr => ?_
  exact h d r w₂ (IsTrans.trans _ _ _ hkeeps₁ hkeeps₂) hd hr.1 hr.2.1
    (hr.2.2.trans hpath.2.memory)

theorem checked_path_create_directory (hw : Tidy w) (fd pathPtr pathLen : ℕ) :
    Checked cond [(pathPtr, pathLen)] [(pathPtr, pathLen)]
      (path_create_directory host fd pathPtr pathLen) w := by
  refine checked_cons fun hfits => checked_nil ?_
  refine stays_resolved hhost hw (room_of_mem (by simp) hfits) (fun _ h => by cases h) ?_
  intro d r w₁ _ _ _ hpath _
  refine (stays_ask hhost (.existsSync _) fun _ => trivial).bind fun _ w₂ _ _ =>
    stays_require_bind (by decide) fun _ => ?_
  refine (stays_ask hhost (.existsSync _) fun _ => trivial).bind fun _ w₃ _ _ =>
    stays_require_bind (by decide) fun _ => ?_
  refine (stays_ask hhost (.statSync _) fun hc => clean_dirnameOf (hpath hc)).bind
    fun _ w₄ _ _ => stays_require_bind (by decide) fun _ => ?_
  exact (stays_ask hhost (.mkdirSync _) hpath).weaken

def FollowsClean (w : World η) (fd flags : ℕ) : Prop :=
  followsLinks flags = true → ∀ d, OrderedMap.find fd w.table = some d → Clean d.path

theorem checked_path_filestat_get (hw : Tidy w) {bufPtr : ℕ}
    (hcond : cond → AllFit w [(pathPtr, pathLen), (bufPtr, SIZE.filestat)] →
      FollowsClean w fd flags) : Checked cond [(pathPtr, pathLen), (bufPtr, SIZE.filestat)]
      [(pathPtr, pathLen), (bufPtr, SIZE.filestat)]
      (path_filestat_get host fd flags pathPtr pathLen bufPtr) w := by
  refine checked_cons fun hfits => checked_cons fun hbuf => checked_nil ?_
  refine stays_resolved hhost hw (room_of_mem (by simp) hfits)
    (fun hc => hcond hc (by simp [AllFit, hfits, hbuf])) ?_
  intro d r w₁ hkeeps _ _ hpath _
  refine (stays_ask hhost (.lstatSync _) hpath).bind fun stats w₂ hkeeps₂ _ => ?_
  exact stays_writeFilestat _ (((room_of_mem (by simp) hbuf).keeps hkeeps).keeps hkeeps₂)

theorem checked_path_filestat_set_times (hw : Tidy w) (atim mtim : UInt64) (fstFlags : ℕ)
    (hcond : cond → AllFit w [(pathPtr, pathLen)] → FollowsClean w fd flags) :
    Checked cond [(pathPtr, pathLen)] [(pathPtr, pathLen)]
      (path_filestat_set_times host fd flags pathPtr pathLen atim.toNat mtim.toNat fstFlags)
      w := by
  refine checked_cons fun hfits => checked_nil ?_
  refine stays_resolved hhost hw (room_of_mem (by simp) hfits)
    (fun hc => hcond hc (by simp [AllFit, hfits])) ?_
  intro d r w₁ _ _ _ hpath _
  exact (stays_timesToSet hhost (by simp) hpath _ _ _).bind fun _ _ _ hfinite =>
    stays_setTimes hhost hpath hfinite

omit hhost in
theorem checked_path_link (hw : Tidy w) (oldFd oldPathPtr oldPathLen newFd newPathPtr
    newPathLen : ℕ) :
    Checked cond [(oldPathPtr, oldPathLen), (newPathPtr, newPathLen)]
      [(oldPathPtr, oldPathLen), (newPathPtr, newPathLen)]
      (path_link oldFd oldPathPtr oldPathLen newFd newPathPtr newPathLen) w :=
  checked_cons fun _ => checked_cons fun _ => checked_nil (stays_lookup_bind hw fun _ _ _ _ =>
    stays_lookup_bind hw fun _ _ _ _ => stays_answer (by decide))

theorem checked_path_readlink (hw : Tidy w) (fd pathPtr pathLen bufPtr bufLen bufusedPtr : ℕ) :
    Checked cond [(pathPtr, pathLen), (bufPtr, bufLen), (bufusedPtr, 4)]
      [(pathPtr, pathLen), (bufPtr, bufLen), (bufusedPtr, 4)]
      (path_readlink host fd pathPtr pathLen bufPtr bufLen bufusedPtr) w := by
  refine checked_cons fun hfits => checked_cons fun hbuf => checked_cons fun hused =>
    checked_nil ?_
  refine stays_resolved hhost hw (room_of_mem (by simp) hfits) (fun _ h => by cases h) ?_
  intro d r w₁ hkeeps₁ _ _ hpath _
  refine stays_require_bind (by decide) fun _ => ?_
  refine (stays_ask hhost (.readlinkSync _) hpath).bind fun target w₂ hkeeps₂ _ => ?_
  refine stays_require_bind (by decide) fun hlength => ?_
  have hroom : Room [(pathPtr, pathLen), (bufPtr, bufLen), (bufusedPtr, 4)] w bufPtr bufLen :=
    room_of_mem (by simp) hbuf
  have hlt : (encodeText target).length < bufLen := of_decide_eq_true hlength
  refine (stays_store (((hroom.sub (le_refl _) (by omega)).keeps hkeeps₁).keeps hkeeps₂)).bind
    fun _ w₃ hkeeps₃ _ => ?_
  exact stays_storeNumber
    ((((room_of_mem (by simp) hused).keeps hkeeps₁).keeps hkeeps₂).keeps hkeeps₃)

theorem checked_path_remove_directory (hw : Tidy w) (fd pathPtr pathLen : ℕ) :
    Checked cond [(pathPtr, pathLen)] [(pathPtr, pathLen)]
      (path_remove_directory host fd pathPtr pathLen) w := by
  refine checked_cons fun hfits => checked_nil ?_
  refine stays_resolved hhost hw (room_of_mem (by simp) hfits) (fun _ h => by cases h) ?_
  intro d r w₁ _ _ _ hpath _
  refine (stays_ask hhost (.existsSync _) fun _ => trivial).bind fun _ w₂ _ _ =>
    stays_require_bind (by decide) fun _ => ?_
  refine (stays_ask hhost (.statSync _) hpath).bind fun _ w₃ _ _ =>
    stays_require_bind (by decide) fun _ => ?_
  refine (stays_ask hhost (.readdirSync _) hpath).bind fun _ w₄ _ _ =>
    stays_require_bind (by decide) fun _ => ?_
  exact (stays_ask hhost (.rmdirSync _) hpath).weaken

theorem checked_path_rename (hw : Tidy w) (oldFd oldPathPtr oldPathLen newFd newPathPtr
    newPathLen : ℕ) :
    Checked cond [(oldPathPtr, oldPathLen), (newPathPtr, newPathLen)]
      [(oldPathPtr, oldPathLen), (newPathPtr, newPathLen)]
      (path_rename host oldFd oldPathPtr oldPathLen newFd newPathPtr newPathLen) w := by
  refine checked_cons fun hold => checked_cons fun hnew => checked_nil ?_
  refine stays_lookup_bind hw fun source hsource _ _ =>
    stays_lookup_bind hw fun target htarget _ _ => ?_
  refine (stays_text (room_of_mem (by simp) hold)).bind fun oldPath w₁ hkeeps₁ _ => ?_
  refine (stays_resolve_plain hhost hsource oldPath).bind fun old w₂ hkeeps₂ hcleanOld => ?_
  refine (stays_text (((room_of_mem (by simp) hnew).keeps hkeeps₁).keeps hkeeps₂)).bind
    fun newPath w₃ _ _ => ?_
  refine (stays_resolve_plain hhost htarget newPath).bind fun new w₄ _ hcleanNew => ?_
  exact (stays_ask hhost (.renameSync _ _) fun hc => ⟨hcleanOld.2.1 hc, hcleanNew.2.1 hc⟩).weaken

def LinksClean (w : World η) (targetPtr targetLen fd : ℕ) : Prop :=
  ∀ d, OrderedMap.find fd w.table = some d → Within RIGHT.PATH_SYMLINK d.rightsBase →
    Clean (decodeText ((w.memory.drop targetPtr).take targetLen))

theorem checked_path_symlink (hw : Tidy w) {oldPathPtr oldPathLen newPathPtr newPathLen : ℕ}
    (hcond : cond → AllFit w [(oldPathPtr, oldPathLen), (newPathPtr, newPathLen)] →
      LinksClean w oldPathPtr oldPathLen fd) :
    Checked cond [(oldPathPtr, oldPathLen), (newPathPtr, newPathLen)]
      [(oldPathPtr, oldPathLen), (newPathPtr, newPathLen)]
      (path_symlink host oldPathPtr oldPathLen fd newPathPtr newPathLen) w := by
  refine checked_cons fun hold => checked_cons fun hnew => checked_nil ?_
  have hfit : AllFit w [(oldPathPtr, oldPathLen), (newPathPtr, newPathLen)] := by
    simp [AllFit, hold, hnew]
  refine stays_lookup_bind hw fun d hd hfind hrights => ?_
  refine (stays_text (room_of_mem (by simp) hnew)).bind fun path w₁ hkeeps₁ hpath => ?_
  refine (stays_resolve_plain hhost hd path).bind fun r w₂ hkeeps₂ hr =>
    stays_require_bind (by decide) fun _ => ?_
  refine (stays_text (((room_of_mem (by simp) hold).keeps hkeeps₁).keeps hkeeps₂)).bind
    fun target w₃ _ htarget => ?_
  refine (stays_ask hhost (.symlinkSync _ _) fun hc => ⟨?_, hr.2.1 hc⟩).weaken
  rw [htarget.1, hr.2.2, hpath.2.memory]
  exact hcond hc hfit d hfind hrights

theorem checked_path_unlink_file (hw : Tidy w) (fd pathPtr pathLen : ℕ) :
    Checked cond [(pathPtr, pathLen)] [(pathPtr, pathLen)]
      (path_unlink_file host fd pathPtr pathLen) w := by
  refine checked_cons fun hfits => checked_nil ?_
  refine stays_resolved hhost hw (room_of_mem (by simp) hfits) (fun _ h => by cases h) ?_
  intro d r w₁ _ _ _ hpath _
  refine (stays_ask hhost (.existsSync _) fun _ => trivial).bind fun _ w₂ _ _ =>
    stays_require_bind (by decide) fun _ => ?_
  refine (stays_ask hhost (.lstatSync _) hpath).bind fun _ w₃ _ _ =>
    stays_require_bind (by decide) fun _ => ?_
  exact (stays_ask hhost (.unlinkSync _) hpath).weaken

/-! ## Opening -/

theorem stays_fileDescriptor {accessFlags fdflags : ℕ} {guestPath hostPath : Str}
    (hguest : IsNormal guestPath) (hhostPath : Clean hostPath) :
    Stays cond ranges (fileDescriptor host fd guestPath hostPath accessFlags fdflags) w
      fun d _ => d.Sane := by
  refine (stays_ask hhost (.fstatSync fd) fun _ => trivial).bind fun stats _ _ _ => .pure ?_
  refine ⟨hguest, hhostPath, ?_⟩
  dsimp only
  split
  · exact Int.natCast_nonneg _
  · exact le_refl _

theorem stays_isDirectoryAt {isThere : Bool} {path : Str} (hpath : cond → Clean path) :
    Stays cond ranges (isDirectoryAt host isThere path) w fun isDirectory _ =>
      isDirectory = true → Clean path := by
  refine stays_ite (fun _ => ?_) fun _ => .pure nofun
  exact (stays_ask hhost (.statSync path) hpath).map fun _ _ _ h _ => h.1

variable {fdFlags fdPtr : ℕ}

omit hhost in
theorem stays_openDirectory {parent : Descriptor} {r : Resolved} {request : OpenRequest}
    {wanted rightsInheriting : Rights} (hguest : IsNormal r.guest) (hpath : Clean r.host)
    (hroom : Room ranges w fdPtr 4) :
    Stays cond ranges (openDirectory parent r request wanted rightsInheriting fdFlags fdPtr) w
      fun _ _ => True := by
  refine stays_require_bind (by decide) fun _ => stays_require_bind (by decide) fun _ => ?_
  exact (stays_insert ⟨hguest, hpath, le_refl _⟩).bind fun _ _ hkeeps _ =>
    stays_storeNumber (hroom.keeps hkeeps)

theorem stays_openFile {parent : Descriptor} {r : Resolved} {request : OpenRequest}
    {wanted rightsInheriting : Rights} (hguest : IsNormal r.guest) (hpath : cond → Clean r.host)
    (hroom : Room ranges w fdPtr 4) :
    Stays cond ranges (openFile host parent r request wanted rightsInheriting fdFlags fdPtr) w
      fun _ _ => True := by
  refine (stays_ask hhost (.openSync _ _ _) hpath).bind fun hostFd w₁ hkeeps₁ hopened => ?_
  have hclosing : Stays cond ranges (closingOnThrow host hostFd
      (fileDescriptor host hostFd r.guest r.host request.flags fdFlags)) w₁ fun d _ => d.Sane := by
    refine meets_catching (stays_fileDescriptor hhost hguest hopened.1) (fun _ h => h) ?_
    intro e w' _ he
    exact (stays_ask hhost (.closeSync _) fun _ => trivial).bind fun _ _ _ _ => .throw he
  refine hclosing.bind fun d w₂ hkeeps₂ hd => ?_
  have hsane : Descriptor.Sane { d with
      rightsBase := wanted &&& d.rightsBase
      rightsInheriting := rightsInheriting &&& d.rightsInheriting
      lineage := parent.id :: parent.lineage } := ⟨hd.path, hd.hostPath, hd.position⟩
  refine (stays_insert hsane).bind fun _ w₃ hkeeps₃ _ => ?_
  exact stays_storeNumber (((hroom.keeps hkeeps₁).keeps hkeeps₂).keeps hkeeps₃)

theorem checked_path_open (hw : Tidy w) {dirFd dirFlags oFlags : ℕ}
    (wanted rightsInheriting : Rights)
    (hcond : cond → AllFit w [(pathPtr, pathLen), (fdPtr, 4)] → FollowsClean w dirFd dirFlags) :
    Checked cond [(pathPtr, pathLen), (fdPtr, 4)] [(pathPtr, pathLen), (fdPtr, 4)]
      (path_open host dirFd dirFlags pathPtr pathLen oFlags wanted rightsInheriting fdFlags
        fdPtr) w := by
  refine checked_cons fun hfits => checked_cons fun hfd => checked_nil ?_
  refine stays_resolved hhost hw (room_of_mem (by simp) hfits)
    (fun hc => hcond hc (by simp [AllFit, hfits, hfd])) ?_
  intro d r w₁ hkeeps₁ _ hguest hpath _
  have hroom : Room [(pathPtr, pathLen), (fdPtr, 4)] w₁ fdPtr 4 :=
    (room_of_mem (by simp) hfd).keeps hkeeps₁
  refine (stays_ask hhost (.existsSync _) fun _ => trivial).bind fun isThere w₂ hkeeps₂ _ => ?_
  refine (stays_isDirectoryAt hhost hpath).bind fun isDirectory w₃ hkeeps₃ hclean => ?_
  have hroom₃ := (hroom.keeps hkeeps₂).keeps hkeeps₃
  refine stays_ite (fun h => stays_openDirectory hguest (hclean h) hroom₃) fun _ => ?_
  refine meets_require_bind (fun _ => ?_) fun _ => stays_openFile hhost hguest hpath hroom₃
  cases isThere <;> simp [Fine]

/-! ## Polls -/

theorem stays_relativeTimeout (clockTimeout flags : ℕ) :
    Stays cond ranges (relativeTimeout host clockTimeout flags) w fun _ _ => True := by
  unfold relativeTimeout
  exact stays_ite (fun _ => (stays_realtimeNanos hhost).map fun _ _ _ _ => trivial)
    fun _ => .pure trivial

variable {position : ℕ} {polled : Polled}

theorem stays_pollClock {userdata : ℕ} (hroom : Room ranges w position SIZE.subscription) :
    Stays cond ranges (pollClock host position userdata polled) w fun polled' _ =>
      polled'.ready = polled.ready := by
  refine (stays_loadNumber (hroom.sub (by omega) (by simp only [SIZE.subscription]; omega))).bind
    fun clockTimeout w₁ hkeeps₁ _ => ?_
  refine (stays_loadNumber ((hroom.sub (by omega)
    (by simp only [SIZE.subscription]; omega)).keeps hkeeps₁)).bind fun flags w₂ hkeeps₂ _ => ?_
  refine (stays_relativeTimeout hhost clockTimeout flags).bind fun relative w₃ _ _ => .pure ?_
  split <;> split <;> rfl

theorem stays_pollDescriptor {userdata type : ℕ}
    (hroom : Room ranges w position SIZE.subscription) :
    Stays cond ranges (pollDescriptor host position userdata type polled) w fun polled' _ =>
      polled'.ready.length ≤ polled.ready.length + 1 := by
  have hput : ∀ (event : ReadyEvent), (polled.ready ++ [event]).length ≤ polled.ready.length + 1 :=
    fun event => by simp
  refine (stays_loadNumber (hroom.sub (by omega) (by simp only [SIZE.subscription]; omega))).bind
    fun fd w₁ _ _ => meets_get_bind ?_
  dsimp only
  split
  · exact .pure (hput _)
  · split
    · refine stays_ite (fun _ => ?_) fun _ => .pure (Nat.le_succ _)
      refine (stays_onlyIf fun _ => ?_).bind fun _ w₂ _ _ => meets_get_bind (.pure (hput _))
      exact (stays_readStdin hhost 0).map fun _ _ _ _ => trivial
    · refine .pure ?_
      split
      · exact hput _
      · exact Nat.le_succ _
    · exact .pure (hput _)

theorem stays_pollLoop {n : ℕ} (hroom : Room ranges w position (n * SIZE.subscription)) :
    Stays cond ranges (pollLoop host n position polled) w fun polled' _ =>
      polled'.ready.length ≤ polled.ready.length + n := by
  induction n generalizing position polled w with
  | zero => exact .pure (le_refl _)
  | succ n ih =>
    have hfirst : Room ranges w position SIZE.subscription :=
      hroom.sub (le_refl _) (by simp only [SIZE.subscription]; omega)
    refine (stays_loadNumber (hfirst.sub (le_refl _)
      (by simp only [SIZE.subscription]; omega))).bind fun userdata w₁ hkeeps₁ _ => ?_
    refine (stays_loadNumber ((hfirst.sub (by omega)
      (by simp only [SIZE.subscription]; omega)).keeps hkeeps₁)).bind fun type w₂ hkeeps₂ _ => ?_
    have hfirst₂ := (hfirst.keeps hkeeps₁).keeps hkeeps₂
    have hone : Stays cond ranges (pollOne host type position userdata polled) w₂
        fun polled' _ => polled'.ready.length ≤ polled.ready.length + 1 := by
      refine stays_ite (fun _ => ?_) fun _ => stays_ite (fun _ => ?_) fun _ =>
        stays_answer (by decide)
      · exact (stays_pollClock hhost hfirst₂).mono (fun _ h => h) (fun _ h => h)
          fun _ _ _ h => by rw [h]; exact Nat.le_succ _
      · exact stays_pollDescriptor hhost hfirst₂
    refine hone.bind fun polled' w₃ hkeeps₃ hlength => ?_
    have hrest : Room ranges w (position + SIZE.subscription) (n * SIZE.subscription) :=
      hroom.sub (by omega) (by simp only [SIZE.subscription]; omega)
    exact (ih (((hrest.keeps hkeeps₁).keeps hkeeps₂).keeps hkeeps₃)).mono (fun _ h => h)
      (fun _ h => h) fun _ _ _ h => by omega

omit hhost in
theorem stays_putEvents {events : List ReadyEvent}
    (hroom : Room ranges w position (events.length * SIZE.event)) :
    Stays cond ranges (putEvents events position) w fun _ _ => True := by
  induction events generalizing position w with
  | nil => exact .pure trivial
  | cons event events ih =>
    rw [length_cons] at hroom
    have hfirst : Room ranges w position 32 :=
      hroom.sub (le_refl _) (by simp only [SIZE.event]; omega)
    refine (stays_storeNumber (hfirst.sub (by omega) (by omega))).bind fun _ w₁ hkeeps₁ _ => ?_
    have hfirst₁ := hfirst.keeps hkeeps₁
    refine (stays_storeNumber (hfirst₁.sub (by omega) (by omega))).bind fun _ w₂ hkeeps₂ _ => ?_
    have hfirst₂ := hfirst₁.keeps hkeeps₂
    refine (stays_storeNumber (hfirst₂.sub (by omega) (by omega))).bind fun _ w₃ hkeeps₃ _ => ?_
    have hfirst₃ := hfirst₂.keeps hkeeps₃
    refine (stays_storeNumber (hfirst₃.sub (by omega) (by omega))).bind fun _ w₄ hkeeps₄ _ => ?_
    have hfirst₄ := hfirst₃.keeps hkeeps₄
    refine (stays_storeNumber (hfirst₄.sub (by omega) (by omega))).bind fun _ w₅ hkeeps₅ _ => ?_
    have hrest : Room ranges w (position + SIZE.event) (events.length * SIZE.event) :=
      hroom.sub (by omega) (by simp only [SIZE.event]; omega)
    exact ih (((((hrest.keeps hkeeps₁).keeps hkeeps₂).keeps hkeeps₃).keeps hkeeps₄).keeps hkeeps₅)

theorem stays_sleepUntil (timeout : Option ℤ) :
    Stays cond ranges (sleepUntil host timeout) w fun _ _ => True := by
  cases timeout with
  | none => exact .pure trivial
  | some nanos =>
    exact stays_ite (fun _ => .pure trivial) fun _ =>
      (stays_ask hhost (.sleep nanos) fun _ => trivial).weaken

def pollRanges (inPtr outPtr nsubscriptions neventsPtr : ℕ) : List (ℕ × ℕ) :=
  [(inPtr, nsubscriptions * SIZE.subscription), (outPtr, nsubscriptions * SIZE.event),
    (neventsPtr, 4)]

theorem checked_poll_oneoff (inPtr outPtr nsubscriptions neventsPtr : ℕ) :
    Checked cond (pollRanges inPtr outPtr nsubscriptions neventsPtr)
      (pollRanges inPtr outPtr nsubscriptions neventsPtr)
      (poll_oneoff host inPtr outPtr nsubscriptions neventsPtr) w := by
  refine checked_cons fun hin => checked_cons fun hout => checked_cons fun hcount =>
    checked_nil (stays_require_bind (by decide) fun hne => ?_)
  have hin' : Room (pollRanges inPtr outPtr nsubscriptions neventsPtr) w inPtr
      (nsubscriptions * SIZE.subscription) := room_of_mem (by simp [pollRanges]) hin
  have hout' : Room (pollRanges inPtr outPtr nsubscriptions neventsPtr) w outPtr
      (nsubscriptions * SIZE.event) := room_of_mem (by simp [pollRanges]) hout
  have hcount' : Room (pollRanges inPtr outPtr nsubscriptions neventsPtr) w neventsPtr 4 :=
    room_of_mem (by simp [pollRanges]) hcount
  have hpos : nsubscriptions ≠ 0 := by simpa using hne
  refine (stays_pollLoop hhost hin').bind fun polled w₁ hkeeps₁ hlength => ?_
  refine stays_ite (fun _ => ?_) fun _ => ?_
  · have hfirst : Room (pollRanges inPtr outPtr nsubscriptions neventsPtr) w₁ outPtr 32 :=
      (hout'.sub (le_refl _) (by simp only [SIZE.event]; omega)).keeps hkeeps₁
    refine (stays_sleepUntil hhost polled.timeout).bind fun _ w₂ hkeeps₂ _ => ?_
    have hfirst₂ := hfirst.keeps hkeeps₂
    refine (stays_storeNumber (hfirst₂.sub (by omega) (by omega))).bind fun _ w₃ hkeeps₃ _ => ?_
    have hfirst₃ := hfirst₂.keeps hkeeps₃
    refine (stays_storeNumber (hfirst₃.sub (by omega) (by omega))).bind fun _ w₄ hkeeps₄ _ => ?_
    have hfirst₄ := hfirst₃.keeps hkeeps₄
    refine (stays_storeNumber (hfirst₄.sub (by omega) (by omega))).bind fun _ w₅ hkeeps₅ _ => ?_
    exact stays_storeNumber
      (((((hcount'.keeps hkeeps₁).keeps hkeeps₂).keeps hkeeps₃).keeps hkeeps₄).keeps hkeeps₅)
  · have hle : polled.ready.length ≤ nsubscriptions := by simpa using hlength
    have hevents : Room (pollRanges inPtr outPtr nsubscriptions neventsPtr) w₁ outPtr
        (polled.ready.length * SIZE.event) :=
      (hout'.sub (le_refl _) (by simp only [SIZE.event]; omega)).keeps hkeeps₁
    exact (stays_putEvents hevents).bind fun _ w₂ hkeeps₂ _ =>
      stays_storeNumber ((hcount'.keeps hkeeps₁).keeps hkeeps₂)

/-! ## Random bytes and sockets -/

theorem stays_randomLoop {n left : ℕ} (hturns : n = (left + 65535) / 65536)
    (hroom : Room ranges w position left) :
    Stays cond ranges (randomLoop host n position left) w fun _ _ => True := by
  induction n generalizing position left w with
  | zero => exact .pure trivial
  | succ n ih =>
    refine (stays_ask hhost (.random (min 65536 left)) fun _ => trivial).bind
      fun bytes w₁ hkeeps₁ hbytes => ?_
    have hlength : bytes.length = min 65536 left := hbytes.2.1
    refine (stays_store ((hroom.sub (le_refl _) (by omega)).keeps hkeeps₁)).bind
      fun _ w₂ hkeeps₂ _ => ?_
    by_cases hlast : left ≤ 65536
    · -- the last turn
      obtain rfl : n = 0 := by omega
      exact .pure trivial
    · refine ih (by omega) ?_
      exact ((hroom.sub (by omega) (by omega)).keeps hkeeps₁).keeps hkeeps₂

theorem checked_random_get (bufPtr bufLen : ℕ) :
    Checked cond [(bufPtr, bufLen)] [(bufPtr, bufLen)] (random_get host bufPtr bufLen) w :=
  checked_cons fun hfits => checked_nil
    (stays_randomLoop hhost rfl (room_of_mem (by simp) hfits))

end Host

theorem checked_sock_accept (hw : Tidy w) (fd fdPtr : ℕ) :
    Checked cond [(fdPtr, 4)] [(fdPtr, 4)] (sock_accept fd fdPtr) w :=
  checked_cons fun _ => checked_nil (stays_lookup_bind hw fun _ _ _ _ =>
    stays_answer (by decide))

theorem checked_sock_recv (hw : Tidy w) (fd riDataPtr riDataLen roDataLenPtr roFlagsPtr : ℕ) :
    Checked cond ((roDataLenPtr, 4) :: transferRanges w riDataPtr riDataLen roFlagsPtr)
      ((roDataLenPtr, 4) :: transferRanges w riDataPtr riDataLen roFlagsPtr)
      (sock_recv fd riDataPtr riDataLen roDataLenPtr roFlagsPtr) w := by
  refine checked_cons fun _ => checked_cons fun _ => checked_iovecs ?_ ?_
  · exact fun r hr => mem_cons_of_mem _ (mem_cons_of_mem _ hr)
  · intro w' hkeeps _ _ _
    exact stays_lookup_bind (hkeeps.tidy hw) fun _ _ _ _ => stays_answer (by decide)

theorem checked_sock_send (hw : Tidy w) (fd siDataPtr siDataLen soDataLenPtr : ℕ) :
    Checked cond (transferRanges w siDataPtr siDataLen soDataLenPtr)
      (transferRanges w siDataPtr siDataLen soDataLenPtr)
      (sock_send fd siDataPtr siDataLen soDataLenPtr) w :=
  checked_transfer fun _ hkeeps _ _ _ _ =>
    stays_lookup_bind (hkeeps.tidy hw) fun _ _ _ _ => stays_answer (by decide)

theorem checked_sock_shutdown (hw : Tidy w) (fd : ℕ) :
    Checked cond [] [] (sock_shutdown fd) w :=
  checked_nil (stays_lookup_bind hw fun _ _ _ _ => stays_answer (by decide))

end Wasi

end Tabnode
