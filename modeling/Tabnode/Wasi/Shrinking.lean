import Tabnode.Wasi.Mild

/-!
# Rights only shrink

Over any run of syscalls a descriptor opened under another has rights within those the other
hands down, and no more than its file type allows, and a descriptor's rights never grow
(`Does`, at each call). A descriptor is read only when it has none of the rights that a
change needs, nor hands one down; no call that names one changes a file or a directory, and
what is opened under one is read only too.
-/

namespace Tabnode

namespace Wasi

open Effect RIGHT OrderedMap

variable {η : Type} {condition : Prop} {parent : Option Descriptor} {w : World η}

/-! ## Syscalls that change nothing -/

theorem quiet_putStrings (chunks : List (List UInt8)) (ptr position : ℕ) :
    Quiet (putStrings chunks ptr position : Syscall η Unit) := by
  induction chunks generalizing ptr position with
  | nil => exact quiet_pure _
  | cons chunk rest ih =>
    exact (quiet_storeNumber _ _ _).bind fun _ => (quiet_store _ _).bind fun _ => ih _ _

theorem quiet_stringsGet (strings : List Str) (ptr bufPtr : ℕ) :
    Quiet (stringsGet strings ptr bufPtr : Syscall η Unit) :=
  (quiet_checkFits _ _).bind fun _ => (quiet_checkFits _ _).bind fun _ => quiet_putStrings _ _ _

theorem quiet_stringsSizesGet (strings : List Str) (countPtr bufSizePtr : ℕ) :
    Quiet (stringsSizesGet strings countPtr bufSizePtr : Syscall η Unit) :=
  (quiet_checkFits _ _).bind fun _ => (quiet_checkFits _ _).bind fun _ =>
    (quiet_storeNumber _ _ _).bind fun _ => quiet_storeNumber _ _ _

theorem quiet_clock_res_get (clockId ptr : ℕ) :
    Quiet (clock_res_get clockId ptr : Syscall η Unit) :=
  (quiet_checkFits _ _).bind fun _ => (quiet_require _ _).bind fun _ => quiet_storeNumber _ _ _

theorem quiet_fd_advise (fd advice : ℕ) : Quiet (fd_advise fd advice : Syscall η Unit) :=
  (quiet_lookup _ _ _).bind fun _ => quiet_require _ _

theorem quiet_lookupOnly (fd : ℕ) (rights : Rights) :
    Quiet (do let _ ← lookup fd rights : Syscall η Unit) :=
  (quiet_lookup _ _ _).bind fun _ => quiet_pure _

theorem quiet_lookupRefused (fd : ℕ) (rights : Rights) (errno : Errno) :
    Quiet (do let _ ← lookup fd rights; answer errno : Syscall η Unit) :=
  (quiet_lookup _ _ _).bind fun _ => quiet_answer _

theorem quiet_fd_fdstat_get (fd ptr : ℕ) : Quiet (fd_fdstat_get fd ptr : Syscall η Unit) :=
  (quiet_checkFits _ _).bind fun _ => (quiet_lookup _ _ _).bind fun _ =>
    (quiet_storeNumber _ _ _).bind fun _ => (quiet_storeNumber _ _ _).bind fun _ =>
      (quiet_storeNumber _ _ _).bind fun _ => quiet_storeNumber _ _ _

theorem quiet_fd_prestat_get (fd ptr : ℕ) : Quiet (fd_prestat_get fd ptr : Syscall η Unit) :=
  (quiet_checkFits _ _).bind fun _ => (quiet_lookup _ _ _).bind fun _ =>
    (quiet_require _ _).bind fun _ => (quiet_storeNumber _ _ _).bind fun _ =>
      quiet_storeNumber _ _ _

theorem quiet_fd_prestat_dir_name (fd ptr len : ℕ) :
    Quiet (fd_prestat_dir_name fd ptr len : Syscall η Unit) :=
  (quiet_checkFits _ _).bind fun _ => (quiet_lookup _ _ _).bind fun _ =>
    (quiet_require _ _).bind fun _ => (quiet_require _ _).bind fun _ => quiet_store _ _

theorem quiet_fd_tell (fd ptr : ℕ) : Quiet (fd_tell fd ptr : Syscall η Unit) := by
  refine (quiet_checkFits _ _).bind fun _ => (quiet_lookup _ _ _).bind fun d => ?_
  cases d.kind with
  | file => exact quiet_storeNumber _ _ _
  | stream | dir => exact quiet_answer _

theorem quiet_putEvents (events : List ReadyEvent) (position : ℕ) :
    Quiet (putEvents events position : Syscall η Unit) := by
  induction events generalizing position with
  | nil => exact quiet_pure _
  | cons event rest ih =>
    exact (quiet_storeNumber _ _ _).bind fun _ => (quiet_storeNumber _ _ _).bind fun _ =>
      (quiet_storeNumber _ _ _).bind fun _ => (quiet_storeNumber _ _ _).bind fun _ =>
        (quiet_storeNumber _ _ _).bind fun _ => ih _

variable (host : Host η)

theorem quiet_clock_time_get (clockId ptr : ℕ) : Quiet (clock_time_get host clockId ptr) := by
  refine (quiet_checkFits _ _).bind fun _ => ?_
  split
  · exact (quiet_realtimeNanos host).bind fun _ => quiet_storeNumber _ _ _
  · exact (quiet_monotonicNanos host).bind fun _ => quiet_storeNumber _ _ _
  · exact (quiet_monotonicNanos host).bind fun _ => quiet_storeNumber _ _ _
  · exact (quiet_monotonicNanos host).bind fun _ => quiet_storeNumber _ _ _
  · exact quiet_answer _

theorem quiet_fd_filestat_get (fd ptr : ℕ) : Quiet (fd_filestat_get host fd ptr) :=
  (quiet_checkFits _ _).bind fun _ => (quiet_lookup _ _ _).bind fun d =>
    (quiet_filestatOfDescriptor host d).bind fun _ => quiet_writeFilestat _ _

theorem quiet_preadLoop (hostFd : ℕ) (iovs : List (ℕ × ℕ)) (position total : ℤ) :
    Quiet (preadLoop host hostFd iovs position total) := by
  induction iovs generalizing position total with
  | nil => exact quiet_pure _
  | cons iov iovs ih =>
    exact (quiet_ask host _ rfl).bind fun _ => (quiet_store _ _).bind fun _ =>
      Quiet.ite (quiet_pure _) (ih _ _)

theorem quiet_fd_pread (fd iovsPtr iovsLen offset ptr : ℕ) :
    Quiet (fd_pread host fd iovsPtr iovsLen offset ptr) := by
  refine (quiet_checkFits _ _).bind fun _ => (quiet_iovecsOf _ _).bind fun iovs =>
    (quiet_lookup _ _ _).bind fun d => ?_
  cases d.kind with
  | file hostFd => exact (quiet_preadLoop host _ _ _ _).bind fun _ => quiet_storeNumber _ _ _
  | stream | dir => exact quiet_answer _

theorem quiet_direntIno (hostPath name : Str) : Quiet (direntIno host hostPath name) := by
  refine (quiet_ask host _ rfl).attempt.bind fun stats => ?_
  cases stats with
  | none | some _ => exact quiet_pure _

theorem quiet_readdirLoop (hostPath : Str) (ptr len index : ℕ) (entries : List HostDirent)
    (used : ℕ) : Quiet (readdirLoop host hostPath ptr len index entries used) := by
  induction entries generalizing index used with
  | nil => exact quiet_pure _
  | cons entry entries ih =>
    refine Quiet.ite (quiet_pure _) ?_
    refine (quiet_direntIno host _ _).bind fun _ => (quiet_storeNumber _ _ _).bind fun _ =>
      (quiet_storeNumber _ _ _).bind fun _ => (quiet_storeNumber _ _ _).bind fun _ =>
        (quiet_storeNumber _ _ _).bind fun _ => (quiet_store _ _).bind fun _ => ?_
    exact Quiet.ite (quiet_pure _) (ih _ _)

theorem quiet_fd_readdir (fd ptr len cookie usedPtr : ℕ) :
    Quiet (fd_readdir host fd ptr len cookie usedPtr) :=
  (quiet_checkFits _ _).bind fun _ => (quiet_checkFits _ _).bind fun _ =>
    (quiet_lookup _ _ _).bind fun _ => (quiet_require _ _).bind fun _ =>
      (quiet_ask host _ rfl).bind fun _ => (quiet_readdirLoop host _ _ _ _ _ _).bind fun _ =>
        quiet_storeNumber _ _ _

theorem quiet_writeStreamLoop (stream : Stream) (iovs : List (ℕ × ℕ)) (total : ℤ) :
    Quiet (writeStreamLoop host stream iovs total) := by
  induction iovs generalizing total with
  | nil => exact quiet_pure _
  | cons iov iovs ih =>
    exact (quiet_bytesAt _ _).bind fun _ => (quiet_writeStream host _ _).bind fun _ => ih _

theorem quiet_readStreamLoop (iovs : List (ℕ × ℕ)) (total : ℤ) :
    Quiet (readStreamLoop host iovs total) := by
  induction iovs generalizing total with
  | nil => exact quiet_pure _
  | cons iov iovs ih =>
    exact (quiet_readStdin host _).bind fun _ => (quiet_store _ _).bind fun _ =>
      Quiet.ite (quiet_pure _) (ih _)

theorem quiet_path_filestat_get (fd flags ptr len bufPtr : ℕ) :
    Quiet (path_filestat_get host fd flags ptr len bufPtr) :=
  (quiet_checkFits _ _).bind fun _ => (quiet_checkFits _ _).bind fun _ =>
    (quiet_lookup _ _ _).bind fun _ => (quiet_text _ _).bind fun _ =>
      (quiet_resolve host _ _ _).bind fun _ => (quiet_ask host _ rfl).bind fun _ =>
        quiet_writeFilestat _ _

theorem quiet_path_link (oldFd p n newFd q m : ℕ) :
    Quiet (path_link oldFd p n newFd q m : Syscall η Unit) :=
  (quiet_checkFits _ _).bind fun _ => (quiet_checkFits _ _).bind fun _ =>
    (quiet_lookup _ _ _).bind fun _ => quiet_lookupRefused _ _ _

theorem quiet_path_readlink (fd ptr len bufPtr bufLen usedPtr : ℕ) :
    Quiet (path_readlink host fd ptr len bufPtr bufLen usedPtr) :=
  (quiet_checkFits _ _).bind fun _ => (quiet_checkFits _ _).bind fun _ =>
    (quiet_checkFits _ _).bind fun _ => (quiet_lookup _ _ _).bind fun _ =>
      (quiet_text _ _).bind fun _ => (quiet_resolve host _ _ _).bind fun _ =>
        (quiet_require _ _).bind fun _ => (quiet_ask host _ rfl).bind fun _ =>
          (quiet_require _ _).bind fun _ => (quiet_store _ _).bind fun _ => quiet_storeNumber _ _ _

theorem quiet_relativeTimeout (clockTimeout flags : ℕ) :
    Quiet (relativeTimeout host clockTimeout flags) :=
  Quiet.ite ((quiet_realtimeNanos host).map _) (quiet_pure _)

theorem quiet_pollClock (position userdata : ℕ) (polled : Polled) :
    Quiet (pollClock host position userdata polled) :=
  (quiet_loadNumber _ _).bind fun _ => (quiet_loadNumber _ _).bind fun _ =>
    (quiet_relativeTimeout host _ _).bind fun _ => quiet_pure _

theorem quiet_pollDescriptor (position userdata type : ℕ) (polled : Polled) :
    Quiet (pollDescriptor host position userdata type polled) := by
  refine (quiet_loadNumber _ _).bind fun fd => quiet_get.bind fun w => ?_
  cases w.lookup fd POLL_FD_READWRITE with
  | error errno => exact quiet_pure _
  | ok d =>
    dsimp only
    split
    · refine Quiet.ite ?_ (quiet_pure _)
      exact (((quiet_readStdin host 0).map _).onlyIf).bind fun _ =>
        quiet_get.bind fun _ => quiet_pure _
    · exact quiet_pure _
    · exact quiet_pure _

theorem quiet_pollLoop (n position : ℕ) (polled : Polled) :
    Quiet (pollLoop host n position polled) := by
  induction n generalizing position polled with
  | zero => exact quiet_pure _
  | succ n ih =>
    refine (quiet_loadNumber _ _).bind fun _ => (quiet_loadNumber _ _).bind fun _ =>
      Quiet.bind ?_ fun _ => ih _ _
    exact Quiet.ite (quiet_pollClock host _ _ _)
      (Quiet.ite (quiet_pollDescriptor host _ _ _ _) (quiet_answer _))

theorem quiet_poll_oneoff (p q n r : ℕ) : Quiet (poll_oneoff host p q n r) := by
  refine (quiet_checkFits _ _).bind fun _ => (quiet_checkFits _ _).bind fun _ =>
    (quiet_checkFits _ _).bind fun _ => (quiet_require _ _).bind fun _ =>
      (quiet_pollLoop host _ _ _).bind fun polled => Quiet.ite ?_ ?_
  · refine Quiet.bind ?_ fun _ => (quiet_storeNumber _ _ _).bind fun _ =>
      (quiet_storeNumber _ _ _).bind fun _ => (quiet_storeNumber _ _ _).bind fun _ =>
        quiet_storeNumber _ _ _
    cases polled.timeout with
    | none => exact quiet_pure _
    | some timeout => exact quiet_sleepNanos host _
  · exact (quiet_putEvents _ _).bind fun _ => quiet_storeNumber _ _ _

theorem quiet_proc_raise (signal : ℕ) : Quiet (proc_raise host signal) := by
  unfold proc_raise
  split
  · exact quiet_answer _
  · exact (quiet_ask host _ rfl).catching fun e => Quiet.ite (quiet_answer _) (quiet_throw _)

theorem quiet_randomLoop (n position left : ℕ) : Quiet (randomLoop host n position left) := by
  induction n generalizing position left with
  | zero => exact quiet_pure _
  | succ n ih =>
    exact (quiet_ask host _ rfl).bind fun _ => (quiet_store _ _).bind fun _ => ih _ _

theorem quiet_sock_recv (fd p n q r : ℕ) : Quiet (sock_recv fd p n q r : Syscall η Unit) :=
  (quiet_checkFits _ _).bind fun _ => (quiet_checkFits _ _).bind fun _ =>
    (quiet_iovecsOf _ _).bind fun _ => quiet_lookupRefused _ _ _

theorem quiet_sock_send (fd p n q : ℕ) : Quiet (sock_send fd p n q : Syscall η Unit) :=
  (quiet_checkFits _ _).bind fun _ => (quiet_iovecsOf _ _).bind fun _ => quiet_lookupRefused _ _ _

/-! ## Syscalls that may change something -/

def PATH_CHANGING : Rights :=
  PATH_CREATE_DIRECTORY ||| PATH_CREATE_FILE ||| PATH_RENAME_SOURCE ||| PATH_RENAME_TARGET |||
    PATH_FILESTAT_SET_SIZE ||| PATH_FILESTAT_SET_TIMES ||| PATH_SYMLINK |||
    PATH_REMOVE_DIRECTORY ||| PATH_UNLINK_FILE

def FD_CHANGING : Rights := FD_WRITE ||| FD_ALLOCATE ||| FD_FILESTAT_SET_SIZE

def Lacks (held rights : Rights) : Prop := held &&& rights = 0

instance (held rights : Rights) : Decidable (Lacks held rights) :=
  inferInstanceAs (Decidable (held &&& rights = 0))

variable {held rights : Rights}

theorem lacks_iff :
    Lacks held rights ↔ ∀ i < 64, held.getLsbD i = true → rights.getLsbD i = false := by
  rw [Lacks, BitVec.eq_of_getLsbD_eq_iff]
  refine forall₂_congr fun i hi => ?_
  rw [BitVec.getLsbD_and]
  cases held.getLsbD i <;> cases rights.getLsbD i <;> simp

theorem Lacks.within {held' : Rights} (h : Lacks held rights)
    (hw : Within held' held) : Lacks held' rights :=
  lacks_iff.2 fun i hi hheld => lacks_iff.1 h i hi (within_iff.1 hw i hi hheld)

theorem Lacks.mono {rights' : Rights} (h : Lacks held rights)
    (hw : Within rights' rights) : Lacks held rights' :=
  lacks_iff.2 fun i hi hheld => by
    have hnot := lacks_iff.1 h i hi hheld
    by_contra hright
    rw [within_iff.1 hw i hi (by simpa using hright)] at hnot
    cases hnot

variable {right : Rights}

/-- A descriptor that lacks rights of a mask does not have one of its rights. -/
theorem Lacks.not_within (h : Lacks held rights) (hright : Within right rights)
    (hne : right ≠ 0) : ¬ Within right held := by
  intro hheld
  refine hne (BitVec.eq_of_getLsbD_eq fun i hi => ?_)
  by_contra hbit
  have hbit : right.getLsbD i = true := by simpa using hbit
  have hnot := lacks_iff.1 h i hi (within_iff.1 hheld i hi hbit)
  rw [within_iff.1 hright i hi hbit] at hnot
  cases hnot

/-- A descriptor without a right to change anything, and that hands none down. A directory
may hold the rights of a file, which it does not use. -/
structure ReadOnly (d : Descriptor) : Prop where
  paths : Lacks d.rightsBase (PATH_CHANGING ||| FD_FILESTAT_SET_TIMES)
  files : d.kind = .dir ∨ Lacks d.rightsBase FD_CHANGING
  inheriting : Lacks d.rightsInheriting (PATH_CHANGING ||| FD_FILESTAT_SET_TIMES ||| FD_CHANGING)

variable {d : Descriptor}

theorem ReadOnly.narrows {d' : Descriptor} (h : ReadOnly d) (hn : Narrows d d') : ReadOnly d' where
  paths := h.paths.within hn.base
  files := h.files.imp hn.kind.trans fun hf => hf.within hn.base
  inheriting := h.inheriting.within hn.inheriting

variable {p : Descriptor}

theorem ReadOnly.opened (h : ReadOnly p) (ho : OpenedUnder p d) : ReadOnly d where
  paths := (h.inheriting.within ho.base).mono (by decide)
  files := .inr ((h.inheriting.within ho.base).mono (by decide))
  inheriting := h.inheriting.within ho.inheriting

theorem not_readOnly_of_path (h : Within right d.rightsBase)
    (hright : Within right (PATH_CHANGING ||| FD_FILESTAT_SET_TIMES)) (hne : right ≠ 0) :
    ¬ ReadOnly d := fun hr => hr.paths.not_within hright hne h

theorem not_readOnly_of_file (h : Within right d.rightsBase) (hright : Within right FD_CHANGING)
    (hne : right ≠ 0) (hkind : d.kind ≠ .dir) :
    ¬ ReadOnly d := fun hr => hr.files.elim hkind fun hf => hf.not_within hright hne h

def MayChange (w : World η) (fds : List ℕ) : Prop :=
  ∀ fd ∈ fds, ∀ d, find fd w.table = some d → ¬ ReadOnly d

variable {fd : ℕ}

theorem mayChange_of_not_readOnly (hfind : find fd w.table = some d)
    (h : ¬ ReadOnly d) : MayChange w [fd] := by
  intro fd' hmem d' hfind'
  rw [List.mem_singleton.1 hmem, hfind] at hfind'
  cases hfind'
  exact h

theorem mild_ask {call : HostCall} (h : condition) : Mild condition parent (ask host call) w :=
  (meets_ask host _ (fun _ => h) fun _ _ => trivial).mono (fun _ h => h) (fun _ h => h)
    fun _ _ _ _ => trivial

theorem Mild.onlyIf {p : Bool} {x : Syscall η Unit} (h : Mild condition parent x w) :
    Mild condition parent (onlyIf p x) w := by
  cases p with
  | true => exact h
  | false => exact quiet_pure _ _ _ _

theorem mild_update {d' : Descriptor} (hfind : find fd w.table = some d)
    (hnarrow : Narrows d d') : Mild condition parent (update fd d' : Syscall η Unit) w :=
  (meets_update hfind hnarrow).mono (fun _ h => h) (fun _ h => h) fun _ _ _ _ => trivial

theorem narrows_cursor (d : Descriptor) (position : ℤ) (fdflags : ℕ) :
    Narrows d { d with position := position, fdflags := fdflags } :=
  ⟨rfl, rfl, rfl, rfl, rfl, .refl _, .refl _⟩

theorem mild_fd_allocate (fd offset len : ℕ) :
    Mild (MayChange w [fd]) parent (fd_allocate host fd offset len) w := by
  refine meets_lookup_bind trivial trivial fun d hfind hbase _ => ?_
  cases hkind : d.kind with
  | file hostFd =>
    have hchange : MayChange w [fd] := mayChange_of_not_readOnly hfind
      (not_readOnly_of_file hbase (by decide) (by decide) (by simp [hkind]))
    exact (quiet_sizeOf host d).andThen fun _ _ => (mild_ask host hchange).onlyIf
  | stream | dir => exact quiet_answer _ _ _ _

theorem mild_fd_close (fd : ℕ) : Mild condition parent (fd_close host fd) w := by
  refine meets_lookup_bind trivial trivial fun d _ _ _ => ?_
  exact (quiet_closeHost host d).andThen fun _ _ => meets_erase fd

theorem mild_fd_fdstat_set_flags (fd flags : ℕ) :
    Mild condition parent (fd_fdstat_set_flags fd flags : Syscall η Unit) w :=
  meets_lookup_bind trivial trivial fun d hfind _ _ => mild_update hfind (narrows_cursor d _ _)

theorem mild_fd_fdstat_set_rights (fd : ℕ) (base inheriting : Rights) :
    Mild condition parent (fd_fdstat_set_rights fd base inheriting : Syscall η Unit) w := by
  refine meets_lookup_bind trivial trivial fun d hfind _ _ => ?_
  refine meets_require_bind (fun _ => trivial) fun hwithin => mild_update hfind ?_
  rw [Bool.and_eq_true, decide_eq_true_iff, decide_eq_true_iff] at hwithin
  exact ⟨rfl, rfl, rfl, rfl, rfl, hwithin.1, hwithin.2⟩

theorem mild_fd_filestat_set_size (fd size : ℕ) :
    Mild (MayChange w [fd]) parent (fd_filestat_set_size host fd size) w := by
  refine meets_lookup_bind trivial trivial fun d hfind hbase _ => ?_
  cases hkind : d.kind with
  | file hostFd =>
    refine mild_ask host (mayChange_of_not_readOnly hfind ?_)
    exact not_readOnly_of_file hbase (by decide) (by decide) (by simp [hkind])
  | stream | dir => exact quiet_answer _ _ _ _

theorem mild_setTimes (h : condition) (hostPath : Str) (times : JsNumber × JsNumber) :
    Mild condition parent (setTimes host hostPath times) w :=
  meets_require_bind (fun _ => trivial) fun _ => mild_ask host h

theorem mild_fd_filestat_set_times (fd atim mtim flags : ℕ) :
    Mild (MayChange w [fd]) parent (fd_filestat_set_times host fd atim mtim flags) w := by
  refine meets_lookup_bind trivial trivial fun d hfind hbase _ => ?_
  have hchange : MayChange w [fd] := mayChange_of_not_readOnly hfind
    (not_readOnly_of_path hbase (by decide) (by decide))
  have htimes : Mild (MayChange w [fd]) parent (do
      let times ← timesToSet host (some d) d.hostPath atim mtim flags
      setTimes host d.hostPath times) w :=
    (quiet_timesToSet host _ _ _ _ _).andThen fun _ _ => mild_setTimes host hchange _ _
  cases d.kind with
  | stream => exact quiet_answer _ _ _ _
  | file | dir => exact htimes

theorem meets_iovecsOf_table (iovsPtr iovsLen : ℕ) :
    Meets (Does (Event.Changes condition) parent) (fun _ => True)
      (iovecsOf iovsPtr iovsLen : Syscall η (List (ℕ × ℕ))) w fun _ w' => w'.table = w.table := by
  refine meets_checkFits_bind (fun _ => trivial) fun _ => ?_
  refine (meets_iovecsFrom (fun _ _ _ _ => meets_loadNumber (fun _ => trivial) fun _ => trivial)
    fun _ => trivial).mono
    (fun _ h => h) (fun _ h => h) fun _ _ _ h => h.2.2.table

theorem meets_sizeOf_table (d : Descriptor) :
    Meets (Does (Event.Changes condition) parent) (fun _ => True) (sizeOf host d) w
      fun _ w' => w'.table = w.table := by
  unfold sizeOf
  cases d.kind with
  | stream | dir => exact .pure rfl
  | file hostFd =>
    refine (meets_ask host (.fstatSync hostFd) (fun hm => by cases hm)
      fun _ _ => trivial).map ?_
    rintro stats w' - ⟨-, -, htable, -⟩
    exact htable

theorem meets_writePosition_table (d : Descriptor) :
    Meets (Does (Event.Changes condition) parent) (fun _ => True) (writePosition host d) w
      fun _ w' => w'.table = w.table := by
  unfold writePosition
  split
  · exact (meets_sizeOf_table host d).map fun _ _ _ htable => htable
  · exact .pure rfl

theorem meets_seekBase_table (d : Descriptor) (whence : ℕ) :
    Meets (Does (Event.Changes condition) parent) (fun _ => True) (seekBase host d whence) w
      fun _ w' => w'.table = w.table := by
  unfold seekBase
  split
  · exact .pure rfl
  · exact .pure rfl
  · exact (meets_sizeOf_table host d).map fun _ _ _ htable => htable
  · exact meets_answer trivial

theorem meets_closeHost_table (d : Descriptor) :
    Meets (Does (Event.Changes condition) parent) (fun _ => True) (closeHost host d) w
      fun _ w' => w'.table = w.table := by
  unfold closeHost
  cases d.kind with
  | stream | dir => exact .pure rfl
  | file hostFd =>
    exact (meets_ask host _ (fun hm => by cases hm) fun _ _ => trivial).mono (fun _ h => h)
      (fun _ h => h) fun _ _ _ h => h.2.2.1

theorem mild_pwriteLoop (h : condition) (hostFd : ℕ) (iovs : List (ℕ × ℕ))
    (position total : ℤ) :
    Mild condition parent (pwriteLoop host hostFd iovs position total) w := by
  induction iovs generalizing position total w with
  | nil => exact quiet_pure _ _ _ _
  | cons iov iovs ih =>
    exact (quiet_bytesAt _ _).andThen fun _ _ => (mild_ask host h).bind fun _ _ => ih _ _

theorem mild_fd_pwrite (fd iovsPtr iovsLen offset ptr : ℕ) :
    Mild (MayChange w [fd]) parent (fd_pwrite host fd iovsPtr iovsLen offset ptr) w := by
  refine meets_checkFits_bind (fun _ => trivial) fun _ => ?_
  refine (meets_iovecsOf_table _ _).bind fun iovs w' _ htable => ?_
  refine meets_lookup_bind trivial trivial fun d hfind hbase _ => ?_
  cases hkind : d.kind with
  | file hostFd =>
    have hchange : MayChange w [fd] := mayChange_of_not_readOnly (htable ▸ hfind)
      (not_readOnly_of_file hbase.of_or_left (by decide) (by decide) (by simp [hkind]))
    exact (mild_pwriteLoop host hchange _ _ _ _).bind fun _ _ => quiet_storeNumber _ _ _ _ _ _
  | stream | dir => exact quiet_answer _ _ _ _

theorem mild_readLoop (fd hostFd : ℕ) (iovs : List (ℕ × ℕ)) (d : Descriptor) (total : ℤ)
    (hfind : find fd w.table = some d) :
    Mild condition parent (readLoop host fd hostFd iovs d total) w := by
  induction iovs generalizing d total w with
  | nil => exact quiet_pure _ _ _ _
  | cons iov iovs ih =>
    refine (meets_ask host _ (fun hm => by cases hm) fun _ _ => trivial).bind ?_
    rintro bytes w₁ - ⟨-, -, htable₁, -⟩
    refine (meets_store (fun _ => trivial) fun _ => trivial).bind ?_
    rintro _ w₂ - ⟨htable₂, -⟩
    rw [← htable₁, ← htable₂] at hfind
    refine (meets_update hfind (narrows_cursor d _ _)).bind ?_
    rintro _ w₃ - ⟨hfind₃, -⟩
    by_cases hless : List.length bytes < iov.2
    · rw [if_pos hless]
      exact quiet_pure _ _ _ _
    · rw [if_neg hless]
      exact ih _ _ hfind₃

theorem mild_fd_read (fd iovsPtr iovsLen ptr : ℕ) :
    Mild condition parent (fd_read host fd iovsPtr iovsLen ptr) w := by
  refine meets_checkFits_bind (fun _ => trivial) fun _ => ?_
  refine (meets_iovecsOf_table _ _).bind fun iovs w' _ htable => ?_
  refine meets_lookup_bind trivial trivial fun d hfind _ _ => ?_
  cases d.kind with
  | file hostFd =>
    exact (mild_readLoop host fd hostFd iovs d 0 hfind).bind fun _ _ =>
      quiet_storeNumber _ _ _ _ _ _
  | stream stream =>
    refine meets_require_bind (fun _ => trivial) fun _ => ?_
    exact (quiet_readStreamLoop host _ _).andThen fun _ _ =>
      quiet_storeNumber _ _ _ _ _ _
  | dir => exact quiet_answer _ _ _ _

theorem mild_fd_renumber (source target : ℕ) :
    Mild condition parent (fd_renumber host source target) w := by
  unfold fd_renumber
  split
  · exact quiet_pure _ _ _ _
  · refine meets_get_bind ?_
    cases hsource : find source w.table with
    | none => exact quiet_answer _ _ _ _
    | some moved =>
      cases find target w.table with
      | none => exact quiet_answer _ _ _ _
      | some closed =>
        refine (meets_closeHost_table host closed).bind fun _ w' _ htable => ?_
        exact meets_move (htable ▸ hsource)

theorem mild_fd_seek (fd : ℕ) (offset : ℤ) (whence ptr : ℕ) :
    Mild condition parent (fd_seek host fd offset whence ptr) w := by
  refine meets_checkFits_bind (fun _ => trivial) fun _ => ?_
  refine meets_lookup_bind trivial trivial fun d hfind _ _ => ?_
  split
  · refine (meets_seekBase_table host d whence).bind fun base w' _ htable => ?_
    refine meets_require_bind (fun _ => trivial) fun _ => ?_
    exact (mild_update (htable ▸ hfind) (narrows_cursor d _ _)).bind fun _ _ =>
      quiet_storeNumber _ _ _ _ _ _
  · exact quiet_answer _ _ _ _

theorem mild_writeLoop (h : condition) (fd hostFd : ℕ) (iovs : List (ℕ × ℕ)) (d : Descriptor)
    (total : ℤ) (hfind : find fd w.table = some d) :
    Mild condition parent (writeLoop host fd hostFd iovs d total) w := by
  induction iovs generalizing d total w with
  | nil => exact quiet_pure _ _ _ _
  | cons iov iovs ih =>
    refine (meets_writePosition_table host d).bind fun position w₁ _ htable₁ => ?_
    refine (meets_bytesAt trivial).bind ?_
    rintro bytes w₂ - ⟨-, htable₂, -⟩
    refine (meets_ask host _ (fun _ => h) fun _ _ => trivial).bind ?_
    rintro count w₃ - ⟨-, -, htable₃, -⟩
    rw [← htable₁, ← htable₂, ← htable₃] at hfind
    refine (meets_update hfind (narrows_cursor d _ _)).bind ?_
    rintro _ w₄ - ⟨hfind₄, -⟩
    exact ih _ _ hfind₄

theorem mild_fd_write (fd iovsPtr iovsLen ptr : ℕ) :
    Mild (MayChange w [fd]) parent (fd_write host fd iovsPtr iovsLen ptr) w := by
  refine meets_checkFits_bind (fun _ => trivial) fun _ => ?_
  refine (meets_iovecsOf_table _ _).bind fun iovs w' _ htable => ?_
  refine meets_lookup_bind trivial trivial fun d hfind hbase _ => ?_
  cases hkind : d.kind with
  | file hostFd =>
    have hchange : MayChange w [fd] := mayChange_of_not_readOnly (htable ▸ hfind)
      (not_readOnly_of_file hbase (by decide) (by decide) (by simp [hkind]))
    exact (mild_writeLoop host hchange fd hostFd iovs d 0 hfind).bind fun _ _ =>
      quiet_storeNumber _ _ _ _ _ _
  | stream stream =>
    refine meets_require_bind (fun _ => trivial) fun _ => ?_
    exact (quiet_writeStreamLoop host _ _ _).andThen fun _ _ =>
      quiet_storeNumber _ _ _ _ _ _
  | dir => exact quiet_answer _ _ _ _

/-- A syscall on a path: what it does comes after a lookup that asks for a right to change
paths. -/
theorem mayChange_of_lookup (hfind : find fd w.table = some d)
    (hbase : Within right d.rightsBase)
    (hright : Within right (PATH_CHANGING ||| FD_FILESTAT_SET_TIMES)) (hne : right ≠ 0) :
    MayChange w [fd] :=
  mayChange_of_not_readOnly hfind (not_readOnly_of_path hbase hright hne)

theorem mild_path {f : Descriptor → Resolved → Syscall η Unit} (ptr len flags : ℕ)
    (hright : Within right (PATH_CHANGING ||| FD_FILESTAT_SET_TIMES)) (hne : right ≠ 0)
    (hf : ∀ d resolved w', MayChange w [fd] → Mild (MayChange w [fd]) parent (f d resolved) w') :
    Mild (MayChange w [fd]) parent (do
      checkFits ptr len
      let descriptor ← lookup fd right
      let resolved ← resolve host descriptor (← text ptr len) flags
      f descriptor resolved) w := by
  refine meets_checkFits_bind (fun _ => trivial) fun _ => ?_
  refine meets_lookup_bind trivial trivial fun d hfind hbase _ => ?_
  have hchange := mayChange_of_lookup hfind hbase hright hne
  exact (quiet_text _ _).andThen fun _ _ => (quiet_resolve host _ _ _).andThen fun _ w' =>
    hf _ _ w' hchange

theorem mild_path_create_directory (fd ptr len : ℕ) :
    Mild (MayChange w [fd]) parent (path_create_directory host fd ptr len) w :=
  mild_path host ptr len 0 (by decide) (by decide) fun _ _ _ hchange =>
    (quiet_ask host _ rfl).andThen fun _ _ => (quiet_require _ _).andThen fun _ _ =>
      (quiet_ask host _ rfl).andThen fun _ _ => (quiet_require _ _).andThen fun _ _ =>
        (quiet_ask host _ rfl).andThen fun _ _ => (quiet_require _ _).andThen fun _ _ =>
          mild_ask host hchange

theorem mild_path_filestat_set_times (fd flags ptr len atim mtim fstFlags : ℕ) :
    Mild (MayChange w [fd]) parent
      (path_filestat_set_times host fd flags ptr len atim mtim fstFlags) w :=
  mild_path host ptr len flags (by decide) (by decide) fun _ _ _ hchange =>
    (quiet_timesToSet host _ _ _ _ _).andThen fun _ _ => mild_setTimes host hchange _ _

theorem mild_path_remove_directory (fd ptr len : ℕ) :
    Mild (MayChange w [fd]) parent (path_remove_directory host fd ptr len) w :=
  mild_path host ptr len 0 (by decide) (by decide) fun _ _ _ hchange =>
    (quiet_ask host _ rfl).andThen fun _ _ => (quiet_require _ _).andThen fun _ _ =>
      (quiet_ask host _ rfl).andThen fun _ _ => (quiet_require _ _).andThen fun _ _ =>
        (quiet_ask host _ rfl).andThen fun _ _ => (quiet_require _ _).andThen fun _ _ =>
          mild_ask host hchange

theorem mild_path_rename (oldFd p n newFd q m : ℕ) :
    Mild (MayChange w [oldFd, newFd]) parent (path_rename host oldFd p n newFd q m) w := by
  refine meets_checkFits_bind (fun _ => trivial) fun _ =>
    meets_checkFits_bind (fun _ => trivial) fun _ => ?_
  refine meets_lookup_bind trivial trivial fun source hsource hbase _ => ?_
  refine meets_lookup_bind trivial trivial fun target htarget hbase' _ => ?_
  have hold := mayChange_of_lookup hsource hbase (by decide) (by decide)
  have hnew := mayChange_of_lookup htarget hbase' (by decide) (by decide)
  have hchange : MayChange w [oldFd, newFd] := by
    intro fd hmem
    rcases List.mem_pair.1 hmem with rfl | rfl
    · exact hold fd (List.mem_singleton_self fd)
    · exact hnew fd (List.mem_singleton_self fd)
  exact (quiet_text _ _).andThen fun _ _ => (quiet_resolve host _ _ _).andThen
    fun _ _ => (quiet_text _ _).andThen fun _ _ =>
      (quiet_resolve host _ _ _).andThen fun _ _ => mild_ask host hchange

theorem mild_path_symlink (p n fd q m : ℕ) :
    Mild (MayChange w [fd]) parent (path_symlink host p n fd q m) w :=
  meets_checkFits_bind (fun _ => trivial) fun _ =>
    mild_path host q m 0 (by decide) (by decide) fun _ _ _ hchange =>
      (quiet_require _ _).andThen fun _ _ => (quiet_text _ _).andThen fun _ _ =>
        mild_ask host hchange

theorem mild_path_unlink_file (fd ptr len : ℕ) :
    Mild (MayChange w [fd]) parent (path_unlink_file host fd ptr len) w :=
  mild_path host ptr len 0 (by decide) (by decide) fun _ _ _ hchange =>
    (quiet_ask host _ rfl).andThen fun _ _ => (quiet_require _ _).andThen fun _ _ =>
      (quiet_ask host _ rfl).andThen fun _ _ => (quiet_require _ _).andThen fun _ _ =>
        mild_ask host hchange

/-! ## Opening -/

variable {wanted inheriting : Rights}

/-- An open that makes or empties a file needs a right of the directory for it. -/
theorem openRequest_mutates {oFlags fdFlags : ℕ}
    (h : (hasFlag (openRequest oFlags wanted inheriting fdFlags).flags O_CREAT ||
      hasFlag (openRequest oFlags wanted inheriting fdFlags).flags O_TRUNC) = true) :
    hasFlag oFlags OFLAG.CREAT = true ∨ hasFlag oFlags OFLAG.TRUNC = true := by
  by_contra hnone
  rw [not_or, Bool.not_eq_true, Bool.not_eq_true] at hnone
  revert h
  simp only [openRequest, hnone.1, hnone.2, Bool.false_eq_true, if_false]
  split_ifs <;> decide

/-- The rights asked for are among those that an open needs of what the directory hands
down. -/
theorem within_neededInheriting (oFlags fdFlags : ℕ)
    (h : Within (openRequest oFlags wanted inheriting fdFlags).neededInheriting held) :
    Within wanted held ∧ Within inheriting held :=
  within_or_iff.1 h.of_or_left.of_or_left.of_or_left

theorem mild_openDirectory (hparent : parent = some p) (resolved : Resolved) (request : OpenRequest)
    (hwanted : Within wanted p.rightsInheriting)
    (hinheriting : Within inheriting p.rightsInheriting) (fdFlags fdPtr : ℕ) : Mild condition parent
      (openDirectory p resolved request wanted inheriting fdFlags fdPtr : Syscall η Unit) w := by
  refine meets_require_bind (fun _ => trivial) fun _ => ?_
  refine meets_require_bind (fun _ => trivial) fun _ => ?_
  refine Meets.bind (meets_insert hparent ?_) fun _ _ _ _ => quiet_storeNumber _ _ _ _ _ _
  exact ⟨rfl, rfl, hwanted.and_left, hinheriting.and_left,
    (within_and_right _ _).trans (within_maximum _ _).1,
    (within_and_right _ _).trans (within_maximum _ _).2⟩

theorem meets_fileDescriptor (fd : ℕ) (guestPath hostPath : Str) (accessFlags fdflags : ℕ) :
    Meets (Does (Event.Changes condition) parent) (fun _ => True)
      (fileDescriptor host fd guestPath hostPath accessFlags fdflags) w fun d _ =>
        d.preopen = false ∧ Within d.rightsBase (maximum d.type).1 ∧
          Within d.rightsInheriting (maximum d.type).2 := by
  refine (meets_ask host _ (fun hm => by cases hm) fun _ _ => trivial).bind fun stats _ _ _ => ?_
  exact .pure ⟨rfl, (within_maximum _ _).1, (within_maximum _ _).2⟩

theorem mild_openFile (hparent : parent = some p) (resolved : Resolved) (request : OpenRequest)
    (hmutates : (hasFlag request.flags O_CREAT || hasFlag request.flags O_TRUNC) = true →
      condition) (hwanted : Within wanted p.rightsInheriting)
    (hinheriting : Within inheriting p.rightsInheriting) (fdFlags fdPtr : ℕ) : Mild condition parent
      (openFile host p resolved request wanted inheriting fdFlags fdPtr) w := by
  refine (meets_ask host _ hmutates fun _ _ => trivial).bind fun hostFd _ _ _ => ?_
  refine (meets_catching (meets_fileDescriptor host hostFd _ _ _ _) (fun _ _ => trivial)
    fun e w' _ _ => ?_).bind ?_
  · exact (meets_ask host _ (fun hm => by cases hm) fun _ _ => trivial).bind fun _ _ _ _ =>
      .throw trivial
  rintro d w' - ⟨hpreopen, hbase, hmost⟩
  refine Meets.bind (meets_insert hparent ?_) fun _ _ _ _ => quiet_storeNumber _ _ _ _ _ _
  exact ⟨rfl, hpreopen, hwanted.and_left, hinheriting.and_left,
    (within_and_right _ _).trans hbase, (within_and_right _ _).trans hmost⟩

theorem mild_path_open (dirFd dirFlags ptr len oFlags : ℕ) (wanted inheriting : Rights)
    (fdFlags fdPtr : ℕ) :
    Mild (MayChange w [dirFd]) (find dirFd w.table)
      (path_open host dirFd dirFlags ptr len oFlags wanted inheriting fdFlags fdPtr) w := by
  refine meets_checkFits_bind (fun _ => trivial) fun _ =>
    meets_checkFits_bind (fun _ => trivial) fun _ => ?_
  refine meets_lookup_bind trivial trivial fun p hfind hbase hneeded => ?_
  obtain ⟨hwanted, hinheriting⟩ := within_neededInheriting oFlags fdFlags hneeded
  -- the right that making or emptying a file needs is one of the directory's own
  have hmutates : (hasFlag (openRequest oFlags wanted inheriting fdFlags).flags O_CREAT ||
      hasFlag (openRequest oFlags wanted inheriting fdFlags).flags O_TRUNC) = true →
        MayChange w [dirFd] := by
    intro h
    rcases openRequest_mutates h with hcreate | htruncate
    · have hright := hbase.of_or_left.of_or_right
      rw [if_pos hcreate] at hright
      exact mayChange_of_lookup hfind hright (by decide) (by decide)
    · have hright := hbase.of_or_right
      rw [if_pos htruncate] at hright
      exact mayChange_of_lookup hfind hright (by decide) (by decide)
  refine (quiet_text _ _).andThen fun _ _ =>
    (quiet_resolve host _ _ _).andThen fun resolved _ =>
      (quiet_ask host _ rfl).andThen fun isThere _ => ?_
  have hdirectory : Quiet (isDirectoryAt host isThere resolved.host) :=
    Quiet.ite ((quiet_ask host (.statSync resolved.host) rfl).map _) (quiet_pure _)
  refine Mild.bind (hdirectory _ _ _) fun isDirectory w' => ?_
  cases isDirectory with
  | true => exact mild_openDirectory hfind resolved _ hwanted hinheriting fdFlags fdPtr
  | false =>
    refine meets_require_bind (fun _ => trivial) fun _ => ?_
    exact mild_openFile host hfind resolved _ hmutates hwanted hinheriting fdFlags fdPtr

end Wasi

end Tabnode
