import Tabnode.Wasi.Shrinking

/-!
# Rights over whole runs

What every call does (`does_perform`) gives what every run does: descriptors keep apart, a
descriptor's rights are within those it had (`narrows_of_run`), and what is opened under a
descriptor that is read only is read only (`readOnly_of_run`). A preopen whose rights have
been narrowed is read only when no right to change paths or times is left either; without
that a directory opened below it may still be changed.
-/

namespace Tabnode

namespace Wasi

open Effect RIGHT OrderedMap

variable {η : Type} (host : Host η) {w w' : World η}

/-! ## One call -/

def Call.fds : Call → List ℕ
  | fd_advise fd _ _ _ | fd_allocate fd _ _ | fd_close fd | fd_datasync fd
  | fd_fdstat_get fd _ | fd_fdstat_set_flags fd _ | fd_fdstat_set_rights fd _ _
  | fd_filestat_get fd _ | fd_filestat_set_size fd _ | fd_filestat_set_times fd _ _ _
  | fd_pread fd _ _ _ _ | fd_prestat_get fd _ | fd_prestat_dir_name fd _ _
  | fd_pwrite fd _ _ _ _ | fd_read fd _ _ _ | fd_readdir fd _ _ _ _ | fd_seek fd _ _ _
  | fd_sync fd | fd_tell fd _ | fd_write fd _ _ _ | path_create_directory fd _ _
  | path_filestat_get fd _ _ _ _ | path_filestat_set_times fd _ _ _ _ _ _
  | path_open fd _ _ _ _ _ _ _ _ | path_readlink fd _ _ _ _ _ | path_remove_directory fd _ _
  | path_symlink _ _ fd _ _ | path_unlink_file fd _ _ | sock_accept fd _ _
  | sock_recv fd _ _ _ _ _ | sock_send fd _ _ _ _ | sock_shutdown fd _ => [fd.toNat]
  | fd_renumber source target => [source.toNat, target.toNat]
  | path_link oldFd _ _ _ newFd _ _ | path_rename oldFd _ _ newFd _ _ =>
      [oldFd.toNat, newFd.toNat]
  | _ => []

def Call.opens : Call → Option ℕ
  | path_open dirFd _ _ _ _ _ _ _ _ => some dirFd.toNat
  | _ => none

/-- What a call does: it changes a file or a directory only where none of the descriptors it
names is read only, and only `path_open` opens one. -/
theorem does_perform (w : World η) (call : Call) :
    Does (Event.Changes (MayChange w call.fds))
      (call.opens.bind fun fd => find fd w.table) w (perform host w call).2 := by
  have of_quiet {x : Syscall η Unit} (h : Quiet x) (condition : Prop)
      (parent : Option Descriptor) : Does (Event.Changes condition) parent w (x.run w).2 :=
    (h condition parent w).rel
  have of_mild {condition : Prop} {parent : Option Descriptor} {x : Syscall η Unit}
      (h : Mild condition parent x w) : Does (Event.Changes condition) parent w (x.run w).2 :=
    h.rel
  rw [perform]
  cases call with
  | args_get p q => exact of_quiet (quiet_get.bind fun _ => quiet_stringsGet _ _ _) _ _
  | args_sizes_get p q => exact of_quiet (quiet_get.bind fun _ => quiet_stringsSizesGet _ _ _) _ _
  | clock_res_get c p => exact of_quiet (quiet_clock_res_get _ _) _ _
  | clock_time_get c precision p => exact of_quiet (quiet_clock_time_get host _ _) _ _
  | environ_get p q => exact of_quiet (quiet_get.bind fun _ => quiet_stringsGet _ _ _) _ _
  | environ_sizes_get p q =>
    exact of_quiet (quiet_get.bind fun _ => quiet_stringsSizesGet _ _ _) _ _
  | fd_advise fd offset len advice => exact of_quiet (quiet_fd_advise _ _) _ _
  | fd_allocate fd offset len => exact of_mild (mild_fd_allocate host _ _ _)
  | fd_close fd => exact of_mild (mild_fd_close host _)
  | fd_datasync fd => exact of_quiet (quiet_lookupOnly _ _) _ _
  | fd_fdstat_get fd p => exact of_quiet (quiet_fd_fdstat_get _ _) _ _
  | fd_fdstat_set_flags fd flags => exact of_mild (mild_fd_fdstat_set_flags _ _)
  | fd_fdstat_set_rights fd base inheriting => exact of_mild (mild_fd_fdstat_set_rights _ _ _)
  | fd_filestat_get fd p => exact of_quiet (quiet_fd_filestat_get host _ _) _ _
  | fd_filestat_set_size fd size => exact of_mild (mild_fd_filestat_set_size host _ _)
  | fd_filestat_set_times fd atim mtim flags =>
    exact of_mild (mild_fd_filestat_set_times host _ _ _ _)
  | fd_pread fd p n offset q => exact of_quiet (quiet_fd_pread host _ _ _ _ _) _ _
  | fd_prestat_get fd p => exact of_quiet (quiet_fd_prestat_get _ _) _ _
  | fd_prestat_dir_name fd p n => exact of_quiet (quiet_fd_prestat_dir_name _ _ _) _ _
  | fd_pwrite fd p n offset q => exact of_mild (mild_fd_pwrite host _ _ _ _ _)
  | fd_read fd p n q => exact of_mild (mild_fd_read host _ _ _ _)
  | fd_readdir fd p n cookie q => exact of_quiet (quiet_fd_readdir host _ _ _ _ _) _ _
  | fd_renumber source target => exact of_mild (mild_fd_renumber host _ _)
  | fd_seek fd offset whence p => exact of_mild (mild_fd_seek host _ _ _ _)
  | fd_sync fd => exact of_quiet (quiet_lookupOnly _ _) _ _
  | fd_tell fd p => exact of_quiet (quiet_fd_tell _ _) _ _
  | fd_write fd p n q => exact of_mild (mild_fd_write host _ _ _ _)
  | path_create_directory fd p n => exact of_mild (mild_path_create_directory host _ _ _)
  | path_filestat_get fd flags p n q =>
    exact of_quiet (quiet_path_filestat_get host _ _ _ _ _) _ _
  | path_filestat_set_times fd flags p n atim mtim fstFlags =>
    exact of_mild (mild_path_filestat_set_times host _ _ _ _ _ _ _)
  | path_link oldFd oldFlags p n newFd q m => exact of_quiet (quiet_path_link _ _ _ _ _ _) _ _
  | path_open dirFd dirFlags p n oFlags base inheriting fdFlags q =>
    exact of_mild (mild_path_open host _ _ _ _ _ _ _ _ _)
  | path_readlink fd p n q m r => exact of_quiet (quiet_path_readlink host _ _ _ _ _ _) _ _
  | path_remove_directory fd p n => exact of_mild (mild_path_remove_directory host _ _ _)
  | path_rename oldFd p n newFd q m => exact of_mild (mild_path_rename host _ _ _ _ _ _)
  | path_symlink p n fd q m => exact of_mild (mild_path_symlink host _ _ _ _ _)
  | path_unlink_file fd p n => exact of_mild (mild_path_unlink_file host _ _ _)
  | poll_oneoff p q n r => exact of_quiet (quiet_poll_oneoff host _ _ _ _) _ _
  | proc_exit code => exact of_quiet (quiet_ask host _ rfl) _ _
  | proc_raise signal => exact of_quiet (quiet_proc_raise host _) _ _
  | random_get p n =>
    exact of_quiet ((quiet_checkFits _ _).bind fun _ => quiet_randomLoop host _ _ _) _ _
  | sched_yield => exact of_quiet (quiet_pure ()) _ _
  | sock_accept fd flags p =>
    exact of_quiet ((quiet_checkFits _ _).bind fun _ => quiet_lookupRefused _ _ _) _ _
  | sock_recv fd p n flags q r => exact of_quiet (quiet_sock_recv _ _ _ _ _) _ _
  | sock_send fd p n flags q => exact of_quiet (quiet_sock_send _ _ _ _) _ _
  | sock_shutdown fd how => exact of_quiet (quiet_lookupRefused _ _ _) _ _

/-! ## Runs -/

def Action.parent (w : World η) : Action η → Option Descriptor
  | .call c => c.opens.bind fun fd => find fd w.table
  | _ => none

theorem step_table {action : Action η} (h : step host w action = some w') :
    w.nextId ≤ w'.nextId ∧ (Apart w → Apart w') ∧
      ∀ fd' d', find fd' w'.table = some d' →
        (∃ fd d, find fd w.table = some d ∧ Narrows d d') ∨
          (w.nextId ≤ d'.id ∧ ∃ p, action.parent w = some p ∧ OpenedUnder p d') := by
  cases action with
  | call call =>
    cases h
    have hdoes := does_perform host w call
    exact ⟨hdoes.nextId, hdoes.apart, fun fd' d' hfind =>
      (hdoes.comes fd' d' hfind).imp_right fun h => ⟨h.1, h.2.2⟩⟩
  | guest _ | outside _ =>
    cases h
    exact ⟨Nat.le_refl _, fun ha => ⟨ha.given, ha.apart⟩,
      fun fd' d' hfind => .inl ⟨fd', d', hfind, .refl d'⟩⟩

/-- The table of a constructed wrap: descriptors apart, and every preopen a directory. -/
structure Sound (w : World η) : Prop where
  apart : Apart w
  preopen : ∀ fd d, find fd w.table = some d → d.preopen = true → d.kind = .dir

theorem Action.parent_find {action : Action η} {p : Descriptor} (h : action.parent w = some p) :
    ∃ fd, find fd w.table = some p := by
  cases action with
  | call call =>
    have h : (call.opens.bind fun fd => find fd w.table) = some p := h
    obtain ⟨fd, -, hfind⟩ := Option.bind_eq_some_iff.1 h
    exact ⟨fd, hfind⟩
  | guest _ | outside _ => cases h

theorem Sound.step {action : Action η} (h : step host w action = some w') (hw : Sound w) :
    Sound w' := by
  obtain ⟨-, hapart, hcomes⟩ := step_table host h
  refine ⟨hapart hw.apart, fun fd' d' hfind hpreopen => ?_⟩
  rcases hcomes fd' d' hfind with ⟨fd, d, hd, hnarrow⟩ | ⟨-, p, -, hopened⟩
  · rw [hnarrow.kind]
    exact hw.preopen fd d hd (by rw [← hnarrow.preopen, hpreopen])
  · rw [hopened.preopen] at hpreopen
    cases hpreopen

/-- Along a run the descriptor of an identity has the rights it had, or fewer. -/
theorem narrows_of_run {d : Descriptor} {actions : List (Action η)}
    (hrun : Machine.run (step host) w actions = some w') (hgiven : d.id < w.nextId)
    (hd : ∀ fd' d', find fd' w.table = some d' → d'.id = d.id → Narrows d d') :
    ∀ fd' d', find fd' w'.table = some d' → d'.id = d.id → Narrows d d' := by
  refine (Machine.invariant (I := fun w => d.id < w.nextId ∧ ∀ fd' d',
    find fd' w.table = some d' → d'.id = d.id → Narrows d d') ?_ ⟨hgiven, hd⟩ hrun).2
  rintro s action t ⟨hs, hs'⟩ hstep
  obtain ⟨hnext, -, hcomes⟩ := step_table host hstep
  refine ⟨Nat.lt_of_lt_of_le hs hnext, fun fd'' d'' hfind hid => ?_⟩
  rcases hcomes fd'' d'' hfind with ⟨fd', d', hd', hnarrow⟩ | ⟨hlow, -⟩
  · exact (hs' fd' d' hd' (by rw [← hnarrow.id, hid])).trans hnarrow
  · omega

/-- A descriptor that is the one of an identity or was opened under it, at any depth. -/
def Descriptor.Below (d : Descriptor) (id : ℕ) : Prop := d.id = id ∨ id ∈ d.lineage

/-- Along a run what is at or below a descriptor stays read only. -/
theorem readOnly_of_run {id : ℕ} {actions : List (Action η)}
    (hrun : Machine.run (step host) w actions = some w') (hgiven : id < w.nextId)
    (hreadOnly : ∀ fd d, find fd w.table = some d → d.Below id → ReadOnly d) :
    ∀ fd d, find fd w'.table = some d → d.Below id → ReadOnly d := by
  refine (Machine.invariant (I := fun w => id < w.nextId ∧ ∀ fd d,
    find fd w.table = some d → d.Below id → ReadOnly d) ?_ ⟨hgiven, hreadOnly⟩ hrun).2
  rintro s action t ⟨hs, hs'⟩ hstep
  obtain ⟨hnext, -, hcomes⟩ := step_table host hstep
  refine ⟨Nat.lt_of_lt_of_le hs hnext, fun fd' d' hfind hbelow => ?_⟩
  rcases hcomes fd' d' hfind with ⟨fd, d, hd, hnarrow⟩ | ⟨hlow, p, hp, hopened⟩
  · rw [Descriptor.Below, hnarrow.id, hnarrow.lineage] at hbelow
    exact (hs' fd d hd hbelow).narrows hnarrow
  · obtain ⟨fd, hfd⟩ := Action.parent_find hp
    refine (hs' fd p hfd ?_).opened hopened
    rcases hbelow with hid | hmem
    · omega
    · rw [hopened.lineage] at hmem
      exact (List.mem_cons.1 hmem).imp_left Eq.symm

/-! ## The constructor -/

instance : IsPreorder (World η) fun w w' => Sound w → Sound w' where
  refl _ := id
  trans _ _ _ h h' hw := h' (h hw)

theorem Does.sound {allowed : Event η → Prop} (h : Does allowed none w w') (hw : Sound w) :
    Sound w' := by
  refine ⟨h.apart hw.apart, fun fd' d' hfind hpreopen => ?_⟩
  rcases h.comes fd' d' hfind with ⟨fd, d, hd, hnarrow⟩ | ⟨-, -, p, hp, -⟩
  · rw [hnarrow.kind]
    exact hw.preopen fd d hd (by rw [← hnarrow.preopen, hpreopen])
  · cases hp

theorem Sound.set (hw : Sound w) (fd : ℕ) (d : Descriptor)
    (hd : d.preopen = true → d.kind = .dir) :
    Sound { w with
      table := OrderedMap.set fd { d with id := w.nextId } w.table, nextId := w.nextId + 1 } := by
  refine ⟨⟨fun fd' d' h => ?_, fun fd₁ fd₂ d₁ d₂ h₁ h₂ hid => ?_⟩, fun fd' d' h hpreopen => ?_⟩
  · rw [find_set] at h
    split at h
    · cases h
      exact Nat.lt_succ_self _
    · exact Nat.lt_succ_of_lt (hw.apart.given fd' d' h)
  · rw [find_set] at h₁ h₂
    split at h₁ <;> split at h₂
    · next h h' => exact h.symm.trans h'
    · cases h₁
      exact absurd (hw.apart.given fd₂ d₂ h₂) (by rw [← hid]; exact Nat.lt_irrefl _)
    · cases h₂
      exact absurd (hw.apart.given fd₁ d₁ h₁) (by rw [hid]; exact Nat.lt_irrefl _)
    · exact hw.apart.apart fd₁ fd₂ d₁ d₂ h₁ h₂ hid
  · rw [find_set] at h
    split at h
    · cases h
      exact hd hpreopen
    · exact hw.preopen fd' d' h hpreopen

abbrev Builds {α : Type} (x : Syscall η α) (w : World η) : Prop :=
  Meets (fun w w' => Sound w → Sound w') (fun _ => True) x w fun _ _ => True

theorem builds_of_quiet {α : Type} {x : Syscall η α} (h : Quiet x) : Builds x w :=
  (h True none w).mono (fun _ hdoes => hdoes.sound) (fun _ h => h) fun _ _ _ h => h

theorem quiet_orInitFails {α : Type} {x : Syscall η α} (h : Quiet x) : Quiet (orInitFails x) :=
  h.catching fun _ => quiet_throw _

theorem builds_stdio (fd : ℕ) (name : Str) (given : ℕ) :
    Builds (addStdio host fd name given) w := by
  have hslot : ∀ {w : World η} (d : Descriptor), d.preopen = false →
      Builds (setSlot fd d : Syscall η Unit) w := fun d hd =>
    .of_run_ok rfl (fun hw => hw.set fd d (by simp [hd])) trivial
  unfold addStdio stdioDescriptor
  split
  · exact hslot _ rfl
  · exact hslot _ rfl
  · exact hslot _ rfl
  · -- the descriptor of an open file of the engine
    have hfile : Meets (fun w w' => Sound w → Sound w') (fun _ => True)
        (orInitFails (fileDescriptor host given name [] O_RDWR 0)) w
        fun d _ => d.preopen = false := by
      have hdoes : Meets (Does (Event.Changes True) none) (fun _ => True)
          (orInitFails (fileDescriptor host given name [] O_RDWR 0)) w
          fun d _ => d.preopen = false := by
        refine meets_catching (F := fun _ => True) ?_ (fun _ _ => trivial)
          fun _ _ _ _ => .throw trivial
        exact (meets_fileDescriptor host _ _ _ _ _).mono (fun _ h => h) (fun _ h => h)
          fun d _ _ h => h.1
      exact hdoes.mono (fun _ hdoes => hdoes.sound) (fun _ h => h) fun _ _ _ h => h
    exact hfile.bind fun d _ _ hd => hslot d hd

theorem builds_addPreopens (preopens : List (Str × Str)) :
    Builds (addPreopens host preopens) w := by
  induction preopens generalizing w with
  | nil => exact .pure trivial
  | cons preopen preopens ih =>
    refine (builds_of_quiet (quiet_orInitFails ?_)).bind fun found w' _ _ => ?_
    · exact (quiet_ask host _ rfl).bind fun _ => (quiet_ask host _ rfl).bind fun _ => quiet_pure _
    · dsimp only
      split
      · exact .throw trivial
      · refine Meets.bind (P := fun _ _ => True) ?_ fun _ _ _ _ => ih
        exact .of_run_ok rfl (fun hw => hw.set _ _ fun _ => rfl) trivial

theorem sound_of_table_nil (h : w.table = []) : Sound w := by
  have hnone : ∀ fd d, find fd w.table ≠ some d := by
    rw [h]
    simp
  exact ⟨⟨fun fd d hd => absurd hd (hnone fd d), fun fd _ d _ hd => absurd hd (hnone fd d)⟩,
    fun fd d hd => absurd hd (hnone fd d)⟩

theorem builds_construct (options : Options) : Builds (construct host options) w := by
  refine Meets.bind (P := fun _ _ => True) ?_ fun _ _ _ _ => ?_
  · exact .of_run_ok rfl (fun _ => sound_of_table_nil rfl) trivial
  · exact (builds_stdio host _ _ _).bind fun _ _ _ _ => (builds_stdio host _ _ _).bind
      fun _ _ _ _ => (builds_stdio host _ _ _).bind fun _ _ _ _ => builds_addPreopens host _

theorem sound_of_reachable (h : Reachable host w) : Sound w := by
  obtain ⟨options, memory, state, start, actions, hstart, hrun⟩ := h
  refine Machine.invariant (fun s a t hs hstep => hs.step host hstep) ?_ hrun
  have hsound := (builds_construct host options (w := emptyWorld memory state)).rel
    (sound_of_table_nil rfl)
  rwa [hstart] at hsound

/-! ## The law -/

def newEvents (w w' : World η) : List (Event η) := w'.history.drop w.history.length

def Event.Mutates : Event η → Prop
  | .call _ c => c.mutates = true
  | _ => False

/-- Once the rights of a preopen are narrow, and what is open below it is read only, no call
that names it or a descriptor opened below it changes a file or a directory. -/
def Protects (host : Host η) (narrow : Descriptor → Prop) (w : World η) : Prop :=
  ∀ fd p, find fd w.table = some p → p.preopen = true → narrow p →
    (∀ fd' d, find fd' w.table = some d → p.id ∈ d.lineage → ReadOnly d) →
    ∀ actions w', Machine.run (step host) w actions = some w' →
      ∀ (call : Call) (fd' : ℕ) (d : Descriptor), fd' ∈ call.fds →
        find fd' w'.table = some d → d.Below p.id →
          ∀ event ∈ newEvents w' (perform host w' call).2, ¬ event.Mutates

/-- The law of rights, where a preopen counts as narrowed as `narrow` says. -/
structure RightsShrink (host : Host η) (narrow : Descriptor → Prop) (w : World η) : Prop where
  opened : ∀ action w', step host w action = some w' →
    ∀ fd' d', find fd' w'.table = some d' → w.nextId ≤ d'.id →
      ∃ call fd p, action = .call call ∧ call.opens = some fd ∧
        find fd w.table = some p ∧ OpenedUnder p d'
  shrinks : ∀ actions w', Machine.run (step host) w actions = some w' →
    ∀ fd fd' d d', find fd w.table = some d →
      find fd' w'.table = some d' → d'.id = d.id →
        Within d'.rightsBase d.rightsBase ∧ Within d'.rightsInheriting d.rightsInheriting
  protects : Protects host narrow w

/-- No right to change paths or times is left, nor is a right to change anything handed
down. -/
def NarrowedRights (d : Descriptor) : Prop :=
  Lacks d.rightsBase (PATH_CHANGING ||| FD_FILESTAT_SET_TIMES) ∧
    Lacks d.rightsInheriting (PATH_CHANGING ||| FD_FILESTAT_SET_TIMES ||| FD_CHANGING)

/-- Over every run rights only shrink, and a preopen left without rights to change anything,
and without such rights to hand down, protects what is below it. -/
theorem rightsShrink_of_reachable (hw : Reachable host w) :
    RightsShrink host NarrowedRights w := by
  have hsound := sound_of_reachable host hw
  refine ⟨?_, ?_, ?_⟩
  · intro action w' hstep fd' d' hfind hnew
    obtain ⟨-, -, hcomes⟩ := step_table host hstep
    rcases hcomes fd' d' hfind with ⟨fd, d, hd, hnarrow⟩ | ⟨-, p, hp, hopened⟩
    · have hgiven := hsound.apart.given fd d hd
      rw [← hnarrow.id] at hgiven
      omega
    · cases action with
      | call call =>
        have hp : (call.opens.bind fun fd => find fd w.table) = some p := hp
        obtain ⟨fd, hopens, hfind⟩ := Option.bind_eq_some_iff.1 hp
        exact ⟨call, fd, p, rfl, hopens, hfind, hopened⟩
      | guest _ | outside _ => cases hp
  · intro actions w' hrun fd fd' d d' hfind hfind' hid
    have hnarrow := narrows_of_run host hrun (hsound.apart.given fd d hfind)
      (fun fd₁ d₁ h₁ hid₁ => by
        obtain rfl := hsound.apart.apart fd₁ fd d₁ d h₁ hfind hid₁
        rw [hfind] at h₁
        cases h₁
        exact .refl d) fd' d' hfind' hid
    exact ⟨hnarrow.base, hnarrow.inheriting⟩
  · intro fd p hfind hpreopen hnarrow hlive actions w' hrun call fd' d hnamed hfind' hbelow
    have hreadOnly : ReadOnly d := by
      refine readOnly_of_run host hrun (hsound.apart.given fd p hfind) ?_ fd' d hfind' hbelow
      intro fd₁ d₁ h₁ hbelow₁
      rcases hbelow₁ with hid | hmem
      · obtain rfl := hsound.apart.apart fd₁ fd d₁ p h₁ hfind hid
        rw [hfind] at h₁
        cases h₁
        exact ⟨hnarrow.1, .inl (hsound.preopen _ _ hfind hpreopen), hnarrow.2⟩
      · exact hlive fd₁ d₁ h₁ hmem
    obtain ⟨events, hhistory, hall⟩ := (does_perform host w' call).events
    intro event hmem hmutates
    rw [newEvents, hhistory, List.drop_left] at hmem
    cases event with
    | load | store => exact hmutates
    | call before c => exact hall _ hmem hmutates fd' hnamed d hfind' hreadOnly

/-! ## Rights that are handed down -/

def oneDirectory : Host Unit where
  answer _ call :=
    (match call with
      | .existsSync _ => .ok true
      | .realpathSync _ => .ok ['/']
      | .statSync _ => .ok { isDirectory := true }
      | .lstatSync _ => .ok { isFile := true }
      | .unlinkSync _ => .ok ()
      | _ => .error ⟨some "ENOSYS"⟩, ())
  isTTY _ := false
  hasUtimes := true
  hasReadlink := true
  hasSymlink := true

/-- The rights left to change files through a preopen taken away, but not those that the
directories below it inherit. -/
def NarrowedForFiles (d : Descriptor) : Prop :=
  Lacks d.rightsBase (PATH_CHANGING ||| PATH_LINK_SOURCE ||| PATH_LINK_TARGET) ∧
    Lacks d.rightsInheriting FD_CHANGING

def narrowedPreopen : Descriptor where
  kind := .dir
  path := ['/']
  hostPath := ['/']
  type := .DIRECTORY
  rightsBase := RIGHTS_DIRECTORY_BASE &&&
    ~~~(PATH_CHANGING ||| PATH_LINK_SOURCE ||| PATH_LINK_TARGET)
  rightsInheriting := RIGHTS_DIRECTORY_INHERITING &&& ~~~FD_CHANGING
  preopen := true
  fdflags := 0
  position := 0
  id := 3
  lineage := []

def narrowForFiles : Call :=
  .fd_fdstat_set_rights 3 (.ofBitVec narrowedPreopen.rightsBase)
    (.ofBitVec narrowedPreopen.rightsInheriting)

/-- The preopen's own directory opened again, to remove files from. The guest's memory begins
with the two paths `.` and `f`. -/
def reopenToUnlink : Call :=
  .path_open 3 0 0 1 0 (.ofBitVec PATH_UNLINK_FILE) 0 0 4

def reopened : Descriptor :=
  { narrowedPreopen with
    rightsBase := PATH_UNLINK_FILE
    rightsInheriting := 0
    preopen := false
    id := 4
    lineage := [3] }

def onePreopen : World Unit :=
  ((construct oneDirectory ⟨[], [], [(['/'], ['/'])], 0, 1, 2⟩).run
    (emptyWorld [46, 102, 0, 0, 0, 0, 0, 0] ())).2

def onePreopenNarrowed : World Unit := (perform oneDirectory onePreopen narrowForFiles).2

theorem reachable_onePreopenNarrowed : Reachable oneDirectory onePreopenNarrowed :=
  ⟨⟨[], [], [(['/'], ['/'])], 0, 1, 2⟩, [46, 102, 0, 0, 0, 0, 0, 0], (), onePreopen,
    [.call narrowForFiles], rfl, rfl⟩

theorem rightsShrink_onePreopenNarrowed :
    RightsShrink oneDirectory NarrowedRights onePreopenNarrowed :=
  rightsShrink_of_reachable oneDirectory reachable_onePreopenNarrowed

/-- A file below a preopen narrowed for files alone is removed through a directory opened
below it. -/
theorem not_rightsShrink_narrowedForFiles : ¬ ∀ w, Reachable oneDirectory w →
    RightsShrink oneDirectory NarrowedForFiles w := by
  intro h
  have hprotects := (h _ reachable_onePreopenNarrowed).protects
  have hpreopen : find 3 onePreopenNarrowed.table = some narrowedPreopen := rfl
  have hlive : ∀ fd d, find fd onePreopenNarrowed.table = some d →
      narrowedPreopen.id ∈ d.lineage → ReadOnly d := by
    intro fd d hfind hmem
    have hnone : ∀ entry ∈ onePreopenNarrowed.table, 3 ∉ entry.2.lineage := by decide
    exact absurd hmem (hnone _ (mem_of_find hfind))
  have hreopened : find 4
      (perform oneDirectory onePreopenNarrowed reopenToUnlink).2.table = some reopened := rfl
  have hevents : newEvents (perform oneDirectory onePreopenNarrowed reopenToUnlink).2
      (perform oneDirectory (perform oneDirectory onePreopenNarrowed reopenToUnlink).2
        (.path_unlink_file 4 1 1)).2 =
      [.load 1 1, .call () (.existsSync ['/', 'f']), .call () (.lstatSync ['/', 'f']),
        .call () (.unlinkSync ['/', 'f'])] := rfl
  refine hprotects 3 narrowedPreopen hpreopen rfl ⟨by decide, by decide⟩ hlive
    [.call reopenToUnlink] _ rfl (.path_unlink_file 4 1 1) 4 reopened (by decide) hreopened
    (.inr (by decide)) (.call () (.unlinkSync ['/', 'f'])) ?_ rfl
  rw [hevents]
  simp

end Wasi

end Tabnode
