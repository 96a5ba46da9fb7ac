import Tabnode.Wasi.CheckedPaths
import Tabnode.Wasi.Narrowed

/-!
# Bounds and errnos

Each syscall that returns answers an errno, touches the guest's memory only inside the
ranges its arguments name, and answers `EOVERFLOW` exactly where one of them does not fit,
where the sizes, offsets and names it hands to the host are ones the host takes
(`bounded_of_reachable`). A size past `2 ^ 53` is thrown into the guest instead.
-/

namespace Tabnode

namespace Wasi

open Effect

variable {η : Type}

/-! ## The ranges and the condition -/

/-- Whether a call is one that returns: not the end of the guest or a signal to it. -/
def Call.returns : Call → Bool
  | proc_exit _ | proc_raise _ => false
  | _ => true

def Call.ranges (w : World η) : Call → List (ℕ × ℕ)
  | args_get p q => [(q.toNat, stringsSize w.args), (p.toNat, w.args.length * 4)]
  | environ_get p q => [(q.toNat, stringsSize w.env), (p.toNat, w.env.length * 4)]
  | args_sizes_get p q | environ_sizes_get p q => [(p.toNat, 4), (q.toNat, 4)]
  | clock_res_get _ p | clock_time_get _ _ p => [(p.toNat, 8)]
  | fd_fdstat_get _ p => [(p.toNat, SIZE.fdstat)]
  | fd_filestat_get _ p => [(p.toNat, SIZE.filestat)]
  | fd_pread _ p n _ q | fd_pwrite _ p n _ q | fd_read _ p n q | fd_write _ p n q
  | sock_send _ p n _ q => transferRanges w p.toNat n.toNat q.toNat
  | sock_recv _ p n _ q r => (q.toNat, 4) :: transferRanges w p.toNat n.toNat r.toNat
  | fd_prestat_get _ p => [(p.toNat, SIZE.prestat)]
  | fd_prestat_dir_name _ p n | path_create_directory _ p n | path_filestat_set_times _ _ p n _ _ _
  | path_remove_directory _ p n | path_unlink_file _ p n | random_get p n =>
      [(p.toNat, n.toNat)]
  | fd_readdir _ p n _ q => [(p.toNat, n.toNat), (q.toNat, 4)]
  | fd_seek _ _ _ p | fd_tell _ p => [(p.toNat, 8)]
  | path_filestat_get _ _ p n q => [(p.toNat, n.toNat), (q.toNat, SIZE.filestat)]
  | path_link _ _ p n _ q m | path_rename _ p n _ q m | path_symlink p n _ q m =>
      [(p.toNat, n.toNat), (q.toNat, m.toNat)]
  | path_open _ _ p n _ _ _ _ q => [(p.toNat, n.toNat), (q.toNat, 4)]
  | path_readlink _ p n q m r => [(p.toNat, n.toNat), (q.toNat, m.toNat), (r.toNat, 4)]
  | poll_oneoff p q n r => pollRanges p.toNat q.toNat n.toNat r.toNat
  | sock_accept _ _ p => [(p.toNat, 4)]
  | _ => []

/-- The sizes, offsets and names that a call hands to the host are ones that it takes: sizes
and positions below `2 ^ 53`, buffers below `2 ^ 31` bytes, names without a NUL. -/
def Call.Takes (w : World η) : Call → Prop
  | fd_allocate fd offset len =>
      ∀ d, w.Opened fd.toNat RIGHT.FD_ALLOCATE d → offset.toNat + len.toNat < 2 ^ 53
  | fd_filestat_set_size fd size =>
      ∀ d, w.Opened fd.toNat RIGHT.FD_FILESTAT_SET_SIZE d → size.toNat < 2 ^ 53
  | fd_pread fd p n offset _ =>
      ∀ d, w.Opened fd.toNat (RIGHT.FD_READ ||| RIGHT.FD_SEEK) d →
        InSteps offset.toNat (iovecsAt w.memory n.toNat p.toNat)
  | fd_pwrite fd p n offset _ =>
      ∀ d, w.Opened fd.toNat (RIGHT.FD_WRITE ||| RIGHT.FD_SEEK) d →
        InSteps offset.toNat (iovecsAt w.memory n.toNat p.toNat)
  | fd_read fd p n _ =>
      ∀ d, w.Opened fd.toNat RIGHT.FD_READ d →
        InSteps d.position (iovecsAt w.memory n.toNat p.toNat)
  | fd_write fd p n _ =>
      ∀ d, w.Opened fd.toNat RIGHT.FD_WRITE d →
        WritesInSteps d (iovecsAt w.memory n.toNat p.toNat)
  | path_filestat_get fd flags _ _ _ | path_filestat_set_times fd flags _ _ _ _ _
  | path_open fd flags _ _ _ _ _ _ _ => FollowsClean w fd.toNat flags.toNat
  | path_symlink p n fd _ _ => LinksClean w p.toNat n.toNat fd.toNat
  | _ => True

def Call.InRange (w : World η) (call : Call) : Prop :=
  AllFit w (call.ranges w) → call.Takes w

variable {host : Host η} {w : World η} (hhost : Documented host)

include hhost

/-- Each syscall that returns checks its ranges and stays inside them. -/
theorem checked_call (hw : Tidy w) (call : Call) (hreturns : call.returns = true) :
    Checked (call.InRange w) (call.ranges w) (call.ranges w) (call.syscall host) w := by
  cases call with
  | args_get => exact meets_get_bind (checked_stringsGet _ _ _)
  | args_sizes_get => exact meets_get_bind (checked_stringsSizesGet _ _ _)
  | clock_res_get => exact checked_clock_res_get _ _
  | clock_time_get => exact checked_clock_time_get hhost _ _
  | environ_get => exact meets_get_bind (checked_stringsGet _ _ _)
  | environ_sizes_get => exact meets_get_bind (checked_stringsSizesGet _ _ _)
  | fd_advise => exact checked_fd_advise hw _ _
  | fd_allocate => exact checked_fd_allocate hhost hw fun h => h (by simp [AllFit, Call.ranges])
  | fd_close => exact checked_fd_close hhost hw _
  | fd_datasync => exact checked_fd_datasync hw _
  | fd_fdstat_get => exact checked_fd_fdstat_get hw _ _
  | fd_fdstat_set_flags => exact checked_fd_fdstat_set_flags hw _ _
  | fd_fdstat_set_rights => exact checked_fd_fdstat_set_rights hw _ _ _
  | fd_filestat_get => exact checked_fd_filestat_get hhost hw _ _
  | fd_filestat_set_size =>
    exact checked_fd_filestat_set_size hhost hw fun h => h (by simp [AllFit, Call.ranges])
  | fd_filestat_set_times => exact checked_fd_filestat_set_times hhost hw _ _ _ _
  | fd_pread => exact checked_fd_pread hhost hw fun h => h
  | fd_prestat_get => exact checked_fd_prestat_get hw _ _
  | fd_prestat_dir_name => exact checked_fd_prestat_dir_name hw _ _ _
  | fd_pwrite => exact checked_fd_pwrite hhost hw fun h => h
  | fd_read => exact checked_fd_read hhost hw fun h => h
  | fd_readdir => exact checked_fd_readdir hhost hw _ _ _ _ _
  | fd_renumber => exact checked_fd_renumber hhost hw _ _
  | fd_seek => exact checked_fd_seek hhost hw _ _ _ _
  | fd_sync => exact checked_fd_sync hw _
  | fd_tell => exact checked_fd_tell hw _ _
  | fd_write => exact checked_fd_write hhost hw fun h => h
  | path_create_directory => exact checked_path_create_directory hhost hw _ _ _
  | path_filestat_get => exact checked_path_filestat_get hhost hw fun h => h
  | path_filestat_set_times => exact checked_path_filestat_set_times hhost hw _ _ _ fun h => h
  | path_link => exact checked_path_link hw _ _ _ _ _ _
  | path_open => exact checked_path_open hhost hw _ _ fun h => h
  | path_readlink => exact checked_path_readlink hhost hw _ _ _ _ _ _
  | path_remove_directory => exact checked_path_remove_directory hhost hw _ _ _
  | path_rename => exact checked_path_rename hhost hw _ _ _ _ _ _
  | path_symlink => exact checked_path_symlink hhost hw fun h => h
  | path_unlink_file => exact checked_path_unlink_file hhost hw _ _ _
  | poll_oneoff => exact checked_poll_oneoff hhost _ _ _ _
  | proc_exit | proc_raise => cases hreturns
  | random_get => exact checked_random_get hhost _ _
  | sched_yield => exact checked_nil (.pure trivial)
  | sock_accept => exact checked_sock_accept hw _ _
  | sock_recv => exact checked_sock_recv hw _ _ _ _ _
  | sock_send => exact checked_sock_send hw _ _ _ _
  | sock_shutdown => exact checked_sock_shutdown hw _

theorem Tidy.perform (hw : Tidy w) (call : Call) : Tidy (perform host w call).2 := by
  by_cases hreturns : call.returns = true
  · exact (checked_call hhost hw call hreturns).rel.tidy hw
  · cases call with
    | proc_exit code =>
      have hexit : Stays False [] (proc_exit host code.toNat) w fun _ _ => True :=
        (stays_ask hhost (.exit _) False.elim).weaken
      exact hexit.rel.tidy hw
    | proc_raise signal =>
      have hraise : Stays False [] (proc_raise host signal.toNat) w fun _ _ => True := by
        unfold proc_raise
        split
        · exact stays_answer (by decide)
        · refine meets_catching (stays_ask hhost (.kill _) False.elim).weaken (fun _ h => h) ?_
          exact fun e w' _ _ => stays_ite (fun _ => stays_answer (by decide)) fun _ =>
            .throw False.elim
      exact hraise.rel.tidy hw
    | _ => exact absurd rfl hreturns

/-! ## The constructor -/

omit hhost in
theorem stays_wasiException {α : Type} {errno : String} {Q : α → World η → Prop} :
    Stays False [] (wasiException errno) w Q := .throw False.elim

omit hhost in
theorem stays_orInitFails {α : Type} {x : Syscall η α} {Q : α → World η → Prop}
    (h : Stays False [] x w Q) : Stays False [] (orInitFails x) w Q :=
  meets_catching h (fun _ h => h) fun _ _ _ _ => stays_wasiException

theorem stays_stdioDescriptor {name : Str} (hname : IsNormal name) (given : ℕ) :
    Stays False [] (stdioDescriptor host name given) w fun d _ => d.Sane := by
  have hstream : ∀ (stream : Stream) (isTTY : Bool), (streamDescriptor stream isTTY).Sane := by
    intro stream isTTY
    refine ⟨?_, nofun, le_refl _⟩
    cases stream with
    | stdin => exact (by decide : IsNormal "<stdin>".toList)
    | stdout => exact (by decide : IsNormal "<stdout>".toList)
    | stderr => exact (by decide : IsNormal "<stderr>".toList)
  unfold stdioDescriptor
  split
  · exact .pure (hstream _ _)
  · exact .pure (hstream _ _)
  · exact .pure (hstream _ _)
  · exact stays_orInitFails (stays_fileDescriptor hhost hname nofun)

theorem stays_addStdio (fd : ℕ) {name : Str} (hname : IsNormal name) (given : ℕ) :
    Stays False [] (addStdio host fd name given) w fun _ _ => True :=
  (stays_stdioDescriptor hhost hname given).bind fun _ _ _ hd =>
    stays_modify rfl rfl (fun hw => hw.set ⟨hd.path, hd.hostPath, hd.position⟩) trivial

theorem stays_addPreopens (preopens : List (Str × Str)) :
    Stays False [] (addPreopens host preopens) w fun _ _ => True := by
  induction preopens generalizing w with
  | nil => exact .pure trivial
  | cons preopen preopens ih =>
    have hfound : Stays False [] (do
        let hostPath : Str ← ask host (.realpathSync preopen.2)
        let stats : HostStats ← ask host (.statSync hostPath)
        return (hostPath, stats)) w fun found _ => Clean found.1 :=
      (stays_ask hhost (.realpathSync preopen.2) False.elim).bind fun _ _ _ hpath =>
        (stays_ask hhost (.statSync _) False.elim).bind fun _ _ _ _ => .pure hpath.2.1
    refine (stays_orInitFails hfound).bind fun found w₁ _ hclean => ?_
    refine stays_ite (fun _ => stays_wasiException) fun _ => ?_
    exact (stays_insert ⟨isNormal_normalizePath _, hclean, le_refl _⟩).bind fun _ _ _ _ => ih

theorem tidy_construct (options : Options) (memory : List UInt8) (state : η) :
    Tidy ((construct host options).run (emptyWorld memory state)).2 := by
  have hconstruct : Stays False [] (construct host options) (emptyWorld memory state)
      fun _ _ => True := by
    refine (stays_modify (Q := fun _ _ => True) rfl rfl (fun _ => ?_) trivial).bind
      fun _ _ _ _ => ?_
    · exact nofun
    · exact (stays_addStdio hhost _ (by decide) _).bind fun _ _ _ _ =>
        (stays_addStdio hhost _ (by decide) _).bind fun _ _ _ _ =>
          (stays_addStdio hhost _ (by decide) _).bind fun _ _ _ _ => stays_addPreopens hhost _
  exact hconstruct.rel.tidy nofun

theorem tidy_of_reachable (h : Reachable host w) : Tidy w := by
  obtain ⟨options, memory, state, start, actions, hstart, hrun⟩ := h
  refine Machine.invariant (fun s a t hs hstep => ?_) ?_ hrun
  · cases a with
    | call call =>
      cases hstep
      exact hs.perform hhost call
    | guest | outside =>
      cases hstep
      exact hs
  · have htidy := tidy_construct hhost options memory state
    rwa [hstart] at htidy

/-! ## The law -/

omit hhost

/-- A syscall answers an errno, touches the memory only inside the ranges its arguments name,
and answers `EOVERFLOW` exactly where one of them does not fit. -/
structure Bounded (host : Host η) (w : World η) (call : Call) : Prop where
  errno : ∃ errno, (perform host w call).1 = .errno errno
  overflow : (perform host w call).1 = .errno .EOVERFLOW ↔
    ∃ r ∈ call.ranges w, w.fits r.1 r.2 = false
  touches : ∀ event ∈ newEvents w (perform host w call).2,
    event.Inside (call.ranges w) w.memory.length
  length : (perform host w call).2.memory.length = w.memory.length
  frame : ∀ i, (∀ r ∈ call.ranges w, i < r.1 ∨ r.1 + r.2 ≤ i) →
    (perform host w call).2.memory[i]? = w.memory[i]?

theorem not_allFit {ranges : List (ℕ × ℕ)} :
    ¬ AllFit w ranges ↔ ∃ r ∈ ranges, w.fits r.1 r.2 = false := by
  simp [AllFit]

/-- A host with an open file, which takes the sizes that its documentation gives, and has
nothing else. -/
def oneFile : Host Unit where
  answer _ call :=
    (match call with
      | .fstatSync _ => .ok { isFile := true }
      | .ftruncateSync _ length =>
          if -(2 ^ 53) < length ∧ length < 2 ^ 53 then .ok ()
          else .error ⟨some "ERR_OUT_OF_RANGE"⟩
      | _ => .error ⟨some "ENOSYS"⟩, ())
  isTTY _ := false
  hasUtimes := true
  hasReadlink := true
  hasSymlink := true

theorem documented_oneFile : Documented oneFile := by
  have hfault : FsFault ⟨some "ENOSYS"⟩ := ⟨by decide, by decide⟩
  refine ⟨fun state call a hok => ?_, fun state call e hrange herror => ?_⟩
  · cases call with
    | fstatSync =>
      cases hok
      exact ⟨trivial, by decide, nofun, nofun⟩
    | ftruncateSync => exact ⟨trivial, trivial⟩
    | _ => cases hok
  · cases call with
    | fstatSync => cases herror
    | ftruncateSync fd length =>
      have hif : (if -(2 ^ 53) < length ∧ length < 2 ^ 53 then Except.ok ()
        else Except.error (⟨some "ERR_OUT_OF_RANGE"⟩ : HostError)) = .error e := herror
      have hlength : -(2 ^ 53) < length ∧ length < 2 ^ 53 := hrange
      rw [if_pos hlength] at hif
      cases hif
    | _ =>
      cases herror
      exact hfault

def fileAsStdin : World Unit :=
  ((construct oneFile ⟨[], [], [], 5, 1, 2⟩).run (emptyWorld [] ())).2

theorem reachable_fileAsStdin : Reachable oneFile fileAsStdin :=
  ⟨⟨[], [], [], 5, 1, 2⟩, [], (), fileAsStdin, [], rfl, rfl⟩

end Wasi

end Tabnode
