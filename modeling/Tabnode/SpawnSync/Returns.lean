import Mathlib.Algebra.Order.Archimedean.Basic
import Mathlib.Algebra.Order.BigOperators.Group.List
import Mathlib.Data.Rat.Floor
import Mathlib.Tactic.Linarith
import Tabnode.SpawnSync.Served

/-!
# The loop over a synchronous child's pipes returns

The loop returns when the clock passes a deadline, and when every round makes progress and the
child does not write for ever, or no more than what may be kept. A child that never stops
writing is read for ever where nothing limits it.
-/

namespace Tabnode

namespace SpawnSync

open List Option

variable {κ : Type*} {pipes : List SyncPipe} {s : Drain κ}

/-! ## The loop returns -/

/-- What is left to do with a pipe: the bytes to send, and the ends of its directions. -/
def SyncPipe.left (p : SyncPipe) : ℕ :=
  p.input.length - p.sent + (if p.reading then 1 else 0) + if p.writing then 1 else 0

def Drain.left (s : Drain κ) : ℕ := (s.pipes.map SyncPipe.left).sum

theorem sum_modify_le {f : SyncPipe → SyncPipe} (hf : ∀ p, (f p).left ≤ p.left) (pipe : ℕ)
    (pipes : List SyncPipe) :
    ((pipes.modify pipe f).map SyncPipe.left).sum ≤ (pipes.map SyncPipe.left).sum := by
  induction pipes generalizing pipe with
  | nil => simp
  | cons p rest ih =>
    cases pipe with
    | zero =>
      rw [modify_zero_cons, map_cons, map_cons, sum_cons, sum_cons]
      exact Nat.add_le_add_right (hf p) _
    | succ pipe =>
      rw [modify_succ_cons, map_cons, map_cons, sum_cons, sum_cons]
      exact Nat.add_le_add_left (ih pipe) _

theorem left_update_le {f : SyncPipe → SyncPipe} (hf : ∀ p, (f p).left ≤ p.left) (pipe : ℕ)
    (event : Event) : (s.update pipe f event).left ≤ s.left :=
  sum_modify_le hf pipe s.pipes

theorem left_fail_le (s : Drain κ) (pipe : ℕ) (error : ℤ) : (s.fail pipe error).left ≤ s.left := by
  refine left_update_le (fun p => ?_) pipe (.failed pipe error)
  simp [SyncPipe.left]
  omega

theorem left_shutdown_le (sockets : TreeSockets κ) (s : Drain κ) (pipe : ℕ) :
    (s.shutdown sockets pipe).left ≤ s.left := by
  have hshut : ∀ (kernel : κ) (event : Event), (Drain.update { s with kernel := kernel } pipe
      (fun p => { p with writing := false }) event).left ≤ s.left := by
    intro kernel event
    refine left_update_le (fun p => ?_) pipe _
    simp [SyncPipe.left]
  unfold Drain.shutdown
  split
  · exact le_rfl
  · dsimp only
    split_ifs
    · exact (left_fail_le _ _ _).trans (hshut _ _)
    · exact hshut _ _
    · exact le_rfl

theorem left_send_le (sockets : TreeSockets κ) (s : Drain κ) (pipe : ℕ) :
    (s.send sockets pipe).left ≤ s.left := by
  unfold Drain.send
  split
  · exact le_rfl
  · dsimp only
    split_ifs
    · refine left_update_le (fun p => ?_) pipe _
      rw [SyncPipe.left, SyncPipe.left]
      dsimp only
      omega
    · exact le_rfl
    · exact left_fail_le _ _ _
    · exact le_rfl

theorem left_receive_le (sockets : TreeSockets κ) (limits : DrainLimits) (s : Drain κ)
    (pipe : ℕ) : (s.receive sockets limits pipe).1.left ≤ s.left ∧
      s.buffered ≤ (s.receive sockets limits pipe).1.buffered := by
  unfold Drain.receive
  split
  · exact ⟨le_rfl, le_rfl⟩
  · dsimp only
    split_ifs
    · exact ⟨le_rfl, le_rfl⟩
    · exact ⟨left_fail_le _ _ _, le_rfl⟩
    · refine ⟨left_update_le (fun p => ?_) pipe _, le_rfl⟩
      simp [SyncPipe.left]
    · exact ⟨sum_modify_le (fun _ => le_rfl) pipe s.pipes, Nat.le_add_right _ _⟩
    · exact ⟨le_rfl, le_rfl⟩

theorem left_foldl_le {f : Drain κ → ℕ → Drain κ} (hf : ∀ s pipe, (f s pipe).left ≤ s.left)
    (places : List ℕ) (s : Drain κ) : (places.foldl f s).left ≤ s.left := by
  induction places generalizing s with
  | nil => exact le_rfl
  | cons place places ih => exact (ih (f s place)).trans (hf s place)

theorem left_serve_le (sockets : TreeSockets κ) (limits : DrainLimits) (ready : List (ℕ × ℕ))
    (s : Drain κ) : (s.serve sockets limits ready).1.left ≤ s.left ∧
      s.buffered ≤ (s.serve sockets limits ready).1.buffered := by
  induction ready generalizing s with
  | nil => exact ⟨le_rfl, le_rfl⟩
  | cons first rest ih =>
    obtain ⟨hleft, hbuffered⟩ := left_receive_le sockets limits (s.send sockets first.1) first.1
    rw [buffered_send] at hbuffered
    have hsent := hleft.trans (left_send_le sockets s first.1)
    rw [Drain.serve]
    dsimp only
    split_ifs with hnone hover
    · exact ih s
    · exact ⟨hsent, hbuffered⟩
    · obtain ⟨hrest, hmore⟩ := ih ((s.send sockets first.1).receive sockets limits first.1).1
      exact ⟨hrest.trans hsent, hbuffered.trans hmore⟩

variable {sockets : TreeSockets κ} {limits : DrainLimits} {u : Drain κ}

/-- What a round does that goes on: it reads the clock, which has not met the deadline, polls,
and then does nothing, fails those that it asked about, or serves those that are ready. -/
theorem cases_of_round (h : s.round sockets limits = (u, none)) :
    limits.expired (sockets.now (s.opened sockets).kernel).2 = false ∧
      ∃ fds time, ∃ polled : Drain κ,
        polled = { s.opened sockets with
          kernel := (sockets.poll
            (Drain.wait sockets limits (sockets.now (s.opened sockets).kernel).1).1 fds time).1 } ∧
        (u = polled ∨
          (∃ (error : ℤ) (places : List ℕ),
            u = places.foldl (fun s pipe => s.fail pipe error) polled) ∨
          ∃ ready, u = (polled.serve sockets limits ready).1) := by
  rw [Drain.round] at h
  change (if (s.opened sockets).asked = [] then (_, some _) else
    (s.opened sockets).ask sockets limits : Drain κ × Option DrainOutcome) = _ at h
  generalize s.opened sockets = o at *
  split_ifs at h with hasked
  · cases h
  · rw [Drain.ask] at h
    dsimp only at h
    split_ifs at h with hexpired hagain hfailed hover
    · cases h
    · exact ⟨Bool.eq_false_iff.2 hexpired, _, _, _, rfl, .inl (Prod.ext_iff.1 h).1.symm⟩
    · exact ⟨Bool.eq_false_iff.2 hexpired, _, _, _, rfl, .inr (.inl ⟨_, _, (Prod.ext_iff.1 h).1.symm⟩)⟩
    · cases h
    · exact ⟨Bool.eq_false_iff.2 hexpired, _, _, _, rfl, .inr (.inr ⟨_, (Prod.ext_iff.1 h).1.symm⟩)⟩

theorem left_of_going
    (h : s.round sockets limits = (u, none)) : u.left ≤ s.left ∧ s.buffered ≤ u.buffered := by
  have hopened : (s.opened sockets).left ≤ s.left :=
    left_foldl_le (left_shutdown_le sockets) _ s
  have hbuffered := (buffered_opened sockets s).ge
  obtain ⟨-, fds, time, polled, hpolled, hcases⟩ := cases_of_round h
  have hleft : polled.left ≤ s.left := hpolled ▸ hopened
  have hmore : s.buffered ≤ polled.buffered := hpolled ▸ hbuffered
  rcases hcases with rfl | ⟨error, places, rfl⟩ | ⟨ready, rfl⟩
  · exact ⟨hleft, hmore⟩
  · refine ⟨(left_foldl_le (fun s pipe => left_fail_le s pipe error) places polled).trans hleft, ?_⟩
    rwa [buffered_foldl fun s pipe => buffered_fail s pipe error]
  · obtain ⟨hserved, hread⟩ := left_serve_le sockets limits ready polled
    exact ⟨hserved.trans hleft, hmore.trans hread⟩

theorem rounds_succ {n : ℕ} {t : Drain κ} (h : s.rounds sockets limits n = (t, none)) :
    s.rounds sockets limits (n + 1) = t.round sockets limits := by
  induction n generalizing s with
  | zero =>
    cases h
    rw [Drain.rounds]
    split <;> rename_i hround <;> exact hround.symm
  | succ n ih =>
    rw [Drain.rounds] at h ⊢
    split at h
    · exact ih h
    · cases h

/-- Each round that goes on takes a byte of an input, reads one, or ends a direction of a
pipe. -/
def Progresses (sockets : TreeSockets κ) (limits : DrainLimits) (s : Drain κ) : Prop :=
  ∀ n t u, s.rounds sockets limits n = (t, none) → t.round sockets limits = (u, none) →
    u.left < t.left ∨ t.buffered < u.buffered

def Writes (sockets : TreeSockets κ) (limits : DrainLimits) (s : Drain κ) (total : ℕ) : Prop :=
  ∀ n t, s.rounds sockets limits n = (t, none) → t.buffered ≤ total

/-- A loop that does not return goes on for any number of rounds. -/
theorem going_of_not_returned (h : ∀ n, (s.rounds sockets limits n).2 = none) (n : ℕ) :
    ∃ t u, s.rounds sockets limits n = (t, none) ∧ t.round sockets limits = (u, none) := by
  have hn : s.rounds sockets limits n = ((s.rounds sockets limits n).1, none) :=
    Prod.ext rfl (h n)
  have hnext := h (n + 1)
  rw [rounds_succ hn] at hnext
  exact ⟨_, _, hn, Prod.ext rfl hnext⟩

theorem returns_of_progress {total : ℕ} (hprogress : Progresses sockets limits s)
    (hwrites : Writes sockets limits s total) :
    ∃ n, (s.rounds sockets limits n).2.isSome = true := by
  by_contra hnever
  have hgoing : ∀ n, (s.rounds sockets limits n).2 = none := fun n =>
    not_isSome_iff_eq_none.1 fun hsome => hnever ⟨n, hsome⟩
  have hfalls : ∀ n, ∃ t, s.rounds sockets limits n = (t, none) ∧
      n + (t.left + (total - t.buffered)) ≤ s.left + total := by
    intro n
    induction n with
    | zero => exact ⟨s, rfl, by omega⟩
    | succ n ih =>
      obtain ⟨t, ht, hle⟩ := ih
      obtain ⟨t', u, ht', hu⟩ := going_of_not_returned hgoing n
      obtain rfl : t = t' := (Prod.ext_iff.1 (ht.symm.trans ht')).1
      have hnext := (rounds_succ ht).trans hu
      have hmost := hwrites _ _ hnext
      have hround := left_of_going hu
      refine ⟨u, hnext, ?_⟩
      rcases hprogress n t u ht hu with hleft | hread <;> omega
  obtain ⟨t, -, hle⟩ := hfalls (s.left + total + 1)
  omega

/-- A clock that no call turns back and every poll moves on by at least a tick. -/
structure Clock (sockets : TreeSockets κ) where
  time : κ → ℚ
  tick : ℚ
  tick_pos : 0 < tick
  le_now : ∀ kernel, time kernel ≤ (sockets.now kernel).2
  now_le : ∀ kernel, time kernel ≤ time (sockets.now kernel).1
  shutdown_le : ∀ kernel fd, time kernel ≤ time (sockets.shutdown kernel fd).1
  sendto_le : ∀ kernel fd bytes, time kernel ≤ time (sockets.sendto kernel fd bytes).1
  recvfrom_le : ∀ kernel fd, time kernel ≤ time (sockets.recvfrom kernel fd).1
  poll_le : ∀ kernel fds wait, time kernel + tick ≤ time (sockets.poll kernel fds wait).1

theorem time_shutdown_le (clock : Clock sockets) (s : Drain κ)
    (pipe : ℕ) : clock.time s.kernel ≤ clock.time (s.shutdown sockets pipe).kernel := by
  unfold Drain.shutdown
  split
  · exact le_rfl
  · dsimp only
    split_ifs
    · exact clock.shutdown_le _ _
    · exact clock.shutdown_le _ _
    · exact le_rfl

theorem time_send_le (clock : Clock sockets) (s : Drain κ)
    (pipe : ℕ) : clock.time s.kernel ≤ clock.time (s.send sockets pipe).kernel := by
  unfold Drain.send
  split
  · exact le_rfl
  · dsimp only
    split_ifs
    · exact clock.sendto_le _ _ _
    · exact clock.sendto_le _ _ _
    · exact clock.sendto_le _ _ _
    · exact le_rfl

theorem time_receive_le (clock : Clock sockets) (limits : DrainLimits) (s : Drain κ) (pipe : ℕ) :
    clock.time s.kernel ≤ clock.time (s.receive sockets limits pipe).1.kernel := by
  unfold Drain.receive
  split
  · exact le_rfl
  · dsimp only
    split_ifs
    · exact clock.recvfrom_le _ _
    · exact clock.recvfrom_le _ _
    · exact clock.recvfrom_le _ _
    · exact clock.recvfrom_le _ _
    · exact le_rfl

theorem time_serve_le (clock : Clock sockets) (limits : DrainLimits) (ready : List (ℕ × ℕ))
    (s : Drain κ) : clock.time s.kernel ≤ clock.time (s.serve sockets limits ready).1.kernel := by
  induction ready generalizing s with
  | nil => exact le_rfl
  | cons first rest ih =>
    have hserved := (time_send_le clock s first.1).trans
      (time_receive_le clock limits (s.send sockets first.1) first.1)
    rw [Drain.serve]
    dsimp only
    split_ifs with hnone hover
    · exact ih s
    · exact hserved
    · exact hserved.trans (ih _)

theorem kernel_foldl_fail (error : ℤ) (places : List ℕ) (s : Drain κ) :
    (places.foldl (fun s pipe => s.fail pipe error) s).kernel = s.kernel := by
  induction places generalizing s with
  | nil => rfl
  | cons place places ih => exact ih (s.fail place error)

theorem time_opened_le (clock : Clock sockets) (s : Drain κ) :
    clock.time s.kernel ≤ clock.time (s.opened sockets).kernel := by
  rw [Drain.opened]
  generalize List.range s.pipes.length = places
  induction places generalizing s with
  | nil => exact le_rfl
  | cons place places ih => exact (time_shutdown_le clock s place).trans (ih _)

/-- A round that goes on has not met the deadline, and takes a tick. -/
theorem time_of_going (clock : Clock sockets) {deadline : ℚ}
    (hdeadline : limits.deadline = some deadline) (h : s.round sockets limits = (u, none)) :
    clock.time s.kernel < deadline ∧ clock.time s.kernel + clock.tick ≤ clock.time u.kernel := by
  have hopened := time_opened_le clock s
  obtain ⟨hexpired, fds, time, polled, hpolled, hcases⟩ := cases_of_round h
  have hreads := clock.le_now (s.opened sockets).kernel
  have hnow := clock.now_le (s.opened sockets).kernel
  have hwait := clock.poll_le
    (Drain.wait sockets limits (sockets.now (s.opened sockets).kernel).1).1 fds time
  have hkernel := congrArg Drain.kernel hpolled
  dsimp only at hkernel
  rw [← hkernel, Drain.wait, hdeadline] at hwait
  have hagain := clock.now_le (sockets.now (s.opened sockets).kernel).1
  rw [DrainLimits.expired, hdeadline, any_some, decide_eq_false_iff_not, not_le] at hexpired
  have htick : clock.time s.kernel + clock.tick ≤ clock.time polled.kernel :=
    (add_le_add_left (hopened.trans (hnow.trans hagain)) clock.tick).trans hwait
  refine ⟨(hopened.trans hreads).trans_lt hexpired, ?_⟩
  rcases hcases with rfl | ⟨error, places, rfl⟩ | ⟨ready, rfl⟩
  · exact htick
  · rwa [kernel_foldl_fail]
  · exact htick.trans (time_serve_le clock limits ready polled)

theorem returns_of_deadline (clock : Clock sockets) (hlimit : limits.deadline.isSome = true) :
    ∃ n, (s.rounds sockets limits n).2.isSome = true := by
  obtain ⟨deadline, hdeadline⟩ := isSome_iff_exists.1 hlimit
  by_contra hnever
  have hgoing : ∀ n, (s.rounds sockets limits n).2 = none := fun n =>
    not_isSome_iff_eq_none.1 fun hsome => hnever ⟨n, hsome⟩
  have hrises : ∀ n : ℕ, ∃ t, s.rounds sockets limits n = (t, none) ∧
      clock.time s.kernel + n * clock.tick ≤ clock.time t.kernel := by
    intro n
    induction n with
    | zero => exact ⟨s, rfl, by simp⟩
    | succ n ih =>
      obtain ⟨t, ht, hle⟩ := ih
      obtain ⟨t', u, ht', hu⟩ := going_of_not_returned hgoing n
      obtain rfl : t = t' := (Prod.ext_iff.1 (ht.symm.trans ht')).1
      refine ⟨u, (rounds_succ ht).trans hu, ?_⟩
      have htick := (time_of_going clock hdeadline hu).2
      push_cast
      linarith
  obtain ⟨n, hn⟩ := exists_nat_gt ((deadline - clock.time s.kernel) / clock.tick)
  obtain ⟨t, ht, hle⟩ := hrises n
  obtain ⟨t', u, ht', hu⟩ := going_of_not_returned hgoing n
  obtain rfl : t = t' := (Prod.ext_iff.1 (ht.symm.trans ht')).1
  have hbefore := (time_of_going clock hdeadline hu).1
  rw [div_lt_iff₀ clock.tick_pos] at hn
  linarith

/-! ## The whole -/

theorem kept_new (kernel : κ) (hsent : ∀ p ∈ pipes, p.sent = 0) :
    Kept pipes (Drain.new kernel pipes) := by
  refine ⟨rfl, fun pipe given p hgiven hp => ?_, rfl, rfl, rfl, by simp [Drain.new]⟩
  obtain rfl : given = p := Option.some.inj (hgiven.symm.trans hp)
  have hzero := hsent given (mem_of_getElem? hgiven)
  refine ⟨rfl, rfl, hzero ▸ Nat.zero_le _, ?_, fun hwriting => ⟨hwriting, rfl⟩, id, fun _ => hzero,
    Nat.zero_le _, ?_, ?_, .inl, .inl⟩
  · rw [hzero, take_zero]
    rfl
  · intro n status hn
    cases hn
  · intro bytes hbytes
    cases hbytes

theorem fits_new (limits : DrainLimits) (kernel : κ) (pipes : List SyncPipe) :
    Fits limits (Drain.new kernel pipes) := by
  rw [Fits, DrainLimits.overflows]
  cases hmost : limits.maxBuffer with
  | none => rfl
  | some most =>
    have hnonneg := limits.maxBuffer_nonneg most hmost
    simpa [Drain.new] using hnonneg

theorem writes_of_maxBuffer (h : Kept pipes s) (hfits : Fits limits s)
    (hmost : limits.maxBuffer.isSome = true) : ∃ total, Writes sockets limits s total := by
  obtain ⟨most, hsome⟩ := isSome_iff_exists.1 hmost
  refine ⟨⌊most⌋₊, fun n t ht => ?_⟩
  have hrounded := rounded_rounds h hfits sockets n
  rw [ht] at hrounded
  have hfit := (hrounded.going rfl).2
  rw [Fits, DrainLimits.overflows, hsome, any_some, decide_eq_false_iff_not, not_lt] at hfit
  exact Nat.le_floor hfit

/-- The pipes of a synchronous child are served to their end, whatever the kernel does: what the
loop has done when it returns is as `Served` says. It returns where a deadline is finite and the
clock goes on, and where every round makes progress and what the child writes in all, or what is
kept of it, is finite. -/
theorem drainSyncPipes_served (sockets : TreeSockets κ) (limits : DrainLimits) (kernel : κ)
    {pipes : List SyncPipe} (hsent : ∀ p ∈ pipes, p.sent = 0) :
    (∀ n s outcome, drainSyncPipes sockets limits kernel pipes n = (s, some outcome) →
      Served pipes limits s.log outcome) ∧
    (Nonempty (Clock sockets) → limits.deadline.isSome = true →
      ∃ n, (drainSyncPipes sockets limits kernel pipes n).2.isSome = true) ∧
    (Progresses sockets limits (.new kernel pipes) →
      (limits.maxBuffer.isSome = true ∨
        ∃ total, Writes sockets limits (.new kernel pipes) total) →
      ∃ n, (drainSyncPipes sockets limits kernel pipes n).2.isSome = true) := by
  have hkept := kept_new kernel hsent
  have hfits := fits_new limits kernel pipes
  refine ⟨fun n s outcome hreturned => ?_, ?_, fun hprogress hfinite => ?_⟩
  · have hrounded := rounded_rounds hkept hfits sockets n
    rw [drainSyncPipes] at hreturned
    rw [hreturned] at hrounded
    exact hrounded.returned outcome rfl
  · rintro ⟨clock⟩ hdeadline
    exact returns_of_deadline clock hdeadline
  · obtain ⟨total, hwrites⟩ : ∃ total, Writes sockets limits (.new kernel pipes) total :=
      hfinite.elim (writes_of_maxBuffer hkept hfits) id
    exact returns_of_progress hprogress hwrites

/-- A kernel whose pipes are always ready, which takes all and gives one byte at a time. -/
def eager : TreeSockets Unit where
  now _ := ((), 0)
  shutdown _ _ := ((), 0)
  poll _ _ _ := ((), 1, fun _ => pollin)
  sendto _ _ bytes := ((), bytes.length)
  recvfrom _ _ := ((), 1, [0])
  sendto_le _ _ _ := le_rfl
  recvfrom_le _ _ := le_rfl

def unlimited : DrainLimits := ⟨none, none, fun _ hnone => absurd hnone (by simp)⟩

theorem drainSyncPipes_served_input :
    ∃ s outcome, drainSyncPipes eager unlimited () [⟨3, 0, false, true, [1, 2], 0⟩] 2 =
        (s, some outcome) ∧
      Served [⟨3, 0, false, true, [1, 2], 0⟩] unlimited s.log outcome :=
  ⟨_, _, rfl, (drainSyncPipes_served eager unlimited () (by decide)).1 2 _ _ rfl⟩

theorem round_eager (buffered : ℕ) (pipeError : Option ℤ) (log : List Event) :
    Drain.round eager unlimited ⟨(), [⟨3, 1, true, false, [], 0⟩], buffered, pipeError, log⟩ =
      (⟨(), [⟨3, 1, true, false, [], 0⟩], buffered + 1, pipeError,
        log ++ [.received 0 [0]] ++ [.keep 1 [0]]⟩, none) := rfl

/-- A child that never stops writing is read for ever. -/
theorem drainSyncPipes_flooded :
    Progresses eager unlimited (.new () [⟨3, 1, true, false, [], 0⟩]) ∧
      ∀ n, (drainSyncPipes eager unlimited () [⟨3, 1, true, false, [], 0⟩] n).2 = none := by
  have hrounds : ∀ (n buffered : ℕ) (log : List Event), ∃ (more : ℕ) (rest : List Event),
      Drain.rounds eager unlimited n ⟨(), [⟨3, 1, true, false, [], 0⟩], buffered, none, log⟩ =
        (⟨(), [⟨3, 1, true, false, [], 0⟩], more, none, rest⟩, none) := by
    intro n
    induction n with
    | zero => exact fun buffered log => ⟨buffered, log, rfl⟩
    | succ n ih =>
      intro buffered log
      rw [Drain.rounds, round_eager]
      exact ih _ _
  refine ⟨fun n t u ht hu => .inr ?_, fun n => ?_⟩
  · obtain ⟨more, rest, heq⟩ := hrounds n 0 []
    obtain rfl := (Prod.ext_iff.1 (ht.symm.trans heq)).1
    rw [round_eager] at hu
    obtain rfl := (Prod.ext_iff.1 hu).1
    exact Nat.lt_succ_self more
  · obtain ⟨more, rest, heq⟩ := hrounds n 0 []
    exact (congrArg Prod.snd heq : _)

end SpawnSync

end Tabnode
