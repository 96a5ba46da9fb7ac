import Mathlib.Algebra.Order.BigOperators.Group.List
import Mathlib.Algebra.Order.Group.Nat
import Tabnode.NativeStream.Queue

/-!
# What a stream handle has sent

In every run of a driver each write that it takes on is handed over once and in its order, and
a shutdown that was asked for comes after all of them. The answers that the driver awaits are
finitely many; once they are in, nothing waits and the shutdown is handed over, unless the
handle was closed or its owner is gone.
-/

namespace Tabnode

namespace NativeStream

open List

def Pump.current : Pump → Option (ℕ × List (List UInt8))
  | .chunk request _ rest => some (request, rest)
  | _ => none

/-- What is awaited is the answer for the first write that waits, if it has not ended. -/
def Pumped (s : Driver) : Prop :=
  match s.pump with
  | .idle => s.writes = [] ∧ s.pendingShutdown = false
  | .turn => True
  | .attempt request => request < s.requests.length ∧
    ∀ write ∈ s.writes, write.request = request → write.submitted = true
  | .chunk request _ _ => ∀ write ∈ s.writes,
    request ≤ write.request ∧ (write.request = request → write.submitted = false)

/-- What every step keeps. -/
structure Orderly (s : Driver) : Prop where
  kept : Kept s.pump.current s
  pumped : Pumped s

variable {s : Driver}

variable {current : Option (ℕ × List (List UInt8))} {answers : Answers}

theorem orderly_endNext (h : Kept current s) {write : PendingWrite} (hwrite : write ∈ s.writes)
    {status : ℤ}
    (hcurrent : ∀ request rest, current = some (request, rest) → request = write.request)
    (hleft : status = 0 → write.submitted = true ∨ leftFor current s.limit write = []) :
    Orderly (s.endNext write status answers) := by
  have hkept := @Kept.finishWrite _ _ write h hwrite status answers.endThrows hleft
  refine ⟨Kept.frame (hkept.dropCurrent ?_) .turn s.bytesWritten _, trivial⟩
  intro request rest hsome other hother heq
  have hne := (mem_filter.1 hother).2
  rw [heq, hcurrent request rest hsome] at hne
  simp at hne

theorem orderly_nextChunk {write : PendingWrite} {chunks : List (List UInt8)}
    (h : Kept (some (write.request, chunks)) s) (hwrite : write ∈ s.writes)
    (hsubmitted : write.submitted = false)
    (hfirst : ∀ other ∈ s.writes, write.request ≤ other.request) :
    Orderly (s.nextChunk write answers chunks) := by
  have hcurrent : ∀ {chunks : List (List UInt8)} (request : ℕ) (rest : List (List UInt8)),
      some (write.request, chunks) = some (request, rest) → request = write.request := by
    intro chunks request rest hsome
    cases hsome
    rfl
  have hunsubmitted : ∀ other ∈ s.writes, other.request = write.request →
      other.submitted = false := by
    intro other hother heq
    rwa [h.eq_of_request hother hwrite heq]
  cases chunks with
  | nil => exact orderly_endNext h hwrite hcurrent fun _ => .inr (if_pos rfl)
  | cons chunk rest =>
    rw [Driver.nextChunk]
    have hkept := h.handOver_chunk hwrite rfl hunsubmitted hfirst
    split_ifs with hclosed hthrows
    · exact orderly_endNext h hwrite hcurrent fun hzero => absurd hzero (by decide)
    · refine orderly_endNext hkept hwrite hcurrent fun hzero => absurd hzero ?_
      rw [Driver.failure]
      split_ifs <;> decide
    · exact ⟨hkept.frame (.chunk write.request chunk.length rest) _ _,
        fun other hother => ⟨hfirst other hother, hunsubmitted other hother⟩⟩

theorem orderly_writeNext (h : Kept none s) : Orderly (s.writeNext answers) := by
  rw [Driver.writeNext]
  split
  · exact ⟨h.frame .turn _ _, trivial⟩
  · rename_i write rest hwrites
    have hwrite : write ∈ s.writes := hwrites ▸ mem_cons_self
    have hfirst : ∀ other ∈ s.writes, write.request ≤ other.request := by
      have hascending := h.ascending
      rw [hwrites] at hascending ⊢
      intro other hother
      rcases mem_cons.1 hother with rfl | hother
      · exact le_rfl
      · exact (rel_of_pairwise_cons hascending hother).le
    split_ifs with hsubmitted
    · refine ⟨h.frame (.attempt write.request) _ _, h.request_lt hwrite, fun other hother heq => ?_⟩
      rwa [h.eq_of_request hother hwrite heq]
    · exact orderly_nextChunk (h.setCurrent hwrite) hwrite (Bool.eq_false_iff.2 hsubmitted) hfirst

@[simp] theorem flushShutdown_pump (s : Driver) : s.flushShutdown.pump = s.pump := by
  rw [Driver.flushShutdown]
  dsimp only
  split_ifs <;> rfl

@[simp] theorem flushShutdown_writes (s : Driver) : s.flushShutdown.writes = s.writes := by
  rw [Driver.flushShutdown]
  dsimp only
  split_ifs <;> rfl

@[simp] theorem flushShutdown_requests (s : Driver) : s.flushShutdown.requests = s.requests := by
  rw [Driver.flushShutdown]
  dsimp only
  split_ifs <;> rfl

theorem flushShutdown_pendingShutdown (h : s.writes = []) :
    s.flushShutdown.pendingShutdown = false := by
  rw [Driver.flushShutdown]
  dsimp only
  split_ifs with hwait
  · exact hwait.resolve_left (not_not_intro h)
  · rfl
  · rfl

theorem orderly_pumpWrites (h : Kept none s) : Orderly (s.pumpWrites answers) := by
  rw [Driver.pumpWrites]
  split_ifs with hwrites
  · have hkept := (h.frame .idle s.bytesWritten s.writeQueueSize).flushShutdown
    refine ⟨?_, ?_⟩
    · rw [flushShutdown_pump]
      exact hkept
    · rw [Pumped, flushShutdown_pump, flushShutdown_writes]
      exact ⟨hwrites, flushShutdown_pendingShutdown hwrites⟩
  · exact orderly_writeNext h

/-! ## The calls -/

theorem orderly_enqueue {write : PendingWrite}
    (h : Kept s.pump.current { s with writes := s.writes ++ [write] })
    (hpumped : s.pump ≠ .idle → Pumped { s with writes := s.writes ++ [write] }) :
    Orderly (s.enqueue write answers).2 := by
  rw [Driver.enqueue]
  dsimp only
  split_ifs with hidle
  · rw [hidle] at h
    exact orderly_pumpWrites (h.frame _ s.bytesWritten (s.writeQueueSize + write.bytes))
  · exact ⟨h.frame _ _ _, hpumped hidle⟩

theorem pumped_enqueue (h : Orderly s) (hbusy : s.pump ≠ .idle) {write : PendingWrite}
    (hrequest : write.request = s.requests.length) (hsubmitted : write.submitted = false) :
    Pumped { s with
      requests := s.requests ++ [write.parts], writes := s.writes ++ [write] } := by
  have hpumped := h.pumped
  have hcurrent := h.kept.current_lt
  rw [Pumped] at hpumped ⊢
  dsimp only
  cases hpump : s.pump with
  | idle => exact absurd hpump hbusy
  | turn => trivial
  | attempt request =>
    rw [hpump] at hpumped
    refine ⟨?_, fun other hother heq => ?_⟩
    · rw [length_append]
      exact hpumped.1.trans_le (Nat.le_add_right _ _)
    · rcases mem_append.1 hother with hold | hnew
      · exact hpumped.2 other hold heq
      · rw [mem_singleton.1 hnew, hrequest] at heq
        exact absurd heq hpumped.1.ne'
  | chunk request length rest =>
    rw [hpump] at hpumped hcurrent
    intro other hother
    rcases mem_append.1 hother with hold | hnew
    · exact hpumped other hold
    · rw [mem_singleton.1 hnew, hrequest]
      exact ⟨(hcurrent request rest rfl).le, fun _ => hsubmitted⟩

variable {parts : List (List UInt8)} {limit : ℕ}

theorem headD_writeChunks (hlimit : 1 ≤ limit) (hpositive : 1 ≤ parts.flatten.length)
    (hfits : parts.flatten.length ≤ limit) :
    (writeChunks parts limit).headD [] = parts.flatten := by
  rw [(chunked_writeChunks parts hlimit).eq_singleton hpositive hfits]
  rfl

/-- Nothing waits and the transport may have taken the bounded attempt at a write. -/
theorem Kept.attempt (h : Kept none s) {write : PendingWrite} (hwrites : s.writes = [write])
    (hnone : entriesOf s.log write.request = []) :
    Kept none { s.handOver (.attempt write.request write.parts.flatten) with
      writes := [{ write with submitted := true }] } := by
  have hwrite : write ∈ s.writes := hwrites ▸ mem_singleton.2 rfl
  have hkept : Kept none { s.handOver (.attempt write.request write.parts.flatten) with
      writes := s.writes.map fun other => { other with submitted := true } } := by
    refine h.handOver (fun _ => ⟨rfl, rfl⟩) rfl (fun _ _ hsome => absurd hsome (by simp))
      ⟨write, hwrite, rfl⟩ ?_ ?_
    · intro other hother
      rw [hwrites] at hother
      rw [mem_singleton.1 hother]
    · intro other hother
      rw [hwrites] at hother
      rw [mem_singleton.1 hother, if_pos rfl, Attempted, Driver.handOver,
        entriesOf_append_self rfl, hnone, nil_append]
  rwa [hwrites] at hkept

theorem orderly_taken {write : PendingWrite} {status : ℤ} {throws : Bool} (hwrites : s.writes = [])
    (h : Kept none { s with writes := [{ write with submitted := true }] })
    (hidle : s.pump = .idle) (hpending : s.pendingShutdown = false) (bytesWritten : ℕ) :
    Orderly (Driver.finishWrite { s with bytesWritten := bytesWritten } write status throws) := by
  have hkept := @Kept.finishWrite _ _ { write with submitted := true } h
    (mem_singleton.2 rfl) status throws fun _ => .inl rfl
  have hsame : Driver.finishWrite { s with bytesWritten := bytesWritten } write status throws =
      { Driver.finishWrite { s with writes := [{ write with submitted := true }] }
          { write with submitted := true } status throws with
        bytesWritten := bytesWritten, writeQueueSize := s.writeQueueSize } := by
    simp [Driver.finishWrite, Driver.closeDescriptor, hwrites]
  rw [hsame]
  refine ⟨?_, ?_⟩
  · dsimp only [Driver.finishWrite]
    rw [hidle]
    exact hkept.frame _ _ _
  · rw [Pumped]
    dsimp only [Driver.finishWrite]
    rw [hidle]
    exact ⟨by simp, hpending⟩

variable {attempt : Attempt}

theorem orderly_attemptWrite {write : PendingWrite} (h : Kept none { s with writes := [write] })
    (hwrites : s.writes = []) (hidle : s.pump = .idle) (hpending : s.pendingShutdown = false)
    (hnone : entriesOf s.log write.request = [])
    (hwhole : (writeChunks write.parts s.limit).headD [] = write.parts.flatten) :
    Orderly (s.attemptWrite write attempt answers).2 := by
  have htaken := h.attempt rfl hnone
  have hwaits : Orderly (s.enqueue write answers).2 := by
    refine orderly_enqueue ?_ fun hne => absurd hidle hne
    rw [hidle, hwrites]
    rwa [hidle] at h
  cases attempt with
  | none => exact hwaits
  | thrown =>
    rw [Driver.attemptWrite, hwhole]
    exact @orderly_taken (s.handOver _) _ _ _ hwrites htaken hidle hpending _
  | pending =>
    rw [Driver.attemptWrite, hwhole]
    refine orderly_enqueue ?_ fun hne => absurd hidle hne
    dsimp only [Driver.handOver] at htaken ⊢
    rw [hidle] at htaken ⊢
    rw [hwrites]
    exact htaken
  | status code =>
    rw [Driver.attemptWrite, hwhole]
    dsimp only
    split_ifs with hagain hzero
    · exact hwaits
    · exact @orderly_taken (s.handOver _) _ _ _ hwrites htaken hidle hpending _
    · exact @orderly_taken (s.handOver _) _ _ _ hwrites htaken hidle hpending _

theorem orderly_write (h : Orderly s) {sent : Option Sent} :
    Orderly (s.write parts sent attempt answers).2 := by
  rw [Driver.write]
  dsimp only
  split_ifs with hclosed hended hlarge hempty hunsent
  · exact h
  · exact h
  · exact h
  · exact h
  · exact h
  rw [Bool.not_eq_true] at hended
  rw [← length_flatten] at hempty ⊢
  split
  · exact h
  · rename_i kept hkept
    have hfresh := @Kept.enqueue _ _
      ⟨s.requests.length, parts, parts.flatten.length, kept, false⟩ h.kept hended rfl rfl
    split_ifs with hbounded
    · obtain ⟨-, hwrites, hidle, hfits, -⟩ := hbounded
      have hpending : s.pendingShutdown = false := by
        have hpumped := h.pumped
        rw [Pumped, hidle] at hpumped
        exact hpumped.2
      have hnone : entriesOf s.log s.requests.length = [] :=
        entriesOf_eq_nil fun entry hentry hsome => (h.kept.made entry hentry _ hsome).ne rfl
      have hcurrent : s.pump.current = none := by
        rw [hidle]
        rfl
      rw [hcurrent, hwrites] at hfresh
      exact orderly_attemptWrite hfresh hwrites hidle hpending hnone
        (headD_writeChunks h.kept.positive (Nat.one_le_iff_ne_zero.2 hempty) hfits)
    · by_cases hidle : s.pump = .idle
      · exact orderly_enqueue hfresh fun hne => absurd hidle hne
      · exact orderly_enqueue hfresh fun _ => pumped_enqueue h hidle rfl rfl

theorem orderly_shutdown (h : Orderly s) {answer : Option ℤ} :
    Orderly (s.shutdown answer).2 := by
  rw [Driver.shutdown]
  dsimp only
  split_ifs with hclosed hended hwrites
  · exact h
  · exact h
  · rw [Bool.not_eq_true] at hended
    obtain ⟨hnot, hpending⟩ := h.kept.unasked hended
    have hkept := @Kept.handOver_shutdown _ _ h.kept hwrites hnot true rfl
    rw [← hpending] at hkept
    exact ⟨hkept, h.pumped⟩
  · rw [Bool.not_eq_true] at hended
    obtain ⟨hnot, -⟩ := h.kept.unasked hended
    refine ⟨⟨h.kept.positive, h.kept.current_lt, h.kept.known, h.kept.ascending, h.kept.settled,
      h.kept.ended, h.kept.ordered, h.kept.behind, h.kept.made, h.kept.waiting, h.kept.gone,
      fun hopen => absurd hopen.symm Bool.false_ne_true, fun _ => hnot, fun _ => .inl rfl⟩, ?_⟩
    have hpumped := h.pumped
    rw [Pumped] at hpumped ⊢
    cases hpump : s.pump with
    | idle =>
      rw [hpump] at hpumped
      exact absurd hpumped.1 hwrites
    | turn => trivial
    | attempt _ | chunk _ _ _ => rwa [hpump] at hpumped

/-! ## The end of the owner -/

theorem Kept.finishAll :
    ∀ {writes : List PendingWrite} {s : Driver}, Kept current s → s.writes = writes →
      Kept current (writes.foldl (fun s write => s.finishWrite write uvEcanceled false) s) ∧
        (writes.foldl (fun s write => s.finishWrite write uvEcanceled false) s).writes = [] ∧
        (writes.foldl (fun s write => s.finishWrite write uvEcanceled false) s).pump = s.pump ∧
        (writes.foldl (fun s write => s.finishWrite write uvEcanceled false) s).requests = s.requests
  | [], s, h, hwrites => ⟨h, hwrites, rfl, rfl⟩
  | write :: rest, s, h, hwrites => by
    have hkept := @Kept.finishWrite _ _ write h (hwrites ▸ mem_cons_self) uvEcanceled false
      fun hzero => absurd hzero (by decide)
    have hrest : (s.finishWrite write uvEcanceled false).writes = rest := by
      have hascending := h.ascending
      rw [hwrites] at hascending
      rw [Driver.finishWrite, hwrites, filter_cons_of_neg (by simp), filter_eq_self]
      intro other hother
      simpa using (rel_of_pairwise_cons hascending hother).ne'
    exact hkept.finishAll hrest

theorem orderly_ownerStopped (h : Orderly s) : Orderly s.ownerStopped := by
  obtain ⟨hkept, hwrites, hpump, hrequests⟩ :=
    (@Kept.close _ _ h.kept true s.stopped fun _ => rfl).finishAll rfl
  rw [Driver.ownerStopped]
  dsimp only at hkept hwrites hpump hrequests ⊢
  generalize List.foldl (fun s write => Driver.finishWrite s write uvEcanceled false) _ _ = t at *
  refine ⟨?_, ?_⟩
  · rw [flushShutdown_pump, hpump]
    exact hkept.flushShutdown
  · have hpumped := h.pumped
    have hempty : ∀ {p : PendingWrite → Prop}, ∀ write ∈ t.flushShutdown.writes, p write := by
      intro p write hwrite
      rw [flushShutdown_writes, hwrites] at hwrite
      exact absurd hwrite not_mem_nil
    rw [Pumped] at hpumped ⊢
    rw [flushShutdown_pump, hpump]
    cases hcase : s.pump with
    | idle => exact ⟨(flushShutdown_writes t).trans hwrites, flushShutdown_pendingShutdown hwrites⟩
    | turn => trivial
    | attempt request =>
      rw [hcase] at hpumped
      refine ⟨?_, hempty⟩
      rw [flushShutdown_requests, hrequests]
      exact hpumped.1
    | chunk request length rest => exact hempty

/-! ## The answers -/

variable {request : ℕ}

theorem mem_of_find? {writes : List PendingWrite} {write : PendingWrite}
    (h : writes.find? (·.request = request) = some write) :
    write ∈ writes ∧ write.request = request :=
  ⟨mem_of_find?_eq_some h, by simpa using find?_some h⟩

theorem Kept.ofEnded (h : Kept current s)
    (hcurrent : ∀ other rest, current = some (other, rest) → other = request)
    (hnone : s.writes.find? (·.request = request) = none) : Orderly { s with pump := .turn } := by
  refine ⟨Kept.frame (h.dropCurrent ?_) .turn s.bytesWritten s.writeQueueSize, trivial⟩
  intro other rest hsome write hwrite heq
  rw [hcurrent other rest hsome] at heq
  have hne := find?_eq_none.1 hnone write hwrite
  simp only [heq] at hne
  simp at hne

theorem failure_ne_zero (s : Driver) : s.failure ≠ 0 := by
  rw [Driver.failure]
  split_ifs <;> decide

theorem orderly_attemptSettled (h : Orderly s) (hpump : s.pump = .attempt request)
    {status : Option ℤ} : Orderly (s.attemptSettled request status answers) := by
  obtain ⟨hkept, hpumped⟩ := h
  rw [Pumped, hpump] at hpumped
  rw [hpump] at hkept
  have hcurrent : ∀ {write : PendingWrite} (other : ℕ) (rest : List (List UInt8)),
      (Pump.attempt request).current = some (other, rest) → other = write.request :=
    fun _ _ hsome => by cases hsome
  unfold Driver.attemptSettled
  split
  · rename_i hnone
    exact hkept.ofEnded (fun _ _ hsome => by cases hsome) hnone
  · rename_i write hsome
    obtain ⟨hwrite, -⟩ := mem_of_find? hsome
    exact orderly_endNext hkept hwrite hcurrent fun hzero => absurd hzero (failure_ne_zero s)
  · rename_i write status hsome
    obtain ⟨hwrite, heq⟩ := mem_of_find? hsome
    dsimp only
    split_ifs with hzero
    · exact orderly_endNext
        (hkept.frame s.pump (s.bytesWritten + write.bytes) s.writeQueueSize) hwrite hcurrent fun _ => .inl (hpumped.2 write hwrite heq)
    · exact orderly_endNext hkept hwrite hcurrent fun hstatus => absurd hstatus hzero

theorem orderly_chunkSettled (h : Orderly s) {length : ℕ} {rest : List (List UInt8)}
    (hpump : s.pump = .chunk request length rest) {status : Option ℤ} :
    Orderly (s.chunkSettled request length rest status answers) := by
  obtain ⟨hkept, hpumped⟩ := h
  rw [Pumped, hpump] at hpumped
  rw [hpump] at hkept
  have hcurrent : ∀ (other : ℕ) (left : List (List UInt8)),
      (Pump.chunk request length rest).current = some (other, left) → other = request := by
    intro other left hsome
    cases hsome
    rfl
  unfold Driver.chunkSettled
  split
  · rename_i hnone
    exact hkept.ofEnded hcurrent hnone
  · rename_i write hsome
    obtain ⟨hwrite, heq⟩ := mem_of_find? hsome
    exact orderly_endNext hkept hwrite (heq ▸ hcurrent) fun hzero =>
      absurd hzero (failure_ne_zero s)
  · rename_i write status hsome
    obtain ⟨hwrite, heq⟩ := mem_of_find? hsome
    have hwrites : ∀ other ∈ s.writes,
        (if other.request = request then { write with sent := none } else other).request =
          other.request ∧
        (if other.request = request then { write with sent := none } else other).parts =
          other.parts ∧
        (if other.request = request then { write with sent := none } else other).submitted =
          other.submitted := by
      intro other hother
      split_ifs with hsame
      · rw [hkept.eq_of_request hother hwrite (hsame.trans heq.symm)]
        exact ⟨rfl, rfl, rfl⟩
      · exact ⟨rfl, rfl, rfl⟩
    have hmap := hkept.map hwrites
    have hsent : ({ write with sent := none } : PendingWrite) ∈
        s.writes.map fun other =>
          if other.request = request then { write with sent := none } else other :=
      mem_map.2 ⟨write, hwrite, if_pos heq⟩
    split_ifs with hthrows hstatus
    · exact orderly_endNext hkept hwrite (heq ▸ hcurrent) fun hzero =>
        absurd hzero (failure_ne_zero s)
    · exact orderly_endNext hmap hsent (heq ▸ hcurrent) fun hzero => absurd hzero hstatus
    · refine orderly_nextChunk (heq ▸ hmap.frame s.pump _ s.writeQueueSize) hsent
        ((hpumped write hwrite).2 heq) ?_
      intro other hother
      obtain ⟨waits, hwaits, rfl⟩ := mem_map.1 hother
      rw [(hwrites waits hwaits).1, heq]
      exact (hpumped waits hwaits).1

/-! ## Runs -/

variable {t : Driver} {action : WriteAction}

theorem orderly_step (h : Orderly s) (hstep : stepWrites s action = some t) : Orderly t := by
  cases action with
  | write parts sent attempt answers =>
    cases hstep
    exact orderly_write h
  | settled status answers =>
    rw [stepWrites] at hstep
    cases hpump : s.pump with
    | idle | turn =>
      rw [hpump] at hstep
      cases hstep
    | attempt request =>
      rw [hpump] at hstep
      cases hstep
      exact orderly_attemptSettled h hpump
    | chunk request length rest =>
      rw [hpump] at hstep
      cases hstep
      exact orderly_chunkSettled h hpump
  | turn answers =>
    rw [stepWrites, Option.ite_none_right_eq_some] at hstep
    obtain ⟨hpump, hstep⟩ := hstep
    cases hstep
    refine orderly_pumpWrites ?_
    have hkept := h.kept
    rwa [hpump] at hkept
  | shutdown answer =>
    cases hstep
    exact orderly_shutdown h
  | close =>
    cases hstep
    exact ⟨h.kept.close fun _ => rfl, h.pumped⟩
  | stop =>
    cases hstep
    exact ⟨h.kept.close fun _ => Bool.or_true _, h.pumped⟩
  | ownerStopped =>
    rw [stepWrites, Option.ite_none_right_eq_some] at hstep
    obtain ⟨-, hstep⟩ := hstep
    cases hstep
    exact orderly_ownerStopped h

theorem orderly_new {pipe bounded : Bool} (hlimit : 1 ≤ limit) :
    Orderly (.new pipe bounded limit) where
  kept := by
    constructor <;> simp [Driver.new, hlimit, Pump.current]
  pumped := ⟨rfl, rfl⟩

theorem orderly_of_run {pipe bounded : Bool} {actions : List WriteAction} (hlimit : 1 ≤ limit)
    (hrun : Machine.run stepWrites (.new pipe bounded limit) actions = some t) : Orderly t :=
  Machine.invariant (fun _ _ _ => orderly_step) (orderly_new hlimit) hrun

/-! ## Answers that take everything -/

def Answers.none : Answers := ⟨false, false, false⟩

/-- Whether the owner and the transport take what they are handed, and nobody closes. -/
def WriteAction.Accepted : WriteAction → Prop
  | .write _ _ attempt answers =>
    (attempt = .none ∨ attempt = .pending ∨
      ∃ code, attempt = .status code ∧ (code = 0 ∨ code = uvEagain ∨ code = uvEnosys)) ∧
      answers = .none
  | .settled status answers => status = some 0 ∧ answers = .none
  | .turn answers => answers = .none
  | .shutdown _ => True
  | .close => False
  | .stop => False
  | .ownerStopped => False

/-- A driver that is open and whose writes all ended well. -/
structure Untroubled (s : Driver) : Prop where
  closing : s.closing = false
  stopped : s.stopped = false
  finished : ∀ result ∈ s.finished, result.2 = 0

theorem Untroubled.finishWrite (h : Untroubled s) (write : PendingWrite) :
    Untroubled (s.finishWrite write 0 false) := by
  refine ⟨h.closing, h.stopped, fun result hresult => ?_⟩
  rcases mem_append.1 hresult with hold | hnew
  · exact h.finished result hold
  · rw [mem_singleton.1 hnew]
    simp [Driver.closeDescriptor]

theorem Untroubled.endNext (h : Untroubled s) (write : PendingWrite) :
    Untroubled (s.endNext write 0 .none) :=
  ⟨h.closing, h.stopped, (h.finishWrite write).finished⟩

theorem Untroubled.nextChunk (h : Untroubled s) (write : PendingWrite)
    (chunks : List (List UInt8)) : Untroubled (s.nextChunk write .none chunks) := by
  cases chunks with
  | nil => exact h.endNext write
  | cons chunk rest =>
    rw [Driver.nextChunk, h.closing, h.stopped]
    exact ⟨h.closing, h.stopped, h.finished⟩

theorem Untroubled.pumpWrites (h : Untroubled s) : Untroubled (s.pumpWrites .none) := by
  rw [Driver.pumpWrites]
  split_ifs with hwrites
  · rw [Driver.flushShutdown]
    dsimp only
    split_ifs <;> exact ⟨h.closing, h.stopped, h.finished⟩
  · rw [Driver.writeNext]
    split
    · exact ⟨h.closing, h.stopped, h.finished⟩
    · split_ifs with hsubmitted
      · exact ⟨h.closing, h.stopped, h.finished⟩
      · exact h.nextChunk _ _

theorem Untroubled.enqueue (h : Untroubled s) (write : PendingWrite) :
    Untroubled (s.enqueue write .none).2 := by
  have hwaits : Untroubled { s with
      writeQueueSize := s.writeQueueSize + write.bytes, writes := s.writes ++ [write] } :=
    ⟨h.closing, h.stopped, h.finished⟩
  rw [Driver.enqueue]
  dsimp only
  split_ifs with hidle
  · exact hwaits.pumpWrites
  · exact hwaits

theorem Untroubled.write (h : Untroubled s) {sent : Option Sent}
    (hattempt : attempt = .none ∨ attempt = .pending ∨
      ∃ code, attempt = .status code ∧ (code = 0 ∨ code = uvEagain ∨ code = uvEnosys)) :
    Untroubled (s.write parts sent attempt .none).2 := by
  have hgrown : ∀ (requests : List (List (List UInt8))) (log : List Entry) (bytesWritten : ℕ),
      Untroubled { s with requests := requests, log := log, bytesWritten := bytesWritten } :=
    fun _ _ _ => ⟨h.closing, h.stopped, h.finished⟩
  rw [Driver.write]
  dsimp only
  split_ifs with hclosed hended hlarge hempty hunsent
  · exact h
  · exact h
  · exact h
  · exact h
  · exact h
  split
  · exact h
  · split_ifs with hbounded
    · rcases hattempt with rfl | rfl | ⟨code, rfl, hcode⟩
      · exact (hgrown _ s.log s.bytesWritten).enqueue _
      · exact (hgrown _ _ s.bytesWritten).enqueue _
      · rw [Driver.attemptWrite]
        dsimp only
        split_ifs with hagain hzero
        · exact (hgrown _ s.log s.bytesWritten).enqueue _
        · rw [hzero]
          exact (hgrown _ _ _).finishWrite _
        · exact absurd (hcode.resolve_right hagain) hzero
    · exact (hgrown _ s.log s.bytesWritten).enqueue _

theorem Untroubled.attemptSettled (h : Untroubled s) (request : ℕ) :
    Untroubled (s.attemptSettled request (some 0) .none) := by
  unfold Driver.attemptSettled
  split
  · exact ⟨h.closing, h.stopped, h.finished⟩
  · rename_i hstatus
    cases hstatus
  · rename_i write status hsome hstatus
    cases hstatus
    dsimp only
    rw [if_pos rfl]
    refine Untroubled.endNext ?_ write
    exact ⟨h.closing, h.stopped, h.finished⟩

theorem Untroubled.chunkSettled (h : Untroubled s) (request length : ℕ)
    (rest : List (List UInt8)) :
    Untroubled (s.chunkSettled request length rest (some 0) .none) := by
  unfold Driver.chunkSettled
  split
  · exact ⟨h.closing, h.stopped, h.finished⟩
  · rename_i hstatus
    cases hstatus
  · rename_i write status hsome hstatus
    cases hstatus
    rw [if_neg (by simp [Driver.closeDescriptor, Answers.none])]
    dsimp only
    rw [if_neg (not_not_intro rfl)]
    refine Untroubled.nextChunk ?_ _ rest
    exact ⟨h.closing, h.stopped, h.finished⟩

theorem untroubled_step (h : Untroubled s) (haccepted : action.Accepted)
    (hstep : stepWrites s action = some t) : Untroubled t := by
  cases action with
  | write parts sent attempt answers =>
    obtain ⟨hattempt, rfl⟩ := haccepted
    cases hstep
    exact h.write hattempt
  | settled status answers =>
    obtain ⟨rfl, rfl⟩ := haccepted
    rw [stepWrites] at hstep
    cases hpump : s.pump with
    | idle | turn =>
      rw [hpump] at hstep
      cases hstep
    | attempt request =>
      rw [hpump] at hstep
      cases hstep
      exact h.attemptSettled request
    | chunk request length rest =>
      rw [hpump] at hstep
      cases hstep
      exact h.chunkSettled request length rest
  | turn answers =>
    obtain rfl : answers = .none := haccepted
    rw [stepWrites, Option.ite_none_right_eq_some] at hstep
    obtain ⟨-, hstep⟩ := hstep
    cases hstep
    exact h.pumpWrites
  | shutdown answer =>
    cases hstep
    rw [Driver.shutdown]
    dsimp only
    split_ifs <;> exact ⟨h.closing, h.stopped, h.finished⟩
  | close | stop | ownerStopped => exact haccepted.elim

/-! ## What is awaited -/

def costOf (limit : ℕ) (writes : List PendingWrite) : ℕ :=
  (writes.map fun write => (writeChunks write.parts limit).length + 2).sum

def Driver.work (s : Driver) : ℕ :=
  match s.pump with
  | .idle => 0
  | .turn => 1 + costOf s.limit s.writes
  | .attempt request => 2 + costOf s.limit (s.writes.filter (·.request ≠ request))
  | .chunk request _ rest =>
    2 + rest.length + costOf s.limit (s.writes.filter (·.request ≠ request))

theorem costOf_filter_le (limit : ℕ) (writes : List PendingWrite) (p : PendingWrite → Bool) :
    costOf limit (writes.filter p) ≤ costOf limit writes :=
  (filter_sublist.map _).sum_le_sum fun _ _ => Nat.zero_le _

theorem work_endNext (write : PendingWrite) (status : ℤ) (answers : Answers) :
    (s.endNext write status answers).work =
      1 + costOf s.limit (s.writes.filter (·.request ≠ write.request)) := rfl

theorem work_nextChunk_le (write : PendingWrite) (answers : Answers)
    (chunks : List (List UInt8)) :
    (s.nextChunk write answers chunks).work ≤
      1 + chunks.length + costOf s.limit (s.writes.filter (·.request ≠ write.request)) := by
  cases chunks with
  | nil => exact (work_endNext write 0 answers).le
  | cons chunk rest =>
    rw [Driver.nextChunk, length_cons]
    dsimp only
    split_ifs with hclosed hthrows
    · rw [work_endNext]
      omega
    · rw [work_endNext]
      dsimp only [Driver.handOver]
      omega
    · dsimp only [Driver.work, Driver.handOver]
      omega

theorem work_pumpWrites_lt (h : s.pump = .turn) (answers : Answers) :
    (s.pumpWrites answers).work < s.work := by
  have hwork : s.work = 1 + costOf s.limit s.writes := by rw [Driver.work, h]
  rw [hwork, Driver.pumpWrites]
  split_ifs with hwrites
  · rw [Driver.work, flushShutdown_pump]
    dsimp only
    omega
  · rw [Driver.writeNext]
    split
    · rename_i hnil
      exact absurd hnil hwrites
    · rename_i write rest hcons
      have hcost : costOf s.limit s.writes =
          (writeChunks write.parts s.limit).length + 2 + costOf s.limit rest := by
        rw [hcons, costOf, map_cons, sum_cons]
        rfl
      have hfilter : costOf s.limit (s.writes.filter (·.request ≠ write.request)) ≤
          costOf s.limit rest := by
        rw [hcons, filter_cons_of_neg (by simp)]
        exact costOf_filter_le _ _ _
      split_ifs with hsubmitted
      · dsimp only [Driver.work]
        omega
      · have hnext := @work_nextChunk_le s write answers (writeChunks write.parts s.limit)
        omega

theorem work_ended (hnone : s.writes.find? (·.request = request) = none) :
    1 + costOf s.limit s.writes < 2 + costOf s.limit (s.writes.filter (·.request ≠ request)) := by
  have hall : s.writes.filter (·.request ≠ request) = s.writes := by
    rw [filter_eq_self]
    intro write hwrite
    simpa using find?_eq_none.1 hnone write hwrite
  rw [hall]
  omega

theorem work_attemptSettled_lt (h : s.pump = .attempt request) (status : Option ℤ)
    (answers : Answers) : (s.attemptSettled request status answers).work < s.work := by
  have hwork : s.work = 2 + costOf s.limit (s.writes.filter (·.request ≠ request)) := by
    rw [Driver.work, h]
  rw [hwork]
  unfold Driver.attemptSettled
  split
  · rename_i hnone
    exact work_ended hnone
  · rename_i write hsome
    rw [work_endNext, (mem_of_find? hsome).2]
    omega
  · rename_i write status hsome
    dsimp only
    rw [work_endNext, (mem_of_find? hsome).2]
    split_ifs with hzero
    · dsimp only
      omega
    · omega

theorem filter_map_ne (writes : List PendingWrite) (request : ℕ) {write : PendingWrite}
    (h : write.request = request) :
    (writes.map fun other => if other.request = request then write else other).filter
      (·.request ≠ request) = writes.filter (·.request ≠ request) := by
  induction writes with
  | nil => rfl
  | cons other rest ih =>
    rw [map_cons, filter_cons, filter_cons, ih]
    split_ifs with hsame
    all_goals simp_all

theorem work_chunkSettled_lt {length : ℕ} {rest : List (List UInt8)}
    (h : s.pump = .chunk request length rest) (status : Option ℤ) (answers : Answers) :
    (s.chunkSettled request length rest status answers).work < s.work := by
  have hwork : s.work =
      2 + rest.length + costOf s.limit (s.writes.filter (·.request ≠ request)) := by
    rw [Driver.work, h]
  rw [hwork]
  unfold Driver.chunkSettled
  split
  · rename_i hnone
    have hended := work_ended hnone
    dsimp only [Driver.work]
    omega
  · rename_i write hsome
    rw [work_endNext, (mem_of_find? hsome).2]
    omega
  · rename_i write status hsome
    obtain rfl := (mem_of_find? hsome).2
    have hfilter := @filter_map_ne s.writes write.request { write with sent := none } rfl
    split_ifs with hthrows hstatus
    · rw [work_endNext]
      omega
    · rw [work_endNext]
      dsimp only
      rw [hfilter]
      omega
    · refine (work_nextChunk_le _ answers rest).trans_lt ?_
      dsimp only
      rw [hfilter]
      omega

def WriteAction.IsAnswer : WriteAction → Prop
  | .settled _ _ => True
  | .turn _ => True
  | _ => False

theorem work_lt_of_step (hanswer : action.IsAnswer)
    (hstep : stepWrites s action = some t) : t.work < s.work := by
  cases action with
  | settled status answers =>
    rw [stepWrites] at hstep
    cases hpump : s.pump with
    | idle | turn =>
      rw [hpump] at hstep
      cases hstep
    | attempt request =>
      rw [hpump] at hstep
      cases hstep
      exact work_attemptSettled_lt hpump status answers
    | chunk request length rest =>
      rw [hpump] at hstep
      cases hstep
      exact work_chunkSettled_lt hpump status answers
  | turn answers =>
    rw [stepWrites, Option.ite_none_right_eq_some] at hstep
    obtain ⟨hpump, hstep⟩ := hstep
    cases hstep
    exact work_pumpWrites_lt hpump answers
  | write _ _ _ _ | shutdown _ | close | stop | ownerStopped => exact hanswer.elim

theorem idle_of_no_answer (h : ∀ action : WriteAction, action.IsAnswer → stepWrites s action = none) :
    s.pump = .idle := by
  have hsettled := h (.settled none .none) trivial
  have hturn := h (.turn .none) trivial
  cases hpump : s.pump with
  | idle => rfl
  | turn =>
    rw [stepWrites, hpump] at hturn
    cases hturn
  | attempt _ | chunk _ _ _ =>
    rw [stepWrites, hpump] at hsettled
    cases hsettled

/-! ## The whole -/

/-- What a driver has handed over: of each write the attempt or the first of its chunks, and
the whole where it ended well; the writes in their order; and a shutdown when each of them has
ended. -/
structure KeepsStream (s : Driver) : Prop where
  each : ∀ request parts, s.requests[request]? = some parts →
    Attempted s.log request parts ∨
      entriesOf s.log request <+: (writeChunks parts s.limit).map (.chunk request)
  whole : ∀ request parts, s.requests[request]? = some parts → (request, 0) ∈ s.finished →
    Attempted s.log request parts ∨
      entriesOf s.log request = (writeChunks parts s.limit).map (.chunk request)
  ordered : s.log.Pairwise Precedes
  last : .shutdown ∈ s.log →
    ∀ request < s.requests.length, ∃ status, (request, status) ∈ s.finished

theorem Handed.isPrefix {log : List Entry} {left : List (List UInt8)}
    (h : Handed limit log request parts left) :
    entriesOf log request <+: (writeChunks parts limit).map (.chunk request) :=
  ⟨left.map (.chunk request), h⟩

theorem Orderly.keepsStream (h : Orderly s) : KeepsStream s where
  each request parts hparts := by
    have hlt := (List.getElem?_eq_some_iff.1 hparts).1
    rcases h.kept.settled request hlt with ⟨write, hwrite, rfl⟩ | ⟨status, hstatus⟩
    · have hwaiting := h.kept.waiting write hwrite
      rw [Option.some.inj ((h.kept.known write hwrite).symm.trans hparts)] at hwaiting
      split_ifs at hwaiting with hsubmitted
      · exact .inl hwaiting
      · exact .inr hwaiting.isPrefix
    · refine (h.kept.gone _ hstatus parts hparts).imp_right ?_
      rintro ⟨left, hleft, -⟩
      exact hleft.isPrefix
  whole request parts hparts hzero := by
    refine (h.kept.gone _ hzero parts hparts).imp_right ?_
    rintro ⟨left, hleft, hnil⟩
    rwa [hnil rfl, Handed, map_nil, append_nil] at hleft
  ordered := h.kept.ordered
  last hsent request hrequest := by
    refine (h.kept.settled request hrequest).resolve_left ?_
    rintro ⟨write, hwrite, -⟩
    obtain ⟨_, -, hnone⟩ := h.kept.behind _ hsent write hwrite
    cases hnone

/-- Gathered writes keep the stream. The chunks of a write are its bytes, none empty and none
over the limit. In every run of a driver each write is handed over once and in its order and
the shutdown after all of them; where everything is taken, every write that ends is handed over
whole. What the driver awaits are no more answers than `work` says, and when it awaits none,
nothing waits and a shutdown that was asked for is handed over, unless the handle is closed. -/
theorem writes_kept_of_run (pipe bounded : Bool) {limit : ℕ} (hlimit : 1 ≤ limit) :
    (∀ parts, Chunked limit parts.flatten (writeChunks parts limit)) ∧
      ∀ actions s, Machine.run stepWrites (.new pipe bounded limit) actions = some s →
        KeepsStream s ∧
        ((∀ action ∈ actions, action.Accepted) → ∀ result ∈ s.finished, result.2 = 0) ∧
        ∀ answers t, (∀ action ∈ answers, action.IsAnswer) →
          Machine.run stepWrites s answers = some t →
            answers.length ≤ s.work ∧
            ((∀ action : WriteAction, action.IsAnswer → stepWrites t action = none) →
              t.writes = [] ∧
              (t.writeEnded = true →
                .shutdown ∈ t.log ∨ (t.closing || t.stopped) = true)) := by
  refine ⟨fun parts => chunked_writeChunks parts hlimit, fun actions s hrun => ?_⟩
  have horderly := orderly_of_run hlimit hrun
  refine ⟨horderly.keepsStream, fun haccepted => ?_, fun answers t hanswers hrest => ⟨?_, ?_⟩⟩
  · have hnew : Untroubled (.new pipe bounded limit) :=
      ⟨rfl, rfl, fun _ hresult => absurd hresult not_mem_nil⟩
    have hmeets := @Machine.meets_of_forall_mem _ _ stepWrites actions
      (fun _ action => action.Accepted) (fun action haction _ => haccepted action haction) (.new pipe bounded limit)
    exact (Machine.invariant_of_meets (fun _ _ _ => untroubled_step) hnew hmeets hrun).finished
  · have hmeets := @Machine.meets_of_forall_mem _ _ stepWrites answers
      (fun _ action => action.IsAnswer) (fun action haction _ => hanswers action haction) s
    have hlength := Machine.length_add_le_of_meets (fun _ _ _ => work_lt_of_step) hmeets hrest
    omega
  · intro hnone
    have hafter : Orderly t := Machine.invariant (fun _ _ _ => orderly_step) horderly hrest
    have hpumped := hafter.pumped
    rw [Pumped, idle_of_no_answer hnone] at hpumped
    refine ⟨hpumped.1, fun hended => (hafter.kept.told hended).resolve_left fun hpending => ?_⟩
    exact absurd (hpending.symm.trans hpumped.2) (by decide)

def twoChunks : List WriteAction :=
  [.write [[1], [], [2, 3]] none .none .none, .shutdown (some 0), .settled (some 0) .none,
    .settled (some 0) .none, .turn .none]

theorem writes_kept_of_run_twoChunks :
    ∃ s, Machine.run stepWrites (.new true true 2) twoChunks = some s ∧
      s.log = [.chunk 0 [1, 2], .chunk 0 [3], .shutdown] ∧ KeepsStream s := by
  have hkept := (@writes_kept_of_run true true 2 (by decide)).2 twoChunks
  refine ⟨_, rfl, by decide, (hkept _ rfl).1⟩

end NativeStream

end Tabnode
