import Tabnode.KernelStream.Ledger

/-!
# What every function of the stream keeps

Each function keeps the ledger, the phase of the shutdown and what is left of a closed
stream (`Core`). A turn that leaves writes in the queue of an open stream has asked for
the socket's writability, but that one of them failed (`Asks`).
-/

namespace Tabnode

namespace KernelStream

open List Option

def Accounted (s : Wrap) : Prop :=
  ∃ done pend, Account done pend s.accepted s.wire s.writes s.completions s.writeQueueSize

def Shutting (s : Wrap) : Prop :=
  (s.writable = true ∧ s.shutdowns = 0 ∧ s.shutdown = none ∧ s.shutdownCompletions = [] ∧
    s.shutCalls = []) ∨
  (s.writable = false ∧ s.shutdowns = 1 ∧ s.shutdown = some 0 ∧ s.shutdownCompletions = [] ∧
    s.shutCalls = []) ∨
  (s.writable = false ∧ s.shutdowns = 1 ∧ s.shutdown = none ∧
    (∃ st, s.shutdownCompletions = [(0, st)]) ∧ (s.shutCalls = [] ∨ s.shutCalls = [0]))

/-- What every function keeps of a stream on a descriptor. -/
structure Core (fd : ℕ) (s : Wrap) : Prop where
  accounted : Accounted s
  shutting : Shutting s
  opened : s.closed = false → s.descriptor = some fd
  ended : s.closed = true → s.descriptor = none ∧ s.writes = [] ∧ s.shutdown = none
  waits : ∀ f, s.waitingOut = some f → f = fd

def Asks (fd : ℕ) (s : Wrap) : Prop :=
  s.closed = false → s.held = false → (∀ c ∈ s.completions, c.2 = 0) → s.writes ≠ [] →
    s.waitingOut = some fd

variable {fd : ℕ} {s t : Wrap}

theorem Core.waitOut (h : Core fd s) : Core fd s.waitOut := by
  unfold Wrap.waitOut
  split
  · exact h
  · next hask =>
      simp only [Bool.or_eq_true, not_or, Bool.not_eq_true] at hask
      exact ⟨h.accounted, h.shutting, h.opened, h.ended,
        fun f hf => Option.some.inj (hf.symm.trans (h.opened hask.2))⟩

theorem Core.asks_waitOut (h : Core fd s) : Asks fd s.waitOut := by
  intro hopen _ _ _
  have hclosed : s.closed = false := by
    revert hopen
    unfold Wrap.waitOut
    split <;> exact id
  have hdescriptor := h.opened hclosed
  unfold Wrap.waitOut
  split
  · next hask =>
      simp only [hclosed, hdescriptor, isNone_some, Bool.or_false] at hask
      obtain ⟨f, hf⟩ := isSome_iff_exists.1 hask
      rw [hf, h.waits f hf]
  · exact hdescriptor

variable {w : QueuedWrite} {later : List QueuedWrite}

theorem Wrap.finishWrite_eq {write : QueuedWrite} (hwrites : s.writes = w :: later)
    (hrequest : w.request = write.request) (status : Int) : s.finishWrite write status = { s with
      writes := later
      writeQueueSize := s.writeQueueSize - (write.bytes.length - write.sent)
      completions := s.completions ++ [(write.request, status)] } := by
  have hany : s.writes.any (fun w => w.request == write.request) = true := by
    rw [hwrites, any_cons, hrequest]
    simp
  rw [Wrap.finishWrite, if_pos hany, hwrites, eraseP_cons_of_pos (by simpa using hrequest)]

theorem Accounted.head (h : Accounted s) (hwrites : s.writes = w :: later) :
    ∃ done e rest, Account done (e :: rest) s.accepted s.wire s.writes s.completions
      s.writeQueueSize ∧ [w] = e.queued done.length ∧
        later = numbered Entry.queued (done.length + 1) rest := by
  obtain ⟨done, pend, haccount⟩ := h
  cases pend with
  | nil =>
      have hnil := haccount.writes
      rw [hwrites] at hnil
      cases hnil
  | cons e rest =>
      have hcons := haccount.writes
      rw [hwrites, numbered_cons] at hcons
      refine ⟨done, e, rest, haccount, ?_, ?_⟩
      · exact congrArg (fun l => l.take 1) hcons
      · exact congrArg List.tail hcons

theorem Accounted.sent_le (h : Accounted s)
    (hwrites : s.writes = w :: later) : w.sent ≤ w.bytes.length := by
  obtain ⟨done, e, rest, haccount, hw, -⟩ := h.head hwrites
  cases hw
  exact (haccount.waiting e mem_cons_self).some_bytes.length_le

/-- The first write of the queue completes: with no error when all its bytes are taken. -/
theorem Core.finishWrite (h : Core fd s) (hwrites : s.writes = w :: later) (status : Int)
    (hwhole : status = 0 → w.sent = w.bytes.length) : Core fd (s.finishWrite w status) := by
  rw [Wrap.finishWrite_eq hwrites rfl]
  refine ⟨?_, h.shutting, h.opened, fun hclosed => ?_, h.waits⟩
  · obtain ⟨done, e, rest, haccount, hw, hlater⟩ := h.accounted.head hwrites
    cases hw
    have hwaiting := haccount.waiting e mem_cons_self
    have hfinish := haccount.finish status fun hzero =>
      hwaiting.some_bytes.eq_of_length (hwhole hzero)
    rw [← hlater] at hfinish
    exact ⟨_, _, hfinish⟩
  · have hnil := (h.ended hclosed).2.1
    rw [hwrites] at hnil
    cases hnil

theorem Wrap.cancelWrites_eq (h : Core fd s) {status : Int} (hstatus : status ≠ 0) :
    ∃ size completions, s.cancelWrites status =
        { s with writes := [], writeQueueSize := size, completions := completions } ∧
      Core fd (s.cancelWrites status) := by
  have hfold : ∀ (ws : List QueuedWrite) (u : Wrap), Core fd u → u.writes = ws →
      ∃ size completions, ws.foldl (fun u write => u.finishWrite write status) u =
          { u with writes := [], writeQueueSize := size, completions := completions } ∧
        Core fd (ws.foldl (fun u write => u.finishWrite write status) u) := by
    intro ws
    induction ws with
    | nil =>
        intro u hu hwrites
        refine ⟨u.writeQueueSize, u.completions, ?_, hu⟩
        show u = _
        rw [← hwrites]
    | cons w ws ih =>
        intro u hu hwrites
        have hnext := hu.finishWrite hwrites status fun hzero => absurd hzero hstatus
        have heq := Wrap.finishWrite_eq hwrites rfl status
        obtain ⟨size, completions, hrest, hcore⟩ := ih _ hnext (by rw [heq])
        refine ⟨size, completions, ?_, hcore⟩
        rw [foldl_cons, hrest, heq]
  exact hfold s.writes s h rfl

theorem Core.finishShutdown (h : Core fd s) (status : Int) :
    Core fd (s.finishShutdown status) := by
  unfold Wrap.finishShutdown
  split
  · exact h
  · next request hrequest =>
      refine ⟨h.accounted, ?_, h.opened, fun hclosed => ?_, h.waits⟩
      · rcases h.shutting with ⟨-, -, hnone, -, -⟩ | ⟨hw, hcount, hsome, hdone, hcalls⟩ |
          ⟨-, -, hnone, -, -⟩
        · rw [hnone] at hrequest
          cases hrequest
        · rw [hsome] at hrequest
          cases hrequest
          exact .inr (.inr ⟨hw, hcount, rfl, ⟨status, by simp [hdone]⟩, .inl hcalls⟩)
        · rw [hnone] at hrequest
          cases hrequest
      · obtain ⟨hd, hw, -⟩ := h.ended hclosed
        exact ⟨hd, hw, rfl⟩

theorem Core.drain (h : Core fd s) (answer : Int) : Core fd (s.drain answer) := by
  unfold Wrap.drain
  split
  · exact h
  · next hidle =>
      simp only [Bool.or_eq_true, not_or, Bool.not_eq_true, Bool.not_eq_false',
        isNone_eq_false_iff, isSome_iff_exists, List.isEmpty_iff] at hidle
      obtain ⟨⟨request, hrequest⟩, hnil⟩ := hidle
      simp only [Wrap.finishShutdown, hrequest]
      refine ⟨h.accounted, ?_, h.opened, fun hclosed => ?_, h.waits⟩
      · rcases h.shutting with ⟨-, -, hnone, -, -⟩ | ⟨hw, hcount, hsome, hdone, hcalls⟩ |
          ⟨-, -, hnone, -, -⟩
        · rw [hnone] at hrequest
          cases hrequest
        · rw [hsome] at hrequest
          cases hrequest
          refine .inr (.inr ⟨hw, hcount, rfl, ⟨_, by rw [hdone]; rfl⟩, .inr ?_⟩)
          rw [hcalls, hnil]
          rfl
        · rw [hnone] at hrequest
          cases hrequest
      · obtain ⟨hd, hw, -⟩ := h.ended hclosed
        exact ⟨hd, hw, rfl⟩

theorem Wrap.drain_writes (s : Wrap) (answer : Int) : (s.drain answer).writes = s.writes := by
  unfold Wrap.drain
  split
  · rfl
  · simp only [Wrap.finishShutdown]
    split <;> rfl

theorem Core.taken (h : Core fd s) (hwrites : s.writes = w :: later) {count : ℕ}
    (hcount : count ≤ w.bytes.length - w.sent) : Core fd (s.taken w later count) := by
  refine ⟨?_, h.shutting, h.opened, fun hclosed => ?_, h.waits⟩
  · obtain ⟨done, e, rest, haccount, hw, hlater⟩ := h.accounted.head hwrites
    cases hw
    have htake := haccount.take count hcount
    rw [← hlater] at htake
    exact ⟨_, _, htake⟩
  · have hnil := (h.ended hclosed).2.1
    rw [hwrites] at hnil
    cases hnil

variable {sends : List Int}

theorem send_answers {bytes : List UInt8} {sent : Int}
    (h : send bytes sends = some sent) : Answers bytes sent := by
  induction sends with
  | nil => cases h
  | cons a rest ih =>
      rw [send] at h
      split at h
      · exact ih h
      · split at h
        · next hanswers =>
            cases h
            exact hanswers
        · cases h

variable {answer : Int}

/-- The queue is sent: what is left in it waits for the socket, but that a write failed. -/
theorem Core.flushWrites {count : ℕ} (h : Core fd s)
    (hflush : s.flushWrites answer sends count = some t) : Core fd t ∧ Asks fd t := by
  have hdrain : ∀ {u : Wrap}, Core fd u → u.writes = [] →
      Core fd (u.drain answer) ∧ Asks fd (u.drain answer) := fun {u} hu hnil =>
    ⟨hu.drain answer, fun _ _ _ hne => absurd ((u.drain_writes answer).trans hnil) hne⟩
  induction sends generalizing s count with
  | nil =>
      rw [Wrap.flushWrites] at hflush
      split at hflush
      · next hempty =>
          cases hflush
          exact hdrain h (List.isEmpty_iff.1 hempty)
      · cases hflush
  | cons sent rest ih =>
      rw [Wrap.flushWrites] at hflush
      split at hflush
      · next hnil =>
          cases hflush
          exact hdrain h hnil
      · next write later hwrites =>
          split at hflush
          · exact ih h hflush
          split at hflush
          · cases hflush
          next hanswers =>
          split at hflush
          · cases hflush
            exact ⟨h.waitOut, h.asks_waitOut⟩
          split at hflush
          · next hfailed =>
              cases hflush
              refine ⟨h.finishWrite hwrites sent (fun hzero => by omega), fun _ _ hall => ?_⟩
              -- a write failed
              rw [Wrap.finishWrite_eq hwrites rfl] at hall
              have hzero := hall (write.request, sent) (by simp)
              simp only at hzero
              omega
          next hsent =>
          have hcount : sent.toNat ≤ write.bytes.length - write.sent := by
            rcases not_not.1 hanswers with hneg | ⟨hle, -⟩
            · exact absurd hneg hsent
            · rw [length_drop] at hle
              omega
          have htaken := h.taken hwrites hcount
          simp only at hflush
          split at hflush
          · exact ih htaken hflush
          next hwhole =>
          have hall : write.sent + sent.toNat = write.bytes.length := by
            have hle := h.accounted.sent_le hwrites
            omega
          have hdone := htaken.finishWrite rfl 0 fun _ => hall
          split at hflush
          · cases hflush
            exact ⟨hdone.waitOut, hdone.asks_waitOut⟩
          · exact ih hdone hflush

theorem Core.push (h : Core fd s) (hopen : s.closed = false) (bytes : List UInt8)
    (handle : Option ℕ) {sent : ℕ} (hsent : sent ≤ bytes.length)
    (hidle : sent ≠ 0 → s.writes = [] ∧ handle = none) : Core fd (s.push bytes handle sent) := by
  refine ⟨?_, h.shutting, h.opened, fun hclosed => ?_, h.waits⟩
  · obtain ⟨done, pend, haccount⟩ := h.accounted
    have hpend : sent ≠ 0 → pend = [] ∧ handle = none := by
      intro hsome
      obtain ⟨hnil, hnone⟩ := hidle hsome
      rw [haccount.writes] at hnil
      cases pend with
      | nil => exact ⟨rfl, hnone⟩
      | cons e rest =>
          rw [numbered_cons] at hnil
          cases hnil
    obtain ⟨e, hpush⟩ := haccount.push bytes handle sent hsent hpend
    exact ⟨_, _, hpush⟩
  · rw [Wrap.push] at hclosed
    rw [hopen] at hclosed
    cases hclosed

theorem Core.acceptWhole (h : Core fd s) (hidle : s.writes = []) (bytes : List UInt8) :
    Core fd (s.acceptWhole bytes) := by
  refine ⟨?_, h.shutting, h.opened, h.ended, h.waits⟩
  obtain ⟨done, pend, haccount⟩ := h.accounted
  cases pend with
  | nil =>
      obtain ⟨e, hwhole⟩ := haccount.whole bytes
      exact ⟨_, _, hwhole⟩
  | cons e rest =>
      have hwrites := haccount.writes
      rw [hidle, numbered_cons] at hwrites
      cases hwrites

/-- A write that is queued asks for writability, or is held by a connect. -/
theorem Core.asks_push (h : Core fd s) (hopen : s.closed = false) (bytes : List UInt8)
    (handle : Option ℕ) : Core fd (s.push bytes handle 0) ∧
      Core fd (s.push bytes handle 0).waitOut ∧ Asks fd (s.push bytes handle 0).waitOut := by
  have hpush := h.push hopen bytes handle (Nat.zero_le bytes.length) fun hne => absurd rfl hne
  exact ⟨hpush, hpush.waitOut, hpush.asks_waitOut⟩

/-- A write leaves the stream asking for writability, when it did before. -/
theorem Core.dispatchWrite {bytes : List UInt8} {handle : Option Int} {a : Answer} (h : Core fd s)
    (hwrite : s.dispatchWrite bytes handle sends answer = some (a, t)) :
    Core fd t ∧ (Asks fd s → Asks fd t) := by
  unfold Wrap.dispatchWrite at hwrite
  simp only at hwrite
  split at hwrite
  · cases hwrite
    exact ⟨h, id⟩
  split at hwrite
  · cases hwrite
    exact ⟨h, id⟩
  next hclosed =>
  have hopen : s.closed = false := by simpa using hclosed
  split at hwrite
  · cases hwrite
    exact ⟨h, id⟩
  split at hwrite
  · -- it is tried at once when nothing is ahead of it
    obtain ⟨hpush, hcore, hasks⟩ := h.asks_push hopen bytes none
    split at hwrite
    · next hidle =>
        rw [Bool.and_eq_true, List.isEmpty_iff] at hidle
        obtain ⟨sent, hsend, htaken⟩ := map_eq_some_iff.1 hwrite
        have hanswers := send_answers hsend
        split at htaken
        · cases htaken
          exact ⟨h, id⟩
        next hcould =>
        split at htaken
        · cases htaken
          exact ⟨h.acceptWhole hidle.1 bytes, fun _ _ _ _ hne => absurd hidle.1 hne⟩
        · cases htaken
          have hsent : sent.toNat ≤ bytes.length := by
            rcases hanswers with hneg | ⟨hle, -⟩ <;> omega
          have hrest := h.push hopen bytes none hsent fun _ => ⟨hidle.1, rfl⟩
          exact ⟨hrest.waitOut, fun _ => hrest.asks_waitOut⟩
    · split at hwrite
      · next hheld =>
          cases hwrite
          exact ⟨hpush, fun _ _ hfree => absurd (hheld.symm.trans hfree) (by decide)⟩
      · cases hwrite
        exact ⟨hcore, fun _ => hasks⟩
  · -- a descriptor goes through the queue
    have hqueued := fun f => h.asks_push hopen bytes (some f)
    split at hwrite
    · obtain ⟨u, hflush, heq⟩ := map_eq_some_iff.1 hwrite
      cases heq
      obtain ⟨hflushed, hasked⟩ := (hqueued _).1.flushWrites hflush
      exact ⟨hflushed, fun _ => hasked⟩
    · split at hwrite
      · next hheld =>
          cases hwrite
          exact ⟨(hqueued _).1, fun _ _ hfree => absurd (hheld.symm.trans hfree) (by decide)⟩
      · cases hwrite
        exact ⟨(hqueued _).2.1, fun _ => (hqueued _).2.2⟩

theorem Core.shutdownWrites (h : Core fd s) : Core fd s.shutdownWrites.2 := by
  unfold Wrap.shutdownWrites
  split
  · exact h
  · next hok =>
      simp only [Bool.or_eq_true, not_or, Bool.not_eq_true, Bool.not_eq_false'] at hok
      obtain ⟨⟨⟨⟨hwritable, -⟩, -⟩, hopen⟩, -⟩ := hok
      refine ⟨h.accounted, ?_, h.opened, fun hclosed => ?_, h.waits⟩
      · rcases h.shutting with ⟨-, hcount, -, hdone, hcalls⟩ | ⟨hnot, -⟩ | ⟨hnot, -⟩
        · exact .inr (.inl ⟨rfl, by rw [hcount], by rw [hcount], hdone, hcalls⟩)
        · exact absurd (hwritable.symm.trans hnot) (by decide)
        · exact absurd (hwritable.symm.trans hnot) (by decide)
      · exact absurd (hopen.symm.trans hclosed) (by decide)

theorem asks_shutdownWrites (h : Asks fd s) : Asks fd s.shutdownWrites.2 := by
  unfold Wrap.shutdownWrites
  split
  · exact h
  · exact h

theorem Wrap.finishShutdown_writes (s : Wrap) (status : Int) :
    (s.finishShutdown status).writes = s.writes := by
  unfold Wrap.finishShutdown
  split <;> rfl

theorem Wrap.finishShutdown_shutdown (s : Wrap) (status : Int) :
    (s.finishShutdown status).shutdown = none := by
  unfold Wrap.finishShutdown
  split
  · assumption
  · rfl

theorem Core.close (h : Core fd s) : Core fd s.close := by
  unfold Wrap.close
  split
  · exact h
  · obtain ⟨size, completions, heq, hcancelled⟩ :=
      Wrap.cancelWrites_eq h (show UV_ECANCELED ≠ 0 by decide)
    have hnil : (s.cancelWrites UV_ECANCELED).writes = [] := by rw [heq]
    have hfinished := hcancelled.finishShutdown UV_ECANCELED
    exact ⟨hfinished.accounted, hfinished.shutting, nofun,
      fun _ => ⟨rfl, (Wrap.finishShutdown_writes _ _).trans hnil,
        Wrap.finishShutdown_shutdown _ _⟩, hfinished.waits⟩

theorem close_closed (s : Wrap) : s.close.closed = true := by
  unfold Wrap.close
  split
  · assumption
  · rfl

/-- A call leaves the stream asking for writability, when it did before. -/
theorem Core.perform {c : Call} (h : Core fd s) (hcall : perform s c = some t) :
    Core fd t ∧ (Asks fd s → Asks fd t) := by
  cases c with
  | write bytes handle sends answer =>
      obtain ⟨⟨a, u⟩, hwrite, heq⟩ := map_eq_some_iff.1 hcall
      cases heq
      exact h.dispatchWrite hwrite
  | shutdown =>
      cases hcall
      exact ⟨h.shutdownWrites, asks_shutdownWrites⟩
  | cancelWrites status =>
      simp only [KernelStream.perform] at hcall
      split at hcall
      · next hneg =>
          cases hcall
          obtain ⟨size, completions, heq, hcancelled⟩ :=
            Wrap.cancelWrites_eq h (show status ≠ 0 by omega)
          refine ⟨hcancelled, fun _ _ _ _ hne => absurd ?_ hne⟩
          rw [heq]
      · cases hcall
  | close =>
      cases hcall
      exact ⟨h.close, fun _ hopen => absurd ((close_closed s).symm.trans hopen) (by decide)⟩

theorem Core.calls {cs : List Call} (h : Core fd s)
    (hcalls : Machine.run KernelStream.perform s cs = some t) : Core fd t := by
  induction cs generalizing s with
  | nil =>
      cases hcalls
      exact h
  | cons c cs ih =>
      obtain ⟨m, hm, hrest⟩ := Machine.run_cons_eq_some.1 hcalls
      exact ih (h.perform hm).1 hrest

theorem Core.resumeWrites (h : Core fd s) (answer : Int) :
    Core fd (s.resumeWrites answer) ∧ Asks fd (s.resumeWrites answer) := by
  unfold Wrap.resumeWrites
  split
  · next hempty =>
      have hnil : s.writes = [] := List.isEmpty_iff.1 hempty
      split
      · exact ⟨h.drain answer, fun _ _ _ hne => absurd ((s.drain_writes answer).trans hnil) hne⟩
      · exact ⟨h, fun _ _ _ hne => absurd hnil hne⟩
  · exact ⟨h.waitOut, h.asks_waitOut⟩

/-- The outcome of a connect lets the queue go on, or cancels it. -/
theorem Core.connected {error : Int} {cs : List Call} (h : Core fd s)
    (hconnected : connected s error cs answer = some t) :
    Core fd t ∧ ((s.held = false → Asks fd s) → Asks fd t) := by
  unfold KernelStream.connected at hconnected
  split at hconnected
  · next hfree =>
      cases hconnected
      exact ⟨h, fun hasks => hasks (by simpa using hfree)⟩
  split at hconnected
  · cases hconnected
    exact ⟨h.waitOut, fun _ => h.asks_waitOut⟩
  · obtain ⟨u, hcalls, heq⟩ := map_eq_some_iff.1 hconnected
    have hfreed : Core fd { s with held := false } :=
      ⟨h.accounted, h.shutting, h.opened, h.ended, h.waits⟩
    have hu := hfreed.calls hcalls
    split at heq
    · next hgone =>
        -- the callback closed the stream
        cases heq
        refine ⟨hu, fun _ hopen => ?_⟩
        rw [hu.opened hopen] at hgone
        cases hgone
    split at heq
    · cases heq
      obtain ⟨size, completions, hcancel, hcancelled⟩ :=
        Wrap.cancelWrites_eq hu (show UV_ECANCELED ≠ 0 by decide)
      refine ⟨hcancelled, fun _ _ _ _ hne => absurd ?_ hne⟩
      rw [hcancel]
    · cases heq
      obtain ⟨hresumed, hasks⟩ := hu.resumeWrites answer
      exact ⟨hresumed, fun _ => hasks⟩

theorem asks_drain (h : Asks fd s) : Asks fd (s.drain answer) := by
  unfold Wrap.drain
  split
  · exact h
  · simp only [Wrap.finishShutdown]
    split <;> exact h

def Kept (fd : ℕ) (s : Wrap) : Prop := Core fd s ∧ Asks fd s

theorem Kept.step {a : Act} (h : Kept fd s) (hstep : step s a = some t) : Kept fd t := by
  obtain ⟨hcore, hasks⟩ := h
  cases a with
  | call c =>
      obtain ⟨ht, hkept⟩ := hcore.perform hstep
      exact ⟨ht, hkept hasks⟩
  | writable error calls sends answer =>
      simp only [KernelStream.step] at hstep
      split at hstep
      · cases hstep
      · next f hf =>
          have hanswered : Core fd { s with waitingOut := none } :=
            ⟨hcore.accounted, hcore.shutting, hcore.opened, hcore.ended, nofun⟩
          split at hstep
          · next hgone =>
              -- the stream was closed while the readiness was asked for
              cases hstep
              refine ⟨hanswered, fun hopen _ _ _ => ?_⟩
              have hdescriptor := hcore.opened hopen
              have hclosed : s.closed = false := hopen
              rw [hdescriptor, hcore.waits f hf, hclosed] at hgone
              simp at hgone
          split at hstep
          · next hheld =>
              obtain ⟨ht, hkept⟩ := hanswered.connected hstep
              exact ⟨ht, hkept fun hfree => absurd (hheld.symm.trans hfree) (by decide)⟩
          · exact hanswered.flushWrites hstep
  | connected error calls answer =>
      obtain ⟨ht, hkept⟩ := hcore.connected hstep
      exact ⟨ht, hkept fun _ => hasks⟩
  | drain answer =>
      simp only [KernelStream.step] at hstep
      split at hstep
      · cases hstep
      · next n hn =>
          cases hstep
          have hqueued : Core fd { s with drains := n } :=
            ⟨hcore.accounted, hcore.shutting, hcore.opened, hcore.ended, hcore.waits⟩
          exact ⟨hqueued.drain answer, asks_drain hasks⟩

theorem kept_start (fd : ℕ) (held waiting : Bool) : Kept fd (start fd held waiting) := by
  refine ⟨⟨⟨[], [], ?_⟩, .inl ⟨rfl, rfl, rfl, rfl, rfl⟩, fun _ => rfl, nofun, fun f hf => ?_⟩,
    fun _ _ _ hne => absurd rfl hne⟩
  · exact ⟨rfl, rfl, rfl, rfl, nofun, nofun, nofun, rfl⟩
  · cases waiting with
    | true =>
        cases hf
        rfl
    | false => cases hf

end KernelStream

end Tabnode
