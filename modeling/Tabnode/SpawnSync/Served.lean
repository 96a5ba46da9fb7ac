import Mathlib.Data.List.Infix
import Tabnode.SpawnSync.Drain

/-!
# The pipes of a synchronous child are served to their end

What the loop keeps is what it has read, in its order; what it has sent of an input is the
first of it, and a pipe is shut down once, when all of its input is sent. The child is killed
where the outcome says so, and the pipes are closed once.
-/

namespace Tabnode

namespace SpawnSync

open List

/-! ## What a log says -/

def Event.pipe? : Event → Option ℕ
  | .shutdown pipe _ => some pipe
  | .sent pipe _ => some pipe
  | .received pipe _ => some pipe
  | .ended pipe => some pipe
  | .failed pipe _ => some pipe
  | .keep _ _ => none
  | .kill => none
  | .close => none

def Event.sentTo (pipe : ℕ) : Event → List UInt8
  | .sent other bytes => if other = pipe then bytes else []
  | _ => []

def Event.shuts (pipe : ℕ) : Event → Bool
  | .shutdown other _ => other = pipe
  | _ => false

def Event.kept? : Event → Option (ℕ × List UInt8)
  | .keep index bytes => some (index, bytes)
  | _ => none

def Event.received? (pipes : List SyncPipe) : Event → Option (ℕ × List UInt8)
  | .received pipe bytes => pipes[pipe]?.map fun p => (p.index, bytes)
  | _ => none

def Event.failure? : Event → Option ℤ
  | .failed _ error => some error
  | _ => none

def sentBytes (log : List Event) (pipe : ℕ) : List UInt8 := log.flatMap (Event.sentTo pipe)

def shutdowns (log : List Event) (pipe : ℕ) : ℕ := log.countP (Event.shuts pipe)

def keeps (log : List Event) : List (ℕ × List UInt8) := log.filterMap Event.kept?

def receipts (pipes : List SyncPipe) (log : List Event) : List (ℕ × List UInt8) :=
  log.filterMap (Event.received? pipes)

def failures (log : List Event) : List ℤ := log.filterMap Event.failure?

def keptBytes (log : List Event) : ℕ := ((keeps log).map fun entry => entry.2.length).sum

@[simp] theorem sentBytes_append (log rest : List Event) (pipe : ℕ) :
    sentBytes (log ++ rest) pipe = sentBytes log pipe ++ sentBytes rest pipe :=
  flatMap_append

@[simp] theorem shutdowns_append (log rest : List Event) (pipe : ℕ) :
    shutdowns (log ++ rest) pipe = shutdowns log pipe + shutdowns rest pipe :=
  countP_append

@[simp] theorem keeps_append (log rest : List Event) :
    keeps (log ++ rest) = keeps log ++ keeps rest :=
  filterMap_append

@[simp] theorem receipts_append (pipes : List SyncPipe) (log rest : List Event) :
    receipts pipes (log ++ rest) = receipts pipes log ++ receipts pipes rest :=
  filterMap_append

@[simp] theorem failures_append (log rest : List Event) :
    failures (log ++ rest) = failures log ++ failures rest :=
  filterMap_append

@[simp] theorem keptBytes_append (log rest : List Event) :
    keptBytes (log ++ rest) = keptBytes log + keptBytes rest := by
  rw [keptBytes, keeps_append, map_append, sum_append]
  rfl

theorem sentBytes_of_ne {event : Event} {pipe : ℕ} (h : event.pipe? ≠ some pipe) :
    sentBytes [event] pipe = [] := by
  rw [sentBytes, flatMap_cons, flatMap_nil, append_nil]
  cases event with
  | sent other bytes => exact if_neg fun heq => h (congrArg some heq)
  | _ => rfl

theorem shutdowns_of_ne {event : Event} {pipe : ℕ} (h : event.pipe? ≠ some pipe) :
    shutdowns [event] pipe = 0 := by
  cases event with
  | shutdown other status =>
    have hne : other ≠ pipe := fun heq => h (congrArg some heq)
    simp [shutdowns, Event.shuts, hne]
  | _ => rfl

/-! ## What holds of each pipe -/

/-- A pipe as it was, as it is, and what the log says of it. -/
structure Piped (given p : SyncPipe) (pipe : ℕ) (log : List Event) : Prop where
  index : p.index = given.index
  input : p.input = given.input
  sent_le : p.sent ≤ p.input.length
  sent : sentBytes log pipe = p.input.take p.sent
  writing : p.writing = true → given.writing = true ∧ shutdowns log pipe = 0
  reading : p.reading = true → given.reading = true
  unsent : given.writing = false → p.sent = 0
  shutdowns_le : shutdowns log pipe ≤ 1
  whole : ∀ n status, log[n]? = some (.shutdown pipe status) →
    given.writing = true ∧ sentBytes (log.take n) pipe = p.input
  received : ∀ bytes, .received pipe bytes ∈ log → given.reading = true
  written : p.writing = false →
    given.writing = false ∨ shutdowns log pipe = 1 ∨ ∃ error, .failed pipe error ∈ log
  ended : p.reading = false →
    given.reading = false ∨ .ended pipe ∈ log ∨ ∃ error, .failed pipe error ∈ log

variable {given p : SyncPipe} {pipe : ℕ} {log : List Event} {event : Event}

/-- The shutdowns of a longer log are those of the shorter, or its last event. -/
theorem getElem?_concat_shutdown {n : ℕ} {status : ℤ}
    (h : (log ++ [event])[n]? = some (.shutdown pipe status)) :
    (log[n]? = some (.shutdown pipe status) ∧ (log ++ [event]).take n = log.take n) ∨
      (n = log.length ∧ event = .shutdown pipe status) := by
  rcases Nat.lt_trichotomy n log.length with hlt | rfl | hgt
  · rw [getElem?_append_left hlt] at h
    exact .inl ⟨h, take_append_of_le_length hlt.le⟩
  · rw [getElem?_concat_length] at h
    exact .inr ⟨rfl, Option.some.inj h⟩
  · rw [getElem?_eq_none (by simpa using Nat.succ_le_of_lt hgt)] at h
    cases h

theorem Piped.whole_concat (h : Piped given p pipe log)
    (hevent : ∀ status, event ≠ .shutdown pipe status) :
    ∀ n status, (log ++ [event])[n]? = some (.shutdown pipe status) →
      given.writing = true ∧ sentBytes ((log ++ [event]).take n) pipe = p.input := by
  intro n status hn
  rcases getElem?_concat_shutdown hn with ⟨hold, htake⟩ | ⟨-, heq⟩
  · rw [htake]
    exact h.whole n status hold
  · exact absurd heq (hevent status)

theorem Piped.received_concat (h : Piped given p pipe log)
    (hevent : ∀ bytes, event ≠ .received pipe bytes) :
    ∀ bytes, .received pipe bytes ∈ log ++ [event] → given.reading = true := by
  intro bytes hbytes
  rcases mem_append.1 hbytes with hold | hnew
  · exact h.received bytes hold
  · exact absurd (mem_singleton.1 hnew).symm (hevent bytes)

theorem Piped.ended_concat (h : Piped given p pipe log) (hreading : p.reading = false) :
    given.reading = false ∨ .ended pipe ∈ log ++ [event] ∨
      ∃ error, .failed pipe error ∈ log ++ [event] :=
  (h.ended hreading).imp_right fun hrest => hrest.imp (mem_append_left _)
    fun ⟨error, herror⟩ => ⟨error, mem_append_left _ herror⟩

theorem Piped.written_concat (h : Piped given p pipe log) (hwriting : p.writing = false)
    (hevent : shutdowns [event] pipe = 0) :
    given.writing = false ∨ shutdowns (log ++ [event]) pipe = 1 ∨
      ∃ error, .failed pipe error ∈ log ++ [event] := by
  rw [shutdowns_append, hevent, Nat.add_zero]
  exact (h.written hwriting).imp_right fun hrest => hrest.imp_right fun ⟨error, herror⟩ =>
    ⟨error, mem_append_left _ herror⟩

/-- What is said of a pipe stays when something is said of another. -/
theorem Piped.other (h : Piped given p pipe log) (hne : event.pipe? ≠ some pipe) :
    Piped given p pipe (log ++ [event]) := by
  have hsent : sentBytes (log ++ [event]) pipe = sentBytes log pipe := by
    rw [sentBytes_append, sentBytes_of_ne hne, append_nil]
  have hshut : shutdowns (log ++ [event]) pipe = shutdowns log pipe := by
    rw [shutdowns_append, shutdowns_of_ne hne, Nat.add_zero]
  refine ⟨h.index, h.input, h.sent_le, hsent.trans h.sent, ?_, h.reading, h.unsent,
    hshut.trans_le h.shutdowns_le, h.whole_concat ?_, h.received_concat ?_,
    fun hwriting => h.written_concat hwriting (shutdowns_of_ne hne), h.ended_concat⟩
  · rw [hshut]
    exact h.writing
  · rintro status rfl
    exact hne rfl
  · rintro bytes rfl
    exact hne rfl

theorem Piped.fail (h : Piped given p pipe log) (error : ℤ) :
    Piped given { p with reading := false, writing := false } pipe
      (log ++ [.failed pipe error]) := by
  have hlast : .failed pipe error ∈ log ++ [Event.failed pipe error] :=
    mem_append_right _ (mem_singleton.2 rfl)
  refine ⟨h.index, h.input, h.sent_le, ?_, fun hwriting => absurd hwriting Bool.false_ne_true,
    fun hreading => absurd hreading Bool.false_ne_true, h.unsent, ?_, h.whole_concat ?_,
    h.received_concat ?_, fun _ => .inr (.inr ⟨error, hlast⟩),
    fun _ => .inr (.inr ⟨error, hlast⟩)⟩
  · rw [sentBytes_append, h.sent]
    exact append_nil _
  · rw [shutdowns_append]
    exact h.shutdowns_le
  · exact fun _ heq => by cases heq
  · exact fun _ heq => by cases heq

theorem Piped.shutdown (h : Piped given p pipe log) (hwriting : p.writing = true)
    (hwhole : p.input.length ≤ p.sent) (status : ℤ) :
    Piped given { p with writing := false } pipe (log ++ [.shutdown pipe status]) := by
  obtain ⟨hgiven, hnone⟩ := h.writing hwriting
  have hone : shutdowns (log ++ [.shutdown pipe status]) pipe = 1 := by
    rw [shutdowns_append, hnone]
    simp [shutdowns, Event.shuts]
  refine ⟨h.index, h.input, h.sent_le, ?_, fun hfalse => absurd hfalse Bool.false_ne_true,
    h.reading, h.unsent, hone.le, ?_, h.received_concat ?_, fun _ => .inr (.inl hone),
    h.ended_concat⟩
  · rw [sentBytes_append, h.sent]
    exact append_nil _
  · intro n other hn
    rcases getElem?_concat_shutdown hn with ⟨hold, htake⟩ | ⟨rfl, -⟩
    · rw [htake]
      exact h.whole n other hold
    · rw [take_left, h.sent, take_of_length_le hwhole]
      exact ⟨hgiven, rfl⟩
  · exact fun _ heq => by cases heq

theorem Piped.send (h : Piped given p pipe log) (hwriting : p.writing = true) {n : ℕ}
    (hn : n ≤ p.input.length - p.sent) :
    Piped given { p with sent := p.sent + n } pipe
      (log ++ [.sent pipe ((p.input.drop p.sent).take n)]) := by
  obtain ⟨hgiven, hnone⟩ := h.writing hwriting
  have hle := h.sent_le
  refine ⟨h.index, h.input, ?_, ?_, fun _ => ⟨hgiven, ?_⟩, h.reading,
    fun hfalse => absurd (hgiven.symm.trans hfalse).symm Bool.false_ne_true, ?_,
    h.whole_concat ?_, h.received_concat ?_,
    fun hfalse => absurd (hwriting.symm.trans hfalse).symm Bool.false_ne_true, h.ended_concat⟩
  · dsimp only
    omega
  · rw [sentBytes_append, h.sent, take_add]
    simp [sentBytes, Event.sentTo]
  · rw [shutdowns_append]
    exact hnone
  · rw [shutdowns_append]
    exact h.shutdowns_le
  · exact fun _ heq => by cases heq
  · exact fun _ heq => by cases heq

theorem Piped.finish (h : Piped given p pipe log) :
    Piped given { p with reading := false } pipe (log ++ [.ended pipe]) := by
  refine ⟨h.index, h.input, h.sent_le, ?_, ?_, fun hfalse => absurd hfalse Bool.false_ne_true,
    h.unsent, ?_, h.whole_concat ?_, h.received_concat ?_,
    fun hwriting => h.written_concat hwriting rfl,
    fun _ => .inr (.inl (mem_append_right _ (mem_singleton.2 rfl)))⟩
  · rw [sentBytes_append, h.sent]
    exact append_nil _
  · rw [shutdowns_append]
    exact h.writing
  · rw [shutdowns_append]
    exact h.shutdowns_le
  · exact fun _ heq => by cases heq
  · exact fun _ heq => by cases heq

theorem Piped.receive (h : Piped given p pipe log) (hreading : p.reading = true)
    (bytes : List UInt8) : Piped given p pipe (log ++ [.received pipe bytes]) := by
  refine ⟨h.index, h.input, h.sent_le, ?_, ?_, h.reading, h.unsent, ?_, h.whole_concat ?_,
    fun _ _ => h.reading hreading, fun hwriting => h.written_concat hwriting rfl, h.ended_concat⟩
  · rw [sentBytes_append, h.sent]
    exact append_nil _
  · rw [shutdowns_append]
    exact h.writing
  · rw [shutdowns_append]
    exact h.shutdowns_le
  · exact fun _ heq => by cases heq

/-! ## What holds of the loop -/

/-- What the log says of the pipes, of what is kept and of the errors. -/
structure Kept {κ : Type*} (pipes : List SyncPipe) (s : Drain κ) : Prop where
  length : s.pipes.length = pipes.length
  each : ∀ (pipe : ℕ) (given p : SyncPipe), pipes[pipe]? = some given →
    s.pipes[pipe]? = some p → Piped given p pipe s.log
  kept : keeps s.log = receipts pipes s.log
  buffered : s.buffered = keptBytes s.log
  pipeError : s.pipeError = (failures s.log).head?
  running : .kill ∉ s.log ∧ .close ∉ s.log

variable {κ : Type*} {pipes : List SyncPipe} {s : Drain κ}

theorem Kept.exists_given (h : Kept pipes s) (hp : s.pipes[pipe]? = some p) :
    ∃ given, pipes[pipe]? = some given := by
  have hlt := (List.getElem?_eq_some_iff.1 hp).1
  rw [h.length] at hlt
  exact ⟨_, getElem?_eq_getElem hlt⟩

theorem Piped.append (h : Piped given p pipe log) {rest : List Event}
    (hrest : ∀ e ∈ rest, e.pipe? = none) : Piped given p pipe (log ++ rest) := by
  induction rest generalizing log with
  | nil => rwa [append_nil]
  | cons e rest ih =>
    have hnone := hrest e mem_cons_self
    have hother : Piped given p pipe (log ++ [e]) := h.other (by simp [hnone])
    have hlater := ih hother fun e he => hrest e (mem_cons_of_mem _ he)
    rwa [append_assoc, singleton_append] at hlater

/-- An event of a pipe that keeps what holds of it, and events of no pipe after it. -/
theorem Kept.update (h : Kept pipes s) (kernel : κ) (rest : List Event)
    {f : SyncPipe → SyncPipe} (hevent : event.pipe? = some pipe)
    (hpiped : ∀ given p, pipes[pipe]? = some given → s.pipes[pipe]? = some p →
      Piped given p pipe s.log → Piped given (f p) pipe (s.log ++ [event]))
    {buffered : ℕ} {pipeError : Option ℤ}
    (hrest : ∀ e ∈ rest, e.pipe? = none ∧ e ≠ .kill ∧ e ≠ .close)
    (hkept : keeps ([event] ++ rest) = receipts pipes ([event] ++ rest))
    (hbuffered : buffered = s.buffered + keptBytes ([event] ++ rest))
    (hfailures : pipeError = (failures (s.log ++ ([event] ++ rest))).head?) :
    Kept pipes ⟨kernel, s.pipes.modify pipe f, buffered, pipeError, s.log ++ ([event] ++ rest)⟩ := by
  refine ⟨?_, ?_, ?_, ?_, hfailures, ?_⟩
  · rw [length_modify]
    exact h.length
  · intro other given p hgiven hp
    rw [← append_assoc]
    refine Piped.append ?_ fun e he => (hrest e he).1
    rw [getElem?_modify, Option.map_eq_map, Option.map_eq_some_iff] at hp
    obtain ⟨q, hq, rfl⟩ := hp
    have hold := h.each other given q hgiven hq
    by_cases heq : pipe = other
    · subst heq
      rw [if_pos rfl]
      exact hpiped given q hgiven hq hold
    · rw [if_neg heq]
      exact hold.other fun hsome => heq (Option.some.inj (hevent.symm.trans hsome))
  · rw [keeps_append, receipts_append, h.kept, hkept]
  · rw [keptBytes_append, hbuffered, h.buffered]
  · have hnot : ∀ e : Event, e.pipe? = none → (e ∈ rest → False) → e ∉ s.log →
        e ∉ s.log ++ ([event] ++ rest) := by
      intro e hnone hno hold hmem
      rcases mem_append.1 hmem with hmem | hmem
      · exact hold hmem
      · rcases mem_append.1 hmem with hmem | hmem
        · rw [mem_singleton.1 hmem, hevent] at hnone
          cases hnone
        · exact hno hmem
    exact ⟨hnot .kill rfl (fun hmem => (hrest _ hmem).2.1 rfl) h.running.1,
      hnot .close rfl (fun hmem => (hrest _ hmem).2.2 rfl) h.running.2⟩

theorem Kept.quiet (h : Kept pipes s) {f : SyncPipe → SyncPipe} (hevent : event.pipe? = some pipe)
    (hpiped : ∀ given p, pipes[pipe]? = some given → s.pipes[pipe]? = some p →
      Piped given p pipe s.log → Piped given (f p) pipe (s.log ++ [event]))
    (hreceived : event.received? pipes = none) (hkept : event.kept? = none)
    (hfailure : event.failure? = none) (kernel : κ) :
    Kept pipes ({ s with kernel := kernel }.update pipe f event) := by
  refine h.update kernel [] hevent hpiped (fun _ he => by cases he) ?_ ?_ ?_
  · simp [keeps, receipts, hreceived, hkept]
  · simp [keptBytes, keeps, hkept]
  · simp [failures, hfailure, h.pipeError]

theorem Kept.setKernel (h : Kept pipes s) (kernel : κ) : Kept pipes { s with kernel := kernel } :=
  ⟨h.length, h.each, h.kept, h.buffered, h.pipeError, h.running⟩

theorem Kept.fail (h : Kept pipes s) (pipe : ℕ) (error : ℤ) : Kept pipes (s.fail pipe error) := by
  refine h.update s.kernel [] rfl
    (fun _ _ _ _ hp => hp.fail error) (fun _ he => by cases he) rfl rfl ?_
  change some (s.pipeError.getD error) = _
  rw [append_nil, failures_append, h.pipeError]
  cases failures s.log <;> rfl

theorem Kept.shutdown (h : Kept pipes s) (sockets : TreeSockets κ) (pipe : ℕ) :
    Kept pipes (s.shutdown sockets pipe) := by
  unfold Drain.shutdown
  split
  · exact h
  · rename_i p hp
    dsimp only
    by_cases hdone : p.writing = true ∧ p.input.length ≤ p.sent
    · have hshut : Kept pipes (Drain.update
          { s with kernel := (sockets.shutdown s.kernel p.fd).1 } pipe
          (fun p => { p with writing := false })
          (.shutdown pipe (sockets.shutdown s.kernel p.fd).2)) := by
        refine h.quiet rfl ?_ rfl rfl rfl _
        intro given q _ hq hpiped
        rw [Option.some.inj (hq.symm.trans hp)] at hpiped ⊢
        exact hpiped.shutdown hdone.1 hdone.2 _
      rw [if_pos hdone]
      split_ifs with hfailed
      · exact hshut.fail pipe _
      · exact hshut
    · rw [if_neg hdone]
      exact h

theorem Kept.send (h : Kept pipes s) (sockets : TreeSockets κ) (pipe : ℕ) :
    Kept pipes (s.send sockets pipe) := by
  unfold Drain.send
  split
  · exact h
  · rename_i p hp
    dsimp only
    split_ifs with hmore htaken hagain
    · refine h.quiet rfl ?_ rfl rfl rfl _
      intro given q _ hq hpiped
      rw [Option.some.inj (hq.symm.trans hp)] at hpiped ⊢
      refine hpiped.send hmore.1 ?_
      have hle := sockets.sendto_le s.kernel p.fd (p.input.drop p.sent)
      rw [length_drop] at hle
      omega
    · exact h.setKernel _
    · exact (h.setKernel _).fail pipe _
    · exact h

theorem Kept.keep (h : Kept pipes s) (hp : s.pipes[pipe]? = some p) (hreading : p.reading = true)
    {bytes : List UInt8} {count : ℕ} (hbytes : bytes.length = count) (kernel : κ) :
    Kept pipes ⟨kernel, s.pipes.modify pipe id, s.buffered + count, s.pipeError,
      s.log ++ [.received pipe bytes] ++ [.keep p.index bytes]⟩ := by
  obtain ⟨given, hgiven⟩ := h.exists_given hp
  have hindex := (h.each pipe given p hgiven hp).index
  rw [append_assoc]
  refine h.update kernel [.keep p.index bytes] rfl ?_ ?_ ?_ ?_ ?_
  · intro given q _ hq hpiped
    rw [Option.some.inj (hq.symm.trans hp)] at hpiped ⊢
    exact hpiped.receive hreading bytes
  · intro e he
    rw [mem_singleton.1 he]
    exact ⟨rfl, by simp, by simp⟩
  · simp [keeps, receipts, filterMap_cons, Event.kept?, Event.received?, hgiven, hindex]
  · simp [keptBytes, keeps, filterMap_cons, Event.kept?, hbytes]
  · have hnone : failures ([.received pipe bytes] ++ [.keep p.index bytes]) = [] := rfl
    rw [failures_append, hnone, append_nil]
    exact h.pipeError

theorem Kept.receive (h : Kept pipes s) (sockets : TreeSockets κ) (limits : DrainLimits)
    (pipe : ℕ) : Kept pipes (s.receive sockets limits pipe).1 := by
  unfold Drain.receive
  split
  · exact h
  · rename_i p hp
    dsimp only
    split_ifs with hreading hagain hfailed hend
    · exact h.setKernel _
    · exact (h.setKernel _).fail pipe _
    · exact h.quiet rfl (fun _ _ _ _ hpiped => hpiped.finish) rfl rfl rfl _
    · have hcount := sockets.recvfrom_le s.kernel p.fd
      have hbytes : ((sockets.recvfrom s.kernel p.fd).2.2.take
          (sockets.recvfrom s.kernel p.fd).2.1.toNat).length =
            (sockets.recvfrom s.kernel p.fd).2.1.toNat := by
        rw [length_take]
        omega
      generalize (sockets.recvfrom s.kernel p.fd).2.2.take
        (sockets.recvfrom s.kernel p.fd).2.1.toNat = bytes at *
      exact h.keep hp hreading hbytes _
    · exact h

theorem Kept.foldl (h : Kept pipes s) {f : Drain κ → ℕ → Drain κ}
    (hf : ∀ s pipe, Kept pipes s → Kept pipes (f s pipe)) (places : List ℕ) :
    Kept pipes (places.foldl f s) := by
  induction places generalizing s with
  | nil => exact h
  | cons place places ih => exact ih (hf s place h)

theorem Kept.serve (h : Kept pipes s) (sockets : TreeSockets κ) (limits : DrainLimits)
    (ready : List (ℕ × ℕ)) : Kept pipes (s.serve sockets limits ready).1 := by
  induction ready generalizing s with
  | nil => exact h
  | cons first rest ih =>
    have hserved := (h.send sockets first.1).receive sockets limits first.1
    rw [Drain.serve]
    dsimp only
    split_ifs with hnone hover
    · exact ih h
    · exact hserved
    · exact ih hserved

/-! ## What is kept is not too much while the loop goes on -/

def Fits (limits : DrainLimits) (s : Drain κ) : Prop := limits.overflows s.buffered = false

@[simp] theorem buffered_update (s : Drain κ) (pipe : ℕ) (f : SyncPipe → SyncPipe) (event : Event) :
    (s.update pipe f event).buffered = s.buffered := rfl

@[simp] theorem buffered_fail (s : Drain κ) (pipe : ℕ) (error : ℤ) :
    (s.fail pipe error).buffered = s.buffered := rfl

@[simp] theorem buffered_shutdown (sockets : TreeSockets κ) (s : Drain κ) (pipe : ℕ) :
    (s.shutdown sockets pipe).buffered = s.buffered := by
  unfold Drain.shutdown
  split
  · rfl
  · dsimp only
    split_ifs <;> rfl

@[simp] theorem buffered_send (sockets : TreeSockets κ) (s : Drain κ) (pipe : ℕ) :
    (s.send sockets pipe).buffered = s.buffered := by
  unfold Drain.send
  split
  · rfl
  · dsimp only
    split_ifs <;> rfl

theorem buffered_foldl {f : Drain κ → ℕ → Drain κ}
    (hf : ∀ s pipe, (f s pipe).buffered = s.buffered) (places : List ℕ) (s : Drain κ) :
    (places.foldl f s).buffered = s.buffered := by
  induction places generalizing s with
  | nil => rfl
  | cons place places ih => exact (ih (f s place)).trans (hf s place)

theorem overflows_receive (sockets : TreeSockets κ) (limits : DrainLimits) (h : Fits limits s)
    (pipe : ℕ) :
    (s.receive sockets limits pipe).2 =
      limits.overflows (s.receive sockets limits pipe).1.buffered := by
  unfold Drain.receive
  split
  · exact h.symm
  · dsimp only
    split_ifs with hreading hagain hfailed hend
    · exact h.symm
    · exact h.symm
    · exact h.symm
    · rfl
    · exact h.symm

theorem overflows_serve (sockets : TreeSockets κ) (limits : DrainLimits) (h : Fits limits s)
    (ready : List (ℕ × ℕ)) :
    (s.serve sockets limits ready).2 =
      limits.overflows (s.serve sockets limits ready).1.buffered := by
  induction ready generalizing s with
  | nil => exact h.symm
  | cons first rest ih =>
    have hsent : Fits limits (s.send sockets first.1) := by
      rw [Fits, buffered_send]
      exact h
    have hone := overflows_receive sockets limits hsent first.1
    rw [Drain.serve]
    dsimp only
    split_ifs with hnone hover
    · exact ih h
    · exact hover ▸ hone
    · exact ih (hone.symm.trans (Bool.eq_false_iff.2 hover))

/-! ## What the loop returns with -/

/-- What the loop has done when it returns. -/
structure Served (pipes : List SyncPipe) (limits : DrainLimits) (log : List Event)
    (outcome : DrainOutcome) : Prop where
  kept : keeps log = receipts pipes log
  sent : ∀ pipe given, pipes[pipe]? = some given →
    sentBytes log pipe <+: given.input ∧ (given.writing = false → sentBytes log pipe = [])
  shut : ∀ pipe given, pipes[pipe]? = some given →
    shutdowns log pipe ≤ 1 ∧ ∀ n status, log[n]? = some (.shutdown pipe status) →
      given.writing = true ∧ sentBytes (log.take n) pipe = given.input
  error : outcome.error = none ∨ outcome.error = some uvEtimedout ∨
    outcome.error = some uvEnobufs
  timeout : outcome.error = some uvEtimedout → limits.deadline.isSome = true
  overflow : outcome.error = some uvEnobufs ↔ limits.overflows (keptBytes log) = true
  killed : log.count .kill = if outcome.error.isSome then 1 else 0
  closed : log.count .close = 1 ∧ log.getLast? = some .close
  pipeError : outcome.pipeError = (failures log).head?
  ended : outcome.error = none → ∀ pipe given, pipes[pipe]? = some given →
    (∀ error, .failed pipe error ∉ log) →
      (given.writing = true → shutdowns log pipe = 1 ∧ sentBytes log pipe = given.input) ∧
        (given.reading = true → .ended pipe ∈ log)

theorem Piped.sent_whole (h : Piped given p pipe log) (hone : shutdowns log pipe = 1) :
    sentBytes log pipe = given.input := by
  have hpositive : 0 < log.countP (Event.shuts pipe) := by
    rw [shutdowns] at hone
    omega
  obtain ⟨event, hevent, hshuts⟩ := countP_pos_iff.1 hpositive
  obtain ⟨n, hn⟩ := mem_iff_getElem?.1 hevent
  cases event with
  | shutdown other status =>
    obtain rfl : other = pipe := of_decide_eq_true hshuts
    have hwhole := (h.whole n status hn).2
    have hsplit : sentBytes log other =
        sentBytes (log.take n) other ++ sentBytes (log.drop n) other := by
      rw [← sentBytes_append, take_append_drop]
    have hlength := congrArg List.length hsplit
    have hle := h.sent_le
    rw [hwhole, h.sent, length_append, length_take] at hlength
    rw [h.sent, take_of_length_le (by omega), h.input]
  | _ => cases hshuts

theorem Kept.exists_current (h : Kept pipes s) (hgiven : pipes[pipe]? = some given) :
    ∃ p, s.pipes[pipe]? = some p := by
  have hlt := (List.getElem?_eq_some_iff.1 hgiven).1
  rw [← h.length] at hlt
  exact ⟨_, getElem?_eq_getElem hlt⟩

variable {limits : DrainLimits}

theorem Kept.served (h : Kept pipes s) {error : Option ℤ} {rest : List Event}
    (hrest : rest = (if error.isSome then [.kill] else []) ++ [Event.close])
    (herror : error = none ∨ error = some uvEtimedout ∨ error = some uvEnobufs)
    (htimeout : error = some uvEtimedout → limits.deadline.isSome = true)
    (hoverflow : error = some uvEnobufs ↔ limits.overflows s.buffered = true)
    (hended : error = none → ∀ p ∈ s.pipes, p.reading = false ∧ p.writing = false) :
    Served pipes limits (s.log ++ rest) ⟨error, s.pipeError⟩ := by
  have hquiet : ∀ e ∈ rest, e.pipe? = none := by
    intro e he
    rw [hrest] at he
    cases error <;> simp at he
    · rw [he]
      rfl
    · rcases he with rfl | rfl <;> rfl
  have hpiped : ∀ {pipe : ℕ} {given : SyncPipe}, pipes[pipe]? = some given →
      ∃ p, s.pipes[pipe]? = some p ∧ Piped given p pipe (s.log ++ rest) := by
    intro pipe given hgiven
    obtain ⟨p, hp⟩ := h.exists_current hgiven
    exact ⟨p, hp, (h.each pipe given p hgiven hp).append hquiet⟩
  have hkept : keeps rest = [] ∧ receipts pipes rest = [] ∧ failures rest = [] := by
    rw [hrest]
    cases error <;> exact ⟨rfl, rfl, rfl⟩
  obtain ⟨hkeeps, hreceipts, hfailures⟩ := hkept
  have hbytes : keptBytes (s.log ++ rest) = s.buffered := by
    rw [keptBytes, keeps_append, hkeeps, append_nil]
    exact h.buffered.symm
  refine ⟨?_, ?_, ?_, herror, htimeout, hbytes ▸ hoverflow, ?_, ?_, ?_, ?_⟩
  · rw [keeps_append, receipts_append, hkeeps, hreceipts, h.kept]
  · intro pipe given hgiven
    obtain ⟨p, -, hp⟩ := hpiped hgiven
    rw [hp.sent, hp.input]
    refine ⟨List.take_prefix _ _, fun hnot => ?_⟩
    rw [hp.unsent hnot, take_zero]
  · intro pipe given hgiven
    obtain ⟨p, -, hp⟩ := hpiped hgiven
    exact ⟨hp.shutdowns_le, hp.input ▸ hp.whole⟩
  · rw [count_append, count_eq_zero.2 h.running.1, hrest]
    cases error <;> rfl
  · rw [count_append, count_eq_zero.2 h.running.2, hrest]
    cases error <;> exact ⟨rfl, by simp⟩
  · rw [failures_append, hfailures, append_nil]
    exact h.pipeError
  · intro hnone pipe given hgiven hunfailed
    obtain ⟨p, hmem, hp⟩ := hpiped hgiven
    obtain ⟨hreading, hwriting⟩ := hended hnone p (mem_of_getElem? hmem)
    refine ⟨fun hwrites => ?_, fun hreads => ?_⟩
    · rcases hp.written hwriting with hfalse | hone | ⟨error, hfailed⟩
      · exact absurd (hwrites.symm.trans hfalse).symm Bool.false_ne_true
      · exact ⟨hone, hp.sent_whole hone⟩
      · exact absurd hfailed (hunfailed error)
    · rcases hp.ended hreading with hfalse | hend | ⟨error, hfailed⟩
      · exact absurd (hreads.symm.trans hfalse).symm Bool.false_ne_true
      · exact hend
      · exact absurd hfailed (hunfailed error)

def Drain.opened (sockets : TreeSockets κ) (s : Drain κ) : Drain κ :=
  (List.range s.pipes.length).foldl (Drain.shutdown sockets) s

theorem Kept.opened (h : Kept pipes s) (sockets : TreeSockets κ) :
    Kept pipes (s.opened sockets) :=
  h.foldl (fun _ _ hs => hs.shutdown sockets _) _

theorem buffered_opened (sockets : TreeSockets κ) (s : Drain κ) :
    (s.opened sockets).buffered = s.buffered :=
  buffered_foldl (fun s pipe => buffered_shutdown sockets s pipe) _ s

/-- A loop that has nobody to ask about has no pipe that is open. -/
theorem closed_of_asked_eq_nil (h : s.asked = []) :
    ∀ p ∈ s.pipes, p.reading = false ∧ p.writing = false := by
  intro p hp
  obtain ⟨pipe, hpipe⟩ := mem_iff_getElem?.1 hp
  have hlt := (List.getElem?_eq_some_iff.1 hpipe).1
  have hnone := filter_eq_nil_iff.1 h pipe (mem_range.2 hlt)
  rw [hpipe] at hnone
  simpa using hnone

/-- What a round answers: the loop goes on with what is kept, or returns with what is served. -/
structure Rounded (pipes : List SyncPipe) (limits : DrainLimits)
    (answer : Drain κ × Option DrainOutcome) : Prop where
  going : answer.2 = none → Kept pipes answer.1 ∧ Fits limits answer.1
  returned : ∀ outcome ∈ answer.2, Served pipes limits answer.1.log outcome

theorem Rounded.of_going (h : Kept pipes s) (hfits : Fits limits s) :
    Rounded pipes limits (s, none) :=
  ⟨fun _ => ⟨h, hfits⟩, fun _ hsome => absurd hsome (by simp)⟩

theorem Rounded.of_served {outcome : DrainOutcome}
    (h : Served pipes limits s.log outcome) : Rounded pipes limits (s, some outcome) := by
  refine ⟨fun hnone => absurd hnone (by simp), fun other hsome => ?_⟩
  rwa [← Option.some.inj hsome]

theorem Rounded.of_kill {error : ℤ} (h : Kept pipes s)
    (herror : error = uvEtimedout ∧ limits.deadline.isSome = true ∧ Fits limits s ∨
      error = uvEnobufs ∧ limits.overflows s.buffered = true) :
    Rounded pipes limits ((s.kill error).1, some (s.kill error).2) := by
  refine Rounded.of_served (h.served rfl ?_ ?_ ?_ fun hnone => by cases hnone)
  · rcases herror with ⟨rfl, -⟩ | ⟨rfl, -⟩
    · exact .inr (.inl rfl)
    · exact .inr (.inr rfl)
  · rcases herror with ⟨-, hdeadline, -⟩ | ⟨rfl, -⟩
    · exact fun _ => hdeadline
    · exact fun heq => absurd heq (by decide)
  · rcases herror with ⟨rfl, -, hfits⟩ | ⟨rfl, hover⟩
    · rw [show limits.overflows s.buffered = false from hfits]
      decide
    · exact iff_of_true rfl hover

theorem rounded_ask (h : Kept pipes s) (hfits : Fits limits s)
    (sockets : TreeSockets κ) : Rounded pipes limits (s.ask sockets limits) := by
  rw [Drain.ask]
  dsimp only
  split_ifs with hexpired hagain hfailed hover
  · refine Rounded.of_kill (h.setKernel _) (.inl ⟨rfl, ?_, hfits⟩)
    rw [DrainLimits.expired] at hexpired
    cases hdeadline : limits.deadline with
    | none =>
      rw [hdeadline] at hexpired
      cases hexpired
    | some deadline => rfl
  · exact Rounded.of_going (h.setKernel _) hfits
  · refine Rounded.of_going ((h.setKernel _).foldl (fun _ _ hs => hs.fail _ _) _) ?_
    rw [Fits, buffered_foldl fun s pipe => buffered_fail s pipe _]
    exact hfits
  · refine Rounded.of_kill ((h.setKernel _).serve sockets limits _) (.inr ⟨rfl, ?_⟩)
    rw [← overflows_serve sockets limits (by exact hfits)]
    exact hover
  · refine Rounded.of_going ((h.setKernel _).serve sockets limits _) ?_
    rw [Fits, ← overflows_serve sockets limits (by exact hfits)]
    exact Bool.eq_false_iff.2 hover

theorem rounded_round (h : Kept pipes s) (hfits : Fits limits s)
    (sockets : TreeSockets κ) : Rounded pipes limits (s.round sockets limits) := by
  have hopened := h.opened sockets
  have hfitting : Fits limits (s.opened sockets) := by
    rw [Fits, buffered_opened]
    exact hfits
  rw [Drain.round]
  change Rounded pipes limits (if (s.opened sockets).asked = [] then _ else _)
  split_ifs with hasked
  · refine Rounded.of_served (hopened.served rfl (.inl rfl) (fun htimeout => by cases htimeout) ?_
      fun _ => closed_of_asked_eq_nil hasked)
    rw [show limits.overflows (s.opened sockets).buffered = false from hfitting]
    decide
  · exact rounded_ask hopened hfitting sockets

theorem rounded_rounds (h : Kept pipes s) (hfits : Fits limits s) (sockets : TreeSockets κ)
    (n : ℕ) : Rounded pipes limits (s.rounds sockets limits n) := by
  induction n generalizing s with
  | zero => exact Rounded.of_going h hfits
  | succ n ih =>
    have hround := rounded_round h hfits sockets
    rw [Drain.rounds]
    split
    · rename_i t hnone
      rw [hnone] at hround
      obtain ⟨hkept, hfit⟩ := hround.going rfl
      exact ih hkept hfit
    · rename_i t outcome hsome
      rwa [hsome] at hround

end SpawnSync

end Tabnode
