import Tabnode.KernelStream.Core

/-!
# Every accepted byte is sent once, in order

What a stream promises is read off its ledger: the parts of each write, in order, its
completion, and its place in the queue.
-/

namespace Tabnode

namespace KernelStream

open List

def Wrap.partsOf (s : Wrap) (r : ℕ) : List Part := s.wire.filter fun p => p.request == r

def Wrap.takenOf (s : Wrap) (r : ℕ) : List UInt8 := (s.partsOf r).flatMap Part.bytes

def Wrap.failed (s : Wrap) (r : ℕ) : Bool :=
  s.completions.any fun c => c.1 == r && c.2 != 0

/-- The bytes of the accepted writes, those of a failed one as far as they were taken. -/
def Wrap.due (s : Wrap) : List UInt8 :=
  numbered (fun r a => if s.failed r then s.takenOf r else a.bytes) 0 s.accepted

/-- What the stream promises in a state. -/
structure Reliable (s : Wrap) : Prop where
  in_order : s.wire.flatMap Part.bytes <+: s.due
  known : ∀ p ∈ s.wire, p.request < s.accepted.length
  carried : ∀ r a p ps, s.accepted[r]? = some a → s.partsOf r = p :: ps →
    p.fd = a.fd ∧ ∀ q ∈ ps, q.fd = none
  whole : ∀ r a, s.accepted[r]? = some a → s.failed r = false →
    (∀ w ∈ s.writes, w.request ≠ r) → s.takenOf r = a.bytes
  size : s.writeQueueSize = (s.writes.map fun w => (w.bytes.length : Int) - w.sent).sum
  shut_once : s.shutCalls.length ≤ 1
  shut_idle : ∀ n ∈ s.shutCalls, n = 0
  completed : ∀ r a, s.accepted[r]? = some a → s.completions.countP (fun c => c.1 == r) =
    if a.async = true ∧ ∀ w ∈ s.writes, w.request ≠ r then 1 else 0
  shutdown_completed : ∀ r < s.shutdowns, s.shutdownCompletions.countP (fun c => c.1 == r) =
    if s.shutdown = some r then 0 else 1
  at_close : s.closed = true → s.writes = [] ∧ s.shutdown = none
  asked : s.closed = false → s.held = false → (∀ c ∈ s.completions, c.2 = 0) →
    s.writes ≠ [] → s.waitingOut.isSome = true ∧ s.waitingOut = s.descriptor

variable {fd : ℕ} {s : Wrap}

variable {done pend : List Entry} {r : ℕ}

theorem Account.entry
    (h : Account done pend s.accepted s.wire s.writes s.completions s.writeQueueSize) {a : Accepted}
    (ha : s.accepted[r]? = some a) :
    ∃ e, (done ++ pend)[r]? = some e ∧ a = e.accepted ∧ s.partsOf r = e.sends r ∧
      s.completions.filter (fun c => c.1 == r) = e.completion r := by
  rw [h.accepted, getElem?_map] at ha
  obtain ⟨e, he, rfl⟩ := Option.map_eq_some_iff.1 ha
  refine ⟨e, he, rfl, ?_, ?_⟩
  · have hparts := filter_numbered Entry.sends_place 0 r (done ++ pend)
    rw [← h.wire, he, Nat.zero_add] at hparts
    exact hparts
  · have hdone := filter_numbered Entry.completion_place 0 r (done ++ pend)
    rw [← h.completions, he, Nat.zero_add] at hdone
    exact hdone

variable {e : Entry}

theorem takenOf_of_entry (h : s.partsOf r = e.sends r) : s.takenOf r = e.parts.flatten := by
  rw [Wrap.takenOf, h, Entry.sends_bytes]

theorem failed_of_entry (h : s.completions.filter (fun c => c.1 == r) = e.completion r) :
    s.failed r = e.outcome.any fun st => st != 0 := by
  rw [Wrap.failed, ← any_filter, h, Entry.completion]
  cases e.outcome with
  | none => rfl
  | some st => simp

theorem Account.over_or_queued
    (h : Account done pend s.accepted s.wire s.writes s.completions s.writeQueueSize)
    (he : (done ++ pend)[r]? = some e) : (e ∈ done ∧ ∀ w ∈ s.writes, w.request ≠ r) ∨
      (e ∈ pend ∧ ¬ ∀ w ∈ s.writes, w.request ≠ r) := by
  have hplace : ∀ k e, ∀ w ∈ Entry.queued k e, w.request = k := by
    intro k e w hw
    rw [mem_singleton.1 hw]
  by_cases hr : r < done.length
  · rw [getElem?_append_left hr] at he
    refine .inl ⟨mem_of_getElem? he, fun w hw heq => ?_⟩
    rw [h.writes] at hw
    have hlow := (place_of_mem_numbered hplace hw).1
    omega
  · rw [getElem?_append_right (Nat.le_of_not_lt hr)] at he
    refine .inr ⟨mem_of_getElem? he, fun hnot => ?_⟩
    have hqueued := filter_numbered hplace done.length (r - done.length) pend
    rw [he, ← h.writes, Nat.add_sub_of_le (Nat.le_of_not_lt hr)] at hqueued
    have hmem : ⟨r, e.bytes, e.parts.flatten.length, if e.parts = [] then e.fd else none⟩ ∈
        s.writes.filter fun w => w.request == r := by
      rw [hqueued]
      exact mem_singleton_self _
    exact hnot _ (mem_of_mem_filter hmem) rfl

def Entry.due (e : Entry) : List UInt8 :=
  if e.outcome.any fun st => st != 0 then e.parts.flatten else e.bytes

theorem Entry.Settled.due_eq (h : e.Settled) : e.due = e.parts.flatten := by
  unfold Entry.due
  split
  · rfl
  · next hnot =>
      refine (h.all_bytes fun st hst => ?_).symm
      rw [hst] at hnot
      simpa using hnot

theorem Account.in_order
    (h : Account done pend s.accepted s.wire s.writes s.completions s.writeQueueSize) :
    s.wire.flatMap Part.bytes <+: s.due := by
  have hwire : s.wire.flatMap Part.bytes = (done ++ pend).flatMap fun e => e.parts.flatten := by
    rw [h.wire, flatMap_numbered, ← numbered_const _ 0]
    exact numbered_congr fun r e _ => Entry.sends_bytes _ e
  have hdue : s.due = (done ++ pend).flatMap Entry.due := by
    rw [Wrap.due, h.accepted, numbered_map, ← numbered_const _ 0]
    refine numbered_congr fun r e he => ?_
    have ha : s.accepted[r]? = some e.accepted := by
      rw [h.accepted, getElem?_map, he]
      rfl
    obtain ⟨e', he', -, hparts, hdone⟩ := h.entry ha
    rw [he] at he'
    cases he'
    rw [Nat.zero_add, failed_of_entry hdone, takenOf_of_entry hparts]
    rfl
  have hsettled : done.flatMap Entry.due = done.flatMap fun e => e.parts.flatten :=
    flatMap_congr fun e he => (h.settled e he).due_eq
  rw [hwire, hdue, flatMap_append, flatMap_append, hsettled,
    prefix_append_right_inj]
  cases hpend : pend with
  | nil => exact ⟨[], rfl⟩
  | cons e rest =>
      have hwaiting := h.waiting e (by rw [hpend]; exact mem_cons_self)
      have hlater : rest.flatMap (fun b => b.parts.flatten) = [] := by
        refine flatMap_eq_nil_iff.2 fun b hb => ?_
        rw [h.later b (by rw [hpend]; exact hb)]
        rfl
      have hbytes : e.due = e.bytes := by
        rw [Entry.due, hwaiting.outcome]
        rfl
      rw [flatMap_cons, flatMap_cons, hlater, append_nil, hbytes]
      exact hwaiting.some_bytes.trans (prefix_append _ _)

theorem unsent_queued (k : ℕ) (l : List Entry) :
    (numbered Entry.queued k l).map (fun w => (w.bytes.length : Int) - w.sent) =
      l.map Entry.unsent := by
  induction l generalizing k with
  | nil => rfl
  | cons e l ih =>
      rw [numbered_cons, map_append, ih]
      rfl

theorem Shutting.completed (h : Shutting s) (hr : r < s.shutdowns) :
    s.shutdownCompletions.countP (fun c => c.1 == r) =
      if s.shutdown = some r then 0 else 1 := by
  rcases h with ⟨-, hcount, -, -, -⟩ | ⟨-, hcount, hsome, hdone, -⟩ |
    ⟨-, hcount, hnone, ⟨st, hdone⟩, -⟩
  · omega
  · have hzero : r = 0 := by omega
    rw [hsome, hdone, hzero]
    rfl
  · have hzero : r = 0 := by omega
    rw [hnone, hdone, hzero]
    rfl

theorem Kept.reliable (h : Kept fd s) : Reliable s := by
  obtain ⟨hcore, hasks⟩ := h
  obtain ⟨done, pend, haccount⟩ := hcore.accounted
  have hlength : s.accepted.length = (done ++ pend).length := by
    rw [haccount.accepted, length_map]
  constructor
  · exact haccount.in_order
  · intro p hp
    rw [haccount.wire] at hp
    rw [hlength, ← Nat.zero_add (done ++ pend).length]
    exact (place_of_mem_numbered Entry.sends_place hp).2
  · intro r a p ps ha hparts
    obtain ⟨e, -, rfl, hsends, -⟩ := haccount.entry ha
    rw [hparts, Entry.sends] at hsends
    split at hsends
    · cases hsends
    · cases hsends
      refine ⟨rfl, fun q hq => ?_⟩
      obtain ⟨b, -, rfl⟩ := mem_map.1 hq
      rfl
  · intro r a ha hfailed hnot
    obtain ⟨e, he, rfl, hparts, hdone⟩ := haccount.entry ha
    rw [failed_of_entry hdone] at hfailed
    rcases haccount.over_or_queued he with ⟨hmem, -⟩ | ⟨-, hqueued⟩
    · rw [takenOf_of_entry hparts, ← (haccount.settled e hmem).due_eq, Entry.due, hfailed]
      rfl
    · exact absurd hnot hqueued
  · rw [haccount.size, haccount.writes, unsent_queued]
  · rcases hcore.shutting with ⟨-, -, -, -, hcalls⟩ | ⟨-, -, -, -, hcalls⟩ |
      ⟨-, -, -, -, hcalls | hcalls⟩ <;> simp [hcalls]
  · rcases hcore.shutting with ⟨-, -, -, -, hcalls⟩ | ⟨-, -, -, -, hcalls⟩ |
      ⟨-, -, -, -, hcalls | hcalls⟩ <;> simp [hcalls]
  · intro r a ha
    obtain ⟨e, he, rfl, -, hdone⟩ := haccount.entry ha
    rw [countP_eq_length_filter, hdone, Entry.completion]
    rcases haccount.over_or_queued he with ⟨hmem, hnot⟩ | ⟨hmem, hqueued⟩
    · have hasync : e.accepted.async = e.outcome.isSome := (haccount.settled e hmem).async
      rw [hasync]
      cases e.outcome with
      | none => rfl
      | some st => exact (if_pos ⟨rfl, hnot⟩).symm
    · rw [(haccount.waiting e hmem).outcome, if_neg fun hand => hqueued hand.2]
      rfl
  · exact fun r hr => hcore.shutting.completed hr
  · exact fun hclosed => (hcore.ended hclosed).2
  · intro hopen hfree hall hne
    rw [hasks hopen hfree hall hne, hcore.opened hopen]
    exact ⟨rfl, rfl⟩

/-- In every state of every run of a stream it has kept what it promises. -/
theorem run_reliable {fd : ℕ} {held waiting : Bool} {as : List Act} {s : Wrap}
    (h : Machine.run step (start fd held waiting) as = some s) : Reliable s :=
  (Machine.invariant (fun _ _ _ hk hs => Kept.step hk hs) (kept_start fd held waiting) h).reliable

/-- A connect holds a write and a shutdown; the socket takes the write in two parts, and the
shutdown follows. -/
def plainRun : List Act :=
  [.call (.write [1, 2, 3] none [] 0), .call .shutdown,
    .writable 0 [.write [4] (some 9) [] 0] [] 0, .writable 0 [] [-4, 2, -11] 0,
    .writable 0 [] [1, 1] 0]

def plainEnd : Wrap := (Machine.run step (start 3 true true) plainRun).getD (start 3 true true)

theorem run_reliable_plainRun : Reliable plainEnd :=
  @run_reliable 3 true true plainRun plainEnd (by decide)

def Wrap.unfailed (s : Wrap) : List UInt8 :=
  numbered (fun r a => if s.failed r then [] else a.bytes) 0 s.accepted

/-- A write the socket has taken a byte of is cancelled by a close. -/
theorem taken_of_failed :
    ¬ ∀ (fd : ℕ) (held waiting : Bool) (as : List Act) (s : Wrap),
      Machine.run step (start fd held waiting) as = some s →
        s.wire.flatMap Part.bytes <+: s.unfailed := by
  intro h
  have hprefix := h 3 false false [.call (.write [1, 2] none [1] 0), .call .close] _ rfl
  revert hprefix
  decide

end KernelStream

end Tabnode
