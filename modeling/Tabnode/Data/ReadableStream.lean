import Mathlib.Data.List.Basic

/-!
# Readable streams that are pulled

A stream whose source is asked for the next chunk only while a reader waits for one, as
the streams of the platform are with a high-water mark of zero. A chunk that comes is
given to the read that waits, and queued where the reader has let go of it. The source is
pulled again only when its last pull has been settled. `received` is what the reader was
given.

Each operation answers the stream after it and, where it may pull the source, whether it
does. `content` is what was enqueued and not thrown away: no operation but an enqueue
changes it while the stream is readable.
-/

namespace Tabnode

/-- What a stream is: open, done, or failed. -/
inductive StreamState where
  | readable
  | closed
  | errored
  deriving DecidableEq

/-- A stream: what is queued, the reads that wait, and the pull under way. -/
structure ReadableStream (α : Type*) where
  state : StreamState
  queue : List α
  closeRequested : Bool
  requests : ℕ
  pulling : Bool
  pullAgain : Bool
  received : List α
  cancelled : Bool

namespace ReadableStream

variable {α : Type*}

def new : ReadableStream α := ⟨.readable, [], false, 0, false, false, [], false⟩

def shouldPull (s : ReadableStream α) : Bool :=
  s.state = .readable && !s.closeRequested && decide (0 < s.requests)

def callPullIfNeeded (s : ReadableStream α) : ReadableStream α × Bool :=
  if s.shouldPull then
    if s.pulling then ({ s with pullAgain := true }, false)
    else ({ s with pulling := true }, true)
  else (s, false)

def pullSettled (s : ReadableStream α) : ReadableStream α × Bool :=
  let s := { s with pulling := false }
  if s.pullAgain then callPullIfNeeded { s with pullAgain := false } else (s, false)

def read (s : ReadableStream α) : ReadableStream α × Bool :=
  match s.state, s.queue with
  | .readable, chunk :: queue =>
    let s := { s with queue := queue, received := s.received ++ [chunk] }
    if s.closeRequested && queue.isEmpty then ({ s with state := .closed, requests := 0 }, false)
    else s.callPullIfNeeded
  | .readable, [] => callPullIfNeeded { s with requests := s.requests + 1 }
  | _, _ => (s, false)

def releaseLock (s : ReadableStream α) : ReadableStream α := { s with requests := 0 }

def enqueue (s : ReadableStream α) (chunk : α) : Option (ReadableStream α × Bool) :=
  if s.state = .readable ∧ s.closeRequested = false then
    match s.requests with
    | n + 1 =>
      some (callPullIfNeeded { s with requests := n, received := s.received ++ [chunk] })
    | 0 => some (callPullIfNeeded { s with queue := s.queue ++ [chunk] })
  else none

/-- The source is done; refused when the stream is not open. What is queued can still be
read. -/
def close (s : ReadableStream α) : Option (ReadableStream α) :=
  if s.state = .readable ∧ s.closeRequested = false then
    if s.queue.isEmpty then
      some { s with closeRequested := true, state := .closed, requests := 0 }
    else some { s with closeRequested := true }
  else none

def error (s : ReadableStream α) : ReadableStream α :=
  if s.state = .readable then { s with state := .errored, queue := [], requests := 0 } else s

def cancel (s : ReadableStream α) : ReadableStream α × Bool :=
  if s.state = .readable then
    ({ s with state := .closed, queue := [], requests := 0, cancelled := true }, true)
  else (s, false)

def content (s : ReadableStream α) : List α := s.received ++ s.queue

def Open (s : ReadableStream α) : Prop := s.state = .readable ∧ s.closeRequested = false

def Served (s : ReadableStream α) : Prop := 0 < s.requests → s.queue = []

theorem callPullIfNeeded_eq (s : ReadableStream α) :
    ∃ pulling pullAgain,
      s.callPullIfNeeded.1 = { s with pulling := pulling, pullAgain := pullAgain } := by
  unfold callPullIfNeeded
  split
  · split <;> exact ⟨_, _, rfl⟩
  · exact ⟨s.pulling, s.pullAgain, rfl⟩

@[simp] theorem callPullIfNeeded_content (s : ReadableStream α) :
    s.callPullIfNeeded.1.content = s.content := by
  obtain ⟨_, _, h⟩ := s.callPullIfNeeded_eq
  rw [h]
  rfl

@[simp] theorem callPullIfNeeded_received (s : ReadableStream α) :
    s.callPullIfNeeded.1.received = s.received := by
  obtain ⟨_, _, h⟩ := s.callPullIfNeeded_eq
  rw [h]

@[simp] theorem callPullIfNeeded_state (s : ReadableStream α) :
    s.callPullIfNeeded.1.state = s.state := by
  obtain ⟨_, _, h⟩ := s.callPullIfNeeded_eq
  rw [h]

@[simp] theorem callPullIfNeeded_closeRequested (s : ReadableStream α) :
    s.callPullIfNeeded.1.closeRequested = s.closeRequested := by
  obtain ⟨_, _, h⟩ := s.callPullIfNeeded_eq
  rw [h]

@[simp] theorem callPullIfNeeded_cancelled (s : ReadableStream α) :
    s.callPullIfNeeded.1.cancelled = s.cancelled := by
  obtain ⟨_, _, h⟩ := s.callPullIfNeeded_eq
  rw [h]

@[simp] theorem callPullIfNeeded_queue (s : ReadableStream α) :
    s.callPullIfNeeded.1.queue = s.queue := by
  obtain ⟨_, _, h⟩ := s.callPullIfNeeded_eq
  rw [h]

theorem Served.callPullIfNeeded {s : ReadableStream α} (h : s.Served) :
    s.callPullIfNeeded.1.Served := by
  obtain ⟨_, _, heq⟩ := s.callPullIfNeeded_eq
  rw [heq]
  exact h

/-- The source is pulled only when no pull is under way, and then one is. -/
theorem callPullIfNeeded_pulling (s : ReadableStream α) :
    (s.callPullIfNeeded.2 = true → s.pulling = false ∧ s.Open) ∧
      s.callPullIfNeeded.1.pulling = (s.pulling || s.callPullIfNeeded.2) := by
  unfold callPullIfNeeded
  split
  · rename_i hshould
    simp only [shouldPull, Bool.and_eq_true, decide_eq_true_eq, Bool.not_eq_true'] at hshould
    split <;> simp_all [Open]
  · simp

theorem callPullIfNeeded_of_pulling {s : ReadableStream α} (h : s.pulling = true) :
    s.callPullIfNeeded.1.pulling = true ∧ s.callPullIfNeeded.2 = false := by
  obtain ⟨hcalled, hstays⟩ := callPullIfNeeded_pulling s
  refine ⟨by simp [hstays, h], Bool.eq_false_iff.2 fun hpull => ?_⟩
  simpa [h] using (hcalled hpull).1

/-! ## What the operations do -/

/-- An operation that shows nothing new to the reader than was enqueued, and neither closes
nor opens the stream to its source. -/
structure Passes (s s' : ReadableStream α) : Prop where
  content : s'.content = s.content
  closeRequested : s'.closeRequested = s.closeRequested
  cancelled : s'.cancelled = s.cancelled
  state : s'.state = s.state ∨ s'.state = .closed ∧ s.closeRequested = true ∧ s'.queue = []
  drained : s.queue = [] → s'.queue = []
  served : s.Served → s'.Served

theorem Passes.refl (s : ReadableStream α) : Passes s s := ⟨rfl, rfl, rfl, .inl rfl, id, id⟩

theorem passes_callPullIfNeeded {s s' : ReadableStream α} (h : Passes s s') :
    Passes s s'.callPullIfNeeded.1 where
  content := by rw [callPullIfNeeded_content, h.content]
  closeRequested := by rw [callPullIfNeeded_closeRequested, h.closeRequested]
  cancelled := by rw [callPullIfNeeded_cancelled, h.cancelled]
  state := by
    rw [callPullIfNeeded_state, callPullIfNeeded_queue]
    exact h.state
  drained hs := by
    rw [callPullIfNeeded_queue]
    exact h.drained hs
  served hs := (h.served hs).callPullIfNeeded

theorem passes_read (s : ReadableStream α) : Passes s s.read.1 := by
  unfold read
  split
  · rename_i chunk queue hstate hqueue
    have hcontent : s.received ++ [chunk] ++ queue = s.content := by
      simp [content, hqueue]
    have hserved : s.Served → s.requests = 0 := by
      intro hs
      by_contra hne
      simpa [hqueue] using hs (Nat.pos_of_ne_zero hne)
    dsimp only
    split
    · rename_i hdone
      simp only [Bool.and_eq_true, List.isEmpty_iff] at hdone
      exact ⟨hcontent, rfl, rfl, .inr ⟨rfl, hdone.1, hdone.2⟩, by simp [hqueue],
        fun _ => by simp [Served]⟩
    · exact passes_callPullIfNeeded ⟨hcontent, rfl, rfl, .inl rfl, by simp [hqueue],
        fun hs => by simp [Served, hserved hs]⟩
  · rename_i hstate hqueue
    exact passes_callPullIfNeeded ⟨rfl, rfl, rfl, .inl rfl, id, fun _ _ => hqueue⟩
  · exact .refl s

theorem passes_pullSettled (s : ReadableStream α) : Passes s s.pullSettled.1 := by
  unfold pullSettled
  dsimp only
  split
  · exact passes_callPullIfNeeded ⟨rfl, rfl, rfl, .inl rfl, id, id⟩
  · exact ⟨rfl, rfl, rfl, .inl rfl, id, id⟩

theorem passes_releaseLock (s : ReadableStream α) : Passes s s.releaseLock :=
  ⟨rfl, rfl, rfl, .inl rfl, id, fun _ => by simp [Served, releaseLock]⟩

/-- The operations that may pull the source do so only of an open stream that no pull is
under way for. -/
theorem read_pulling (s : ReadableStream α) :
    (s.read.2 = true → s.pulling = false) ∧ s.read.1.pulling = (s.pulling || s.read.2) := by
  unfold read
  split
  · dsimp only
    split
    · simp
    · have h := callPullIfNeeded_pulling { s with
        queue := ‹List α›, received := s.received ++ [‹α›] }
      exact ⟨fun hpull => (h.1 hpull).1, h.2⟩
  · have h := callPullIfNeeded_pulling { s with requests := s.requests + 1 }
    exact ⟨fun hpull => (h.1 hpull).1, h.2⟩
  · simp

theorem pullSettled_pulling (s : ReadableStream α) :
    s.pullSettled.1.pulling = s.pullSettled.2 := by
  unfold pullSettled
  dsimp only
  split
  · simpa using (callPullIfNeeded_pulling { s with pulling := false, pullAgain := false }).2
  · rfl

/-- A chunk that an open stream takes is its last content; while a pull is under way
another is not called. -/
theorem enqueue_spec {s : ReadableStream α} (hopen : s.Open) (hserved : s.Served) (chunk : α) :
    ∃ s', s.enqueue chunk = some s' ∧ s'.1.content = s.content ++ [chunk] ∧
      s'.1.state = s.state ∧ s'.1.closeRequested = s.closeRequested ∧
      s'.1.cancelled = s.cancelled ∧ s'.1.Served ∧
      (s.pulling = true → s'.1.pulling = true ∧ s'.2 = false) := by
  have hadmitted : s.state = .readable ∧ s.closeRequested = false := hopen
  unfold enqueue
  rw [if_pos hadmitted]
  cases hrequests : s.requests with
  | zero =>
    refine ⟨_, rfl, by simp [content], by simp, by simp, by simp, ?_,
      fun hs => callPullIfNeeded_of_pulling hs⟩
    exact Served.callPullIfNeeded fun h => by simp [hrequests] at h
  | succ n =>
    have hqueue : s.queue = [] := hserved (by simp [hrequests])
    refine ⟨_, rfl, by simp [content, hqueue], by simp, by simp, by simp, ?_,
      fun hs => callPullIfNeeded_of_pulling hs⟩
    exact Served.callPullIfNeeded fun _ => hqueue

/-- The end of an open stream: it is closed when nothing is queued. -/
theorem close_spec {s : ReadableStream α} (hopen : s.Open) (hserved : s.Served) :
    ∃ s', s.close = some s' ∧ s'.content = s.content ∧ s'.closeRequested = true ∧
      s'.cancelled = s.cancelled ∧ s'.Served ∧ (s'.state = .closed → s'.queue = []) := by
  have hadmitted : s.state = .readable ∧ s.closeRequested = false := hopen
  unfold close
  rw [if_pos hadmitted]
  split
  · rename_i hempty
    exact ⟨_, rfl, rfl, rfl, rfl, by simp [Served], fun _ => List.isEmpty_iff.1 hempty⟩
  · exact ⟨_, rfl, rfl, rfl, rfl, hserved, fun h => by simp [hopen.1] at h⟩

theorem error_spec (s : ReadableStream α) :
    s.error.content <+: s.content ∧ s.error.closeRequested = s.closeRequested ∧
      s.error.cancelled = s.cancelled ∧ (s.Served → s.error.Served) ∧
      (s.error.state = .closed → s.error = s) := by
  unfold error
  split
  · exact ⟨⟨s.queue, by simp [content]⟩, rfl, rfl, fun _ => by simp [Served], by simp⟩
  · exact ⟨List.prefix_rfl, rfl, rfl, id, fun _ => rfl⟩

theorem cancel_spec (s : ReadableStream α) :
    s.cancel.1.content <+: s.content ∧ s.cancel.1.closeRequested = s.closeRequested ∧
      (s.Served → s.cancel.1.Served) ∧
      (s.cancel.1.cancelled = true ∧ s.state = .readable ∧ s.cancel.2 = true ∨
        s.cancel = (s, false) ∧ s.state ≠ .readable) := by
  unfold cancel
  split
  · rename_i hstate
    exact ⟨⟨s.queue, by simp [content]⟩, rfl, fun _ => by simp [Served],
      .inl ⟨rfl, hstate, rfl⟩⟩
  · rename_i hstate
    exact ⟨List.prefix_rfl, rfl, id, .inr ⟨rfl, hstate⟩⟩

end ReadableStream

end Tabnode
