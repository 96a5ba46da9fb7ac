import Tabnode.FlowControl.Turns

/-!
# What a flow-controlled response delivers

The two sides agree on one credit: it is with the worker, on its way to the page, with the
page, or on its way back with a chunk. What the server wrote is with the reader, queued,
on its way, or waits at the page, in this order; and what the page posts is a head, then
chunks, then an end, so that the worker never meets a message it does not expect.
-/

namespace Tabnode

namespace FlowControl

open List

/-- How much of a response has been said. -/
inductive Head where
  | before
  | body
  | done
  deriving DecidableEq

/-- The messages of a response in their order: a head, chunks, an end; or an error. -/
def Head.next : Head → ToWorker → Option Head
  | .before, .streamStart => some .body
  | .body, .streamChunk _ => some .body
  | .body, .streamEnd => some .done
  | .before, .streamError _ => some .done
  | .body, .streamError _ => some .done
  | _, _ => none

def chunk? : ToWorker → Option Bytes
  | .streamChunk data => (chunkBytes data).toOption
  | _ => none

def Request.head (r : Request) : Head := if r.headed then .body else .before

namespace World

def head (w : World) : Head :=
  if w.stream.finished then .done
  else
    match w.phase with
    | .notAsked => .before
    | .idle => .before
    | .started => .body
    | .done => .body

def inflight (w : World) : List Bytes := w.toWorker.filterMap chunk?

/-- The page has posted all that the server wrote, and the server writes no more. -/
structure Final (w : World) : Prop where
  finished : w.stream.finished = true
  phase : w.phase = .done
  posted : w.posted.flatten = w.written

def allowance (w : World) : ℕ := if w.request.ended then 1 else w.request.credited.toNat

/-- What stays true of both sides and what is between them. -/
structure Kept (w : World) : Prop where
  asked : w.phase = .notAsked → w.stream.finished = false ∧ ∃ rest, w.toPage = .request :: rest
  registered : w.stream.registered = !w.stream.finished
  fresh : w.phase = .notAsked ∨ w.phase = .idle →
    w.posted = [] ∧ w.written = [] ∧ w.stream.queue = [] ∧ w.stream.upstreamEnded = false
  upstream : w.stream.upstreamEnded = true → w.phase = .done
  account : w.toPage.count .streamPull + w.stream.credits + w.inflight.length ≤ w.allowance
  pulls : w.pulls ≤ w.taken.length + w.allowance
  counted : w.pullsTaken + w.toPage.count .streamPull = w.pulls
  paid : w.posted.length + w.stream.credits ≤ w.pullsTaken
  small : ∀ bytes ∈ w.posted ++ w.stream.queue, bytes.length ≤ flowMaxChunkBytes
  encoded : ∀ data, .streamChunk data ∈ w.toWorker →
    ∃ bytes ∈ w.posted, data = chunkData w.binaryChunks bytes
  request : w.request.Sound w.taken
  taken : w.taken <+: w.posted
  flow : w.request.ended = false → w.posted = w.taken ++ w.inflight
  source : w.stream.finished = false → w.posted.flatten ++ w.stream.queue.flatten = w.written
  sent : w.posted.flatten <+: w.written
  ending : .streamEnd ∈ w.toWorker → w.Final
  closing : w.request.stream.closeRequested = true → w.Final ∧ w.taken = w.posted
  spoken : w.request.ended = false →
    Machine.run Head.next w.request.head w.toWorker = some w.head
  early : w.stream.finished = true → w.phase ≠ .done → w.request.ended = true
  cancelling : .streamCancel ∈ w.toPage → w.request.ended = true
  cancelled : w.cancelTaken = true → w.request.ended = true ∧ w.stream.finished = true

theorem kept_new (binaryChunks : Bool) : Kept (.new binaryChunks) where
  asked _ := ⟨rfl, [], rfl⟩
  registered := rfl
  fresh _ := ⟨rfl, rfl, rfl, rfl⟩
  upstream h := by simp [new, Stream.new] at h
  account := by simp [new, inflight, Stream.new]
  pulls := by simp [new]
  counted := by simp [new]
  paid := by simp [new, Stream.new]
  small := by simp [new, Stream.new]
  encoded := by simp [new]
  request := Request.sound_new
  taken := prefix_rfl
  flow _ := rfl
  source _ := rfl
  sent := prefix_rfl
  ending h := by simp [new] at h
  closing h := by simp [new, Request.new, ReadableStream.new] at h
  spoken _ := rfl
  early h := by simp [new, Stream.new] at h
  cancelling h := by simp [new] at h
  cancelled h := by simp [new] at h

/-! ## What the page posts -/

theorem foldl_deed_postChunk (w : World) (chunks : List Bytes) :
    (chunks.map Deed.postChunk).foldl deed w = { w with
      toWorker := w.toWorker ++ chunks.map fun bytes =>
        .streamChunk (chunkData w.binaryChunks bytes)
      posted := w.posted ++ chunks } := by
  induction chunks generalizing w with
  | nil => simp
  | cons bytes chunks ih =>
    rw [map_cons, foldl_cons, ih]
    simp [deed]

theorem filterMap_chunk?_chunkData (binaryChunks : Bool) (chunks : List Bytes) :
    (chunks.map fun bytes => ToWorker.streamChunk (chunkData binaryChunks bytes)).filterMap
      chunk? = chunks := by
  induction chunks with
  | nil => rfl
  | cons bytes chunks ih =>
    have hhead : chunk? (.streamChunk (chunkData binaryChunks bytes)) = some bytes := by
      simp [chunk?, chunkBytes_chunkData, Except.toOption]
    rw [map_cons, filterMap_cons_some hhead, ih]

theorem run_body_chunks (binaryChunks : Bool) (chunks : List Bytes) :
    Machine.run Head.next .body (chunks.map fun bytes =>
      ToWorker.streamChunk (chunkData binaryChunks bytes)) = some .body := by
  induction chunks with
  | nil => rfl
  | cons bytes chunks ih => exact ih

theorem run_append_chunks {h : Head} {messages : List ToWorker} (binaryChunks : Bool)
    (chunks : List Bytes) (hrun : Machine.run Head.next h messages = some .body) :
    Machine.run Head.next h (messages ++ chunks.map fun bytes =>
      ToWorker.streamChunk (chunkData binaryChunks bytes)) = some .body := by
  rw [Machine.run_append, hrun]
  exact run_body_chunks binaryChunks chunks

variable {w : World}

/-- A page that still posts and has something queued has said the head. -/
theorem Kept.head_of_queue (hw : w.Kept) (hfinished : w.stream.finished = false)
    (hqueue : w.stream.queue ≠ [] ∨ w.stream.upstreamEnded = true) : w.head = .body := by
  have hphase : w.phase ≠ .notAsked ∧ w.phase ≠ .idle := by
    constructor
    · intro hphase
      obtain ⟨-, -, hnil, hnone⟩ := hw.fresh (.inl hphase)
      simp [hnil, hnone] at hqueue
    · intro hphase
      obtain ⟨-, -, hnil, hnone⟩ := hw.fresh (.inr hphase)
      simp [hnil, hnone] at hqueue
  cases hp : w.phase with
  | notAsked => exact absurd hp hphase.1
  | idle => exact absurd hp hphase.2
  | started | done => simp [head, hfinished, hp]

theorem Kept.postChunks (hw : w.Kept) (hfinished : w.stream.finished = false)
    {chunks queue : List Bytes} {credits : ℕ} (hcredits : w.stream.credits = chunks.length + credits)
    (hqueue : w.stream.queue = chunks ++ queue) (paused upstreamPaused : Bool) :
    Kept { w with
      stream := { w.stream with credits := credits, queue := queue, paused := paused }
      toWorker := w.toWorker ++ chunks.map fun bytes =>
        .streamChunk (chunkData w.binaryChunks bytes)
      posted := w.posted ++ chunks
      upstreamPaused := upstreamPaused } where
  __ := hw
  fresh h := by
    obtain ⟨hposted, hwritten, hnil, hended⟩ := hw.fresh h
    rw [hnil] at hqueue
    obtain ⟨rfl, rfl⟩ := append_eq_nil_iff.1 hqueue.symm
    exact ⟨by simpa using hposted, hwritten, rfl, hended⟩
  account := by
    have haccount := hw.account
    simp only [inflight, filterMap_append, filterMap_chunk?_chunkData, length_append,
      allowance] at haccount ⊢
    omega
  paid := by
    have hpaid := hw.paid
    simp only [length_append]
    omega
  small bytes hmem := by
    refine hw.small bytes ?_
    simp only [mem_append, hqueue] at hmem ⊢
    tauto
  encoded data hmem := by
    rcases mem_append.1 hmem with hold | hnew
    · obtain ⟨bytes, hbytes, hdata⟩ := hw.encoded data hold
      exact ⟨bytes, mem_append_left _ hbytes, hdata⟩
    · simp only [mem_map, ToWorker.streamChunk.injEq] at hnew
      obtain ⟨bytes, hbytes, rfl⟩ := hnew
      exact ⟨bytes, mem_append_right _ hbytes, rfl⟩
  taken := hw.taken.trans (prefix_append _ _)
  flow h := by
    simp only [inflight, filterMap_append, filterMap_chunk?_chunkData]
    rw [hw.flow h, inflight, append_assoc]
  source _ := by
    have hsource := hw.source hfinished
    simpa [hqueue] using hsource
  sent := by
    rw [← hw.source hfinished, hqueue]
    exact ⟨queue.flatten, by simp⟩
  ending h := by
    have hold : .streamEnd ∈ w.toWorker := by simpa using h
    exact absurd (hw.ending hold).finished (by simp [hfinished])
  closing h := absurd (hw.closing h).1.finished (by simp [hfinished])
  spoken h := by
    have hrun := hw.spoken h
    cases chunks with
    | nil =>
      simp only [map_nil, append_nil]
      exact hrun
    | cons bytes chunks =>
      have hbody := hw.head_of_queue hfinished (.inl (by simp [hqueue]))
      rw [hbody] at hrun
      exact (run_append_chunks w.binaryChunks (bytes :: chunks) hrun).trans
        (congrArg some hbody.symm)

theorem Kept.postLast (hw : w.Kept) (hfinished : w.stream.finished = false)
    {messages : List ToWorker} (hdata : ∀ data, .streamChunk data ∉ messages)
    (hending : .streamEnd ∈ messages → w.stream.queue = [])
    (hspoken : Machine.run Head.next w.head messages = some .done) :
    Kept { w with
      stream := w.stream.finish
      phase := .done
      toWorker := w.toWorker ++ messages } := by
  have hnone : messages.filterMap chunk? = [] := by
    rw [filterMap_eq_nil_iff]
    intro m hm
    cases m with
    | streamChunk data => exact absurd hm (hdata data)
    | _ => rfl
  have hinflight : (w.toWorker ++ messages).filterMap chunk? = w.inflight := by
    rw [filterMap_append, hnone, append_nil, inflight]
  exact
    { hw with
      asked := fun h => by cases h
      registered := rfl
      fresh := fun h => by rcases h with h | h <;> cases h
      upstream := fun _ => rfl
      account := by
        have haccount := hw.account
        rw [← hinflight] at haccount
        exact haccount
      encoded := fun data hmem => by
        rcases mem_append.1 hmem with hold | hnew
        · exact hw.encoded data hold
        · exact absurd hnew (hdata data)
      flow := fun h => by
        show w.posted = w.taken ++ (w.toWorker ++ messages).filterMap chunk?
        rw [hinflight]
        exact hw.flow h
      source := fun h => by cases h
      ending := fun h => by
        rcases mem_append.1 h with hold | hnew
        · exact absurd (hw.ending hold).finished (by simp [hfinished])
        · have hsource := hw.source hfinished
          rw [hending hnew, flatten_nil, append_nil] at hsource
          exact ⟨rfl, rfl, hsource⟩
      closing := fun h => absurd (hw.closing h).1.finished (by simp [hfinished])
      spoken := fun h => by
        show Machine.run Head.next w.request.head (w.toWorker ++ messages) = some .done
        rw [Machine.run_append, hw.spoken h]
        exact hspoken
      early := fun _ h => absurd rfl h
      cancelled := fun h => ⟨(hw.cancelled h).1, rfl⟩ }

/-- The page flushes: what is paid for goes out, and the server is paused as it should be. -/
theorem Kept.flush (hw : w.Kept)
    (hpaused : w.stream.finished = false → w.upstreamPaused = w.stream.paused) :
    Kept (w.page w.stream.flush) ∧ ((w.page w.stream.flush).stream.finished = false →
      (w.page w.stream.flush).upstreamPaused = (w.page w.stream.flush).stream.paused ∧
      (w.page w.stream.flush).stream.paused =
        decide (flowQueuedChunks ≤ (w.page w.stream.flush).stream.queue.length)) := by
  cases hfinished : w.stream.finished with
  | true =>
    rw [Stream.flush_of_finished hfinished]
    exact ⟨hw, fun h => absurd h (by simp [page, hfinished])⟩
  | false =>
    obtain ⟨chunks, credits, queue, hcredits, hqueue, hcases⟩ := Stream.flush_spec hfinished
    rcases hcases with ⟨hended, rfl, hflush⟩ | ⟨rest, hflush, hrest⟩
    · have hposted := hw.postChunks hfinished hcredits hqueue w.stream.paused w.upstreamPaused
      have hbody := hw.head_of_queue hfinished (.inr hended)
      have hspoken : Machine.run Head.next w.head [.streamEnd] = some .done := by
        rw [hbody]
        rfl
      have hlast := hposted.postLast hfinished (by simp) (fun _ => rfl) hspoken
      have heq : w.page w.stream.flush = { w with
          stream := Stream.finish { w.stream with credits := credits, queue := [] }
          phase := .done
          toWorker := (w.toWorker ++ chunks.map fun bytes =>
            .streamChunk (chunkData w.binaryChunks bytes)) ++ [.streamEnd]
          posted := w.posted ++ chunks } := by
        rw [hflush, page, foldl_append, foldl_deed_postChunk]
        simp [deed, hw.upstream hended]
      rw [heq]
      exact ⟨hlast, fun h => by simp [Stream.finish] at h⟩
    · have hposted := hw.postChunks hfinished hcredits hqueue
        (decide (flowQueuedChunks ≤ queue.length)) (decide (flowQueuedChunks ≤ queue.length))
      have heq : w.page w.stream.flush = { w with
          stream := { w.stream with
            credits := credits
            queue := queue
            paused := decide (flowQueuedChunks ≤ queue.length) }
          toWorker := w.toWorker ++ chunks.map fun bytes =>
            .streamChunk (chunkData w.binaryChunks bytes)
          posted := w.posted ++ chunks
          upstreamPaused := decide (flowQueuedChunks ≤ queue.length) } := by
        rw [hflush, page, foldl_append, foldl_deed_postChunk]
        rcases hrest with ⟨rfl, hsame⟩ | ⟨rfl, hfull⟩ | ⟨rfl, hfull⟩
        · simp [hpaused hfinished, hsame]
        · simp [deed, hfull]
        · simp [deed, hfull]
      rw [heq]
      exact ⟨hposted, fun _ => ⟨rfl, rfl⟩⟩

end World

end FlowControl

end Tabnode
