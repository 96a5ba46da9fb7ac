import Tabnode.FlowControl.Pipe

/-!
# What each side may do in one turn

The worker's request keeps a pull under way in its stream for as long as a pull of its own
is unanswered, so that the stream never asks twice. `Turn` is all that the reader and the
browser can bring about; `Request.Sound` is what stays true of a request beside the chunks
it took. The page's flush posts what is paid for and then sets its pause.
-/

namespace Tabnode

namespace FlowControl

open ReadableStream

/-! ## Chunks as they are posted -/

theorem chunkBytes_chunkData (binaryChunks : Bool) (bytes : Bytes) :
    chunkBytes (chunkData binaryChunks bytes) = .ok bytes := by
  cases binaryChunks with
  | true => rfl
  | false =>
    have hlt : ∀ n ∈ bytes.map UInt8.toNat, n < 256 := by
      intro n hn
      obtain ⟨b, -, rfl⟩ := List.mem_map.1 hn
      exact b.toNat_lt
    have hofNat : (bytes.map UInt8.toNat).map UInt8.ofNat = bytes := by
      simp [Function.comp_def]
    simp only [chunkData, Bool.false_eq_true, if_false, chunkBytes, uint8ToBase64,
      Base64.decode_encode hlt, hofNat]

/-- A chunk that is no larger than the limit is admitted, however it was posted. -/
theorem admitted_chunkData (binaryChunks : Bool) {bytes : Bytes}
    (h : bytes.length ≤ flowMaxChunkBytes) :
    admitted (chunkData binaryChunks bytes) = .ok bytes := by
  have hbytes := chunkBytes_chunkData binaryChunks bytes
  have hsize : ¬ maxStreamChunkBytes < bytes.length := Nat.not_lt.2 h
  cases binaryChunks with
  | true => simp [admitted, chunkData, chunkBytes, bind, Except.bind, pure, Except.pure, hsize]
  | false =>
    have htext : ¬ (maxStreamChunkBytes + 2) / 3 * 4 < (uint8ToBase64 bytes).length := by
      rw [uint8ToBase64, Base64.length_encode, List.length_map, Nat.not_lt]
      exact Nat.mul_le_mul_right 4 (Nat.div_le_div_right (Nat.add_le_add_right h 2))
    simp only [chunkData, Bool.false_eq_true, if_false] at hbytes ⊢
    simp [admitted, htext, hbytes, bind, Except.bind, pure, Except.pure, hsize]

namespace Request

/-! ## The worker's request -/

/-- What stays true of a request and the chunks it took. -/
structure Sound (r : Request) (taken : List Bytes) : Prop where
  live : r.ended = false → r.stream.Open
  served : r.stream.Served
  credited : r.ended = false → r.credited = true → r.stream.pulling = true ∧ r.settling = false
  settling : r.ended = false → r.settling = true → r.stream.pulling = true
  shown : r.stream.content <+: taken
  whole : r.ended = false ∨ r.stream.closeRequested = true ∧ r.stream.cancelled = false →
    r.stream.content = taken
  closed : r.stream.state = .closed →
    r.stream.cancelled = true ∨ r.stream.closeRequested = true ∧ r.stream.queue = []
  faultless : r.faults = []

/-- What a request does when no message comes, and what it posts. -/
inductive Does (r r' : Request) : List ToPage → Prop where
  | rests (hended : r'.ended = r.ended) (hheaded : r'.headed = r.headed)
      (hcredited : r'.credited = r.credited) : Does r r' []
  | pulls (hended : r.ended = false) (hended' : r'.ended = false)
      (hheaded : r'.headed = r.headed) (hcredited : r.credited = false)
      (hcredited' : r'.credited = true) : Does r r' [.streamPull]
  | ends (hended : r.ended = false) (hended' : r'.ended = true) : Does r r' [.streamCancel]

/-- A turn in which no message comes: the source's end stays where it is. -/
structure Turn (r r' : Request) (posts : List ToPage) : Prop where
  does : Does r r' posts
  closeRequested : r'.stream.closeRequested = r.stream.closeRequested

theorem Turn.of_eq {r₀ r r' : Request} {posts : List ToPage} (h : Turn r r' posts)
    (hended : r.ended = r₀.ended) (hheaded : r.headed = r₀.headed)
    (hcredited : r.credited = r₀.credited) (hstream : r.stream = r₀.stream) :
    Turn r₀ r' posts := by
  refine ⟨?_, by rw [h.closeRequested, hstream]⟩
  cases h.does with
  | rests hended' hheaded' hcredited' =>
    exact .rests (hended'.trans hended) (hheaded'.trans hheaded) (hcredited'.trans hcredited)
  | pulls hlive hlive' hheaded' hnone hcredited' =>
    exact .pulls (hended ▸ hlive) hlive' (hheaded'.trans hheaded) (hcredited ▸ hnone) hcredited'
  | ends hlive hended' => exact .ends (hended ▸ hlive) hended'

theorem sound_new : Sound .new [] where
  live _ := ⟨rfl, rfl⟩
  served := by simp [Served, new, ReadableStream.new]
  credited := by simp [new]
  settling := by simp [new]
  shown := by simp [new, ReadableStream.new, content]
  whole _ := by simp [new, ReadableStream.new, content]
  closed := by simp [new, ReadableStream.new]
  faultless := rfl

variable {r : Request} {taken : List Bytes}

theorem Sound.passes (hr : r.Sound taken) {r' : Request}
    (h : Passes r.stream r'.stream) (hended : r'.ended = r.ended)
    (hfaults : r'.faults = r.faults)
    (hcredited : r.ended = false → r'.credited = true →
      r'.stream.pulling = true ∧ r'.settling = false)
    (hsettling : r.ended = false → r'.settling = true → r'.stream.pulling = true) :
    r'.Sound taken where
  live hlive := by
    obtain ⟨hstate, hclose⟩ := hr.live (hended ▸ hlive)
    refine ⟨?_, by rw [h.closeRequested, hclose]⟩
    rcases h.state with heq | ⟨-, hrequested, -⟩
    · rw [heq, hstate]
    · simp [hclose] at hrequested
  served := h.served hr.served
  credited hlive := hcredited (hended ▸ hlive)
  settling hlive := hsettling (hended ▸ hlive)
  shown := by
    rw [h.content]
    exact hr.shown
  whole hwhole := by
    rw [h.content]
    rw [hended, h.closeRequested, h.cancelled] at hwhole
    exact hr.whole hwhole
  closed hclosed := by
    rw [h.closeRequested, h.cancelled]
    rcases h.state with heq | ⟨-, hrequested, hqueue⟩
    · rw [heq] at hclosed
      exact (hr.closed hclosed).imp_right fun hdone => ⟨hdone.1, h.drained hdone.2⟩
    · exact .inr ⟨hrequested, hqueue⟩
  faultless := by rw [hfaults, hr.faultless]

/-- What the stream asks of the request after an operation: a pull only where none is
unanswered or being settled. -/
theorem Sound.streamed (hr : r.Sound taken) {s : ReadableStream Bytes × Bool}
    (h : Passes r.stream s.1)
    (hcalled : r.ended = false → s.2 = true →
      r.credited = false ∧ r.settling = false ∧ s.1.pulling = true)
    (hrests : r.ended = false → s.2 = false →
      s.1.pulling = r.stream.pulling ∨ r.credited = false ∧ r.settling = false) :
    (r.streamed s).1.Sound taken ∧ Turn r (r.streamed s).1 (r.streamed s).2 := by
  unfold Request.streamed Request.pull
  dsimp only
  split
  · rename_i hpull
    cases hended : r.ended with
    | true =>
      exact ⟨hr.passes h hended.symm rfl (by simp [hended]) (by simp [hended]),
        .rests hended.symm rfl rfl, h.closeRequested⟩
    | false =>
      obtain ⟨hcredited, hsettling, hpulling⟩ := hcalled hended hpull
      simp only [hcredited, Bool.false_eq_true, if_false]
      exact ⟨hr.passes h hended.symm rfl (fun _ _ => ⟨hpulling, hsettling⟩)
        fun _ hset => absurd hset (by simp [hsettling]),
        .pulls hended rfl rfl hcredited rfl, h.closeRequested⟩
  · rename_i hpull
    refine ⟨hr.passes h rfl rfl ?_ ?_, .rests rfl rfl rfl, h.closeRequested⟩
    · intro hended hcredited
      obtain ⟨hpulling, hsettling⟩ := hr.credited hended hcredited
      rcases hrests hended (by simpa using hpull) with heq | ⟨hnone, -⟩
      · exact ⟨heq.trans hpulling, hsettling⟩
      · simp [hnone] at hcredited
    · intro hended hsettling
      rcases hrests hended (by simpa using hpull) with heq | ⟨-, hnone⟩
      · exact heq.trans (hr.settling hended hsettling)
      · simp [hnone] at hsettling

theorem Sound.read (hr : r.Sound taken) : r.read.1.Sound taken ∧ Turn r r.read.1 r.read.2 := by
  obtain ⟨hcalled, hstays⟩ := r.stream.read_pulling
  refine hr.streamed r.stream.passes_read (fun hended hpull => ?_) fun hended hpull => ?_
  · have hidle := hcalled hpull
    refine ⟨Bool.eq_false_iff.2 fun hcredited => ?_, Bool.eq_false_iff.2 fun hset => ?_, ?_⟩
    · simpa [hidle] using (hr.credited hended hcredited).1
    · simpa [hidle] using hr.settling hended hset
    · simp [hstays, hpull]
  · exact .inl (by simp [hstays, hpull])

theorem Sound.pullSettled (hr : r.Sound taken) :
    r.pullSettled.1.Sound taken ∧ Turn r r.pullSettled.1 r.pullSettled.2 := by
  unfold Request.pullSettled
  split
  · rename_i hset
    have hcredited : r.ended = false → r.credited = false := fun hended =>
      Bool.eq_false_iff.2 fun hcredited => by simpa [hset] using (hr.credited hended hcredited).2
    have hquiet : Sound { r with settling := false } taken :=
      hr.passes (.refl r.stream) rfl rfl
        (fun hended h => absurd h (by simp [hcredited hended])) (by simp)
    obtain ⟨hsound, hturn⟩ := hquiet.streamed r.stream.passes_pullSettled
      (fun hended hpull => ⟨hcredited hended, rfl, by
        rw [pullSettled_pulling]
        exact hpull⟩)
      (fun hended _ => .inr ⟨hcredited hended, rfl⟩)
    exact ⟨hsound, hturn.of_eq rfl rfl rfl rfl⟩
  · exact ⟨hr, .rests rfl rfl rfl, rfl⟩

theorem Sound.releaseLock (hr : r.Sound taken) :
    Sound { r with stream := r.stream.releaseLock } taken ∧
      Turn r { r with stream := r.stream.releaseLock } [] :=
  ⟨hr.passes r.stream.passes_releaseLock rfl rfl hr.credited hr.settling,
    .rests rfl rfl rfl, rfl⟩

theorem Sound.finish (hr : r.Sound taken) {s : ReadableStream Bytes}
    (hserved : s.Served) (hshown : s.content <+: taken)
    (hwhole : s.closeRequested = true ∧ s.cancelled = false → s.content = taken)
    (hclosed : s.state = .closed → s.cancelled = true ∨ s.closeRequested = true ∧ s.queue = []) :
    Sound (Request.finish { r with stream := s }) taken where
  live h := by simp [Request.finish] at h
  served := hserved
  credited h := by simp [Request.finish] at h
  settling h := by simp [Request.finish] at h
  shown := hshown
  whole h := hwhole (by simpa [Request.finish] using h)
  closed := hclosed
  faultless := hr.faultless

theorem Sound.fail (hr : r.Sound taken) (notify : Bool) :
    (r.fail notify).1.Sound taken := by
  unfold Request.fail
  split
  · exact hr
  · rename_i hended
    have hlive := hr.live (by simpa using hended)
    obtain ⟨hcontent, hclose, hcancelled, hserved, hclosed⟩ := r.stream.error_spec
    refine hr.finish (hserved hr.served) (hcontent.trans hr.shown) ?_ ?_
    · rintro ⟨hrequested, -⟩
      simp [hclose, hlive.2] at hrequested
    · intro hstate
      rw [hclosed hstate, hlive.1] at hstate
      cases hstate

theorem Sound.abort (hr : r.Sound taken) :
    (r.fail true).1.Sound taken ∧ Turn r (r.fail true).1 (r.fail true).2 := by
  refine ⟨hr.fail true, ?_⟩
  unfold Request.fail
  split
  · exact ⟨.rests rfl rfl rfl, rfl⟩
  · rename_i hended
    exact ⟨.ends (by simpa using hended) rfl, r.stream.error_spec.2.1⟩

theorem Sound.cancel (hr : r.Sound taken) :
    r.cancel.1.Sound taken ∧ Turn r r.cancel.1 r.cancel.2 := by
  obtain ⟨hcontent, hclose, hserved, hcases⟩ := r.stream.cancel_spec
  unfold Request.cancel
  dsimp only
  rcases hcases with ⟨hcancelled, hstate, htold⟩ | ⟨heq, hstate⟩
  · cases hended : r.ended with
    | false =>
      simp only [htold, Bool.not_false, Bool.and_self, if_true]
      exact ⟨hr.finish (hserved hr.served) (hcontent.trans hr.shown) (by simp [hcancelled])
        fun _ => .inl hcancelled, .ends hended rfl, hclose⟩
    | true =>
      simp only [Bool.not_true, Bool.and_false, Bool.false_eq_true, if_false]
      exact ⟨⟨by simp, hserved hr.served, by simp, by simp, hcontent.trans hr.shown,
        by simp [hcancelled], fun _ => .inl hcancelled, hr.faultless⟩,
        .rests hended.symm rfl rfl, hclose⟩
  · simp only [heq, Bool.false_and, Bool.false_eq_true, if_false]
    exact ⟨hr, .rests rfl rfl rfl, rfl⟩

/-! ## The messages of the page -/

theorem Sound.streamStart (hr : r.Sound taken) (hheaded : r.headed = false) :
    (r.message .streamStart).1.Sound taken ∧
      r.message .streamStart = ({ r with headed := true }, []) := by
  have heq : r.message .streamStart = ({ r with headed := true }, []) := by
    simp [message, hheaded]
  rw [heq]
  exact ⟨hr.passes (.refl r.stream) rfl rfl hr.credited hr.settling, rfl⟩

theorem Sound.streamChunk (hr : r.Sound taken) (hended : r.ended = false)
    (hheaded : r.headed = true) (hcredited : r.credited = true) {data : ChunkData}
    {bytes : Bytes} (hdata : admitted data = .ok bytes) :
    (r.message (.streamChunk data)).1.Sound (taken ++ [bytes]) ∧
      (r.message (.streamChunk data)).1.ended = false ∧
      (r.message (.streamChunk data)).1.headed = true ∧
      (r.message (.streamChunk data)).1.credited = false ∧
      (r.message (.streamChunk data)).1.stream.closeRequested = r.stream.closeRequested ∧
      (r.message (.streamChunk data)).2 = [] := by
  obtain ⟨hpulling, hsettling⟩ := hr.credited hended hcredited
  obtain ⟨s, henqueue, hcontent, hstate, hclose, hcancelled, hserved, hpulls⟩ :=
    enqueue_spec (hr.live hended) hr.served bytes
  obtain ⟨hpulling', hcalled⟩ := hpulls hpulling
  have heq : r.message (.streamChunk data) =
      ({ r with
          credited := false
          stream := s.1
          settling := r.settling || r.resolvePull
          resolvePull := false }, []) := by
    simp [message, hheaded, hcredited, hdata, chunk, henqueue, Request.streamed, hcalled]
  rw [heq]
  refine ⟨?_, hended, hheaded, rfl, hclose, rfl⟩
  have hwhole := hr.whole (.inl hended)
  obtain ⟨hreadable, hopen⟩ := hr.live hended
  exact
    { live := fun _ => ⟨hstate.trans hreadable, hclose.trans hopen⟩
      served := hserved
      credited := fun _ h => by simp at h
      settling := fun _ _ => hpulling'
      shown := by
        show s.1.content <+: taken ++ [bytes]
        rw [hcontent, hwhole]
      whole := fun _ => by
        show s.1.content = taken ++ [bytes]
        rw [hcontent, hwhole]
      closed := fun h => by simp [hstate, hreadable] at h
      faultless := hr.faultless }

theorem Sound.streamEnd (hr : r.Sound taken) (hended : r.ended = false)
    (hheaded : r.headed = true) :
    (r.message .streamEnd).1.Sound taken ∧ (r.message .streamEnd).1.ended = true ∧
      (r.message .streamEnd).2 = [] := by
  obtain ⟨s, hclose, hcontent, hrequested, hcancelled, hserved, hclosed⟩ :=
    close_spec (hr.live hended) hr.served
  have heq : r.message .streamEnd = (Request.finish { r with stream := s }, []) := by
    simp [message, hheaded, hclose]
  have hwhole := hr.whole (.inl hended)
  rw [heq]
  refine ⟨hr.finish hserved ?_ (fun _ => by rw [hcontent, hwhole]) ?_, rfl, rfl⟩
  · rw [hcontent]
    exact hr.shown
  · exact fun hstate => .inr ⟨hrequested, hclosed hstate⟩

theorem Sound.streamError (hr : r.Sound taken) (hended : r.ended = false) (text : String) :
    (r.message (.streamError text)).1.Sound taken ∧
      (r.message (.streamError text)).1.ended = true ∧
      (r.message (.streamError text)).1.stream.closeRequested = false ∧
      (r.message (.streamError text)).2 = [] := by
  have heq : r.message (.streamError text) =
      (Request.finish { r with stream := r.stream.error }, []) := by
    simp [message, Request.fail, hended]
  refine ⟨hr.fail false, by rw [heq]; rfl, ?_, by rw [heq]⟩
  rw [heq]
  exact r.stream.error_spec.2.1.trans (hr.live hended).2

end Request

/-! ## The page's flush -/

namespace Stream

theorem paid_spec (credits : ℕ) (queue : List Bytes) :
    ∃ chunks credits' queue', paid credits queue = (chunks, credits', queue') ∧
      credits = chunks.length + credits' ∧ queue = chunks ++ queue' := by
  induction credits generalizing queue with
  | zero => exact ⟨[], 0, queue, by cases queue <;> rfl, rfl, rfl⟩
  | succ credits ih =>
    cases queue with
    | nil => exact ⟨[], credits + 1, [], rfl, by simp, rfl⟩
    | cons chunk queue =>
      obtain ⟨chunks, credits', queue', hpaid, hcredits, hqueue⟩ := ih queue
      refine ⟨chunk :: chunks, credits', queue', by simp [paid, hpaid], ?_, by simp [hqueue]⟩
      rw [hcredits, List.length_cons]
      omega

/-- A flush posts what is paid for, and then either the end, or it leaves the server paused
exactly when enough chunks wait. -/
theorem flush_spec {s : Stream} (h : s.finished = false) :
    ∃ chunks credits queue, s.credits = chunks.length + credits ∧ s.queue = chunks ++ queue ∧
      (s.upstreamEnded = true ∧ queue = [] ∧
          s.flush = (finish { s with credits := credits, queue := queue },
            chunks.map .postChunk ++ [.post .streamEnd]) ∨
        ∃ rest, s.flush = ({ s with
              credits := credits
              queue := queue
              paused := decide (flowQueuedChunks ≤ queue.length) },
            chunks.map .postChunk ++ rest) ∧
          (rest = [] ∧ s.paused = decide (flowQueuedChunks ≤ queue.length) ∨
            rest = [.pause] ∧ flowQueuedChunks ≤ queue.length ∨
            rest = [.resume] ∧ ¬ flowQueuedChunks ≤ queue.length)) := by
  obtain ⟨chunks, credits, queue, hpaid, hcredits, hqueue⟩ := paid_spec s.credits s.queue
  refine ⟨chunks, credits, queue, hcredits, hqueue, ?_⟩
  unfold flush
  simp only [h, Bool.false_eq_true, if_false, hpaid]
  split
  · rename_i hdone
    simp only [Bool.and_eq_true, List.isEmpty_iff] at hdone
    exact .inl ⟨hdone.1, hdone.2, rfl⟩
  · refine .inr ?_
    by_cases hfull : flowQueuedChunks ≤ queue.length
    · have hless : ¬ queue.length < flowQueuedChunks := Nat.not_lt.2 hfull
      cases hpaused : s.paused with
      | false => exact ⟨[.pause], by simp [hfull], .inr (.inl ⟨rfl, hfull⟩)⟩
      | true => exact ⟨[], by simp [hfull, hless], .inl ⟨rfl, by simp [hfull]⟩⟩
    · have hless : queue.length < flowQueuedChunks := Nat.lt_of_not_le hfull
      cases hpaused : s.paused with
      | false => exact ⟨[], by simp [hfull], .inl ⟨rfl, by simp [hfull]⟩⟩
      | true => exact ⟨[.resume], by simp [hfull, hless], .inr (.inr ⟨rfl, hfull⟩)⟩

theorem flush_of_finished {s : Stream} (h : s.finished = true) : s.flush = (s, []) := by
  simp [flush, h]

end Stream

end FlowControl

end Tabnode
