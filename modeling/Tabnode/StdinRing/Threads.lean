import Tabnode.StdinRing.Ring

/-!
# What each thread knows

Between two steps a thread holds words it loaded earlier. `Pc.Ok` and `Put.Ok` say how
they relate to the ring as it is now: a write index the reader loaded lies at or before
the present one, a read index the producer loaded lies at or before the present one,
and what either has copied are the bytes it was to copy. Each is kept by all that the
other thread can do (`Pc.Ok.fed`, `Put.Ok.drained`) and by the thread's own steps, so
that `Sound` holds along every interleaving.
-/

namespace Tabnode

namespace StdinRing

variable {cap : Capacity}

def Pc.Ok (cap : Capacity) (r : Ring) : Pc → Prop
  | .sizeRead write => available write r.readIndex ≤ r.size
  | .countRead _ _ write => available write r.readIndex ≤ r.size
  | .leftRead _ write => available write r.readIndex ≤ r.size
  | .watchRead _ write => available write r.readIndex ≤ r.size
  | .read _ count => 0 < count ∧ count ≤ r.size
  | .copy _ count readIndex into =>
    0 < count ∧ count ≤ r.size ∧ readIndex = r.readIndex ∧
      into.length ≤ count ∧ into = (r.contents cap).take into.length
  | _ => True

def Ring.LoadedRead (cap : Capacity) (r : Ring) (readRaw : Word) : Prop :=
  r.size ≤ available r.writeIndex readRaw ∧ available r.writeIndex readRaw ≤ cap.size

def Put.Ok (cap : Capacity) (r : Ring) : Put → Prop
  | .idle => True
  | .start _ => True
  | .loadRead job => job.offset < job.bytes.length
  | .loadWrite job readRaw => job.offset < job.bytes.length ∧ r.LoadedRead cap readRaw
  | .wait job readRaw =>
    job.offset < job.bytes.length ∧ r.LoadedRead cap readRaw ∧
      available r.writeIndex readRaw = cap.size
  | .parked job readRaw =>
    job.offset < job.bytes.length ∧ r.LoadedRead cap readRaw ∧
      available r.writeIndex readRaw = cap.size
  | .woken job => job.offset < job.bytes.length
  | .copy job written count done =>
    written = r.writeIndex ∧ 0 < count ∧ job.offset + count ≤ job.bytes.length ∧
      r.size + count ≤ cap.size ∧ done ≤ count ∧
      ∀ j < done, r.data ((written.toNat + j) % cap.size) = job.bytes.getD (job.offset + j) 0
  | .add job count => job.offset + count ≤ job.bytes.length
  | .notify job count => job.offset + count ≤ job.bytes.length

/-- The ring is never overfull, and each thread knows what it should. -/
structure Sound (cap : Capacity) (w : World) : Prop where
  bounded : w.ring.size ≤ cap.size
  put : w.writer.put.Ok cap w.ring
  pc : w.reader.pc.Ok cap w.ring

theorem sound_new (index signal : Word) (data : ℕ → UInt8) :
    Sound cap (World.new index signal data) where
  bounded := by simp [World.new, Ring.size]
  put := trivial
  pc := trivial

/-! ## The other thread's steps -/

variable {r r' : Ring}

theorem Pc.Ok.fed {pc : Pc} (h : pc.Ok cap r) (hf : Ring.Fed cap r r') : pc.Ok cap r' := by
  cases pc with
  | sizeRead write | countRead _ _ write | leftRead _ write | watchRead _ write =>
    simp only [Pc.Ok] at h ⊢
    rw [hf.readIndex]
    exact Nat.le_trans h hf.size_le
  | read _ count => exact ⟨h.1, Nat.le_trans h.2 hf.size_le⟩
  | copy frame count read into =>
    obtain ⟨hpos, hcount, hread, hlen, hinto⟩ := h
    refine ⟨hpos, Nat.le_trans hcount hf.size_le, hread.trans hf.readIndex.symm, hlen, ?_⟩
    have htake : (r.contents cap).take into.length = (r'.contents cap).take into.length := by
      obtain ⟨added, hadded⟩ := hf.contents
      rw [← hadded, List.take_append_of_le_length]
      simpa using Nat.le_trans hlen hcount
    exact hinto.trans htake
  | _ => trivial

theorem Pc.Ok.notified {reader : Reader} (h : reader.pc.Ok cap r) :
    reader.notified.pc.Ok cap r := by
  unfold Reader.notified
  cases hpc : reader.pc with
  | parked length signal => trivial
  | _ => simpa [hpc] using h

theorem Ring.LoadedRead.drained {readRaw : Word} (h : r.LoadedRead cap readRaw)
    (hd : Ring.Drained r r') : r'.LoadedRead cap readRaw := by
  refine ⟨?_, hd.writeIndex ▸ h.2⟩
  rw [hd.writeIndex]
  exact Nat.le_trans hd.size_le h.1

theorem Put.Ok.drained {put : Put} (h : put.Ok cap r) (hd : Ring.Drained r r') : put.Ok cap r' := by
  cases put with
  | loadWrite job readRaw => exact ⟨h.1, h.2.drained hd⟩
  | wait job readRaw | parked job readRaw =>
    exact ⟨h.1, h.2.1.drained hd, hd.writeIndex ▸ h.2.2⟩
  | copy job written count done =>
    obtain ⟨hwritten, hpos, hcount, hroom, hdone, hcells⟩ := h
    have hsize := hd.size_le
    exact ⟨hwritten.trans hd.writeIndex.symm, hpos, hcount, by omega, hdone, hd.data ▸ hcells⟩
  | _ => exact h

theorem Put.Ok.notified {writer : Writer} (h : writer.put.Ok cap r) :
    writer.notified.put.Ok cap r := by
  unfold Writer.notified
  cases hput : writer.put with
  | parked job readRaw =>
    rw [hput] at h
    exact h.1
  | _ => simpa [hput] using h

theorem Put.Ok.loop (r : Ring) (job : Job) : (Put.loop job).Ok cap r := by
  unfold Put.loop
  split
  · assumption
  · trivial

/-! ## The thread's own steps -/

/-- Where the copied bytes of a chunk stand when it is all copied. -/
theorem Put.Ok.chunk {job : Job} {written : Word} {count : ℕ}
    (h : (Put.copy job written count count).Ok cap r) :
    Ring.contents cap { r with writeIndex := BitVec.ofNat 32 (written.toNat + count) } =
      r.contents cap ++ job.rest.take count := by
  obtain ⟨rfl, -, hcount, hroom, -, hcells⟩ := h
  have hlen : (job.rest.take count).length = count := by
    simp [Job.rest]
    omega
  have hle := cap.size_le
  have hrest : ∀ j < (job.rest.take count).length,
      r.data ((r.writeIndex.toNat + j) % cap.size) = (job.rest.take count).getD j 0 := by
    intro j hj
    rw [hlen] at hj
    rw [hcells j hj]
    simp [Job.rest, hj]
  have hwrite := Ring.contents_write cap r (by omega) hrest
  rwa [hlen] at hwrite

variable {waitsAsync : Bool} {w t : World}

theorem putStep_fed (hw : Sound cap w) (h : putStep waitsAsync cap w = some t) :
    Ring.Fed cap w.ring t.ring ∧ t.ring.size ≤ cap.size ∧ t.writer.put.Ok cap t.ring := by
  have hok := hw.put
  have hsize := hw.bounded
  cases hput : w.writer.put with
  | idle =>
    simp only [putStep, hput] at h
    split at h
    · cases h
    · cases h
      exact ⟨.of_eq rfl rfl rfl, hsize, trivial⟩
  | start bytes =>
    simp only [putStep, hput] at h
    split at h
    · cases h
      exact ⟨.of_eq rfl rfl rfl, hsize, trivial⟩
    · cases h
      exact ⟨.of_eq rfl rfl rfl, hsize, .loop _ _⟩
  | loadRead job =>
    simp only [putStep, hput] at h
    cases h
    rw [hput] at hok
    exact ⟨.of_eq rfl rfl rfl, hsize, hok, Nat.le_refl _, hsize⟩
  | loadWrite job readRaw =>
    simp only [putStep, hput] at h
    rw [hput] at hok
    obtain ⟨hoffset, hread, hbound⟩ := hok
    split at h
    · rename_i hroom
      split at h
      · cases h
        refine ⟨.of_eq rfl rfl rfl, hsize, hoffset, ⟨hread, hbound⟩, ?_⟩
        simp only
        omega
      · cases h
        exact ⟨.of_eq rfl rfl rfl, hsize, trivial⟩
    · cases h
      have hroom : w.ring.size + min (cap.size - available w.ring.writeIndex readRaw)
          (job.bytes.length - job.offset) ≤ cap.size := by omega
      refine ⟨.of_eq rfl rfl rfl, hsize, rfl, ?_, ?_, hroom, Nat.zero_le _, by simp⟩ <;> omega
  | wait job readRaw =>
    simp only [putStep, hput] at h
    rw [hput] at hok
    split at h
    · cases h
      exact ⟨.of_eq rfl rfl rfl, hsize, hok⟩
    · cases h
      exact ⟨.of_eq rfl rfl rfl, hsize, .loop _ _⟩
  | parked job readRaw => simp [putStep, hput] at h
  | woken job =>
    simp only [putStep, hput] at h
    cases h
    exact ⟨.of_eq rfl rfl rfl, hsize, .loop _ _⟩
  | copy job written count done =>
    simp only [putStep, hput] at h
    rw [hput] at hok
    obtain ⟨rfl, hpos, hcount, hroom, hdone, hcells⟩ := hok
    split at h
    · rename_i hlt
      cases h
      have hplace : target cap.size w.ring.writeIndex.toNat count done =
          (w.ring.writeIndex.toNat + done) % cap.size := target_eq (by omega) hlt
      have hsame := Ring.contents_update cap (by omega : w.ring.size + done < cap.size)
        (job.bytes.getD (job.offset + done) 0)
      rw [← hplace] at hsame
      refine ⟨⟨rfl, Nat.le_refl _, hsame ▸ List.prefix_rfl⟩, hsize, rfl, hpos, hcount, hroom,
        hlt, ?_⟩
      intro j hj
      simp only [hplace]
      by_cases hjd : j = done
      · rw [hjd, Function.update_self]
      · rw [Function.update_of_ne, hcells j (by omega)]
        intro heq
        exact hjd (place_inj cap (by omega) (by omega) heq)
    · rename_i hge
      cases h
      obtain rfl : done = count := by omega
      have hle := cap.size_le
      have hnew := available_write (by omega : w.ring.size + done < 2 ^ 32)
      refine ⟨⟨rfl, ?_, ?_⟩, ?_, hcount⟩
      · exact Nat.le_trans (Nat.le_add_right _ done) (Nat.le_of_eq hnew.symm)
      · rw [Put.Ok.chunk ⟨rfl, hpos, hcount, hroom, Nat.le_refl _, hcells⟩]
        exact List.prefix_append _ _
      · exact Nat.le_trans (Nat.le_of_eq hnew) hroom
  | add job count =>
    simp only [putStep, hput] at h
    rw [hput] at hok
    cases h
    exact ⟨.of_eq rfl rfl rfl, hsize, hok⟩
  | notify job count =>
    simp only [putStep, hput] at h
    cases h
    exact ⟨.of_eq rfl rfl rfl, hsize, .loop _ _⟩

/-- A step of a `put` moves the reader's thread only by waking it. -/
theorem putStep_reader (h : putStep waitsAsync cap w = some t) :
    t.reader = w.reader ∨ t.reader = w.reader.notified := by
  cases hput : w.writer.put <;> simp only [putStep, hput] at h <;> grind

/-- What the producer knows depends neither on CLOSED nor on SIGNAL. -/
theorem Put.Ok.congr {put : Put} (h : put.Ok cap r) (closed signal : Word) :
    put.Ok cap { r with closed, signal } := by
  cases put <;> exact h

theorem closeStep_fed (cap : Capacity) (h : closeStep w = some t) :
    Ring.Fed cap w.ring t.ring ∧ t.ring.size = w.ring.size ∧
      (w.writer.put.Ok cap w.ring → t.writer.put.Ok cap t.ring) ∧
      (t.reader = w.reader ∨ t.reader = w.reader.notified) := by
  cases hclose : w.writer.close <;> simp only [closeStep, hclose] at h <;> cases h
  · exact ⟨.of_eq rfl rfl rfl, rfl, fun hput => hput.congr _ _, .inl rfl⟩
  · exact ⟨.of_eq rfl rfl rfl, rfl, fun hput => hput.congr _ _, .inl rfl⟩
  · exact ⟨.of_eq rfl rfl rfl, rfl, id, .inr rfl⟩

theorem Frame.null_ok (frame : Frame) (r : Ring) : frame.null.Ok cap r := by
  cases frame <;> trivial

theorem readerStep_drained (hw : Sound cap w) (h : readerStep cap w = some t) :
    Ring.Drained w.ring t.ring ∧ t.reader.pc.Ok cap t.ring ∧
      (t.writer = w.writer ∨ t.writer = w.writer.notified) := by
  have hok := hw.pc
  cases hpc : w.reader.pc with
  | idle | parked _ _ => simp [readerStep, hpc] at h
  | sizeWrite | countWrite _ _ | leftWrite _ | watchWrite _ =>
    simp only [readerStep, hpc] at h
    cases h
    exact ⟨.refl _, Nat.le_refl _, .inl rfl⟩
  | sizeRead _ | signal _ | watchSignal =>
    simp only [readerStep, hpc] at h
    cases h
    exact ⟨.refl _, trivial, .inl rfl⟩
  | countRead frame length write =>
    simp only [readerStep, hpc] at h
    rw [hpc] at hok
    split at h
    · cases h
      exact ⟨.refl _, trivial, .inl rfl⟩
    · rename_i hcount
      cases h
      refine ⟨.refl _, ⟨Nat.pos_of_ne_zero hcount, ?_⟩, .inl rfl⟩
      exact Nat.le_trans (Nat.min_le_right _ _) hok
  | closed frame =>
    simp only [readerStep, hpc] at h
    split at h
    · cases h
      exact ⟨.refl _, trivial, .inl rfl⟩
    · cases h
      exact ⟨.refl _, frame.null_ok _, .inl rfl⟩
  | leftRead frame write =>
    simp only [readerStep, hpc] at h
    split at h
    · cases h
      exact ⟨.refl _, trivial, .inl rfl⟩
    · cases h
      exact ⟨.refl _, frame.null_ok _, .inl rfl⟩
  | read frame count =>
    simp only [readerStep, hpc] at h
    rw [hpc] at hok
    cases h
    exact ⟨.refl _, ⟨hok.1, hok.2, rfl, Nat.zero_le _, rfl⟩, .inl rfl⟩
  | copy frame count read into =>
    simp only [readerStep, hpc] at h
    rw [hpc] at hok
    obtain ⟨hpos, hcount, rfl, hlen, hinto⟩ := hok
    split at h
    · rename_i hlt
      cases h
      refine ⟨.refl _, ⟨hpos, hcount, rfl, ?_, ?_⟩, .inl rfl⟩
      · rw [List.length_append]
        exact hlt
      · have hnext := Ring.take_contents cap (Nat.lt_of_lt_of_le hlt hcount)
        rw [← hinto] at hnext
        simpa [Ring.cell] using hnext
    · cases h
      have hnew := available_read hcount
      refine ⟨⟨rfl, rfl, rfl, rfl, ?_⟩, trivial, .inl rfl⟩
      exact Nat.le_trans (Nat.le_of_eq hnew) (Nat.sub_le _ _)
  | notify into =>
    simp only [readerStep, hpc] at h
    cases h
    exact ⟨.refl _, trivial, .inr rfl⟩
  | wait length signal | watchRead signal write | watchClosed signal | watchWait signal =>
    simp only [readerStep, hpc] at h
    split at h <;> cases h <;> exact ⟨.refl _, trivial, .inl rfl⟩

/-! ## Every interleaving -/

theorem Sound.step {a : Action} (hw : Sound cap w)
    (h : step waitsAsync cap w a = some t) : Sound cap t := by
  obtain ⟨hbounded, hput, hpc⟩ := hw
  cases a with
  | write bytes | close =>
    simp only [StdinRing.step] at h
    split at h
    · cases h
      exact ⟨hbounded, hput, hpc⟩
    · cases h
  | call c =>
    simp only [StdinRing.step] at h
    split at h
    · cases h
      refine ⟨hbounded, hput, ?_⟩
      cases c <;> trivial
    · cases h
  | writer =>
    simp only [StdinRing.step, writerStep] at h
    split at h
    · obtain ⟨hfed, hsize, hok⟩ := putStep_fed ⟨hbounded, hput, hpc⟩ h
      refine ⟨hsize, hok, ?_⟩
      rcases putStep_reader h with heq | heq
      · exact heq ▸ hpc.fed hfed
      · exact heq ▸ (hpc.fed hfed).notified
    · obtain ⟨hfed, hsize, hkept, hreader⟩ := closeStep_fed cap h
      refine ⟨hsize ▸ hbounded, hkept hput, ?_⟩
      rcases hreader with heq | heq
      · exact heq ▸ hpc.fed hfed
      · exact heq ▸ (hpc.fed hfed).notified
  | reader =>
    obtain ⟨hdrained, hok, hwriter⟩ := readerStep_drained ⟨hbounded, hput, hpc⟩ h
    refine ⟨Nat.le_trans hdrained.size_le hbounded, ?_, hok⟩
    rcases hwriter with heq | heq
    · exact heq ▸ hput.drained hdrained
    · exact heq ▸ (hput.drained hdrained).notified

end StdinRing

end Tabnode
