import Mathlib.Data.List.Infix
import Tabnode.NativeStream.Writes

/-!
# What the queue of a stream handle keeps

What was handed over of a write is either the one attempt at it or the first of its chunks,
and all of them where it ended well. The entries of successive writes stand in their order and
a shutdown is the last. Each thing that the driver does to its queue and its log keeps this.
-/

namespace Tabnode

namespace NativeStream

open List

def entriesOf (log : List Entry) (request : ℕ) : List Entry :=
  log.filter fun entry => entry.request? = some request

variable {log : List Entry} {entry : Entry} {request : ℕ}

theorem entriesOf_append_self (h : entry.request? = some request) :
    entriesOf (log ++ [entry]) request = entriesOf log request ++ [entry] := by
  rw [entriesOf, entriesOf, filter_append, filter_singleton, h]
  simp

theorem entriesOf_append_of_ne (h : entry.request? ≠ some request) :
    entriesOf (log ++ [entry]) request = entriesOf log request := by
  rw [entriesOf, entriesOf, filter_append, filter_singleton]
  simp [h]

theorem entriesOf_eq_nil
    (h : ∀ entry ∈ log, entry.request? ≠ some request) : entriesOf log request = [] := by
  rw [entriesOf, filter_eq_nil_iff]
  intro entry hentry
  simpa using h entry hentry

def Handed (limit : ℕ) (log : List Entry) (request : ℕ) (parts left : List (List UInt8)) : Prop :=
  entriesOf log request ++ left.map (.chunk request) =
    (writeChunks parts limit).map (.chunk request)

def Attempted (log : List Entry) (request : ℕ) (parts : List (List UInt8)) : Prop :=
  entriesOf log request = [.attempt request parts.flatten]

/-- Entries in the order of their writes, and a shutdown after all of them and once. -/
def Precedes (first second : Entry) : Prop :=
  match second.request? with
  | some request => ∃ earlier ≤ request, first.request? = some earlier
  | none => first ≠ .shutdown

def leftFor (current : Option (ℕ × List (List UInt8))) (limit : ℕ) (write : PendingWrite) :
    List (List UInt8) :=
  match current with
  | some (request, rest) =>
    if request = write.request then rest else writeChunks write.parts limit
  | none => writeChunks write.parts limit

/-- What holds of the queue, the log and the writes that ended. -/
structure Kept (current : Option (ℕ × List (List UInt8))) (s : Driver) : Prop where
  positive : 1 ≤ s.limit
  current_lt : ∀ request rest, current = some (request, rest) → request < s.requests.length
  known : ∀ write ∈ s.writes, s.requests[write.request]? = some write.parts
  ascending : s.writes.Pairwise fun first second => first.request < second.request
  settled : ∀ request < s.requests.length,
    (∃ write ∈ s.writes, write.request = request) ∨ ∃ status, (request, status) ∈ s.finished
  ended : ∀ result ∈ s.finished,
    result.1 < s.requests.length ∧ ∀ write ∈ s.writes, write.request ≠ result.1
  ordered : s.log.Pairwise Precedes
  behind : ∀ entry ∈ s.log, ∀ write ∈ s.writes,
    ∃ earlier ≤ write.request, entry.request? = some earlier
  made : ∀ entry ∈ s.log, ∀ request, entry.request? = some request →
    request < s.requests.length
  waiting : ∀ write ∈ s.writes,
    if write.submitted then Attempted s.log write.request write.parts
    else Handed s.limit s.log write.request write.parts (leftFor current s.limit write)
  gone : ∀ result ∈ s.finished, ∀ parts, s.requests[result.1]? = some parts →
    Attempted s.log result.1 parts ∨
      ∃ left, Handed s.limit s.log result.1 parts left ∧ (result.2 = 0 → left = [])
  unasked : s.writeEnded = false → .shutdown ∉ s.log ∧ s.pendingShutdown = false
  pending : s.pendingShutdown = true → .shutdown ∉ s.log
  told : s.writeEnded = true →
    s.pendingShutdown = true ∨ .shutdown ∈ s.log ∨ (s.closing || s.stopped) = true

variable {current : Option (ℕ × List (List UInt8))} {s : Driver}

theorem Kept.frame (h : Kept current s) (pump : Pump) (bytesWritten writeQueueSize : ℕ) :
    Kept current { s with
      pump := pump, bytesWritten := bytesWritten, writeQueueSize := writeQueueSize } :=
  ⟨h.positive, h.current_lt, h.known, h.ascending, h.settled, h.ended, h.ordered, h.behind,
    h.made, h.waiting, h.gone, h.unasked, h.pending, h.told⟩

theorem Kept.close (h : Kept current s) {closing stopped : Bool}
    (hclose : (s.closing || s.stopped) = true → (closing || stopped) = true) :
    Kept current { s with closing := closing, stopped := stopped } :=
  ⟨h.positive, h.current_lt, h.known, h.ascending, h.settled, h.ended, h.ordered, h.behind,
    h.made, h.waiting, h.gone, h.unasked, h.pending,
    fun hended => (h.told hended).imp_right fun htold => htold.imp_right hclose⟩

theorem Kept.dropCurrent (h : Kept current s)
    (hnot : ∀ request rest, current = some (request, rest) →
      ∀ write ∈ s.writes, write.request = request → write.submitted = true) : Kept none s := by
  refine ⟨h.positive, fun _ _ hnone => absurd hnone (by simp), h.known, h.ascending, h.settled,
    h.ended, h.ordered, h.behind, h.made, ?_, h.gone, h.unasked, h.pending, h.told⟩
  intro write hwrite
  have hwaiting := h.waiting write hwrite
  split_ifs at hwaiting ⊢ with hsubmitted
  · exact hwaiting
  · match current, hnot, hwaiting with
    | none, _, hwaiting => exact hwaiting
    | some (request, rest), hnot, hwaiting =>
      have hne : request ≠ write.request := fun heq =>
        hsubmitted (hnot request rest rfl write hwrite heq.symm)
      rwa [leftFor, if_neg hne] at hwaiting

variable {write : PendingWrite}

/-- The first write of the queue becomes the one whose chunks are left. -/
theorem Kept.setCurrent (h : Kept none s) (hwrite : write ∈ s.writes) :
    Kept (some (write.request, writeChunks write.parts s.limit)) s := by
  have hlt : write.request < s.requests.length := (List.getElem?_eq_some_iff.1 (h.known write hwrite)).1
  refine ⟨h.positive, ?_, h.known, h.ascending, h.settled,
    h.ended, h.ordered, h.behind, h.made, ?_, h.gone, h.unasked, h.pending, h.told⟩
  · intro request rest hsome
    cases hsome
    exact hlt
  · intro other hother
    have hwaiting := h.waiting other hother
    split_ifs at hwaiting ⊢ with hsubmitted
    · exact hwaiting
    · rw [leftFor]
      split_ifs with heq
      · have hparts := h.known other hother
        rw [← heq, h.known write hwrite] at hparts
        rwa [Option.some.inj hparts]
      · exact hwaiting

/-- A queue whose writes are as before but for the descriptors they send. -/
theorem Kept.map (h : Kept current s) {f : PendingWrite → PendingWrite}
    (hf : ∀ write ∈ s.writes, (f write).request = write.request ∧
      (f write).parts = write.parts ∧ (f write).submitted = write.submitted) :
    Kept current { s with writes := s.writes.map f } := by
  have hmem : ∀ {p : PendingWrite → Prop}, (∀ write ∈ s.writes, p (f write)) →
      ∀ write ∈ s.writes.map f, p write := by
    intro p hp write hwrite
    obtain ⟨other, hother, rfl⟩ := mem_map.1 hwrite
    exact hp other hother
  refine ⟨h.positive, h.current_lt, hmem ?_, ?_, ?_, ?_, h.ordered, ?_, h.made, hmem ?_, h.gone,
    h.unasked, h.pending, h.told⟩
  · intro write hwrite
    rw [(hf write hwrite).1, (hf write hwrite).2.1]
    exact h.known write hwrite
  · rw [pairwise_map]
    refine h.ascending.imp_of_mem fun hfirst hsecond hlt => ?_
    rwa [(hf _ hfirst).1, (hf _ hsecond).1]
  · intro request hrequest
    refine (h.settled request hrequest).imp_left ?_
    rintro ⟨write, hwrite, rfl⟩
    exact ⟨f write, mem_map_of_mem hwrite, (hf write hwrite).1⟩
  · intro result hresult
    refine ⟨(h.ended result hresult).1, hmem fun write hwrite => ?_⟩
    rw [(hf write hwrite).1]
    exact (h.ended result hresult).2 write hwrite
  · intro entry hentry
    refine hmem fun write hwrite => ?_
    rw [(hf write hwrite).1]
    exact h.behind entry hentry write hwrite
  · intro write hwrite
    have hwaiting := h.waiting write hwrite
    unfold leftFor at hwaiting ⊢
    rwa [(hf write hwrite).1, (hf write hwrite).2.1, (hf write hwrite).2.2]

/-- A write of the queue ends: well only when none of it is left. -/
theorem Kept.finishWrite (h : Kept current s) (hwrite : write ∈ s.writes) {status : ℤ}
    {throws : Bool}
    (hleft : status = 0 → write.submitted = true ∨ leftFor current s.limit write = []) :
    Kept current (s.finishWrite write status throws) := by
  have hrest : ∀ other ∈ s.writes.filter (·.request ≠ write.request),
      other ∈ s.writes ∧ other.request ≠ write.request := by
    intro other hother
    simpa using hother
  have hlt : write.request < s.requests.length := (List.getElem?_eq_some_iff.1 (h.known write hwrite)).1
  refine ⟨h.positive, h.current_lt, fun other hother => h.known other (hrest other hother).1,
    h.ascending.filter _, ?_, ?_, h.ordered,
    fun entry hentry other hother => h.behind entry hentry other (hrest other hother).1, h.made,
    fun other hother => h.waiting other (hrest other hother).1, ?_, h.unasked, h.pending, h.told⟩
  · intro request hrequest
    by_cases heq : request = write.request
    · exact .inr ⟨_, mem_append.2 (.inr (mem_singleton.2 (by rw [heq])))⟩
    · refine (h.settled request hrequest).imp ?_ ?_
      · rintro ⟨other, hother, rfl⟩
        exact ⟨other, mem_filter.2 ⟨hother, by simpa using heq⟩, rfl⟩
      · rintro ⟨code, hcode⟩
        exact ⟨code, mem_append_left _ hcode⟩
  · intro result hresult
    rcases mem_append.1 hresult with hold | hnew
    · exact ⟨(h.ended result hold).1, fun other hother =>
        (h.ended result hold).2 other (hrest other hother).1⟩
    · rw [mem_singleton.1 hnew]
      exact ⟨hlt, fun other hother => (hrest other hother).2⟩
  · intro result hresult parts hparts
    rcases mem_append.1 hresult with hold | hnew
    · exact h.gone result hold parts hparts
    · rw [mem_singleton.1 hnew] at hparts ⊢
      dsimp only at hparts ⊢
      have hsame : write.parts = parts := Option.some.inj ((h.known write hwrite).symm.trans hparts)
      have hwaiting := h.waiting write hwrite
      rw [hsame] at hwaiting
      split_ifs at hwaiting with hsubmitted
      · exact .inl hwaiting
      · refine .inr ⟨_, hwaiting, fun hzero => ?_⟩
        have hstatus : status = 0 := by
          split_ifs at hzero with hcanceled
          · exact absurd hzero (by decide)
          · exact hzero
        exact (hleft hstatus).resolve_left hsubmitted

theorem entriesOf_handOver_of_ne {first : ℕ} (hentry : entry.request? = some first)
    (hne : first ≠ request) : entriesOf (s.handOver entry).log request = entriesOf s.log request :=
  entriesOf_append_of_ne fun hsome => hne (Option.some.inj (hentry.symm.trans hsome))

/-- An entry of the first write that waits is handed over, and what is noted of the writes is
that. -/
theorem Kept.handOver (h : Kept current s) {current' : Option (ℕ × List (List UInt8))}
    {f : PendingWrite → PendingWrite}
    (hf : ∀ write, (f write).request = write.request ∧ (f write).parts = write.parts)
    (hentry : entry.request? = some request)
    (hcurrent : ∀ other rest, current' = some (other, rest) → other < s.requests.length)
    (hwaits : ∃ write ∈ s.writes, write.request = request)
    (hfirst : ∀ write ∈ s.writes, request ≤ write.request) (hwaiting : ∀ write ∈ s.writes,
      if (f write).submitted then Attempted (s.handOver entry).log write.request write.parts
      else Handed s.limit (s.handOver entry).log write.request write.parts
        (leftFor current' s.limit (f write))) :
    Kept current' { s.handOver entry with writes := s.writes.map f } := by
  have hmem : ∀ {p : PendingWrite → Prop}, (∀ write ∈ s.writes, p (f write)) →
      ∀ write ∈ s.writes.map f, p write := by
    intro p hp write hwrite
    obtain ⟨other, hother, rfl⟩ := mem_map.1 hwrite
    exact hp other hother
  have hshutdown : .shutdown ∈ (s.handOver entry).log ↔ .shutdown ∈ s.log := by
    rw [Driver.handOver, mem_append, mem_singleton]
    refine or_iff_left fun heq => ?_
    rw [← heq] at hentry
    cases hentry
  have hlog : ∀ {p : Entry → Prop}, (∀ e ∈ s.log, p e) → p entry → ∀ e ∈ (s.handOver entry).log, p e := by
    intro p hold hnew e he
    rcases mem_append.1 he with hmem | hmem
    · exact hold e hmem
    · exact mem_singleton.1 hmem ▸ hnew
  obtain ⟨write, hwrite, hrequest⟩ := hwaits
  have hlt : request < s.requests.length :=
    hrequest ▸ (List.getElem?_eq_some_iff.1 (h.known write hwrite)).1
  refine ⟨h.positive, hcurrent, hmem ?_, ?_, ?_, ?_, ?_, hlog ?_ (hmem ?_), hlog h.made ?_,
    hmem ?_, ?_, ?_, ?_, ?_⟩
  · intro other hother
    rw [(hf other).1, (hf other).2]
    exact h.known other hother
  · rw [pairwise_map]
    refine h.ascending.imp fun hless => ?_
    rwa [(hf _).1, (hf _).1]
  · intro other hother
    refine (h.settled other hother).imp_left ?_
    rintro ⟨waits, hwaits, rfl⟩
    exact ⟨f waits, mem_map_of_mem hwaits, (hf waits).1⟩
  · intro result hresult
    refine ⟨(h.ended result hresult).1, hmem fun other hother => ?_⟩
    rw [(hf other).1]
    exact (h.ended result hresult).2 other hother
  · refine pairwise_append.2 ⟨h.ordered, pairwise_singleton _ _, ?_⟩
    intro e he other hother
    rw [mem_singleton.1 hother, Precedes, hentry]
    exact hrequest ▸ h.behind e he write hwrite
  · intro e he
    refine hmem fun other hother => ?_
    rw [(hf other).1]
    exact h.behind e he other hother
  · intro other hother
    rw [(hf other).1]
    exact ⟨request, hfirst other hother, hentry⟩
  · intro other hother
    rw [hentry] at hother
    exact Option.some.inj hother ▸ hlt
  · intro other hother
    rw [(hf other).1, (hf other).2]
    exact hwaiting other hother
  · intro result hresult parts hparts
    have hne : request ≠ result.1 := hrequest ▸ (h.ended result hresult).2 write hwrite
    have hover := h.gone result hresult parts hparts
    have hsame := entriesOf_handOver_of_ne (s := s) hentry hne
    rw [Attempted, ← hsame] at hover
    simp only [Handed, ← hsame] at hover
    exact hover
  · exact fun hopen => ⟨fun hsent => (h.unasked hopen).1 (hshutdown.1 hsent), (h.unasked hopen).2⟩
  · exact fun hpending hsent => h.pending hpending (hshutdown.1 hsent)
  · exact fun hended => (h.told hended).imp_right fun htold => htold.imp_left hshutdown.2

theorem Kept.handOver_chunk {chunk : List UInt8} {rest : List (List UInt8)}
    (h : Kept (some (request, chunk :: rest)) s) (hwrite : write ∈ s.writes)
    (hrequest : write.request = request)
    (hsubmitted : ∀ other ∈ s.writes, other.request = request → other.submitted = false)
    (hfirst : ∀ other ∈ s.writes, request ≤ other.request) :
    Kept (some (request, rest)) (s.handOver (.chunk request chunk)) := by
  have hlt := h.current_lt _ _ rfl
  have hkept : Kept (some (request, rest))
      { s.handOver (.chunk request chunk) with writes := s.writes.map id } := by
    refine h.handOver (fun _ => ⟨rfl, rfl⟩) rfl ?_ ⟨write, hwrite, hrequest⟩ hfirst ?_
    · intro other left hsome
      cases hsome
      exact hlt
    intro other hother
    have hwaiting := h.waiting other hother
    rw [id]
    by_cases heq : request = other.request
    · rw [hsubmitted other hother heq.symm, if_neg (by decide)] at hwaiting ⊢
      rw [leftFor, if_pos heq, Handed] at hwaiting ⊢
      rw [Driver.handOver, entriesOf_append_self (by rw [← heq]; rfl), ← hwaiting]
      rw [heq, map_cons, append_assoc, singleton_append]
    · rw [leftFor, if_neg heq] at hwaiting ⊢
      rw [Attempted, Handed, entriesOf_handOver_of_ne rfl heq]
      exact hwaiting
  rwa [map_id] at hkept

theorem Kept.eq_of_request (h : Kept current s) {first second : PendingWrite}
    (hfirst : first ∈ s.writes) (hsecond : second ∈ s.writes)
    (heq : first.request = second.request) : first = second := by
  by_contra hne
  have hsymm : Std.Symm fun first second : PendingWrite => first.request ≠ second.request :=
    ⟨fun _ _ => Ne.symm⟩
  exact (h.ascending.imp fun hlt => hlt.ne).forall hfirst hsecond hne heq

theorem Kept.request_lt (h : Kept current s) (hwrite : write ∈ s.writes) :
    write.request < s.requests.length :=
  (List.getElem?_eq_some_iff.1 (h.known write hwrite)).1

theorem Kept.enqueue (h : Kept current s) (hopen : s.writeEnded = false)
    (hrequest : write.request = s.requests.length) (hsubmitted : write.submitted = false) :
    Kept current { s with
      requests := s.requests ++ [write.parts], writes := s.writes ++ [write] } := by
  have hgrown : ∀ {n : ℕ}, n < s.requests.length → n < (s.requests ++ [write.parts]).length := by
    intro n hn
    rw [length_append]
    exact hn.trans_le (Nat.le_add_right _ _)
  have hlog : ∀ entry ∈ s.log, ∃ m < s.requests.length, entry.request? = some m := by
    intro entry hentry
    cases hcase : entry.request? with
    | some m => exact ⟨m, h.made entry hentry m hcase, rfl⟩
    | none =>
      cases entry with
      | shutdown => exact absurd hentry (h.unasked hopen).1
      | attempt _ _ | chunk _ _ => cases hcase
  have hnone : entriesOf s.log write.request = [] := by
    refine entriesOf_eq_nil fun entry hentry hsome => ?_
    have hlt := h.made entry hentry _ hsome
    exact absurd hrequest hlt.ne
  have hwrites : ∀ {p : PendingWrite → Prop}, (∀ other ∈ s.writes, p other) → p write →
      ∀ other ∈ s.writes ++ [write], p other := by
    intro p hold hnew other hother
    rcases mem_append.1 hother with hmem | hmem
    · exact hold other hmem
    · exact mem_singleton.1 hmem ▸ hnew
  refine ⟨h.positive, fun n rest hsome => hgrown (h.current_lt n rest hsome), hwrites ?_ ?_, ?_,
    ?_, ?_, h.ordered, fun entry hentry => hwrites (h.behind entry hentry) ?_,
    fun entry hentry m hm => hgrown (h.made entry hentry m hm), hwrites h.waiting ?_, ?_,
    h.unasked, h.pending, h.told⟩
  · intro other hother
    rw [getElem?_append_left (h.request_lt hother)]
    exact h.known other hother
  · rw [hrequest, getElem?_concat_length]
  · refine pairwise_append.2 ⟨h.ascending, pairwise_singleton _ _, ?_⟩
    intro other hother last hlast
    rw [mem_singleton.1 hlast, hrequest]
    exact h.request_lt hother
  · intro n hn
    rw [length_append, length_singleton, Nat.lt_succ_iff_lt_or_eq] at hn
    rcases hn with hold | hnew
    · refine (h.settled n hold).imp_left ?_
      rintro ⟨other, hother, heq⟩
      exact ⟨other, mem_append_left _ hother, heq⟩
    · exact .inl ⟨write, mem_append.2 (.inr (mem_singleton.2 rfl)), hrequest.trans hnew.symm⟩
  · intro result hresult
    obtain ⟨hlt, hne⟩ := h.ended result hresult
    exact ⟨hgrown hlt, hwrites hne (hrequest ▸ hlt.ne')⟩
  · obtain ⟨m, hm, hsome⟩ := hlog entry hentry
    exact ⟨m, hrequest ▸ hm.le, hsome⟩
  · have hleft : leftFor current s.limit write = writeChunks write.parts s.limit := by
      match current, h.current_lt with
      | none, _ => rfl
      | some (n, rest), hcurrent =>
        have hne : n ≠ write.request := hrequest ▸ (hcurrent n rest rfl).ne
        rw [leftFor, if_neg hne]
    rw [hsubmitted, if_neg (by decide), hleft, Handed, hnone, nil_append]
  · intro result hresult parts hparts
    rw [getElem?_append_left (h.ended result hresult).1] at hparts
    exact h.gone result hresult parts hparts

theorem Kept.handOver_shutdown (h : Kept current s) (hwrites : s.writes = [])
    (hnot : .shutdown ∉ s.log) {ended : Bool} (hended : ended = true) :
    Kept current { s.handOver .shutdown with writeEnded := ended, pendingShutdown := false } := by
  have hnone : ∀ n, entriesOf (s.handOver .shutdown).log n = entriesOf s.log n := fun n =>
    entriesOf_append_of_ne fun hsome => by cases hsome
  refine ⟨h.positive, h.current_lt, h.known, h.ascending, h.settled, h.ended, ?_, ?_, ?_, ?_, ?_,
    ?_, ?_, ?_⟩
  · refine pairwise_append.2 ⟨h.ordered, pairwise_singleton _ _, ?_⟩
    intro entry hentry last hlast
    rw [mem_singleton.1 hlast]
    exact fun heq => hnot (heq ▸ hentry)
  · intro entry _ write hwrite
    exact absurd (hwrites ▸ hwrite) not_mem_nil
  · intro entry hentry n hn
    rcases mem_append.1 hentry with hold | hnew
    · exact h.made entry hold n hn
    · rw [mem_singleton.1 hnew] at hn
      cases hn
  · intro write hwrite
    exact absurd (hwrites ▸ hwrite) not_mem_nil
  · intro result hresult parts hparts
    have hover := h.gone result hresult parts hparts
    simp only [Attempted, Handed, ← hnone] at hover
    exact hover
  · exact fun hopen => absurd (hopen.symm.trans hended) (by decide)
  · exact fun hpending => absurd hpending Bool.false_ne_true
  · exact fun _ => .inr (.inl (mem_append.2 (.inr (mem_singleton.2 rfl))))

theorem Kept.flushShutdown (h : Kept current s) : Kept current s.flushShutdown := by
  rw [Driver.flushShutdown]
  dsimp only
  split_ifs with hwait hclosed
  · exact h
  · rw [not_or, not_not, Bool.not_eq_false] at hwait
    exact ⟨h.positive, h.current_lt, h.known, h.ascending, h.settled, h.ended, h.ordered,
      h.behind, h.made, h.waiting, h.gone, fun hopen => ⟨(h.unasked hopen).1, rfl⟩,
      fun hpending => absurd hpending Bool.false_ne_true, fun _ => .inr (.inr hclosed)⟩
  · rw [not_or, not_not, Bool.not_eq_false] at hwait
    have hended : s.writeEnded = true := by
      by_contra hopen
      have hnone := (h.unasked (Bool.eq_false_iff.2 hopen)).2
      exact absurd (hwait.2.symm.trans hnone) (by decide)
    exact h.handOver_shutdown hwait.1 (h.pending hwait.2) hended

end NativeStream

end Tabnode
