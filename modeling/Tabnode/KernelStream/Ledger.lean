import Mathlib.Algebra.Order.Ring.Int
import Tabnode.Data.Numbered
import Tabnode.KernelStream.Stream

/-!
# The ledger of the accepted writes

What the socket has taken, what is queued and what has completed are three readings of
one list, which has an entry for each accepted write: the parts of it the socket took and
its outcome. The entries with an outcome come first, the queue is the rest, and only the
first of the queue may have parts. A step changes the first entry of the queue or adds
one at its end.
-/

namespace Tabnode

namespace KernelStream

open List

/-- What has become of an accepted write. -/
structure Entry where
  bytes : List UInt8
  fd : Option ℕ
  async : Bool
  /-- What each call of the socket took of it. -/
  parts : List (List UInt8)
  /-- The status its request completed with. -/
  outcome : Option Int

namespace Entry

def accepted (e : Entry) : Accepted := ⟨e.bytes, e.fd, e.async⟩

def sends (k : ℕ) (e : Entry) : List Part :=
  match e.parts with
  | [] => []
  | p :: ps => ⟨k, e.fd, p⟩ :: ps.map fun q => ⟨k, none, q⟩

def queued (k : ℕ) (e : Entry) : List QueuedWrite :=
  [⟨k, e.bytes, e.parts.flatten.length, if e.parts = [] then e.fd else none⟩]

def completion (k : ℕ) (e : Entry) : List (ℕ × Int) := (e.outcome.map fun st => (k, st)).toList

def unsent (e : Entry) : Int := e.bytes.length - e.parts.flatten.length

/-- A write that is over: taken whole, or failed. -/
structure Settled (e : Entry) : Prop where
  async : e.async = e.outcome.isSome
  some_bytes : e.parts.flatten <+: e.bytes
  all_bytes : (∀ st, e.outcome = some st → st = 0) → e.parts.flatten = e.bytes

/-- A write in the queue. -/
structure Waiting (e : Entry) : Prop where
  async : e.async = true
  outcome : e.outcome = none
  some_bytes : e.parts.flatten <+: e.bytes

theorem sends_place (k : ℕ) (e : Entry) : ∀ p ∈ e.sends k, p.request = k := by
  intro p hp
  unfold sends at hp
  split at hp
  · cases hp
  · rcases mem_cons.1 hp with rfl | hp
    · rfl
    · obtain ⟨q, -, rfl⟩ := mem_map.1 hp
      rfl

theorem sends_bytes (k : ℕ) (e : Entry) :
    (e.sends k).flatMap Part.bytes = e.parts.flatten := by
  unfold sends
  split
  · next hparts => rw [hparts]; rfl
  · next p ps hparts =>
      rw [hparts, flatMap_cons, flatMap_map, flatten_cons]
      simp [flatMap_id']

theorem sends_of_none (k : ℕ) {e : Entry} (h : e.parts = []) : e.sends k = [] := by
  unfold sends
  rw [h]

theorem sends_concat (k : ℕ) (e : Entry) (p : List UInt8) :
    ({ e with parts := e.parts ++ [p] } : Entry).sends k =
      e.sends k ++ [⟨k, if e.parts = [] then e.fd else none, p⟩] := by
  unfold sends
  cases hparts : e.parts with
  | nil => rfl
  | cons q qs => simp

theorem completion_place (k : ℕ) (e : Entry) : ∀ c ∈ e.completion k, c.1 = k := by
  intro c hc
  unfold completion at hc
  cases hst : e.outcome with
  | none =>
      rw [hst] at hc
      cases hc
  | some st =>
      rw [hst] at hc
      cases hc with
      | head => rfl
      | tail _ h => cases h

end Entry

/-- The logs of a stream are the readings of its ledger. -/
structure Account (done pend : List Entry) (accepted : List Accepted) (wire : List Part)
    (writes : List QueuedWrite) (completions : List (ℕ × Int)) (size : Int) : Prop where
  accepted : accepted = (done ++ pend).map Entry.accepted
  wire : wire = numbered Entry.sends 0 (done ++ pend)
  writes : writes = numbered Entry.queued done.length pend
  completions : completions = numbered Entry.completion 0 (done ++ pend)
  settled : ∀ e ∈ done, e.Settled
  waiting : ∀ e ∈ pend, e.Waiting
  later : ∀ e ∈ pend.tail, e.parts = []
  size : size = (pend.map Entry.unsent).sum

namespace Account

variable {done pend : List Entry} {accepted : List Accepted} {wire : List Part}
  {writes : List QueuedWrite} {completions : List (ℕ × Int)} {size : Int}

theorem completions_eq (pend' : List Entry) (h : ∀ e ∈ pend', e.outcome = none) (k : ℕ) :
    numbered Entry.completion k pend' = [] := by
  refine numbered_eq_nil fun e he i => ?_
  rw [Entry.completion, h e he]
  rfl

theorem finish {e : Entry} {rest : List Entry}
    (h : Account done (e :: rest) accepted wire writes completions size) (status : Int)
    (hwhole : status = 0 → e.parts.flatten = e.bytes) :
    Account (done ++ [{ e with outcome := some status }]) rest accepted wire
      (numbered Entry.queued (done.length + 1) rest)
      (completions ++ [(done.length, status)]) (size - e.unsent) where
  accepted := by
    rw [h.accepted]
    simp [Entry.accepted]
  wire := by
    rw [h.wire, append_assoc, numbered_append, numbered_append, singleton_append,
      numbered_cons, numbered_cons]
    rfl
  writes := by rw [length_append, length_singleton]
  completions := by
    have hrest : ∀ b ∈ rest, b.outcome = none :=
      fun b hb => (h.waiting b (mem_cons_of_mem e hb)).outcome
    have he : e.completion (0 + done.length) = [] := by
      rw [Entry.completion, (h.waiting e mem_cons_self).outcome]
      rfl
    rw [h.completions, append_assoc, numbered_append, numbered_append,
      singleton_append, numbered_cons, numbered_cons, completions_eq rest hrest, he]
    simp [Entry.completion]
  settled b hb := by
    rcases mem_append.1 hb with hb | hb
    · exact h.settled b hb
    · rw [mem_singleton.1 hb]
      have hwaiting := h.waiting e mem_cons_self
      exact ⟨hwaiting.async, hwaiting.some_bytes, fun hzero => hwhole (hzero status rfl)⟩
  waiting b hb := h.waiting b (mem_cons_of_mem e hb)
  later b hb := h.later b (mem_of_mem_tail hb)
  size := by
    rw [h.size, map_cons, sum_cons]
    omega

theorem take {e : Entry} {rest : List Entry}
    (h : Account done (e :: rest) accepted wire writes completions size) (count : ℕ)
    (hcount : count ≤ e.bytes.length - e.parts.flatten.length) :
    Account done ({ e with
        parts := e.parts ++ [(e.bytes.drop e.parts.flatten.length).take count] } :: rest)
      accepted
      (wire ++ [⟨done.length, if e.parts = [] then e.fd else none,
        (e.bytes.drop e.parts.flatten.length).take count⟩])
      (⟨done.length, e.bytes, e.parts.flatten.length + count, none⟩ ::
        numbered Entry.queued (done.length + 1) rest)
      completions (size - count) := by
  have hwaiting := h.waiting e mem_cons_self
  have hlength : ((e.bytes.drop e.parts.flatten.length).take count).length = count := by
    rw [length_take, length_drop]
    omega
  have hsplit : e.bytes = e.parts.flatten ++ e.bytes.drop e.parts.flatten.length :=
    prefix_iff_eq_append.1 hwaiting.some_bytes |>.symm
  constructor
  · rw [h.accepted]
    simp [Entry.accepted]
  · have hrest : ∀ k, numbered Entry.sends k rest = [] := fun k =>
      numbered_eq_nil fun b hb i => Entry.sends_of_none i (h.later b hb)
    rw [h.wire, numbered_append, numbered_append, numbered_cons, numbered_cons, hrest,
      Entry.sends_concat, Nat.zero_add]
    simp
  · rw [numbered_cons, Entry.queued, if_neg (by simp)]
    simp only [flatten_append, flatten_cons, flatten_nil, append_nil,
      length_append, hlength, singleton_append]
  · rw [h.completions, numbered_append, numbered_append, numbered_cons, numbered_cons]
    rfl
  · exact h.settled
  · intro b hb
    rcases mem_cons.1 hb with rfl | hb
    · refine ⟨hwaiting.async, hwaiting.outcome, ?_⟩
      rw [flatten_append, flatten_singleton]
      conv_rhs => rw [hsplit]
      exact (prefix_append_right_inj _).2 (List.take_prefix _ _)
    · exact h.waiting b (mem_cons_of_mem e hb)
  · exact h.later
  · have hunsent : ({ e with
        parts := e.parts ++ [(e.bytes.drop e.parts.flatten.length).take count] } : Entry).unsent
          = e.unsent - count := by
      simp only [Entry.unsent, flatten_append, flatten_singleton, length_append,
        hlength]
      omega
    rw [h.size, map_cons, map_cons, sum_cons, sum_cons, hunsent]
    omega

/-- A write is queued, with the first bytes the socket took of it when none was before. -/
theorem push (h : Account done pend accepted wire writes completions size)
    (bytes : List UInt8) (fd : Option ℕ) (sent : ℕ) (hsent : sent ≤ bytes.length)
    (hidle : sent ≠ 0 → pend = [] ∧ fd = none) :
    ∃ e : Entry, Account done (pend ++ [e]) (accepted ++ [⟨bytes, fd, true⟩])
      (if sent = 0 then wire else wire ++ [⟨accepted.length, none, bytes.take sent⟩])
      (writes ++ [⟨accepted.length, bytes, sent, fd⟩]) completions
      (size + (bytes.length - sent)) := by
  have hlength : accepted.length = done.length + pend.length := by
    rw [h.accepted, length_map, length_append]
  refine ⟨⟨bytes, fd, true, if sent = 0 then [] else [bytes.take sent], none⟩, ?_⟩
  have hflat : (if sent = 0 then ([] : List (List UInt8)) else [bytes.take sent]).flatten =
      bytes.take sent := by
    split
    · next hzero => rw [hzero]; rfl
    · rw [flatten_singleton]
  constructor
  · rw [h.accepted]
    simp [Entry.accepted]
  · rw [← append_assoc, numbered_concat, ← h.wire, length_append, Nat.zero_add,
      ← hlength]
    split
    · rw [Entry.sends_of_none _ rfl, append_nil]
    · next hsome => rw [(hidle hsome).2]; rfl
  · rw [numbered_concat, ← h.writes, ← hlength, Entry.queued, hflat, length_take,
      Nat.min_eq_left hsent]
    by_cases hzero : sent = 0
    · simp [hzero]
    · rw [(hidle hzero).2]
      simp [hzero]
  · rw [← append_assoc, numbered_concat, ← h.completions, Entry.completion]
    simp
  · exact h.settled
  · intro b hb
    rcases mem_append.1 hb with hb | hb
    · exact h.waiting b hb
    · rw [mem_singleton.1 hb]
      refine ⟨rfl, rfl, ?_⟩
      rw [hflat]
      exact take_prefix sent bytes
  · intro b hb
    cases hpend : pend with
    | nil =>
        rw [hpend] at hb
        cases hb
    | cons e rest =>
        rw [hpend, cons_append, tail_cons, mem_append] at hb
        rcases hb with hb | hb
        · refine h.later b ?_
          rwa [hpend]
        · have hzero : sent = 0 := by
            by_contra hsome
            rw [(hidle hsome).1] at hpend
            cases hpend
          rw [mem_singleton.1 hb, if_pos hzero]
  · rw [h.size, map_append, sum_append, map_singleton, sum_singleton,
      Entry.unsent, hflat, length_take, Nat.min_eq_left hsent]

theorem whole (h : Account done [] accepted wire writes completions size)
    (bytes : List UInt8) :
    ∃ e : Entry, Account (done ++ [e]) [] (accepted ++ [⟨bytes, none, false⟩])
      (if bytes = [] then wire else wire ++ [⟨accepted.length, none, bytes⟩]) writes
      completions size := by
  have hlength : accepted.length = done.length := by
    rw [h.accepted, append_nil, length_map]
  refine ⟨⟨bytes, none, false, if bytes = [] then [] else [bytes], none⟩, ?_⟩
  have hflat : (if bytes = [] then ([] : List (List UInt8)) else [bytes]).flatten = bytes := by
    split
    · next hnil => rw [hnil]; rfl
    · rw [flatten_singleton]
  have haccepted := h.accepted
  have hwire := h.wire
  have hcompletions := h.completions
  rw [append_nil] at haccepted hwire hcompletions
  constructor
  · rw [haccepted]
    simp [Entry.accepted]
  · rw [append_nil, numbered_concat, ← hwire, Nat.zero_add, ← hlength]
    split
    · rw [Entry.sends_of_none _ rfl, append_nil]
    · rfl
  · rw [h.writes]
    rfl
  · rw [append_nil, numbered_concat, ← hcompletions, Entry.completion]
    simp
  · intro b hb
    rcases mem_append.1 hb with hb | hb
    · exact h.settled b hb
    · rw [mem_singleton.1 hb]
      exact ⟨rfl, ⟨[], (append_nil _).trans hflat⟩, fun _ => hflat⟩
  · exact h.waiting
  · exact h.later
  · exact h.size

end Account

end KernelStream

end Tabnode
