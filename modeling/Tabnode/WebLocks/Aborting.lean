import Tabnode.WebLocks.Operations

/-!
# A signal that aborts

After every step nothing waits that could be granted (`Stuck`), and nothing waits or has
its callback still to begin whose signal has aborted (`Unaborted`). A signal that aborts
calls its listeners one by one, and each cancelled wait lets others through; what must not
happen meanwhile is that a request of the signal is let through itself, or was let through
just before (`Clear`).
-/

namespace Tabnode

namespace WebLocks

open List

variable {V : Type*}

def Manager.isAborted (m : Manager V) (signal : ℕ) : Prop :=
  ∃ a ∈ m.aborted, a.1 = signal

/-- No request waits, and no callback is to begin, whose signal has aborted. -/
structure Unaborted (m : Manager V) : Prop where
  waiting : ∀ r ∈ m.waiting, ∀ signal, r.signal = some signal → ¬ m.isAborted signal
  callback : ∀ c ∈ m.callbacks, c.began = false → ∀ signal, c.signal = some signal →
    ¬ m.isAborted signal

/-- A signal may abort: each granted request of it has had its callback begin, and each
shared one that waits does so behind an exclusive holder, or behind an exclusive request
without the signal. -/
structure Clear (m : Manager V) (signal : ℕ) : Prop where
  callback : ∀ c ∈ m.callbacks, c.signal = some signal → c.began = true
  waiting : ∀ r ∈ m.waiting, r.signal = some signal → r.mode = .shared →
    (∃ h ∈ m.held, h.name = r.name ∧ h.mode = .exclusive) ∨
      ∃ q ∈ m.waiting, q.name = r.name ∧ q.id < r.id ∧ q.mode = .exclusive ∧
        q.signal ≠ some signal

instance {m : Manager V} {signal : ℕ} : Decidable (Clear m signal) :=
  decidable_of_iff
    ((∀ c ∈ m.callbacks, c.signal = some signal → c.began = true) ∧
      ∀ r ∈ m.waiting, r.signal = some signal → r.mode = .shared →
        (∃ h ∈ m.held, h.name = r.name ∧ h.mode = .exclusive) ∨
          ∃ q ∈ m.waiting, q.name = r.name ∧ q.id < r.id ∧ q.mode = .exclusive ∧
            q.signal ≠ some signal)
    ⟨fun h => ⟨h.1, h.2⟩, fun h => ⟨h.callback, h.waiting⟩⟩

/-- What holds after every step. -/
structure Orderly (m : Manager V) : Prop where
  sound : Sound m
  stuck : Stuck m
  unaborted : Unaborted m

variable {m m' : Manager V} {r : Waiting} {id signal : ℕ} {reason : V} {outcome : Outcome V}

/-! ## Stuck -/

theorem Stuck.mono (h : Stuck m) (hwaiting : m'.waiting = m.waiting)
    (hheld : ∀ lock ∈ m.held, lock ∈ m'.held) : Stuck m' := by
  intro r hr hfirst
  unfold First at hfirst
  rw [hwaiting] at hr hfirst
  exact grantable_mono hheld (h r hr hfirst)

theorem Stuck.held (h : Stuck m) (hr : r ∈ m.waiting) : ∃ lock ∈ m.held, lock.name = r.name := by
  induction hid : r.id using Nat.strongRecOn generalizing r with
  | ind n ih =>
    by_cases hfirst : First m r
    · have hstuck := h r hr hfirst
      rw [← Bool.not_eq_true, grantable_iff] at hstuck
      by_contra hnone
      exact hstuck fun lock hlock hname => absurd ⟨lock, hlock, hname⟩ hnone
    · obtain ⟨q, hq, hname, hlt⟩ : ∃ q ∈ m.waiting, q.name = r.name ∧ q.id < r.id := by
        simpa [First] using hfirst
      obtain ⟨lock, hlock, hlockName⟩ := ih q.id (hid ▸ hlt) hq rfl
      exact ⟨lock, hlock, hlockName.trans hname⟩

/-! ## Advancing -/

@[simp] theorem grant_aborted : (m.grant r).aborted = m.aborted := rfl

@[simp] theorem grant_settlements : (m.grant r).settlements = m.settlements := rfl

theorem Unaborted.grant (h : Unaborted m) (hr : r ∈ m.waiting) : Unaborted (m.grant r) where
  waiting q hq := h.waiting q (mem_of_mem_erase hq)
  callback c hc hbegan signal hsignal := by
    rw [grant_callbacks, mem_append, mem_singleton] at hc
    rcases hc with hc | rfl
    · exact h.callback c hc hbegan signal hsignal
    · exact h.waiting r hr signal hsignal

theorem Grants.frame (h : Grants m m') : m'.settlements = m.settlements ∧
    m'.aborted = m.aborted ∧ ∀ lock ∈ m.held, lock ∈ m'.held := by
  refine h.keeps (I := fun n => n.settlements = m.settlements ∧ n.aborted = m.aborted ∧
    ∀ lock ∈ m.held, lock ∈ n.held) ⟨rfl, rfl, fun _ hin => hin⟩ ?_
  rintro n r ⟨hsettlements, haborted, hheld⟩ - - -
  exact ⟨hsettlements, haborted, fun lock hlock => by simp [hheld lock hlock]⟩

theorem Orderly.advance (hsound : Sound m) (hunaborted : Unaborted m) : Orderly m.advance := by
  obtain ⟨hgrants, hstuck⟩ := advance_grants hsound.accounted.sorted
  refine ⟨hgrants.sound hsound, hstuck, ?_⟩
  exact hgrants.keeps hunaborted fun _ _ hn hr _ _ => hn.grant hr

/-! ## A signal that aborts -/

/-- A request of the signal cannot be granted, and cannot be while the other requests of
the signal are cancelled. -/
def Barred (m : Manager V) (signal : ℕ) : Prop :=
  ∀ r ∈ m.waiting, r.signal = some signal →
    (∃ h ∈ m.held, h.name = r.name ∧ (r.mode = .exclusive ∨ h.mode = .exclusive)) ∨
      ∃ q ∈ m.waiting, q.name = r.name ∧ q.id < r.id ∧ q.signal ≠ some signal ∧
        q.mode = .exclusive ∧ ∃ h ∈ m.held, h.name = r.name

theorem Clear.barred (h : Clear m signal) (hstuck : Stuck m) : Barred m signal := by
  intro r hr hsignal
  obtain ⟨lock, hlock, hname⟩ := hstuck.held hr
  cases hmode : r.mode with
  | exclusive => exact .inl ⟨lock, hlock, hname, .inl rfl⟩
  | shared =>
    rcases h.waiting r hr hsignal hmode with ⟨lock', hlock', hname', hmode'⟩ | hq
    · exact .inl ⟨lock', hlock', hname', .inr hmode'⟩
    · obtain ⟨q, hq, hqname, hlt, hqmode, hqsignal⟩ := hq
      exact .inr ⟨q, hq, hqname, hlt, hqsignal, hqmode, lock, hlock, hname⟩

/-- What holds while the listeners of a signal are called. -/
structure Aborting (m : Manager V) (signal : ℕ) : Prop where
  sound : Sound m
  barred : Barred m signal
  waiting : ∀ r ∈ m.waiting, ∀ s, r.signal = some s → m.isAborted s → s = signal
  callback : ∀ c ∈ m.callbacks, c.began = false → ∀ s, c.signal = some s → ¬ m.isAborted s

theorem Barred.ne (h : Barred m signal) (hr : r ∈ m.waiting) (hfirst : First m r)
    (hgrantable : m.grantable r.name r.mode = true) : r.signal ≠ some signal := by
  intro hsignal
  rcases h r hr hsignal with ⟨lock, hlock, hname, hmode⟩ | ⟨q, hq, hname, hlt, -⟩
  · rw [not_grantable_of_held hlock hname hmode] at hgrantable
    cases hgrantable
  · exact absurd hlt (Nat.not_lt.2 (hfirst q hq hname))

theorem Aborting.grant (h : Aborting m signal) (hr : r ∈ m.waiting) (hfirst : First m r)
    (hgrantable : m.grantable r.name r.mode = true) : Aborting (m.grant r) signal where
  sound := h.sound.grant hr hfirst hgrantable
  barred := by
    intro x hx hsignal
    have hmore : ∀ lock ∈ m.held, lock ∈ (m.grant r).held := fun lock hlock => by simp [hlock]
    rcases h.barred x (mem_of_mem_erase hx) hsignal with
      ⟨lock, hlock, hname, hmode⟩ | ⟨q, hq, hname, hlt, hqsignal, hmode, lock, hlock, hlockName⟩
    · exact .inl ⟨lock, hmore lock hlock, hname, hmode⟩
    · refine .inr ⟨q, ?_, hname, hlt, hqsignal, hmode, lock, hmore lock hlock, hlockName⟩
      rw [grant_waiting, h.sound.accounted.sorted.nodup.mem_erase_iff]
      refine ⟨?_, hq⟩
      rintro rfl
      rw [not_grantable_of_held hlock (hlockName.trans hname.symm) (.inl hmode)] at hgrantable
      cases hgrantable
  waiting q hq := h.waiting q (mem_of_mem_erase hq)
  callback c hc hbegan s hs haborted := by
    rw [grant_callbacks, mem_append, mem_singleton] at hc
    rcases hc with hc | rfl
    · exact h.callback c hc hbegan s hs haborted
    · have heq := h.waiting r hr s hs haborted
      exact h.barred.ne hr hfirst hgrantable (heq ▸ hs)

/-- The requests of the signal that wait, and the others that may. -/
theorem Aborting.advance (h : Aborting m signal) : Aborting m.advance signal ∧
    (∀ r ∈ m.advance.waiting, r ∈ m.waiting) ∧
    ∀ r ∈ m.waiting, r.signal = some signal → r ∈ m.advance.waiting := by
  refine (advance_grants h.sound.accounted.sorted).1.keeps
    (I := fun n => Aborting n signal ∧ (∀ r ∈ n.waiting, r ∈ m.waiting) ∧
      ∀ r ∈ m.waiting, r.signal = some signal → r ∈ n.waiting)
    ⟨h, fun _ hin => hin, fun _ hr _ => hr⟩ ?_
  rintro n r ⟨hn, hfrom, hthere⟩ hr hfirst hgrantable
  refine ⟨hn.grant hr hfirst hgrantable, fun q hq => hfrom q (mem_of_mem_erase hq), ?_⟩
  intro q hq hsignal
  rw [grant_waiting, hn.sound.accounted.sorted.nodup.mem_erase_iff]
  refine ⟨?_, hthere q hq hsignal⟩
  rintro rfl
  exact hn.barred.ne hr hfirst hgrantable hsignal

/-- One listener of the signal is called: the request it is for is settled, and waits no
more. -/
theorem Aborting.cancel (h : Aborting m signal) (hr : r ∈ m.waiting)
    (hsignal : r.signal = some signal) (reason : V) :
    let n := Manager.cancel { m with
      listeners := m.listeners.filter fun l => l ≠ (signal, r.id) } r.id reason
    Aborting n signal ∧ (∀ q ∈ n.waiting, q ≠ r ∧ q ∈ m.waiting) ∧
      (∀ q ∈ m.waiting, q ≠ r → q.signal = some signal → q ∈ n.waiting) ∧
      n.settlements = m.settlements ++ [(r.id, .rejected (.value reason))] ∧
      n.aborted = m.aborted ∧ Stuck n := by
  have hfind : (m.waiting.find? fun entry => entry.id = r.id) = some r := by
    cases hfound : m.waiting.find? fun entry => entry.id = r.id with
    | none =>
      have hnot := find?_eq_none.1 hfound r hr
      simp at hnot
    | some q =>
      have hid : q.id = r.id := by simpa using find?_some hfound
      rw [h.sound.accounted.sorted.eq_of_id (mem_of_find?_eq_some hfound) hr hid]
  dsimp only [Manager.cancel]
  rw [hfind]
  dsimp only
  have hmem : ∀ q, q ∈ m.waiting.erase r ↔ q ≠ r ∧ q ∈ m.waiting :=
    fun q => h.sound.accounted.sorted.nodup.mem_erase_iff
  have hcancelled : Aborting (Manager.settle { m with
      listeners := m.listeners.filter fun l => l ≠ (signal, r.id)
      waiting := m.waiting.erase r } r.id (.rejected (.value reason))) signal := by
    refine ⟨h.sound.cancelled hr hsignal _, ?_,
      fun q hq => h.waiting q (mem_of_mem_erase hq), h.callback⟩
    intro x hx hxsignal
    rcases h.barred x (mem_of_mem_erase hx) hxsignal with hheld | hq
    · exact .inl hheld
    · obtain ⟨q, hq, hname, hlt, hqsignal, hrest⟩ := hq
      refine .inr ⟨q, (hmem q).2 ⟨?_, hq⟩, hname, hlt, hqsignal, hrest⟩
      rintro rfl
      exact hqsignal hsignal
  obtain ⟨haborting, hfrom, hthere⟩ := hcancelled.advance
  obtain ⟨hgrants, hstuck⟩ := advance_grants hcancelled.sound.accounted.sorted
  obtain ⟨hsettlements, haborted, -⟩ := hgrants.frame
  exact ⟨haborting, fun q hq => (hmem q).1 (hfrom q hq),
    fun q hq hne => hthere q ((hmem q).2 ⟨hne, hq⟩), hsettlements, haborted, hstuck⟩

/-- The listeners of the signal are called: the requests they are for are settled, and none
of them waits. -/
theorem Aborting.fire (h : Aborting m signal) (hstuck : Stuck m) (reason : V) (ids : List ℕ) :
    let n := Manager.fire signal reason m ids
    Aborting n signal ∧ Stuck n ∧
      (∀ r ∈ n.waiting, r ∈ m.waiting ∧ (r.signal = some signal → r.id ∉ ids)) ∧
      (∀ p, p ∈ n.settlements ↔ p ∈ m.settlements ∨
        ∃ r ∈ m.waiting, r.signal = some signal ∧ r.id ∈ ids ∧
          p = (r.id, .rejected (.value reason))) ∧
      n.aborted = m.aborted := by
  induction ids generalizing m with
  | nil => exact ⟨h, hstuck, by simp [Manager.fire], by simp [Manager.fire], rfl⟩
  | cons id ids ih =>
    dsimp only [Manager.fire]
    split
    · rename_i hlistener
      obtain ⟨r, hr, rfl, hsignal⟩ := (h.sound.listening signal id).1 hlistener
      obtain ⟨hcancelled, hfrom, hthere, hsettlements, haborted, hstuck'⟩ :=
        h.cancel hr hsignal reason
      obtain ⟨hlast, hlastStuck, hwaits, hsettled, haborted'⟩ := ih hcancelled hstuck'
      refine ⟨hlast, hlastStuck, ?_, ?_, haborted'.trans haborted⟩
      · intro q hq
        obtain ⟨hq, hnot⟩ := hwaits q hq
        obtain ⟨hne, hq⟩ := hfrom q hq
        refine ⟨hq, fun hqsignal hin => ?_⟩
        rcases mem_cons.1 hin with hid | hin
        · exact hne (h.sound.accounted.sorted.eq_of_id hq hr hid)
        · exact hnot hqsignal hin
      · intro p
        rw [hsettled, hsettlements, mem_append, mem_singleton, or_assoc]
        refine or_congr_right ⟨?_, ?_⟩
        · rintro (rfl | ⟨q, hq, hqsignal, hin, rfl⟩)
          · exact ⟨r, hr, hsignal, mem_cons_self, rfl⟩
          · exact ⟨q, (hfrom q hq).2, hqsignal, mem_cons_of_mem _ hin, rfl⟩
        · rintro ⟨q, hq, hqsignal, hin, rfl⟩
          by_cases heq : q = r
          · exact .inl (by rw [heq])
          · rcases mem_cons.1 hin with hid | hin
            · exact absurd (h.sound.accounted.sorted.eq_of_id hq hr hid) heq
            · exact .inr ⟨q, hthere q hq heq hqsignal, hqsignal, hin, rfl⟩
    · rename_i hlistener
      have hnone : ∀ r ∈ m.waiting, r.signal = some signal → r.id ≠ id :=
        fun r hr hsignal hid => hlistener ((h.sound.listening signal id).2 ⟨r, hr, hid, hsignal⟩)
      obtain ⟨hlast, hlastStuck, hwaits, hsettled, haborted⟩ := ih h hstuck
      refine ⟨hlast, hlastStuck, ?_, ?_, haborted⟩
      · intro q hq
        obtain ⟨hq, hnot⟩ := hwaits q hq
        refine ⟨hq, fun hsignal hin => ?_⟩
        rcases mem_cons.1 hin with hid | hin
        · exact hnone q hq hsignal hid
        · exact hnot hsignal hin
      · intro p
        rw [hsettled]
        refine or_congr_right ⟨?_, ?_⟩
        · rintro ⟨q, hq, hsignal, hin, rfl⟩
          exact ⟨q, hq, hsignal, mem_cons_of_mem _ hin, rfl⟩
        · rintro ⟨q, hq, hsignal, hin, rfl⟩
          rcases mem_cons.1 hin with hid | hin
          · exact absurd hid (hnone q hq hsignal)
          · exact ⟨q, hq, hsignal, hin, rfl⟩

theorem isAborted_iff : (m.aborted.any fun a => a.1 = signal) = true ↔ m.isAborted signal := by
  simp only [any_eq_true, decide_eq_true_eq, Manager.isAborted]

/-- Every request of the signal that waited is settled with its reason, and no other. -/
theorem Orderly.aborts (h : Orderly m) (hclear : Clear m signal) (reason : V) :
    Orderly (m.aborts signal reason) ∧ ∀ p, p ∈ (m.aborts signal reason).settlements ↔
      p ∈ m.settlements ∨ ∃ r ∈ m.waiting, r.signal = some signal ∧
        p = (r.id, .rejected (.value reason)) := by
  unfold Manager.aborts
  split
  · rename_i haborted
    rw [isAborted_iff] at haborted
    refine ⟨h, fun p => ⟨.inl, ?_⟩⟩
    rintro (hp | ⟨r, hr, hsignal, -⟩)
    · exact hp
    · exact absurd haborted (h.unaborted.waiting r hr signal hsignal)
  · have hstart : Aborting { m with aborted := m.aborted ++ [(signal, reason)] } signal := by
      have hnew : ∀ s, s ≠ signal →
          Manager.isAborted { m with aborted := m.aborted ++ [(signal, reason)] } s →
            m.isAborted s := by
        rintro s hne ⟨a, ha, rfl⟩
        rcases mem_append.1 ha with ha | ha
        · exact ⟨a, ha, rfl⟩
        · rw [mem_singleton.1 ha] at hne
          exact absurd rfl hne
      refine ⟨⟨{ h.sound.accounted with }, { h.sound.locked with }, h.sound.listening⟩,
        hclear.barred h.stuck, ?_, ?_⟩
      · intro r hr s hs haborted
        by_contra hne
        exact h.unaborted.waiting r hr s hs (hnew s hne haborted)
      · intro c hc hbegan s hs haborted
        refine h.unaborted.callback c hc hbegan s hs (hnew s ?_ haborted)
        rintro rfl
        rw [hclear.callback c hc hs] at hbegan
        cases hbegan
    have hids : ∀ r ∈ m.waiting, r.signal = some signal →
        r.id ∈ (m.listeners.filter fun l => l.1 = signal).map Prod.snd := by
      intro r hr hsignal
      have hlistener := (h.sound.listening signal r.id).2 ⟨r, hr, rfl, hsignal⟩
      exact mem_map.2 ⟨_, mem_filter.2 ⟨hlistener, by simp⟩, rfl⟩
    obtain ⟨hlast, hstuck, hwaits, hsettled, -⟩ := hstart.fire (h.stuck.mono rfl fun _ hin => hin)
      reason ((m.listeners.filter fun l => l.1 = signal).map Prod.snd)
    refine ⟨⟨hlast.sound, hstuck, ?_, hlast.callback⟩, fun p => ?_⟩
    · intro r hr s hs haborted
      obtain ⟨hr', hnot⟩ := hwaits r hr
      have heq := hlast.waiting r hr s hs haborted
      exact hnot (heq ▸ hs) (hids r hr' (heq ▸ hs))
    · rw [hsettled]
      refine or_congr_right ⟨?_, ?_⟩
      · rintro ⟨r, hr, hsignal, -, hp⟩
        exact ⟨r, hr, hsignal, hp⟩
      · rintro ⟨r, hr, hsignal, hp⟩
        exact ⟨r, hr, hsignal, hids r hr hsignal, hp⟩

end WebLocks

end Tabnode
