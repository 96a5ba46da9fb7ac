import Tabnode.Wasi.Memory

/-!
# What a poll reports

A guest polls a list of subscriptions, to clocks and to descriptors. A poll that finds a descriptor
ready reports such subscriptions, each once, and does not sleep. One that finds none sleeps for the
clock that is due first and reports that one. Absolute times are all measured by the realtime clock,
whatever clock a subscription names, and where there is no clock and nothing is ready a clock is
reported all the same, with the user data 0.
-/

namespace Tabnode

namespace Wasi

open Effect List

variable {η : Type}

/-! ## The guest's side -/

def numberIn (memory : List UInt8) (offset size : ℕ) : ℕ :=
  ByteNumber.ofLittle (bytesIn memory offset size)

/-- A subscription as the guest wrote it: to a clock (0), or to a descriptor that is to be read (1)
or written (2). -/
structure Subscription where
  userdata : ℕ
  type : ℕ
  fd : ℕ
  clockId : ℕ
  timeout : ℕ
  flags : ℕ

def subscriptionAt (memory : List UInt8) (position : ℕ) : Subscription where
  userdata := numberIn memory position 8
  type := numberIn memory (position + 8) 1
  fd := numberIn memory (position + 16) 4
  clockId := numberIn memory (position + 16) 4
  timeout := numberIn memory (position + 24) 8
  flags := numberIn memory (position + 40) 2

def subscriptionsAt (memory : List UInt8) : ℕ → ℕ → List Subscription
  | 0, _ => []
  | n + 1, position =>
    subscriptionAt memory position :: subscriptionsAt memory n (position + SIZE.subscription)

/-- An event as the guest reads it. -/
structure PollEvent where
  userdata : ℕ
  error : ℕ
  type : ℕ
  deriving DecidableEq

def eventsAt (memory : List UInt8) : ℕ → ℕ → List PollEvent
  | 0, _ => []
  | n + 1, position =>
    ⟨numberIn memory position 8, numberIn memory (position + 8) 2,
      numberIn memory (position + 10) 1⟩ :: eventsAt memory n (position + SIZE.event)

def isReady (w : World η) (s : Subscription) : Bool :=
  decide (s.type = 1 ∨ s.type = 2) &&
    match w.lookup s.fd RIGHT.POLL_FD_READWRITE with
    | .error _ => true
    | .ok descriptor =>
      match descriptor.kind with
      | .stream .stdin => decide (s.type = 1)
      | .stream _ => decide (s.type = 2)
      | _ => true

/-! ## Clocks -/

def reading : Except HostError ℚ → ℤ
  | .ok ms => nanosSince ms
  | .error _ => 0

def realtimeAt (host : Host η) (s : η) : ℤ := reading (host.answer s .realtime).1

def monotonicAt (host : Host η) (s : η) : ℤ := reading (host.answer s .monotonic).1

/-- What `clock_time_get` would answer of a clock, nothing of one that is not there. -/
def clockAt (host : Host η) (s : η) : ℕ → Option ℤ
  | 0 => some (realtimeAt host s)
  | 1 | 2 | 3 => some (monotonicAt host s)
  | _ => none

/-- The clocks of a host never go back, and a sleep lasts as long as it was to, by either. -/
structure KeepsTime (host : Host η) : Prop where
  realtime_le : ∀ s call, realtimeAt host s ≤ realtimeAt host (host.answer s call).2
  monotonic_le : ∀ s call, monotonicAt host s ≤ monotonicAt host (host.answer s call).2
  realtime_slept : ∀ s nanos,
    realtimeAt host s + nanos ≤ realtimeAt host (host.answer s (.sleep nanos)).2
  monotonic_slept : ∀ s nanos,
    monotonicAt host s + nanos ≤ monotonicAt host (host.answer s (.sleep nanos)).2

/-- The clock of a subscription has reached its time, an absolute one or one from the call on. -/
def Subscription.Due (host : Host η) (called returned : η) (s : Subscription) : Prop :=
  ∃ start now, clockAt host called s.clockId = some start ∧
    clockAt host returned s.clockId = some now ∧
      if s.flags = 1 then s.timeout ≤ now else start + s.timeout ≤ now

/-! ## Polls -/

def Reports (host : Host η) (subscriptions : List Subscription) (w w' : World η)
    (event : PollEvent) (index : ℕ) : Prop :=
  ∃ s, subscriptions[index]? = some s ∧ event.userdata = s.userdata ∧ event.type = s.type ∧
    (s.type = 0 → s.Due host w.host w'.host)

def Event.sleeps : Event η → Bool
  | .call _ (.sleep _) => true
  | _ => false

/-- A poll that reports what was asked, and nothing else. -/
structure Honest (host : Host η) (subscriptions : List Subscription) (w w' : World η)
    (events : List PollEvent) : Prop where
  nonempty : events ≠ []
  few : events.length ≤ subscriptions.length
  asked : ∃ order : List ℕ, order.Nodup ∧
    List.Forall₂ (Reports host subscriptions w w') events order
  awake : (∃ s ∈ subscriptions, isReady w s = true) →
    ∃ done, w'.history = w.history ++ done ∧ ∀ event ∈ done, event.sleeps = false

/-- Something is ready, or there is a clock and each of them is one that is measured by itself. -/
def Timely (subscriptions : List Subscription) (w : World η) : Prop :=
  (∃ s ∈ subscriptions, isReady w s = true) ∨
    ((∃ s ∈ subscriptions, s.type = 0) ∧
      ∀ s ∈ subscriptions, s.type = 0 → s.clockId < 4 ∧ (s.flags = 1 → s.clockId = 0))

/-! ## While it is awake -/

/-- What happens before a poll sleeps. -/
structure Awake (host : Host η) (w w' : World η) : Prop where
  table : w'.table = w.table
  realtime : realtimeAt host w.host ≤ realtimeAt host w'.host
  monotonic : monotonicAt host w.host ≤ monotonicAt host w'.host
  history : ∃ done, w'.history = w.history ++ done ∧ ∀ event ∈ done, event.sleeps = false

variable {host : Host η} {w : World η}

instance : IsPreorder (World η) (Awake host) where
  refl w := ⟨rfl, le_rfl, le_rfl, [], by simp, by simp⟩
  trans w w' w'' h h' := by
    obtain ⟨done, hhistory, hall⟩ := h.history
    obtain ⟨done', hhistory', hall'⟩ := h'.history
    refine ⟨h'.table.trans h.table, h.realtime.trans h'.realtime, h.monotonic.trans h'.monotonic,
      done ++ done', by rw [hhistory', hhistory, append_assoc], fun event hmem => ?_⟩
    exact (mem_append.1 hmem).elim (hall event) (hall' event)

theorem awake_loadNumber (size offset : ℕ) :
    Meets (Awake host) (fun _ => True) (loadNumber size offset : Syscall η ℕ) w fun a w' =>
      a = numberIn w.memory offset size ∧ w'.memory = w.memory := by
  have hload : Meets (Awake host) (fun _ => True) (load offset size : Syscall η (List UInt8)) w
      fun a w' => a = bytesIn w.memory offset size ∧ w'.memory = w.memory := by
    by_cases hfits : w.fits offset size = true
    · refine .of_run_ok (a := bytesIn w.memory offset size)
        (t := { w with history := w.history ++ [.load offset size] }) ?_ ?_ ⟨rfl, rfl⟩
      · rw [Effect.run, load, if_pos hfits]
        rfl
      · exact ⟨rfl, le_rfl, le_rfl, [.load offset size], rfl, by simp [Event.sleeps]⟩
    · refine .of_run_error (e := .thrown rangeError) (t := w) ?_ (Std.Refl.refl w) trivial
      rw [Effect.run, load, if_neg hfits]
  refine hload.map fun a w' _ h => ⟨?_, h.2⟩
  rw [h.1]
  rfl

theorem awake_ask (htime : KeepsTime host) (call : HostCall)
    (hcall : (Event.call w.host call).sleeps = false) :
    Meets (Awake host) (fun _ => True) (ask host call) w fun a w' =>
      (host.answer w.host call).1 = .ok a ∧ w'.host = (host.answer w.host call).2 ∧
        w'.memory = w.memory := by
  have hrun := run_ask host call w
  have hawake : Awake host w { w with
      host := (host.answer w.host call).2, history := w.history ++ [.call w.host call] } :=
    ⟨rfl, htime.realtime_le _ _, htime.monotonic_le _ _, [.call w.host call], rfl, by
      simpa using hcall⟩
  rcases hanswer : (host.answer w.host call).1 with e | a
  · rw [hanswer] at hrun
    exact .of_run_error hrun hawake trivial
  · rw [hanswer] at hrun
    exact .of_run_ok hrun hawake ⟨rfl, rfl, rfl⟩

/-! ## The subscriptions one by one -/

/-- What subscriptions that were gone through come to. -/
structure Sums (host : Host η) (w : World η) (seen : List Subscription) (polled : Polled)
    (now : η) : Prop where
  types : ∀ s ∈ seen, s.type ≤ 2
  ready : ∃ order : List ℕ, order.Pairwise (· < ·) ∧ (∀ i ∈ order, i < seen.length) ∧
    List.Forall₂ (fun (event : ReadyEvent) i => ∃ s, seen[i]? = some s ∧
      event.userdata = s.userdata ∧ event.type = s.type ∧ s.type ≠ 0) polled.ready order
  idle : polled.ready = [] ↔ ∀ s ∈ seen, isReady w s = false
  timeless : polled.timeout = none ↔ ∀ s ∈ seen, s.type ≠ 0
  timer : ∀ r, polled.timeout = some r → ∃ s ∈ seen, s.type = 0 ∧
    s.userdata = polled.timerUserdata ∧
      if s.flags = 1 then (s.timeout : ℤ) ≤ realtimeAt host now + r else (s.timeout : ℤ) = r

variable {seen : List Subscription} {polled : Polled} {now : η}

theorem Sums.later {now' : η} (h : Sums host w seen polled now)
    (hle : realtimeAt host now ≤ realtimeAt host now') : Sums host w seen polled now' where
  __ := h
  timer r hr := by
    obtain ⟨s, hs, htype, huserdata, htime⟩ := h.timer r hr
    refine ⟨s, hs, htype, huserdata, ?_⟩
    split_ifs at htime ⊢ with hflags
    · exact htime.trans (Int.add_le_add_right hle r)
    · exact htime

theorem sums_nil (w : World η) (now : η) : Sums host w [] {} now where
  types := by simp
  ready := ⟨[], .nil, by simp, .nil⟩
  idle := by simp
  timeless := by simp
  timer := by simp

/-- The subscriptions that were gone through are still where they were. -/
theorem Sums.ready_append (h : Sums host w seen polled now) (s : Subscription) :
    ∃ order : List ℕ, order.Pairwise (· < ·) ∧ (∀ i ∈ order, i < seen.length) ∧
      List.Forall₂ (fun (event : ReadyEvent) i => ∃ s', (seen ++ [s])[i]? = some s' ∧
        event.userdata = s'.userdata ∧ event.type = s'.type ∧ s'.type ≠ 0) polled.ready order := by
  obtain ⟨order, hpairwise, hlt, hall⟩ := h.ready
  refine ⟨order, hpairwise, hlt, hall.imp ?_⟩
  rintro event i ⟨s', hget, hrest⟩
  exact ⟨s', (List.getElem?_append_left (List.getElem?_eq_some_iff.1 hget).1).trans hget, hrest⟩

variable {s : Subscription}

theorem Sums.push (h : Sums host w seen polled now) (htype : s.type ≠ 0) (hle : s.type ≤ 2)
    (hready : isReady w s = true) (error : ℕ) (hangup : Bool) : Sums host w (seen ++ [s])
      { polled with ready := polled.ready ++ [⟨s.userdata, error, s.type, hangup⟩] } now where
  types := forall_mem_append.2 ⟨h.types, forall_mem_singleton.2 hle⟩
  ready := by
    obtain ⟨order, hpairwise, hlt, hall⟩ := h.ready_append s
    refine ⟨order ++ [seen.length], ?_, ?_, ?_⟩
    · refine pairwise_append.2 ⟨hpairwise, pairwise_singleton _ _, fun i hi j hj => ?_⟩
      rw [mem_singleton.1 hj]
      exact hlt i hi
    · intro i hi
      rw [length_append]
      rcases mem_append.1 hi with hi | hi
      · exact (hlt i hi).trans (Nat.lt_succ_self _)
      · rw [mem_singleton.1 hi]
        exact Nat.lt_succ_self _
    · refine rel_append hall (.cons ⟨s, ?_, rfl, rfl, htype⟩ .nil)
      exact getElem?_concat_length
  idle := by
    refine iff_of_false (by simp) fun hall => ?_
    rw [hall s (by simp)] at hready
    cases hready
  timeless := by
    rw [h.timeless, forall_mem_append, forall_mem_singleton]
    exact (and_iff_left htype).symm
  timer r hr := by
    obtain ⟨s', hs', hrest⟩ := h.timer r hr
    exact ⟨s', mem_append_left _ hs', hrest⟩

theorem Sums.skip (h : Sums host w seen polled now) (htype : s.type ≠ 0) (hle : s.type ≤ 2)
    (hready : isReady w s = false) : Sums host w (seen ++ [s]) polled now where
  types := forall_mem_append.2 ⟨h.types, forall_mem_singleton.2 hle⟩
  ready := by
    obtain ⟨order, hpairwise, hlt, hall⟩ := h.ready_append s
    refine ⟨order, hpairwise, fun i hi => ?_, hall⟩
    rw [length_append]
    exact (hlt i hi).trans (Nat.lt_succ_self _)
  idle := by
    rw [h.idle, forall_mem_append, forall_mem_singleton]
    exact (and_iff_left hready).symm
  timeless := by
    rw [h.timeless, forall_mem_append, forall_mem_singleton]
    exact (and_iff_left htype).symm
  timer r hr := by
    obtain ⟨s', hs', hrest⟩ := h.timer r hr
    exact ⟨s', mem_append_left _ hs', hrest⟩

theorem Sums.clock (h : Sums host w seen polled now) (htype : s.type = 0) {relative : ℤ}
    (hrelative : if s.flags = 1 then (s.timeout : ℤ) ≤ realtimeAt host now + relative
      else (s.timeout : ℤ) = relative) : Sums host w (seen ++ [s])
      (if (match polled.timeout with
          | none => true
          | some timeout => decide (relative < timeout)) then
        { polled with timeout := some relative, timerUserdata := s.userdata } else polled) now := by
  have htypes : ∀ s' ∈ seen ++ [s], s'.type ≤ 2 :=
    forall_mem_append.2 ⟨h.types, forall_mem_singleton.2 (by omega)⟩
  have hready : isReady w s = false := by simp [isReady, htype]
  have hidle : polled.ready = [] ↔ ∀ s' ∈ seen ++ [s], isReady w s' = false := by
    rw [h.idle, forall_mem_append, forall_mem_singleton]
    exact (and_iff_left hready).symm
  have hwere : ∃ order : List ℕ, order.Pairwise (· < ·) ∧
      (∀ i ∈ order, i < (seen ++ [s]).length) ∧
      List.Forall₂ (fun (event : ReadyEvent) i => ∃ s', (seen ++ [s])[i]? = some s' ∧
        event.userdata = s'.userdata ∧ event.type = s'.type ∧ s'.type ≠ 0) polled.ready order := by
    obtain ⟨order, hpairwise, hlt, hall⟩ := h.ready_append s
    refine ⟨order, hpairwise, fun i hi => ?_, hall⟩
    rw [length_append]
    exact (hlt i hi).trans (Nat.lt_succ_self _)
  split_ifs with hearliest
  · refine ⟨htypes, hwere, hidle, iff_of_false (by simp) fun hall => ?_, ?_⟩
    · exact hall s (by simp) htype
    · rintro r ⟨⟩
      exact ⟨s, by simp, htype, rfl, hrelative⟩
  · refine ⟨htypes, hwere, hidle, iff_of_false (fun hnone => ?_) fun hall => ?_, fun r hr => ?_⟩
    · rw [hnone] at hearliest
      exact hearliest rfl
    · exact hall s (by simp) htype
    · obtain ⟨s', hs', hrest⟩ := h.timer r hr
      exact ⟨s', mem_append_left _ hs', hrest⟩

/-! ## The loop -/

theorem awake_realtimeNanos (htime : KeepsTime host) :
    Meets (Awake host) (fun _ => True) (realtimeNanos host) w fun a w' =>
      a ≤ realtimeAt host w'.host ∧ w'.memory = w.memory := by
  refine (awake_ask htime .realtime rfl).map fun ms w' hrel h => ⟨?_, h.2.2⟩
  have hreading : realtimeAt host w.host = nanosSince ms := by rw [realtimeAt, h.1, reading]
  rw [← hreading]
  exact hrel.realtime

variable {start : World η} {position : ℕ}

theorem awake_pollClock (htime : KeepsTime host) (hsums : Sums host start seen polled w.host)
    (htype : (subscriptionAt w.memory position).type = 0) : Meets (Awake host) (fun _ => True)
      (pollClock host position (subscriptionAt w.memory position).userdata polled) w
      fun polled' w' => w'.memory = w.memory ∧
        Sums host start (seen ++ [subscriptionAt w.memory position]) polled' w'.host := by
  rw [pollClock]
  refine (awake_loadNumber 8 (position + 24)).bind fun clockTimeout w₁ hrel₁ h₁ => ?_
  refine (awake_loadNumber 2 (position + 40)).bind fun flags w₂ hrel₂ h₂ => ?_
  obtain ⟨rfl, hmemory₁⟩ := h₁
  obtain ⟨rfl, hmemory₂⟩ := h₂
  rw [hmemory₁] at hmemory₂ ⊢
  have hrelative : Meets (Awake host) (fun _ => True)
      (relativeTimeout host (numberIn w.memory (position + 24) 8)
        (numberIn w.memory (position + 40) 2)) w₂ fun relative w₃ => w₃.memory = w.memory ∧
          if (subscriptionAt w.memory position).flags = 1 then
            ((subscriptionAt w.memory position).timeout : ℤ) ≤
              realtimeAt host w₃.host + relative
          else ((subscriptionAt w.memory position).timeout : ℤ) = relative := by
    unfold relativeTimeout subscriptionAt
    dsimp only
    split_ifs with hflags
    · refine (awake_realtimeNanos htime).map fun now w₃ _ h => ⟨h.2.trans hmemory₂, ?_⟩
      linarith [h.1]
    · exact .pure ⟨hmemory₂, rfl⟩
  refine hrelative.bind fun relative w₃ hrel₃ h₃ => .pure ⟨h₃.1, ?_⟩
  refine (hsums.later ?_).clock htype h₃.2
  exact (hrel₁.realtime.trans hrel₂.realtime).trans hrel₃.realtime

variable {w' : World η}

theorem lookup_congr (h : w'.table = w.table) (fd : ℕ) (base inheriting : Rights) :
    w'.lookup fd base inheriting = w.lookup fd base inheriting := by
  rw [World.lookup, World.lookup, h]

theorem awake_modify {f : World η → World η} (htable : (f w).table = w.table)
    (hmemory : (f w).memory = w.memory) (hhost : (f w).host = w.host)
    (hhistory : (f w).history = w.history) :
    Meets (Awake host) (fun _ => True) (modify f : Syscall η Unit) w fun _ w' =>
      w'.memory = w.memory :=
  .of_run_ok (a := ()) rfl ⟨htable, by rw [hhost], by rw [hhost], [], by simp [hhistory], by simp⟩
    hmemory

/-- What the guest's stdin stream yields is taken without a sleep. -/
theorem awake_readStdin (htime : KeepsTime host) (length : ℕ) :
    Meets (Awake host) (fun _ => True) (readStdin host length) w fun _ w' =>
      w'.memory = w.memory := by
  refine meets_get_bind ?_
  have hpull : Meets (Awake host) (fun _ => True) (onlyIf w.stdinAwaits (pullStdin host)) w
      fun _ w' => w'.memory = w.memory := by
    unfold onlyIf pullStdin
    split_ifs
    · refine (awake_ask htime .readStream rfl).bind fun bytes w₁ _ h₁ => ?_
      rw [← h₁.2.2]
      cases bytes with
      | none | some _ => exact awake_modify rfl rfl rfl rfl
    · exact .pure rfl
  refine hpull.bind fun _ w₁ _ h₁ => meets_get_bind ?_
  rw [← h₁]
  exact (awake_modify rfl rfl rfl rfl).bind fun _ w₂ _ h₂ => .pure h₂

theorem awake_pollDescriptor (htime : KeepsTime host) (hsums : Sums host start seen polled w.host)
    (htable : w.table = start.table) (htype : (subscriptionAt w.memory position).type = 1 ∨
      (subscriptionAt w.memory position).type = 2) : Meets (Awake host) (fun _ => True)
      (pollDescriptor host position (subscriptionAt w.memory position).userdata
        (subscriptionAt w.memory position).type polled) w
      fun polled' w' => w'.memory = w.memory ∧
        Sums host start (seen ++ [subscriptionAt w.memory position]) polled' w'.host := by
  have hne : (subscriptionAt w.memory position).type ≠ 0 := by omega
  have hle : (subscriptionAt w.memory position).type ≤ 2 := by omega
  rw [pollDescriptor]
  refine (awake_loadNumber 4 (position + 16)).bind fun fd w₁ hrel₁ h₁ => meets_get_bind ?_
  obtain ⟨rfl, hmemory₁⟩ := h₁
  have hsums₁ := hsums.later hrel₁.realtime
  have hlookup : isReady start (subscriptionAt w.memory position) = (true &&
      match w₁.lookup (numberIn w.memory (position + 16) 4) RIGHT.POLL_FD_READWRITE with
      | .error _ => true
      | .ok descriptor =>
        match descriptor.kind with
        | .stream .stdin => decide ((subscriptionAt w.memory position).type = 1)
        | .stream _ => decide ((subscriptionAt w.memory position).type = 2)
        | _ => true) := by
    rw [isReady, decide_eq_true htype, ← lookup_congr (hrel₁.table.trans htable)]
    rfl
  rw [Bool.true_and] at hlookup
  dsimp only
  rcases hfound : w₁.lookup (numberIn w.memory (position + 16) 4) RIGHT.POLL_FD_READWRITE with
    errno | descriptor
  · rw [hfound] at hlookup
    exact .pure ⟨hmemory₁, hsums₁.push hne hle hlookup _ _⟩
  · rw [hfound] at hlookup
    dsimp only at hlookup ⊢
    rcases hkind : descriptor.kind with stream | file | _
    · rw [hkind] at hlookup
      cases stream with
      | stdin =>
        dsimp only at hlookup ⊢
        split_ifs with hread
        · rw [decide_eq_true hread] at hlookup
          have hpull : Meets (Awake host) (fun _ => True)
              (onlyIf w₁.stdinAwaits (discard (readStdin host 0))) w₁
              fun _ w' => w'.memory = w₁.memory := by
            unfold onlyIf
            split_ifs
            · exact (awake_readStdin htime 0).map fun _ _ _ h => h
            · exact .pure rfl
          refine hpull.bind fun _ w₂ hrel₂ h₂ => meets_get_bind (.pure ⟨h₂.trans hmemory₁, ?_⟩)
          exact (hsums₁.later hrel₂.realtime).push hne hle hlookup _ _
        · rw [decide_eq_false hread] at hlookup
          exact .pure ⟨hmemory₁, hsums₁.skip hne hle hlookup⟩
      | stdout | stderr =>
        dsimp only at hlookup ⊢
        split_ifs with hwrite
        · rw [decide_eq_true hwrite] at hlookup
          exact .pure ⟨hmemory₁, hsums₁.push hne hle hlookup _ _⟩
        · rw [decide_eq_false hwrite] at hlookup
          exact .pure ⟨hmemory₁, hsums₁.skip hne hle hlookup⟩
    · rw [hkind] at hlookup
      exact .pure ⟨hmemory₁, hsums₁.push hne hle hlookup _ _⟩
    · rw [hkind] at hlookup
      exact .pure ⟨hmemory₁, hsums₁.push hne hle hlookup _ _⟩

variable {n : ℕ}

theorem awake_pollLoop (htime : KeepsTime host) (hsums : Sums host start seen polled w.host)
    (htable : w.table = start.table) :
    Meets (Awake host) (fun _ => True) (pollLoop host n position polled) w
      fun polled' w' => w'.memory = w.memory ∧
        Sums host start (seen ++ subscriptionsAt w.memory n position) polled' w'.host := by
  induction n generalizing position polled seen w with
  | zero =>
    refine .pure ⟨rfl, ?_⟩
    rwa [subscriptionsAt, append_nil]
  | succ n ih =>
    rw [pollLoop]
    refine (awake_loadNumber 8 position).bind fun userdata w₁ hrel₁ h₁ => ?_
    refine (awake_loadNumber 1 (position + 8)).bind fun type w₂ hrel₂ h₂ => ?_
    obtain ⟨rfl, hmemory₁⟩ := h₁
    obtain ⟨rfl, hmemory₂⟩ := h₂
    rw [hmemory₁] at hmemory₂ ⊢
    have hsums₂ := hsums.later (hrel₁.realtime.trans hrel₂.realtime)
    have htable₂ := hrel₂.table.trans (hrel₁.table.trans htable)
    have hone : Meets (Awake host) (fun _ => True)
        (pollOne host (numberIn w.memory (position + 8) 1) position
          (numberIn w.memory position 8) polled) w₂ fun polled' w' => w'.memory = w₂.memory ∧
            Sums host start (seen ++ [subscriptionAt w₂.memory position]) polled' w'.host := by
      rw [← hmemory₂, pollOne]
      split_ifs with hclock hdescriptor
      · exact awake_pollClock htime hsums₂ hclock
      · exact awake_pollDescriptor htime hsums₂ htable₂ hdescriptor
      · exact .throw trivial
    refine hone.bind fun polled' w₃ hrel₃ h₃ => ?_
    obtain ⟨hmemory₃, hsums₃⟩ := h₃
    refine (ih hsums₃ (hrel₃.table.trans htable₂)).mono (fun _ h => h) (fun _ h => h) ?_
    intro polled'' w₄ _ h₄
    have hmemory := hmemory₃.trans hmemory₂
    rw [hmemory, hmemory₂, append_assoc, singleton_append] at h₄
    exact h₄

/-! ## The answer -/

theorem awake_store (offset : ℕ) (bytes : List UInt8) :
    Meets (Awake host) (fun _ => True) (store offset bytes : Syscall η Unit) w fun _ _ => True := by
  by_cases hfits : w.fits offset bytes.length = true
  · refine .of_run_ok (a := ()) (t := { w with
      memory := ByteHeap.overwrite w.memory offset bytes,
      history := w.history ++ [.store offset bytes.length] }) ?_ ?_ trivial
    · rw [Effect.run, store, if_pos hfits]
    · exact ⟨rfl, le_rfl, le_rfl, [.store offset bytes.length], rfl, by simp [Event.sleeps]⟩
  · refine .of_run_error (e := .thrown rangeError) (t := w) ?_ (Std.Refl.refl w) trivial
    rw [Effect.run, store, if_neg hfits]

theorem awake_putEvents (events : List ReadyEvent) (position : ℕ) :
    Meets (Awake host) (fun _ => True) (putEvents events position : Syscall η Unit) w
      fun _ _ => True := by
  induction events generalizing position w with
  | nil => exact .pure trivial
  | cons event events ih =>
    exact (awake_store _ _).bind fun _ _ _ _ => (awake_store _ _).bind fun _ _ _ _ =>
      (awake_store _ _).bind fun _ _ _ _ => (awake_store _ _).bind fun _ _ _ _ =>
        (awake_store _ _).bind fun _ _ _ _ => ih _

theorem run_putEvents {events : List ReadyEvent}
    (h : position + events.length * SIZE.event ≤ w.memory.length) :
    ∃ w', (putEvents events position : Syscall η Unit).run w = (.ok (), w') ∧
      Leaves (· = w.host) position (position + events.length * SIZE.event) w w' ∧
      eventsAt w'.memory events.length position = events.map fun event =>
        ⟨event.userdata % 256 ^ 8, event.error % 256 ^ 2, event.type % 256 ^ 1⟩ := by
  unfold SIZE.event at *
  induction events generalizing position w with
  | nil => exact ⟨w, rfl, ⟨rfl, rfl, rfl, fun _ _ => rfl⟩, rfl⟩
  | cons event events ih =>
    rw [length_cons] at h
    obtain ⟨w₁, hrun₁, h₁, huserdata⟩ :=
      @run_storeNumber _ (· = w.host) w 8 position event.userdata rfl (by omega)
    have hlength₁ := h₁.length
    obtain ⟨w₂, hrun₂, h₂, herror⟩ :=
      @run_storeNumber _ (· = w.host) w₁ 2 (position + 8) event.error h₁.good (by omega)
    have hlength₂ := h₂.length
    obtain ⟨w₃, hrun₃, h₃, htype⟩ :=
      @run_storeNumber _ (· = w.host) w₂ 1 (position + 10) event.type h₂.good (by omega)
    have hlength₃ := h₃.length
    obtain ⟨w₄, hrun₄, h₄, -⟩ :=
      @run_storeNumber _ (· = w.host) w₃ 8 (position + 16) 0 h₃.good (by omega)
    have hlength₄ := h₄.length
    obtain ⟨w₅, hrun₅, h₅, -⟩ := @run_storeNumber _ (· = w.host) w₄ 2 (position + 24)
      (if event.hangup then 1 else 0) h₄.good (by omega)
    have hlength₅ := h₅.length
    obtain ⟨w₆, hrun₆, h₆, hrest⟩ := @ih w₅ (position + 32) (by omega)
    have hleaves : Leaves (· = w.host) position (position + 32) w w₅ :=
      (h₁.mono le_rfl (by omega)).trans ((h₂.mono (by omega) (by omega)).trans
        ((h₃.mono (by omega) (by omega)).trans ((h₄.mono (by omega) (by omega)).trans
          (h₅.mono (by omega) (by omega)))))
    have hhost : w₅.host = w.host := h₅.good
    rw [hhost] at h₆
    refine ⟨w₆, ?_, ?_, ?_⟩
    · rw [Nat.cast_zero] at hrun₄
      rw [Nat.cast_ite, Nat.cast_one, Nat.cast_zero] at hrun₅
      rw [putEvents, setU64, Effect.run_bind_ok hrun₁, setU16, Effect.run_bind_ok hrun₂, setU8,
        Effect.run_bind_ok hrun₃, setU64, Effect.run_bind_ok hrun₄, setU16,
        Effect.run_bind_ok hrun₅]
      exact hrun₆
    · rw [length_cons]
      exact (hleaves.mono le_rfl (by omega)).trans (h₆.mono (by omega) (by omega))
    · rw [length_cons, eventsAt, map_cons]
      have hread : numberIn w₆.memory position 8 = event.userdata % 256 ^ 8 := by
        rw [numberIn, h₆.bytesIn (by omega), h₅.bytesIn (by omega), h₄.bytesIn (by omega),
          h₃.bytesIn (by omega), h₂.bytesIn (by omega), huserdata]
      have hreadError : numberIn w₆.memory (position + 8) 2 = event.error % 256 ^ 2 := by
        rw [numberIn, h₆.bytesIn (by omega), h₅.bytesIn (by omega), h₄.bytesIn (by omega),
          h₃.bytesIn (by omega), herror]
      have hreadType : numberIn w₆.memory (position + 10) 1 = event.type % 256 ^ 1 := by
        rw [numberIn, h₆.bytesIn (by omega), h₅.bytesIn (by omega), h₄.bytesIn (by omega), htype]
      rw [hread, hreadError, hreadType]
      exact congrArg _ hrest

theorem run_sleepUntil (htime : KeepsTime host) {timeout : Option ℤ}
    (h : (sleepUntil host timeout).run w = (.ok (), w')) :
    w'.memory = w.memory ∧ ∀ relative ∈ timeout,
      realtimeAt host w.host + relative ≤ realtimeAt host w'.host ∧
        monotonicAt host w.host + relative ≤ monotonicAt host w'.host ∧
        monotonicAt host w.host ≤ monotonicAt host w'.host ∧
        realtimeAt host w.host ≤ realtimeAt host w'.host := by
  cases timeout with
  | none =>
    cases h
    exact ⟨rfl, by simp⟩
  | some relative =>
    rw [sleepUntil, sleepNanos] at h
    split_ifs at h with hle
    · cases h
      refine ⟨rfl, fun r hr => ?_⟩
      cases hr
      exact ⟨by omega, by omega, le_rfl, le_rfl⟩
    · rw [run_ask] at h
      have hstate := congrArg Prod.snd h
      dsimp only at hstate
      rw [← hstate]
      refine ⟨rfl, fun r hr => ?_⟩
      cases hr
      exact ⟨htime.realtime_slept _ _, htime.monotonic_slept _ _, htime.monotonic_le _ _,
        htime.realtime_le _ _⟩

theorem length_subscriptionsAt (memory : List UInt8) (n position : ℕ) :
    (subscriptionsAt memory n position).length = n := by
  induction n generalizing position with
  | zero => rfl
  | succ n ih => rw [subscriptionsAt, length_cons, ih]

theorem numberIn_lt (memory : List UInt8) (offset size : ℕ) :
    numberIn memory offset size < 256 ^ size := by
  refine (ByteNumber.ofLittle_lt _).trans_le (Nat.pow_le_pow_right (by omega) ?_)
  rw [bytesIn]
  exact length_take_le _ _

theorem eventsAt_congr {memory memory' : List UInt8}
    (h : ∀ offset size, position ≤ offset → offset + size ≤ position + n * SIZE.event →
      bytesIn memory' offset size = bytesIn memory offset size) :
    eventsAt memory' n position = eventsAt memory n position := by
  unfold SIZE.event at h
  induction n generalizing position with
  | zero => rfl
  | succ n ih =>
    rw [eventsAt, eventsAt, numberIn, numberIn, numberIn, h _ _ (by omega) (by omega),
      h _ _ (by omega) (by omega), h _ _ (by omega) (by omega)]
    exact congrArg _ (ih fun offset size hlow hhigh => h _ _ (by unfold SIZE.event at hlow; omega)
      (by unfold SIZE.event at hhigh; omega))

theorem userdata_lt {memory : List UInt8}
    (h : s ∈ subscriptionsAt memory n position) : s.userdata < 256 ^ 8 := by
  induction n generalizing position with
  | zero => cases h
  | succ n ih =>
    rcases mem_cons.1 h with rfl | h
    · exact numberIn_lt _ _ _
    · exact ih h

theorem fits_of_run {offset size : ℕ}
    (h : (checkFits offset size : Syscall η Unit).run w = (.ok (), w')) :
    w = w' ∧ offset + size ≤ w.memory.length := by
  rw [checkFits, Effect.run_get_bind] at h
  rcases hfits : w.fits offset size
  · rw [hfits] at h
    cases h
  · rw [hfits] at h
    cases h
    exact ⟨rfl, by simpa [World.fits] using hfits⟩

theorem of_run_require {condition : Bool} {errno : Errno}
    (h : (require condition errno : Syscall η Unit).run w = (.ok (), w')) :
    w = w' ∧ condition = true := by
  cases condition with
  | true =>
    cases h
    exact ⟨rfl, rfl⟩
  | false => cases h

variable {inPtr outPtr neventsPtr : ℕ}

theorem run_poll (htime : KeepsTime host)
    (hrun : (poll_oneoff host inPtr outPtr n neventsPtr).run w = (.ok (), w')) :
    ∃ polled w₁, Awake host w w₁ ∧ w₁.memory = w.memory ∧ n ≠ 0 ∧
      outPtr + n * SIZE.event ≤ w.memory.length ∧ neventsPtr + 4 ≤ w.memory.length ∧
      Sums host w (subscriptionsAt w.memory n inPtr) polled w₁.host ∧
      (if polled.ready.isEmpty then (do
          sleepUntil host polled.timeout
          setU64 outPtr polled.timerUserdata
          setU16 (outPtr + 8) 0
          setU8 (outPtr + 10) 0
          setU32 neventsPtr 1)
        else (do
          putEvents polled.ready outPtr
          setU32 neventsPtr polled.ready.length) : Syscall η Unit).run w₁ = (.ok (), w') := by
  rw [poll_oneoff] at hrun
  obtain ⟨⟨⟩, _, hin, hrun₁⟩ := Effect.run_bind_eq_ok hrun
  obtain ⟨⟨⟩, _, hout, hrun₂⟩ := Effect.run_bind_eq_ok hrun₁
  obtain ⟨⟨⟩, _, hnevents, hrun₃⟩ := Effect.run_bind_eq_ok hrun₂
  obtain ⟨⟨⟩, _, hpositive, hrun₄⟩ := Effect.run_bind_eq_ok hrun₃
  obtain ⟨polled, w₁, hloop, hrun₅⟩ := Effect.run_bind_eq_ok hrun₄
  obtain ⟨rfl, -⟩ := fits_of_run hin
  obtain ⟨rfl, hfits⟩ := fits_of_run hout
  obtain ⟨rfl, hcount⟩ := fits_of_run hnevents
  obtain ⟨rfl, hsome⟩ := of_run_require hpositive
  have hmeets := @awake_pollLoop _ host w [] {} w inPtr n htime (sums_nil _ _) rfl
  have hrel := hmeets.rel
  have hok := hmeets.ok polled
  rw [hloop] at hrel hok
  obtain ⟨hmemory, hsums⟩ := hok rfl
  rw [nil_append] at hsums
  exact ⟨polled, w₁, hrel, hmemory, by simpa using hsome, hfits, hcount, hsums, hrun₅⟩

theorem honest_of_ready (htime : KeepsTime host) (hn : n < 256 ^ 4)
    (happart : outPtr + n * SIZE.event ≤ neventsPtr ∨ neventsPtr + 4 ≤ outPtr)
    (hrun : (poll_oneoff host inPtr outPtr n neventsPtr).run w = (.ok (), w'))
    (hready : ∃ s ∈ subscriptionsAt w.memory n inPtr, isReady w s = true) :
    Honest host (subscriptionsAt w.memory n inPtr) w w'
      (eventsAt w'.memory (numberIn w'.memory neventsPtr 4) outPtr) := by
  obtain ⟨polled, w₁, hawake, hmemory, -, hout, hnevents, hsums, hanswer⟩ := run_poll htime hrun
  have hne : polled.ready ≠ [] := by
    intro hnil
    obtain ⟨s, hs, hready⟩ := hready
    rw [hsums.idle.1 hnil s hs] at hready
    cases hready
  obtain ⟨order, hpairwise, hlt, hall⟩ := hsums.ready
  rw [length_subscriptionsAt] at hlt
  have hnodup : order.Nodup := hpairwise.imp Nat.ne_of_lt
  have hfew : polled.ready.length ≤ n := by
    rw [hall.length_eq]
    have hsub := (hnodup.subperm fun i hi => mem_range.2 (hlt i hi)).length_le
    rwa [length_range] at hsub
  have hsize : polled.ready.length * SIZE.event ≤ n * SIZE.event := Nat.mul_le_mul_right _ hfew
  rw [if_neg (by simpa using hne)] at hanswer
  obtain ⟨w₂, hput, hleaves, hevents⟩ := @run_putEvents _ w₁ outPtr polled.ready (by
    rw [hmemory]
    omega)
  have hlength : w₂.memory.length = w.memory.length := by rw [hleaves.length, hmemory]
  obtain ⟨w₃, hcount, hleaves₃, hread⟩ :=
    @run_storeNumber _ (· = w₁.host) w₂ 4 neventsPtr polled.ready.length hleaves.good (by omega)
  rw [Effect.run_bind_ok hput, setU32, hcount] at hanswer
  have hsame : w₃ = w' := congrArg Prod.snd hanswer
  subst hsame
  have hnumber : numberIn w₃.memory neventsPtr 4 = polled.ready.length := by
    rw [numberIn, hread, Nat.mod_eq_of_lt (by omega)]
  have happear : eventsAt w₃.memory polled.ready.length outPtr =
      polled.ready.map fun event =>
        ⟨event.userdata % 256 ^ 8, event.error % 256 ^ 2, event.type % 256 ^ 1⟩ := by
    rw [← hevents]
    exact eventsAt_congr fun offset size hlow hhigh => hleaves₃.bytesIn (by omega)
  rw [hnumber, happear]
  refine ⟨by simpa using hne, by simpa [length_subscriptionsAt] using hfew, ⟨order, hnodup, ?_⟩,
    fun _ => ?_⟩
  · rw [forall₂_map_left_iff]
    refine hall.imp ?_
    rintro event i ⟨s, hget, huserdata, htype, hclock⟩
    have hs := mem_of_getElem? hget
    have hle := hsums.types s hs
    refine ⟨s, hget, ?_, ?_, fun hzero => absurd hzero hclock⟩
    · dsimp only
      rw [huserdata, Nat.mod_eq_of_lt (userdata_lt hs)]
    · dsimp only
      rw [htype, Nat.mod_eq_of_lt (by omega)]
  · have hputs := (@awake_putEvents _ host w₁ polled.ready outPtr).rel
    rw [hput] at hputs
    have hcounts := (@awake_store _ host w₂ neventsPtr
      (ByteNumber.toLittle 4 ((polled.ready.length : ℤ) % 256 ^ 4).toNat)).rel
    rw [storeNumber] at hcount
    rw [hcount] at hcounts
    exact (IsTrans.trans _ _ _ hawake (IsTrans.trans _ _ _ hputs hcounts)).history

/-- A poll that finds nothing ready reports a clock, behind a sleep if there is one. -/
theorem run_idle (htime : KeepsTime host)
    (happart : outPtr + n * SIZE.event ≤ neventsPtr ∨ neventsPtr + 4 ≤ outPtr)
    (hrun : (poll_oneoff host inPtr outPtr n neventsPtr).run w = (.ok (), w'))
    (hidle : ∀ s ∈ subscriptionsAt w.memory n inPtr, isReady w s = false) :
    ∃ polled w₁ w₂, Awake host w w₁ ∧ n ≠ 0 ∧
      Sums host w (subscriptionsAt w.memory n inPtr) polled w₁.host ∧
      (sleepUntil host polled.timeout).run w₁ = (.ok (), w₂) ∧ w'.host = w₂.host ∧
      eventsAt w'.memory (numberIn w'.memory neventsPtr 4) outPtr =
        [⟨polled.timerUserdata % 256 ^ 8, 0, 0⟩] := by
  obtain ⟨polled, w₁, hawake, hmemory, hpositive, hout, hnevents, hsums, hanswer⟩ :=
    run_poll htime hrun
  have hnil : polled.ready.isEmpty = true := by rw [hsums.idle.2 hidle, isEmpty_nil]
  rw [if_pos hnil] at hanswer
  obtain ⟨⟨⟩, w₂, hsleep, hanswer⟩ := Effect.run_bind_eq_ok hanswer
  have hlength₂ : w₂.memory.length = w.memory.length := by
    rw [(run_sleepUntil htime hsleep).1, hmemory]
  have hsize : SIZE.event ≤ n * SIZE.event :=
    Nat.le_mul_of_pos_left _ (Nat.pos_of_ne_zero hpositive)
  unfold SIZE.event at *
  obtain ⟨w₃, hrun₃, h₃, huserdata⟩ :=
    @run_storeNumber _ (· = w₂.host) w₂ 8 outPtr polled.timerUserdata rfl (by omega)
  have hlength₃ := h₃.length
  obtain ⟨w₄, hrun₄, h₄, herror⟩ :=
    @run_storeNumber _ (· = w₂.host) w₃ 2 (outPtr + 8) 0 h₃.good (by omega)
  have hlength₄ := h₄.length
  obtain ⟨w₅, hrun₅, h₅, htype⟩ :=
    @run_storeNumber _ (· = w₂.host) w₄ 1 (outPtr + 10) 0 h₄.good (by omega)
  have hlength₅ := h₅.length
  obtain ⟨w₆, hrun₆, h₆, hcount⟩ :=
    @run_storeNumber _ (· = w₂.host) w₅ 4 neventsPtr 1 h₅.good (by omega)
  rw [Nat.cast_zero] at hrun₄ hrun₅
  rw [Nat.cast_one] at hrun₆
  rw [setU64, Effect.run_bind_ok hrun₃, setU16, Effect.run_bind_ok hrun₄, setU8,
    Effect.run_bind_ok hrun₅, setU32, hrun₆] at hanswer
  have hsame : w₆ = w' := congrArg Prod.snd hanswer
  subst hsame
  refine ⟨polled, w₁, w₂, hawake, hpositive, hsums, hsleep, h₆.good, ?_⟩
  have hnumber : numberIn w₆.memory neventsPtr 4 = 1 := by
    rw [numberIn, hcount, Nat.mod_eq_of_lt (by omega)]
  have hreadUserdata : numberIn w₆.memory outPtr 8 = polled.timerUserdata % 256 ^ 8 := by
    rw [numberIn, h₆.bytesIn (by omega), h₅.bytesIn (by omega), h₄.bytesIn (by omega), huserdata]
  have hreadError : numberIn w₆.memory (outPtr + 8) 2 = 0 := by
    rw [numberIn, h₆.bytesIn (by omega), h₅.bytesIn (by omega), herror, Nat.zero_mod]
  have hreadType : numberIn w₆.memory (outPtr + 10) 1 = 0 := by
    rw [numberIn, h₆.bytesIn (by omega), htype, Nat.zero_mod]
  rw [hnumber, eventsAt, eventsAt, hreadUserdata, hreadError, hreadType]

/-- A clock that is known is as late as the two clocks of the host. -/
theorem clockAt_cases (host : Host η) {id : ℕ} (hid : id < 4) :
    (id = 0 ∧ ∀ s, clockAt host s id = some (realtimeAt host s)) ∨
      (id ≠ 0 ∧ ∀ s, clockAt host s id = some (monotonicAt host s)) := by
  match id, hid with
  | 0, _ => exact .inl ⟨rfl, fun _ => rfl⟩
  | 1, _ | 2, _ | 3, _ => exact .inr ⟨by decide, fun _ => rfl⟩

theorem honest_of_clock (htime : KeepsTime host)
    (happart : outPtr + n * SIZE.event ≤ neventsPtr ∨ neventsPtr + 4 ≤ outPtr)
    (hrun : (poll_oneoff host inPtr outPtr n neventsPtr).run w = (.ok (), w'))
    (hidle : ∀ s ∈ subscriptionsAt w.memory n inPtr, isReady w s = false)
    (hclock : ∃ s ∈ subscriptionsAt w.memory n inPtr, s.type = 0)
    (htimed : ∀ s ∈ subscriptionsAt w.memory n inPtr, s.type = 0 →
      s.clockId < 4 ∧ (s.flags = 1 → s.clockId = 0)) :
    Honest host (subscriptionsAt w.memory n inPtr) w w'
      (eventsAt w'.memory (numberIn w'.memory neventsPtr 4) outPtr) := by
  obtain ⟨polled, w₁, w₂, hawake, hpositive, hsums, hsleep, hhost, hevents⟩ :=
    run_idle htime happart hrun hidle
  rw [hevents]
  have hsome : polled.timeout ≠ none := by
    intro hnone
    obtain ⟨s, hs, htype⟩ := hclock
    exact hsums.timeless.1 hnone s hs htype
  obtain ⟨relative, hrelative⟩ := Option.ne_none_iff_exists'.1 hsome
  obtain ⟨s, hs, htype, huserdata, hleft⟩ := hsums.timer relative hrelative
  obtain ⟨hknown, habsolute⟩ := htimed s hs htype
  obtain ⟨hrealtime, hmonotonic, hmonotonic', hrealtime'⟩ :=
    (run_sleepUntil htime hsleep).2 relative hrelative
  obtain ⟨i, hi, hget⟩ := mem_iff_getElem.1 hs
  refine ⟨by simp, ?_, ⟨[i], nodup_singleton i, .cons ?_ .nil⟩, fun ⟨s', hs', hready⟩ => ?_⟩
  · rw [length_subscriptionsAt]
    exact Nat.one_le_iff_ne_zero.2 hpositive
  · refine ⟨s, List.getElem?_eq_some_iff.2 ⟨hi, hget⟩, ?_, htype.symm, fun _ => ?_⟩
    · dsimp only
      rw [← huserdata, Nat.mod_eq_of_lt (userdata_lt hs)]
    · have hstart := hawake.realtime
      have hstart' := hawake.monotonic
      rw [Subscription.Due, hhost]
      rcases clockAt_cases host hknown with ⟨-, hclock⟩ | ⟨hne, hclock⟩
      · refine ⟨_, _, hclock _, hclock _, ?_⟩
        split_ifs at hleft ⊢ with hflags
        · linarith
        · linarith
      · refine ⟨_, _, hclock _, hclock _, ?_⟩
        split_ifs at hleft ⊢ with hflags
        · exact absurd (habsolute hflags) hne
        · linarith
  · rw [hidle s' hs'] at hready
    cases hready

/-- A poll of descriptors alone, none of them ready, reports what nobody asked for. -/
theorem not_honest_of_nothing (htime : KeepsTime host)
    (happart : outPtr + n * SIZE.event ≤ neventsPtr ∨ neventsPtr + 4 ≤ outPtr)
    (hrun : (poll_oneoff host inPtr outPtr n neventsPtr).run w = (.ok (), w'))
    (hidle : ∀ s ∈ subscriptionsAt w.memory n inPtr, isReady w s = false)
    (hclock : ∀ s ∈ subscriptionsAt w.memory n inPtr, s.type ≠ 0) :
    ¬Honest host (subscriptionsAt w.memory n inPtr) w w'
      (eventsAt w'.memory (numberIn w'.memory neventsPtr 4) outPtr) := by
  obtain ⟨polled, w₁, w₂, -, -, -, -, -, hevents⟩ := run_idle htime happart hrun hidle
  intro hhonest
  obtain ⟨order, -, hall⟩ := hhonest.asked
  rw [hevents] at hall
  obtain ⟨i, rest, ⟨s, hget, -, htype, -⟩, -⟩ := forall₂_cons_left_iff.1 hall
  exact hclock s (mem_of_getElem? hget) htype.symm

/-! ## Polls of the guest -/

/-- A host whose clocks move in sleeps alone, a millisecond for each nanosecond, and which started
a second after the epoch. -/
def drowsyHost : Host ℕ where
  answer s call :=
    match call with
    | .realtime => (.ok ((s + 1000 : ℕ) : ℚ), s)
    | .monotonic => (.ok (s : ℚ), s)
    | .sleep nanos => (.ok (), s + nanos.toNat)
    | _ => (.error ⟨none⟩, s)
  isTTY _ := false
  hasUtimes := false
  hasReadlink := false
  hasSymlink := false

theorem nanosSince_natCast (n : ℕ) : nanosSince n = n * 1000000 := by
  have hround : JsNumber.round 0 = .finite 0 := by decide
  have hfloor : ⌊(n : ℚ)⌋ = n := Int.floor_natCast n
  rw [nanosSince, hfloor, Int.cast_natCast, sub_self, zero_mul, hround, valueOf]
  norm_num

theorem keepsTime_drowsyHost : KeepsTime drowsyHost := by
  have hrealtime : ∀ s, realtimeAt drowsyHost s = ((s + 1000 : ℕ) : ℤ) * 1000000 :=
    fun s => nanosSince_natCast (s + 1000)
  have hmonotonic : ∀ s, monotonicAt drowsyHost s = (s : ℤ) * 1000000 :=
    fun s => nanosSince_natCast s
  have hle : ∀ s call, s ≤ (drowsyHost.answer s call).2 := by
    intro s call
    cases call with
    | sleep nanos => exact Nat.le_add_right _ _
    | _ => exact le_rfl
  have hslept : ∀ s nanos, (drowsyHost.answer s (.sleep nanos)).2 = s + nanos.toNat :=
    fun _ _ => rfl
  refine ⟨fun s call => ?_, fun s call => ?_, fun s nanos => ?_, fun s nanos => ?_⟩
  · have := hle s call
    rw [hrealtime, hrealtime]
    omega
  · have := hle s call
    rw [hmonotonic, hmonotonic]
    omega
  · rw [hrealtime, hrealtime, hslept]
    omega
  · rw [hmonotonic, hmonotonic, hslept]
    omega

def polledMemory (subscription : List UInt8) : List UInt8 :=
  subscription ++ List.replicate (84 - subscription.length) 0

def outputWorld (subscription : List UInt8) : World ℕ :=
  { emptyWorld (polledMemory subscription) 0 with
    table := [(1, streamDescriptor .stdout false)] }

def clockBytes : List UInt8 := [7] ++ List.replicate 23 0 ++ [5]

def outputBytes : List UInt8 := [7] ++ List.replicate 7 0 ++ [1] ++ List.replicate 7 0 ++ [1]

end Wasi

end Tabnode
