import Mathlib.Data.Set.Insert
import Mathlib.Logic.Function.Basic
import Tabnode.SocketBridge.Outcome

/-!
# The course of one client

What concerns one client is its `Course`: the bridges whose table has it, the bridges that
have yet to take it, its carriers, the bridges that refused it and what its page was told.
`Turn` lists what can happen to it while no bridge speaks against another: a connection is
told of when no other was, and the client's close is told by the last bridge that had to do
with it. Every such turn keeps the course orderly (`Course.Orderly.turn`).
-/

namespace Tabnode

namespace SocketBridge

open List

variable {M : Type*}

def Post.isClose : Post M → Bool
  | .close _ _ _ => true
  | _ => false

/-- What concerns one client. -/
@[ext] structure Course (M : Type*) where
  held : Set ℕ
  awaited : Set ℕ
  carrier : ℕ → Option (Carried M)
  refusing : Option (List ℕ)
  told : List (Post M)

namespace Course

variable (s : Course M)

def Closed : Prop := ∃ p ∈ s.told, p.isClose = true

def Pending (k : ℕ) : Prop := k ∈ s.held ∨ k ∈ s.awaited

def Others (k : ℕ) : Prop := ∃ j, j ≠ k ∧ s.Pending j

def Taken : Prop := ∃ k, s.carrier k ≠ none

def Announced (k : ℕ) : Prop := ∃ o, s.carrier k = some o ∧ o.announced = true

def setCarrier (k : ℕ) (o : Carried M) : Course M :=
  { s with carrier := Function.update s.carrier k (some o) }

def drop (k : ℕ) (o : Carried M) : Course M :=
  { s.setCarrier k o with held := s.held \ {k} }

def tell (p : Post M) : Course M := { s with refusing := none, told := s.told ++ [p] }

end Course

/-- What the page is told of one connection: nothing, or that it is made and its messages. -/
inductive Opening (s : Course M) : List (Post M) → Prop where
  | silent (h : ∀ k, ¬ s.Announced k) : Opening s []
  | connected {k : ℕ} {o : Carried M} {messages : List M} {protocol extensions : String}
      {setCookie : List String} (hcarrier : s.carrier k = some o) (hannounced : o.announced = true)
      (honly : ∀ j, s.Announced j → j = k) (hmessages : messages <+: o.received)
      (hlive : o.live → messages = o.received) :
      Opening s (.connected protocol extensions setCookie :: messages.map .message)

def Ending (told : List (Post M)) : Prop :=
  told = [] ∨ ∃ code reason wasClean, told = [.close code reason wasClean]

/-- The client's bridges agree on it, and the page is told in order and once. -/
structure Course.Orderly (s : Course M) : Prop where
  sound : ∀ k o, s.carrier k = some o → o.Sound
  held_iff : ∀ k, k ∈ s.held ↔ ∃ o, s.carrier k = some o ∧ o.live
  finished : s.Closed → ∀ k, ¬ s.Pending k
  refusing : s.refusing ≠ none → s.Taken ∧ ¬ s.Closed
  taken : s.Taken → ¬ s.Closed → ∃ k, s.Pending k
  story : ∃ opening ending, s.told = opening ++ ending ∧ Opening s opening ∧ Ending ending

/-- What can happen to a client. -/
inductive Turn (s : Course M) : Course M → Prop where
  | gains {ks} (hopen : ¬ s.Closed) : Turn s { s with awaited := s.awaited ∪ ks }
  | loses {k} (h : k ∈ s.awaited → s.Taken → s.Others k) :
      Turn s { s with awaited := s.awaited \ {k} }
  | takes {k framing} (hawaited : k ∈ s.awaited) (hnone : s.carrier k = none) :
      Turn s { s.setCarrier k (.new framing) with
        held := insert k s.held, awaited := s.awaited \ {k} }
  | turnsAway {k code reason wasClean} (hawaited : k ∈ s.awaited) (hnone : s.carrier k = none)
      (hlast : ¬ s.Others k) :
      Turn s { s.tell (.close code reason wasClean) with awaited := s.awaited \ {k} }
  | keeps {k o o'} (hcarrier : s.carrier k = some o) (hsound : o'.Sound)
      (hlive : o'.live ↔ o.live) (hannounced : o'.announced = o.announced)
      (hreceived : o'.received = o.received) : Turn s (s.setCarrier k o')
  | mutes {k o o'} (hcarrier : s.carrier k = some o) (hsound : o'.Sound) (hdead : ¬ o.live)
      (hdead' : ¬ o'.live) (hannounced : o'.announced = o.announced)
      (hreceived : o.received <+: o'.received) : Turn s (s.setCarrier k o')
  | connects {k o o' protocol extensions setCookie} (hcarrier : s.carrier k = some o)
      (hsound : o'.Sound) (hlive : o.live) (hlive' : o'.live) (hsilent : o.announced = false)
      (hannounced : o'.announced = true) (hreceived : o'.received = [])
      (hfirst : ∀ j, j ≠ k → ¬ s.Announced j) :
      Turn s ((s.setCarrier k o').tell (.connected protocol extensions setCookie))
  | tells {k o o' payload} (hcarrier : s.carrier k = some o) (hsound : o'.Sound)
      (hlive : o.live) (hlive' : o'.live) (hannounced : o.announced = true)
      (hannounced' : o'.announced = true) (hreceived : o'.received = o.received ++ [payload]) :
      Turn s { s.setCarrier k o' with told := s.told ++ [.message payload] }
  | ends {k o o' code reason wasClean} (hcarrier : s.carrier k = some o) (hsound : o'.Sound)
      (hlive : o.live) (hdead : ¬ o'.live) (hannounced : o'.announced = o.announced)
      (hreceived : o'.received = o.received) (hlast : ¬ s.Others k)
      (hawaited : k ∉ s.awaited) : Turn s ((s.drop k o').tell (.close code reason wasClean))
  | refuses {k o o' refusing} (hcarrier : s.carrier k = some o) (hsound : o'.Sound)
      (hlive : o.live) (hdead : ¬ o'.live) (hannounced : o'.announced = o.announced)
      (hreceived : o'.received = o.received) (hothers : s.Others k) :
      Turn s { s.drop k o' with refusing := some refusing }

variable {s t : Course M} {k j : ℕ} {o o' : Carried M} {opening : List (Post M)}

/-! ## Carriers and the table -/

theorem Course.carrier_setCarrier_self : (s.setCarrier k o).carrier k = some o :=
  Function.update_self ..

theorem Course.carrier_setCarrier_of_ne (h : j ≠ k) :
    (s.setCarrier k o).carrier j = s.carrier j :=
  Function.update_of_ne h ..

theorem Course.announced_setCarrier_self :
    (s.setCarrier k o).Announced k ↔ o.announced = true := by
  simp [Course.Announced, Course.carrier_setCarrier_self]

theorem Course.announced_setCarrier_of_ne (h : j ≠ k) :
    (s.setCarrier k o).Announced j ↔ s.Announced j := by
  simp [Course.Announced, Course.carrier_setCarrier_of_ne h]

/-- A carrier that tells the page of its connection no more and no less than before leaves
every bridge's word as it was. -/
theorem Course.announced_setCarrier (hcarrier : s.carrier k = some o)
    (hannounced : o'.announced = o.announced) :
    (s.setCarrier k o').Announced j ↔ s.Announced j := by
  by_cases hj : j = k
  · subst hj
    rw [Course.announced_setCarrier_self, hannounced, Course.Announced, hcarrier]
    simp
  · exact Course.announced_setCarrier_of_ne hj

theorem Course.taken_of_carrier (hcarrier : s.carrier k = some o) : s.Taken :=
  ⟨k, by simp [hcarrier]⟩

theorem Course.sound_setCarrier (hs : ∀ j p, s.carrier j = some p → p.Sound) (ho : o.Sound) :
    ∀ j p, (s.setCarrier k o).carrier j = some p → p.Sound := by
  intro j p hp
  by_cases hj : j = k
  · subst hj
    rw [Course.carrier_setCarrier_self] at hp
    cases hp
    exact ho
  · exact hs j p (Course.carrier_setCarrier_of_ne hj ▸ hp)

theorem Course.mem_held_of_live (hs : s.Orderly) (hcarrier : s.carrier k = some o)
    (hlive : o.live) : k ∈ s.held :=
  (hs.held_iff k).2 ⟨o, hcarrier, hlive⟩

theorem Course.held_iff_setCarrier (hs : s.Orderly) (hcarrier : s.carrier k = some o)
    (hlive : o'.live ↔ o.live) :
    ∀ j, j ∈ s.held ↔ ∃ p, (s.setCarrier k o').carrier j = some p ∧ p.live := by
  intro j
  rw [hs.held_iff j]
  by_cases hj : j = k
  · subst hj
    rw [Course.carrier_setCarrier_self, hcarrier]
    simp [hlive]
  · rw [Course.carrier_setCarrier_of_ne hj]

theorem Course.held_iff_drop (hs : s.Orderly) (hdead : ¬ o.live) :
    ∀ j, j ∈ s.held \ {k} ↔ ∃ p, (s.setCarrier k o).carrier j = some p ∧ p.live := by
  intro j
  by_cases hj : j = k
  · subst hj
    rw [Course.carrier_setCarrier_self]
    simp [hdead]
  · rw [Course.carrier_setCarrier_of_ne hj, ← hs.held_iff j]
    simp [hj]

theorem Course.Orderly.not_closed (hs : s.Orderly) (hk : s.Pending k) : ¬ s.Closed :=
  fun hclosed => hs.finished hclosed k hk

/-! ## What the page is told -/

theorem Opening.not_close (h : Opening s opening) : ∀ p ∈ opening, p.isClose = false := by
  cases h with
  | silent _ => simp
  | connected _ _ _ _ _ => simp [Post.isClose]

/-- Before the close, the page has been told of one connection and no more. -/
theorem Course.Orderly.opening_told (hs : s.Orderly) (hopen : ¬ s.Closed) : Opening s s.told := by
  obtain ⟨opening, ending, htold, hopening, rfl | ⟨code, reason, wasClean, rfl⟩⟩ := hs.story
  · rw [htold, append_nil]
    exact hopening
  · exact absurd ⟨_, htold ▸ mem_append_right _ mem_cons_self, rfl⟩ hopen

/-- What a connection told stays told when its carrier changes in silence. -/
theorem Opening.setCarrier (h : Opening s opening) (hcarrier : s.carrier k = some o)
    (hannounced : o'.announced = o.announced) (hreceived : o.received <+: o'.received)
    (hlive : o'.live → o.live ∧ o'.received = o.received) :
    Opening (s.setCarrier k o') opening := by
  cases h with
  | silent h =>
    exact .silent fun j hj => h j ((Course.announced_setCarrier hcarrier hannounced).1 hj)
  | @connected i p messages _ _ _ hp hpannounced honly hmessages hplive =>
    have honly' : ∀ j, (s.setCarrier k o').Announced j → j = i := fun j hj =>
      honly j ((Course.announced_setCarrier hcarrier hannounced).1 hj)
    by_cases hi : i = k
    · subst hi
      cases hp.symm.trans hcarrier
      refine .connected Course.carrier_setCarrier_self (hannounced.trans hpannounced) honly'
        (hmessages.trans hreceived) fun hl => ?_
      obtain ⟨hpl, heq⟩ := hlive hl
      rw [heq, hplive hpl]
    · exact .connected ((Course.carrier_setCarrier_of_ne hi).trans hp) hpannounced honly'
        hmessages hplive

/-- What was told of a connection does not depend on who waits or refused. -/
theorem Opening.congr (h : Opening s opening) (ht : t.carrier = s.carrier) : Opening t opening := by
  cases h with
  | silent h => exact .silent fun j ⟨o, ho, ha⟩ => h j ⟨o, ht ▸ ho, ha⟩
  | connected hp hpannounced honly hmessages hplive =>
    exact .connected (ht ▸ hp) hpannounced (fun j ⟨o, ho, ha⟩ => honly j ⟨o, ht ▸ ho, ha⟩)
      hmessages hplive

theorem Opening.takes (h : Opening s opening) (hnone : s.carrier k = none)
    (hsilent : o.announced = false) : Opening (s.setCarrier k o) opening := by
  have hannounced : ∀ j, (s.setCarrier k o).Announced j → s.Announced j := by
    intro j hj
    by_cases hjk : j = k
    · subst hjk
      simp [Course.announced_setCarrier_self, hsilent] at hj
    · exact (Course.announced_setCarrier_of_ne hjk).1 hj
  cases h with
  | silent h => exact .silent fun j hj => h j (hannounced j hj)
  | @connected i _ _ _ _ _ hp hpannounced honly hmessages hplive =>
    have hi : i ≠ k := by
      rintro rfl
      simp [hnone] at hp
    exact .connected ((Course.carrier_setCarrier_of_ne hi).trans hp) hpannounced
      (fun j hj => honly j (hannounced j hj)) hmessages hplive

/-! ## Every turn keeps a course orderly -/

theorem Course.Orderly.gains {ks : Set ℕ} (hs : s.Orderly) (hopen : ¬ s.Closed) :
    Course.Orderly { s with awaited := s.awaited ∪ ks } where
  __ := hs
  finished h := absurd h hopen
  taken htaken _ := by
    obtain ⟨j, hj⟩ := hs.taken htaken hopen
    exact ⟨j, hj.imp_right .inl⟩
  story := by
    obtain ⟨opening, ending, htold, hopening, hending⟩ := hs.story
    exact ⟨opening, ending, htold, hopening.congr rfl, hending⟩

theorem Course.Orderly.loses (hs : s.Orderly)
    (h : k ∈ s.awaited → s.Taken → s.Others k) :
    Course.Orderly { s with awaited := s.awaited \ {k} } where
  __ := hs
  finished hclosed j hj := hs.finished hclosed j (hj.imp_right And.left)
  taken htaken hopen := by
    obtain ⟨j, hheld | hawaited⟩ := hs.taken htaken hopen
    · exact ⟨j, .inl hheld⟩
    · by_cases hj : j = k
      · subst hj
        obtain ⟨i, hi, hpending⟩ := h hawaited htaken
        exact ⟨i, hpending.imp_right fun ha => ⟨ha, hi⟩⟩
      · exact ⟨j, .inr ⟨hawaited, hj⟩⟩
  story := by
    obtain ⟨opening, ending, htold, hopening, hending⟩ := hs.story
    exact ⟨opening, ending, htold, hopening.congr rfl, hending⟩

theorem Course.Orderly.takes {framing : Framing} (hs : s.Orderly) (hawaited : k ∈ s.awaited)
    (hnone : s.carrier k = none) :
    Course.Orderly { s.setCarrier k (.new framing) with
      held := insert k s.held, awaited := s.awaited \ {k} } where
  sound := Course.sound_setCarrier hs.sound (.new framing)
  held_iff j := by
    by_cases hj : j = k
    · subst hj
      exact iff_of_true (Set.mem_insert j s.held)
        ⟨_, Course.carrier_setCarrier_self, Carried.new_live framing⟩
    · rw [Set.mem_insert_iff, or_iff_right hj, hs.held_iff j,
        show (_ : Course M).carrier j = s.carrier j from Course.carrier_setCarrier_of_ne hj]
  finished hclosed := absurd hclosed (hs.not_closed (.inr hawaited))
  refusing _ := ⟨⟨k, by simp [Course.setCarrier]⟩, hs.not_closed (.inr hawaited)⟩
  taken _ _ := ⟨k, .inl (Set.mem_insert k s.held)⟩
  story := by
    obtain ⟨opening, ending, htold, hopening, hending⟩ := hs.story
    exact ⟨opening, ending, htold, (hopening.takes hnone rfl).congr rfl, hending⟩

variable {code : ℕ} {reason : String} {wasClean : Bool}

/-- The last bridge that had to do with a client tells its close. -/
theorem Course.Orderly.closes (hs : s.Orderly) (hk : s.Pending k)
    (hsound : ∀ j p, t.carrier j = some p → p.Sound)
    (hheld : ∀ j, j ∈ t.held ↔ ∃ o, t.carrier j = some o ∧ o.live) (hover : ∀ j, ¬ t.Pending j)
    (hrefusing : t.refusing = none) (htold : t.told = s.told ++ [.close code reason wasClean])
    (hopening : ∀ opening, Opening s opening → Opening t opening) : t.Orderly where
  sound := hsound
  held_iff := hheld
  finished _ := hover
  refusing h := absurd hrefusing h
  taken _ hopen :=
    absurd ⟨_, htold ▸ mem_append_right _ mem_cons_self, rfl⟩ hopen
  story := ⟨s.told, _, htold, hopening _ (hs.opening_told (hs.not_closed hk)),
    .inr ⟨code, reason, wasClean, rfl⟩⟩

theorem Course.Orderly.turnsAway (hs : s.Orderly) (hawaited : k ∈ s.awaited)
    (hnone : s.carrier k = none) (hlast : ¬ s.Others k) :
    Course.Orderly { s.tell (.close code reason wasClean) with awaited := s.awaited \ {k} } := by
  refine hs.closes (.inr hawaited) hs.sound hs.held_iff ?_ rfl rfl fun _ h => h.congr rfl
  intro j hj
  by_cases hjk : j = k
  · subst hjk
    rcases hj with hheld | hlost
    · obtain ⟨o, ho, -⟩ := (hs.held_iff j).1 hheld
      simp [hnone] at ho
    · exact hlost.2 rfl
  · exact hlast ⟨j, hjk, hj.imp_right And.left⟩

theorem Course.Orderly.keeps (hs : s.Orderly) (hcarrier : s.carrier k = some o)
    (hsound : o'.Sound) (hlive : o'.live ↔ o.live) (hannounced : o'.announced = o.announced)
    (hreceived : o.received <+: o'.received) (hsame : o.live → o'.received = o.received) :
    (s.setCarrier k o').Orderly where
  sound := Course.sound_setCarrier hs.sound hsound
  held_iff := Course.held_iff_setCarrier hs hcarrier hlive
  finished := hs.finished
  refusing h := ⟨⟨k, by simp [Course.setCarrier]⟩, (hs.refusing h).2⟩
  taken _ hopen := hs.taken (Course.taken_of_carrier hcarrier) hopen
  story := by
    obtain ⟨opening, ending, htold, hopening, hending⟩ := hs.story
    exact ⟨opening, ending, htold, hopening.setCarrier hcarrier hannounced hreceived
      fun hl => ⟨hlive.1 hl, hsame (hlive.1 hl)⟩, hending⟩

theorem Course.Orderly.connects {protocol extensions : String} {setCookie : List String}
    (hs : s.Orderly) (hcarrier : s.carrier k = some o) (hsound : o'.Sound) (hlive : o.live)
    (hlive' : o'.live) (hsilent : o.announced = false) (hannounced : o'.announced = true)
    (hreceived : o'.received = []) (hfirst : ∀ j, j ≠ k → ¬ s.Announced j) :
    ((s.setCarrier k o').tell (.connected protocol extensions setCookie)).Orderly := by
  have hk : k ∈ s.held := Course.mem_held_of_live hs hcarrier hlive
  have hopen := hs.not_closed (.inl hk)
  have hsilence : ∀ j, ¬ s.Announced j := by
    intro j hj
    by_cases hjk : j = k
    · subst hjk
      obtain ⟨p, hp, hpa⟩ := hj
      cases hp.symm.trans hcarrier
      simp [hsilent] at hpa
    · exact hfirst j hjk hj
  have htold : s.told = [] := by
    have hopening := hs.opening_told hopen
    generalize s.told = told at hopening
    cases hopening with
    | silent _ => rfl
    | connected hp hpa _ _ _ => exact absurd ⟨_, hp, hpa⟩ (hsilence _)
  have honly : ∀ j, (s.setCarrier k o').Announced j → j = k := by
    intro j hj
    by_contra hjk
    exact hfirst j hjk ((Course.announced_setCarrier_of_ne hjk).1 hj)
  exact {
    sound := Course.sound_setCarrier hs.sound hsound
    held_iff := Course.held_iff_setCarrier hs hcarrier (iff_of_true hlive' hlive)
    finished := by
      rintro ⟨p, hp, hclose⟩
      rw [Course.tell, Course.setCarrier, htold, nil_append, mem_singleton] at hp
      subst hp
      cases hclose
    refusing := fun h => absurd rfl h
    taken := fun _ _ => ⟨k, .inl hk⟩
    story := ⟨_, [], by rw [Course.tell, Course.setCarrier, htold, append_nil]; rfl,
      .connected Course.carrier_setCarrier_self hannounced honly nil_prefix
        fun _ => hreceived.symm, .inl rfl⟩ }

theorem Course.Orderly.tells {payload : M} (hs : s.Orderly) (hcarrier : s.carrier k = some o)
    (hsound : o'.Sound) (hlive : o.live) (hlive' : o'.live) (hannounced : o.announced = true)
    (hannounced' : o'.announced = true) (hreceived : o'.received = o.received ++ [payload]) :
    Course.Orderly { s.setCarrier k o' with told := s.told ++ [.message payload] } := by
  have hk : k ∈ s.held := Course.mem_held_of_live hs hcarrier hlive
  have hopen := hs.not_closed (.inl hk)
  have hself : s.Announced k := ⟨o, hcarrier, hannounced⟩
  have hopening : Opening { s.setCarrier k o' with told := s.told ++ [.message payload] }
      (s.told ++ [.message payload]) := by
    have hopening := hs.opening_told hopen
    generalize s.told = told at hopening
    cases hopening with
    | silent h => exact absurd hself (h k)
    | @connected i p messages protocol extensions setCookie hp _ honly _ hplive =>
      cases honly k hself
      cases hp.symm.trans hcarrier
      have hmessages : messages ++ [payload] = o'.received := by rw [hreceived, hplive hlive]
      have hconnected : Opening (s.setCarrier k o') (.connected protocol extensions setCookie ::
          (messages ++ [payload]).map .message) :=
        .connected Course.carrier_setCarrier_self hannounced' (fun j hj =>
          honly j ((Course.announced_setCarrier hcarrier (hannounced'.trans hannounced.symm)).1 hj))
          (hmessages ▸ prefix_rfl) fun _ => hmessages
      rw [map_append, ← cons_append] at hconnected
      exact hconnected.congr rfl
  exact {
    sound := Course.sound_setCarrier hs.sound hsound
    held_iff := Course.held_iff_setCarrier hs hcarrier (iff_of_true hlive' hlive)
    finished := by
      rintro ⟨p, hp, hclose⟩
      exact absurd hclose (by simp [hopening.not_close p hp])
    refusing := fun _ => ⟨⟨k, by simp [Course.setCarrier]⟩, by
      rintro ⟨p, hp, hclose⟩
      exact absurd hclose (by simp [hopening.not_close p hp])⟩
    taken := fun _ _ => ⟨k, .inl hk⟩
    story := ⟨_, [], (append_nil _).symm, hopening, .inl rfl⟩ }

theorem Course.Orderly.ends (hs : s.Orderly) (hcarrier : s.carrier k = some o) (hsound : o'.Sound)
    (hlive : o.live) (hdead : ¬ o'.live) (hannounced : o'.announced = o.announced)
    (hreceived : o'.received = o.received) (hlast : ¬ s.Others k) (hawaited : k ∉ s.awaited) :
    ((s.drop k o').tell (.close code reason wasClean)).Orderly := by
  refine hs.closes (.inl (Course.mem_held_of_live hs hcarrier hlive))
    (Course.sound_setCarrier hs.sound hsound) (Course.held_iff_drop hs hdead) ?_ rfl rfl
    fun _ h => (h.setCarrier hcarrier hannounced (hreceived ▸ prefix_rfl)
      fun hl => absurd hl hdead).congr rfl
  rintro j (⟨hheld, hjk⟩ | hj)
  · exact hlast ⟨j, hjk, .inl hheld⟩
  · by_cases hjk : j = k
    · exact hawaited (hjk ▸ hj)
    · exact hlast ⟨j, hjk, .inr hj⟩

theorem Course.Orderly.refuses {refusing : List ℕ} (hs : s.Orderly)
    (hcarrier : s.carrier k = some o) (hsound : o'.Sound) (hlive : o.live) (hdead : ¬ o'.live)
    (hannounced : o'.announced = o.announced) (hreceived : o'.received = o.received)
    (hothers : s.Others k) :
    Course.Orderly { s.drop k o' with refusing := some refusing } := by
  have hopen := hs.not_closed (.inl (Course.mem_held_of_live hs hcarrier hlive))
  obtain ⟨j, hj, hpending⟩ := hothers
  exact {
    sound := Course.sound_setCarrier hs.sound hsound
    held_iff := Course.held_iff_drop hs hdead
    finished := fun h => absurd h hopen
    refusing := fun _ => ⟨⟨k, by simp [Course.drop, Course.setCarrier]⟩, hopen⟩
    taken := fun _ _ => ⟨j, hpending.imp_left fun hheld => ⟨hheld, hj⟩⟩
    story := ⟨s.told, [], (append_nil _).symm, ((hs.opening_told hopen).setCarrier hcarrier
      hannounced (hreceived ▸ prefix_rfl) fun hl => absurd hl hdead).congr rfl, .inl rfl⟩ }

theorem Course.Orderly.turn (hs : s.Orderly) (h : Turn s t) : t.Orderly := by
  cases h with
  | gains hopen => exact hs.gains hopen
  | loses h => exact hs.loses h
  | takes hawaited hnone => exact hs.takes hawaited hnone
  | turnsAway hawaited hnone hlast => exact hs.turnsAway hawaited hnone hlast
  | keeps hcarrier hsound hlive hannounced hreceived =>
    exact hs.keeps hcarrier hsound hlive hannounced (hreceived ▸ prefix_rfl) fun _ => hreceived
  | mutes hcarrier hsound hdead hdead' hannounced hreceived =>
    exact hs.keeps hcarrier hsound (iff_of_false hdead' hdead) hannounced hreceived
      fun hlive => absurd hlive hdead
  | connects hcarrier hsound hlive hlive' hsilent hannounced hreceived hfirst =>
    exact hs.connects hcarrier hsound hlive hlive' hsilent hannounced hreceived hfirst
  | tells hcarrier hsound hlive hlive' hannounced hannounced' hreceived =>
    exact hs.tells hcarrier hsound hlive hlive' hannounced hannounced' hreceived
  | ends hcarrier hsound hlive hdead hannounced hreceived hlast hawaited =>
    exact hs.ends hcarrier hsound hlive hdead hannounced hreceived hlast hawaited
  | refuses hcarrier hsound hlive hdead hannounced hreceived hothers =>
    exact hs.refuses hcarrier hsound hlive hdead hannounced hreceived hothers

end SocketBridge

end Tabnode
