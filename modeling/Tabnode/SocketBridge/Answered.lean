import Tabnode.SocketBridge.Turns

/-!
# A client is answered once

A step moves each client's course by turns, or leaves it, provided that it may
(`MayStep`): that no bridge ends a client that another has or has yet to take, that no
second bridge connects it, and that the bridges registered with its connector and not yet
known to have refused it are those that have it or have yet to take it. A run of such steps
answers every client once.
-/

namespace Tabnode

namespace SocketBridge

open OrderedMap List Option

variable {M : Type*}

/-- A `connect` that no carrier is made for. -/
def Connect.turnedAway (ask : Connect) : Bool :=
  !ask.readable || (ask.framing = .webSocket && !ask.constructible)

/-- The condition of a step. A bridge that registers a connector finds no `connect` of a
client already closed; one that unregisters it, or closes, was not the last that a client
taken elsewhere waited for; and what becomes of a client at a bridge is not against another
bridge's word. -/
def MayStep (w : World M) : Action M → Prop
  | .register k connector => ∀ c, c < w.asks.length → .connect c ∈ (w.bridge k).inbox →
      w.connectorOf c = connector → ¬ w.Closed c
  | .unregister k connector => ∀ c, c < w.asks.length → w.connectorOf c = connector →
      w.Awaits k c → w.Taken c → w.Others k c
  | .close k => (∀ c ∈ (w.bridge k).clients, ¬ w.Others k c) ∧
      ∀ c, c < w.asks.length → w.Awaits k c → w.Taken c → w.Others k c
  | .receive k => ∀ signal ∈ (w.bridge k).inbox.head?,
      match signal with
      | .connect c => ∀ ask ∈ w.asks[c]?, w.Awaits k c → ask.turnedAway = true → ¬ w.Others k c
      | .message c _ => ∀ o ∈ w.carriedAt k c, c ∈ (w.bridge k).clients → o.asked.May w k c
      | .disconnect c _ => ∀ o ∈ w.carriedAt k c, c ∈ (w.bridge k).clients → o.asked.May w k c
  | .event k c e => ∀ o ∈ w.carriedAt k c, (o.outcome e).May w k c
  | _ => True

instance (w : World M) : ∀ a : Action M, Decidable (MayStep w a)
  | .register _ _ => by unfold MayStep; infer_instance
  | .unregister _ _ => by unfold MayStep; infer_instance
  | .close _ => by unfold MayStep; infer_instance
  | .receive k => by
    have : ∀ signal : Signal, Decidable (match signal with
        | .connect c => ∀ ask ∈ w.asks[c]?, w.Awaits k c → ask.turnedAway = true →
            ¬ w.Others k c
        | .message c _ => ∀ o ∈ w.carriedAt k c, c ∈ (w.bridge k).clients → o.asked.May w k c
        | .disconnect c _ => ∀ o ∈ w.carriedAt k c, c ∈ (w.bridge k).clients →
            o.asked.May w k c) := fun signal => by
      cases signal <;> infer_instance
    unfold MayStep
    infer_instance
  | .event _ _ _ => by unfold MayStep; infer_instance
  | .create => .isTrue trivial
  | .connect _ => .isTrue trivial
  | .message _ _ => .isTrue trivial
  | .disconnect _ _ => .isTrue trivial

/-- The books are in order, and so is every client's course. -/
structure Kept (w : World M) : Prop where
  sound : w.Sound
  orderly : ∀ c, (w.course c).Orderly

variable {w w' : World M} {k c d : ℕ}

def Moves (s t : Course M) : Prop := t = s ∨ Turn s t

theorem Course.Orderly.moves {s t : Course M} (hs : s.Orderly) (h : Moves s t) : t.Orderly := by
  rcases h with rfl | h
  · exact hs
  · exact hs.turn h

variable {o : Carried M}

theorem Kept.isOpen_of_live (hw : Kept w) (hcarried : w.carriedAt k c = some o)
    (hlive : o.live) : (w.bridge k).isOpen = true := by
  have hheld : c ∈ (w.bridge k).clients := ((hw.orderly c).held_iff k).2 ⟨o, hcarried, hlive⟩
  by_contra hshut
  rw [((hw.sound.bridge k).shut (by simpa using hshut)).1] at hheld
  exact not_mem_nil hheld

theorem Kept.not_awaits (hw : Kept w) (hcarried : w.carriedAt k c = some o) :
    ¬ w.Awaits k c := fun h =>
  (hw.sound.bridge k).fresh c (by
    rw [show find c (w.bridge k).carried = some o from hcarried]
    simp) h.1

/-! ## Connectors and posts of the page -/

theorem Kept.register {connector : String} (hw : Kept w)
    (hmay : MayStep w (.register k connector)) :
    Kept { w with registered := w.registered ++ [(connector, k)] } where
  sound := ⟨hw.sound.bridge, hw.sound.posts_lt⟩
  orderly c := by
    refine (hw.orderly c).moves ?_
    by_cases hnew : .connect c ∈ (w.bridge k).inbox ∧ w.connectorOf c = connector
    · have hc := (hw.sound.bridge k).inbox_lt c hnew.1
      have hturn : Turn (w.course c) { w.course c with awaited := (w.course c).awaited ∪ {k} } :=
        .gains fun hclosed => hmay c hc hnew.1 hnew.2 (World.closed_course.1 hclosed)
      refine .inr ?_
      convert hturn using 1
      refine Course.ext rfl ?_ rfl rfl rfl
      ext j
      simp only [World.course, World.Awaits, Set.mem_ofPred_eq, mem_append,
        mem_singleton, Prod.mk.injEq, Set.mem_union, Set.mem_singleton_iff]
      constructor
      · rintro ⟨hinbox, hreg | ⟨-, hj⟩⟩
        · exact .inl ⟨hinbox, hreg⟩
        · exact .inr hj
      · rintro (⟨hinbox, hreg⟩ | rfl)
        · exact ⟨hinbox, .inl hreg⟩
        · exact ⟨hnew.1, .inr ⟨hnew.2, rfl⟩⟩
    · refine .inl (Course.ext rfl ?_ rfl rfl rfl)
      ext j
      simp only [World.course, World.Awaits, Set.mem_ofPred_eq, mem_append,
        mem_singleton, Prod.mk.injEq]
      constructor
      · rintro ⟨hinbox, hreg | ⟨hconnector, rfl⟩⟩
        · exact ⟨hinbox, hreg⟩
        · exact absurd ⟨hinbox, hconnector⟩ hnew
      · exact fun h => ⟨h.1, .inl h.2⟩

/-- A bridge has no more to wait for from a connector, or from any. -/
theorem Kept.unregister {drops : String × ℕ → Bool} (hw : Kept w)
    (hdrops : ∀ p, drops p = true → p.2 = k)
    (hmay : ∀ c, c < w.asks.length → drops (w.connectorOf c, k) = true → w.Awaits k c →
      w.Taken c → w.Others k c) :
    Kept { w with registered := w.registered.filter fun p => !drops p } where
  sound := ⟨hw.sound.bridge, hw.sound.posts_lt⟩
  orderly c := by
    refine (hw.orderly c).moves ?_
    by_cases hlost : drops (w.connectorOf c, k) = true
    · have hturn : Turn (w.course c) { w.course c with awaited := (w.course c).awaited \ {k} } :=
        .loses fun hawaits htaken => World.others_course.2
          (hmay c ((hw.sound.bridge k).inbox_lt c hawaits.1) hlost hawaits
            (World.taken_course.1 htaken))
      refine .inr ?_
      convert hturn using 1
      refine Course.ext rfl ?_ rfl rfl rfl
      ext j
      simp only [World.course, World.Awaits, Set.mem_ofPred_eq, mem_filter,
        Set.mem_sdiff, Set.mem_singleton_iff, Bool.not_eq_true']
      constructor
      · rintro ⟨hinbox, hreg, hkept⟩
        refine ⟨⟨hinbox, hreg⟩, ?_⟩
        rintro rfl
        exact Bool.noConfusion (hlost.symm.trans hkept)
      · rintro ⟨⟨hinbox, hreg⟩, hj⟩
        refine ⟨hinbox, hreg, ?_⟩
        by_contra hdropped
        exact hj (hdrops (w.connectorOf c, j) (Bool.eq_true_of_not_eq_false hdropped))
    · refine .inl (Course.ext rfl ?_ rfl rfl rfl)
      ext j
      simp only [World.course, World.Awaits, Set.mem_ofPred_eq, mem_filter,
        Bool.not_eq_true']
      refine and_congr_right fun _ => and_iff_left_of_imp fun _ => ?_
      by_contra hdropped
      have hdropped' : drops (w.connectorOf c, j) = true :=
        Bool.eq_true_of_not_eq_false hdropped
      cases hdrops _ hdropped'
      exact hlost hdropped'

variable {signal : Signal}

theorem World.bridge_deliverAll (j : ℕ) :
    (w.deliverAll signal).bridge j = if (w.bridge j).isOpen then
      { w.bridge j with inbox := (w.bridge j).inbox ++ [signal] } else w.bridge j := by
  by_cases hj : j < w.bridges.length
  · simp [World.bridge, World.deliverAll, hj]
  · simp [World.bridge, World.deliverAll, hj]

theorem World.course_deliverAll : (w.deliverAll signal).course c =
      { w.course c with awaited := ((w.deliverAll signal).course c).awaited } := by
  refine Course.ext ?_ rfl ?_ rfl rfl
  · ext j
    simp only [World.course, World.bridge_deliverAll, Set.mem_ofPred_eq]
    split <;> rfl
  · funext j
    simp only [World.course, World.carriedAt, World.bridge_deliverAll]
    split <;> rfl

theorem World.mem_inbox_deliverAll {j : ℕ} (h : signal ≠ .connect c) :
    .connect c ∈ ((w.deliverAll signal).bridge j).inbox ↔ .connect c ∈ (w.bridge j).inbox := by
  rw [World.bridge_deliverAll]
  split
  · simp [h.symm]
  · rfl

theorem Kept.deliverAll (hw : Kept w) (hsignal : ∀ c, signal ≠ .connect c) :
    Kept (w.deliverAll signal) := by
  refine ⟨⟨fun j => ?_, hw.sound.posts_lt⟩, fun c => ?_⟩
  · rw [World.bridge_deliverAll]
    split
    · rename_i hopen
      exact (hw.sound.bridge j).push hopen hsignal
    · exact hw.sound.bridge j
  · have hsame : (w.deliverAll signal).course c = w.course c := by
      refine World.course_deliverAll.trans (Course.ext rfl ?_ rfl rfl rfl)
      ext j
      exact and_congr_left' (World.mem_inbox_deliverAll (hsignal c))
    rw [hsame]
    exact hw.orderly c

/-- A new client asks: the bridges its connector is registered with have yet to take it. -/
theorem Kept.connect {ask : Connect} (hw : Kept w) :
    Kept ({ w with asks := w.asks ++ [ask] }.deliverAll (.connect w.asks.length)) := by
  have hlength : (w.asks ++ [ask]).length = w.asks.length + 1 := by simp
  refine ⟨⟨fun j => ?_, fun p hp => ?_⟩, fun c => ?_⟩
  · rw [World.bridge_deliverAll, World.deliverAll, hlength]
    split
    · rename_i hopen
      exact (hw.sound.bridge j).pushConnect hopen
    · exact (hw.sound.bridge j).mono (Nat.le_succ _)
  · rw [World.deliverAll, hlength]
    exact (hw.sound.posts_lt p hp).trans (Nat.lt_succ_self _)
  · refine (hw.orderly c).moves ?_
    by_cases hc : c = w.asks.length
    · have hnone : (w.course c).awaited = ∅ :=
        Set.eq_empty_of_forall_notMem fun j hj =>
          absurd ((hw.sound.bridge j).inbox_lt c hj.1) (by omega)
      have hopen : ¬ (w.course c).Closed := by
        rw [World.closed_course]
        rintro ⟨p, hp, rfl, -⟩
        exact absurd (hw.sound.posts_lt p hp) (by omega)
      refine .inr ?_
      rw [World.course_deliverAll]
      convert Turn.gains hopen using 1
      refine Course.ext rfl ?_ rfl rfl rfl
      rw [hnone, Set.empty_union]
    · refine .inl (World.course_deliverAll.trans (Course.ext rfl ?_ rfl rfl rfl))
      ext j
      have hne : Signal.connect w.asks.length ≠ .connect c := by simpa using Ne.symm hc
      refine (and_congr_left' (World.mem_inbox_deliverAll hne)).trans (and_congr_right ?_)
      intro hinbox
      have hlt := (hw.sound.bridge j).inbox_lt c hinbox
      simp only [World.connectorOf, World.deliverAll, getElem?_append_left hlt]

theorem Kept.create (hw : Kept w) :
    Kept { w with bridges := w.bridges ++ [⟨true, [], [], []⟩] } := by
  have hbridge : ∀ j, World.bridge { w with bridges := w.bridges ++ [⟨true, [], [], []⟩] } j =
      if j = w.bridges.length then ⟨true, [], [], []⟩ else w.bridge j := by
    intro j
    unfold World.bridge
    dsimp only
    rcases Nat.lt_trichotomy j w.bridges.length with hj | hj | hj
    · rw [getElem?_append_left hj, if_neg hj.ne]
    · subst hj
      simp
    · rw [if_neg hj.ne', getElem?_eq_none (by simpa using Nat.succ_le_of_lt hj),
        getElem?_eq_none hj.le]
  refine ⟨⟨fun j => ?_, hw.sound.posts_lt⟩, fun c => ?_⟩
  · rw [hbridge]
    split
    · exact .empty
    · exact hw.sound.bridge j
  · have hempty : w.bridge w.bridges.length = ⟨false, [], [], []⟩ :=
      World.bridge_of_length_le le_rfl
    have hsame : World.course { w with bridges := w.bridges ++ [⟨true, [], [], []⟩] } c =
        w.course c := by
      refine Course.ext ?_ ?_ ?_ rfl rfl
      · ext j
        simp only [World.course, hbridge, Set.mem_ofPred_eq]
        split
        · rename_i hj
          rw [hj, hempty]
        · rfl
      · ext j
        simp only [World.course, World.Awaits, hbridge, Set.mem_ofPred_eq]
        refine and_congr_left' ?_
        split
        · rename_i hj
          rw [hj, hempty]
        · rfl
      · funext j
        simp only [World.course, World.carriedAt, hbridge]
        split
        · rename_i hj
          rw [hj, hempty]
        · rfl
    rw [hsame]
    exact hw.orderly c

/-! ## A bridge hears -/

theorem Kept.carry {out : Outcome} {r : Carried M × List (Effect M)} (hw : Kept w)
    (hcarried : w.carriedAt k c = some o) (hheard : Heard o out r) (hsound : r.1.Sound)
    (hmay : out.May w k c) : Kept (w.carry k c r) where
  sound := hw.sound.carry hcarried
  orderly d := by
    by_cases hd : d = c
    · subst hd
      exact (hw.orderly d).turn (World.turn_carry (hw.orderly d) hcarried
        (hw.isOpen_of_live hcarried) (hw.not_awaits hcarried) hheard hsound hmay)
    · rw [World.course_carry_of_ne hd]
      exact hw.orderly d

theorem Kept.receiveConnect {ask : Connect} {inbox : List Signal} (hw : Kept w)
    (hinbox : (w.bridge k).inbox = .connect c :: inbox) (hask : w.asks[c]? = some ask)
    (hmay : w.Awaits k c → ask.turnedAway = true → ¬ w.Others k c) :
    Kept ((w.setBridge k { w.bridge k with inbox := inbox }).receiveConnect k c ask) := by
  have hb := hw.sound.bridge k
  have hmem : Signal.connect c ∈ (w.bridge k).inbox := hinbox ▸ mem_cons_self
  have hk : k < w.bridges.length := World.lt_of_bridge_ne fun h => by simp [h] at hmem
  have hopen : (w.bridge k).isOpen = true := by
    by_contra hshut
    rw [(hb.shut (by simpa using hshut)).2] at hmem
    exact not_mem_nil hmem
  have hnone : w.carriedAt k c = none := by
    by_contra hsome
    exact hb.fresh c hsome hmem
  have hnot : c ∉ (w.bridge k).clients := by
    intro hheld
    obtain ⟨o, ho, -⟩ := ((hw.orderly c).held_iff k).1 hheld
    exact some_ne_none o (ho.symm.trans hnone)
  have hgone : Signal.connect c ∉ inbox := by
    have hcount := hb.once c
    rw [hinbox, count_cons_self] at hcount
    exact count_eq_zero.1 (by omega)
  have hconnector : w.connectorOf c = ask.connector := by
    rw [World.connectorOf, hask]
    rfl
  have hself : (w.setBridge k { w.bridge k with inbox := inbox }).bridge k =
      { w.bridge k with inbox := inbox } := World.bridge_setBridge_self hk
  have hcourse := World.course_pop_connect hk hgone
  have hother : ∀ d, d ≠ c → (w.setBridge k { w.bridge k with inbox := inbox }).course d =
      w.course d := fun d hd => World.course_pop hinbox (by simpa using Ne.symm hd)
  have hsound : (w.setBridge k { w.bridge k with inbox := inbox }).Sound :=
    hw.sound.setBridge (hb.pop hinbox)
  have hlt : c < w.asks.length := hb.inbox_lt c hmem
  generalize hv : w.setBridge k { w.bridge k with inbox := inbox } = v at *
  have hregistered : v.registered = w.registered := hv ▸ rfl
  have hasks : v.asks = w.asks := hv ▸ rfl
  have hopen' : (v.bridge k).isOpen = true := by rw [hself]; exact hopen
  have hnot' : c ∉ (v.bridge k).clients := by rw [hself]; exact hnot
  have hvlt : c < v.asks.length := hasks ▸ hlt
  -- A bridge that makes no carrier tells the client's close, when it may.
  have hturned : w.Awaits k c → ask.turnedAway = true → Kept (v.post k c Carried.failed) := by
    intro hawaits hturned
    refine ⟨hsound.post hvlt, fun d => ?_⟩
    by_cases hd : d = c
    · subst hd
      refine (hw.orderly d).turn ?_
      rw [World.course_post_self hopen' (by simp [Carried.failed]), hcourse]
      exact .turnsAway hawaits hnone fun h => hmay hawaits hturned (World.others_course.1 h)
    · rw [World.course_post_of_ne hd, hother d hd]
      exact hw.orderly d
  unfold World.receiveConnect
  split
  · rename_i hleft
    refine ⟨hsound, fun d => ?_⟩
    by_cases hd : d = c
    · subst hd
      rw [hregistered, or_iff_left hnot'] at hleft
      rw [hcourse, Set.sdiff_singleton_eq_self fun h => hleft (hconnector ▸ h.2)]
      exact hw.orderly d
    · rw [hother d hd]
      exact hw.orderly d
  · rename_i htaken
    simp only [hregistered, not_or, not_not] at htaken
    have hawaits : w.Awaits k c := ⟨hmem, hconnector ▸ htaken.1⟩
    split
    · rename_i hunreadable
      exact hturned hawaits (by simp [Connect.turnedAway, hunreadable])
    split
    · rename_i hunmade
      rw [World.forget_eq_self hnot']
      exact hturned hawaits (by simp [Connect.turnedAway, hunmade])
    · have hgone' : Signal.connect c ∉ (v.bridge k).inbox := by
        rw [hself]
        exact hgone
      refine ⟨hsound.setBridge ((hsound.bridge k).take hvlt hnot' hgone' hopen'), fun d => ?_⟩
      · by_cases hd : d = c
        · subst hd
          have hv : k < v.bridges.length := World.lt_of_bridge_ne fun h => by simp [h] at hopen'
          have hturn : Turn (w.course d) { (w.course d).setCarrier k (.new ask.framing) with
              held := insert k (w.course d).held, awaited := (w.course d).awaited \ {k} } :=
            .takes hawaits hnone
          refine (hw.orderly d).turn ?_
          convert hturn using 1
          rw [World.course_setBridge_self hv, hcourse, find_set_self]
          refine Course.ext (if_pos (by simp)) ?_ rfl rfl rfl
          refine (if_neg fun h => hgone' h.1).trans ?_
          exact Set.sdiff_singleton_eq_self fun h => h.2 rfl
        · rw [World.course_setBridge (by simp [hd]) (by rfl)
            (by exact find_set_ne (Ne.symm hd) ..), hother d hd]
          exact hw.orderly d

theorem Kept.hear {f : Carried M → Carried M × List (Effect M)} (hw : Kept w)
    (hf : ∀ o : Carried M, o.Sound → o.live → Heard o o.asked (f o) ∧ (f o).1.Sound)
    (hmay : ∀ o ∈ w.carriedAt k c, c ∈ (w.bridge k).clients → o.asked.May w k c) :
    Kept (match w.carriedAt k c with
      | some o => if c ∈ (w.bridge k).clients then w.carry k c (f o) else w
      | none => w) := by
  split
  · rename_i o hcarried
    split
    · rename_i hheld
      obtain ⟨p, hp, hlive⟩ := ((hw.orderly c).held_iff k).1 hheld
      cases hp.symm.trans hcarried
      obtain ⟨hheard, hsound⟩ := hf o ((hw.orderly c).sound k o hcarried) hlive
      exact hw.carry hcarried hheard hsound (hmay o hcarried hheld)
    · exact hw
  · exact hw

theorem World.asked_may {v : World M} (hsame : v.course c = w.course c)
    (hmay : ∀ o ∈ w.carriedAt k c, c ∈ (w.bridge k).clients → o.asked.May w k c) :
    ∀ o ∈ v.carriedAt k c, c ∈ (v.bridge k).clients → o.asked.May v k c := by
  intro o ho hheld
  have hcarrier : v.carriedAt k c = w.carriedAt k c := congrFun (congrArg Course.carrier hsame) k
  have hclients : c ∈ (w.bridge k).clients := (congrArg (k ∈ ·.held) hsame).mp hheld
  have hasked := hmay o (hcarrier ▸ ho) hclients
  unfold Carried.asked at hasked ⊢
  split
  · rename_i hends
    rw [if_pos hends] at hasked
    intro hothers
    exact hasked (World.others_course.1 (hsame ▸ World.others_course.2 hothers))
  · trivial

theorem Kept.receive {inbox : List Signal} (hw : Kept w)
    (hinbox : (w.bridge k).inbox = signal :: inbox) (hmay : MayStep w (.receive k)) :
    Kept ((w.setBridge k { w.bridge k with inbox := inbox }).receive k signal) := by
  have hmay' := hmay signal (by rw [hinbox]; rfl)
  have hpop : (∀ c, signal ≠ .connect c) →
      Kept (w.setBridge k { w.bridge k with inbox := inbox }) ∧
        ∀ c, (w.setBridge k { w.bridge k with inbox := inbox }).course c = w.course c :=
    fun hsignal => by
      have hcourse := fun c => World.course_pop (d := c) hinbox (hsignal c)
      exact ⟨⟨hw.sound.setBridge ((hw.sound.bridge k).pop hinbox), fun c => by
        rw [hcourse c]
        exact hw.orderly c⟩, hcourse⟩
  cases signal with
  | connect c =>
    simp only [World.receive]
    split
    · rename_i ask hask
      exact hw.receiveConnect hinbox hask (hmay' ask hask)
    · rename_i hnone
      have hlt := (hw.sound.bridge k).inbox_lt c (hinbox ▸ mem_cons_self)
      exact absurd (getElem?_eq_none_iff.1 hnone) (by simpa [World.setBridge] using hlt)
  | message c throws =>
    obtain ⟨hkept, hcourse⟩ := hpop (by simp)
    exact hkept.hear (fun o ho hlive => heard_deliver ho hlive throws)
      (World.asked_may (hcourse c) hmay')
  | disconnect c d =>
    obtain ⟨hkept, hcourse⟩ := hpop (by simp)
    exact hkept.hear (fun o ho hlive => heard_disconnect ho hlive d)
      (World.asked_may (hcourse c) hmay')

/-! ## A bridge closes -/

variable {clients : List ℕ}

theorem World.course_tellAll (hk : k < w.bridges.length) (hopen : (w.bridge k).isOpen = true)
    (hnodup : clients.Nodup) : (World.tellAll k w clients).course c = if c ∈ clients then
      { (w.course c).tell (.close 1006 "" false) with held := (w.course c).held \ {k} }
    else w.course c := by
  induction clients generalizing w with
  | nil => rfl
  | cons d clients ih =>
    obtain ⟨hd, hnodup⟩ := nodup_cons.1 hnodup
    have hopen' : (((w.forget k d).post k d Carried.failed).bridge k).isOpen = true := by
      rw [World.bridge_post, World.bridges_forget_isOpen, hopen]
    have hk' : k < ((w.forget k d).post k d Carried.failed).bridges.length := by
      rw [World.bridges_post]
      simpa [World.forget] using hk
    rw [World.tellAll, ih hk' hopen' hnodup]
    by_cases hc : c = d
    · subst hc
      rw [if_neg hd, if_pos mem_cons_self, World.course_post_self
        (World.bridges_forget_isOpen.trans hopen) (by simp [Carried.failed]),
        World.course_forget_self hk]
      rfl
    · rw [World.course_post_of_ne hc, World.course_forget_of_ne hc]
      simp only [mem_cons, hc, false_or]

theorem World.asks_tellAll : (World.tellAll k w clients).asks = w.asks := by
  induction clients generalizing w with
  | nil => rfl
  | cons d clients ih =>
    rw [World.tellAll, ih, World.asks_post]
    rfl

theorem World.length_tellAll : (World.tellAll k w clients).bridges.length = w.bridges.length := by
  induction clients generalizing w with
  | nil => rfl
  | cons d clients ih =>
    rw [World.tellAll, ih, World.bridges_post]
    exact World.length_setBridge

theorem World.Sound.tellAll (hw : w.Sound)
    (hlt : ∀ c ∈ clients, c < w.asks.length) : (World.tellAll k w clients).Sound := by
  induction clients generalizing w with
  | nil => exact hw
  | cons d clients ih =>
    refine ih (hw.forget.post (hlt d mem_cons_self)) fun c hc => ?_
    rw [World.asks_post]
    exact hlt c (mem_cons_of_mem d hc)

theorem find_map_release {carried : List (ℕ × Carried M)} :
    find c (carried.map fun e => if e.1 ∈ clients then (e.1, e.2.release) else e) =
      (find c carried).map fun o => if c ∈ clients then o.release else o := by
  induction carried with
  | nil => rfl
  | cons e carried ih =>
    obtain ⟨d, o⟩ := e
    rw [map_cons, find_cons]
    by_cases hd : d = c
    · subst hd
      by_cases hmem : d ∈ clients <;> simp [hmem, find_cons]
    · by_cases hmem : d ∈ clients <;> simp [hmem, find_cons, hd, ih]

/-- The clients of a bridge that waits for none are told and left, one by one. -/
theorem Kept.course_tellAll (hw : Kept w) (hk : k < w.bridges.length) (c : ℕ) :
    (w.tellAll k (w.bridge k).clients).course c = if c ∈ (w.bridge k).clients then
      { (w.course c).tell (.close 1006 "" false) with held := (w.course c).held \ {k} }
    else w.course c := by
  cases hopen : (w.bridge k).isOpen with
  | true => exact World.course_tellAll hk hopen (hw.sound.bridge k).nodup
  | false =>
    rw [((hw.sound.bridge k).shut hopen).1]
    rfl

/-- A bridge with no connectors tells its clients and ends their connections. -/
theorem Kept.shutdown (hw : Kept w) (hk : k < w.bridges.length) (hnone : ∀ c, ¬ w.Awaits k c)
    (hlast : ∀ c ∈ (w.bridge k).clients, ¬ w.Others k c) :
    Kept ((w.tellAll k (w.bridge k).clients).setBridge k
      ⟨false, [], [], ((w.tellAll k (w.bridge k).clients).bridge k).carried.map fun e =>
        if e.1 ∈ (w.bridge k).clients then (e.1, e.2.release) else e⟩) := by
  have hb := hw.sound.bridge k
  have hcourse := hw.course_tellAll hk
  have hcarried : ∀ c, find c ((w.tellAll k (w.bridge k).clients).bridge k).carried =
      w.carriedAt k c := by
    intro c
    have hcarrier : ((w.tellAll k (w.bridge k).clients).course c).carrier =
        (w.course c).carrier := by
      rw [hcourse]
      split <;> rfl
    exact congrFun hcarrier k
  have hsound : (w.tellAll k (w.bridge k).clients).Sound := hw.sound.tellAll fun c hc => by
    obtain ⟨o, ho, -⟩ := ((hw.orderly c).held_iff k).1 hc
    exact hb.carried_lt c (by
      rw [show find c (w.bridge k).carried = some o from ho]
      simp)
  have hk' : k < (w.tellAll k (w.bridge k).clients).bridges.length := by
    rwa [World.length_tellAll]
  refine ⟨hsound.setBridge ?_, fun c => ?_⟩
  · exact {
      inbox_lt := fun c hc => absurd hc not_mem_nil
      once := fun c => Nat.zero_le _
      fresh := fun c _ => not_mem_nil
      carried_lt := fun c hc => by
        rw [World.asks_tellAll]
        refine hb.carried_lt c fun hfind => hc ?_
        rw [find_map_release, hcarried, show w.carriedAt k c = none from hfind]
        rfl
      nodup := nodup_nil
      shut := fun _ => ⟨rfl, rfl⟩ }
  · rw [World.course_shut hk', find_map_release, hcarried, hcourse]
    by_cases hc : c ∈ (w.bridge k).clients
    · obtain ⟨o, ho, hlive⟩ := ((hw.orderly c).held_iff k).1 hc
      have hrelease := ((hw.orderly c).sound k o ho).release
      have hends : Turn (w.course c)
          (((w.course c).drop k o.release).tell (.close 1006 "" false)) :=
        .ends ho hrelease.sound hlive (Carried.not_live_of_released hrelease.released)
          hrelease.announced hrelease.received
          (fun h => hlast c hc (World.others_course.1 h)) (hnone c)
      refine (hw.orderly c).turn ?_
      convert hends using 1
      rw [show w.carriedAt k c = some o from ho, if_pos hc, map_some, if_pos hc]
      exact Course.ext (Set.sdiff_singleton_eq_self fun h => h.2 rfl)
        (Set.sdiff_singleton_eq_self (hnone c)) rfl rfl rfl
    · have hsame : ∀ s : Course M, s = w.course c → s.Orderly := fun s hs => hs ▸ hw.orderly c
      refine hsame _ ?_
      simp only [if_neg hc, Option.map_id']
      exact Course.ext (Set.sdiff_singleton_eq_self hc) (Set.sdiff_singleton_eq_self (hnone c))
        (Function.update_eq_self ..) rfl rfl

theorem Kept.close (hw : Kept w) (hk : k < w.bridges.length) (hmay : MayStep w (.close k)) :
    Kept (w.close k) := by
  have hfilter : (fun p : String × ℕ => decide (p.2 ≠ k)) = fun p => !decide (p.2 = k) := by
    funext p
    simp
  have hv : Kept { w with registered := w.registered.filter (·.2 ≠ k) } := by
    rw [hfilter]
    exact hw.unregister (fun p hp => by simpa using hp) fun c hc _ => hmay.2 c hc
  refine hv.shutdown hk (fun c h => by simpa using (mem_filter.1 h.2).2) ?_
  rintro c hc ⟨j, hj, hjk, hpending⟩
  exact hmay.1 c hc ⟨j, hj, hjk, hpending.imp_right fun h =>
    ⟨h.1, (mem_filter.1 h.2).1⟩⟩

theorem Kept.step {a : Action M} (hw : Kept w) (hmay : MayStep w a)
    (h : SocketBridge.step w a = some w') : Kept w' := by
  cases a with
  | create =>
    cases h
    exact hw.create
  | register k connector =>
    simp only [SocketBridge.step] at h
    split at h <;> cases h
    split
    · exact hw
    · exact hw.register hmay
  | unregister k connector =>
    cases h
    have hfilter : (fun p => decide (p ≠ (connector, k))) =
        fun p => !decide (p = (connector, k)) := by
      funext p
      simp
    rw [hfilter]
    refine hw.unregister (k := k) (fun p hp => congrArg Prod.snd (of_decide_eq_true hp)) ?_
    exact fun c hc hconnector => hmay c hc (by simpa using hconnector)
  | close k =>
    simp only [SocketBridge.step] at h
    split at h <;> cases h
    rename_i hk
    exact hw.close hk hmay
  | receive k =>
    simp only [SocketBridge.step] at h
    split at h <;> cases h
    rename_i signal inbox hinbox
    exact hw.receive hinbox hmay
  | event k c e =>
    simp only [SocketBridge.step] at h
    split at h
    · rename_i o hcarried
      obtain ⟨r, hr, rfl⟩ := map_eq_some_iff.1 h
      obtain ⟨hheard, hsound⟩ := heard_of_event ((hw.orderly c).sound k o hcarried) hr
      exact hw.carry hcarried hheard hsound (hmay o hcarried)
    · cases h
  | connect ask =>
    cases h
    exact hw.connect
  | message _ _ | disconnect _ _ =>
    simp only [SocketBridge.step] at h
    split at h <;> cases h
    exact hw.deliverAll (by simp)

/-! ## Whole runs -/

/-- A client is answered once: its page was told of at most one connection, of its messages
in order and of at most one close, after which it is told nothing; and when every bridge
that took it has done with it and none has yet to take it, the close was told, once, and
nothing the bridges keep holds it. -/
structure AnsweredOnce (w : World M) (c : ℕ) : Prop where
  told : ∃ opening ending, w.postsOf c = opening ++ ending ∧ Opening (w.course c) opening ∧
    Ending ending
  done : w.Taken c → (∀ k o, w.carriedAt k c = some o → ¬ o.live) → (∀ k, ¬ w.Awaits k c) →
    (w.postsOf c).countP Post.isClose = 1 ∧ (∀ k, c ∉ (w.bridge k).clients) ∧
      find c w.refusals = none

theorem Kept.new : Kept (World.new : World M) where
  sound := ⟨fun _ => .empty, fun _ h => absurd h not_mem_nil⟩
  orderly _ :=
    { sound := fun _ o h => absurd h.symm (some_ne_none o)
      held_iff := fun _ => iff_of_false not_mem_nil fun ⟨o, ho, _⟩ =>
        absurd ho.symm (some_ne_none o)
      finished := fun ⟨_, hp, _⟩ => absurd hp not_mem_nil
      refusing := fun h => absurd rfl h
      taken := fun ⟨_, hk⟩ => absurd rfl hk
      story := ⟨[], [], rfl, .silent fun _ ⟨o, ho, _⟩ => absurd ho.symm (some_ne_none o),
        .inl rfl⟩ }

theorem Kept.answeredOnce (hw : Kept w) (c : ℕ) : AnsweredOnce w c where
  told := (hw.orderly c).story
  done htaken hdead hnone := by
    have hheld : ∀ k, c ∉ (w.bridge k).clients := by
      intro k hk
      obtain ⟨o, ho, hlive⟩ := ((hw.orderly c).held_iff k).1 hk
      exact hdead k o ho hlive
    have hpending : ∀ k, ¬ (w.course c).Pending k := fun k h => h.elim (hheld k) (hnone k)
    have hclosed : (w.course c).Closed := by
      by_contra hopen
      obtain ⟨k, hk⟩ := (hw.orderly c).taken (World.taken_course.2 htaken) hopen
      exact hpending k hk
    refine ⟨?_, hheld, ?_⟩
    · obtain ⟨opening, ending, htold, hopening, hending⟩ := (hw.orderly c).story
      have hquiet : opening.countP Post.isClose = 0 :=
        countP_eq_zero.2 fun p hp => by simp [hopening.not_close p hp]
      rw [show w.postsOf c = opening ++ ending from htold, countP_append, hquiet, Nat.zero_add]
      rcases hending with rfl | ⟨code, reason, wasClean, rfl⟩
      · obtain ⟨p, hp, hclose⟩ := hclosed
        rw [htold, append_nil] at hp
        exact absurd hclose (by simp [hopening.not_close p hp])
      · rfl
    · by_contra hrefusing
      exact ((hw.orderly c).refusing hrefusing).2 hclosed

/-- Two bridges that a client's connector is registered with, and the client's `connect`. -/
def twoBridges : List (Action ℕ) :=
  [.create, .create, .register 0 "page", .register 1 "page",
    .connect ⟨"page", true, true, .webSocket⟩, .receive 0, .receive 1]

/-- One bridge is refused and waits for the other, which connects, brings a message and
ends. -/
def refusedThenConnects : List (Action ℕ) :=
  twoBridges ++ [.event 0 0 .dial, .event 0 0 (.dialFailed true),
    .event 0 0 (.closed 1006 "" false), .event 1 0 .dial, .event 1 0 .dialed,
    .event 1 0 (.upgraded []), .event 1 0 (.opened "" ""), .event 1 0 (.message 7),
    .event 1 0 (.closed 1000 "" true)]

end SocketBridge

end Tabnode
