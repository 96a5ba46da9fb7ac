import Mathlib.Order.BooleanAlgebra.Set
import Tabnode.SocketBridge.Channel
import Tabnode.SocketBridge.Course

/-!
# The courses of the clients in a world

`World.course` reads the course of a client off the bridges and the maps they share. A bridge
that hears of a client moves no other client's course, and moves that client's by a turn when
no other bridge's word is against it (`Outcome.May`).
-/

namespace Tabnode

namespace SocketBridge

open OrderedMap List Option

variable {M : Type*}

namespace World

variable (w : World M)

def postsOf (c : ℕ) : List (Post M) := (w.posts.filter (·.1 = c)).map (·.2)

def Awaits (k c : ℕ) : Prop :=
  .connect c ∈ (w.bridge k).inbox ∧ (w.connectorOf c, k) ∈ w.registered

def Pending (k c : ℕ) : Prop := c ∈ (w.bridge k).clients ∨ w.Awaits k c

def Others (k c : ℕ) : Prop := ∃ j, j < w.bridges.length ∧ j ≠ k ∧ w.Pending j c

def Announced (k c : ℕ) : Prop := (w.carriedAt k c).any (·.announced) = true

def Taken (c : ℕ) : Prop := ∃ k, k < w.bridges.length ∧ (w.carriedAt k c).isSome

def Closed (c : ℕ) : Prop := ∃ p ∈ w.posts, p.1 = c ∧ p.2.isClose = true

instance : Decidable (w.Awaits k c) := by unfold Awaits; infer_instance

instance : Decidable (w.Pending k c) := by unfold Pending; infer_instance

instance : Decidable (w.Others k c) := by unfold Others; infer_instance

instance : Decidable (w.Announced k c) := by unfold Announced; infer_instance

instance : Decidable (w.Taken c) := by unfold Taken; infer_instance

instance : Decidable (w.Closed c) := by unfold Closed; infer_instance

def course (c : ℕ) : Course M where
  held := {k | c ∈ (w.bridge k).clients}
  awaited := {k | w.Awaits k c}
  carrier k := w.carriedAt k c
  refusing := find c w.refusals
  told := w.postsOf c

end World

/-- Where what becomes of a client at a bridge is not against another bridge's word: it
connects when no other bridge did, it ends when no other has it or has yet to take it, and
of a refusal the other bridges registered with the connector are all known to have refused
just when none of them has the client or has yet to take it. -/
def Outcome.May (w : World M) (k c : ℕ) : Outcome → Prop
  | .quiet => True
  | .connects => ∀ j, j < w.bridges.length → j ≠ k → ¬ w.Announced j c
  | .ends => ¬ w.Others k c
  | .refuses =>
    (∀ p ∈ w.registered, p.1 = w.connectorOf c → p.2 ∈ w.refusing k c) ↔ ¬ w.Others k c

instance (w : World M) (k c : ℕ) : ∀ o : Outcome, Decidable (o.May w k c)
  | .quiet => .isTrue trivial
  | .connects => by unfold Outcome.May; infer_instance
  | .ends => by unfold Outcome.May; infer_instance
  | .refuses => by unfold Outcome.May; infer_instance

variable {w : World M} {k c d : ℕ}

/-! ## A bridge changes -/

theorem World.bridge_of_length_le (h : w.bridges.length ≤ k) :
    w.bridge k = ⟨false, [], [], []⟩ := by
  rw [World.bridge, getElem?_eq_none h, getD_none]

theorem World.lt_of_bridge_ne (h : w.bridge k ≠ ⟨false, [], [], []⟩) : k < w.bridges.length :=
  not_le.1 fun hle => h (World.bridge_of_length_le hle)

theorem World.lt_of_pending (h : w.Pending k c) : k < w.bridges.length := by
  refine World.lt_of_bridge_ne fun hb => ?_
  simp [World.Pending, World.Awaits, hb] at h

theorem World.lt_of_carriedAt {o : Carried M} (h : w.carriedAt k c = some o) :
    k < w.bridges.length := by
  refine World.lt_of_bridge_ne fun hb => ?_
  simp [World.carriedAt, hb] at h

theorem World.bridge_setBridge_self {b : Bridge M} (h : k < w.bridges.length) :
    (w.setBridge k b).bridge k = b := by
  simp [World.bridge, World.setBridge, h]

theorem World.bridge_setBridge_of_ne {b : Bridge M} {j : ℕ} (h : j ≠ k) :
    (w.setBridge k b).bridge j = w.bridge j := by
  simp [World.bridge, World.setBridge, getElem?_set_ne h.symm]

@[simp] theorem World.length_setBridge {b : Bridge M} :
    (w.setBridge k b).bridges.length = w.bridges.length :=
  length_set ..

theorem World.setBridge_bridge : w.setBridge k (w.bridge k) = w := by
  by_cases hk : k < w.bridges.length
  · simp [World.setBridge, World.bridge, hk]
  · rw [World.setBridge, List.set_eq_of_length_le (not_lt.1 hk)]

theorem World.course_setBridge {b : Bridge M}
    (hclients : d ∈ b.clients ↔ d ∈ (w.bridge k).clients)
    (hinbox : .connect d ∈ b.inbox ↔ .connect d ∈ (w.bridge k).inbox)
    (hcarried : find d b.carried = find d (w.bridge k).carried) :
    (w.setBridge k b).course d = w.course d := by
  have hbridge : ∀ j, (d ∈ ((w.setBridge k b).bridge j).clients ↔ d ∈ (w.bridge j).clients) ∧
      (.connect d ∈ ((w.setBridge k b).bridge j).inbox ↔ .connect d ∈ (w.bridge j).inbox) ∧
      (w.setBridge k b).carriedAt j d = w.carriedAt j d := by
    intro j
    by_cases hj : j = k
    · subst hj
      by_cases hk : j < w.bridges.length
      · rw [World.carriedAt, World.bridge_setBridge_self hk]
        exact ⟨hclients, hinbox, hcarried⟩
      · have hset : w.setBridge j b = w := by
          rw [World.setBridge, List.set_eq_of_length_le (not_lt.1 hk)]
        rw [hset]
        exact ⟨Iff.rfl, Iff.rfl, rfl⟩
    · rw [World.carriedAt, World.bridge_setBridge_of_ne hj]
      exact ⟨Iff.rfl, Iff.rfl, rfl⟩
  ext j
  · exact (hbridge j).1
  · exact and_congr_left' (hbridge j).2.1
  · rw [show (World.course _ d).carrier j = w.carriedAt j d from (hbridge j).2.2]
    rfl
  · rfl
  · rfl

theorem World.others_course : (w.course c).Others k ↔ w.Others k c := by
  constructor
  · rintro ⟨j, hj, hpending⟩
    exact ⟨j, World.lt_of_pending hpending, hj, hpending⟩
  · rintro ⟨j, -, hj, hpending⟩
    exact ⟨j, hj, hpending⟩

theorem World.taken_course : (w.course c).Taken ↔ w.Taken c := by
  constructor
  · rintro ⟨j, hj⟩
    obtain ⟨o, ho⟩ := ne_none_iff_exists'.1 hj
    exact ⟨j, World.lt_of_carriedAt ho, isSome_iff_ne_none.2 hj⟩
  · rintro ⟨j, -, hj⟩
    exact ⟨j, isSome_iff_ne_none.1 hj⟩

theorem World.announced_course : (w.course c).Announced k ↔ w.Announced k c := by
  simp [Course.Announced, World.Announced, World.course, Option.any_eq_true]

theorem World.closed_course : (w.course c).Closed ↔ w.Closed c := by
  simp [Course.Closed, World.Closed, World.course, World.postsOf]

/-! ## A bridge posts -/

variable {p : Post M}

@[simp] theorem World.bridge_post {j : ℕ} : (w.post k c p).bridge j = w.bridge j := by
  unfold World.post
  split <;> rfl

@[simp] theorem World.bridges_post : (w.post k c p).bridges = w.bridges := by
  unfold World.post
  split <;> rfl

@[simp] theorem World.asks_post : (w.post k c p).asks = w.asks := by
  unfold World.post
  split <;> rfl

theorem World.posts_post (hopen : (w.bridge k).isOpen = true) :
    (w.post k c p).posts = w.posts ++ [(c, p)] := by
  unfold World.post
  rw [if_pos hopen]

theorem World.course_post_of_ne (h : d ≠ c) : (w.post k c p).course d = w.course d := by
  unfold World.post
  split
  · refine Course.ext rfl rfl rfl ?_ ?_
    · cases p <;> simp [World.course, find_erase, h.symm]
    · simp [World.course, World.postsOf, h.symm]
  · rfl

theorem World.course_post_self (hopen : (w.bridge k).isOpen = true)
    (hp : ∀ payload, p ≠ .message payload) : (w.post k c p).course c = (w.course c).tell p := by
  unfold World.post
  rw [if_pos hopen]
  refine Course.ext rfl rfl rfl ?_ ?_
  · cases p with
    | message payload => exact absurd rfl (hp payload)
    | connected _ _ _ | close _ _ _ => simp [World.course, Course.tell, find_erase]
  · simp [World.course, Course.tell, World.postsOf]

theorem World.course_post_message {payload : M} (hopen : (w.bridge k).isOpen = true) :
    (w.post k c (.message payload)).course c =
      { w.course c with told := (w.course c).told ++ [.message payload] } := by
  unfold World.post
  rw [if_pos hopen]
  refine Course.ext rfl rfl rfl rfl ?_
  simp [World.course, World.postsOf]

/-! ## A carrier becomes another -/

def World.setCarrier (w : World M) (k c : ℕ) (o : Carried M) : World M :=
  w.setBridge k { w.bridge k with carried := OrderedMap.set c o (w.bridge k).carried }

theorem World.course_setCarrier_of_ne {o : Carried M} (h : d ≠ c) :
    (w.setCarrier k c o).course d = w.course d :=
  World.course_setBridge Iff.rfl Iff.rfl (find_set_ne h.symm ..)

/-- A bridge put in or taken out according to whether it is there. -/
theorem ite_insert_sdiff {s : Set ℕ} {q : Prop} [Decidable q] (h : q ↔ k ∈ s) :
    (if q then insert k s else s \ {k}) = s := by
  split
  · rename_i hq
    exact Set.insert_eq_self.2 (h.1 hq)
  · rename_i hq
    exact Set.sdiff_singleton_eq_self fun hk => hq (h.2 hk)

theorem World.course_setBridge_self {b : Bridge M} (hk : k < w.bridges.length) :
    (w.setBridge k b).course c = { w.course c with
      held := if c ∈ b.clients then insert k (w.course c).held else (w.course c).held \ {k}
      awaited := if .connect c ∈ b.inbox ∧ (w.connectorOf c, k) ∈ w.registered then
        insert k (w.course c).awaited else (w.course c).awaited \ {k}
      carrier := Function.update (w.course c).carrier k (find c b.carried) } := by
  have hself : (w.setBridge k b).bridge k = b := World.bridge_setBridge_self hk
  have hother : ∀ j, j ≠ k → (w.setBridge k b).bridge j = w.bridge j := fun j hj =>
    World.bridge_setBridge_of_ne hj
  have hconnector : (w.setBridge k b).connectorOf c = w.connectorOf c := rfl
  have hregistered : (w.setBridge k b).registered = w.registered := rfl
  refine Course.ext ?_ ?_ ?_ rfl rfl
  · ext j
    by_cases hj : j = k
    · subst hj
      by_cases hc : c ∈ b.clients <;> simp [World.course, hself, hc]
    · by_cases hc : c ∈ b.clients <;> simp [World.course, hother j hj, hc, hj]
  · ext j
    by_cases hc : .connect c ∈ b.inbox ∧ (w.connectorOf c, k) ∈ w.registered
    · rw [if_pos hc, Set.mem_insert_iff]
      by_cases hj : j = k
      · subst hj
        simp [World.course, World.Awaits, hself, hconnector, hregistered, hc]
      · simp [World.course, World.Awaits, hother j hj, hconnector, hregistered, hj]
    · rw [if_neg hc, Set.mem_sdiff, Set.mem_singleton_iff]
      by_cases hj : j = k
      · subst hj
        simp only [World.course, World.Awaits, hself, hconnector, hregistered,
          Set.mem_ofPred_eq, not_true_eq_false, and_false, iff_false]
        exact hc
      · simp [World.course, World.Awaits, hother j hj, hconnector, hregistered, hj]
  · funext j
    by_cases hj : j = k
    · subst hj
      simp [World.course, World.carriedAt, hself]
    · simp [World.course, World.carriedAt, hother j hj, hj]

theorem World.course_setCarrier_self {o : Carried M} (hk : k < w.bridges.length) :
    (w.setCarrier k c o).course c = (w.course c).setCarrier k o := by
  rw [World.setCarrier, World.course_setBridge_self hk, find_set_self]
  exact Course.ext (ite_insert_sdiff Iff.rfl) (ite_insert_sdiff Iff.rfl) rfl rfl rfl

theorem World.course_forget_of_ne (h : d ≠ c) : (w.forget k c).course d = w.course d :=
  World.course_setBridge (by simp [h]) Iff.rfl rfl

theorem World.forget_eq_self (h : c ∉ (w.bridge k).clients) : w.forget k c = w := by
  have hfilter : (w.bridge k).clients.filter (· ≠ c) = (w.bridge k).clients :=
    filter_eq_self.2 fun d hd => by
      have hdc : d ≠ c := fun hdc => h (hdc ▸ hd)
      simpa using hdc
  rw [World.forget, hfilter]
  exact World.setBridge_bridge

theorem World.course_forget_self (hk : k < w.bridges.length) :
    (w.forget k c).course c = { w.course c with held := (w.course c).held \ {k} } := by
  rw [World.forget, World.course_setBridge_self hk]
  refine Course.ext ?_ (ite_insert_sdiff Iff.rfl) (Function.update_eq_self ..) rfl rfl
  simp

theorem World.course_shut {carried : List (ℕ × Carried M)} (hk : k < w.bridges.length) :
    (w.setBridge k ⟨false, [], [], carried⟩).course c = { w.course c with
      held := (w.course c).held \ {k}
      awaited := (w.course c).awaited \ {k}
      carrier := Function.update (w.course c).carrier k (find c carried) } := by
  rw [World.course_setBridge_self hk]
  refine Course.ext ?_ ?_ rfl rfl rfl <;> simp

/-- A bridge takes a `connect` from its inbox, and waits for it no more. -/
theorem World.course_pop_connect {inbox : List Signal} (hk : k < w.bridges.length)
    (hinbox : .connect c ∉ inbox) :
    (w.setBridge k { w.bridge k with inbox := inbox }).course c =
      { w.course c with awaited := (w.course c).awaited \ {k} } := by
  rw [World.course_setBridge_self hk]
  refine Course.ext (ite_insert_sdiff Iff.rfl) ?_ (Function.update_eq_self ..) rfl rfl
  exact if_neg fun h => hinbox h.1

theorem World.course_pop {signal : Signal} {inbox : List Signal}
    (hinbox : (w.bridge k).inbox = signal :: inbox) (hsignal : signal ≠ .connect d) :
    (w.setBridge k { w.bridge k with inbox := inbox }).course d = w.course d := by
  refine World.course_setBridge Iff.rfl ?_ rfl
  rw [hinbox, mem_cons, or_iff_right hsignal.symm]

/-! ## A carrier asks -/

theorem World.course_refused_of_ne (h : d ≠ c) : (w.refused k c).course d = w.course d := by
  unfold World.refused
  split
  · exact Course.ext rfl rfl rfl (find_set_ne h.symm ..) rfl
  · exact World.course_post_of_ne h

theorem World.course_effect_of_ne (h : d ≠ c) (e : Effect M) :
    (World.effect k c w e).course d = w.course d := by
  cases e with
  | post message => exact World.course_post_of_ne h
  | refused => exact World.course_refused_of_ne h
  | forget => exact World.course_forget_of_ne h

theorem World.course_carry_of_ne (h : d ≠ c) (r : Carried M × List (Effect M)) :
    (w.carry k c r).course d = w.course d := by
  have heffects : ∀ (effects : List (Effect M)) (v : World M),
      (effects.foldl (World.effect k c) v).course d = v.course d := by
    intro effects
    induction effects with
    | nil => exact fun v => rfl
    | cons e effects ih => exact fun v => (ih _).trans (World.course_effect_of_ne h e)
  exact (heffects r.2 _).trans (World.course_setCarrier_of_ne h)

theorem World.course_forget_setCarrier {o : Carried M} (hk : k < w.bridges.length) :
    ((w.setCarrier k c o).forget k c).course c = (w.course c).drop k o := by
  rw [World.course_forget_self (by simpa [World.setCarrier] using hk),
    World.course_setCarrier_self hk]
  rfl

@[simp] theorem World.bridges_forget_isOpen {j : ℕ} :
    ((w.forget k c).bridge j).isOpen = (w.bridge j).isOpen := by
  by_cases hk : k < w.bridges.length
  · by_cases hj : j = k
    · rw [hj, World.forget, World.bridge_setBridge_self hk]
    · rw [World.forget, World.bridge_setBridge_of_ne hj]
  · rw [World.forget, World.setBridge, List.set_eq_of_length_le (not_lt.1 hk)]

@[simp] theorem World.isOpen_setCarrier {o : Carried M} {j : ℕ} :
    ((w.setCarrier k c o).bridge j).isOpen = (w.bridge j).isOpen := by
  by_cases hk : k < w.bridges.length
  · by_cases hj : j = k
    · rw [hj, World.setCarrier, World.bridge_setBridge_self hk]
    · rw [World.setCarrier, World.bridge_setBridge_of_ne hj]
  · rw [World.setCarrier, World.setBridge, List.set_eq_of_length_le (not_lt.1 hk)]

variable {o : Carried M}

/-- A bridge is refused a client: others are waited for, or the page is told. -/
theorem World.course_refused (hopen : (w.bridge k).isOpen = true) :
    (w.refused k c).course c =
      if ∀ p ∈ w.registered, p.1 = w.connectorOf c → p.2 ∈ w.refusing k c then
        (w.course c).tell (.close 1006 "" false)
      else { w.course c with refusing := some (w.refusing k c) } := by
  unfold World.refused
  split
  · rename_i hany
    rw [if_neg]
    · exact Course.ext rfl rfl rfl (find_set_self ..) rfl
    · intro hall
      obtain ⟨p, hp, hunheard⟩ := any_eq_true.1 hany
      simp only [Bool.and_eq_true, decide_eq_true_eq, Bool.not_eq_true', contains_eq_mem,
        decide_eq_false_iff_not] at hunheard
      exact hunheard.2 (hall p hp hunheard.1)
  · rename_i hnone
    rw [if_pos, World.course_post_self hopen (by simp [Carried.failed])]
    · rfl
    · intro p hp hconnector
      by_contra hunheard
      exact hnone (any_eq_true.2 ⟨p, hp, by simp [hconnector, hunheard]⟩)

/-- A bridge that hears of its client, with no other bridge's word against it, moves the
client's course by a turn. -/
theorem World.turn_carry {out : Outcome} {r : Carried M × List (Effect M)}
    (hcourse : (w.course c).Orderly) (hcarried : w.carriedAt k c = some o)
    (hopen : o.live → (w.bridge k).isOpen = true) (hfresh : ¬ w.Awaits k c)
    (hheard : Heard o out r) (hsound : r.1.Sound) (hmay : out.May w k c) :
    Turn (w.course c) ((w.carry k c r).course c) := by
  have hk := World.lt_of_carriedAt hcarried
  have hset : ∀ o', (w.setCarrier k c o').course c = (w.course c).setCarrier k o' :=
    fun _ => World.course_setCarrier_self hk
  have hopen' : ∀ o', o.live → ((w.setCarrier k c o').bridge k).isOpen = true := fun o' hlive => by
    rw [World.isOpen_setCarrier, hopen hlive]
  cases hheard with
  | @keeps o' hlive hannounced hreceived =>
    have hnext : (w.carry k c (o', [])).course c = (w.course c).setCarrier k o' := hset o'
    rw [hnext]
    exact .keeps hcarried hsound hlive hannounced hreceived
  | @mutes o' effects hdead hdead' hannounced hreceived heffects =>
    have hnext : (w.carry k c (o', effects)).course c = (w.course c).setCarrier k o' := by
      rcases heffects with rfl | rfl
      · exact hset o'
      · refine (World.course_forget_setCarrier hk).trans (Course.ext ?_ rfl rfl rfl rfl)
        refine Set.sdiff_singleton_eq_self fun hheld => ?_
        obtain ⟨p, hp, hlive⟩ := (hcourse.held_iff k).1 hheld
        cases hp.symm.trans hcarried
        exact hdead hlive
    rw [hnext]
    exact .mutes hcarried hsound hdead hdead' hannounced hreceived
  | @connects o' protocol extensions setCookie hlive hlive' hsilent hannounced hreceived =>
    have hnext : (w.carry k c (o', [.post (.connected protocol extensions setCookie)])).course c =
        ((w.course c).setCarrier k o').tell (.connected protocol extensions setCookie) := by
      have hpost : w.carry k c (o', [.post (.connected protocol extensions setCookie)]) =
          (w.setCarrier k c o').post k c (.connected protocol extensions setCookie) := rfl
      rw [hpost, World.course_post_self (hopen' o' hlive) (by simp), hset]
    rw [hnext]
    refine .connects hcarried hsound hlive hlive' hsilent hannounced hreceived ?_
    rintro j hj ⟨p, hp, hannounced'⟩
    exact hmay j (World.lt_of_carriedAt hp) hj
      (World.announced_course.1 ⟨p, hp, hannounced'⟩)
  | @tells o' payload hlive hlive' hannounced hannounced' hreceived =>
    have hnext : (w.carry k c (o', [.post (.message payload)])).course c =
        { (w.course c).setCarrier k o' with
          told := (w.course c).told ++ [.message payload] } := by
      have hpost : w.carry k c (o', [.post (.message payload)]) =
          (w.setCarrier k c o').post k c (.message payload) := rfl
      rw [hpost, World.course_post_message (hopen' o' hlive), hset]
      rfl
    rw [hnext]
    exact .tells hcarried hsound hlive hlive' hannounced hannounced' hreceived
  | @ends o' code reason wasClean hlive hdead hannounced hreceived =>
    have hnext : (w.carry k c (o', [.forget, .post (.close code reason wasClean)])).course c =
        ((w.course c).drop k o').tell (.close code reason wasClean) := by
      have hpost : w.carry k c (o', [.forget, .post (.close code reason wasClean)]) =
          ((w.setCarrier k c o').forget k c).post k c (.close code reason wasClean) := rfl
      rw [hpost, World.course_post_self (World.bridges_forget_isOpen.trans (hopen' o' hlive))
        (by simp), World.course_forget_setCarrier hk]
    rw [hnext]
    exact .ends hcarried hsound hlive hdead hannounced hreceived
      (fun h => hmay (World.others_course.1 h)) hfresh
  | @refuses o' hlive hdead hannounced hreceived =>
    have hnext : (w.carry k c (o', [.forget, .refused])).course c =
        if ∀ p ∈ w.registered, p.1 = w.connectorOf c → p.2 ∈ w.refusing k c then
          ((w.course c).drop k o').tell (.close 1006 "" false)
        else { (w.course c).drop k o' with refusing := some (w.refusing k c) } := by
      have hrefused : w.carry k c (o', [.forget, .refused]) =
          ((w.setCarrier k c o').forget k c).refused k c := rfl
      rw [hrefused, World.course_refused (World.bridges_forget_isOpen.trans (hopen' o' hlive)),
        World.course_forget_setCarrier hk]
      rfl
    rw [hnext]
    split
    · rename_i hall
      exact .ends hcarried hsound hlive hdead hannounced hreceived
        (fun h => hmay.1 hall (World.others_course.1 h)) hfresh
    · rename_i hsome
      exact .refuses hcarried hsound hlive hdead hannounced hreceived
        (World.others_course.2 (not_not.1 fun hlast => hsome (hmay.2 hlast)))

end SocketBridge

end Tabnode

/-!
## The bridges' books

A client's `connect` is in a bridge's inbox at most once, and no more when the bridge made a
carrier for the client; a bridge whose channel is closed has neither clients nor an inbox.
Whatever a bridge does keeps its books so (`World.Sound`).
-/

namespace Tabnode

namespace SocketBridge

variable {M : Type*}

/-- What a bridge's inbox, table and carriers say of one another, when `n` clients asked. -/
structure Bridge.Sound (n : ℕ) (b : Bridge M) : Prop where
  inbox_lt : ∀ c, .connect c ∈ b.inbox → c < n
  once : ∀ c, b.inbox.count (.connect c) ≤ 1
  fresh : ∀ c, OrderedMap.find c b.carried ≠ none → .connect c ∉ b.inbox
  carried_lt : ∀ c, OrderedMap.find c b.carried ≠ none → c < n
  nodup : b.clients.Nodup
  shut : b.isOpen = false → b.clients = [] ∧ b.inbox = []

/-- Every bridge's books are in order, and nothing is posted for a client that never asked. -/
structure World.Sound (w : World M) : Prop where
  bridge : ∀ k, (w.bridge k).Sound w.asks.length
  posts_lt : ∀ p ∈ w.posts, p.1 < w.asks.length

variable {w w' : World M} {k c : ℕ} {b : Bridge M} {n : ℕ}

theorem Bridge.Sound.mono {m : ℕ} (hb : b.Sound n) (h : n ≤ m) : b.Sound m :=
  { hb with
    inbox_lt := fun c hc => (hb.inbox_lt c hc).trans_le h
    carried_lt := fun c hc => (hb.carried_lt c hc).trans_le h }

theorem Bridge.Sound.empty {isOpen : Bool} : Bridge.Sound n (⟨isOpen, [], [], []⟩ : Bridge M) where
  inbox_lt _ h := absurd h List.not_mem_nil
  once _ := Nat.zero_le _
  fresh _ h := absurd rfl h
  carried_lt _ h := absurd rfl h
  nodup := List.nodup_nil
  shut _ := ⟨rfl, rfl⟩

theorem Bridge.Sound.pop {signal : Signal} {inbox : List Signal} (hb : b.Sound n)
    (h : b.inbox = signal :: inbox) : Bridge.Sound n { b with inbox := inbox } where
  __ := hb
  inbox_lt c hc := hb.inbox_lt c (h ▸ List.mem_cons_of_mem _ hc)
  once c := (List.count_le_count_cons ..).trans (h ▸ hb.once c)
  fresh c hc hmem := hb.fresh c hc (h ▸ List.mem_cons_of_mem _ hmem)
  shut hshut := by
    obtain ⟨-, hempty⟩ := hb.shut hshut
    simp [h] at hempty

theorem Bridge.Sound.take {o : Carried M} (hb : b.Sound n) (hc : c < n)
    (hnot : c ∉ b.clients) (hinbox : .connect c ∉ b.inbox) (hopen : b.isOpen = true) :
    Bridge.Sound n { b with
      clients := b.clients ++ [c], carried := OrderedMap.set c o b.carried } where
  __ := hb
  fresh d hd := by
    by_cases hdc : c = d
    · exact hdc ▸ hinbox
    · exact hb.fresh d (by rwa [OrderedMap.find_set_ne hdc] at hd)
  carried_lt d hd := by
    by_cases hdc : c = d
    · exact hdc ▸ hc
    · exact hb.carried_lt d (by rwa [OrderedMap.find_set_ne hdc] at hd)
  nodup := List.nodup_append.2 ⟨hb.nodup, List.nodup_singleton c, fun d hd e he => by
    rintro rfl
    exact hnot (List.mem_singleton.1 he ▸ hd)⟩
  shut hshut := Bool.noConfusion (hopen.symm.trans hshut)

theorem Bridge.Sound.push {signal : Signal} (hb : b.Sound n) (hopen : b.isOpen = true)
    (hsignal : ∀ c, signal ≠ .connect c) :
    Bridge.Sound n { b with inbox := b.inbox ++ [signal] } where
  __ := hb
  inbox_lt c hc := by
    rcases List.mem_append.1 hc with h | h
    · exact hb.inbox_lt c h
    · exact absurd (List.mem_singleton.1 h).symm (hsignal c)
  once c := by
    rw [List.count_append, List.count_singleton, if_neg (by simpa using hsignal c)]
    exact hb.once c
  fresh c hc hmem := by
    rcases List.mem_append.1 hmem with h | h
    · exact hb.fresh c hc h
    · exact absurd (List.mem_singleton.1 h).symm (hsignal c)
  shut hshut := Bool.noConfusion (hopen.symm.trans hshut)

theorem Bridge.Sound.pushConnect (hb : b.Sound n) (hopen : b.isOpen = true) :
    Bridge.Sound (n + 1) { b with inbox := b.inbox ++ [.connect n] } where
  inbox_lt c hc := by
    rcases List.mem_append.1 hc with h | h
    · exact (hb.inbox_lt c h).trans (Nat.lt_succ_self n)
    · cases List.mem_singleton.1 h
      exact Nat.lt_succ_self n
  once c := by
    rw [List.count_append, List.count_singleton]
    split
    · rename_i heq
      have hc : n = c := by simpa using heq
      have hnew : Signal.connect c ∉ b.inbox := fun h => absurd (hb.inbox_lt c h) (by omega)
      rw [List.count_eq_zero_of_not_mem hnew]
    · exact hb.once c
  fresh c hc hmem := by
    rcases List.mem_append.1 hmem with h | h
    · exact hb.fresh c hc h
    · cases List.mem_singleton.1 h
      exact absurd (hb.carried_lt n hc) (lt_irrefl n)
  carried_lt c hc := (hb.carried_lt c hc).trans (Nat.lt_succ_self n)
  nodup := hb.nodup
  shut hshut := Bool.noConfusion (hopen.symm.trans hshut)

theorem World.Sound.setBridge (hw : w.Sound) (hb : b.Sound w.asks.length) :
    (w.setBridge k b).Sound where
  bridge j := by
    by_cases hj : j = k
    · subst hj
      by_cases hk : j < w.bridges.length
      · rw [World.bridge_setBridge_self hk]
        exact hb
      · rw [World.setBridge, List.set_eq_of_length_le (not_lt.1 hk)]
        exact hw.bridge j
    · rw [World.bridge_setBridge_of_ne hj]
      exact hw.bridge j
  posts_lt := hw.posts_lt

theorem World.Sound.post {p : Post M} (hw : w.Sound) (hc : c < w.asks.length) :
    (w.post k c p).Sound where
  bridge j := by
    rw [World.bridge_post, World.asks_post]
    exact hw.bridge j
  posts_lt q hq := by
    rw [World.asks_post]
    by_cases hopen : (w.bridge k).isOpen = true
    · rw [World.posts_post hopen] at hq
      rcases List.mem_append.1 hq with h | h
      · exact hw.posts_lt q h
      · cases List.mem_singleton.1 h
        exact hc
    · unfold World.post at hq
      rw [if_neg hopen] at hq
      exact hw.posts_lt q hq

theorem World.Sound.forget (hw : w.Sound) : (w.forget k c).Sound := by
  have hb := hw.bridge k
  refine hw.setBridge { hb with
    nodup := hb.nodup.filter _
    shut := fun hshut => ⟨?_, (hb.shut hshut).2⟩ }
  simp [(hb.shut hshut).1]

theorem World.Sound.effect {e : Effect M} (hw : w.Sound) (hc : c < w.asks.length) :
    (World.effect k c w e).Sound := by
  cases e with
  | post message => exact hw.post hc
  | forget => exact hw.forget
  | refused =>
    simp only [World.effect, World.refused]
    split
    · exact ⟨hw.bridge, hw.posts_lt⟩
    · exact hw.post hc

theorem World.asks_effect {e : Effect M} : (World.effect k c w e).asks = w.asks := by
  cases e with
  | post message => exact World.asks_post
  | forget => rfl
  | refused =>
    simp only [World.effect, World.refused]
    split
    · rfl
    · exact World.asks_post

theorem World.Sound.carry {o : Carried M} {r : Carried M × List (Effect M)} (hw : w.Sound)
    (hcarried : w.carriedAt k c = some o) : (w.carry k c r).Sound := by
  have hb := hw.bridge k
  have hfind : ∀ d, OrderedMap.find d (OrderedMap.set c r.1 (w.bridge k).carried) ≠ none →
      OrderedMap.find d (w.bridge k).carried ≠ none := by
    intro d hd
    by_cases hdc : c = d
    · subst hdc
      rw [show OrderedMap.find c (w.bridge k).carried = some o from hcarried]
      simp
    · rwa [OrderedMap.find_set_ne hdc] at hd
  have hset : (w.setCarrier k c r.1).Sound := hw.setBridge { hb with
    fresh := fun d hd => hb.fresh d (hfind d hd)
    carried_lt := fun d hd => hb.carried_lt d (hfind d hd) }
  have heffects : ∀ (effects : List (Effect M)) (v : World M), v.Sound → c < v.asks.length →
      (effects.foldl (World.effect k c) v).Sound := by
    intro effects
    induction effects with
    | nil => exact fun v hv _ => hv
    | cons e effects ih =>
      intro v hv hc
      exact ih _ (hv.effect hc) (by rwa [World.asks_effect])
  exact heffects r.2 _ hset (hb.carried_lt c (by
    rw [show OrderedMap.find c (w.bridge k).carried = some o from hcarried]
    simp))

end SocketBridge

end Tabnode
