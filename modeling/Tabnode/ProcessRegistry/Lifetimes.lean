import Tabnode.ProcessRegistry.Registered

/-!
# The life of a process number

A number comes to be held when it is given out, its process enters the tables when it is
published, and the process and the number leave them when the run is forgotten or its
scope closed. `Change` says all that one action can do to the tables, and what holds of
every run of the registry is read off it.
-/

namespace Tabnode

namespace ProcessRegistry

open OrderedMap Option

variable {Token : Type*} [DecidableEq Token]

/-- An action gives a number out: the embedder gives it, or `allocate` answers it. -/
inductive GivesOut (o : Owner Token) : Action Token → JsNumber → Prop where
  | claim (k : ℕ) (pid : JsNumber) : GivesOut o (.call k (.claim pid)) pid
  | exec (k : ℕ) (token : Token) (identity : ProcessIdentity) :
      GivesOut o (.call k (.exec token identity)) identity.pid
  | allocate {a : Action Token} {pid : JsNumber} {o' : Owner Token}
      (h : answer o a = some (o', .pid pid)) : GivesOut o a pid

/-- An action retires a number: its run is forgotten, or its scope is closed. -/
inductive Retires (o : Owner Token) : Action Token → JsNumber → Prop where
  | forget {k : ℕ} {token : Token} {e : Registration} (hopen : (o.scope k).disposed = false)
      (h : o.run k token = some e) : Retires o (.call k (.forget token)) e.identity.pid
  | dispose {k : ℕ} {pid : JsNumber} (hopen : (o.scope k).disposed = false)
      (h : pid ∈ (o.scope k).allocated) : Retires o (.call k .dispose) pid

/-- A number is in none of the tables. -/
structure Absent (o : Owner Token) (pid : JsNumber) : Prop where
  held : pid ∉ o.held
  live : find pid o.live = none
  receivers : find pid o.receivers = none
  allocated : ∀ k, pid ∉ (o.scope k).allocated
  claimed : ∀ k, pid ∉ (o.scope k).claimed
  runs : ∀ k token e, o.run k token = some e → e.identity.pid ≠ pid

/-- A run was published by an action on its scope, in its own group or that of the run of
its scope that is its parent. -/
structure Published (o : Owner Token) (a : Action Token) (k : ℕ) (token : Token)
    (e : Registration) : Prop where
  called : ∃ identity : ProcessIdentity,
    (a = .call k (.publish token identity) ∨ a = .call k (.exec token identity)) ∧
      e.identity.pid = identity.pid ∧ e.identity.ppid = identity.ppid
  group : ∃ pgid, e.identity.pgid = some pgid ∧ (pgid = e.identity.pid ∨
    ∃ token' parent, o.run k token' = some parent ∧ parent.identity.pid = e.identity.ppid ∧
      parent.identity.pgid = some pgid)

/-- A run may enter the tables: its number is its scope's and not live, and its token is
new. -/
structure Enters (o : Owner Token) (a : Action Token) (k : ℕ) (s : Scope Token)
    (token : Token) (e : Registration) : Prop where
  scope : o.scopes[k]? = some s
  allocated : e.identity.pid ∈ s.allocated
  live : find e.identity.pid o.live = none
  fresh : find token s.runs = none
  published : Published o a k token e

/-- What an action can do to the tables. -/
inductive Change (o : Owner Token) (a : Action Token) : Owner Token → Prop where
  | same {o' : Owner Token} (h : SameTables o o') : Change o a o'
  | allocated {k : ℕ} {s : Scope Token} {pid : JsNumber} {o' : Owner Token}
      (hs : o.scopes[k]? = some s) (hfree : o.inUse pid = false) (hgive : GivesOut o a pid)
      (h : SameTables (o.take k pid) o') : Change o a o'
  | claimed {k : ℕ} {s : Scope Token} {pid : JsNumber} (hs : o.scopes[k]? = some s)
      (hfree : o.inUse pid = false) (hgive : GivesOut o a pid) :
      Change o a ((o.take k pid).mark k pid)
  | published {k : ℕ} {s : Scope Token} {token : Token} {e : Registration}
      (h : Enters o a k s token e) : Change o a (o.enter k token e)
  | execed {k : ℕ} {s s' : Scope Token} {pid : JsNumber} {token : Token} {e : Registration}
      (hs : o.scopes[k]? = some s) (hfree : o.inUse pid = false) (hgive : GivesOut o a pid)
      (h : Enters ((o.take k pid).mark k pid) a k s' token e) :
      Change o a (((o.take k pid).mark k pid).enter k token e)
  | forgotten {k : ℕ} {s : Scope Token} {token : Token} {e : Registration}
      (ha : a = .call k (.forget token)) (hs : o.scopes[k]? = some s)
      (h : find token s.runs = some e) :
      Change o a (o.leave k token e.identity.pid)
  | disposed {k : ℕ} {s : Scope Token} (ha : a = .call k .dispose)
      (hs : o.scopes[k]? = some s) : Change o a (o.dispose k s).1

/-! ## What the calls do -/

variable {o : Owner Token} {a : Action Token} {k : ℕ} {s : Scope Token} {token : Token}
  {pid : JsNumber}

omit [DecidableEq Token] in
theorem SameTables.refl (o : Owner Token) : SameTables o o :=
  ⟨rfl, rfl, rfl, fun _ => rfl, fun _ => rfl, fun _ => rfl⟩

omit [DecidableEq Token] in
theorem SameTables.frames (o : Owner Token) (frames : List Frame) :
    SameTables o { o with frames := frames } :=
  ⟨rfl, rfl, rfl, fun _ => rfl, fun _ => rfl, fun _ => rfl⟩

omit [DecidableEq Token] in
theorem SameTables.nextPid (o : Owner Token) (n : ℕ) :
    SameTables o { o with nextPid := n } :=
  ⟨rfl, rfl, rfl, fun _ => rfl, fun _ => rfl, fun _ => rfl⟩

omit [DecidableEq Token] in
theorem SameTables.trans {o₁ o₂ o₃ : Owner Token} (h : SameTables o₁ o₂)
    (h' : SameTables o₂ o₃) : SameTables o₁ o₃ where
  held := h'.held.trans h.held
  live := h'.live.trans h.live
  receivers := h'.receivers.trans h.receivers
  allocated k := (h'.allocated k).trans (h.allocated k)
  claimed k := (h'.claimed k).trans (h.claimed k)
  runs k := (h'.runs k).trans (h.runs k)

omit [DecidableEq Token] in
theorem SameTables.deliver (o : Owner Token) (left : List Registration) (delivered : Bool) :
    SameTables o (o.deliver left delivered).1 := by
  induction left with
  | nil => exact .refl o
  | cons e left ih =>
    rw [Owner.deliver]
    split
    · exact .frames o _
    · exact ih

omit [DecidableEq Token] in
theorem SameTables.receiveSignals (hs : o.scopes[k]? = some s) :
    SameTables o (o.modifyScope k fun s => { s with handler := true }) where
  held := rfl
  live := rfl
  receivers := rfl
  allocated _ := scope_modifyScope_of_eq Scope.allocated hs rfl
  claimed _ := scope_modifyScope_of_eq Scope.claimed hs rfl
  runs _ := scope_modifyScope_of_eq Scope.runs hs rfl

omit [DecidableEq Token] in
theorem SameTables.createScope (o : Owner Token) :
    SameTables o { o with scopes := o.scopes ++ [.new] } := by
  have hscope : ∀ k, ({ o with scopes := o.scopes ++ [.new] } : Owner Token).scope k =
      o.scope k := by
    intro k
    rw [Owner.scope, Owner.scope, List.getElem?_append]
    split
    · rfl
    · rename_i hk
      rw [List.getElem?_eq_none (Nat.le_of_not_lt hk)]
      cases k - o.scopes.length with
      | zero | succ _ => rfl
  exact ⟨rfl, rfl, rfl, fun k => by rw [hscope], fun k => by rw [hscope],
    fun k => by rw [hscope]⟩

omit [DecidableEq Token] in
theorem inUse_of_nextFree {n m : ℕ} (h : o.nextFree n = some m) :
    o.inUse (.ofInt m) = false := by
  fun_induction Owner.nextFree o n with
  | case1 n hn => cases h
  | case2 n hn huse ih => exact ih h
  | case3 n hn huse =>
    cases h
    simpa using huse

theorem change_allocate (hs : o.scopes[k]? = some s)
    (hanswer : answer o a = some (o.allocate k)) : Change o a (o.allocate k).1 := by
  have hgive : ∀ pid, (o.allocate k).2 = .pid pid → GivesOut o a pid :=
    fun pid hpid => .allocate (hanswer.trans (congrArg some (Prod.ext rfl hpid)))
  unfold Owner.allocate at hgive ⊢
  split
  · exact .same (.frames o _)
  · rename_i hown
    rw [if_neg hown] at hgive
    split
    · exact .same (.nextPid o _)
    · rename_i n hn
      rw [hn] at hgive
      dsimp only at hgive
      split
      · rename_i hpid
        rw [if_pos hpid] at hgive
        exact .allocated hs (inUse_of_nextFree hn) (hgive _ rfl) (.nextPid _ _)
      · exact .same (.nextPid o _)

theorem change_allocateAnswered {frames : List Frame} (hs : o.scopes[k]? = some s)
    (hanswer : answer o a = some ({ o with frames := frames }.allocateAnswered k pid)) :
    Change o a ({ o with frames := frames }.allocateAnswered k pid).1 := by
  have hgive : ({ o with frames := frames }.allocateAnswered k pid).2 = .pid pid →
      GivesOut o a pid :=
    fun hpid => .allocate (hanswer.trans (congrArg some (Prod.ext rfl hpid)))
  unfold Owner.allocateAnswered at hgive ⊢
  split
  · exact .same (.frames o _)
  · rename_i hpid
    rw [if_neg hpid] at hgive
    split
    · exact .same (.frames o _)
    · rename_i huse
      rw [if_neg huse] at hgive
      have hfree : o.inUse pid = false := Bool.eq_false_of_not_eq_true huse
      exact .allocated hs hfree (hgive rfl)
        ⟨rfl, rfl, rfl, fun _ => rfl, fun _ => rfl, fun _ => rfl⟩

theorem change_claim (hs : o.scopes[k]? = some s) (hgive : GivesOut o a pid) :
    Change o a (o.claim k pid).1 := by
  unfold Owner.claim
  split
  · exact .same (.refl o)
  · split
    · exact .same (.refl o)
    · rename_i huse
      exact .claimed hs (by simpa using huse) hgive

omit [DecidableEq Token] in
theorem parentOf_eq_some {ppid : JsNumber} {parent : Registration}
    (h : Owner.parentOf s ppid = some parent) :
    (∃ token, (token, parent) ∈ s.runs) ∧ parent.identity.pid = ppid := by
  have hmem := List.mem_of_find?_eq_some h
  obtain ⟨r, hr, rfl⟩ := List.mem_map.1 hmem
  exact ⟨⟨r.1, hr⟩, by simpa using List.find?_some h⟩

theorem publish_cases {identity : ProcessIdentity} (h : Registered o)
    (hs : o.scopes[k]? = some s)
    (ha : a = .call k (.publish token identity) ∨ a = .call k (.exec token identity)) :
    (o.publish k s token identity).1 = o ∨
      ∃ e, (o.publish k s token identity).1 = o.enter k token e ∧ Enters o a k s token e := by
  unfold Owner.publish
  split
  · split
    · split
      · exact .inl rfl
      · exact .inl rfl
    · exact .inl rfl
  · rename_i htoken
    split
    · exact .inl rfl
    rename_i howned
    split
    · exact .inl rfl
    split
    · exact .inl rfl
    dsimp only
    split
    · exact .inl rfl
    rename_i hgroup
    rw [not_or, not_not, Bool.not_eq_true, isSome_eq_false_iff,
      isNone_iff_eq_none] at howned
    refine .inr ⟨_, rfl, hs, howned.1, howned.2, htoken, ⟨identity, ha, rfl, rfl⟩, _, rfl, ?_⟩
    have hnodup : (keys s.runs).Nodup := scope_eq hs ▸ h.tokens_nodup k
    by_cases hself : identity.pgid.getD (Owner.inheritedGroup s identity) = identity.pid
    · exact .inl hself
    have hinherited : identity.pgid.getD (Owner.inheritedGroup s identity) =
        Owner.inheritedGroup s identity := by
      by_contra hne
      exact hgroup (.inr ⟨hself, hne⟩)
    rw [hinherited] at hself ⊢
    unfold Owner.inheritedGroup at hself ⊢
    cases hparent : Owner.parentOf s identity.ppid with
    | none =>
      rw [hparent] at hself
      exact absurd rfl hself
    | some parent =>
      obtain ⟨⟨token', hmem⟩, hpid⟩ := parentOf_eq_some hparent
      have hrun : o.run k token' = some parent :=
        (run_eq hs).trans (find_of_mem hnodup hmem)
      obtain ⟨pgid, hpgid⟩ := h.grouped k token' parent hrun
      exact .inr ⟨token', parent, hrun, hpid, by simp [hpgid]⟩

omit [DecidableEq Token] in
theorem scopes_take (hs : o.scopes[k]? = some s) : (o.take k pid).scopes[k]? =
    some { s with allocated := insert pid s.allocated } := by
  simp [Owner.take, Owner.modifyScope, hs]

omit [DecidableEq Token] in
theorem scopes_mark_take (hs : o.scopes[k]? = some s) :
    ∃ s', ((o.take k pid).mark k pid).scopes[k]? = some s' := by
  simp [Owner.mark, Owner.modifyScope, scopes_take hs]

theorem run_mark_take {k' : ℕ} {token' : Token} (hs : o.scopes[k]? = some s) :
    ((o.take k pid).mark k pid).run k' token' = o.run k' token' := by
  have htake : (o.take k pid).scopes[k]? = some _ := scopes_take hs
  rw [run_mark htake, run_take hs]

theorem registered_mark_take (h : Registered o) (hs : o.scopes[k]? = some s)
    (hfree : o.inUse pid = false) : Registered ((o.take k pid).mark k pid) :=
  (h.take hs hfree).mark (scopes_take hs) (Finset.mem_insert_self ..)

theorem change_exec {identity : ProcessIdentity} (h : Registered o)
    (hs : o.scopes[k]? = some s) :
    Change o (.call k (.exec token identity)) (o.exec k token identity).1 := by
  have hgive : GivesOut o (.call k (.exec token identity)) identity.pid := .exec ..
  unfold Owner.exec Owner.claim
  split
  · rename_i m hclaim
    split at hclaim
    · cases hclaim
    · split at hclaim
      · cases hclaim
      · rename_i huse
        have hfree : o.inUse identity.pid = false := Bool.eq_false_of_not_eq_true huse
        cases hclaim
        obtain ⟨s', hs'⟩ : ∃ s', ((o.take k identity.pid).mark k identity.pid).scopes[k]? =
            some s' := scopes_mark_take hs
        rw [hs']
        rcases publish_cases (registered_mark_take h hs hfree) hs' (.inr rfl) with hsame | hnew
        · dsimp only
          rw [hsame]
          exact .claimed hs hfree hgive
        · obtain ⟨e, he, henters⟩ := hnew
          dsimp only
          rw [he]
          exact .execed hs hfree hgive henters
  · rename_i refused hnot
    split
    · exact .same (.refl o)
    · rename_i hpid
      rw [if_neg hpid] at hnot
      split
      · exact .same (.refl o)
      · rename_i huse
        rw [if_neg huse] at hnot
        exact absurd rfl (hnot _)

theorem change_perform (h : Registered o) {c : Call Token} (ha : a = .call k c)
    (hs : o.scopes[k]? = some s) : Change o a (o.perform k s c).1 := by
  have hanswer : answer o a = some (o.perform k s c) := by rw [ha, answer, hs, map_some]
  by_cases hdispose : c = .dispose
  · subst hdispose
    exact .disposed ha hs
  have hperform : o.perform k s c =
      if s.disposed then (o, .threw .scopeClosed) else o.performOpen k s c := by
    cases c <;> first | rfl | exact absurd rfl hdispose
  rw [hperform] at hanswer ⊢
  split
  · exact .same (.refl o)
  · rename_i hopen
    rw [if_neg hopen] at hanswer
    cases c with
    | allocate => exact change_allocate hs hanswer
    | claim pid => exact change_claim hs (ha ▸ .claim k pid)
    | exec token identity => exact ha ▸ change_exec h hs
    | publish token identity =>
      rcases publish_cases h hs (.inl ha) with hsame | ⟨e, he, henters⟩
      · refine .same ?_
        have hthere : (o.performOpen k s (.publish token identity)).1 = o := hsame
        rw [hthere]
        exact .refl o
      · have hpublished := Change.published henters
        rwa [← he] at hpublished
    | forget token =>
      cases hfind : find token s.runs with
      | none =>
        have hsame : (o.performOpen k s (.forget token)).1 = o := by
          simp [Owner.performOpen, Owner.forget, hfind]
        rw [hsame]
        exact .same (.refl o)
      | some e =>
        have hleft := Change.forgotten ha hs hfind
        have hthere : (o.performOpen k s (.forget token)).1 =
            o.leave k token e.identity.pid := by
          simp [Owner.performOpen, Owner.forget, hfind]
        rwa [← hthere] at hleft
    | lookup pid => exact .same (.refl o)
    | signal pid signal callerPid =>
      refine .same ?_
      unfold Owner.performOpen Owner.signal
      dsimp only
      split
      · exact .refl o
      · split
        · exact .refl o
        · split
          · exact .frames o _
          · exact .refl o
    | lookupGroup pgid => exact .same (.refl o)
    | signalGroup pgid signal =>
      refine .same ?_
      unfold Owner.performOpen Owner.signalGroup
      dsimp only
      split
      · exact .refl o
      · split
        · exact .refl o
        · exact .deliver o _ _
    | receiveSignals => exact .same (.receiveSignals hs)
    | dispose => exact absurd rfl hdispose

theorem change_of_step (h : Registered o) {o' : Owner Token}
    (hstep : step o a = some o') : Change o a o' := by
  obtain ⟨⟨o'', reply⟩, hanswer, rfl⟩ := map_eq_some_iff.1 hstep
  cases a with
  | createScope =>
    cases hanswer
    exact .same (.createScope o)
  | installAllocator =>
    cases hanswer
    exact .same ⟨rfl, rfl, rfl, fun _ => rfl, fun _ => rfl, fun _ => rfl⟩
  | call k c =>
    obtain ⟨s, hs, hperform⟩ := map_eq_some_iff.1 hanswer
    have hchange := change_perform (a := .call k c) h rfl hs
    rwa [hperform] at hchange
  | allocatorReturns pid =>
    have hwhole := hanswer
    cases hframes : o.frames with
    | nil => simp [answer, hframes] at hanswer
    | cons frame frames =>
      cases frame with
      | allocating j =>
        simp only [answer, hframes] at hanswer
        obtain ⟨s, hs, heq⟩ := map_eq_some_iff.1 hanswer
        rw [← heq] at hwhole
        have hchange := change_allocateAnswered hs hwhole
        rwa [heq] at hchange
      | signalling | group _ _ => simp [answer, hframes] at hanswer
  | handlerReturns taken =>
    cases hframes : o.frames with
    | nil => simp [answer, hframes] at hanswer
    | cons frame frames =>
      cases frame with
      | allocating j => simp [answer, hframes] at hanswer
      | signalling =>
        simp only [answer, hframes] at hanswer
        cases hanswer
        exact .same (.frames o _)
      | group left delivered =>
        simp only [answer, hframes, some_inj] at hanswer
        have hsame := (SameTables.frames o frames).trans (.deliver _ left (delivered || taken))
        rw [hanswer] at hsame
        exact .same hsame
  | throws =>
    cases hframes : o.frames with
    | nil => simp [answer, hframes] at hanswer
    | cons frame frames =>
      simp only [answer, hframes] at hanswer
      cases hanswer
      exact .same (.frames o _)

/-! ## What a change keeps -/

namespace Change

variable {o' : Owner Token}

theorem registered (h : Registered o) (hchange : Change o a o') : Registered o' := by
  cases hchange with
  | same hsame => exact h.of_same hsame
  | allocated hs hfree _ hsame => exact (h.take hs hfree).of_same hsame
  | claimed hs hfree _ => exact registered_mark_take h hs hfree
  | published henters =>
    obtain ⟨pgid, hpgid, -⟩ := henters.published.group
    exact h.enter henters.scope henters.allocated henters.live henters.fresh ⟨pgid, hpgid⟩
  | execed hs hfree _ henters =>
    obtain ⟨pgid, hpgid, -⟩ := henters.published.group
    exact (registered_mark_take h hs hfree).enter henters.scope henters.allocated henters.live
      henters.fresh ⟨pgid, hpgid⟩
  | forgotten _ hs hfind => exact h.leave hs hfind
  | disposed _ hs => exact h.dispose hs

theorem held_or_givesOut {p : JsNumber} (hchange : Change o a o') (hp : p ∈ o'.held) :
    p ∈ o.held ∨ GivesOut o a p := by
  have htake : ∀ {k pid}, GivesOut o a pid → p ∈ (o.take k pid).held →
      p ∈ o.held ∨ GivesOut o a p := by
    intro k pid hgive hp
    rcases Finset.mem_insert.1 hp with rfl | hp
    · exact .inr hgive
    · exact .inl hp
  cases hchange with
  | same hsame => exact .inl (hsame.held ▸ hp)
  | allocated hs hfree hgive hsame => exact htake hgive (hsame.held ▸ hp)
  | @claimed k _ _ hs hfree hgive => exact htake (k := k) hgive hp
  | published henters => exact .inl hp
  | @execed k _ _ _ _ _ hs hfree hgive henters => exact htake (k := k) hgive hp
  | forgotten ha hs hfind => exact .inl (Finset.mem_of_mem_erase hp)
  | @disposed k s ha hs =>
    refine .inl ?_
    unfold Owner.dispose at hp
    split at hp
    · exact hp
    · exact (Finset.mem_sdiff.1 hp).1

theorem run_or_published {k' : ℕ} {token' : Token} {d : Registration} (hchange : Change o a o')
    (hd : o'.run k' token' = some d) :
    o.run k' token' = some d ∨ Published o a k' token' d := by
  cases hchange with
  | same hsame => exact .inl (hsame.run ▸ hd)
  | allocated hs hfree hgive hsame =>
    rw [hsame.run, run_take hs] at hd
    exact .inl hd
  | claimed hs hfree hgive =>
    rw [run_mark_take hs] at hd
    exact .inl hd
  | published henters =>
    rw [run_enter henters.scope] at hd
    split at hd
    · rename_i hk
      cases hd
      rw [hk.1, hk.2]
      exact .inr henters.published
    · exact .inl hd
  | execed hs hfree hgive henters =>
    rw [run_enter henters.scope, run_mark_take hs] at hd
    split at hd
    · rename_i hk
      cases hd
      obtain ⟨hcalled, pgid, hpgid, hgroup⟩ := henters.published
      simp only [run_mark_take hs] at hgroup
      rw [hk.1, hk.2]
      exact .inr ⟨hcalled, pgid, hpgid, hgroup⟩
    · exact .inl hd
  | forgotten ha hs hfind =>
    rw [run_leave hs] at hd
    split at hd
    · cases hd
    · exact .inl hd
  | @disposed k s ha hs =>
    by_cases hdisposed : s.disposed
    · rw [Owner.dispose, if_pos hdisposed] at hd
      exact .inl hd
    · rw [run_dispose hs (Bool.eq_false_of_not_eq_true hdisposed)] at hd
      split at hd
      · cases hd
      · exact .inl hd

end Change

/-! ## Runs of the registry -/

variable {o' : Owner Token}

theorem Registered.step (h : Registered o) (hstep : step o a = some o') : Registered o' :=
  (change_of_step h hstep).registered h

theorem Registered.absent (h : Registered o) (hpid : pid ∉ o.held) : Absent o pid where
  held := hpid
  live := by
    cases hfind : find pid o.live with
    | none => rfl
    | some e => exact absurd (h.held_of_live hfind) hpid
  receivers := by
    cases hfind : find pid o.receivers with
    | none => rfl
    | some k =>
      obtain ⟨token, e, hrun, rfl⟩ := (h.receiver_iff pid k).1 hfind
      exact absurd ((h.held_iff _).2 ⟨k, h.run_allocated k token e hrun⟩) hpid
  allocated k hk := hpid ((h.held_iff pid).2 ⟨k, hk⟩)
  claimed k hk := hpid ((h.held_iff pid).2 ⟨k, h.claimed_allocated k hk⟩)
  runs k token e hrun := by
    rintro rfl
    exact hpid ((h.held_iff _).2 ⟨k, h.run_allocated k token e hrun⟩)

theorem notMem_held_of_retires (hretires : Retires o a pid) (hstep : step o a = some o') :
    pid ∉ o'.held := by
  obtain ⟨⟨o'', reply⟩, hanswer, rfl⟩ := map_eq_some_iff.1 hstep
  cases hretires with
  | @forget k token e hopen hrun =>
    obtain ⟨s, hs, hperform⟩ := map_eq_some_iff.1 hanswer
    rw [scope_eq hs] at hopen
    rw [run_eq hs] at hrun
    simp only [Owner.perform, hopen, Bool.false_eq_true, if_false, Owner.performOpen,
      Owner.forget, hrun] at hperform
    cases hperform
    exact Finset.notMem_erase e.identity.pid o.held
  | @dispose k pid hopen hmem =>
    obtain ⟨s, hs, hperform⟩ := map_eq_some_iff.1 hanswer
    rw [scope_eq hs] at hopen hmem
    simp only [Owner.perform, Owner.dispose, hopen, Bool.false_eq_true, if_false] at hperform
    cases hperform
    exact fun hp => (Finset.mem_sdiff.1 hp).2 hmem

theorem notMem_held_of_run {as : List (Action Token)} (h : Registered o) (hpid : pid ∉ o.held)
    (hgive : Machine.Meets ProcessRegistry.step (fun q b => ¬ GivesOut q b pid) o as)
    (hrun : Machine.run ProcessRegistry.step o as = some o') :
    Registered o' ∧ pid ∉ o'.held := by
  refine Machine.invariant_of_meets (I := fun q => Registered q ∧ pid ∉ q.held) ?_ ⟨h, hpid⟩
    hgive hrun
  intro q b q' hq hnot hstep
  refine ⟨hq.1.step hstep, fun hp => ?_⟩
  rcases (change_of_step hq.1 hstep).held_or_givesOut hp with hp | hp
  · exact hq.2 hp
  · exact hnot hp

/-- In every run of the registry, whatever the code does that runs inside its calls: the
tables agree, and what is live is held; every run is published by its scope, in its own
group or its parent's; and a number that is forgotten or whose scope is closed is in none
of the tables until it is given out again. -/
theorem registered_of_run {random : ℕ} {as : List (Action Token)}
    (h : Machine.run step (Owner.new random : Owner Token) as = some o) :
    Registered o ∧
      (∀ pid e, find pid o.live = some e → pid ∈ o.held) ∧
      (∀ a o' k token e, step o a = some o' → o'.run k token = some e →
        o.run k token = some e ∨ Published o a k token e) ∧
      ∀ a o' pid bs o'', step o a = some o' → Retires o a pid →
        Machine.Meets step (fun q b => ¬ GivesOut q b pid) o' bs →
        Machine.run step o' bs = some o'' → Absent o'' pid := by
  have hnew : Registered (Owner.new random : Owner Token) := .new random
  have hregistered : Registered o :=
    Machine.invariant (fun _ _ _ hq hstep => Registered.step hq hstep) hnew h
  refine ⟨hregistered, fun _ _ => hregistered.held_of_live, ?_, ?_⟩
  · intro a o' k token e hstep hrun
    exact (change_of_step hregistered hstep).run_or_published hrun
  · intro a o' pid bs o'' hstep hretires hgive hrun
    obtain ⟨hregistered', hpid⟩ := notMem_held_of_run (hregistered.step hstep)
      (notMem_held_of_retires hretires hstep) hgive hrun
    exact hregistered'.absent hpid

theorem registered_of_run_forget : ∃ (o o' : Owner String) (e : Registration),
    Machine.run step (Owner.new 0) [.createScope, .call 0 (.claim (.ofInt 2)),
      .call 0 (.publish "init" { pid := .ofInt 2, ppid := .ofInt 0 })] = some o ∧
      o.run 0 "init" = some e ∧ step o (.call 0 (.forget "init")) = some o' ∧
      Registered o ∧ Absent o' e.identity.pid := by
  have hrun : ∃ (o o' : Owner String) (e : Registration),
      Machine.run step (Owner.new 0) [.createScope, .call 0 (.claim (.ofInt 2)),
        .call 0 (.publish "init" { pid := .ofInt 2, ppid := .ofInt 0 })] = some o ∧
        (o.scope 0).disposed = false ∧ o.run 0 "init" = some e ∧
        step o (.call 0 (.forget "init")) = some o' := ⟨_, _, _, rfl, rfl, rfl, rfl⟩
  obtain ⟨o, o', e, hrun, hopen, he, hforget⟩ := hrun
  obtain ⟨hregistered, -, -, habsent⟩ := registered_of_run hrun
  exact ⟨o, o', e, hrun, he, hforget, hregistered,
    habsent _ _ _ [] _ hforget (.forget hopen he) trivial rfl⟩

end ProcessRegistry

end Tabnode
