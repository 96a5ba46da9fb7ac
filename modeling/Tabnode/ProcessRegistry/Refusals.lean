import Tabnode.ProcessRegistry.Lifetimes

/-!
# What a refused registration leaves behind

`allocate`, `claim` and `publish` look before they write: one that throws has written in
no table. `exec` is a claim and then a publication, and its claim stays where the
publication is refused. That is the one trace a refusal leaves (`leavesNoTrace_iff`).
-/

namespace Tabnode

namespace ProcessRegistry

variable {Token : Type*}

/-- The tables of an owner and of its scopes. -/
structure Tables (Token : Type*) where
  held : Finset JsNumber
  live : List (JsNumber × Registration)
  receivers : List (JsNumber × ℕ)
  scopes : List (Scope Token)

def Owner.tables (o : Owner Token) : Tables Token :=
  ⟨o.held, o.live, o.receivers, o.scopes⟩

/-- The calls that give a number out or take a run in. -/
inductive Registers : Call Token → Prop where
  | allocate : Registers .allocate
  | claim (pid : JsNumber) : Registers (.claim pid)
  | exec (token : Token) (identity : ProcessIdentity) : Registers (.exec token identity)
  | publish (token : Token) (identity : ProcessIdentity) : Registers (.publish token identity)

/-- A step of such a call that does not answer it: the call throws, an `allocate` asks the
allocator, throws over the allocator's answer or asks again, or what the allocator throws
goes through it. -/
inductive Fails [DecidableEq Token] (o : Owner Token) : Action Token → Owner Token → Prop where
  | refused {k : ℕ} {c : Call Token} {o' : Owner Token} {f : Failure} (hc : Registers c)
      (ha : answer o (.call k c) = some (o', .threw f)) : Fails o (.call k c) o'
  | asks {k : ℕ} {o' : Owner Token} (ha : answer o (.call k .allocate) = some (o', .pending)) :
      Fails o (.call k .allocate) o'
  | answered {pid : JsNumber} {o' : Owner Token} {f : Failure}
      (ha : answer o (.allocatorReturns pid) = some (o', .threw f)) :
      Fails o (.allocatorReturns pid) o'
  | asksAgain {pid : JsNumber} {o' : Owner Token}
      (ha : answer o (.allocatorReturns pid) = some (o', .pending)) :
      Fails o (.allocatorReturns pid) o'
  | thrown {k : ℕ} {frames : List Frame} {o' : Owner Token}
      (hframes : o.frames = .allocating k :: frames) (ha : step o .throws = some o') :
      Fails o .throws o'

def LeavesNoTrace [DecidableEq Token] (o : Owner Token) (a : Action Token) : Prop :=
  ∀ o', Fails o a o' → o'.tables = o.tables

/-- What the publication of a number just claimed is refused for: its token has a run, the
parent it names is no number of a process, or the group is neither its own nor its
parent's. -/
def RunRefused [DecidableEq Token] (s : Scope Token) (token : Token) (identity : ProcessIdentity) : Prop :=
  (OrderedMap.find token s.runs).isSome ∨ isParentPid identity.ppid = false ∨
    isGroupPid (identity.pgid.getD (Owner.inheritedGroup s identity)) = false ∨
    (identity.pgid.getD (Owner.inheritedGroup s identity) ≠ identity.pid ∧
      identity.pgid.getD (Owner.inheritedGroup s identity) ≠ Owner.inheritedGroup s identity)

/-- An `exec` of a free number whose run is refused. -/
def KeepsClaim [DecidableEq Token] (o : Owner Token) : Action Token → Prop
  | .call k (.exec token identity) => ∃ s, o.scopes[k]? = some s ∧ s.disposed = false ∧
      isPid identity.pid = true ∧ o.inUse identity.pid = false ∧ RunRefused s token identity
  | _ => False

variable {o o' : Owner Token} {k : ℕ} {s : Scope Token} {token : Token} {pid : JsNumber}
  {identity : ProcessIdentity} {f : Failure}

/-! ## The calls that look before they write -/

theorem tables_of_allocate_threw (h : o.allocate k = (o', .threw f)) : o'.tables = o.tables := by
  unfold Owner.allocate at h
  split at h
  · cases h
  · split at h
    · cases h
      rfl
    · split at h
      · cases h
      · cases h
        rfl

theorem tables_of_allocate_pending (h : o.allocate k = (o', .pending)) :
    o'.tables = o.tables := by
  unfold Owner.allocate at h
  split at h
  · cases h
    rfl
  · split at h
    · cases h
    · split at h <;> cases h

theorem tables_of_allocateAnswered {reply : Reply} (h : o.allocateAnswered k pid = (o', reply))
    (hreply : reply ≠ .pid pid) : o'.tables = o.tables := by
  unfold Owner.allocateAnswered at h
  split at h
  · cases h
    rfl
  · split at h
    · cases h
      rfl
    · cases h
      exact absurd rfl hreply

theorem claim_threw (h : o.claim k pid = (o', .threw f)) : o' = o := by
  unfold Owner.claim at h
  split at h
  · cases h
    rfl
  · split at h
    · cases h
      rfl
    · cases h

theorem scopes_claimed (hs : o.scopes[k]? = some s) :
    ((o.take k pid).mark k pid).scopes[k]? =
      some { s with allocated := insert pid s.allocated, claimed := insert pid s.claimed } := by
  simp [Owner.mark, Owner.modifyScope, scopes_take hs]

theorem tables_claimed_ne (hfree : o.inUse pid = false) :
    ((o.take k pid).mark k pid).tables ≠ o.tables := by
  intro h
  have hheld : insert pid o.held = o.held := congrArg Tables.held h
  have hmem : pid ∈ o.held := by
    rw [← hheld]
    exact Finset.mem_insert_self ..
  rw [Owner.inUse, Bool.or_eq_false_iff, decide_eq_false_iff_not] at hfree
  exact hfree.1 hmem

variable [DecidableEq Token]

theorem tables_of_allocatorReturns {reply : Reply}
    (h : answer o (.allocatorReturns pid) = some (o', reply)) (hreply : reply ≠ .pid pid) :
    o'.tables = o.tables := by
  simp only [answer] at h
  split at h
  · next k frames hframes =>
    obtain ⟨s, -, hanswered⟩ := Option.map_eq_some_iff.1 h
    rw [tables_of_allocateAnswered hanswered hreply]
    rfl
  · cases h

theorem publish_threw (h : o.publish k s token identity = (o', .threw f)) : o' = o := by
  unfold Owner.publish at h
  split at h
  · split at h
    · split at h <;> cases h
      rfl
    · cases h
      rfl
  · split at h
    · cases h
      rfl
    · split at h
      · cases h
        rfl
      · split at h
        · cases h
          rfl
        · dsimp only at h
          split at h <;> cases h
          rfl

/-! ## An execution -/

theorem exec_eq_publish (hpid : isPid identity.pid = true)
    (hfree : o.inUse identity.pid = false) (hs : o.scopes[k]? = some s) :
    o.exec k token identity = ((o.take k identity.pid).mark k identity.pid).publish k
      { s with allocated := insert identity.pid s.allocated,
               claimed := insert identity.pid s.claimed } token identity := by
  have hclaim : o.claim k identity.pid =
      ((o.take k identity.pid).mark k identity.pid, .done) := by
    rw [Owner.claim, hpid, hfree]
    rfl
  rw [Owner.exec, hclaim]
  simp only [scopes_claimed hs]

/-- The publication of a number just claimed throws for what `RunRefused` says, and for
nothing else. -/
theorem publish_claimed_threw_iff (h : Registered o) (hs : o.scopes[k]? = some s)
    (hfree : o.inUse identity.pid = false) :
    (∃ f, (((o.take k identity.pid).mark k identity.pid).publish k
      { s with allocated := insert identity.pid s.allocated,
               claimed := insert identity.pid s.claimed } token identity).2 = .threw f) ↔
      RunRefused s token identity := by
  have hlive : OrderedMap.find identity.pid ((o.take k identity.pid).mark k identity.pid).live =
      none := by
    rw [Owner.inUse, Bool.or_eq_false_iff, Option.isSome_eq_false_iff,
      Option.isNone_iff_eq_none] at hfree
    exact hfree.2
  unfold Owner.publish RunRefused
  cases hrun : OrderedMap.find token s.runs with
  | some previous =>
    -- the run under the token has a number of its own, which is held
    have hheld : previous.identity.pid ∈ o.held := by
      refine (h.held_iff _).2 ⟨k, h.run_allocated k token previous ?_⟩
      rw [run_eq hs, hrun]
    have hne : ¬ (previous.identity.pid = identity.pid ∧
        previous.identity.ppid = identity.ppid) := by
      rintro ⟨hpid, -⟩
      rw [Owner.inUse, Bool.or_eq_false_iff, decide_eq_false_iff_not, ← hpid] at hfree
      exact hfree.1 hheld
    simp [hne]
  | none =>
    have hinherited : Owner.inheritedGroup
        { s with allocated := insert identity.pid s.allocated,
                 claimed := insert identity.pid s.claimed } identity =
        Owner.inheritedGroup s identity := rfl
    simp only [Finset.mem_insert_self, not_true, hlive, Option.isSome_none, Bool.false_eq_true,
      or_self, if_false, and_false, hinherited, false_or]
    by_cases hparent : isParentPid identity.ppid = true
    · by_cases hgroup : isGroupPid (identity.pgid.getD (Owner.inheritedGroup s identity)) = false ∨
          (identity.pgid.getD (Owner.inheritedGroup s identity) ≠ identity.pid ∧
            identity.pgid.getD (Owner.inheritedGroup s identity) ≠
              Owner.inheritedGroup s identity)
      · simp [hparent, hgroup]
      · simp [hparent, hgroup]
    · simp [hparent]

/-! ## A failing step -/

theorem Owner.perform_threw {c : Call Token} (hc : Registers c)
    (h : o.perform k s c = (o', .threw f)) :
    o' = o ∨ s.disposed = false ∧ o.performOpen k s c = (o', .threw f) := by
  have hperform : o.perform k s c =
      if s.disposed then (o, .threw .scopeClosed) else o.performOpen k s c := by
    cases hc <;> rfl
  rw [hperform] at h
  cases hopen : s.disposed with
  | true =>
    rw [hopen, if_pos rfl] at h
    cases h
    exact .inl rfl
  | false =>
    rw [hopen, if_neg (by simp)] at h
    exact .inr ⟨rfl, h⟩

/-- An execution that throws has claimed its number, or left everything as it was. -/
theorem exec_threw (h : Registered o) (hs : o.scopes[k]? = some s)
    (hopen : s.disposed = false) (hthrew : o.exec k token identity = (o', .threw f)) :
    o' = o ∨ KeepsClaim o (.call k (.exec token identity)) := by
  by_cases hpid : isPid identity.pid = true
  · by_cases hfree : o.inUse identity.pid = false
    · rw [exec_eq_publish hpid hfree hs] at hthrew
      refine .inr ⟨s, hs, hopen, hpid, hfree, ?_⟩
      exact (publish_claimed_threw_iff h hs hfree).1 ⟨f, congrArg Prod.snd hthrew⟩
    · refine .inl ?_
      have huse : o.inUse identity.pid = true := Bool.eq_true_of_not_eq_false hfree
      simp only [Owner.exec, Owner.claim, hpid, huse] at hthrew
      cases hthrew
      rfl
  · refine .inl ?_
    simp only [Owner.exec, Owner.claim, hpid] at hthrew
    cases hthrew
    rfl

/-- A failing step leaves the tables as they were, an execution that keeps its claim
apart. -/
theorem Fails.tables {a : Action Token} (h : Registered o) (hfails : Fails o a o') :
    o'.tables = o.tables ∨ KeepsClaim o a := by
  cases hfails with
  | @refused k c o' f hc ha =>
    obtain ⟨s, hs, hperform⟩ := Option.map_eq_some_iff.1 ha
    rcases Owner.perform_threw hc hperform with rfl | ⟨hopen, hthrew⟩
    · exact .inl rfl
    cases hc with
    | allocate => exact .inl (tables_of_allocate_threw hthrew)
    | claim pid => exact .inl (by rw [claim_threw hthrew])
    | publish token identity => exact .inl (by rw [publish_threw hthrew])
    | exec token identity =>
      rcases exec_threw h hs hopen hthrew with rfl | hkeeps
      · exact .inl rfl
      · exact .inr hkeeps
  | @asks k o' ha =>
    obtain ⟨s, hs, hperform⟩ := Option.map_eq_some_iff.1 ha
    have hopen : o.perform k s .allocate =
        if s.disposed then (o, .threw .scopeClosed) else o.allocate k := rfl
    rw [hopen] at hperform
    split at hperform
    · cases hperform
    · exact .inl (tables_of_allocate_pending hperform)
  | @answered pid o' f ha =>
    exact .inl (tables_of_allocatorReturns ha (by simp))
  | @asksAgain pid o' ha =>
    exact .inl (tables_of_allocatorReturns ha (by simp))
  | @thrown k frames o' hframes ha =>
    simp only [step, answer, hframes, Option.map_some, Option.some_inj] at ha
    rw [← ha]
    exact .inl rfl

/-- The steps of a failing call leave no trace unless the call is an `exec` of a free
number whose run is refused; that one keeps the number. -/
theorem leavesNoTrace_iff {random : ℕ} {as : List (Action Token)}
    (h : Machine.run step (Owner.new random : Owner Token) as = some o) (a : Action Token) :
    LeavesNoTrace o a ↔ ¬ KeepsClaim o a := by
  have hregistered : Registered o := (registered_of_run h).1
  constructor
  · intro htrace hkeeps
    cases a with
    | call k c =>
      cases c with
      | exec token identity =>
        obtain ⟨s, hs, hopen, hpid, hfree, hrefused⟩ := hkeeps
        obtain ⟨f, hf⟩ := (publish_claimed_threw_iff hregistered hs hfree).2 hrefused
        have hexec : o.exec k token identity =
            ((o.take k identity.pid).mark k identity.pid).publish k
              { s with allocated := insert identity.pid s.allocated,
                       claimed := insert identity.pid s.claimed } token identity :=
          exec_eq_publish hpid hfree hs
        have hthrew : o.exec k token identity =
            ((o.take k identity.pid).mark k identity.pid, .threw f) := by
          rw [hexec]
          exact Prod.ext (publish_threw (Prod.ext rfl hf)) hf
        have hopened : o.perform k s (.exec token identity) = o.exec k token identity := by
          rw [Owner.perform, hopen, if_neg (by simp)]
          · rfl
          · simp
        have hanswer : answer o (.call k (.exec token identity)) =
            some ((o.take k identity.pid).mark k identity.pid, .threw f) := by
          rw [answer, hs, Option.map_some, hopened, hthrew]
        exact tables_claimed_ne hfree (htrace _ (.refused (.exec token identity) hanswer))
      | _ => exact hkeeps
    | _ => exact hkeeps
  · intro hkeeps o' hfails
    exact (hfails.tables hregistered).resolve_right hkeeps

/-- A number claimed a second time is refused without a trace. -/
theorem leavesNoTrace_claim : ∃ (o : Owner String),
    Machine.run step (Owner.new 0) [.createScope, .call 0 (.claim (.ofInt 5))] = some o ∧
      (answer o (.call 0 (.claim (.ofInt 5)))).map Prod.snd = some (.threw .identifierHeld) ∧
      LeavesNoTrace o (.call 0 (.claim (.ofInt 5))) := by
  have hrun : ∃ (o : Owner String), Machine.run step (Owner.new 0)
      [.createScope, .call 0 (.claim (.ofInt 5))] = some o ∧
      (answer o (.call 0 (.claim (.ofInt 5)))).map Prod.snd = some (.threw .identifierHeld) :=
    ⟨_, rfl, by decide⟩
  obtain ⟨o, hrun, hanswer⟩ := hrun
  exact ⟨o, hrun, hanswer, (leavesNoTrace_iff hrun _).2 fun hkeeps => hkeeps⟩

/-- The number of an execution whose token has a run is held from then on. -/
theorem not_leavesNoTrace_exec : ∃ (o o' : Owner String) (a : Action String),
    Machine.run step (Owner.new 0) [.createScope, .call 0 (.claim (.ofInt 5)),
      .call 0 (.publish "sh" { pid := .ofInt 5, ppid := .ofInt 0 })] = some o ∧
      a = .call 0 (.exec "sh" { pid := .ofInt 6, ppid := .ofInt 0 }) ∧
      answer o a = some (o', .threw .identityNotOwned) ∧
      JsNumber.ofInt 6 ∉ o.held ∧ JsNumber.ofInt 6 ∈ o'.held ∧ ¬ LeavesNoTrace o a := by
  have hrun : ∃ (o o' : Owner String), Machine.run step (Owner.new 0)
      [.createScope, .call 0 (.claim (.ofInt 5)),
        .call 0 (.publish "sh" { pid := .ofInt 5, ppid := .ofInt 0 })] = some o ∧
      answer o (.call 0 (.exec "sh" { pid := .ofInt 6, ppid := .ofInt 0 })) =
        some (o', .threw .identityNotOwned) ∧
      JsNumber.ofInt 6 ∉ o.held ∧ JsNumber.ofInt 6 ∈ o'.held :=
    ⟨_, _, rfl, rfl, by decide, by decide⟩
  obtain ⟨o, o', hrun, hanswer, hbefore, hafter⟩ := hrun
  refine ⟨o, o', _, hrun, rfl, hanswer, hbefore, hafter, fun htrace => ?_⟩
  have htables : o'.tables = o.tables := htrace o' (.refused (.exec _ _) hanswer)
  have hheld : o'.held = o.held := congrArg Tables.held htables
  exact hbefore (hheld ▸ hafter)

end ProcessRegistry

end Tabnode
