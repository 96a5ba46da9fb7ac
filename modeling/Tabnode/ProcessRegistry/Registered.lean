import Tabnode.Data.Machine
import Tabnode.ProcessRegistry.Owner

/-!
# What the tables of the registry say

The five tables say the same of every process (`Registered`): what is live is held, the
live table is the scopes' runs put together, and each of them is answered for by its own
scope. A number is given to a scope, a run enters the tables, leaves them, or its scope
is closed; each keeps this, so every run of the registry does, whatever the code does
that runs inside its calls.
-/

namespace Tabnode

namespace ProcessRegistry

open OrderedMap

variable {Token : Type*}

def Owner.scope (o : Owner Token) (k : ℕ) : Scope Token :=
  (o.scopes[k]?).getD .new

def Owner.run [DecidableEq Token] (o : Owner Token) (k : ℕ) (token : Token) :
    Option Registration :=
  find token (o.scope k).runs

/-- The tables of the owner and its scopes agree. -/
structure Registered [DecidableEq Token] (o : Owner Token) : Prop where
  /-- The numbers held are those allocated to the scopes, each to one. -/
  held_iff : ∀ pid, pid ∈ o.held ↔ ∃ k, pid ∈ (o.scope k).allocated
  allocated_apart : ∀ pid k k', pid ∈ (o.scope k).allocated → pid ∈ (o.scope k').allocated →
    k = k'
  claimed_allocated : ∀ k, (o.scope k).claimed ⊆ (o.scope k).allocated
  /-- A run's number is allocated to its scope, and no two runs share one. -/
  run_allocated : ∀ k token e, o.run k token = some e →
    e.identity.pid ∈ (o.scope k).allocated
  run_apart : ∀ k k' token token' e e', o.run k token = some e → o.run k' token' = some e' →
    e.identity.pid = e'.identity.pid → k = k' ∧ token = token'
  /-- The live table is the runs of the scopes. -/
  live_iff : ∀ pid e, find pid o.live = some e ↔
    ∃ k token, o.run k token = some e ∧ e.identity.pid = pid
  /-- What is live is answered for by the scope whose run it is. -/
  receiver_iff : ∀ pid k, find pid o.receivers = some k ↔
    ∃ token e, o.run k token = some e ∧ e.identity.pid = pid
  /-- A published process is in a group. -/
  grouped : ∀ k token e, o.run k token = some e → ∃ pgid, e.identity.pgid = some pgid
  tokens_nodup : ∀ k, (keys (o.scope k).runs).Nodup

section Views

variable {o : Owner Token} {k k' : ℕ} {s : Scope Token} {f : Scope Token → Scope Token}

theorem scope_eq (hs : o.scopes[k]? = some s) : o.scope k = s := by
  rw [Owner.scope, hs, Option.getD_some]

theorem scope_modifyScope (hs : o.scopes[k]? = some s) :
    (o.modifyScope k f).scope k' = if k' = k then f s else o.scope k' := by
  unfold Owner.scope Owner.modifyScope
  rw [List.getElem?_modify]
  by_cases hk : k' = k
  · rw [if_pos hk, hk, hs]
    simp
  · rw [if_neg hk]
    simp [Ne.symm hk]

theorem scope_modifyScope_of_eq {α : Type*} (g : Scope Token → α) (hs : o.scopes[k]? = some s)
    (hg : g (f s) = g s) : g ((o.modifyScope k f).scope k') = g (o.scope k') := by
  rw [scope_modifyScope hs]
  by_cases hk : k' = k
  · rw [if_pos hk, hk, scope_eq hs, hg]
  · rw [if_neg hk]

@[simp] theorem mark_held {pid : JsNumber} : (o.mark k pid).held = o.held := rfl

@[simp] theorem mark_live {pid : JsNumber} : (o.mark k pid).live = o.live := rfl

@[simp] theorem mark_receivers {pid : JsNumber} : (o.mark k pid).receivers = o.receivers := rfl

@[simp] theorem take_live {pid : JsNumber} : (o.take k pid).live = o.live := rfl

@[simp] theorem take_receivers {pid : JsNumber} : (o.take k pid).receivers = o.receivers := rfl

end Views

variable [DecidableEq Token] {o : Owner Token} {k : ℕ} {s : Scope Token} {token : Token}
  {e : Registration} {pid : JsNumber}

/-- Two owners with the same tables. -/
structure SameTables (o o' : Owner Token) : Prop where
  held : o'.held = o.held
  live : o'.live = o.live
  receivers : o'.receivers = o.receivers
  allocated : ∀ k, (o'.scope k).allocated = (o.scope k).allocated
  claimed : ∀ k, (o'.scope k).claimed = (o.scope k).claimed
  runs : ∀ k, (o'.scope k).runs = (o.scope k).runs

/-! ## The runs after a change -/

section Runs

variable {k' : ℕ} {token' : Token}

theorem run_eq (hs : o.scopes[k]? = some s) : o.run k token = find token s.runs := by
  rw [Owner.run, scope_eq hs]

theorem SameTables.run {o' : Owner Token} (h : SameTables o o') :
    o'.run k token = o.run k token := by
  rw [Owner.run, h.runs, Owner.run]

theorem run_take (hs : o.scopes[k]? = some s) :
    (o.take k pid).run k' token' = o.run k' token' :=
  scope_modifyScope_of_eq (fun s => find token' s.runs) hs rfl

theorem run_mark (hs : o.scopes[k]? = some s) :
    (o.mark k pid).run k' token' = o.run k' token' :=
  scope_modifyScope_of_eq (fun s => find token' s.runs) hs rfl

theorem run_enter (hs : o.scopes[k]? = some s) : (o.enter k token e).run k' token' =
    if k' = k ∧ token' = token then some e else o.run k' token' := by
  have hscope : (o.enter k token e).scope k' = _ := scope_modifyScope hs
  rw [Owner.run, hscope, Owner.run]
  by_cases hk : k' = k
  · subst hk
    rw [if_pos rfl, scope_eq hs, find_set]
    simp [eq_comm]
  · simp [hk]

theorem run_leave (hs : o.scopes[k]? = some s) : (o.leave k token pid).run k' token' =
    if k' = k ∧ token' = token then none else o.run k' token' := by
  have hscope : (o.leave k token pid).scope k' = _ := scope_modifyScope hs
  rw [Owner.run, hscope, Owner.run]
  by_cases hk : k' = k
  · subst hk
    rw [if_pos rfl, scope_eq hs, find_erase]
    simp [eq_comm]
  · simp [hk]

theorem run_dispose (hs : o.scopes[k]? = some s) (hopen : s.disposed = false) :
    (o.dispose k s).1.run k' token' = if k' = k then none else o.run k' token' := by
  have hscope : (o.dispose k s).1.scope k' =
      if k' = k then ⟨∅, ∅, [], true, false⟩ else o.scope k' := by
    rw [Owner.dispose, hopen]
    exact scope_modifyScope hs
  rw [Owner.run, hscope, Owner.run]
  by_cases hk : k' = k
  · simp [hk]
  · simp [hk]

end Runs

/-! ## What keeps the tables in agreement -/

namespace Registered

theorem new (random : ℕ) : Registered (Owner.new random : Owner Token) where
  held_iff pid := by simp [Owner.new, Owner.scope, Scope.new]
  allocated_apart pid k k' h := by simp [Owner.new, Owner.scope, Scope.new] at h
  claimed_allocated k := by simp [Owner.new, Owner.scope, Scope.new]
  run_allocated k token e h := by cases h
  run_apart k k' token token' e e' h := by cases h
  live_iff pid e := by simp [Owner.new, Owner.run, Owner.scope, Scope.new]
  receiver_iff pid k := by simp [Owner.new, Owner.run, Owner.scope, Scope.new]
  grouped k token e h := by cases h
  tokens_nodup k := List.nodup_nil

theorem of_same {o' : Owner Token} (h : Registered o) (hsame : SameTables o o') :
    Registered o' := by
  have hrun : ∀ k token, o'.run k token = o.run k token := fun _ _ => hsame.run
  constructor
  · simpa only [hsame.held, hsame.allocated] using h.held_iff
  · simpa only [hsame.allocated] using h.allocated_apart
  · simpa only [hsame.allocated, hsame.claimed] using h.claimed_allocated
  · simpa only [hrun, hsame.allocated] using h.run_allocated
  · simpa only [hrun] using h.run_apart
  · simpa only [hrun, hsame.live] using h.live_iff
  · simpa only [hrun, hsame.receivers] using h.receiver_iff
  · simpa only [hrun] using h.grouped
  · simpa only [hsame.runs] using h.tokens_nodup

theorem held_of_live (h : Registered o) (hlive : find pid o.live = some e) :
    pid ∈ o.held := by
  obtain ⟨k, token, hrun, rfl⟩ := (h.live_iff pid e).1 hlive
  exact (h.held_iff _).2 ⟨k, h.run_allocated k token e hrun⟩

theorem notMem_allocated (h : Registered o) (hfree : o.inUse pid = false) (k : ℕ) :
    pid ∉ (o.scope k).allocated := by
  intro hmem
  have hheld := (h.held_iff pid).2 ⟨k, hmem⟩
  simp [Owner.inUse, hheld] at hfree

theorem take (h : Registered o) (hs : o.scopes[k]? = some s) (hfree : o.inUse pid = false) :
    Registered (o.take k pid) := by
  have hallocated : ∀ k' p, p ∈ ((o.take k pid).scope k').allocated ↔
      (k' = k ∧ p = pid) ∨ p ∈ (o.scope k').allocated := by
    intro k' p
    have hscope : (o.take k pid).scope k' = _ := scope_modifyScope hs
    rw [hscope]
    by_cases hk : k' = k
    · simp [hk, scope_eq hs]
    · simp [hk]
  have hclaimed : ∀ k', ((o.take k pid).scope k').claimed = (o.scope k').claimed :=
    fun k' => scope_modifyScope_of_eq Scope.claimed hs rfl
  have hrun : ∀ k' t, (o.take k pid).run k' t = o.run k' t := fun _ _ => run_take hs
  have hout := h.notMem_allocated hfree
  constructor
  · intro p
    have hheld : p ∈ (o.take k pid).held ↔ p = pid ∨ p ∈ o.held := Finset.mem_insert
    simp only [hheld, hallocated, h.held_iff]
    constructor
    · rintro (rfl | ⟨k', hk'⟩)
      · exact ⟨k, .inl ⟨rfl, rfl⟩⟩
      · exact ⟨k', .inr hk'⟩
    · rintro ⟨k', ⟨-, hp⟩ | hk'⟩
      · exact .inl hp
      · exact .inr ⟨k', hk'⟩
  · intro p k₁ k₂ h₁ h₂
    rw [hallocated] at h₁ h₂
    rcases h₁ with ⟨rfl, rfl⟩ | h₁
    · rcases h₂ with ⟨rfl, -⟩ | h₂
      · rfl
      · exact absurd h₂ (hout k₂)
    · rcases h₂ with ⟨rfl, rfl⟩ | h₂
      · exact absurd h₁ (hout k₁)
      · exact h.allocated_apart p k₁ k₂ h₁ h₂
  · intro k' p hp
    rw [hclaimed] at hp
    exact (hallocated k' p).2 (.inr (h.claimed_allocated k' hp))
  · intro k' t e he
    rw [hrun] at he
    exact (hallocated k' _).2 (.inr (h.run_allocated k' t e he))
  · simpa only [hrun] using h.run_apart
  · simpa only [hrun, take_live] using h.live_iff
  · simpa only [hrun, take_receivers] using h.receiver_iff
  · simpa only [hrun] using h.grouped
  · intro k'
    have hruns : ((o.take k pid).scope k').runs = (o.scope k').runs :=
      scope_modifyScope_of_eq Scope.runs hs rfl
    rw [hruns]
    exact h.tokens_nodup k'

theorem mark (h : Registered o) (hs : o.scopes[k]? = some s) (hmem : pid ∈ s.allocated) :
    Registered (o.mark k pid) := by
  have hallocated : ∀ k', ((o.mark k pid).scope k').allocated = (o.scope k').allocated :=
    fun k' => scope_modifyScope_of_eq Scope.allocated hs rfl
  have hrun : ∀ k' t, (o.mark k pid).run k' t = o.run k' t := fun _ _ => run_mark hs
  constructor
  · simpa only [hallocated, mark_held] using h.held_iff
  · simpa only [hallocated] using h.allocated_apart
  · intro k' p hp
    rw [hallocated]
    have hscope : (o.mark k pid).scope k' = _ := scope_modifyScope hs
    rw [hscope] at hp
    by_cases hk : k' = k
    · rw [if_pos hk] at hp
      rw [hk]
      rcases Finset.mem_insert.1 hp with rfl | hp
      · rwa [scope_eq hs]
      · refine h.claimed_allocated k ?_
        rwa [scope_eq hs]
    · rw [if_neg hk] at hp
      exact h.claimed_allocated k' hp
  · simpa only [hrun, hallocated] using h.run_allocated
  · simpa only [hrun] using h.run_apart
  · simpa only [hrun, mark_live] using h.live_iff
  · simpa only [hrun, mark_receivers] using h.receiver_iff
  · simpa only [hrun] using h.grouped
  · intro k'
    have hruns : ((o.mark k pid).scope k').runs = (o.scope k').runs :=
      scope_modifyScope_of_eq Scope.runs hs rfl
    rw [hruns]
    exact h.tokens_nodup k'

/-- A run enters the tables under a number of its scope that is not live. -/
theorem enter (h : Registered o) (hs : o.scopes[k]? = some s)
    (hmem : e.identity.pid ∈ s.allocated)
    (hlive : find e.identity.pid o.live = none)
    (htoken : find token s.runs = none)
    (hgroup : ∃ pgid, e.identity.pgid = some pgid) : Registered (o.enter k token e) := by
  have hallocated : ∀ k', ((o.enter k token e).scope k').allocated = (o.scope k').allocated :=
    fun k' => scope_modifyScope_of_eq Scope.allocated hs rfl
  have hclaimed : ∀ k', ((o.enter k token e).scope k').claimed = (o.scope k').claimed :=
    fun k' => scope_modifyScope_of_eq Scope.claimed hs rfl
  have hrun : ∀ k' t d, (o.enter k token e).run k' t = some d ↔
      (k' = k ∧ t = token ∧ d = e) ∨ o.run k' t = some d := by
    intro k' t d
    rw [run_enter hs]
    split
    · rename_i hk
      rw [hk.1, hk.2, run_eq hs, htoken, Option.some_inj]
      simp [eq_comm]
    · rename_i hk
      exact ⟨.inr, fun hd => hd.resolve_left fun hnew => hk ⟨hnew.1, hnew.2.1⟩⟩
  have hnew : ∀ k' t d, o.run k' t = some d → d.identity.pid ≠ e.identity.pid := by
    intro k' t d hd heq
    have hfind := (h.live_iff e.identity.pid d).2 ⟨k', t, hd, heq⟩
    rw [hlive] at hfind
    cases hfind
  constructor
  · intro p
    have hheld : (o.enter k token e).held = o.held := rfl
    simp only [hheld, hallocated, h.held_iff]
  · simpa only [hallocated] using h.allocated_apart
  · simpa only [hallocated, hclaimed] using h.claimed_allocated
  · intro k' t d hd
    rw [hallocated]
    rcases (hrun k' t d).1 hd with ⟨rfl, rfl, rfl⟩ | hd
    · rwa [scope_eq hs]
    · exact h.run_allocated k' t d hd
  · intro k₁ k₂ t₁ t₂ d₁ d₂ h₁ h₂ heq
    rcases (hrun k₁ t₁ d₁).1 h₁ with ⟨hk₁, ht₁, hd₁⟩ | hold₁
    · rcases (hrun k₂ t₂ d₂).1 h₂ with ⟨hk₂, ht₂, -⟩ | hold₂
      · exact ⟨hk₁.trans hk₂.symm, ht₁.trans ht₂.symm⟩
      · exact absurd (hd₁ ▸ heq.symm) (hnew k₂ t₂ d₂ hold₂)
    · rcases (hrun k₂ t₂ d₂).1 h₂ with ⟨-, -, hd₂⟩ | hold₂
      · exact absurd (hd₂ ▸ heq) (hnew k₁ t₁ d₁ hold₁)
      · exact h.run_apart k₁ k₂ t₁ t₂ d₁ d₂ hold₁ hold₂ heq
  · intro p d
    have hset : find p (o.enter k token e).live = _ := find_set ..
    simp only [hset, hrun]
    by_cases hp : e.identity.pid = p
    · subst hp
      rw [if_pos rfl, Option.some_inj]
      constructor
      · rintro rfl
        exact ⟨k, token, .inl ⟨rfl, rfl, rfl⟩, rfl⟩
      · rintro ⟨k', t, ⟨-, -, rfl⟩ | hd, heq⟩
        · rfl
        · exact absurd heq (hnew k' t d hd)
    · rw [if_neg hp, h.live_iff]
      constructor
      · rintro ⟨k', t, hd, heq⟩
        exact ⟨k', t, .inr hd, heq⟩
      · rintro ⟨k', t, ⟨-, -, rfl⟩ | hd, heq⟩
        · exact absurd heq hp
        · exact ⟨k', t, hd, heq⟩
  · intro p j
    have hset : find p (o.enter k token e).receivers = _ := find_set ..
    simp only [hset, hrun]
    by_cases hp : e.identity.pid = p
    · subst hp
      rw [if_pos rfl, Option.some_inj]
      constructor
      · rintro rfl
        exact ⟨token, e, .inl ⟨rfl, rfl, rfl⟩, rfl⟩
      · rintro ⟨t, d, ⟨rfl, -, -⟩ | hd, heq⟩
        · rfl
        · exact absurd heq (hnew j t d hd)
    · rw [if_neg hp, h.receiver_iff]
      constructor
      · rintro ⟨t, d, hd, heq⟩
        exact ⟨t, d, .inr hd, heq⟩
      · rintro ⟨t, d, ⟨-, -, rfl⟩ | hd, heq⟩
        · exact absurd heq hp
        · exact ⟨t, d, hd, heq⟩
  · intro k' t d hd
    rcases (hrun k' t d).1 hd with ⟨-, -, rfl⟩ | hd
    · exact hgroup
    · exact h.grouped k' t d hd
  · intro k'
    have hscope : (o.enter k token e).scope k' = _ := scope_modifyScope hs
    rw [hscope]
    split
    · exact nodup_set (scope_eq hs ▸ h.tokens_nodup k)
    · exact h.tokens_nodup k'

/-- A run that is over leaves the tables, and its number is free. -/
theorem leave (h : Registered o) (hs : o.scopes[k]? = some s)
    (hfind : find token s.runs = some e) :
    Registered (o.leave k token e.identity.pid) := by
  have hself : o.run k token = some e := (run_eq hs).trans hfind
  have hown : e.identity.pid ∈ (o.scope k).allocated := h.run_allocated k token e hself
  have hscope : ∀ k', (o.leave k token e.identity.pid).scope k' = _ :=
    fun k' => scope_modifyScope hs
  have hallocated : ∀ k' p, p ∈ ((o.leave k token e.identity.pid).scope k').allocated ↔
      p ≠ e.identity.pid ∧ p ∈ (o.scope k').allocated := by
    intro k' p
    rw [hscope]
    by_cases hk : k' = k
    · simp [hk, scope_eq hs]
    · rw [if_neg hk]
      refine ⟨fun hp => ⟨?_, hp⟩, fun hp => hp.2⟩
      rintro rfl
      exact hk (h.allocated_apart _ k' k hp hown)
  have hrun : ∀ k' t d, (o.leave k token e.identity.pid).run k' t = some d ↔
      d.identity.pid ≠ e.identity.pid ∧ o.run k' t = some d := by
    intro k' t d
    have hother : o.run k' t = some d → d.identity.pid = e.identity.pid →
        k' = k ∧ t = token := fun hd heq => h.run_apart k' k t token d e hd hself heq
    rw [run_leave hs]
    split
    · rename_i hk
      constructor
      · intro hd
        cases hd
      · rintro ⟨hne, hd⟩
        rw [hk.1, hk.2, hself] at hd
        cases hd
        exact absurd rfl hne
    · rename_i hk
      exact ⟨fun hd => ⟨fun heq => hk (hother hd heq), hd⟩, fun hd => hd.2⟩
  constructor
  · intro p
    have hheld : p ∈ (o.leave k token e.identity.pid).held ↔
        p ≠ e.identity.pid ∧ p ∈ o.held := Finset.mem_erase
    simp only [hheld, hallocated, h.held_iff, exists_and_left]
  · intro p k₁ k₂ h₁ h₂
    exact h.allocated_apart p k₁ k₂ ((hallocated k₁ p).1 h₁).2 ((hallocated k₂ p).1 h₂).2
  · intro k' p hp
    rw [hscope] at hp
    by_cases hk : k' = k
    · rw [if_pos hk] at hp
      have hp := Finset.mem_erase.1 hp
      refine (hallocated k' p).2 ⟨hp.1, h.claimed_allocated k' ?_⟩
      rw [hk, scope_eq hs]
      exact hp.2
    · rw [if_neg hk] at hp
      have hp := h.claimed_allocated k' hp
      refine (hallocated k' p).2 ⟨?_, hp⟩
      rintro rfl
      exact hk (h.allocated_apart _ k' k hp hown)
  · intro k' t d hd
    obtain ⟨hne, hd⟩ := (hrun k' t d).1 hd
    exact (hallocated k' _).2 ⟨hne, h.run_allocated k' t d hd⟩
  · intro k₁ k₂ t₁ t₂ d₁ d₂ h₁ h₂
    exact h.run_apart k₁ k₂ t₁ t₂ d₁ d₂ ((hrun k₁ t₁ d₁).1 h₁).2 ((hrun k₂ t₂ d₂).1 h₂).2
  · intro p d
    have herase : find p (o.leave k token e.identity.pid).live = _ :=
      find_erase ..
    simp only [herase, hrun]
    by_cases hp : e.identity.pid = p
    · rw [if_pos hp]
      constructor
      · intro hd
        cases hd
      · rintro ⟨k', t, ⟨hne, -⟩, rfl⟩
        exact absurd hp.symm hne
    · rw [if_neg hp, h.live_iff]
      constructor
      · rintro ⟨k', t, hd, rfl⟩
        exact ⟨k', t, ⟨Ne.symm hp, hd⟩, rfl⟩
      · rintro ⟨k', t, ⟨-, hd⟩, rfl⟩
        exact ⟨k', t, hd, rfl⟩
  · intro p j
    have herase : find p (o.leave k token e.identity.pid).receivers = _ :=
      find_erase ..
    simp only [herase, hrun]
    by_cases hp : e.identity.pid = p
    · rw [if_pos hp]
      constructor
      · intro hd
        cases hd
      · rintro ⟨t, d, ⟨hne, -⟩, rfl⟩
        exact absurd hp.symm hne
    · rw [if_neg hp, h.receiver_iff]
      constructor
      · rintro ⟨t, d, hd, rfl⟩
        exact ⟨t, d, ⟨Ne.symm hp, hd⟩, rfl⟩
      · rintro ⟨t, d, ⟨-, hd⟩, rfl⟩
        exact ⟨t, d, hd, rfl⟩
  · intro k' t d hd
    exact h.grouped k' t d ((hrun k' t d).1 hd).2
  · intro k'
    rw [hscope]
    split
    · exact nodup_erase (scope_eq hs ▸ h.tokens_nodup k)
    · exact h.tokens_nodup k'

/-- The runs of a scope that closes leave the tables, and its numbers are free. -/
theorem dispose (h : Registered o) (hs : o.scopes[k]? = some s) :
    Registered (o.dispose k s).1 := by
  by_cases hdisposed : s.disposed
  · rw [Owner.dispose, if_pos hdisposed]
    exact h
  have hopen : s.disposed = false := by simpa using hdisposed
  have hscope : ∀ k', (o.dispose k s).1.scope k' =
      if k' = k then ⟨∅, ∅, [], true, false⟩ else o.scope k' := by
    intro k'
    rw [Owner.dispose, hopen]
    exact scope_modifyScope hs
  have hallocated : ∀ k' p, p ∈ ((o.dispose k s).1.scope k').allocated ↔
      k' ≠ k ∧ p ∈ (o.scope k').allocated := by
    intro k' p
    rw [hscope]
    by_cases hk : k' = k
    · simp [hk]
    · simp [hk]
  have hrun : ∀ k' t d, (o.dispose k s).1.run k' t = some d ↔
      k' ≠ k ∧ o.run k' t = some d := by
    intro k' t d
    rw [run_dispose hs hopen]
    by_cases hk : k' = k
    · simp [hk]
    · simp [hk]
  have hpids : ∀ p, p ∈ s.runs.map (fun r => r.2.identity.pid) ↔
      ∃ t d, o.run k t = some d ∧ d.identity.pid = p := by
    intro p
    have hnodup : (keys s.runs).Nodup := scope_eq hs ▸ h.tokens_nodup k
    constructor
    · intro hp
      obtain ⟨r, hr, rfl⟩ := List.mem_map.1 hp
      exact ⟨r.1, r.2, (run_eq hs).trans (find_of_mem hnodup hr), rfl⟩
    · rintro ⟨t, d, hd, rfl⟩
      rw [run_eq hs] at hd
      exact List.mem_map.2 ⟨(t, d), mem_of_find hd, rfl⟩
  have hapart : ∀ k' t d, o.run k' t = some d →
      (d.identity.pid ∈ s.runs.map (fun r => r.2.identity.pid) ↔ k' = k) := by
    intro k' t d hd
    rw [hpids]
    constructor
    · rintro ⟨t', d', hd', heq⟩
      exact (h.run_apart k k' t' t d' d hd' hd heq).1.symm
    · rintro rfl
      exact ⟨t, d, hd, rfl⟩
  constructor
  · intro p
    have hheld : p ∈ (o.dispose k s).1.held ↔ p ∈ o.held ∧ p ∉ s.allocated := by
      rw [Owner.dispose, hopen]
      exact Finset.mem_sdiff
    simp only [hheld, hallocated, h.held_iff]
    constructor
    · rintro ⟨⟨k', hp⟩, hout⟩
      refine ⟨k', ?_, hp⟩
      rintro rfl
      exact hout (scope_eq hs ▸ hp)
    · rintro ⟨k', hk, hp⟩
      refine ⟨⟨k', hp⟩, fun hin => hk (h.allocated_apart p k' k hp ?_)⟩
      rwa [scope_eq hs]
  · intro p k₁ k₂ h₁ h₂
    exact h.allocated_apart p k₁ k₂ ((hallocated k₁ p).1 h₁).2 ((hallocated k₂ p).1 h₂).2
  · intro k' p hp
    rw [hscope] at hp
    by_cases hk : k' = k
    · rw [if_pos hk] at hp
      cases hp
    · rw [if_neg hk] at hp
      exact (hallocated k' p).2 ⟨hk, h.claimed_allocated k' hp⟩
  · intro k' t d hd
    obtain ⟨hk, hd⟩ := (hrun k' t d).1 hd
    exact (hallocated k' _).2 ⟨hk, h.run_allocated k' t d hd⟩
  · intro k₁ k₂ t₁ t₂ d₁ d₂ h₁ h₂
    exact h.run_apart k₁ k₂ t₁ t₂ d₁ d₂ ((hrun k₁ t₁ d₁).1 h₁).2 ((hrun k₂ t₂ d₂).1 h₂).2
  · intro p d
    have hlive : find p (o.dispose k s).1.live =
        if p ∈ s.runs.map (fun r => r.2.identity.pid) then none
        else find p o.live := by
      rw [Owner.dispose, hopen]
      exact find_foldl_erase (fun r : Token × Registration => r.2.identity.pid) ..
    rw [hlive]
    split
    · rename_i hp
      constructor
      · intro hd
        cases hd
      · rintro ⟨k', t, hd, rfl⟩
        obtain ⟨hk, hd⟩ := (hrun k' t d).1 hd
        exact absurd ((hapart k' t d hd).1 hp) hk
    · rename_i hp
      rw [h.live_iff]
      constructor
      · rintro ⟨k', t, hd, rfl⟩
        exact ⟨k', t, (hrun k' t d).2 ⟨fun hk => hp ((hapart k' t d hd).2 hk), hd⟩, rfl⟩
      · rintro ⟨k', t, hd, rfl⟩
        exact ⟨k', t, ((hrun k' t d).1 hd).2, rfl⟩
  · intro p j
    have hreceivers : find p (o.dispose k s).1.receivers =
        if p ∈ s.runs.map (fun r => r.2.identity.pid) then none
        else find p o.receivers := by
      rw [Owner.dispose, hopen]
      exact find_foldl_erase (fun r : Token × Registration => r.2.identity.pid) ..
    rw [hreceivers]
    split
    · rename_i hp
      constructor
      · intro hd
        cases hd
      · rintro ⟨t, d, hd, rfl⟩
        obtain ⟨hk, hd⟩ := (hrun j t d).1 hd
        exact absurd ((hapart j t d hd).1 hp) hk
    · rename_i hp
      rw [h.receiver_iff]
      constructor
      · rintro ⟨t, d, hd, rfl⟩
        exact ⟨t, d, (hrun j t d).2 ⟨fun hk => hp ((hapart j t d hd).2 hk), hd⟩, rfl⟩
      · rintro ⟨t, d, hd, rfl⟩
        exact ⟨t, d, ((hrun j t d).1 hd).2, rfl⟩
  · intro k' t d hd
    exact h.grouped k' t d ((hrun k' t d).1 hd).2
  · intro k'
    rw [hscope]
    split
    · exact List.nodup_nil
    · exact h.tokens_nodup k'

end Registered

end ProcessRegistry

end Tabnode
