import Mathlib.Data.List.Nodup
import Mathlib.Data.List.Pairwise
import Tabnode.WebLocks.Manager

/-!
# What an advance grants

`advance` grants one waiting request after another, each the first of its name that waits
and one the held locks admit (`Grants`), and stops where no request is left that is both
(`Stuck`). What each single grant keeps, an advance keeps.
-/

namespace Tabnode

namespace WebLocks

open List

variable {V : Type*}

def First (m : Manager V) (r : Waiting) : Prop :=
  ∀ q ∈ m.waiting, q.name = r.name → r.id ≤ q.id

/-- No request waits that no earlier one of its name precedes and the held locks admit. -/
def Stuck (m : Manager V) : Prop :=
  ∀ r ∈ m.waiting, First m r → m.grantable r.name r.mode = false

def Sorted (m : Manager V) : Prop :=
  m.waiting.Pairwise fun r q => r.id < q.id

/-- One grant after another, each of a first request that the held locks admit. -/
inductive Grants : Manager V → Manager V → Prop where
  | refl (m : Manager V) : Grants m m
  | grant {m m' : Manager V} {r : Waiting} (hmem : r ∈ m.waiting) (hfirst : First m r)
      (hgrantable : m.grantable r.name r.mode = true) (h : Grants (m.grant r) m') : Grants m m'

variable {m m' : Manager V} {r q : Waiting}

theorem Grants.keeps {I : Manager V → Prop} (h : Grants m m') (hm : I m)
    (hgrant : ∀ n r, I n → r ∈ n.waiting → First n r → n.grantable r.name r.mode = true →
      I (n.grant r)) : I m' := by
  induction h with
  | refl m => exact hm
  | grant hmem hfirst hgrantable _ ih => exact ih (hgrant _ _ hm hmem hfirst hgrantable)

/-! ## Locks that admit another -/

theorem grantable_iff {name : List Char} {mode : Mode} : m.grantable name mode = true ↔
    ∀ h ∈ m.held, h.name = name → mode = .shared ∧ h.mode = .shared := by
  simp only [Manager.grantable, Bool.or_eq_true, List.isEmpty_iff, List.filter_eq_nil_iff,
    decide_eq_true_eq, Bool.and_eq_true, all_eq_true, mem_filter]
  constructor
  · rintro (h | ⟨hmode, h⟩) lock hlock hname
    · exact absurd hname (h lock hlock)
    · exact ⟨hmode, h lock ⟨hlock, hname⟩⟩
  · intro h
    by_cases hany : ∃ lock ∈ m.held, lock.name = name
    · obtain ⟨lock, hlock, hname⟩ := hany
      refine .inr ⟨(h lock hlock hname).1, ?_⟩
      exact fun lock' hlock' => (h lock' hlock'.1 hlock'.2).2
    · refine .inl fun lock hlock hname => hany ⟨lock, hlock, hname⟩

theorem not_grantable_of_held {name : List Char} {mode : Mode} {h : Held} (hheld : h ∈ m.held)
    (hname : h.name = name) (hmode : mode = .exclusive ∨ h.mode = .exclusive) :
    m.grantable name mode = false := by
  rw [← Bool.not_eq_true, grantable_iff]
  intro hgrantable
  obtain ⟨hshared, hshared'⟩ := hgrantable h hheld hname
  rcases hmode with rfl | hmode
  · cases hshared
  · rw [hmode] at hshared'
    cases hshared'

theorem grantable_mono {name : List Char} {mode : Mode} (hheld : ∀ h ∈ m.held, h ∈ m'.held)
    (h : m.grantable name mode = false) : m'.grantable name mode = false := by
  rw [← Bool.not_eq_true] at h ⊢
  rw [grantable_iff] at h ⊢
  exact fun h' => h fun lock hlock => h' lock (hheld lock hlock)

/-! ## The loop -/

@[simp] theorem grant_waiting : (m.grant r).waiting = m.waiting.erase r := rfl

@[simp] theorem grant_held : (m.grant r).held = m.held ++ [⟨r.id, r.name, r.mode⟩] := rfl

theorem Sorted.nodup (h : Sorted m) : m.waiting.Nodup :=
  List.Pairwise.imp (fun hlt => by
    rintro rfl
    exact Nat.lt_irrefl _ hlt) h

theorem Sorted.eq_of_id (h : Sorted m) (hr : r ∈ m.waiting) (hq : q ∈ m.waiting)
    (hid : r.id = q.id) : r = q := by
  by_contra hne
  have hids : m.waiting.Pairwise fun a b => a.id ≠ b.id := h.imp fun hlt => Nat.ne_of_lt hlt
  have : Std.Symm fun a b : Waiting => a.id ≠ b.id := ⟨fun _ _ => Ne.symm⟩
  exact hids.forall hr hq hne hid

theorem Sorted.grant (h : Sorted m) : Sorted (m.grant r) :=
  List.Pairwise.sublist erase_sublist h

theorem advanceLoop_grants {left kept : List Waiting} {blocked : List (List Char)}
    (hsorted : Sorted m) (hwaiting : m.waiting = kept ++ left)
    (hkept : ∀ q ∈ kept, q.name ∈ blocked)
    (hblocked : ∀ name ∈ blocked, (∃ q ∈ kept, q.name = name) ∨
      ∃ h ∈ m.held, h.name = name ∧ h.mode = .exclusive)
    (hstuck : ∀ r ∈ kept, (∀ q ∈ kept, q.name = r.name → r.id ≤ q.id) →
      m.grantable r.name r.mode = false) :
    Grants m (m.advanceLoop blocked left) ∧ Stuck (m.advanceLoop blocked left) := by
  induction left generalizing m kept blocked with
  | nil =>
    rw [append_nil] at hwaiting
    refine ⟨.refl m, fun r hr hfirst => ?_⟩
    unfold First at hfirst
    rw [Manager.advanceLoop, hwaiting] at *
    exact hstuck r hr hfirst
  | cons r left ih =>
    have hr : r ∈ m.waiting := by simp [hwaiting]
    have hlt : (∀ q ∈ kept, q.id < r.id) ∧ ∀ q ∈ left, r.id < q.id := by
      unfold Sorted at hsorted
      rw [hwaiting, List.pairwise_append, pairwise_cons] at hsorted
      exact ⟨fun q hq => hsorted.2.2 q hq r List.mem_cons_self, hsorted.2.1.1⟩
    unfold Manager.advanceLoop
    split
    · -- the request is passed over: it is kept, and blocks its name
      rename_i hpassed
      have hwaiting' : m.waiting = (kept ++ [r]) ++ left := by simp [hwaiting]
      refine ih hsorted hwaiting' ?_ ?_ ?_
      · intro q hq
        rcases List.mem_append.1 hq with hq | hq
        · exact mem_cons_of_mem _ (hkept q hq)
        · rw [List.mem_singleton.1 hq]
          exact List.mem_cons_self
      · intro name hname
        rcases mem_cons.1 hname with rfl | hname
        · exact .inl ⟨r, by simp, rfl⟩
        · rcases hblocked name hname with ⟨q, hq, hqname⟩ | hheld
          · exact .inl ⟨q, by simp [hq], hqname⟩
          · exact .inr hheld
      · intro x hx hfirst
        rcases List.mem_append.1 hx with hx | hx
        · exact hstuck x hx fun q hq => hfirst q (by simp [hq])
        · rw [List.mem_singleton.1 hx] at hfirst ⊢
          simp only [Bool.or_eq_true, decide_eq_true_eq, Bool.not_eq_true'] at hpassed
          rcases hpassed with hname | hgrantable
          · rcases hblocked _ hname with ⟨q, hq, hqname⟩ | ⟨h, hheld, hhname, hmode⟩
            · have hle := hfirst q (by simp [hq]) hqname
              exact absurd (hlt.1 q hq) (Nat.not_lt.2 hle)
            · exact not_grantable_of_held hheld hhname (.inr hmode)
          · exact hgrantable
    · -- the request is granted
      rename_i hpassed
      simp only [Bool.or_eq_true, decide_eq_true_eq, Bool.not_eq_true', not_or,
        Bool.not_eq_false] at hpassed
      obtain ⟨hname, hgrantable⟩ := hpassed
      have hfirst : First m r := by
        intro q hq hqname
        rw [hwaiting, List.mem_append, mem_cons] at hq
        rcases hq with hq | rfl | hq
        · exact absurd (hqname ▸ hkept q hq) hname
        · exact Nat.le_refl _
        · exact Nat.le_of_lt (hlt.2 q hq)
      have hrest : (m.grant r).waiting = kept ++ left := by
        have hout : r ∉ kept := fun hin => Nat.lt_irrefl _ (hlt.1 r hin)
        rw [grant_waiting, hwaiting, erase_append_right _ hout, erase_cons_head]
      have hmore : ∀ h ∈ m.held, h ∈ (m.grant r).held := fun h hh => by simp [hh]
      have hkept' : ∀ q ∈ kept,
          q.name ∈ if r.mode = .exclusive then r.name :: blocked else blocked := by
        intro q hq
        split
        · exact mem_cons_of_mem _ (hkept q hq)
        · exact hkept q hq
      have hblocked' : ∀ name ∈ if r.mode = .exclusive then r.name :: blocked else blocked,
          (∃ q ∈ kept, q.name = name) ∨
            ∃ h ∈ (m.grant r).held, h.name = name ∧ h.mode = .exclusive := by
        intro name hin
        have hold : name ∈ blocked → (∃ q ∈ kept, q.name = name) ∨
            ∃ h ∈ (m.grant r).held, h.name = name ∧ h.mode = .exclusive := by
          intro hin
          rcases hblocked name hin with hq | ⟨h, hheld, hhname, hmode⟩
          · exact .inl hq
          · exact .inr ⟨h, hmore h hheld, hhname, hmode⟩
        split at hin
        · rename_i hmode
          rcases mem_cons.1 hin with rfl | hin
          · exact .inr ⟨⟨r.id, r.name, r.mode⟩, by simp, rfl, hmode⟩
          · exact hold hin
        · exact hold hin
      obtain ⟨hgrants, hstuck'⟩ := ih hsorted.grant hrest hkept' hblocked'
        fun x hx hxfirst => grantable_mono hmore (hstuck x hx hxfirst)
      exact ⟨.grant hr hfirst hgrantable hgrants, hstuck'⟩

/-- An advance is a sequence of grants, and none is left to make. -/
theorem advance_grants (hsorted : Sorted m) : Grants m m.advance ∧ Stuck m.advance :=
  advanceLoop_grants hsorted (nil_append _).symm (by simp) (by simp) (by simp)

end WebLocks

end Tabnode

/-!
## Where each request is

Every request that was made is settled, or waits, or has a callback under way, and only
one of these unless a thief settled it before its callback's end (`Accounted`). The held
locks of a name are one exclusive lock or shared ones, and requests of a name were granted
in the order asked (`Locked`). Each of the things that the manager's operations are made
of keeps both.
-/

namespace Tabnode

namespace WebLocks

variable {V : Type*}

def Manager.settledIds (m : Manager V) : List ℕ := m.settlements.map Prod.fst

def Manager.waitingIds (m : Manager V) : List ℕ := m.waiting.map Waiting.id

def Manager.callbackIds (m : Manager V) : List ℕ := m.callbacks.map Callback.id

/-- Each request made is in one place, settles once, and its callback is called once. -/
structure Accounted (m : Manager V) : Prop where
  sorted : Sorted m
  callbacks_nodup : m.callbackIds.Nodup
  settled_nodup : m.settledIds.Nodup
  called_nodup : m.called.Nodup
  asked : ∀ id, id < m.asked ↔
    id ∈ m.settledIds ∨ id ∈ m.waitingIds ∨ id ∈ m.callbackIds
  waiting_unsettled : ∀ id ∈ m.waitingIds, id ∉ m.settledIds
  waiting_ungranted : ∀ id ∈ m.waitingIds, id ∉ m.callbackIds
  callback_settled : ∀ c ∈ m.callbacks, c.settled = true ↔ c.id ∈ m.settledIds
  called_lt : ∀ id ∈ m.called, id < m.asked
  called_granted : ∀ id ∈ m.called, id ∉ m.waitingIds
  called_began : ∀ c ∈ m.callbacks, c.id ∈ m.called → c.began = true

/-- The locks are held as they may be, and were granted in the order asked. -/
structure Locked (m : Manager V) : Prop where
  held_nodup : (m.held.map Held.id).Nodup
  held_callback : ∀ h ∈ m.held, ∃ c ∈ m.callbacks,
    c.id = h.id ∧ c.lock.isSome = true ∧ c.settled = false
  exclusive : ∀ h ∈ m.held, h.mode = .exclusive → ∀ h' ∈ m.held, h'.name = h.name → h' = h
  granted_lt : ∀ g ∈ m.granted, g.id < m.asked
  granted_sorted : m.granted.Pairwise fun g g' => g.name = g'.name → g.id < g'.id
  granted_before : ∀ g ∈ m.granted, ∀ r ∈ m.waiting, g.name = r.name → g.id < r.id

variable {m : Manager V} {r : Waiting} {id : ℕ}

theorem Accounted.lt_of_waiting (h : Accounted m) (hr : r ∈ m.waiting) : r.id < m.asked :=
  (h.asked r.id).2 (.inr (.inl (List.mem_map_of_mem hr)))

theorem Accounted.lt_of_callback (h : Accounted m) {c : Callback} (hc : c ∈ m.callbacks) :
    c.id < m.asked :=
  (h.asked c.id).2 (.inr (.inr (List.mem_map_of_mem hc)))

theorem Accounted.not_asked (h : Accounted m) : m.asked ∉ m.settledIds ∧
    m.asked ∉ m.waitingIds ∧ m.asked ∉ m.callbackIds ∧ m.asked ∉ m.called := by
  have hlt : ¬ m.asked < m.asked := Nat.lt_irrefl _
  rw [h.asked, not_or, not_or] at hlt
  exact ⟨hlt.1, hlt.2.1, hlt.2.2, fun hcalled => Nat.lt_irrefl _ (h.called_lt _ hcalled)⟩

theorem Sorted.mem_waitingIds_erase (h : Sorted m) (hr : r ∈ m.waiting) :
    id ∈ (m.waiting.erase r).map Waiting.id ↔ id ≠ r.id ∧ id ∈ m.waitingIds := by
  simp only [Manager.waitingIds, List.mem_map, h.nodup.mem_erase_iff]
  constructor
  · rintro ⟨q, ⟨hne, hq⟩, rfl⟩
    exact ⟨fun hid => hne (h.eq_of_id hq hr hid), q, hq, rfl⟩
  · rintro ⟨hne, q, hq, rfl⟩
    refine ⟨q, ⟨?_, hq⟩, rfl⟩
    rintro rfl
    exact hne rfl

/-! ### A grant -/

@[simp] theorem grant_settledIds : (m.grant r).settledIds = m.settledIds := rfl

@[simp] theorem grant_waitingIds :
    (m.grant r).waitingIds = (m.waiting.erase r).map Waiting.id := rfl

@[simp] theorem grant_callbacks : (m.grant r).callbacks =
    m.callbacks ++ [⟨r.id, some ⟨r.name, r.mode⟩, r.signal, false, false⟩] := rfl

@[simp] theorem grant_callbackIds : (m.grant r).callbackIds = m.callbackIds ++ [r.id] := by
  simp [Manager.callbackIds]

@[simp] theorem grant_called : (m.grant r).called = m.called := rfl

@[simp] theorem grant_asked : (m.grant r).asked = m.asked := rfl

@[simp] theorem grant_granted : (m.grant r).granted = m.granted ++ [r] := rfl

theorem Accounted.grant (h : Accounted m) (hr : r ∈ m.waiting) : Accounted (m.grant r) := by
  have hin : r.id ∈ m.waitingIds := List.mem_map_of_mem hr
  constructor
  · exact h.sorted.grant
  · rw [grant_callbackIds, List.nodup_append]
    refine ⟨h.callbacks_nodup, by simp, ?_⟩
    rintro id hid _ hid' rfl
    rw [List.mem_singleton] at hid'
    exact h.waiting_ungranted r.id hin (hid' ▸ hid)
  · exact h.settled_nodup
  · exact h.called_nodup
  · intro id
    rw [grant_asked, h.asked, grant_settledIds, grant_waitingIds,
      h.sorted.mem_waitingIds_erase hr, grant_callbackIds, List.mem_append, List.mem_singleton]
    by_cases hid : id = r.id
    · simp [hid, hin]
    · simp [hid]
  · intro id hid
    exact h.waiting_unsettled id ((h.sorted.mem_waitingIds_erase hr).1 hid).2
  · intro id hid
    obtain ⟨hne, hid⟩ := (h.sorted.mem_waitingIds_erase hr).1 hid
    rw [grant_callbackIds, List.mem_append, List.mem_singleton, not_or]
    exact ⟨h.waiting_ungranted id hid, hne⟩
  · intro c hc
    rw [grant_callbacks, List.mem_append, List.mem_singleton] at hc
    rcases hc with hc | rfl
    · exact h.callback_settled c hc
    · simpa using h.waiting_unsettled r.id hin
  · exact h.called_lt
  · intro id hid hwaiting
    exact h.called_granted id hid ((h.sorted.mem_waitingIds_erase hr).1 hwaiting).2
  · intro c hc hcalled
    rw [grant_callbacks, List.mem_append, List.mem_singleton] at hc
    rcases hc with hc | rfl
    · exact h.called_began c hc hcalled
    · exact absurd hin (h.called_granted r.id hcalled)

theorem Locked.grant (h : Locked m) (ha : Accounted m) (hr : r ∈ m.waiting)
    (hfirst : First m r) (hgrantable : m.grantable r.name r.mode = true) :
    Locked (m.grant r) := by
  have hin : r.id ∈ m.waitingIds := List.mem_map_of_mem hr
  rw [grantable_iff] at hgrantable
  constructor
  · rw [grant_held, List.map_append, List.nodup_append]
    refine ⟨h.held_nodup, by simp, ?_⟩
    rintro id hid _ hid' rfl
    obtain ⟨lock, hlock, rfl⟩ := List.mem_map.1 hid
    obtain ⟨c, hc, hcid, -⟩ := h.held_callback lock hlock
    rw [List.map_singleton, List.mem_singleton] at hid'
    exact ha.waiting_ungranted r.id hin (List.mem_map.2 ⟨c, hc, hcid.trans hid'⟩)
  · intro lock hlock
    rw [grant_held, List.mem_append, List.mem_singleton] at hlock
    rw [grant_callbacks]
    rcases hlock with hlock | rfl
    · obtain ⟨c, hc, hcid⟩ := h.held_callback lock hlock
      exact ⟨c, List.mem_append_left _ hc, hcid⟩
    · exact ⟨_, List.mem_append_right _ List.mem_cons_self, rfl, rfl, rfl⟩
  · intro lock hlock hmode lock' hlock' hname
    rw [grant_held, List.mem_append, List.mem_singleton] at hlock hlock'
    rcases hlock with hlock | rfl
    · rcases hlock' with hlock' | rfl
      · exact h.exclusive lock hlock hmode lock' hlock' hname
      · have hshared := (hgrantable lock hlock hname.symm).2
        rw [hmode] at hshared
        cases hshared
    · rcases hlock' with hlock' | rfl
      · have hshared := (hgrantable lock' hlock' hname).1
        have hexclusive : r.mode = .exclusive := hmode
        rw [hexclusive] at hshared
        cases hshared
      · rfl
  · intro g hg
    rw [grant_granted, List.mem_append, List.mem_singleton] at hg
    rcases hg with hg | rfl
    · exact h.granted_lt g hg
    · exact ha.lt_of_waiting hr
  · rw [grant_granted, List.pairwise_append]
    refine ⟨h.granted_sorted, List.pairwise_singleton _ _, ?_⟩
    intro g hg g' hg' hname
    rw [List.mem_singleton] at hg'
    rw [hg'] at hname ⊢
    exact h.granted_before g hg r hr hname
  · intro g hg q hq hname
    rw [grant_waiting, ha.sorted.nodup.mem_erase_iff] at hq
    rw [grant_granted, List.mem_append, List.mem_singleton] at hg
    rcases hg with hg | rfl
    · exact h.granted_before g hg q hq.2 hname
    · refine Nat.lt_of_le_of_ne (hfirst q hq.2 hname.symm) fun hid => hq.1 ?_
      exact (ha.sorted.eq_of_id hr hq.2 hid).symm

end WebLocks

end Tabnode
