import Tabnode.Data.Machine
import Tabnode.Data.OrderedMap

/-!
# Turns for filesystem completions

`queueNativeFsTask` gives each operation a turn of the host: the operation is kept under a
number, and the number is posted to a port that the realm shares. An operation that runs may
queue and cancel others. Whatever is queued and cancelled, operations run in the order they were
queued, each once at most and none that was cancelled before, and the ports hold the host's loop
while one is pending and no longer (`settles_run`).
-/

namespace Tabnode

namespace NativeFsTasks

open List OrderedMap

variable {α : Type*}

/-- The channel of a realm: the operations by their numbers, the numbers posted and not
delivered, whether the ports hold the loop, and whether a delivery has not returned. Then what
was queued, what ran, and what was cancelled before it could. -/
structure World (α : Type*) where
  sequence : ℕ
  pending : List (ℕ × α)
  posted : List ℕ
  held : Bool
  delivering : Bool
  queued : List (ℕ × α)
  ran : List (ℕ × α)
  cancelled : List ℕ

inductive Action (α : Type*) where
  | queue (run : α) (refused : Bool)
  | cancel (id : ℕ)
  | deliver
  | finish

namespace World

/-- `taskChannel`, as the channel is made. -/
def new : World α := ⟨0, [], [], false, false, [], [], []⟩

/-- `if (pending.size === 0)`, both ports give up the loop. -/
def release (w : World α) : World α := { w with held := w.held && !w.pending.isEmpty }

/-- `queueNativeFsTask`, whose `postMessage` may throw. -/
def queue (w : World α) (run : α) (refused : Bool) : World α :=
  let id := w.sequence + 1
  if refused then
    { w with sequence := id, pending := erase id (set id run w.pending), held := true }.release
  else
    { w with
      sequence := id
      pending := set id run w.pending
      held := true
      posted := w.posted ++ [id]
      queued := w.queued ++ [(id, run)] }

/-- What `queueNativeFsTask` returns. -/
def cancel (w : World α) (id : ℕ) : World α :=
  { w with
    pending := erase id w.pending
    cancelled := if (find id w.pending).isSome then w.cancelled ++ [id] else w.cancelled }.release

def deliver (w : World α) : Option (World α) :=
  match w.posted with
  | [] => none
  | id :: rest =>
    if w.delivering then none
    else some
      { w with
        posted := rest
        pending := erase id w.pending
        delivering := true
        ran := w.ran ++ ((find id w.pending).map fun run => (id, run)).toList }

/-- The `finally` of the listener. -/
def finish (w : World α) : Option (World α) :=
  if w.delivering then some { w with delivering := false }.release else none

def step (w : World α) : Action α → Option (World α)
  | .queue run refused => some (w.queue run refused)
  | .cancel id => some (w.cancel id)
  | .deliver => w.deliver
  | .finish => w.finish

end World

/-- What is queued runs in its order, once, unless it was cancelled before; and the loop is held
while something is pending, and no longer. -/
structure Settles (w : World α) : Prop where
  inOrder : w.queued.Pairwise fun p q => p.1 < q.1
  once : w.ran.Pairwise fun p q => p.1 < q.1
  own : w.ran ⊆ w.queued
  settled : ∀ q ∈ w.queued, q ∈ w.ran ∨ find q.1 w.pending = some q.2 ∨ q.1 ∈ w.cancelled
  kept : ∀ id ∈ w.cancelled, id ∉ keys w.ran
  holds : w.pending ≠ [] → w.held = true
  releases : w.delivering = false → w.held = true → w.pending ≠ []
  drained : w.posted = [] → w.pending = []

/-- The numbers posted are the last ones, and what is pending is one of them. -/
structure Booked (w : World α) : Prop where
  inOrder : w.queued.Pairwise fun p q => p.1 < q.1
  sequence : ∀ q ∈ w.queued, q.1 ≤ w.sequence
  once : w.ran.Pairwise fun p q => p.1 < q.1
  own : w.ran ⊆ w.queued
  settled : ∀ q ∈ w.queued, q ∈ w.ran ∨ find q.1 w.pending = some q.2 ∨ q.1 ∈ w.cancelled
  posted : w.posted.Pairwise (· < ·)
  postedLe : ∀ id ∈ w.posted, id ≤ w.sequence
  later : ∀ q ∈ w.ran, ∀ id ∈ w.posted, q.1 < id
  pending : ∀ id run, find id w.pending = some run → (id, run) ∈ w.queued ∧ id ∈ w.posted
  cancelled : ∀ id ∈ w.cancelled, id ≤ w.sequence ∧ id ∉ keys w.ran ∧ find id w.pending = none

/-- The ports hold the loop while an operation is pending, and after a delivery no longer. -/
structure Held (w : World α) : Prop where
  holds : w.pending ≠ [] → w.held = true
  releases : w.delivering = false → w.held = true → w.pending ≠ []

variable {w w' : World α} {id : ℕ} {run : α}

theorem ne_nil_of_find {l : List (ℕ × α)} (h : find id l = some run) : l ≠ [] := by
  rintro rfl
  cases h

theorem Booked.release (h : Booked w) : Booked w.release := { h with }

theorem held_release (h : w.pending ≠ [] → w.held = true) : Held w.release where
  holds hne := by
    have hne : w.pending ≠ [] := hne
    simp [World.release, h hne, hne]
  releases _ hheld := by
    have hne := (Bool.and_eq_true_iff.1 hheld).2
    rwa [Bool.not_eq_true', isEmpty_eq_false_iff] at hne

/-- The next number is that of no operation yet. -/
theorem Booked.find_next (h : Booked w) : find (w.sequence + 1) w.pending = none := by
  by_contra hne
  obtain ⟨run, hrun⟩ := Option.ne_none_iff_exists'.1 hne
  have hle := h.sequence _ (h.pending _ _ hrun).1
  omega

theorem Booked.queue (h : Booked w) (run : α) : Booked
    { w with
      sequence := w.sequence + 1
      pending := set (w.sequence + 1) run w.pending
      held := true
      posted := w.posted ++ [w.sequence + 1]
      queued := w.queued ++ [(w.sequence + 1, run)] } where
  inOrder := by
    refine pairwise_append.2 ⟨h.inOrder, pairwise_singleton .., fun p hp q hq => ?_⟩
    rw [mem_singleton.1 hq]
    exact Nat.lt_succ_of_le (h.sequence p hp)
  sequence q hq := by
    rcases mem_append.1 hq with hq | hq
    · exact Nat.le_succ_of_le (h.sequence q hq)
    · simp [mem_singleton.1 hq]
  once := h.once
  own q hq := mem_append_left _ (h.own hq)
  settled q hq := by
    rcases mem_append.1 hq with hq | hq
    · have hne : w.sequence + 1 ≠ q.1 := by
        have hle := h.sequence q hq
        omega
      rw [find_set, if_neg hne]
      exact h.settled q hq
    · rw [mem_singleton.1 hq]
      exact .inr (.inl (find_set_self ..))
  posted := by
    refine pairwise_append.2 ⟨h.posted, pairwise_singleton .., fun p hp q hq => ?_⟩
    rw [mem_singleton.1 hq]
    exact Nat.lt_succ_of_le (h.postedLe p hp)
  postedLe id hid := by
    rcases mem_append.1 hid with hid | hid
    · exact Nat.le_succ_of_le (h.postedLe id hid)
    · simp [mem_singleton.1 hid]
  later q hq id hid := by
    rcases mem_append.1 hid with hid | hid
    · exact h.later q hq id hid
    · rw [mem_singleton.1 hid]
      exact Nat.lt_succ_of_le (h.sequence q (h.own hq))
  pending id run' hfind := by
    rw [find_set] at hfind
    split at hfind
    · next heq =>
        cases hfind
        simp [heq]
    · obtain ⟨hqueued, hposted⟩ := h.pending id run' hfind
      exact ⟨mem_append_left _ hqueued, mem_append_left _ hposted⟩
  cancelled id hid := by
    obtain ⟨hle, hran, hfind⟩ := h.cancelled id hid
    refine ⟨Nat.le_succ_of_le hle, hran, ?_⟩
    rw [find_set, if_neg (by omega), hfind]

theorem Booked.refuse (h : Booked w) (run : α) : Booked
    { w with
      sequence := w.sequence + 1
      pending := erase (w.sequence + 1) (set (w.sequence + 1) run w.pending)
      held := true } := by
  have hsame (j : ℕ) :
      find j (erase (w.sequence + 1) (set (w.sequence + 1) run w.pending)) = find j w.pending := by
    rw [find_erase, find_set]
    split
    · next heq => rw [← heq, h.find_next]
    · rfl
  exact
    { h with
      sequence := fun q hq => Nat.le_succ_of_le (h.sequence q hq)
      settled := by simpa only [hsame] using h.settled
      postedLe := fun id hid => Nat.le_succ_of_le (h.postedLe id hid)
      pending := by simpa only [hsame] using h.pending
      cancelled := fun id hid => by
        obtain ⟨hle, hkept⟩ := h.cancelled id hid
        simpa only [hsame] using ⟨Nat.le_succ_of_le hle, hkept⟩ }

theorem Booked.cancel (h : Booked w) (id : ℕ) : Booked (w.cancel id) := by
  refine Booked.release ?_
  cases hfind : find id w.pending with
  | none => simpa [erase_of_find_eq_none hfind] using h
  | some run =>
      obtain ⟨hqueued, hposted⟩ := h.pending id run hfind
      exact
        { h with
          settled := fun q hq => by
            by_cases heq : id = q.1
            · exact .inr (.inr (by simp [heq]))
            · rw [find_erase, if_neg heq]
              exact (h.settled q hq).imp_right (Or.imp_right (mem_append_left _))
          pending := fun j run' hj => by
            rw [find_erase] at hj
            split at hj
            · cases hj
            · exact h.pending j run' hj
          cancelled := fun j hj => by
            rw [find_erase]
            rcases mem_append.1 hj with hj | hj
            · obtain ⟨hle, hran, hnone⟩ := h.cancelled j hj
              exact ⟨hle, hran, by simp [hnone]⟩
            · obtain rfl := mem_singleton.1 hj
              refine ⟨h.sequence _ hqueued, fun hran => ?_, if_pos rfl⟩
              obtain ⟨q, hq, heq⟩ := mem_map.1 hran
              exact absurd (h.later q hq _ hposted) (by rw [heq]; exact Nat.lt_irrefl _) }

theorem Booked.deliver (h : Booked w) (hw : w.deliver = some w') : Booked w' := by
  rw [World.deliver] at hw
  split at hw
  · cases hw
  · next id rest hposted =>
      split at hw <;> cases hw
      have hsorted := h.posted
      rw [hposted, pairwise_cons] at hsorted
      have hrest : rest ⊆ w.posted := by
        rw [hposted]
        exact subset_cons_self ..
      have hid : id ∈ w.posted := by
        rw [hposted]
        exact mem_cons_self
      have hpending (j : ℕ) (run : α) (hj : find j (erase id w.pending) = some run) :
          (j, run) ∈ w.queued ∧ j ∈ rest := by
        rw [find_erase] at hj
        split at hj
        · cases hj
        · next hne =>
            obtain ⟨hqueued, hin⟩ := h.pending j run hj
            rw [hposted] at hin
            exact ⟨hqueued, (mem_cons.1 hin).resolve_left (Ne.symm hne)⟩
      have herased (j : ℕ) (hj : find j w.pending = none) : find j (erase id w.pending) = none := by
        rw [find_erase, hj, ite_self]
      cases hfind : find id w.pending with
      | none =>
          -- it was cancelled
          rw [erase_of_find_eq_none hfind] at hpending ⊢
          exact
            { h with
              once := by simpa using h.once
              own := by simpa using h.own
              settled := by simpa using h.settled
              posted := hsorted.2
              postedLe := fun j hj => h.postedLe j (hrest hj)
              later := fun q hq j hj => h.later q (by simpa using hq) j (hrest hj)
              pending := hpending
              cancelled := by simpa using h.cancelled }
      | some run =>
          have hlater (q : ℕ × α) (hq : q ∈ w.ran) : q.1 < id := h.later q hq id hid
          exact
            { h with
              once := pairwise_append.2 ⟨h.once, pairwise_singleton .., fun q hq p hp => by
                simpa [mem_singleton.1 hp] using hlater q hq⟩
              own := append_subset.2 ⟨h.own, by simpa using (h.pending id run hfind).1⟩
              settled := fun q hq => by
                rw [find_erase]
                rcases h.settled q hq with hran | hkept | hcancelled
                · exact .inl (mem_append_left _ hran)
                · split
                  · next heq =>
                      rw [← heq, hfind] at hkept
                      obtain rfl : q = (id, run) := Prod.ext heq.symm (Option.some_inj.1 hkept).symm
                      exact .inl (by simp)
                  · exact .inr (.inl hkept)
                · exact .inr (.inr hcancelled)
              posted := hsorted.2
              postedLe := fun j hj => h.postedLe j (hrest hj)
              later := fun q hq j hj => by
                rcases mem_append.1 hq with hq | hq
                · exact h.later q hq j (hrest hj)
                · obtain rfl : q = (id, run) := by simpa using hq
                  exact hsorted.1 j hj
              pending := hpending
              cancelled := fun j hj => by
                obtain ⟨hle, hran, hnone⟩ := h.cancelled j hj
                refine ⟨hle, fun hmem => ?_, herased j hnone⟩
                rcases mem_map.1 hmem with ⟨q, hq, rfl⟩
                rcases mem_append.1 hq with hq | hq
                · exact hran (mem_map_of_mem hq)
                · obtain rfl : q = (id, run) := by simpa using hq
                  simp [hfind] at hnone }

/-! ## Runs -/

def Inv (w : World α) : Prop := Booked w ∧ Held w

theorem inv_new : Inv (.new : World α) := by
  refine ⟨?_, ?_⟩ <;> constructor <;> simp [World.new]

theorem inv_step {a : Action α} (h : Inv w) (hw : w.step a = some w') : Inv w' := by
  obtain ⟨hbooked, hheld⟩ := h
  cases a with
  | queue run refused =>
      cases hw
      rw [World.queue]
      cases refused with
      | false =>
          refine ⟨hbooked.queue run, fun _ => rfl, fun _ _ => ?_⟩
          exact ne_nil_of_find (find_set_self ..)
      | true => exact ⟨(hbooked.refuse run).release, held_release fun _ => rfl⟩
  | cancel id =>
      cases hw
      refine ⟨hbooked.cancel id, held_release fun hne => hheld.holds ?_⟩
      rintro hnil
      simp [hnil, erase] at hne
  | deliver =>
      refine ⟨hbooked.deliver hw, ?_⟩
      rw [World.step, World.deliver] at hw
      split at hw
      · cases hw
      · split at hw <;> cases hw
        refine ⟨fun hne => hheld.holds ?_, fun hidle => by cases hidle⟩
        rintro hnil
        simp [hnil, erase] at hne
  | finish =>
      rw [World.step, World.finish] at hw
      split at hw <;> cases hw
      exact ⟨Booked.release { hbooked with }, held_release hheld.holds⟩

theorem settles_run {actions : List (Action α)}
    (h : Machine.run World.step .new actions = some w) : Settles w := by
  obtain ⟨hbooked, hheld⟩ : Inv w :=
    Machine.invariant (fun _ _ _ => inv_step) inv_new h
  exact
    { hbooked, hheld with
      kept := fun id hid => (hbooked.cancelled id hid).2.1
      drained := fun hposted => by
        rcases hpending : w.pending with - | ⟨⟨id, run⟩, rest⟩
        · rfl
        · have hfind : find id w.pending = some run := by rw [hpending, find_cons, if_pos rfl]
          have hin := (hbooked.pending id run hfind).2
          rw [hposted] at hin
          cases hin }

def cancelLater : List (Action ℕ) :=
  [.queue 7 false, .queue 8 false, .deliver, .cancel 2, .finish, .deliver, .finish]

theorem settles_run_cancelLater :
    ∃ w, Machine.run World.step .new cancelLater = some w ∧ w.ran = [(1, 7)] ∧ Settles w :=
  ⟨_, rfl, rfl, settles_run (show Machine.run World.step .new cancelLater = some _ from rfl)⟩

end NativeFsTasks

end Tabnode
