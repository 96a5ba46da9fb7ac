import Mathlib.Data.List.Induction

/-!
# The lives of a number

A number is given to one process after another. Each of them is allocated the number, ends
once, and is reaped once after that; one that a handle waits for is told to that handle,
once, with the end that was reaped. `Whole calls` says that what is heard of a number is a
row of such lives, and `read` finds where in a life the last one stands.

Several parties hold the numbers of processes that have not been reaped, each its own.
`Balanced log held` says that what a log says of each number is what they hold of it; it
is kept by each of the three things a party may do (`Balanced.allocate`, `Balanced.exit`,
`Balanced.reap`).
-/

namespace Tabnode

namespace Life

open List

/-- What is heard of a number. -/
inductive Call (E : Type*) where
  | allocate (handle : Bool)
  | exit (e : E)
  | reap (e : E)
  | tell (e : E)
  deriving DecidableEq

/-- Where in a life a number stands. -/
inductive Stage (E : Type*) where
  | free
  | running (handle : Bool)
  | ended (handle : Bool)
  | reaped (e : E)
  deriving DecidableEq

variable {E : Type*}

/-- Lives that are over, one after another. -/
inductive Whole : List (Call E) → Prop where
  | nil : Whole []
  | unwatched {past : List (Call E)} (h : Whole past) (x e : E) :
      Whole (past ++ [.allocate false, .exit x, .reap e])
  | watched {past : List (Call E)} (h : Whole past) (x e : E) :
      Whole (past ++ [.allocate true, .exit x, .reap e, .tell e])

def Stage.Of : Stage E → List (Call E) → Prop
  | .free, calls => Whole calls
  | .running handle, calls => ∃ past, Whole past ∧ calls = past ++ [.allocate handle]
  | .ended handle, calls =>
    ∃ past x, Whole past ∧ calls = past ++ [.allocate handle, .exit x]
  | .reaped e, calls =>
    ∃ past x, Whole past ∧ calls = past ++ [.allocate true, .exit x, .reap e]

section Heard

variable {K : Type*} [DecidableEq K]

def heard (log : List (K × Call E)) (k : K) : List (Call E) :=
  (log.filter fun entry => entry.1 = k).map (·.2)

@[simp] theorem heard_nil (k : K) : heard ([] : List (K × Call E)) k = [] := rfl

@[simp] theorem heard_append (log log' : List (K × Call E)) (k : K) :
    heard (log ++ log') k = heard log k ++ heard log' k := by
  simp [heard]

@[simp] theorem heard_cons_self (log : List (K × Call E)) (k : K) (c : Call E) :
    heard ((k, c) :: log) k = c :: heard log k := by
  simp [heard]

theorem heard_map_self (k : K) (new : List (Call E)) :
    heard (new.map fun c => (k, c)) k = new := by
  induction new with
  | nil => rfl
  | cons c new ih => rw [map_cons, heard_cons_self, ih]

theorem heard_map_of_ne {k k' : K} (h : k ≠ k') (new : List (Call E)) :
    heard (new.map fun c => (k, c)) k' = [] := by
  induction new with
  | nil => rfl
  | cons c new ih =>
    simp [heard, h] at ih ⊢

end Heard

variable [DecidableEq E]

def Stage.next : Stage E → Call E → Option (Stage E)
  | .free, .allocate handle => some (.running handle)
  | .running handle, .exit _ => some (.ended handle)
  | .ended false, .reap _ => some .free
  | .ended true, .reap e => some (.reaped e)
  | .reaped e, .tell e' => if e = e' then some .free else none
  | _, _ => none

def read (calls : List (Call E)) : Option (Stage E) := calls.foldlM Stage.next .free

@[simp] theorem read_nil : read ([] : List (Call E)) = some .free := rfl

@[simp] theorem read_concat (calls : List (Call E)) (c : Call E) :
    read (calls ++ [c]) = (read calls).bind fun s => s.next c := by
  simp [read, foldlM_append]

variable {s : Stage E} {calls : List (Call E)}

theorem Stage.Of.next {t : Stage E} {c : Call E} (hs : s.Of calls)
    (h : s.next c = some t) : t.Of (calls ++ [c]) := by
  match s, c with
  | .free, .allocate handle =>
    cases h
    exact ⟨calls, hs, rfl⟩
  | .running handle, .exit x =>
    cases h
    obtain ⟨past, hpast, rfl⟩ := hs
    exact ⟨past, x, hpast, by simp⟩
  | .ended false, .reap e =>
    cases h
    obtain ⟨past, x, hpast, rfl⟩ := hs
    simpa [Stage.Of] using hpast.unwatched x e
  | .ended true, .reap e =>
    cases h
    obtain ⟨past, x, hpast, rfl⟩ := hs
    exact ⟨past, x, hpast, by simp⟩
  | .reaped e, .tell e' =>
    obtain ⟨past, x, hpast, rfl⟩ := hs
    obtain ⟨rfl, htell⟩ := Option.ite_none_right_eq_some.1 h
    cases htell
    simpa [Stage.Of] using hpast.watched x e

theorem Stage.of_read (h : read calls = some s) : s.Of calls := by
  induction calls using List.reverseRecOn generalizing s with
  | nil =>
    cases h
    exact .nil
  | append_singleton calls c ih =>
    obtain ⟨t, ht, hc⟩ := Option.bind_eq_some_iff.1 ((read_concat calls c).symm.trans h)
    exact (ih ht).next hc

theorem read_of_whole (h : Whole calls) : read calls = some .free := by
  induction h with
  | nil => rfl
  | @unwatched past _ x e ih =>
    rw [read, foldlM_append, ← read, ih]
    rfl
  | @watched past _ x e ih =>
    rw [read, foldlM_append, ← read, ih]
    simp [Stage.next]

theorem Stage.Of.read (h : s.Of calls) : read calls = some s := by
  match s, h with
  | .free, h => exact read_of_whole h
  | .running handle, ⟨past, hpast, hcalls⟩ =>
    rw [hcalls, read_concat, read_of_whole hpast]
    rfl
  | .ended handle, ⟨past, x, hpast, hcalls⟩ =>
    rw [hcalls, Life.read, foldlM_append, ← Life.read, read_of_whole hpast]
    rfl
  | .reaped e, ⟨past, x, hpast, hcalls⟩ =>
    rw [hcalls, Life.read, foldlM_append, ← Life.read, read_of_whole hpast]
    rfl

/-- The calls heard of a number are lives just when they can be read. -/
theorem read_eq_some : read calls = some s ↔ s.Of calls :=
  ⟨Stage.of_read, Stage.Of.read⟩

/-! ## Numbers held by several parties -/

/-- A number that a party holds: whether a handle waits for its process, and whether the
process has ended. -/
structure Held (K : Type*) where
  key : K
  handle : Bool
  ended : Bool

def Held.stage {K : Type*} (h : Held K) : Stage E :=
  if h.ended then .ended h.handle else .running h.handle

variable {K ι : Type*} [DecidableEq K]
/-- What is heard of each number is lives; the last one is over, unless a party holds the
number, and then stands where it says. No two parties hold a number. -/
structure Balanced (log : List (K × Call E)) (held : ι → Option (Held K)) : Prop where
  stage : ∀ i h, held i = some h → read (heard log h.key) = some h.stage
  alone : ∀ i j h h', held i = some h → held j = some h' → h.key = h'.key → i = j
  free : ∀ k, (∀ i h, held i = some h → h.key ≠ k) → read (heard log k) = some .free

theorem balanced_nil : Balanced ([] : List (K × Call E)) (fun _ : ι => none) where
  stage := by simp
  alone := by simp
  free := by simp

variable {log : List (K × Call E)} {held held' : ι → Option (Held K)}

variable {k : K} {i : ι}

theorem Balanced.ne_of_free (hb : Balanced log held) (hk : read (heard log k) = some .free)
    {h : Held K} (hi : held i = some h) : h.key ≠ k := by
  rintro rfl
  have hstage := (hb.stage i h hi).symm.trans hk
  unfold Held.stage at hstage
  split at hstage <;> simp at hstage

/-- A party does something about one number, the one it holds or one that is free, and
what is heard of the number then stands where the party says. -/
theorem Balanced.move (hb : Balanced log held) (new : List (Call E))
    (hold : ∀ h, held i = some h → h.key = k)
    (hnone : held i = none → read (heard log k) = some .free)
    (hnew : ∀ h, held' i = some h → h.key = k ∧ read (heard log k ++ new) = some h.stage)
    (hfree : held' i = none → read (heard log k ++ new) = some .free)
    (hother : ∀ j, j ≠ i → held' j = held j) : Balanced (log ++ new.map fun c => (k, c)) held' := by
  have hself : heard (log ++ new.map fun c => (k, c)) k = heard log k ++ new := by
    rw [heard_append, heard_map_self]
  have hne : ∀ k', k ≠ k' → heard (log ++ new.map fun c => (k, c)) k' = heard log k' := by
    intro k' hk
    rw [heard_append, heard_map_of_ne hk, append_nil]
  -- another party's number is not the one that moves
  have hapart : ∀ j h, j ≠ i → held j = some h → k ≠ h.key := by
    intro j h hj hh hk
    cases hi : held i with
    | none => exact hb.ne_of_free (hnone hi) hh hk.symm
    | some g => exact hj (hb.alone j i h g hh hi (hk.symm.trans (hold g hi).symm))
  constructor
  case stage =>
    intro j h hh
    by_cases hj : j = i
    · subst hj
      rw [(hnew h hh).1, hself, (hnew h hh).2]
    · rw [hother j hj] at hh
      rw [hne _ (hapart j h hj hh), hb.stage j h hh]
  case alone =>
    intro j j' h h' hh hh' hkey
    by_cases hj : j = i <;> by_cases hj' : j' = i
    · exact hj.trans hj'.symm
    · subst hj
      rw [hother j' hj'] at hh'
      exact absurd ((hnew h hh).1.symm.trans hkey) (hapart j' h' hj' hh')
    · subst hj'
      rw [hother j hj] at hh
      exact absurd ((hnew h' hh').1.symm.trans hkey.symm) (hapart j h hj hh)
    · rw [hother j hj] at hh
      rw [hother j' hj'] at hh'
      exact hb.alone j j' h h' hh hh' hkey
  case free =>
    intro k' hk'
    by_cases hk : k = k'
    · subst hk
      rw [hself]
      refine hfree (Option.eq_none_iff_forall_ne_some.2 fun h hh => ?_)
      exact hk' i h hh (hnew h hh).1
    · rw [hne k' hk]
      refine hb.free k' fun j h hh hkey => ?_
      by_cases hj : j = i
      · subst hj
        exact hk ((hold h hh).symm.trans hkey)
      · exact hk' j h ((hother j hj).trans hh) hkey

theorem Balanced.allocate (hb : Balanced log held) {handle : Bool}
    (hk : read (heard log k) = some .free) (hi : held i = none)
    (hi' : held' i = some ⟨k, handle, false⟩) (hother : ∀ j, j ≠ i → held' j = held j) :
    Balanced (log ++ [(k, .allocate handle)]) held' := by
  refine hb.move [.allocate handle] ?_ (fun _ => hk) ?_ ?_ hother
  · simp [hi]
  · rintro h hh
    cases hi'.symm.trans hh
    exact ⟨rfl, by simp [hk, Stage.next, Held.stage]⟩
  · simp [hi']

theorem Balanced.exit (hb : Balanced log held) {handle : Bool}
    (hi : held i = some ⟨k, handle, false⟩) (x : E) (hi' : held' i = some ⟨k, handle, true⟩)
    (hother : ∀ j, j ≠ i → held' j = held j) : Balanced (log ++ [(k, .exit x)]) held' := by
  have hk : read (heard log k) = some (.running handle) := hb.stage i _ hi
  refine hb.move [.exit x] ?_ ?_ ?_ ?_ hother
  · rintro h hh
    cases hi.symm.trans hh
    rfl
  · simp [hi]
  · rintro h hh
    cases hi'.symm.trans hh
    exact ⟨rfl, by simp [hk, Stage.next, Held.stage]⟩
  · simp [hi']

/-- What is heard of a number when its process is reaped: before, its end, unless it has
ended; after, what its handle is told. -/
def reaping (ended handle : Bool) (x e : E) : List (Call E) :=
  (if ended then [] else [Call.exit x]) ++ .reap e :: if handle then [Call.tell e] else []

theorem Balanced.reap (hb : Balanced log held) {h : Held K} (hi : held i = some h) (x e : E)
    (hi' : held' i = none) (hother : ∀ j, j ≠ i → held' j = held j) :
    Balanced (log ++ (reaping h.ended h.handle x e).map fun c => (h.key, c)) held' := by
  have hk := hb.stage i h hi
  refine hb.move _ ?_ ?_ ?_ ?_ hother
  · rintro g hg
    cases hi.symm.trans hg
    rfl
  · simp [hi]
  · simp [hi']
  · rintro -
    rw [read, foldlM_append, ← read, hk]
    obtain ⟨k, handle, ended⟩ := h
    cases handle <;> cases ended <;> simp [reaping, Held.stage, Stage.next]

theorem Balanced.whole (hb : Balanced log held)
    (hk : ∀ i h, held i = some h → h.key ≠ k) : Whole (heard log k) :=
  Stage.of_read (hb.free k hk)

end Life

end Tabnode
