import Mathlib.Data.List.Basic
import Mathlib.Data.List.Induction
import Mathlib.Data.Set.Insert
import Mathlib.Tactic.Tauto

/-!
# Logs

A journal is the list of what has happened, in order. It is justified when each entry is
allowed by the entries before it, so that a law that speaks of the past of each entry is
kept by checking the entries as they are written (`justified_concat`).

A party that does not hold a set but hears of each key that comes and goes keeps a
copy of it: `replay` is what it has after a log. Changes that only add give a union
(`replay_adds`), and changes that only drop a difference (`replay_drops`).
-/

namespace Tabnode

namespace Journal

open List

def Justified {ε : Type*} (ok : List ε → ε → Prop) (journal : List ε) : Prop :=
  ∀ before e after, journal = before ++ e :: after → ok before e

variable {ε : Type*} {ok : List ε → ε → Prop}

theorem justified_nil : Justified ok [] := by
  intro before e after h
  simp at h

theorem justified_concat {journal : List ε} {e : ε} :
    Justified ok (journal ++ [e]) ↔ Justified ok journal ∧ ok journal e := by
  constructor
  · intro h
    refine ⟨fun before e' after heq => ?_, h journal e [] rfl⟩
    exact h before e' (after ++ [e]) (by simp [heq])
  · rintro ⟨hjournal, he⟩ before e' after heq
    rcases eq_nil_or_concat' after with rfl | ⟨after, last, rfl⟩
    · obtain ⟨rfl, hlast⟩ := append_inj' heq rfl
      obtain rfl : e = e' := by simpa using hlast
      exact he
    · rw [← cons_append, ← append_assoc] at heq
      exact hjournal before e' after (append_inj' heq rfl).1

/-- Entries that are allowed after any journal that extends this one may be added to it. -/
theorem Justified.append {journal entries : List ε} (h : Justified ok journal)
    (hok : ∀ e ∈ entries, ∀ more, ok (journal ++ more) e) :
    Justified ok (journal ++ entries) := by
  induction entries using List.reverseRecOn with
  | nil => simpa using h
  | append_singleton entries e ih =>
    rw [← append_assoc, justified_concat]
    exact ⟨ih fun e' he' => hok e' (by simp [he']), hok e (by simp) entries⟩

end Journal

/-- A key that comes, or goes. -/
inductive Change (κ : Type*) where
  | add (key : κ)
  | drop (key : κ)

namespace Change

def apply {κ : Type*} (s : Set κ) : Change κ → Set κ
  | add key => insert key s
  | drop key => s \ {key}

def replay {κ : Type*} (s : Set κ) (log : List (Change κ)) : Set κ :=
  log.foldl apply s

@[simp] theorem replay_nil {κ : Type*} (s : Set κ) : replay s [] = s := rfl

@[simp] theorem replay_cons {κ : Type*} (s : Set κ) (c : Change κ) (log : List (Change κ)) :
    replay s (c :: log) = replay (c.apply s) log := rfl

theorem replay_append {κ : Type*} (s : Set κ) (log log' : List (Change κ)) :
    replay s (log ++ log') = replay (replay s log) log' :=
  List.foldl_append

theorem replay_adds {κ : Type*} (s : Set κ) (keys : List κ) :
    replay s (keys.map add) = s ∪ {k | k ∈ keys} := by
  induction keys generalizing s with
  | nil => simp
  | cons key keys ih =>
      rw [List.map_cons, replay_cons, ih]
      ext k
      simp only [apply, Set.mem_union, Set.mem_insert_iff, Set.mem_ofPred_eq, List.mem_cons]
      tauto

theorem replay_drops {κ : Type*} (s : Set κ) (keys : List κ) :
    replay s (keys.map drop) = s \ {k | k ∈ keys} := by
  induction keys generalizing s with
  | nil =>
      ext k
      simp
  | cons key keys ih =>
      rw [List.map_cons, replay_cons, ih]
      ext k
      simp only [apply, Set.mem_sdiff, Set.mem_singleton_iff, Set.mem_ofPred_eq, List.mem_cons]
      tauto

end Change

end Tabnode
