import Mathlib.Data.List.Nodup
import Mathlib.Logic.Function.Basic

/-!
# Sets under keys

A map from keys to sets that keeps no empty set: a set is made when its first element
comes and goes with its last. The sets keep the order their elements came in. `members`
reads a key, and an element joins or leaves one key and no other (`mem_members_add`,
`mem_members_remove`).
-/

namespace Tabnode

namespace Buckets

open Function List

variable {κ α : Type*}

def members (m : κ → Option (List α)) (k : κ) : List α := (m k).getD []

variable {m : κ → Option (List α)} {k : κ}

theorem members_of_some {l : List α} (h : m k = some l) : members m k = l := by
  rw [members, h, Option.getD_some]

theorem members_of_none (h : m k = none) : members m k = [] := by
  rw [members, h, Option.getD_none]

/-- No key has an empty set, and no set an element twice. -/
structure Tidy (m : κ → Option (List α)) : Prop where
  ne_nil : ∀ k l, m k = some l → l ≠ []
  nodup : ∀ k, (members m k).Nodup

variable [DecidableEq κ]

theorem Tidy.drop (h : Tidy m) (k : κ) : Tidy (update m k none) := by
  refine ⟨fun j l hl => ?_, fun j => ?_⟩
  · by_cases hj : j = k
    · rw [hj, update_self] at hl
      cases hl
    · rw [update_of_ne hj] at hl
      exact h.ne_nil j l hl
  · by_cases hj : j = k
    · rw [hj, members_of_none (update_self k none m)]
      exact nodup_nil
    · rw [members, update_of_ne hj]
      exact h.nodup j

variable {j : κ} {b : α}

theorem mem_members_drop : b ∈ members (update m k none) j ↔ b ∈ members m j ∧ j ≠ k := by
  by_cases hj : j = k
  · rw [hj, members_of_none (update_self k none m)]
    simp
  · rw [members, update_of_ne hj, ← members]
    simp [hj]

variable [DecidableEq α]

def add (m : κ → Option (List α)) (k : κ) (a : α) : κ → Option (List α) :=
  update m k (some (if a ∈ members m k then members m k else members m k ++ [a]))

def remove (m : κ → Option (List α)) (k : κ) (a : α) : κ → Option (List α) :=
  match m k with
  | none => m
  | some l => update m k (if l.erase a = [] then none else some (l.erase a))

theorem members_add (m : κ → Option (List α)) (k j : κ) (a : α) :
    members (add m k a) j = if j = k then
      (if a ∈ members m k then members m k else members m k ++ [a]) else members m j := by
  unfold add members
  by_cases hj : j = k
  · rw [hj, update_self, if_pos rfl, Option.getD_some]
  · rw [update_of_ne hj, if_neg hj]

theorem mem_members_add {a : α} :
    b ∈ members (add m k a) j ↔ b ∈ members m j ∨ (j = k ∧ b = a) := by
  rw [members_add]
  by_cases hj : j = k
  · rw [if_pos hj, hj]
    by_cases ha : a ∈ members m k
    · rw [if_pos ha]
      constructor
      · exact .inl
      · rintro (h | ⟨-, rfl⟩)
        · exact h
        · exact ha
    · rw [if_neg ha, mem_append, mem_singleton]
      simp
  · rw [if_neg hj]
    simp [hj]

theorem remove_of_none (a : α) (h : m k = none) : remove m k a = m := by
  unfold remove
  rw [h]

theorem remove_of_some (a : α) {l : List α} (h : m k = some l) :
    remove m k a = update m k (if l.erase a = [] then none else some (l.erase a)) := by
  unfold remove
  rw [h]

theorem members_remove (m : κ → Option (List α)) (k j : κ) (a : α) :
    members (remove m k a) j = if j = k then (members m k).erase a else members m j := by
  cases hm : m k with
  | none =>
      rw [remove_of_none a hm, members_of_none hm]
      split
      · next hj =>
          rw [hj, members_of_none hm]
          rfl
      · rfl
  | some l =>
      rw [remove_of_some a hm, members_of_some hm]
      by_cases hj : j = k
      · rw [hj, if_pos rfl, members, update_self]
        split
        · next hnil => exact hnil.symm
        · rfl
      · rw [if_neg hj, members, update_of_ne hj, members]

theorem Tidy.add (h : Tidy m) (k : κ) (a : α) : Tidy (add m k a) := by
  refine ⟨fun j l hl => ?_, fun j => ?_⟩
  · by_cases hj : j = k
    · subst hj
      rw [Buckets.add, update_self] at hl
      cases hl
      split
      · next ha => exact ne_nil_of_mem ha
      · exact append_ne_nil_of_right_ne_nil _ (cons_ne_nil a [])
    · rw [Buckets.add, update_of_ne hj] at hl
      exact h.ne_nil j l hl
  · rw [members_add]
    split
    · split
      · exact h.nodup k
      · next ha => exact (h.nodup k).append (nodup_singleton a) (by simpa using ha)
    · exact h.nodup j

theorem Tidy.remove (h : Tidy m) (k : κ) (a : α) : Tidy (remove m k a) := by
  refine ⟨fun j l hl => ?_, fun j => ?_⟩
  · cases hm : m k with
    | none =>
        rw [remove_of_none a hm] at hl
        exact h.ne_nil j l hl
    | some l' =>
        rw [remove_of_some a hm] at hl
        by_cases hj : j = k
        · rw [hj, update_self] at hl
          split at hl
          · cases hl
          · next hne =>
              cases hl
              exact hne
        · rw [update_of_ne hj] at hl
          exact h.ne_nil j l hl
  · rw [members_remove]
    split
    · exact (h.nodup k).erase a
    · exact h.nodup j

theorem mem_members_remove (h : Tidy m) {a : α} :
    b ∈ members (remove m k a) j ↔ b ∈ members m j ∧ ¬ (j = k ∧ b = a) := by
  rw [members_remove]
  by_cases hj : j = k
  · rw [if_pos hj, hj, (h.nodup k).mem_erase_iff]
    simp [and_comm]
  · rw [if_neg hj]
    simp [hj]

end Buckets

end Tabnode
