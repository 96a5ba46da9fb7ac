import Mathlib.Data.List.Basic
import Mathlib.Data.List.Nodup

/-!
# Maps in insertion order

An insertion-ordered map is kept as the list of its entries. `set` overwrites a
key where it stands and appends a new one; `erase` drops a key. The three
operations are read through `find`, and the keys stay distinct.
-/

namespace Tabnode

namespace OrderedMap

open List

def find {κ ν : Type*} [DecidableEq κ] (k : κ) : List (κ × ν) → Option ν
  | [] => none
  | (k', v) :: l => if k' = k then some v else find k l

def set {κ ν : Type*} [DecidableEq κ] (k : κ) (v : ν) : List (κ × ν) → List (κ × ν)
  | [] => [(k, v)]
  | (k', v') :: l => if k' = k then (k, v) :: l else (k', v') :: set k v l

def erase {κ ν : Type*} [DecidableEq κ] (k : κ) (l : List (κ × ν)) : List (κ × ν) :=
  l.filter fun e => decide (e.1 ≠ k)

def keys {κ ν : Type*} (l : List (κ × ν)) : List κ := l.map Prod.fst

@[simp] theorem find_nil {κ ν : Type*} [DecidableEq κ] (k : κ) :
    find k ([] : List (κ × ν)) = none := rfl

variable {κ ν : Type*} [DecidableEq κ] {k j : κ} {v w : ν} {l : List (κ × ν)}

theorem find_cons (k k' : κ) (v : ν) (l : List (κ × ν)) :
    find k ((k', v) :: l) = if k' = k then some v else find k l := rfl

theorem find_set (k j : κ) (v : ν) (l : List (κ × ν)) :
    find j (set k v l) = if k = j then some v else find j l := by
  induction l with
  | nil => simp [set, find]
  | cons e l ih =>
      obtain ⟨k', v'⟩ := e
      by_cases hk : k' = k
      · subst hk
        simp only [set, if_true, find_cons]
        split <;> rfl
      · simp only [set, if_neg hk, find_cons, ih]
        by_cases hj : k' = j
        · have hkj : k ≠ j := fun h => hk (hj.trans h.symm)
          simp [hj, hkj]
        · simp [hj]

@[simp] theorem find_set_self (k : κ) (v : ν) (l : List (κ × ν)) : find k (set k v l) = some v := by
  simp [find_set]

theorem find_set_ne (h : k ≠ j) (v : ν) (l : List (κ × ν)) : find j (set k v l) = find j l := by
  simp [find_set, h]

theorem find_erase (k j : κ) (l : List (κ × ν)) :
    find j (erase k l) = if k = j then none else find j l := by
  induction l with
  | nil => simp [erase]
  | cons e l ih =>
      obtain ⟨k', v⟩ := e
      by_cases hk : k' = k
      · subst hk
        have herase : erase k' ((k', v) :: l) = erase k' l := by simp [erase]
        rw [herase, ih, find_cons]
        split <;> rfl
      · have herase : erase k ((k', v) :: l) = (k', v) :: erase k l := by
          simp [erase, hk]
        rw [herase, find_cons, ih, find_cons]
        by_cases hj : k' = j
        · have hkj : k ≠ j := fun h => hk (hj.trans h.symm)
          simp [hj, hkj]
        · simp [hj]

theorem find_foldl_erase {ι : Type*} (f : ι → κ) (is : List ι) (k : κ)
    (l : List (κ × ν)) : find k (is.foldl (fun l i => erase (f i) l) l) =
      if k ∈ is.map f then none else find k l := by
  induction is generalizing l with
  | nil => simp
  | cons i is ih =>
      rw [foldl_cons, ih, find_erase, map_cons]
      by_cases hi : f i = k
      · simp [hi]
      · simp [hi, Ne.symm hi]

theorem mem_of_find (h : find k l = some v) : (k, v) ∈ l := by
  induction l with
  | nil => simp at h
  | cons e l ih =>
      obtain ⟨k', v'⟩ := e
      rw [find_cons] at h
      split at h
      · next hk =>
          cases h
          simp [hk]
      · exact mem_cons_of_mem _ (ih h)

theorem find_eq_none_iff : find k l = none ↔ k ∉ keys l := by
  induction l with
  | nil => simp [keys]
  | cons e l ih =>
      obtain ⟨k', v⟩ := e
      rw [find_cons]
      by_cases hk : k' = k
      · simp [hk, keys]
      · simp only [if_neg hk, ih, keys, map_cons, mem_cons, not_or]
        exact ⟨fun h => ⟨fun e => hk e.symm, h⟩, fun h => h.2⟩

theorem mem_keys_iff :
    k ∈ keys l ↔ ∃ v, find k l = some v := by
  rw [← not_iff_not, ← find_eq_none_iff, ← Option.ne_none_iff_exists', not_not]

theorem find_of_mem (hl : (keys l).Nodup) (h : (k, v) ∈ l) : find k l = some v := by
  induction l with
  | nil => simp at h
  | cons e l ih =>
      obtain ⟨k', v'⟩ := e
      simp only [keys, map_cons, nodup_cons] at hl
      rw [find_cons]
      rcases mem_cons.1 h with heq | hmem
      · cases heq
        simp
      · have hne : k' ≠ k := by
          rintro rfl
          exact hl.1 (mem_map.2 ⟨_, hmem, rfl⟩)
        rw [if_neg hne]
        exact ih hl.2 hmem

theorem mem_keys_set : j ∈ keys (set k v l) ↔ j = k ∨ j ∈ keys l := by
  rw [mem_keys_iff, mem_keys_iff]
  by_cases h : k = j
  · subst h
    simp
  · simp [find_set_ne h, Ne.symm h]

omit [DecidableEq κ] in
theorem keys_map_self (l : List κ) (f : κ → ν) : keys (l.map fun k => (k, f k)) = l := by
  simp [keys, Function.comp_def]

theorem find_map_self (l : List κ) (f : κ → ν) (k : κ) :
    find k (l.map fun k => (k, f k)) = if k ∈ l then some (f k) else none := by
  induction l with
  | nil => rfl
  | cons j l ih =>
      rw [map_cons, find_cons, ih]
      by_cases hj : j = k
      · simp [hj]
      · simp [hj, Ne.symm hj]

theorem keys_set_of_find (h : find k l = some w) : keys (set k v l) = keys l := by
  induction l with
  | nil => cases h
  | cons e l ih =>
      obtain ⟨k', v'⟩ := e
      rw [find_cons] at h
      by_cases hk : k' = k
      · simp [set, hk, keys]
      · rw [if_neg hk] at h
        simpa [set, hk, keys] using ih h

theorem keys_set (k : κ) (v : ν) (l : List (κ × ν)) :
    keys (set k v l) = if k ∈ keys l then keys l else keys l ++ [k] := by
  induction l with
  | nil => rfl
  | cons e l ih =>
      obtain ⟨k', v'⟩ := e
      by_cases hk : k' = k
      · simp [set, hk, keys]
      · have hcons : keys (set k v ((k', v') :: l)) = k' :: keys (set k v l) := by
          simp [set, hk, keys]
        have hmem : k ∈ keys ((k', v') :: l) ↔ k ∈ keys l := by
          simp [keys, Ne.symm hk]
        rw [hcons, ih]
        simp only [hmem]
        split <;> simp [keys]

theorem keys_erase (k : κ) (l : List (κ × ν)) :
    keys (erase k l) = (keys l).filter fun j => decide (j ≠ k) := by
  simp [keys, erase, filter_map, Function.comp_def]

theorem mem_keys_erase (h : j ∈ keys (erase k l)) : j ∈ keys l := by
  obtain ⟨e, he, rfl⟩ := mem_map.1 h
  exact mem_map.2 ⟨e, (mem_filter.1 he).1, rfl⟩

theorem erase_of_find_eq_none (h : find k l = none) : erase k l = l := by
  rw [erase, filter_eq_self]
  intro e he
  have hne : e.1 ≠ k := by
    rintro rfl
    exact find_eq_none_iff.1 h (mem_map_of_mem he)
  simpa using hne

theorem nodup_set (h : (keys l).Nodup) : (keys (set k v l)).Nodup := by
  induction l with
  | nil => simp [set, keys]
  | cons e l ih =>
      obtain ⟨k', v'⟩ := e
      simp only [keys, map_cons, nodup_cons] at h
      by_cases hk : k' = k
      · subst hk
        simpa [set, keys] using h
      · have hmem : k' ∉ keys (set k v l) := by
          rw [mem_keys_set, not_or]
          exact ⟨hk, h.1⟩
        simp only [set, if_neg hk, keys, map_cons, nodup_cons]
        exact ⟨hmem, ih h.2⟩

theorem nodup_erase (h : (keys l).Nodup) : (keys (erase k l)).Nodup :=
  List.Nodup.sublist (filter_sublist.map _) h

end OrderedMap

end Tabnode
