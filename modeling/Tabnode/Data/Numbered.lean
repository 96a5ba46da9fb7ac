import Mathlib.Data.List.Basic

/-!
# What the places of a list give

Every element of a list gives some records, made with its place. The records of an
appended list follow those of the list (`numbered_append`), and where each record names
its place, the records of a place are those of its element (`filter_numbered`).
-/

namespace Tabnode

open List
variable {α β : Type*}

/-- The records of a list whose first element has place `k`. -/
def numbered (f : ℕ → α → List β) (k : ℕ) (l : List α) : List β :=
  (l.zipIdx k).flatMap fun p => f p.2 p.1

@[simp] theorem numbered_nil (f : ℕ → α → List β) (k : ℕ) : numbered f k [] = [] := rfl

theorem numbered_cons (f : ℕ → α → List β) (k : ℕ) (a : α) (l : List α) :
    numbered f k (a :: l) = f k a ++ numbered f (k + 1) l := by
  rw [numbered, zipIdx_cons, flatMap_cons]
  rfl

theorem numbered_append (f : ℕ → α → List β) (k : ℕ) (l m : List α) :
    numbered f k (l ++ m) = numbered f k l ++ numbered f (k + l.length) m := by
  rw [numbered, zipIdx_append, flatMap_append]
  rfl

theorem numbered_concat (f : ℕ → α → List β) (k : ℕ) (l : List α) (a : α) :
    numbered f k (l ++ [a]) = numbered f k l ++ f (k + l.length) a := by
  rw [numbered_append, numbered_cons, numbered_nil, append_nil]

theorem numbered_eq_nil {f : ℕ → α → List β} {k : ℕ} {l : List α}
    (h : ∀ a ∈ l, ∀ i, f i a = []) : numbered f k l = [] := by
  refine flatMap_eq_nil_iff.2 fun p hp => h p.1 ?_ p.2
  exact fst_mem_of_mem_zipIdx hp

theorem numbered_map {γ : Type*} (f : ℕ → γ → List β) (g : α → γ) (k : ℕ) (l : List α) :
    numbered f k (l.map g) = numbered (fun i a => f i (g a)) k l := by
  induction l generalizing k with
  | nil => rfl
  | cons a l ih => rw [map_cons, numbered_cons, numbered_cons, ih]

theorem numbered_congr {f g : ℕ → α → List β} {k : ℕ} {l : List α}
    (h : ∀ r a, l[r]? = some a → f (k + r) a = g (k + r) a) :
    numbered f k l = numbered g k l := by
  induction l generalizing k with
  | nil => rfl
  | cons a l ih =>
      have hrest : numbered f (k + 1) l = numbered g (k + 1) l := by
        refine ih fun r b hb => ?_
        have hnext := h (r + 1) b hb
        rwa [show k + (r + 1) = k + 1 + r by omega] at hnext
      rw [numbered_cons, numbered_cons, hrest, ← Nat.add_zero k, h 0 a rfl]

theorem numbered_const (f : α → List β) (k : ℕ) (l : List α) :
    numbered (fun _ => f) k l = l.flatMap f := by
  induction l generalizing k with
  | nil => rfl
  | cons a l ih => rw [numbered_cons, flatMap_cons, ih]

theorem flatMap_numbered {γ : Type*} (f : ℕ → α → List β) (g : β → List γ) (k : ℕ)
    (l : List α) :
    (numbered f k l).flatMap g = numbered (fun i a => (f i a).flatMap g) k l := by
  induction l generalizing k with
  | nil => rfl
  | cons a l ih => rw [numbered_cons, numbered_cons, flatMap_append, ih]

variable {f : ℕ → α → List β} {place : β → ℕ}

theorem place_of_mem_numbered (hplace : ∀ i a, ∀ b ∈ f i a, place b = i) {k : ℕ} {l : List α}
    {b : β} (hb : b ∈ numbered f k l) : k ≤ place b ∧ place b < k + l.length := by
  induction l generalizing k with
  | nil => cases hb
  | cons a l ih =>
      rw [numbered_cons, mem_append] at hb
      rw [length_cons]
      rcases hb with hb | hb
      · have heq := hplace k a b hb
        omega
      · have hrest := ih hb
        omega

theorem filter_numbered (hplace : ∀ i a, ∀ b ∈ f i a, place b = i) (k r : ℕ) (l : List α) :
    (numbered f k l).filter (fun b => place b == k + r) = (l[r]?).elim [] (f (k + r)) := by
  induction l generalizing k r with
  | nil => rfl
  | cons a l ih =>
      rw [numbered_cons, filter_append]
      cases r with
      | zero =>
          have hhead : (f k a).filter (fun b => place b == k + 0) = f k a := by
            refine filter_eq_self.2 fun b hb => ?_
            simp [hplace k a b hb]
          have hrest : (numbered f (k + 1) l).filter (fun b => place b == k + 0) = [] := by
            refine filter_eq_nil_iff.2 fun b hb => ?_
            have hlow := (place_of_mem_numbered hplace hb).1
            simp only [Nat.add_zero, beq_iff_eq]
            omega
          rw [hhead, hrest, append_nil]
          rfl
      | succ r =>
          have hhead : (f k a).filter (fun b => place b == k + (r + 1)) = [] := by
            refine filter_eq_nil_iff.2 fun b hb => ?_
            simp [hplace k a b hb]
          rw [hhead, nil_append, getElem?_cons_succ]
          have hnext := ih (k + 1) r
          rwa [show k + 1 + r = k + (r + 1) by omega] at hnext

end Tabnode
