import Mathlib.Data.List.Basic

/-!
# First in, first out, with an end

A queue that one party writes and closes and another takes from, seen as the history
of what was asked and answered. `Accepts h q` says that a queue that starts empty and
open can show the history `h` and is then `q`; a queue that is closed takes no more
writes, and answers its end only when it holds nothing. A history that is accepted
loses nothing, and its end is final (`Accepts.lossless`).
-/

namespace Tabnode

/-- What a queue holds, and whether it was closed. -/
structure Fifo (α : Type*) where
  held : List α
  closed : Bool

namespace Fifo

/-- What is asked of a queue, and what it answers. -/
inductive Event (α : Type*) where
  | write (xs : List α)
  | close
  | take (xs : List α)
  | eof
  deriving DecidableEq

variable {α : Type*}

def written : List (Event α) → List α
  | [] => []
  | .write xs :: h => xs ++ written h
  | .close :: _ => []
  | .take _ :: h => written h
  | .eof :: h => written h

def taken : List (Event α) → List α
  | [] => []
  | .take xs :: h => xs ++ taken h
  | .write _ :: h => taken h
  | .close :: h => taken h
  | .eof :: h => taken h

/-- The history of a queue that keeps the order and loses nothing: what was taken is
the beginning of what was written; the end is answered after a close, when all that
was written has been taken; and nothing is taken after it. -/
structure Lossless (h : List (Event α)) : Prop where
  inOrder : taken h <+: written h
  complete : ∀ h₁ h₂, h = h₁ ++ .eof :: h₂ → .close ∈ h₁ ∧ taken h₁ = written h₁
  final : ∀ h₁ h₂, h = h₁ ++ .eof :: h₂ → taken h₂ = []

/-- The histories a queue can show, and what it is after them. -/
inductive Accepts : List (Event α) → Fifo α → Prop where
  | nil : Accepts [] ⟨[], false⟩
  | write {h : List (Event α)} {held : List α} (q : Accepts h ⟨held, false⟩) (xs : List α) :
      Accepts (h ++ [.write xs]) ⟨held ++ xs, false⟩
  | writeClosed {h : List (Event α)} {held : List α} (q : Accepts h ⟨held, true⟩)
      (xs : List α) : Accepts (h ++ [.write xs]) ⟨held, true⟩
  | close {h : List (Event α)} {q : Fifo α} (q' : Accepts h q) :
      Accepts (h ++ [.close]) ⟨q.held, true⟩
  | take {h : List (Event α)} {xs held : List α} {closed : Bool}
      (q : Accepts h ⟨xs ++ held, closed⟩) : Accepts (h ++ [.take xs]) ⟨held, closed⟩
  | eof {h : List (Event α)} (q : Accepts h ⟨[], true⟩) :
      Accepts (h ++ [.eof]) ⟨[], true⟩

@[simp] theorem taken_append (h h' : List (Event α)) :
    taken (h ++ h') = taken h ++ taken h' := by
  induction h with
  | nil => rfl
  | cons e h ih => cases e <;> simp [taken, ih]

variable {h : List (Event α)}

theorem written_append_of_mem (hc : .close ∈ h) (h' : List (Event α)) :
    written (h ++ h') = written h := by
  induction h with
  | nil => simp at hc
  | cons e h ih => cases e <;> simp_all [written]

theorem written_append_of_notMem (hc : .close ∉ h)
    (h' : List (Event α)) : written (h ++ h') = written h ++ written h' := by
  induction h with
  | nil => rfl
  | cons e h ih => cases e <;> simp_all [written]

variable {q : Fifo α}

theorem Accepts.closed_iff (hq : Accepts h q) : .close ∈ h ↔ q.closed = true := by
  induction hq with
  | nil => simp
  | write _ _ ih => simpa using ih
  | writeClosed _ _ ih => simpa using ih
  | close _ _ => simp
  | take _ ih => simpa using ih
  | eof _ ih => simpa using ih

theorem Accepts.written_eq (hq : Accepts h q) : written h = taken h ++ q.held := by
  induction hq with
  | nil => rfl
  | @write h held q xs ih =>
    have hopen : .close ∉ h := by simp [q.closed_iff]
    rw [written_append_of_notMem hopen, ih]
    simp [written, taken]
  | @writeClosed h held q xs ih =>
    rw [written_append_of_mem (q.closed_iff.2 rfl), ih]
    simp [taken]
  | @close h q hq ih =>
    by_cases hc : .close ∈ h
    · rw [written_append_of_mem hc, ih]
      simp [taken]
    · rw [written_append_of_notMem hc, ih]
      simp [written, taken]
  | @take h xs held closed q ih =>
    by_cases hc : .close ∈ h
    · rw [written_append_of_mem hc, ih]
      simp [taken]
    · rw [written_append_of_notMem hc, ih]
      simp [written, taken]
  | @eof h q ih =>
    rw [written_append_of_mem (q.closed_iff.2 rfl), ih]
    simp [taken]

/-- A queue that has answered its end is closed and empty from then on. -/
theorem Accepts.ended (hq : Accepts h q) (he : .eof ∈ h) : q = ⟨[], true⟩ := by
  induction hq with
  | nil => simp at he
  | write _ _ ih => simpa using ih (by simpa using he)
  | writeClosed _ _ ih => simpa using ih (by simpa using he)
  | close _ ih => simp [ih (by simpa using he)]
  | take _ ih =>
    have hended := ih (by simpa using he)
    simp_all
  | eof _ _ => rfl

theorem Accepts.take_nil {xs held : List α} {closed : Bool} (hq : Accepts h ⟨xs ++ held, closed⟩)
    (he : .eof ∈ h) : xs = [] := by
  have hended := hq.ended he
  simp at hended
  exact hended.1.1

/-- Where a history splits at an end, it splits there before its last event, unless
that event is the end. -/
theorem eq_append_eof {h₁ h₂ : List (Event α)} {e : Event α} (heq : h ++ [e] = h₁ ++ .eof :: h₂) :
    (h = h₁ ∧ e = .eof ∧ h₂ = []) ∨ ∃ t, h₂ = t ++ [e] ∧ h = h₁ ++ .eof :: t := by
  rcases List.eq_nil_or_concat' h₂ with rfl | ⟨t, x, rfl⟩
  · have := List.append_inj' heq rfl
    exact .inl ⟨this.1, by simpa using this.2, rfl⟩
  · rw [← List.cons_append, ← List.append_assoc] at heq
    have := List.append_inj' heq rfl
    exact .inr ⟨t, by simpa using this.2.symm, this.1⟩

theorem Accepts.complete (hq : Accepts h q) :
    ∀ h₁ h₂, h = h₁ ++ .eof :: h₂ → .close ∈ h₁ ∧ taken h₁ = written h₁ := by
  induction hq with
  | nil => simp
  | write _ _ ih | writeClosed _ _ ih | close _ ih | take _ ih =>
    intro h₁ h₂ heq
    rcases eq_append_eof heq with ⟨_, hne, _⟩ | ⟨t, _, ht⟩
    · cases hne
    · exact ih h₁ t ht
  | eof q ih =>
    intro h₁ h₂ heq
    rcases eq_append_eof heq with ⟨rfl, _, _⟩ | ⟨t, _, ht⟩
    · exact ⟨q.closed_iff.2 rfl, by simp [q.written_eq]⟩
    · exact ih h₁ t ht

theorem Accepts.final (hq : Accepts h q) : ∀ h₁ h₂, h = h₁ ++ .eof :: h₂ → taken h₂ = [] := by
  induction hq with
  | nil => simp
  | write _ _ ih | writeClosed _ _ ih | close _ ih =>
    intro h₁ h₂ heq
    rcases eq_append_eof heq with ⟨_, hne, _⟩ | ⟨t, rfl, ht⟩
    · cases hne
    · simp [ih h₁ t ht, taken]
  | take q ih =>
    intro h₁ h₂ heq
    rcases eq_append_eof heq with ⟨_, hne, _⟩ | ⟨t, rfl, ht⟩
    · cases hne
    · have hnil := q.take_nil (by simp [ht])
      simp [ih h₁ t ht, taken, hnil]
  | eof _ ih =>
    intro h₁ h₂ heq
    rcases eq_append_eof heq with ⟨_, _, rfl⟩ | ⟨t, rfl, ht⟩
    · rfl
    · simp [ih h₁ t ht, taken]

/-- A history that a queue can show is in order and loses nothing. -/
theorem Accepts.lossless (hq : Accepts h q) : Lossless h where
  inOrder := ⟨q.held, hq.written_eq.symm⟩
  complete := hq.complete
  final := hq.final

end Fifo

end Tabnode
