import Mathlib.Data.List.Basic

/-!
# Machines

A machine is a step function that takes a state and an action to the next state, or
refuses the action. Several parties that share a state are one machine whose actions
say which party moves, so that its runs are the interleavings of theirs. What each
step keeps is kept by a whole run (`invariant`), and by the runs all of whose steps
meet a condition (`invariant_of_meets`).
-/

namespace Tabnode

namespace Machine

def run {σ ι : Type*} (step : σ → ι → Option σ) : σ → List ι → Option σ
  | s, [] => some s
  | s, a :: as => (step s a).bind fun t => run step t as

def Meets {σ ι : Type*} (step : σ → ι → Option σ) (ok : σ → ι → Prop) : σ → List ι → Prop
  | _, [] => True
  | s, a :: as => ok s a ∧ ∀ t, step s a = some t → Meets step ok t as

variable {σ ι : Type*} {step : σ → ι → Option σ}

instance decidableMeets {ok : σ → ι → Prop} [∀ s a, Decidable (ok s a)] :
    ∀ (s : σ) (as : List ι), Decidable (Meets step ok s as)
  | _, [] => .isTrue trivial
  | s, a :: as =>
    match h : step s a with
    | none => decidable_of_iff (ok s a) (by simp [Meets, h])
    | some m =>
      have : Decidable (Meets step ok m as) := decidableMeets m as
      decidable_of_iff (ok s a ∧ Meets step ok m as) (by simp [Meets, h])

@[simp] theorem run_nil (s : σ) : run step s [] = some s := rfl

theorem run_cons (s : σ) (a : ι) (as : List ι) :
    run step s (a :: as) = (step s a).bind fun t => run step t as := rfl

variable {s t : σ} {as : List ι}

theorem run_cons_eq_some {a : ι} :
    run step s (a :: as) = some t ↔ ∃ m, step s a = some m ∧ run step m as = some t := by
  rw [run_cons, Option.bind_eq_some_iff]

theorem run_append (s : σ) (as bs : List ι) :
    run step s (as ++ bs) = (run step s as).bind fun t => run step t bs := by
  induction as generalizing s with
  | nil => simp
  | cons a as ih =>
    rw [List.cons_append, run_cons, run_cons]
    cases step s a with
    | none => simp
    | some m => simpa using ih m

variable {ok : σ → ι → Prop} {I : σ → Prop}

/-- What every step that meets the condition keeps, a run of such steps keeps. -/
theorem invariant_of_meets (hstep : ∀ s a t, I s → ok s a → step s a = some t → I t) (hs : I s)
    (hok : Meets step ok s as) (h : run step s as = some t) : I t := by
  induction as generalizing s with
  | nil =>
    cases h
    exact hs
  | cons a as ih =>
    obtain ⟨m, hm, hrest⟩ := run_cons_eq_some.1 h
    exact ih (hstep s a m hs hok.1 hm) (hok.2 m hm) hrest

theorem meets_of_forall_mem (h : ∀ a ∈ as, ∀ s, ok s a) (s : σ) : Meets step ok s as := by
  induction as generalizing s with
  | nil => trivial
  | cons a as ih =>
    refine ⟨h a (by simp) s, fun t _ => ih (fun b hb => h b ?_) t⟩
    exact List.mem_cons_of_mem a hb

theorem invariant (hstep : ∀ s a t, I s → step s a = some t → I t) (hs : I s)
    (h : run step s as = some t) : I t :=
  invariant_of_meets (fun s a t hs (_ : True) => hstep s a t hs) hs
    (meets_of_forall_mem (fun _ _ _ => trivial) s) h

/-- What one machine shows of its states is a run of another, when every step shows a step
of it. -/
theorem map_run {τ : Type*} {step' : τ → ι → Option τ} {f : σ → τ}
    (hstep : ∀ s a t, I s → step s a = some t → I t)
    (hshow : ∀ s a, I s → (step s a).map f = step' (f s) a) (hs : I s) (as : List ι) :
    (run step s as).map f = run step' (f s) as := by
  induction as generalizing s with
  | nil => rfl
  | cons a as ih =>
    rw [run_cons, run_cons, ← hshow s a hs]
    cases hm : step s a with
    | none => rfl
    | some m => exact ih (hstep s a m hs hm)

/-- A run is no longer than a measure that every step raises has risen. -/
theorem length_add_le_of_run {μ : σ → ℕ} (hstep : ∀ s a t, I s → step s a = some t → I t)
    (hrise : ∀ s a t, I s → step s a = some t → μ s < μ t) (hs : I s)
    (h : run step s as = some t) : as.length + μ s ≤ μ t := by
  induction as generalizing s with
  | nil =>
    cases h
    simp
  | cons a as ih =>
    obtain ⟨m, hm, hrest⟩ := run_cons_eq_some.1 h
    have hlength := ih (hstep s a m hs hm) hrest
    have hless := hrise s a m hs hm
    rw [List.length_cons]
    omega

/-- A run is no longer than a measure has fallen that every step of it lowers. -/
theorem length_add_le_of_meets {μ : σ → ℕ} (hfall : ∀ s a t, ok s a → step s a = some t → μ t < μ s)
    (hok : Meets step ok s as) (h : run step s as = some t) : as.length + μ t ≤ μ s := by
  induction as generalizing s with
  | nil =>
    cases h
    simp
  | cons a as ih =>
    obtain ⟨m, hm, hrest⟩ := run_cons_eq_some.1 h
    have hlength := ih (hok.2 m hm) hrest
    have hless := hfall s a m hok.1 hm
    rw [List.length_cons]
    omega

end Machine

end Tabnode
