import Mathlib.Logic.Basic
import Mathlib.Order.Defs.Unbundled

/-!
# State that outlives errors

A computation on a state that may throw, and whose state is kept when it throws:
the value of an imperative method with exceptions. `run` gives the answer and
the state left behind in both cases.
-/

namespace Tabnode

def Effect (σ ε α : Type) := σ → Except ε α × σ

namespace Effect

def run {σ ε α : Type} (x : Effect σ ε α) (s : σ) : Except ε α × σ := x s

instance {σ ε : Type} : Monad (Effect σ ε) where
  pure a := fun s => (.ok a, s)
  bind x f := fun s =>
    match x s with
    | (.ok a, s') => f a s'
    | (.error e, s') => (.error e, s')

variable {σ ε α : Type}

theorem id_map' (x : Effect σ ε α) : id <$> x = x := by
  funext s
  show (match x s with | (.ok a, s') => (.ok a, s') | (.error e, s') => (.error e, s')) = x s
  rcases x s with ⟨_ | _, s'⟩ <;> rfl

variable {β : Type}

theorem bind_assoc' {γ : Type} (x : Effect σ ε α) (f : α → Effect σ ε β)
    (g : β → Effect σ ε γ) : x >>= f >>= g = x >>= fun a => f a >>= g := by
  funext s
  simp only [bind]
  rcases x s with ⟨_ | _, s'⟩ <;> rfl

instance {σ ε : Type} : LawfulMonad (Effect σ ε) :=
  .mk' _ id_map' (fun _ _ => rfl) bind_assoc'

def throw {σ ε α : Type} (e : ε) : Effect σ ε α := fun s => (.error e, s)

def get {σ ε : Type} : Effect σ ε σ := fun s => (.ok s, s)

def modify {σ ε : Type} (f : σ → σ) : Effect σ ε Unit := fun s => (.ok (), f s)

def lift {σ ε α : Type} (x : Except ε α) : Effect σ ε α := fun s => (x, s)

@[simp] theorem run_pure {σ ε α : Type} (a : α) (s : σ) :
    (pure a : Effect σ ε α).run s = (.ok a, s) := rfl

@[simp] theorem run_throw {σ ε α : Type} (e : ε) (s : σ) :
    (throw e : Effect σ ε α).run s = (.error e, s) := rfl

@[simp] theorem run_get {σ ε : Type} (s : σ) :
    (get : Effect σ ε σ).run s = (.ok s, s) := rfl

@[simp] theorem run_modify {σ ε : Type} (f : σ → σ) (s : σ) :
    (modify f : Effect σ ε Unit).run s = (.ok (), f s) := rfl

@[simp] theorem run_lift {σ ε α : Type} (x : Except ε α) (s : σ) :
    (lift x : Effect σ ε α).run s = (x, s) := rfl

theorem run_bind (x : Effect σ ε α) (f : α → Effect σ ε β) (s : σ) : (x >>= f).run s =
      match x.run s with
      | (.ok a, s') => (f a).run s'
      | (.error e, s') => (.error e, s') := rfl

theorem run_bind_ok {x : Effect σ ε α} {s s' : σ} {a : α} (h : x.run s = (.ok a, s'))
    (f : α → Effect σ ε β) : (x >>= f).run s = (f a).run s' := by
  rw [run_bind, h]

theorem run_bind_error {x : Effect σ ε α} {s s' : σ} {e : ε} (h : x.run s = (.error e, s'))
    (f : α → Effect σ ε β) : (x >>= f).run s = (.error e, s') := by
  rw [run_bind, h]

@[simp] theorem run_pure_bind {σ ε α β : Type} (a : α) (f : α → Effect σ ε β) (s : σ) :
    ((pure a : Effect σ ε α) >>= f).run s = (f a).run s := rfl

@[simp] theorem run_throw_bind {σ ε α β : Type} (e : ε) (f : α → Effect σ ε β) (s : σ) :
    ((throw e : Effect σ ε α) >>= f).run s = (.error e, s) := rfl

@[simp] theorem run_get_bind {σ ε β : Type} (f : σ → Effect σ ε β) (s : σ) :
    ((get : Effect σ ε σ) >>= f).run s = (f s).run s := rfl

@[simp] theorem run_modify_bind {σ ε β : Type} (g : σ → σ) (f : Unit → Effect σ ε β)
    (s : σ) : ((modify g : Effect σ ε Unit) >>= f).run s = (f ()).run (g s) := rfl

@[simp] theorem run_lift_ok_bind {σ ε α β : Type} (a : α) (f : α → Effect σ ε β) (s : σ) :
    ((lift (.ok a) : Effect σ ε α) >>= f).run s = (f a).run s := rfl

@[simp] theorem run_lift_error_bind {σ ε α β : Type} (e : ε) (f : α → Effect σ ε β)
    (s : σ) : ((lift (.error e) : Effect σ ε α) >>= f).run s = (.error e, s) := rfl

theorem run_bind_eq_ok {x : Effect σ ε α} {f : α → Effect σ ε β} {s s' : σ} {b : β}
    (h : (x >>= f).run s = (.ok b, s')) :
    ∃ a t, x.run s = (.ok a, t) ∧ (f a).run t = (.ok b, s') := by
  rw [run_bind] at h
  cases hx : x.run s with
  | mk r t =>
      rw [hx] at h
      cases r with
      | error e => cases h
      | ok a => exact ⟨a, t, rfl, h⟩

/-! ## A step for each element of a list -/

def forEach {σ ε α : Type} (f : α → Effect σ ε Unit) : List α → Effect σ ε Unit
  | [] => pure ()
  | a :: l => do
      f a
      forEach f l

theorem run_forEach_nil (f : α → Effect σ ε Unit) (s : σ) :
    (forEach f []).run s = (.ok (), s) := rfl

theorem run_forEach_cons (f : α → Effect σ ε Unit) (a : α) (l : List α)
    (s : σ) : (forEach f (a :: l)).run s = (f a >>= fun _ => forEach f l).run s := rfl

/-- The steps for a list are those for its parts, one after the other. -/
theorem run_forEach_append (f : α → Effect σ ε Unit) (l l' : List α) (s : σ) :
    (forEach f (l ++ l')).run s = (forEach f l >>= fun _ => forEach f l').run s := by
  induction l generalizing s with
  | nil => rfl
  | cons a l ih =>
      rw [List.cons_append, run_forEach_cons, run_bind, run_bind, run_forEach_cons, run_bind]
      cases h : (f a).run s with
      | mk r s' =>
          cases r with
          | error e => rfl
          | ok u => exact (ih s').trans (run_bind _ _ s')

end Effect

@[simp] theorem ok_bind {ε α β : Type} (a : α) (f : α → Except ε β) :
    (Except.ok a >>= f) = f a := rfl

@[simp] theorem error_bind {ε α β : Type} (e : ε) (f : α → Except ε β) :
    (Except.error e >>= f) = .error e := rfl

theorem bind_eq_ok {ε α β : Type} {x : Except ε α} {f : α → Except ε β} {b : β}
    (h : x >>= f = .ok b) : ∃ a, x = .ok a ∧ f a = .ok b := by
  cases x with
  | error e => cases h
  | ok a => exact ⟨a, rfl, h⟩

end Tabnode

/-!
## Contracts of computations

A contract says three things of a computation from a state: the states before and after
stand in a relation, whatever the end; its answer has a property; an error it throws has
one. With a relation that is reflexive and transitive the contracts of the parts of a
computation make one of the whole (`Meets.bind`).
-/

namespace Tabnode

namespace Effect

/-- A computation leaves a state that stands to the one before as `R` says, and its answer
has `Q` there, or the error it throws has `E`. -/
structure Meets {σ ε α : Type} (R : σ → σ → Prop) (E : ε → Prop) (x : Effect σ ε α) (s : σ)
    (Q : α → σ → Prop) : Prop where
  rel : R s (x.run s).2
  ok : ∀ a, (x.run s).1 = .ok a → Q a (x.run s).2
  error : ∀ e, (x.run s).1 = .error e → E e

variable {σ ε α β : Type} {R : σ → σ → Prop} {E : ε → Prop} {s : σ}

variable {x : Effect σ ε α} {Q : α → σ → Prop}

theorem Meets.of_run_ok {a : α} {t : σ} (h : x.run s = (.ok a, t)) (hrel : R s t)
    (hq : Q a t) : Meets R E x s Q := by
  refine ⟨by rwa [h], fun b hb => ?_, fun e he => ?_⟩
  · rw [h] at hb ⊢
    cases hb
    exact hq
  · rw [h] at he
    cases he

theorem Meets.of_run_error {e : ε} {t : σ} (h : x.run s = (.error e, t)) (hrel : R s t)
    (he : E e) : Meets R E x s Q := by
  refine ⟨by rwa [h], fun b hb => ?_, fun e' he' => ?_⟩
  · rw [h] at hb
    cases hb
  · rw [h] at he'
    cases he'
    exact he

theorem Meets.mono {R' : σ → σ → Prop} {E' : ε → Prop} {Q' : α → σ → Prop} (h : Meets R E x s Q)
    (hR : ∀ s', R s s' → R' s s') (hE : ∀ e, E e → E' e)
    (hQ : ∀ a s', R s s' → Q a s' → Q' a s') : Meets R' E' x s Q' :=
  ⟨hR _ h.rel, fun a ha => hQ a _ h.rel (h.ok a ha), fun e he => hE e (h.error e he)⟩

section Preorder

variable [IsPreorder σ R]

theorem Meets.pure {Q : α → σ → Prop} {a : α} (h : Q a s) :
    Meets R E (pure a : Effect σ ε α) s Q :=
  .of_run_ok rfl (Std.Refl.refl s) h

theorem Meets.throw {Q : α → σ → Prop} {e : ε} (h : E e) :
    Meets R E (throw e : Effect σ ε α) s Q :=
  .of_run_error rfl (Std.Refl.refl s) h

/-- What comes after meets its contract from each state that the first part may leave. -/
theorem Meets.bind {x : Effect σ ε α} {f : α → Effect σ ε β} {P : α → σ → Prop}
    {Q : β → σ → Prop} (hx : Meets R E x s P)
    (hf : ∀ a s', R s s' → P a s' → Meets R E (f a) s' Q) : Meets R E (x >>= f) s Q := by
  cases hrun : x.run s with
  | mk result s' =>
    have hrel : R s s' := by simpa only [hrun] using hx.rel
    cases result with
    | ok a =>
      have hp : P a s' := by
        have := hx.ok a
        rw [hrun] at this
        exact this rfl
      have h := hf a s' hrel hp
      refine ⟨?_, fun b hb => ?_, fun e he => ?_⟩
      · rw [run_bind_ok hrun]
        exact IsTrans.trans _ _ _ hrel h.rel
      · rw [run_bind_ok hrun] at hb ⊢
        exact h.ok b hb
      · rw [run_bind_ok hrun] at he
        exact h.error e he
    | error e =>
      refine .of_run_error (run_bind_error hrun f) hrel (hx.error e ?_)
      rw [hrun]

theorem Meets.map {x : Effect σ ε α} {f : α → β} {P : α → σ → Prop} {Q : β → σ → Prop}
    (hx : Meets R E x s P) (hq : ∀ a s', R s s' → P a s' → Q (f a) s') :
    Meets R E (f <$> x) s Q := by
  rw [map_eq_pure_bind]
  exact hx.bind fun a s' hrel hp => .pure (hq a s' hrel hp)

end Preorder

end Effect

end Tabnode

/-!
## Computations whose state does not show

A computation realizes an answer under an invariant when, from every state of the
invariant, it ends with that answer, in a state of the invariant: what it keeps in its
state, a cache for one, does not show. The parts of a computation realize the parts of its
answer (`Realizes.bind`). `firstOf` is a search through a list, in any monad.
-/

namespace Tabnode

def firstOf {m : Type → Type} [Monad m] {α β : Type} (f : α → m (Option β)) :
    List α → m (Option β)
  | [] => pure none
  | a :: as => do
      match ← f a with
      | some b => pure (some b)
      | none => firstOf f as

/-- `x ?? y`. -/
def orElse {m : Type → Type} [Monad m] {α : Type} (x y : m (Option α)) : m (Option α) := do
  match ← x with
  | some a => pure (some a)
  | none => y

namespace Effect

/-- From every state of the invariant a computation ends with the answer, in a state of the
invariant. -/
def Realizes {σ ε α : Type} (I : σ → Prop) (x : Effect σ ε α) (v : Except ε α) : Prop :=
  ∀ s, I s → (x.run s).1 = v ∧ I (x.run s).2

namespace Realizes

variable {σ ε α β : Type} {I : σ → Prop}

theorem pure (a : α) : Realizes I (Pure.pure a : Effect σ ε α) (.ok a) := fun _ h => ⟨rfl, h⟩

theorem throw (e : ε) : Realizes I (Effect.throw e : Effect σ ε α) (.error e) :=
  fun _ h => ⟨rfl, h⟩

variable {x : Effect σ ε α} {v : Except ε α}

theorem bind {f : α → Effect σ ε β} {g : α → Except ε β} (hx : Realizes I x v)
    (hf : ∀ a, Realizes I (f a) (g a)) : Realizes I (x >>= f) (v >>= g) := by
  intro s hs
  obtain ⟨hanswer, hinv⟩ := hx s hs
  rw [run_bind]
  cases hrun : x.run s with
  | mk result t =>
    rw [hrun] at hanswer hinv
    cases result with
    | ok a =>
      rw [← hanswer]
      exact hf a t hinv
    | error e =>
      rw [← hanswer]
      exact ⟨rfl, hinv⟩

theorem map (hx : Realizes I x v) (f : α → β) : Realizes I (f <$> x) (f <$> v) := by
  have hv : f <$> v = v >>= fun a => .ok (f a) := by cases v <;> rfl
  rw [map_eq_pure_bind, hv]
  exact hx.bind fun a => pure (f a)

theorem ite {p : Prop} [Decidable p] {y : Effect σ ε α} {w : Except ε α} (hx : p → Realizes I x v)
    (hy : ¬ p → Realizes I y w) : Realizes I (if p then x else y) (if p then v else w) := by
  split
  · next h => exact hx h
  · next h => exact hy h

theorem firstOf {f : α → Effect σ ε (Option β)} {g : α → Except ε (Option β)}
    (h : ∀ a, Realizes I (f a) (g a)) (l : List α) :
    Realizes I (firstOf f l) (firstOf g l) := by
  induction l with
  | nil => exact pure none
  | cons a l ih =>
    refine (h a).bind fun found => ?_
    cases found with
    | none => exact ih
    | some b => exact pure (some b)

theorem orElse {x y : Effect σ ε (Option α)} {v w : Except ε (Option α)}
    (hx : Realizes I x v) (hy : Realizes I y w) :
    Realizes I (orElse x y) (orElse v w) := by
  refine hx.bind fun found => ?_
  cases found with
  | none => exact hy
  | some a => exact pure (some a)

end Realizes

end Effect

end Tabnode
