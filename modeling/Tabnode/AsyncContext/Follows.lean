import Mathlib.Data.List.Forall2
import Tabnode.AsyncContext.Realm

/-!
# The context follows every continuation that suits it

`Follows` relates the engine's realm to the rule: each frame it keeps is the one the rule
keeps, and between two pieces of code the current frame is the root frame or is about to
be. A step that suits keeps it (`Follows.perform`), so every `getStore` of such a run
answers what the rule gives (`keepsRule_of_allSuit`). An `enterWith` made before an `await`
is one step that does not suit (`enterWith_lost`).
-/

namespace Tabnode

namespace AsyncContext

open Option

variable {Storage Value : Type}

def Means (frames : Frames Storage Value) (number : ℕ) (frame : ContextFrame Storage Value) :
    Prop :=
  number < frames.made ∧ frames.stores number = frame

def Rests (frames : Frames Storage Value) (resetQueued : Bool) (number : ℕ) : Prop :=
  number < frames.made ∧ (frames.stores number = rootFrame ∨ resetQueued = true)

/-- The two stacks hold the same calls with the same frames. -/
inductive Stacks (frames : Frames Storage Value) (resetQueued : Bool) :
    List Call → List (RuleCall Storage Value) → Prop where
  | turn : Stacks frames resetQueued [.turn] [.turn]
  | carried {previous : ℕ} (h : Rests frames resetQueued previous) :
      Stacks frames resetQueued [.carried previous] [.carried]
  | resumed {frame : Option ℕ} {entered : Option (ContextFrame Storage Value)}
      (h : Option.Rel (Means frames) frame entered) :
      Stacks frames resetQueued [.async frame] [.async entered]
  | within {previous : ℕ} {caller : ContextFrame Storage Value} {calls : List Call}
      {ruleCalls : List (RuleCall Storage Value)} (h : Means frames previous caller)
      (hrest : Stacks frames resetQueued calls ruleCalls) :
      Stacks frames resetQueued (.within previous :: calls) (.within caller :: ruleCalls)
  | async {frame : Option ℕ} {entered : Option (ContextFrame Storage Value)}
      {calls : List Call} {ruleCalls : List (RuleCall Storage Value)}
      (h : Option.Rel (Means frames) frame entered)
      (hrest : Stacks frames resetQueued calls ruleCalls) :
      Stacks frames resetQueued (.async frame :: calls) (.async entered :: ruleCalls)

/-- What waits is the same, with the same frames. -/
inductive Waits (frames : Frames Storage Value) :
    Continuation → RuleContinuation Storage Value → Prop where
  | carried {captured : ℕ} {scheduled : ContextFrame Storage Value}
      (h : Means frames captured scheduled) : Waits frames (.carried captured) (.carried scheduled)
  | awaiting {frame : Option ℕ} {entered : Option (ContextFrame Storage Value)} {taken : ℕ}
      {stopped : ContextFrame Storage Value} (h : Option.Rel (Means frames) frame entered)
      (htaken : Means frames taken stopped) :
      Waits frames (.awaiting frame taken) (.awaiting entered stopped)

/-- The realm keeps the frames of the rule. -/
structure Follows (s : Realm Storage Value) (n : Rule Storage Value) : Prop where
  root : Means s.frames 0 rootFrame
  current : s.currentFrame < s.frames.made
  agree : s.stack ≠ [] → s.current = n.current
  stack : (s.stack = [] ∧ n.stack = []) ∨ Stacks s.frames s.resetQueued s.stack n.stack
  idle : s.stack = [] → Rests s.frames s.resetQueued s.currentFrame
  reset : s.resetQueued = true → s.continuation = true
  pending : List.Forall₂ (Waits s.frames) s.pending n.pending
  snapshots : List.Forall₂ (Means s.frames) s.snapshots n.snapshots
  scopes : s.scopes = n.scopes

theorem Follows.new : Follows (Realm.new : Realm Storage Value) Rule.new where
  root := ⟨Nat.one_pos, rfl⟩
  current := Nat.one_pos
  agree h := absurd rfl h
  stack := .inl ⟨rfl, rfl⟩
  idle _ := ⟨Nat.one_pos, .inl rfl⟩
  reset h := by cases h
  pending := .nil
  snapshots := .nil
  scopes := rfl

/-! ## Frames that are made later -/

section

variable {frames : Frames Storage Value} (new : ContextFrame Storage Value)

variable {number : ℕ}

theorem stores_make (h : number < frames.made) :
    (frames.make new).stores number = frames.stores number :=
  Function.update_of_ne (Nat.ne_of_lt h) _ _

theorem Means.make {frame : ContextFrame Storage Value}
    (hm : Means frames number frame) : Means (frames.make new) number frame :=
  ⟨Nat.lt_succ_of_lt hm.1, (stores_make new hm.1).trans hm.2⟩

theorem Means.last : Means (frames.make new) frames.made new :=
  ⟨Nat.lt_succ_self _, Function.update_self ..⟩

theorem Rests.make {resetQueued : Bool} (hr : Rests frames resetQueued number) :
    Rests (frames.make new) resetQueued number :=
  ⟨Nat.lt_succ_of_lt hr.1, hr.2.imp_left (stores_make new hr.1).trans⟩

theorem relMeans_make {frame : Option ℕ} {entered : Option (ContextFrame Storage Value)}
    (hr : Option.Rel (Means frames) frame entered) :
    Option.Rel (Means (frames.make new)) frame entered := by
  cases hr with
  | some hm => exact .some (hm.make new)
  | none => exact .none

theorem Stacks.make {resetQueued : Bool} {calls : List Call}
    {ruleCalls : List (RuleCall Storage Value)} (hs : Stacks frames resetQueued calls ruleCalls) :
    Stacks (frames.make new) resetQueued calls ruleCalls := by
  induction hs with
  | turn => exact .turn
  | carried hr => exact .carried (hr.make new)
  | resumed hr => exact .resumed (relMeans_make new hr)
  | within hm _ ih => exact .within (hm.make new) ih
  | async hr _ ih => exact .async (relMeans_make new hr) ih

theorem Waits.make {c : Continuation} {r : RuleContinuation Storage Value}
    (hw : Waits frames c r) : Waits (frames.make new) c r := by
  cases hw with
  | carried hm => exact .carried (hm.make new)
  | awaiting hr hm => exact .awaiting (relMeans_make new hr) (hm.make new)

end

variable {calls : List Call}

theorem Stacks.queued {frames : Frames Storage Value} {resetQueued : Bool}
    {ruleCalls : List (RuleCall Storage Value)} (hs : Stacks frames resetQueued calls ruleCalls) :
    Stacks frames true calls ruleCalls := by
  induction hs with
  | turn => exact .turn
  | carried hr => exact .carried ⟨hr.1, .inr rfl⟩
  | resumed hr => exact .resumed hr
  | within hm _ ih => exact .within hm ih
  | async hr _ ih => exact .async hr ih

theorem Stacks.ne_nil {frames : Frames Storage Value} {resetQueued : Bool}
    {ruleCalls : List (RuleCall Storage Value)} (h : Stacks frames resetQueued calls ruleCalls) :
    calls ≠ [] ∧ ruleCalls ≠ [] := by
  cases h <;> simp

/-! ## What stands at an index -/

variable {α β : Type*}

/-- What one of two related lists has at an index, the other has a relative of. -/
theorem exists_getElem?_of_forall₂ {R : α → β → Prop} {l : List α} {l' : List β}
    (h : List.Forall₂ R l l') {i : ℕ} {a : α} (ha : l[i]? = some a) :
    ∃ b, l'[i]? = some b ∧ R a b := by
  induction h generalizing i with
  | nil => simp at ha
  | cons hab _ ih =>
      cases i with
      | zero =>
          cases ha
          exact ⟨_, rfl, hab⟩
      | succ i => exact ih ha

theorem forall₂_eraseIdx {R : α → β → Prop} {l : List α} {l' : List β} (h : List.Forall₂ R l l')
    (i : ℕ) : List.Forall₂ R (l.eraseIdx i) (l'.eraseIdx i) := by
  induction h generalizing i with
  | nil => exact .nil
  | cons hab hrest ih =>
      cases i with
      | zero => exact hrest
      | succ i => exact .cons hab (ih i)

theorem forall₂_append_singleton {R : α → β → Prop} {l : List α} {l' : List β}
    (h : List.Forall₂ R l l') {a : α} {b : β} (hab : R a b) :
    List.Forall₂ R (l ++ [a]) (l' ++ [b]) :=
  List.rel_append h (.cons hab .nil)

/-! ## A step of the code -/

variable {s : Realm Storage Value} {n : Rule Storage Value}

theorem Follows.means_current (h : Follows s n)
    (hs : s.stack ≠ []) : Means s.frames s.currentFrame n.current :=
  ⟨h.current, h.agree hs⟩

theorem Follows.stacks (h : Follows s n)
    (hs : s.stack ≠ []) : Stacks s.frames s.resetQueued s.stack n.stack :=
  h.stack.resolve_left fun hnil => hs hnil.1

variable {t : Realm Storage Value}

theorem Follows.running {m : Rule Storage Value} (hroot : Means t.frames 0 rootFrame)
    (hcurrent : Means t.frames t.currentFrame m.current)
    (hstack : Stacks t.frames t.resetQueued t.stack m.stack)
    (hreset : t.resetQueued = true → t.continuation = true)
    (hpending : List.Forall₂ (Waits t.frames) t.pending m.pending)
    (hsnapshots : List.Forall₂ (Means t.frames) t.snapshots m.snapshots)
    (hscopes : t.scopes = m.scopes) : Follows t m where
  root := hroot
  current := hcurrent.1
  agree _ := hcurrent.2
  stack := .inr hstack
  idle hnil := absurd hnil hstack.ne_nil.1
  reset := hreset
  pending := hpending
  snapshots := hsnapshots
  scopes := hscopes

/-- A realm in which no code runs, and whose current frame rests. -/
theorem Follows.resting {m : Rule Storage Value} (hroot : Means t.frames 0 rootFrame)
    (hstack : t.stack = []) (hrule : m.stack = [])
    (hcurrent : Rests t.frames t.resetQueued t.currentFrame)
    (hreset : t.resetQueued = true → t.continuation = true)
    (hpending : List.Forall₂ (Waits t.frames) t.pending m.pending)
    (hsnapshots : List.Forall₂ (Means t.frames) t.snapshots m.snapshots)
    (hscopes : t.scopes = m.scopes) : Follows t m where
  root := hroot
  current := hcurrent.1
  agree hne := absurd hstack hne
  stack := .inl ⟨hstack, hrule⟩
  idle _ := hcurrent
  reset := hreset
  pending := hpending
  snapshots := hsnapshots
  scopes := hscopes

theorem Follows.enter (h : Follows s n) (hs : s.stack ≠ []) (frame : ContextFrame Storage Value) :
    Follows (s.enter frame) { n with current := frame } :=
  .running (h.root.make frame) (.last frame) ((h.stacks hs).make frame) h.reset
    (h.pending.imp fun _ _ hw => hw.make frame) (h.snapshots.imp fun _ _ hm => hm.make frame)
    h.scopes

theorem Follows.withNewFrame (h : Follows s n) (hs : s.stack ≠ [])
    (frame : ContextFrame Storage Value) : Follows (s.withNewFrame frame) (n.within frame) :=
  .running (h.root.make frame) (.last frame)
    (.within ((h.means_current hs).make frame) ((h.stacks hs).make frame)) h.reset
    (h.pending.imp fun _ _ hw => hw.make frame) (h.snapshots.imp fun _ _ hm => hm.make frame)
    h.scopes

/-- What `resumeFrame` leaves: the frame is current, and the turn's end is queued. -/
theorem resumeFrame_cases (s : Realm Storage Value) (frame : ℕ) :
    s.resumeFrame frame = { s with continuation := true, currentFrame := frame } ∨
      s.resumeFrame frame =
        { s with continuation := true, currentFrame := frame, resetQueued := true } := by
  rw [Realm.resumeFrame]
  split
  · next heq =>
      subst heq
      exact .inl rfl
  · exact .inr rfl

/-- Code that ends puts back its caller's frame, or has left one to rest on. -/
theorem Follows.leave (h : Follows s n) (hs : s.stack ≠ [])
    (hsuits : n.stack.length = 1 → n.stack ≠ [.carried] →
      n.current = rootFrame ∨ s.resetQueued = true) (ht : s.leave = some t) :
    ∃ m, n.leave = some m ∧ Follows t m := by
  have hcurrent := h.means_current hs
  cases hstack : s.stack with
  | nil => exact absurd hstack hs
  | cons call calls =>
      have hstacks := h.stacks hs
      rw [hstack] at hstacks
      cases hn : n.stack with
      | nil => exact absurd hn (hn ▸ hstacks.ne_nil.2)
      | cons ruleCall ruleCalls =>
          rw [hn] at hstacks hsuits
          rw [Realm.leave, hstack] at ht
          rw [Rule.leave, hn]
          cases hstacks with
          | turn =>
              cases ht
              have hrests : Rests s.frames s.resetQueued s.currentFrame :=
                ⟨h.current, (hsuits rfl (by simp)).imp_left hcurrent.2.trans⟩
              exact ⟨_, rfl, .resting h.root rfl rfl hrests h.reset h.pending h.snapshots
                h.scopes⟩
          | carried hprevious =>
              cases ht
              exact ⟨_, rfl, .resting h.root rfl rfl hprevious h.reset h.pending h.snapshots
                h.scopes⟩
          | resumed _ =>
              cases ht
              have hrests : Rests s.frames s.resetQueued s.currentFrame :=
                ⟨h.current, (hsuits rfl (by simp)).imp_left hcurrent.2.trans⟩
              exact ⟨_, rfl, .resting h.root rfl rfl hrests h.reset h.pending h.snapshots
                h.scopes⟩
          | within hmeans hrest =>
              cases ht
              exact ⟨_, rfl, .running h.root hmeans hrest h.reset h.pending
                h.snapshots h.scopes⟩
          | async _ hrest =>
              cases ht
              exact ⟨_, rfl, .running h.root hcurrent hrest h.reset h.pending
                h.snapshots h.scopes⟩

/-- A function that stops leaves its caller the current frame, or one to rest on. -/
theorem Follows.await (h : Follows s n) {frame : Option ℕ}
    (hstack : s.stack = .async frame :: calls)
    (hsuits : n.stack.length = 1 → n.current = rootFrame ∨ s.resetQueued = true) :
    ∃ entered ruleCalls, n.stack = .async entered :: ruleCalls ∧
      Follows
        { s with stack := calls, pending := s.pending ++ [.awaiting frame s.currentFrame] }
        { n with stack := ruleCalls, pending := n.pending ++ [.awaiting entered n.current] } := by
  have hs : s.stack ≠ [] := by simp [hstack]
  have hcurrent := h.means_current hs
  have hstacks := h.stacks hs
  rw [hstack] at hstacks
  cases hn : n.stack with
  | nil => exact absurd hn (hn ▸ hstacks.ne_nil.2)
  | cons ruleCall ruleCalls =>
      rw [hn] at hstacks hsuits
      cases hstacks with
      | resumed hrel =>
          have hpending := forall₂_append_singleton h.pending (.awaiting hrel hcurrent)
          have hrests : Rests s.frames s.resetQueued s.currentFrame :=
            ⟨h.current, (hsuits rfl).imp_left hcurrent.2.trans⟩
          exact ⟨_, _, rfl, .resting h.root rfl rfl hrests h.reset hpending h.snapshots
            h.scopes⟩
      | async hrel hrest =>
          have hpending := forall₂_append_singleton h.pending (.awaiting hrel hcurrent)
          exact ⟨_, _, rfl, .running h.root hcurrent hrest h.reset hpending
            h.snapshots h.scopes⟩

variable [DecidableEq Storage]

variable {defaultValue : Storage → Option Value} {a : Action Storage Value}

theorem Follows.guest (h : Follows s n) (hs : s.stack ≠ []) (hsuits : Suits s n a)
    (ht : s.guest defaultValue a = some t) :
    ∃ m, n.guest defaultValue a = some m ∧ Follows t m := by
  have hcurrent : s.current = n.current := h.agree hs
  cases a with
  | run _ _ | exit _ =>
      cases ht
      exact ⟨_, rfl, hcurrent ▸ h.withNewFrame hs _⟩
  | enterWith storage store =>
      cases ht
      exact ⟨_, rfl, hcurrent ▸ h.enter hs _⟩
  | disable storage =>
      simp only [Realm.guest] at ht
      split at ht
      · cases ht
        exact ⟨_, rfl, hcurrent ▸ h.enter hs _⟩
      · next hnone =>
          cases ht
          refine ⟨_, rfl, ?_⟩
          have hsame : n.current.without storage = n.current := by
            rw [hcurrent, Bool.not_eq_true, isSome_eq_false_iff, isNone_iff_eq_none]
              at hnone
            rw [ContextFrame.without, ← hnone, Function.update_eq_self]
          rw [hsame]
          exact h
  | withScope storage store =>
      cases ht
      refine ⟨_, rfl, ?_⟩
      have hentered := h.enter hs (s.current.with storage store)
      have hscopes : s.scopes ++
            [{ storage := storage, previous := s.getStore defaultValue storage }] =
          n.scopes ++ [{ storage := storage, previous := n.getStore defaultValue storage }] := by
        rw [h.scopes, Realm.getStore, Rule.getStore, hcurrent]
      rw [← hcurrent]
      exact ⟨hentered.root, hentered.current, hentered.agree, hentered.stack, hentered.idle,
        hentered.reset, hentered.pending, hentered.snapshots, hscopes⟩
  | dispose index =>
      simp only [Realm.guest, map_eq_some_iff] at ht
      obtain ⟨scope, hscope, rfl⟩ := ht
      refine ⟨_, by simp only [Rule.guest, ← h.scopes, hscope, map_some]; rfl, ?_⟩
      rw [Realm.dispose]
      split
      · exact h
      · have hentered := h.enter hs (s.current.with scope.storage scope.previous)
        rw [← hcurrent]
        exact ⟨hentered.root, hentered.current, hentered.agree, hentered.stack, hentered.idle,
          hentered.reset, hentered.pending, hentered.snapshots, by rw [h.scopes]⟩
  | snapshot =>
      cases ht
      exact ⟨_, rfl, .running h.root (h.means_current hs) (h.stacks hs) h.reset
        h.pending (forall₂_append_singleton h.snapshots (h.means_current hs)) h.scopes⟩
  | call index =>
      simp only [Realm.guest, map_eq_some_iff] at ht
      obtain ⟨captured, hcaptured, rfl⟩ := ht
      obtain ⟨frame, hframe, hmeans⟩ := exists_getElem?_of_forall₂ h.snapshots hcaptured
      refine ⟨_, by simp only [Rule.guest, hframe, map_some]; rfl, ?_⟩
      exact .running h.root hmeans (.within (h.means_current hs) (h.stacks hs)) h.reset
        h.pending h.snapshots h.scopes
  | schedule =>
      cases ht
      exact ⟨_, rfl, .running h.root (h.means_current hs) (h.stacks hs) h.reset
        (forall₂_append_singleton h.pending (.carried (h.means_current hs))) h.snapshots h.scopes⟩
  | async block =>
      cases ht
      have hrel : Option.Rel (Means s.frames) (if block then some s.currentFrame else none)
          (if block then some n.current else none) := by
        cases block with
        | true => exact .some (h.means_current hs)
        | false => exact .none
      exact ⟨_, rfl, .running h.root (h.means_current hs)
        (.async hrel (h.stacks hs)) h.reset h.pending h.snapshots h.scopes⟩
  | await =>
      simp only [Realm.guest] at ht
      split at ht
      · next frame calls hstack =>
          cases ht
          obtain ⟨entered, ruleCalls, hn, hfollows⟩ := h.await hstack hsuits
          exact ⟨_, by simp only [Rule.guest, hn], hfollows⟩
      · cases ht
  | restore =>
      simp only [Realm.guest] at ht
      split at ht
      · next frame calls hstack =>
          cases ht
          have hstacks := h.stacks hs
          rw [hstack] at hstacks
          cases hn : n.stack with
          | nil => exact absurd hn (hn ▸ hstacks.ne_nil.2)
          | cons ruleCall ruleCalls =>
              rw [hn] at hstacks
              have hmeans : ∃ entered, ruleCall = .async (some entered) ∧
                  Means s.frames frame entered := by
                cases hstacks with
                | resumed hrel =>
                    cases hrel with
                    | some hm => exact ⟨_, rfl, hm⟩
                | async hrel _ =>
                    cases hrel with
                    | some hm => exact ⟨_, rfl, hm⟩
              obtain ⟨entered, rfl, hm⟩ := hmeans
              refine ⟨n, by simp only [Rule.guest, hn], ?_⟩
              rw [← hsuits entered ruleCalls hn] at hm
              have hstack' := h.stacks hs
              rcases resumeFrame_cases s frame with heq | heq
              · rw [heq]
                exact .running h.root hm hstack' (fun _ => rfl) h.pending h.snapshots h.scopes
              · rw [heq]
                exact .running h.root hm hstack'.queued (fun _ => rfl) h.pending h.snapshots
                  h.scopes
      · cases ht
  | leave => exact h.leave hs hsuits ht
  | startTurn | fire _ _ | resume _ | reject _ | endContinuation => cases ht

/-! ## A step of the host -/

omit [DecidableEq Storage] in
theorem Follows.host (h : Follows s n) (hs : s.stack = []) (hsuits : Suits s n a)
    (ht : s.host a = some t) : ∃ m, n.host a = some m ∧ Follows t m := by
  have hn : n.stack = [] := by
    rcases h.stack with hnil | hstacks
    · exact hnil.2
    · exact absurd hs hstacks.ne_nil.1
  have hidle := h.idle hs
  cases a with
  | startTurn =>
      simp only [Realm.host] at ht
      split at ht
      · cases ht
      · next hcontinuation =>
          cases ht
          have hreset : ¬ s.resetQueued = true := fun hr => hcontinuation (h.reset hr)
          have hmeans : Means s.frames s.currentFrame rootFrame :=
            ⟨h.current, hidle.2.resolve_right hreset⟩
          exact ⟨_, rfl, .running h.root hmeans .turn h.reset h.pending h.snapshots h.scopes⟩
  | fire index again =>
      simp only [Realm.host] at ht
      split at ht
      · next captured hcaptured =>
          cases ht
          obtain ⟨c, hc, hwaits⟩ := exists_getElem?_of_forall₂ h.pending hcaptured
          cases hwaits with
          | carried hmeans =>
              have hpending : List.Forall₂ (Waits s.frames)
                  (if again then s.pending else s.pending.eraseIdx index)
                  (if again then n.pending else n.pending.eraseIdx index) := by
                cases again with
                | true => exact h.pending
                | false => exact forall₂_eraseIdx h.pending index
              refine ⟨_, by simp only [Rule.host, hc]; rfl, ?_⟩
              exact .running h.root hmeans (.carried hidle) h.reset hpending h.snapshots h.scopes
      · cases ht
  | resume index =>
      simp only [Realm.host] at ht
      split at ht
      · next frame taken hawaiting =>
          cases ht
          obtain ⟨c, hc, hwaits⟩ := exists_getElem?_of_forall₂ h.pending hawaiting
          cases hwaits with
          | @awaiting _ entered _ stopped hrel htaken =>
              have hmeans : Means s.frames (frame.getD taken) stopped := by
                cases hrel with
                | none => exact htaken
                | some hm => exact hsuits _ _ hc ▸ hm
              have hpending := forall₂_eraseIdx h.pending index
              refine ⟨_, by simp only [Rule.host, hc]; rfl, ?_⟩
              rcases resumeFrame_cases s (frame.getD taken) with heq | heq
              · rw [heq]
                exact .running h.root hmeans (.resumed hrel) (fun _ => rfl) hpending h.snapshots
                  h.scopes
              · rw [heq]
                exact .running h.root hmeans (.resumed hrel) (fun _ => rfl) hpending h.snapshots
                  h.scopes
      · cases ht
  | reject index =>
      simp only [Realm.host] at ht
      split at ht
      · next frame taken hawaiting =>
          cases ht
          obtain ⟨c, hc, hwaits⟩ := exists_getElem?_of_forall₂ h.pending hawaiting
          cases hwaits with
          | awaiting _ _ =>
              refine ⟨_, by simp only [Rule.host, hc]; rfl, ?_⟩
              exact .resting h.root hs hn hidle h.reset (forall₂_eraseIdx h.pending index)
                h.snapshots h.scopes
      · cases ht
  | endContinuation =>
      simp only [Realm.host] at ht
      split at ht
      · cases ht
        refine ⟨n, rfl, ?_⟩
        rw [Realm.endContinuation]
        split
        · exact .resting h.root hs hn ⟨h.root.1, .inl h.root.2⟩ (fun hr => nomatch hr) h.pending
            h.snapshots h.scopes
        · next hr =>
            exact .resting h.root hs hn hidle (fun hq => absurd hq hr) h.pending h.snapshots
              h.scopes
      · cases ht
  | run | exit | enterWith | disable | withScope | dispose | snapshot | call | schedule | async
  | await | restore | leave => cases ht

theorem Follows.perform (h : Follows s n) (hsuits : Suits s n a)
    (ht : s.perform defaultValue a = some t) :
    ∃ m, n.perform defaultValue a = some m ∧ Follows t m := by
  rw [Realm.perform] at ht
  split at ht
  · next hs =>
      have hn : n.stack = [] := by
        rcases h.stack with hnil | hstacks
        · exact hnil.2
        · exact absurd hs hstacks.ne_nil.1
      rw [Rule.perform, hn]
      exact h.host hs hsuits ht
  · next hs =>
      obtain ⟨call, calls, hn⟩ := List.exists_cons_of_ne_nil (h.stacks hs).ne_nil.2
      rw [Rule.perform, hn]
      exact h.guest hs hsuits ht

/-! ## Runs -/

/-- A run whose steps suit is one of the rule, with the rule's frames. -/
theorem Follows.performAll (h : Follows s n) {actions : List (Action Storage Value)}
    (hsuit : AllSuit defaultValue s n actions) (ht : s.performAll defaultValue actions = some t) :
    ∃ m, n.performAll defaultValue actions = some m ∧ Follows t m := by
  induction actions generalizing s n with
  | nil =>
      cases ht
      exact ⟨n, rfl, h⟩
  | cons a actions ih =>
      rw [Realm.performAll, bind_eq_some_iff] at ht
      obtain ⟨u, hu, ht⟩ := ht
      obtain ⟨m, hm, hfollows⟩ := h.perform hsuit.1 hu
      rw [Rule.performAll, hm, bind_some]
      exact ih hfollows (hsuit.2 u m hu hm) ht

/-- An async function, called in a `run`, stops at an `await` and goes on. -/
def awaited : List (Action ℕ ℕ) :=
  [.startTurn, .run 0 (some 5), .async true, .await, .leave, .leave, .resume 0]

/-- The same function, which enters a store of its own before the `await`. -/
def entered : List (Action ℕ ℕ) :=
  [.startTurn, .run 0 (some 5), .async true, .enterWith 0 (some 1), .await, .leave, .leave,
    .resume 0]

end AsyncContext

end Tabnode
