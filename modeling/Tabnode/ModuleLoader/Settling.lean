import Mathlib.Algebra.Order.BigOperators.Group.Finset
import Mathlib.Algebra.Order.Ring.Int
import Tabnode.Data.Machine
import Tabnode.ModuleLoader.Standing

/-!
# Loading ends

Each step takes one module further: through the three stages of a statement, on to the
next statement, or through the stages of its end. A file is loaded once, so the modules of
a finite graph can be taken only so far together.
-/

namespace Tabnode

namespace ModuleLoader

open List

variable {File : Type*} {program : File → Source File} {s t : Loader File} {a : Action}
  {i : ℕ} {m m' : Module File}

def Source.steps (source : Source File) : ℕ :=
  3 * source.body.length + 5

def Module.taken (program : File → Source File) (m : Module File) : ℕ :=
  match m.phase with
  | .runs => 3 * m.position + 1
  | .atMark _ => 3 * m.position + 2
  | .awaits _ => 3 * m.position + 3
  | .ended _ => 3 * (program m.file).body.length + 4
  | .settled _ => (program m.file).steps

def Loader.taken (program : File → Source File) (s : Loader File) : ℕ :=
  (s.modules.map (Module.taken program)).sum

theorem Module.Stands.taken_le (h : m.Stands program s) :
    m.taken program ≤ (program m.file).steps := by
  have hposition := h.position_le
  unfold Module.taken
  split <;> simp only [Source.steps] <;> omega

theorem sum_map_lt_sum_map_set {α : Type*} {f : α → ℕ} {l : List α} {i : ℕ} {x y : α}
    (hx : l[i]? = some x) (hlt : f x < f y) : (l.map f).sum < ((l.set i y).map f).sum := by
  induction l generalizing i with
  | nil => cases hx
  | cons z l ih =>
    cases i with
    | zero =>
      cases hx
      simpa using hlt
    | succ i => simpa using ih hx

theorem Loader.taken_lt_of_set (hm : s.modules[i]? = some m)
    (hmodules : t.modules = s.modules.set i m')
    (hlt : m.taken program < m'.taken program) : s.taken program < t.taken program := by
  unfold Loader.taken
  rw [hmodules]
  exact sum_map_lt_sum_map_set hm hlt

variable [DecidableEq File]

theorem Move.taken_lt (hs : AllStand program s) (hl : Line s) (hmove : Move program s a t) :
    s.taken program < t.taken program := by
  cases hmove with
  | cached top _ runs _ _ =>
    refine Loader.taken_lt_of_set top.2 rfl ?_
    simp [Module.taken, runs]
  | @loads i m file top _ runs _ _ =>
    have hset : s.taken program <
        (s.setModule i { m with phase := .atMark s.modules.length }).taken program :=
      Loader.taken_lt_of_set top.2 rfl (by simp [Module.taken, runs])
    unfold Loader.taken at hset ⊢
    rw [Loader.loadModule_modules, map_append, sum_append]
    omega
  | passes top _ marked _ =>
    refine Loader.taken_lt_of_set top.2 rfl ?_
    simp only [Module.taken, marked]
    omega
  | waits top _ marked _ =>
    refine Loader.taken_lt_of_set top.2 rfl ?_
    simp [Module.taken, marked]
  | yields top _ marked _ =>
    refine Loader.taken_lt_of_set top.2 rfl ?_
    simp [Module.taken, marked]
  | awaits top _ runs _ =>
    refine Loader.taken_lt_of_set top.2 rfl ?_
    simp [Module.taken, runs]
  | @ends i m top _ runs _ =>
    have hposition := (hs i m top.2).position_le
    unfold Loader.bodyEnds
    split <;> refine Loader.taken_lt_of_set top.2 rfl ?_ <;>
      simp only [Module.taken, runs, Source.steps] <;> omega
  | @throws i m top _ =>
    have hposition := (hs i m top.2).position_le
    have honStack := hl.onStack_of_top top
    have htaken : m.taken program ≤ 3 * (program m.file).body.length + 2 := by
      unfold Module.taken
      split <;> rename_i hphase <;> rw [hphase] at honStack <;>
        first | omega | cases honStack
    unfold Loader.bodyThrows
    split <;> refine Loader.taken_lt_of_set top.2 rfl (htaken.trans_lt ?_) <;>
      simp only [Module.taken, Source.steps] <;> omega
  | continues _ found suspended _ =>
    refine Loader.taken_lt_of_set found rfl ?_
    simp only [Module.taken, suspended]
    omega
  | @rejects _ i m what _ found suspended _ =>
    have hposition := (hs i m found).position_le
    refine Loader.taken_lt_of_set found rfl ?_
    simp only [Module.taken, suspended]
    omega
  | @reacts i m ok _ found ended =>
    cases ok <;> refine Loader.taken_lt_of_set found rfl ?_ <;>
      simp [Module.taken, ended, Source.steps]

theorem Cached.taken_le [Fintype File] (hc : Cached s) (hs : AllStand program s) :
    s.taken program ≤ ∑ file, (program file).steps := by
  have hnodup : (s.modules.map Module.file).Nodup := by
    rw [nodup_iff_getElem?_ne_getElem?]
    intro i j hij hj heq
    rw [getElem?_map, getElem?_map] at heq
    rw [length_map] at hj
    rw [getElem?_eq_getElem hj, getElem?_eq_getElem (hij.trans hj)] at heq
    have hfile := Option.some.inj heq
    exact hij.ne (hc.unique i j _ _ (getElem?_eq_getElem (hij.trans hj))
      (getElem?_eq_getElem hj) hfile)
  calc s.taken program
      ≤ (s.modules.map fun m => (program m.file).steps).sum := by
        refine sum_le_sum fun m hm => ?_
        obtain ⟨i, hi⟩ := mem_iff_getElem?.1 hm
        exact (hs i m hi).taken_le
    _ = ∑ file ∈ (s.modules.map Module.file).toFinset, (program file).steps := by
        rw [sum_toFinset _ hnodup, map_map]
        rfl
    _ ≤ ∑ file, (program file).steps :=
        Finset.sum_le_sum_of_subset (Finset.subset_univ _)

end ModuleLoader

end Tabnode

/-!
## Module graphs settle

While no import is reached of a module that already carries its mark, the first of the
line waits for nothing on it. So as long as a module is unsettled some step is possible,
and since each takes the modules further, the graph settles. An import of a marked module
closes a cycle whose modules then wait for each other.
-/

namespace Tabnode

namespace ModuleLoader

variable {File : Type*} {program : File → Source File} {s t : Loader File} {a : Action}
  {i j : ℕ} {m m' : Module File}

def Free (s : Loader File) : Prop :=
  ∀ (i j : ℕ) (m : Module File), s.line.head? = some i → s.modules[i]? = some m →
    m.phase = .awaits (.body j) ∨ m.phase = .atMark j ∧ s.pendingOf j = true → j ∉ s.line

def Sound (s : Loader File) : Prop :=
  s.throwing = false ∧ ∀ (k : ℕ) (n : Module File), s.modules[k]? = some n →
    n.phase ≠ .ended false ∧ n.phase ≠ .settled false

def importing (program : File → Source File) (s : Loader File) : Option File :=
  match s.stack.head?.bind fun i => s.modules[i]? with
  | some m =>
    match m.phase, m.statement program with
    | .runs, some (.importFrom file) => some file
    | _, _ => none
  | none => none

/-! ### The first of the line is free -/

theorem Free.of_phase (hline : t.line.head? = some i) (hm : t.modules[i]? = some m)
    (hphase : ∀ j, m.phase = .awaits (.body j) ∨ m.phase = .atMark j ∧ t.pendingOf j = true →
      j ∉ t.line) : Free t := by
  intro k j n hk hn
  cases hline.symm.trans hk
  cases hm.symm.trans hn
  exact hphase j

theorem Free.of_set (hm : s.modules[i]? = some m) (hmodules : t.modules = s.modules.set i m')
    (hhead : s.line.head? = some i) (hsettled : m'.phase.isSettled = m.phase.isSettled)
    (hphase : ∀ j, m'.phase = .awaits (.body j) ∨ m'.phase = .atMark j ∧ t.pendingOf j = true →
      j ∉ t.line) : Free t := by
  refine .of_phase ?_ (getElem?_set_eq hm hmodules) hphase
  rw [Loader.line_set hm hmodules hsettled]
  exact hhead

/-- The first of the line has left it, and the next waits for that one alone. -/
theorem Free.of_drop (hl : Line s) (hhead : s.line.head? = some i) (hm : s.modules[i]? = some m)
    (hmodules : t.modules = s.modules.set i m') (hphase : m'.phase.isSettled = true) :
    Free t := by
  obtain ⟨rest, hline⟩ := List.head?_eq_some_iff.1 hhead
  have hrest := Loader.line_drop hline hm hmodules hphase
  have hnodup := List.nodup_cons.1 (hline ▸ s.nodup_line)
  intro q j n hq hn hwaits
  rw [hrest] at hq ⊢
  obtain ⟨below, rfl⟩ := List.head?_eq_some_iff.1 hq
  have hqi : q ≠ i := fun hqi => hnodup.1 (hqi ▸ List.mem_cons_self)
  rw [getElem?_set_of_ne hmodules q hqi] at hn
  have hi : n.phase.waitsFor i :=
    (List.isChain_cons_cons.1 (hline ▸ hl.linked)).1.waitsFor hn
  have hj : n.phase.waitsFor j := hwaits.symm.imp_left And.left
  rw [Phase.waitsFor_unique hj hi]
  exact hnodup.1

section Step

variable [DecidableEq File]

/-- What the loader keeps in every run. -/
structure Orderly (program : File → Source File) (s : Loader File) : Prop where
  line : Line s
  fails_on : FailsOn s
  cached : Cached s
  listed : Listed s
  stands : AllStand program s

def ImportsUnmarked (program : File → Source File) (s : Loader File) : Action → Prop
  | .run => ∀ file ∈ importing program s, ∀ j ∈ s.moduleCache file, s.pendingOf j = false
  | _ => True

instance (s : Loader File) (a : Action) : Decidable (ImportsUnmarked program s a) := by
  unfold ImportsUnmarked
  split <;> infer_instance

theorem Orderly.start (entry : File) : Orderly program (.start entry) := by
  have hmodule : ∀ (k : ℕ) (n : Module File), (Loader.start entry).modules[k]? = some n →
      k = 0 ∧ n = { file := entry, parent := none } := by
    intro k n hn
    rw [Loader.start, List.getElem?_singleton] at hn
    split at hn <;> cases hn
    exact ⟨‹_›, rfl⟩
  have hline : (Loader.start entry).line = [0] := rfl
  refine ⟨⟨?_, ?_, ?_, ?_, ?_, ?_⟩, ?_, ⟨?_, ?_, ?_⟩, ⟨?_, ?_⟩, ?_⟩
  · rw [hline]
    exact .singleton 0
  · rw [hline]
    exact .refl _
  · rintro k n hn
    obtain ⟨rfl, rfl⟩ := hmodule k n hn
    simp [Loader.start, Phase.onStack]
  · rintro k n hn hsettled
    obtain ⟨rfl, rfl⟩ := hmodule k n hn
    rfl
  · rintro k n hn - hoff
    obtain ⟨rfl, rfl⟩ := hmodule k n hn
    cases hoff
  · intro hthrows
    cases hthrows
  · rintro k n hn hphase
    obtain ⟨rfl, rfl⟩ := hmodule k n hn
    cases hphase
  · intro file j hj
    rw [Loader.start_moduleCache] at hj
    split at hj <;> cases hj
    exact ⟨_, rfl, (‹file = entry›).symm, Phase.noConfusion⟩
  · rintro k n hn -
    obtain ⟨rfl, rfl⟩ := hmodule k n hn
    exact (Loader.start_moduleCache entry entry).trans (if_pos rfl)
  · intro i j m n hm hn _
    rw [(hmodule i m hm).1, (hmodule j n hn).1]
  · intro p k hk
    cases hk
  · exact fun _ => List.nodup_nil
  · rintro k n hn
    obtain ⟨rfl, rfl⟩ := hmodule k n hn
    exact ⟨trivial, Nat.zero_le _, by simp⟩

theorem Orderly.move_of_step (h : Orderly program s) (hstep : step program s a = some t) :
    Move program s a t :=
  ModuleLoader.move_of_step h.stands.atImports hstep

theorem Orderly.step (h : Orderly program s) (hstep : step program s a = some t) :
    Orderly program t := by
  have hmove := h.move_of_step hstep
  exact {
    line := h.line.move hmove
    fails_on := h.fails_on.move h.line hmove
    cached := h.cached.move h.line h.fails_on hmove
    listed := h.listed.move hmove
    stands := h.stands.move h.line h.fails_on h.cached hmove }

/-- The first of the line stays free over an import that is not of a marked module. -/
theorem Free.step (h : Free s) (ho : Orderly program s) (hok : ImportsUnmarked program s a)
    (hstep : ModuleLoader.step program s a = some t) : Free t := by
  have hl := ho.line
  cases ho.move_of_step hstep with
  | @cached i m file j top calm runs at_import hit =>
    have himporting : importing program s = some file := by
      have htop : (s.stack.head?.bind fun i => s.modules[i]?) = some m := by
        rw [top.1, Option.bind_some, top.2]
      simp [importing, htop, runs, Module.statement, at_import]
    have hunmarked : s.pendingOf j = false := hok file himporting j hit
    refine .of_set top.2 rfl (hl.head_of_top_runs top runs) (by rw [runs]; rfl) ?_
    rintro k (hk | ⟨hk, hmark⟩) <;> cases hk
    by_cases hji : j = i
    · subst hji
      rw [Loader.pendingOf_eq (getElem?_set_eq (t := s.setModule j _) top.2 rfl)] at hmark
      rw [Loader.pendingOf_eq top.2, hmark] at hunmarked
      cases hunmarked
    · unfold Loader.pendingOf at hmark hunmarked
      rw [getElem?_set_of_ne (t := s.setModule i _) rfl j hji] at hmark
      rw [hunmarked] at hmark
      cases hmark
  | @loads i m file top calm runs _ _ =>
    have hline : (s.loadModule i m file).line.head? = some s.modules.length := by
      rw [Loader.line_loadModule top.2 (by rw [runs]; rfl)]
      rfl
    exact .of_phase hline (s.loadModule_getElem?_length i m file) (by simp)
  | passes top calm marked read =>
    exact .of_set top.2 rfl (hl.head_of_top_read top marked read) (by rw [marked]; rfl)
      (by simp)
  | @waits i m j top calm marked read =>
    have hline : (s.suspend i m (.body j)).line = s.line :=
      Loader.line_set top.2 rfl (by rw [marked]; rfl)
    intro q k n hq hn hwaits
    rw [hline] at hq ⊢
    rcases getElem?_set_cases (s := s) rfl hn with ⟨rfl, rfl⟩ | ⟨hqi, hn⟩
    · rcases hwaits with hk | ⟨hk, -⟩ <;> cases hk
      exact h q j m hq top.2 (.inr ⟨marked, read⟩)
    · refine h q k n hq hn (.inl ?_)
      rcases hwaits with hk | ⟨hk, -⟩
      · exact hk
      · have hstack := (hl.mem_stack q n hn).2 (by rw [hk]; rfl)
        exact absurd (hl.eq_top_of_head top hq hstack) hqi
  | yields top calm marked read =>
    exact .of_set top.2 rfl (hl.head_of_top_read top marked read) (by rw [marked]; rfl)
      (by simp)
  | awaits top calm runs _ =>
    exact .of_set top.2 rfl (hl.head_of_top_runs top runs) (by rw [runs]; rfl) (by simp)
  | ends top calm runs _ =>
    unfold Loader.bodyEnds
    split
    · exact .of_set top.2 rfl (hl.head_of_top_runs top runs) (by rw [runs]; rfl) (by simp)
    · exact .of_drop hl (hl.head_of_top_runs top runs) top.2 rfl rfl
  | throws top throws =>
    have hphase := Line.unsettled_of_onStack (hl.onStack_of_top top)
    unfold Loader.bodyThrows
    split
    · exact .of_set top.2 rfl (hl.head_of_throws top throws) hphase.symm (by simp)
    · exact .of_drop hl (hl.head_of_throws top throws) top.2 rfl rfl
  | continues idle found suspended outcome =>
    exact .of_set found rfl (hl.head_of_outcome found suspended outcome)
      (by rw [suspended]; rfl) (by simp)
  | rejects idle found suspended outcome =>
    exact .of_set found rfl (hl.head_of_outcome found suspended (outcome.imp_left And.left))
      (by rw [suspended]; rfl) (by simp)
  | @reacts i m ok idle found ended =>
    cases ok <;> exact .of_drop hl (hl.head_of_ended found ended) found rfl rfl

end Step

end ModuleLoader

end Tabnode
