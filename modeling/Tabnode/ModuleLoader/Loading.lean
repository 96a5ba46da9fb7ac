import Tabnode.ModuleLoader.Settling

/-!
# Loading a graph of modules

What a run of the loader comes to, for any finite graph of modules and any order in which
their own awaits settle: each body runs once, goes past an import only of a module that
has settled unless the import closes a cycle, and a failure takes every importer with it.
The graph settles as long as no import is reached of a module that already carries its
mark; where one is, its importer and that module wait for each other for good.
-/

namespace Tabnode

namespace ModuleLoader

open Machine List Option

variable {File : Type*} [DecidableEq File] {program : File → Source File} {entry : File}
  {s t : Loader File} {a : Action} {i j : ℕ} {m n : Module File}

/-- Nothing can happen any more; in particular no `await` of a body's own is outstanding. -/
def Quiescent (program : File → Source File) (s : Loader File) : Prop :=
  ∀ a, step program s a = none

/-- What loading a graph of modules does, in a state reached by a run. -/
structure LoadsInOrder [Fintype File] (program : File → Source File) (entry : File)
    (as : List Action) (s : Loader File) : Prop where
  /-- Each module's body runs at most once. -/
  once : ∀ (i j : ℕ) (m n : Module File), s.modules[i]? = some m → s.modules[j]? = some n →
    m.file = n.file → i = j
  /-- A body is past its import of a module only when that one has settled, or the two are
  on one cycle. -/
  in_order : ∀ (i : ℕ) (m : Module File), s.modules[i]? = some m →
    ∀ file, .importFrom file ∈ (program m.file).body.take m.position →
      Past program s m.file file
  /-- The run comes to an end. -/
  finite : as.length ≤ ∑ file, (program file).steps
  /-- At its end every module that has begun is settled. -/
  settled : Quiescent program s → ∀ (i : ℕ) (m : Module File), s.modules[i]? = some m →
    m.phase.isSettled = true
  /-- If nothing threw, that is every module of the graph, loaded and with no mark left. -/
  loaded : Quiescent program s →
    (∀ file, Reaches program entry file → .throws ∉ (program file).body) →
    (∀ i, .settleOwn i false ∉ as) →
    (∀ file, Reaches program entry file → ∃ (i : ℕ) (m : Module File),
      s.moduleCache file = some i ∧ s.modules[i]? = some m ∧ m.phase = .settled true ∧
        m.loaded = true) ∧
    ∀ i, s.pendingOf i = false
  /-- If a module failed, every module that has begun and imports it outside a cycle has
  failed with it. -/
  failed : Quiescent program s → ∀ (i j : ℕ) (m n : Module File), s.modules[i]? = some m →
    s.modules[j]? = some n → n.phase = .settled false → Imports program m.file n.file →
    ¬ OnCycle program m.file n.file → m.phase = .settled false
  /-- A module that failed is out of the cache and out of its parent's children. -/
  forgotten : ∀ (i : ℕ) (m : Module File), s.modules[i]? = some m → m.phase = .settled false →
    s.moduleCache m.file = none ∧ ∀ p, i ∉ s.children p

/-! ## While a module is unsettled something can happen -/

theorem Line.exists_step_run (hl : Line s) (hstack : s.stack ≠ []) :
    ∃ t, step program s .run = some t := by
  obtain ⟨i, below, hi⟩ := exists_cons_of_ne_nil hstack
  obtain ⟨m, hm, -⟩ := Loader.exists_of_mem_line
    (hl.stack_sublist.subset (hi ▸ mem_cons_self : i ∈ s.stack))
  have htop : s.Top i m := ⟨by rw [hi]; rfl, hm⟩
  have honStack := hl.onStack_of_top htop
  have hrun : (s.runBody i m (program m.file)).isSome = true := by
    unfold Loader.runBody
    split
    · rfl
    · split
      · split <;> rfl
      · rfl
      · rename_i hruns hmark
        cases hphase : m.phase with
        | runs => exact absurd hphase hruns
        | atMark j => exact absurd hphase (hmark j)
        | awaits _ | ended _ | settled _ => rw [hphase] at honStack; cases honStack
  obtain ⟨t, ht⟩ := isSome_iff_exists.1 hrun
  refine ⟨t, ?_⟩
  simp only [step, hi, hm]
  exact ht

/-- Where nothing can happen no body is running, and the first of the line waits for a
module that is not settled. -/
theorem Orderly.stuck_of_quiescent (h : Orderly program s) (hq : Quiescent program s)
    (hhead : s.line.head? = some i) : s.stack = [] ∧
      ∃ (m : Module File) (j : ℕ), s.modules[i]? = some m ∧ m.phase = .awaits (.body j) ∧
        j ∈ s.line := by
  have hidle : s.stack = [] := by
    by_contra hstack
    obtain ⟨t, ht⟩ : ∃ t, ModuleLoader.step program s .run = some t := h.line.exists_step_run hstack
    rw [hq] at ht
    cases ht
  refine ⟨hidle, ?_⟩
  obtain ⟨m, hm, hsettled⟩ := Loader.exists_of_mem_line (mem_of_mem_head? hhead)
  have hoff : m.phase.onStack = false := by
    rw [← Bool.not_eq_true, ← h.line.mem_stack i m hm, hidle]
    exact not_mem_nil
  have hresume := hq (.resume i)
  have hreact := hq (.react i)
  have hown := hq (.settleOwn i true)
  simp only [ModuleLoader.step, hidle, if_true, hm, bind_some] at hresume hreact hown
  cases hphase : m.phase with
  | runs | atMark _ => rw [hphase] at hoff; cases hoff
  | settled ok => rw [hphase] at hsettled; cases hsettled
  | ended ok =>
    rw [hphase] at hreact
    cases hreact
  | awaits what =>
    rw [hphase] at hresume hown
    cases what with
    | own => simp at hown
    | nothing => cases hresume
    | body j =>
      refine ⟨m, j, hm, hphase, ?_⟩
      obtain ⟨n, hn, -⟩ := (h.stands i m hm).at_statement.import_of (.inr hphase)
      apply Loader.mem_line hn
      by_contra hnsettled
      cases hnphase : n.phase with
      | settled ok => simp [Loader.outcome, hn, hnphase] at hresume
      | _ => simp [hnphase, Phase.isSettled] at hnsettled

theorem Orderly.line_eq_nil (h : Orderly program s) (hf : Free s) (hq : Quiescent program s) :
    s.line = [] := by
  rw [← head?_eq_none_iff]
  by_contra hhead
  obtain ⟨i, hi⟩ := ne_none_iff_exists'.1 hhead
  obtain ⟨-, m, j, hm, hphase, hj⟩ := h.stuck_of_quiescent hq hi
  exact hf i j m hi hm (.inl hphase) hj

omit [DecidableEq File] in
theorem Loader.isSettled_of_line_eq_nil (hline : s.line = []) (hm : s.modules[i]? = some m) :
    m.phase.isSettled = true := by
  by_contra hsettled
  have hmem := Loader.mem_line hm (by simpa using hsettled)
  rw [hline] at hmem
  cases hmem

/-! ## What a run without a throw keeps -/

def AllReached (program : File → Source File) (entry : File) (s : Loader File) : Prop :=
  ∀ (i : ℕ) (m : Module File), s.modules[i]? = some m → Reaches program entry m.file

theorem AllReached.step (h : AllReached program entry s) (ho : Orderly program s)
    (hstep : step program s a = some t) : AllReached program entry t := by
  obtain ⟨i, m, m', hm, hmodules, -, hfile, -⟩ := (ho.move_of_step hstep).acts ho.line
  have hset : AllReached program entry (s.setModule i m') := by
    intro k n hn
    rcases getElem?_set_cases (s := s) rfl hn with ⟨-, rfl⟩ | ⟨-, hn⟩
    · exact hfile ▸ h i m hm
    · exact h k n hn
  rcases hmodules with hmodules | ⟨file, -, himport, hmodules⟩
  · intro k n hn
    rw [hmodules] at hn
    exact hset k n hn
  · intro k n hn
    rw [hmodules, getElem?_append] at hn
    split at hn
    · exact hset k n hn
    · rw [getElem?_singleton] at hn
      split at hn <;> cases hn
      exact (h i m hm).tail himport

omit [DecidableEq File] in
theorem Sound.of_set (h : Sound s) (hmodules : t.modules = s.modules.set i m)
    (hcalm : t.throwing = s.throwing) (hphase : m.phase ≠ .ended false)
    (hphase' : m.phase ≠ .settled false) : Sound t := by
  refine ⟨hcalm.trans h.1, fun k n hn => ?_⟩
  rcases getElem?_set_cases hmodules hn with ⟨-, rfl⟩ | ⟨-, hn⟩
  · exact ⟨hphase, hphase'⟩
  · exact h.2 k n hn

/-- No body throws where no statement throws and no `await` is rejected. -/
theorem Sound.step (h : Sound s) (ho : Orderly program s) (hr : AllReached program entry s)
    (hthrows : ∀ file, Reaches program entry file → .throws ∉ (program file).body)
    (hrejects : ∀ i, a ≠ .settleOwn i false) (hstep : step program s a = some t) :
    Sound t := by
  cases ho.move_of_step hstep with
  | cached top _ _ _ _ => exact h.of_set rfl rfl Phase.noConfusion Phase.noConfusion
  | @loads i m file top _ _ _ _ =>
    have hset : Sound (s.setModule i { m with phase := .atMark s.modules.length }) :=
      h.of_set rfl rfl Phase.noConfusion Phase.noConfusion
    refine ⟨h.1, fun k n hn => ?_⟩
    rcases s.loadModule_getElem?_cases i m file hn with ⟨-, rfl⟩ | hn
    · exact ⟨Phase.noConfusion, Phase.noConfusion⟩
    · exact hset.2 k n hn
  | passes _ _ _ _ | waits _ _ _ _ | yields _ _ _ _ | awaits _ _ _ _ =>
    exact h.of_set rfl rfl Phase.noConfusion Phase.noConfusion
  | ends top _ _ _ =>
    unfold Loader.bodyEnds
    split <;> exact h.of_set rfl rfl (by simp) (by simp)
  | @throws i m top throws =>
    rcases throws with hthrowing | ⟨-, hat⟩
    · rw [h.1] at hthrowing
      cases hthrowing
    · exact absurd (mem_of_getElem? hat) (hthrows m.file (hr i m top.2))
  | continues _ _ _ _ => exact h.of_set rfl rfl Phase.noConfusion Phase.noConfusion
  | @rejects _ i m what _ found suspended outcome =>
    rcases outcome with ⟨-, rfl⟩ | houtcome
    · exact absurd rfl (hrejects i)
    · cases what with
      | own | nothing => cases houtcome
      | body j =>
        obtain ⟨n, hn, -⟩ := (ho.stands i m found).at_statement.import_of (.inr suspended)
        exact absurd (s.settled_of_outcome hn houtcome) (h.2 j n hn).2
  | @reacts i m ok _ found ended =>
    cases ok with
    | true => exact h.of_set rfl rfl (by simp) (by simp)
    | false => exact absurd ended (h.2 i m found).1

/-! ## Runs -/

variable {as : List Action}

theorem orderly_of_run
    (h : Machine.run (step program) (.start entry) as = some s) : Orderly program s :=
  invariant (fun _ _ _ hs hstep => hs.step hstep) (.start entry) h

theorem entry_of_run (h : Machine.run (step program) (.start entry) as = some s) :
    ∃ m, s.modules[0]? = some m ∧ m.file = entry := by
  have hkept := invariant
    (I := fun s => Orderly program s ∧ ∃ m, s.modules[0]? = some m ∧ m.file = entry)
    ?_ ⟨.start entry, _, rfl, rfl⟩ h
  · exact hkept.2
  · rintro s a t ⟨ho, m, hm, rfl⟩ hstep
    obtain ⟨m', hm', hfile, -⟩ := (ho.move_of_step hstep).keeps ho.line 0 m hm
    exact ⟨ho.step hstep, m', hm', hfile⟩

theorem free_of_run (hok : Meets (step program) (ImportsUnmarked program) (.start entry) as)
    (h : Machine.run (step program) (.start entry) as = some s) : Free s := by
  have hkept := invariant_of_meets (I := fun s => Orderly program s ∧ Free s)
    (fun s a t hs ha hstep => ⟨hs.1.step hstep, hs.2.step hs.1 ha hstep⟩) ⟨.start entry, ?_⟩ hok h
  · exact hkept.2
  · refine .of_phase (i := 0) (m := { file := entry, parent := none }) rfl rfl (by simp)

theorem sound_of_run (hthrows : ∀ file, Reaches program entry file → .throws ∉ (program file).body)
    (hrejects : ∀ i, .settleOwn i false ∉ as)
    (h : Machine.run (step program) (.start entry) as = some s) : Sound s := by
  have hok : Meets (step program) (fun _ a => ∀ i, a ≠ .settleOwn i false)
      (.start entry) as := by
    apply meets_of_forall_mem
    rintro a ha - i rfl
    exact hrejects i ha
  have hstart : ∀ (k : ℕ) (n : Module File), (Loader.start entry).modules[k]? = some n →
      n = { file := entry, parent := none } := by
    intro k n hn
    rw [Loader.start, getElem?_singleton] at hn
    split at hn <;> cases hn
    rfl
  have hkept := invariant_of_meets
    (I := fun s => Orderly program s ∧ AllReached program entry s ∧ Sound s)
    ?_ ⟨.start entry, ?_, rfl, ?_⟩ hok h
  · exact hkept.2.2
  · rintro s a t ⟨ho, hr, hs⟩ ha hstep
    exact ⟨ho.step hstep, hr.step ho hstep, hs.step ho hr hthrows ha hstep⟩
  · intro k n hn
    rw [hstart k n hn]
    exact .refl
  · intro k n hn
    rw [hstart k n hn]
    exact ⟨Phase.noConfusion, Phase.noConfusion⟩

variable {file : File}

omit [DecidableEq File] in
theorem Orderly.past_of_settled (h : Orderly program s) (hm : s.modules[i]? = some m)
    (hphase : m.phase = .settled true) (himports : Imports program m.file file) :
    Past program s m.file file := by
  have hstands := h.stands i m hm
  have hat := hstands.at_statement
  rw [Module.StandsAt, hphase] at hat
  apply hstands.passed
  rw [take_of_length_le (getElem?_eq_none_iff.1 hat.1)]
  exact himports

omit [DecidableEq File] in
/-- Where every module is through, the whole graph of the entry has been loaded. -/
theorem Orderly.exists_of_reaches (h : Orderly program s)
    (hsettled : ∀ (i : ℕ) (m : Module File), s.modules[i]? = some m → m.phase = .settled true)
    (hentry : ∃ m, s.modules[0]? = some m ∧ m.file = entry) (hfile : Reaches program entry file) :
    ∃ (i : ℕ) (m : Module File), s.modules[i]? = some m ∧ m.file = file := by
  induction hfile with
  | refl =>
    obtain ⟨m, hm, hfile⟩ := hentry
    exact ⟨0, m, hm, hfile⟩
  | tail _ himports ih =>
    obtain ⟨i, m, hm, rfl⟩ := ih
    obtain ⟨j, n, hn, hfile, -⟩ := h.past_of_settled hm (hsettled i m hm) himports
    exact ⟨j, n, hn, hfile⟩

/-- In a run that reaches no import of a module already marked, a graph of modules loads
in order and settles. -/
theorem loadsInOrder_of_run [Fintype File] (program : File → Source File) (entry : File)
    (as : List Action) (s : Loader File)
    (hok : Meets (step program) (ImportsUnmarked program) (.start entry) as)
    (h : Machine.run (step program) (.start entry) as = some s) :
    LoadsInOrder program entry as s := by
  have ho := orderly_of_run h
  have hline : Quiescent program s → s.line = [] := ho.line_eq_nil (free_of_run hok h)
  have hsettled : Quiescent program s → ∀ (i : ℕ) (m : Module File), s.modules[i]? = some m →
      m.phase.isSettled = true := fun hq _ _ hm =>
    Loader.isSettled_of_line_eq_nil (hline hq) hm
  exact {
    once := ho.cached.unique
    in_order := fun i m hm => (ho.stands i m hm).passed
    finite := by
      have hlength : as.length + (Loader.start entry).taken program ≤ s.taken program :=
        length_add_le_of_run (fun _ _ _ hs hstep => Orderly.step hs hstep)
          (fun _ _ _ hs hstep => (hs.move_of_step hstep).taken_lt hs.stands hs.line)
          (.start entry) h
      have hbound := ho.cached.taken_le ho.stands
      omega
    settled := hsettled
    loaded := by
      intro hq hthrows hrejects
      have hsound := sound_of_run hthrows hrejects h
      have hthrough : ∀ (i : ℕ) (m : Module File), s.modules[i]? = some m →
          m.phase = .settled true := by
        intro i m hm
        have hphase := hsettled hq i m hm
        cases hm' : m.phase with
        | settled ok =>
          cases ok with
          | true => rfl
          | false => exact absurd hm' (hsound.2 i m hm).2
        | _ => simp [hm', Phase.isSettled] at hphase
      refine ⟨fun file hfile => ?_, fun i => ?_⟩
      · obtain ⟨i, m, hm, rfl⟩ := ho.exists_of_reaches hthrough (entry_of_run h) hfile
        have hphase := hthrough i m hm
        have hat := (ho.stands i m hm).at_statement
        rw [Module.StandsAt, hphase] at hat
        exact ⟨i, m, ho.cached.kept i m hm (hsound.2 i m hm).2, hm, hphase, hat.2⟩
      · rw [← Bool.not_eq_true]
        intro hpending
        have hmem := ho.line.mem_of_pendingOf hpending
        rw [hline hq] at hmem
        cases hmem
    failed := by
      intro hq i j m n hm hn hfailed himports hcycle
      have hphase := hsettled hq i m hm
      cases hm' : m.phase with
      | settled ok =>
        cases ok with
        | false => rfl
        | true =>
          obtain ⟨k, p, hp, hfile, hpast | honcycle⟩ := ho.past_of_settled hm hm' himports
          · obtain rfl := ho.cached.unique k j p n hp hn hfile
            cases hp.symm.trans hn
            rw [hfailed] at hpast
            cases hpast
          · exact absurd honcycle hcycle
      | _ => simp [hm', Phase.isSettled] at hphase
    forgotten := by
      intro i m hm hfailed
      refine ⟨?_, fun p hp => ?_⟩
      · rw [← not_isSome_iff_eq_none]
        intro hsome
        obtain ⟨j, hj⟩ := isSome_iff_exists.1 hsome
        obtain ⟨n, hn, hfile, hnphase⟩ := ho.cached.hit m.file j hj
        obtain rfl := ho.cached.unique j i n m hn hm hfile
        cases hn.symm.trans hm
        exact hnphase hfailed
      · obtain ⟨n, hn, -, hnphase⟩ := ho.listed.child p i hp
        cases hn.symm.trans hm
        exact hnphase hfailed }

/-- The second module imports the first, whose load is still running, and then awaits. -/
def earlyCycle : Fin 2 → Source (Fin 2)
  | 0 => { body := [.importFrom 1], topLevelAwait := false, marked := by simp }
  | 1 => { body := [.importFrom 0, .awaits], topLevelAwait := true, marked := by simp }

theorem loadsInOrder_of_run_earlyCycle : ∃ as s,
    Machine.run (step earlyCycle) (.start 0) as = some s ∧ LoadsInOrder earlyCycle 0 as s :=
  ⟨[.run, .run, .run, .run, .resume 1, .run, .settleOwn 1 true, .run, .react 1, .resume 0, .run,
    .react 0], _, rfl, loadsInOrder_of_run earlyCycle 0 _ _ (by decide) rfl⟩

def lateCycle : Fin 3 → Source (Fin 3)
  | 0 => { body := [.importFrom 1], topLevelAwait := false, marked := by simp }
  | 1 => { body := [.importFrom 2, .importFrom 0], topLevelAwait := false, marked := by simp }
  | 2 => { body := [.awaits], topLevelAwait := true, marked := by simp }

def lateCycleSteps : List Action :=
  [.run, .run, .run, .run, .run, .settleOwn 2 true, .run, .react 2, .resume 1, .run, .run]

/-- No body throws and the one `await` is settled, and the first two modules wait for each
other's promise. -/
theorem lateCycle_hangs : ∃ s, Machine.run (step lateCycle) (.start 0) lateCycleSteps = some s ∧
    Quiescent lateCycle s ∧ (∀ file, .throws ∉ (lateCycle file).body) ∧
    s.pendingOf 0 = true ∧ s.pendingOf 1 = true ∧
    ¬ LoadsInOrder lateCycle 0 lateCycleSteps s := by
  have hquiet : ∀ s, Machine.run (step lateCycle) (.start 0) lateCycleSteps = some s →
      Quiescent lateCycle s := by
    rintro s ⟨⟩ a
    cases a with
    | run => rfl
    | settleOwn i ok => match i with | 0 => rfl | 1 => rfl | 2 => rfl | n + 3 => rfl
    | resume i => match i with | 0 => rfl | 1 => rfl | 2 => rfl | n + 3 => rfl
    | react i => match i with | 0 => rfl | 1 => rfl | 2 => rfl | n + 3 => rfl
  have hthrows : ∀ file, .throws ∉ (lateCycle file).body := by decide
  refine ⟨_, rfl, hquiet _ rfl, hthrows, rfl, rfl, fun h => ?_⟩
  have hpending := (h.loaded (hquiet _ rfl) (fun file _ => hthrows file)
    (by simp [lateCycleSteps])).2 0
  cases hpending

end ModuleLoader

end Tabnode
