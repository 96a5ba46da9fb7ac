import Tabnode.ModuleLoader.Steps

/-!
# A failure goes on

Every step changes one unsettled module, and a load makes one more; settled modules are
left as they are. After a module has failed nothing but the failure goes on (`Failing`):
the first of the line is on its way to fail too, until the line is empty.
-/

namespace Tabnode

namespace ModuleLoader

open List

variable {File : Type*} {program : File → Source File} {s t : Loader File} {a : Action}
  {i : ℕ} {m m' : Module File}

def Keeps (s t : Loader File) : Prop :=
  ∀ (k : ℕ) (n : Module File), s.modules[k]? = some n → ∃ n', t.modules[k]? = some n' ∧
    n'.file = n.file ∧ n'.parent = n.parent ∧ (n.phase.isSettled = true → n' = n)

def Failing (s : Loader File) : Prop :=
  s.throwing = true ∨ s.line = [] ∨
    ∃ (i : ℕ) (m : Module File), s.line.head? = some i ∧ s.modules[i]? = some m ∧
      (m.phase = .ended false ∨ ∃ (j : ℕ) (n : Module File), m.phase = .awaits (.body j) ∧
        s.modules[j]? = some n ∧ n.phase = .settled false)

def FailsOn (s : Loader File) : Prop :=
  ∀ (k : ℕ) (n : Module File), s.modules[k]? = some n → n.phase = .settled false → Failing s

theorem Keeps.of_set (hm : s.modules[i]? = some m) (hmodules : t.modules = s.modules.set i m')
    (hfile : m'.file = m.file) (hparent : m'.parent = m.parent)
    (hphase : m.phase.isSettled = false) : Keeps s t := by
  intro k n hn
  by_cases hk : k = i
  · subst hk
    cases hm.symm.trans hn
    refine ⟨m', getElem?_set_eq hm hmodules, hfile, hparent, fun hsettled => ?_⟩
    rw [hphase] at hsettled
    cases hsettled
  · exact ⟨n, (getElem?_set_of_ne hmodules k hk).trans hn, rfl, rfl, fun _ => rfl⟩

theorem Failing.of_set (hm : s.modules[i]? = some m) (hmodules : t.modules = s.modules.set i m')
    (hphase : m.phase.isSettled = false) (hhead : s.line.head? = some i)
    (hended : m'.phase = .ended false) : Failing t := by
  have hline : t.line = s.line :=
    Loader.line_set hm hmodules (by rw [hphase, hended]; rfl)
  exact .inr (.inr ⟨i, m', hline ▸ hhead, getElem?_set_eq hm hmodules, .inl hended⟩)

/-- The failed module was the first of the line: the next waits at its promise. -/
theorem Failing.of_drop (hl : Line s) {rest : List ℕ} (hline : s.line = i :: rest)
    (hidle : s.stack = []) (hm : s.modules[i]? = some m)
    (hmodules : t.modules = s.modules.set i m') (hfailed : m'.phase = .settled false) :
    Failing t := by
  have hrest : t.line = rest := Loader.line_drop hline hm hmodules (by rw [hfailed]; rfl)
  cases rest with
  | nil => exact .inr (.inl hrest)
  | cons q below =>
    have hlinked := hline ▸ hl.linked
    obtain ⟨n, hn, hphase⟩ := (isChain_cons_cons.1 hlinked).1
    have hqi : q ≠ i := by
      rintro rfl
      have hnodup := hline ▸ s.nodup_line
      exact (nodup_cons.1 hnodup).1 mem_cons_self
    refine .inr (.inr ⟨q, n, by rw [hrest]; rfl, (getElem?_set_of_ne hmodules q hqi).trans hn,
      .inr ⟨i, m', ?_, getElem?_set_eq hm hmodules, hfailed⟩⟩)
    rcases hphase with hphase | ⟨hphase, -⟩
    · have hq := (hl.mem_stack q n hn).2 (by rw [hphase]; rfl)
      rw [hidle] at hq
      cases hq
    · exact hphase

/-- The first of a failing line is not running anything of its own, and is not to go on. -/
theorem Failing.head_phase (h : Failing s) (hcalm : s.throwing = false)
    (hhead : s.line.head? = some i) (hm : s.modules[i]? = some m) :
    m.phase = .ended false ∨ ∃ (j : ℕ) (n : Module File), m.phase = .awaits (.body j) ∧
      s.modules[j]? = some n ∧ n.phase = .settled false := by
  rcases h with hthrows | hline | ⟨i', m', hhead', hm', hphase⟩
  · rw [hcalm] at hthrows
    cases hthrows
  · rw [hline] at hhead
    cases hhead
  · cases hhead.symm.trans hhead'
    cases hm.symm.trans hm'
    exact hphase

section Step

variable [DecidableEq File]

/-- Every step changes one unsettled module, and a load makes one more. -/
theorem Move.acts (hl : Line s) (hmove : Move program s a t) :
    ∃ (i : ℕ) (m m' : Module File), s.modules[i]? = some m ∧
      (t.modules = s.modules.set i m' ∨ ∃ file, s.moduleCache file = none ∧
        .importFrom file ∈ (program m.file).body ∧
        t.modules = s.modules.set i m' ++ [{ file := file, parent := some i }]) ∧
      m.phase.isSettled = false ∧ m'.file = m.file ∧ m'.parent = m.parent := by
  have hon : ∀ {i m}, s.Top i m → m.phase.isSettled = false := fun htop =>
    Line.unsettled_of_onStack (hl.onStack_of_top htop)
  cases hmove with
  | cached top _ _ _ _ => exact ⟨_, _, _, top.2, .inl rfl, hon top, rfl, rfl⟩
  | loads top _ _ at_import miss =>
    exact ⟨_, _, _, top.2, .inr ⟨_, miss, mem_of_getElem? at_import, rfl⟩, hon top, rfl, rfl⟩
  | passes top _ _ _ => exact ⟨_, _, _, top.2, .inl rfl, hon top, rfl, rfl⟩
  | waits top _ _ _ => exact ⟨_, _, _, top.2, .inl rfl, hon top, rfl, rfl⟩
  | yields top _ _ _ => exact ⟨_, _, _, top.2, .inl rfl, hon top, rfl, rfl⟩
  | awaits top _ _ _ => exact ⟨_, _, _, top.2, .inl rfl, hon top, rfl, rfl⟩
  | ends top _ _ _ =>
    unfold Loader.bodyEnds
    split <;> exact ⟨_, _, _, top.2, .inl rfl, hon top, rfl, rfl⟩
  | throws top _ =>
    unfold Loader.bodyThrows
    split <;> exact ⟨_, _, _, top.2, .inl rfl, hon top, rfl, rfl⟩
  | continues _ found suspended _ =>
    exact ⟨_, _, _, found, .inl rfl, by rw [suspended]; rfl, rfl, rfl⟩
  | rejects _ found suspended _ =>
    exact ⟨_, _, _, found, .inl rfl, by rw [suspended]; rfl, rfl, rfl⟩
  | @reacts i m ok _ found ended =>
    cases ok <;> exact ⟨_, _, _, found, .inl rfl, by rw [ended]; rfl, rfl, rfl⟩

theorem Move.keeps (hl : Line s) (hmove : Move program s a t) : Keeps s t := by
  obtain ⟨i, m, m', hm, hmodules | ⟨file, -, -, hmodules⟩, hphase, hfile, hparent⟩ :=
    hmove.acts hl
  · exact .of_set hm hmodules hfile hparent hphase
  · intro k n hn
    have hset : Keeps s (s.setModule i m') := .of_set hm rfl hfile hparent hphase
    obtain ⟨n', hn', hkept⟩ := hset k n hn
    refine ⟨n', ?_, hkept⟩
    have hn'' : (s.modules.set i m')[k]? = some n' := hn'
    rw [hmodules, List.getElem?_append_left (List.getElem?_eq_some_iff.1 hn'').1]
    exact hn''

theorem Line.failing_of_throws {kind : BodyKind} (hl : Line s) (htop : s.Top i m)
    (hhead : s.line.head? = some i) : Failing (s.bodyThrows i m kind) := by
  unfold Loader.bodyThrows
  split
  · exact .of_set htop.2 rfl (Line.unsettled_of_onStack (hl.onStack_of_top htop)) hhead rfl
  · exact .inl rfl

omit [DecidableEq File] in
theorem failing_of_rejects {what : Awaited} (hm : s.modules[i]? = some m)
    (hphase : m.phase = .awaits what) (hhead : s.line.head? = some i) :
    Failing (s.continueBody i m false) :=
  .of_set hm rfl (by rw [hphase]; rfl) hhead rfl

theorem Line.failing_of_reacts (hl : Line s) (hidle : s.stack = [])
    (hm : s.modules[i]? = some m) (hhead : s.line.head? = some i) :
    Failing (s.settle i m false) := by
  obtain ⟨rest, hline⟩ := head?_eq_some_iff.1 hhead
  exact .of_drop hl hline hidle hm rfl rfl

theorem Failing.move (h : Failing s) (hl : Line s) (hmove : Move program s a t) :
    Failing t := by
  cases hmove with
  | cached top calm runs _ _ =>
    rcases h.head_phase calm (hl.head_of_top_runs top runs) top.2 with hp | ⟨_, _, hp, _⟩ <;>
      rw [runs] at hp <;> cases hp
  | loads top calm runs _ _ =>
    rcases h.head_phase calm (hl.head_of_top_runs top runs) top.2 with hp | ⟨_, _, hp, _⟩ <;>
      rw [runs] at hp <;> cases hp
  | passes top calm marked read =>
    rcases h.head_phase calm (hl.head_of_top_read top marked read) top.2 with
      hp | ⟨_, _, hp, _⟩ <;> rw [marked] at hp <;> cases hp
  | @waits i m j top calm marked read =>
    rcases h with hthrows | hline | ⟨q, n, hhead, hn, hphase⟩
    · rw [calm] at hthrows
      cases hthrows
    · have hmem := hl.mem_of_top top
      rw [hline] at hmem
      cases hmem
    · have hqi : q ≠ i := by
        rintro rfl
        cases hn.symm.trans top.2
        rcases hphase with hp | ⟨_, _, hp, _⟩ <;> rw [marked] at hp <;> cases hp
      have hkeeps : Keeps s (s.suspend i m (.body j)) :=
        .of_set top.2 rfl rfl rfl (Line.unsettled_of_onStack (hl.onStack_of_top top))
      have hline : (s.suspend i m (.body j)).line = s.line :=
        Loader.line_set top.2 rfl (by rw [marked]; rfl)
      have hq := getElem?_set_of_ne (t := s.suspend i m (.body j)) rfl q hqi
      refine .inr (.inr ⟨q, n, hline ▸ hhead, hq.trans hn, ?_⟩)
      refine hphase.imp_right ?_
      rintro ⟨k, p, hp, hk, hfailed⟩
      obtain ⟨p', hk', -, -, heq⟩ := hkeeps k p hk
      rw [heq (by rw [hfailed]; rfl)] at hk'
      exact ⟨k, p, hp, hk', hfailed⟩
  | yields top calm marked read =>
    rcases h.head_phase calm (hl.head_of_top_read top marked read) top.2 with
      hp | ⟨_, _, hp, _⟩ <;> rw [marked] at hp <;> cases hp
  | awaits top calm runs _ =>
    rcases h.head_phase calm (hl.head_of_top_runs top runs) top.2 with hp | ⟨_, _, hp, _⟩ <;>
      rw [runs] at hp <;> cases hp
  | ends top calm runs _ =>
    rcases h.head_phase calm (hl.head_of_top_runs top runs) top.2 with hp | ⟨_, _, hp, _⟩ <;>
      rw [runs] at hp <;> cases hp
  | throws top throws => exact hl.failing_of_throws top (hl.head_of_throws top throws)
  | continues idle found suspended outcome =>
    have hhead := hl.head_of_outcome found suspended outcome
    rcases h.head_phase (hl.calm_of_idle idle hhead) hhead found with
      hp | ⟨j, n, hp, hj, hfailed⟩ <;> rw [suspended] at hp <;> cases hp
    rcases outcome with hown | houtcome
    · cases hown
    · simp [Loader.outcome, hj, hfailed] at houtcome
  | rejects idle found suspended outcome =>
    exact failing_of_rejects found suspended
      (hl.head_of_outcome found suspended (outcome.imp_left And.left))
  | @reacts i m ok idle found ended =>
    have hhead := hl.head_of_ended found ended
    cases ok with
    | true =>
      rcases h.head_phase (hl.calm_of_idle idle hhead) hhead found with
        hp | ⟨_, _, hp, _⟩ <;> rw [ended] at hp <;> cases hp
    | false => exact hl.failing_of_reacts idle found hhead

/-- A step by which a module may fail leaves its importers to fail. -/
theorem FailsOn.move (h : FailsOn s) (hl : Line s) (hmove : Move program s a t) :
    FailsOn t := by
  by_cases hfailed : ∃ (k : ℕ) (n : Module File), s.modules[k]? = some n ∧
      n.phase = .settled false
  · obtain ⟨k, n, hn, hphase⟩ := hfailed
    exact fun _ _ _ _ => (h k n hn hphase).move hl hmove
  · have hset : ∀ {i : ℕ} {m' : Module File} {t : Loader File},
        t.modules = s.modules.set i m' → m'.phase ≠ .settled false → FailsOn t := by
      intro i m' t hmodules hm' k n hn hphase
      rw [hmodules, List.getElem?_set] at hn
      split at hn
      · split at hn <;> cases hn
        exact absurd hphase hm'
      · exact absurd ⟨k, n, hn, hphase⟩ hfailed
    cases hmove with
    | cached => exact hset rfl Phase.noConfusion
    | @loads i m file =>
      intro k n hn hphase
      rw [Loader.loadModule, getElem?_append, List.getElem?_set,
        getElem?_singleton] at hn
      split at hn <;> split at hn
      · split at hn <;> cases hn
        cases hphase
      · exact absurd ⟨k, n, hn, hphase⟩ hfailed
      · cases hn
        cases hphase
      · cases hn
    | passes | waits | yields | awaits => exact hset rfl Phase.noConfusion
    | ends =>
      unfold Loader.bodyEnds
      split <;> exact hset rfl (by simp)
    | throws top throws =>
      exact fun _ _ _ _ => hl.failing_of_throws top (hl.head_of_throws top throws)
    | continues => exact hset rfl Phase.noConfusion
    | rejects => exact hset rfl (by simp)
    | @reacts i m ok idle found ended =>
      cases ok with
      | true => exact hset rfl (by simp)
      | false =>
        exact fun _ _ _ _ => hl.failing_of_reacts idle found (hl.head_of_ended found ended)

end Step

end ModuleLoader

end Tabnode

/-!
## The cache and the children

The cache names, for each file it has, the one module of that file, and has every module
that has not failed. While nothing has failed a miss therefore means that the file was
never loaded, and after a failure nothing is loaded any more: a file is loaded once. A
module is among the children of its parent at most, and only as long as it has not failed.
-/

namespace Tabnode

namespace ModuleLoader

variable {File : Type*} {program : File → Source File} {s t : Loader File} {a : Action}
  {i j k : ℕ} {m m' n : Module File}

/-- The cache has the modules that have not failed, and no file has two modules. -/
structure Cached (s : Loader File) : Prop where
  hit : ∀ (file : File) (j : ℕ), s.moduleCache file = some j →
    ∃ n, s.modules[j]? = some n ∧ n.file = file ∧ n.phase ≠ .settled false
  kept : ∀ (i : ℕ) (m : Module File), s.modules[i]? = some m → m.phase ≠ .settled false →
    s.moduleCache m.file = some i
  unique : ∀ (i j : ℕ) (m n : Module File), s.modules[i]? = some m → s.modules[j]? = some n →
    m.file = n.file → i = j

/-- A child is a module of that parent which has not failed, and is listed once. -/
structure Listed (s : Loader File) : Prop where
  child : ∀ (p i : ℕ), i ∈ s.children p →
    ∃ m, s.modules[i]? = some m ∧ m.parent = some p ∧ m.phase ≠ .settled false
  nodup : ∀ p, (s.children p).Nodup

theorem getElem?_set_cases (hmodules : t.modules = s.modules.set i m')
    (hn : t.modules[k]? = some n) : k = i ∧ n = m' ∨ k ≠ i ∧ s.modules[k]? = some n := by
  rw [hmodules, List.getElem?_set] at hn
  split at hn
  · rename_i hik
    split at hn <;> cases hn
    exact .inl ⟨hik.symm, rfl⟩
  · rename_i hik
    exact .inr ⟨Ne.symm hik, hn⟩

theorem Cached.unique_of_set (h : Cached s) (hm : s.modules[i]? = some m)
    (hmodules : t.modules = s.modules.set i m') (hfile : m'.file = m.file) (j k : ℕ)
    (n p : Module File) (hn : t.modules[j]? = some n) (hp : t.modules[k]? = some p)
    (heq : n.file = p.file) : j = k := by
  rcases getElem?_set_cases hmodules hn with ⟨rfl, rfl⟩ | ⟨-, hn⟩ <;>
    rcases getElem?_set_cases hmodules hp with ⟨rfl, rfl⟩ | ⟨-, hp⟩
  · rfl
  · exact h.unique _ _ m p hm hp (hfile ▸ heq)
  · exact h.unique _ _ n m hn hm (heq.trans hfile)
  · exact h.unique _ _ n p hn hp heq

theorem Cached.of_set (h : Cached s) (hm : s.modules[i]? = some m)
    (hmodules : t.modules = s.modules.set i m') (hcache : t.moduleCache = s.moduleCache)
    (hfile : m'.file = m.file) (hphase : m.phase.isSettled = false)
    (hphase' : m'.phase ≠ .settled false) : Cached t where
  hit := by
    intro file j hj
    rw [hcache] at hj
    obtain ⟨n, hn, hnfile, hnphase⟩ := h.hit file j hj
    by_cases hji : j = i
    · subst hji
      cases hm.symm.trans hn
      exact ⟨m', getElem?_set_eq hm hmodules, hfile.trans hnfile, hphase'⟩
    · exact ⟨n, (getElem?_set_of_ne hmodules j hji).trans hn, hnfile, hnphase⟩
  kept := by
    intro k n hn hnphase
    rw [hcache]
    rcases getElem?_set_cases hmodules hn with ⟨rfl, rfl⟩ | ⟨-, hn⟩
    · rw [hfile]
      apply h.kept k m hm
      intro hfailed
      rw [hfailed] at hphase
      cases hphase
    · exact h.kept k n hn hnphase
  unique := h.unique_of_set hm hmodules hfile

theorem Listed.of_set (h : Listed s) (hm : s.modules[i]? = some m)
    (hmodules : t.modules = s.modules.set i m') (hchildren : t.children = s.children)
    (hparent : m'.parent = m.parent) (hphase' : m'.phase ≠ .settled false) : Listed t where
  child := by
    intro p k hk
    rw [hchildren] at hk
    obtain ⟨n, hn, hnparent, hnphase⟩ := h.child p k hk
    by_cases hki : k = i
    · subst hki
      cases hm.symm.trans hn
      exact ⟨m', getElem?_set_eq hm hmodules, hparent.trans hnparent, hphase'⟩
    · exact ⟨n, (getElem?_set_of_ne hmodules k hki).trans hn, hnparent, hnphase⟩
  nodup := hchildren ▸ h.nodup

variable [DecidableEq File]

theorem Cached.forget (h : Cached s) (hm : s.modules[i]? = some m)
    (hmodules : t.modules = s.modules.set i m')
    (hcache : t.moduleCache = Function.update s.moduleCache m.file none)
    (hfile : m'.file = m.file) (hphase' : m'.phase = .settled false) : Cached t where
  hit := by
    intro file j hj
    by_cases hf : file = m.file
    · rw [hcache, hf, Function.update_self] at hj
      cases hj
    · rw [hcache, Function.update_of_ne hf] at hj
      obtain ⟨n, hn, hnfile, hnphase⟩ := h.hit file j hj
      have hji : j ≠ i := by
        rintro rfl
        cases hm.symm.trans hn
        exact hf hnfile.symm
      exact ⟨n, (getElem?_set_of_ne hmodules j hji).trans hn, hnfile, hnphase⟩
  kept := by
    intro k n hn hnphase
    rcases getElem?_set_cases hmodules hn with ⟨rfl, rfl⟩ | ⟨hki, hn⟩
    · exact absurd hphase' hnphase
    · have hf : n.file ≠ m.file := fun heq => hki (h.unique k i n m hn hm heq)
      rw [hcache, Function.update_of_ne hf]
      exact h.kept k n hn hnphase
  unique := h.unique_of_set hm hmodules hfile

omit [DecidableEq File] in
theorem Listed.forget (h : Listed s) (hm : s.modules[i]? = some m)
    (hmodules : t.modules = s.modules.set i m') (hchildren : t.children = s.withoutChild i m) :
    Listed t := by
  have hmem : ∀ p k, k ∈ t.children p → k ∈ s.children p ∧ k ≠ i := by
    intro p k hk
    rw [hchildren, Loader.withoutChild_apply] at hk
    split at hk
    · exact ⟨List.mem_of_mem_erase hk, ((h.nodup p).mem_erase_iff.1 hk).1⟩
    · rename_i hparent
      refine ⟨hk, ?_⟩
      rintro rfl
      obtain ⟨n, hn, hnparent, -⟩ := h.child p k hk
      cases hm.symm.trans hn
      exact hparent hnparent
  refine ⟨fun p k hk => ?_, fun p => ?_⟩
  · obtain ⟨hk, hki⟩ := hmem p k hk
    obtain ⟨n, hn, hn'⟩ := h.child p k hk
    exact ⟨n, (getElem?_set_of_ne hmodules k hki).trans hn, hn'⟩
  · rw [hchildren, Loader.withoutChild_apply]
    split
    · exact (h.nodup p).erase i
    · exact h.nodup p

/-- A file the cache does not have is loaded while nothing has failed. -/
theorem Cached.loads {file : File} (h : Cached s) (hm : s.modules[i]? = some m)
    (hphase : m.phase = .runs)
    (hsound : ∀ (k : ℕ) (n : Module File), s.modules[k]? = some n → n.phase ≠ .settled false)
    (hmiss : s.moduleCache file = none) : Cached (s.loadModule i m file) := by
  have hset : Cached (s.setModule i { m with phase := .atMark s.modules.length }) :=
    h.of_set hm rfl rfl rfl (by rw [hphase]; rfl) Phase.noConfusion
  have hnew : ∀ (k : ℕ) (n : Module File),
      (s.setModule i { m with phase := .atMark s.modules.length }).modules[k]? = some n →
      n.file ≠ file := by
    rintro k n hn rfl
    have hkept : s.moduleCache n.file = some k := by
      refine hset.kept k n hn ?_
      rcases getElem?_set_cases (s := s) rfl hn with ⟨-, rfl⟩ | ⟨-, hn⟩
      · exact Phase.noConfusion
      · exact hsound k n hn
    rw [hmiss] at hkept
    cases hkept
  refine ⟨fun f j hj => ?_, fun k n hn hnphase => ?_, fun j k n p hn hp heq => ?_⟩
  · rw [Loader.loadModule_moduleCache] at hj
    split at hj
    · rename_i hf
      cases hj
      exact ⟨_, s.loadModule_getElem?_length i m file, hf.symm, Phase.noConfusion⟩
    · obtain ⟨n, hn, hn'⟩ := hset.hit f j hj
      exact ⟨n, s.loadModule_getElem?_of_setModule i m file hn, hn'⟩
  · rw [Loader.loadModule_moduleCache]
    rcases s.loadModule_getElem?_cases i m file hn with ⟨rfl, rfl⟩ | hn
    · exact if_pos rfl
    · rw [if_neg (hnew k n hn)]
      exact hset.kept k n hn hnphase
  · rcases s.loadModule_getElem?_cases i m file hn with ⟨rfl, rfl⟩ | hn <;>
      rcases s.loadModule_getElem?_cases i m file hp with ⟨rfl, rfl⟩ | hp
    · rfl
    · exact absurd heq.symm (hnew k p hp)
    · exact absurd heq (hnew j n hn)
    · exact hset.unique j k n p hn hp heq

theorem Listed.loads {file : File} (h : Listed s) (hm : s.modules[i]? = some m) :
    Listed (s.loadModule i m file) := by
  have hset : Listed (s.setModule i { m with phase := .atMark s.modules.length }) :=
    h.of_set hm rfl rfl rfl Phase.noConfusion
  have hold : ∀ p k, k ∈ s.children p → ∃ n, (s.loadModule i m file).modules[k]? = some n ∧
      n.parent = some p ∧ n.phase ≠ .settled false := by
    intro p k hk
    obtain ⟨n, hn, hn'⟩ := hset.child p k hk
    exact ⟨n, s.loadModule_getElem?_of_setModule i m file hn, hn'⟩
  have hnew : s.modules.length ∉ s.children i := by
    intro hi
    obtain ⟨n, hn, -⟩ := h.child i _ hi
    exact absurd (List.getElem?_eq_some_iff.1 hn).1 (Nat.lt_irrefl _)
  refine ⟨fun p k hk => ?_, fun p => ?_⟩
  · rw [Loader.loadModule_children] at hk
    split at hk
    · rename_i hp
      rcases List.mem_append.1 hk with hk | hk
      · exact hold p k (hp ▸ hk)
      · rw [List.mem_singleton.1 hk]
        exact ⟨_, s.loadModule_getElem?_length i m file, congrArg some hp.symm, Phase.noConfusion⟩
    · exact hold p k hk
  · rw [Loader.loadModule_children]
    split
    · rw [← List.concat_eq_append]
      exact (h.nodup i).concat hnew
    · exact h.nodup p

theorem Cached.move (h : Cached s) (hl : Line s) (hf : FailsOn s)
    (hmove : Move program s a t) : Cached t := by
  have hon : ∀ {i m}, s.Top i m → m.phase.isSettled = false := fun htop =>
    Line.unsettled_of_onStack (hl.onStack_of_top htop)
  cases hmove with
  | cached top _ _ _ _ => exact h.of_set top.2 rfl rfl rfl (hon top) Phase.noConfusion
  | @loads i m file top calm runs _ miss =>
    refine h.loads top.2 runs (fun k n hn hfailed => ?_) miss
    rcases (hf k n hn hfailed).head_phase calm (hl.head_of_top_runs top runs) top.2 with
      hp | ⟨_, _, hp, _⟩ <;> rw [runs] at hp <;> cases hp
  | passes top _ _ _ => exact h.of_set top.2 rfl rfl rfl (hon top) Phase.noConfusion
  | waits top _ _ _ => exact h.of_set top.2 rfl rfl rfl (hon top) Phase.noConfusion
  | yields top _ _ _ => exact h.of_set top.2 rfl rfl rfl (hon top) Phase.noConfusion
  | awaits top _ _ _ => exact h.of_set top.2 rfl rfl rfl (hon top) Phase.noConfusion
  | ends top _ _ _ =>
    unfold Loader.bodyEnds
    split <;> exact h.of_set top.2 rfl rfl rfl (hon top) (by simp)
  | throws top _ =>
    unfold Loader.bodyThrows
    split
    · exact h.of_set top.2 rfl rfl rfl (hon top) (by simp)
    · exact h.forget top.2 rfl rfl rfl rfl
  | continues _ found suspended _ =>
    exact h.of_set found rfl rfl rfl (by rw [suspended]; rfl) Phase.noConfusion
  | rejects _ found suspended _ =>
    exact h.of_set found rfl rfl rfl (by rw [suspended]; rfl) (by simp)
  | @reacts i m ok _ found ended =>
    cases ok with
    | true => exact h.of_set found rfl rfl rfl (by rw [ended]; rfl) (by simp)
    | false =>
      have hkept : s.moduleCache m.file = some i :=
        h.kept i m found (by rw [ended]; exact Phase.noConfusion)
      exact h.forget found rfl (if_pos hkept) rfl rfl

theorem Listed.move (h : Listed s) (hmove : Move program s a t) : Listed t := by
  cases hmove with
  | cached top _ _ _ _ => exact h.of_set top.2 rfl rfl rfl Phase.noConfusion
  | loads top _ _ _ _ => exact h.loads top.2
  | passes top _ _ _ => exact h.of_set top.2 rfl rfl rfl Phase.noConfusion
  | waits top _ _ _ => exact h.of_set top.2 rfl rfl rfl Phase.noConfusion
  | yields top _ _ _ => exact h.of_set top.2 rfl rfl rfl Phase.noConfusion
  | awaits top _ _ _ => exact h.of_set top.2 rfl rfl rfl Phase.noConfusion
  | ends top _ _ _ =>
    unfold Loader.bodyEnds
    split <;> exact h.of_set top.2 rfl rfl rfl (by simp)
  | throws top _ =>
    unfold Loader.bodyThrows
    split
    · exact h.of_set top.2 rfl rfl rfl (by simp)
    · exact h.forget top.2 rfl rfl
  | continues _ found _ _ => exact h.of_set found rfl rfl rfl Phase.noConfusion
  | rejects _ found _ _ => exact h.of_set found rfl rfl rfl (by simp)
  | @reacts i m ok _ found _ =>
    cases ok with
    | true => exact h.of_set found rfl rfl rfl (by simp)
    | false => exact h.forget found rfl rfl

end ModuleLoader

end Tabnode
