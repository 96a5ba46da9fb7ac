import Tabnode.ModuleLoader.Cache

/-!
# Where a module stands in its body

A module that waits for another stands at its import of that module, one that is through
has no statement left, and each import a module has gone past was of a module that had
settled or that leads back to it. The last is where the line is used: an import goes past
an unmarked module only, and an unmarked module that is not settled is running further out.
-/

namespace Tabnode

namespace ModuleLoader

open List

variable {File : Type*} {program : File → Source File} {s t : Loader File} {a : Action}
  {i j : ℕ} {m m' n : Module File}

def Module.statement (program : File → Source File) (m : Module File) :
    Option (Statement File) :=
  (program m.file).body[m.position]?

def Past (program : File → Source File) (s : Loader File) (importer imported : File) : Prop :=
  ∃ (j : ℕ) (n : Module File), s.modules[j]? = some n ∧ n.file = imported ∧
    (n.phase = .settled true ∨ OnCycle program importer imported)

def Module.StandsAt (program : File → Source File) (s : Loader File) (m : Module File) : Prop :=
  match m.phase with
  | .runs => True
  | .atMark j => ∃ n, s.modules[j]? = some n ∧ m.statement program = some (.importFrom n.file)
  | .awaits (.body j) =>
    ∃ n, s.modules[j]? = some n ∧ m.statement program = some (.importFrom n.file)
  | .awaits .own => m.statement program = some .awaits
  | .awaits .nothing =>
    ∃ file, m.statement program = some (.importFrom file) ∧ Past program s m.file file
  | .ended true => m.statement program = none
  | .settled true => m.statement program = none ∧ m.loaded = true
  | .ended false => True
  | .settled false => True

/-- A module stands where its phase says, and its position is one of its body. -/
structure Module.Stands (program : File → Source File) (s : Loader File) (m : Module File) :
    Prop where
  at_statement : m.StandsAt program s
  position_le : m.position ≤ (program m.file).body.length
  passed : ∀ file, .importFrom file ∈ (program m.file).body.take m.position →
    Past program s m.file file

def AllStand (program : File → Source File) (s : Loader File) : Prop :=
  ∀ (i : ℕ) (m : Module File), s.modules[i]? = some m → m.Stands program s

/-! ## The standing of one module -/

theorem Past.mono {importer imported : File} (hk : Keeps s t)
    (h : Past program s importer imported) : Past program t importer imported := by
  obtain ⟨j, n, hn, hfile, hpast⟩ := h
  obtain ⟨n', hn', hfile', -, hsettled⟩ := hk j n hn
  refine ⟨j, n', hn', hfile'.trans hfile, hpast.imp_left fun hphase => ?_⟩
  rw [hsettled (by rw [hphase]; rfl), hphase]

theorem Module.StandsAt.import_of (h : m.StandsAt program s) (hj : m.phase.waitsFor j) :
    ∃ n, s.modules[j]? = some n ∧ m.statement program = some (.importFrom n.file) := by
  rcases hj with hj | hj <;> simpa [Module.StandsAt, hj] using h

/-- What its phase says of the module at its import stays true of it. -/
theorem exists_import_mono {j : ℕ} {statement : Option (Statement File)} (hk : Keeps s t)
    (h : ∃ n, s.modules[j]? = some n ∧ statement = some (.importFrom n.file)) :
    ∃ n, t.modules[j]? = some n ∧ statement = some (.importFrom n.file) := by
  obtain ⟨n, hn, hat⟩ := h
  obtain ⟨n', hn', hfile, -, -⟩ := hk j n hn
  exact ⟨n', hn', hfile ▸ hat⟩

theorem Module.StandsAt.mono (hk : Keeps s t) (h : m.StandsAt program s) :
    m.StandsAt program t := by
  unfold Module.StandsAt at h ⊢
  split
  · trivial
  · rename_i hphase
    rw [hphase] at h
    exact exists_import_mono hk h
  · rename_i hphase
    rw [hphase] at h
    exact exists_import_mono hk h
  · rename_i hphase
    rw [hphase] at h
    exact h
  · rename_i hphase
    rw [hphase] at h
    obtain ⟨file, hat, hpast⟩ := h
    exact ⟨file, hat, hpast.mono hk⟩
  · rename_i hphase
    rw [hphase] at h
    exact h
  · rename_i hphase
    rw [hphase] at h
    exact h
  · trivial
  · trivial

namespace Module.Stands

theorem mono (h : m.Stands program s) (hk : Keeps s t) : m.Stands program t where
  at_statement := h.at_statement.mono hk
  position_le := h.position_le
  passed := fun file hfile => (h.passed file hfile).mono hk

theorem rephase (h : m.Stands program s) (hk : Keeps s t) (hfile : m'.file = m.file)
    (hposition : m'.position = m.position) (hat : m'.StandsAt program t) :
    m'.Stands program t where
  at_statement := hat
  position_le := by
    rw [hfile, hposition]
    exact h.position_le
  passed := by
    rw [hfile, hposition]
    exact fun file hmem => (h.passed file hmem).mono hk

theorem advance {statement : Statement File} (h : m.Stands program s) (hk : Keeps s t)
    (hat : m.statement program = some statement)
    (hpast : ∀ file, statement = .importFrom file → Past program s m.file file) :
    ({ m with phase := .runs, position := m.position + 1 } : Module File).Stands program t where
  at_statement := trivial
  position_le := (List.getElem?_eq_some_iff.1 hat).1
  passed := by
    intro file hfile
    have hat' : (program m.file).body[m.position]? = some statement := hat
    rw [take_add_one, hat', mem_append] at hfile
    rcases hfile with hfile | hfile
    · exact (h.passed file hfile).mono hk
    · exact (hpast file (mem_singleton.1 hfile).symm).mono hk

end Module.Stands

theorem AllStand.atImports (h : AllStand program s) : AtImports program s :=
  fun i m _ hm hj => (h i m hm).at_statement.import_of hj

theorem AllStand.of_set (h : AllStand program s) (hk : Keeps s t)
    (hmodules : t.modules = s.modules.set i m') (hself : m'.Stands program t) :
    AllStand program t := by
  intro k n hn
  rw [hmodules, getElem?_set] at hn
  split at hn
  · split at hn <;> cases hn
    exact hself
  · exact (h k n hn).mono hk

/-! ## Along the line -/

def Leads (program : File → Source File) (s : Loader File) (c p : ℕ) : Prop :=
  ∃ (n m : Module File), s.modules[c]? = some n ∧ s.modules[p]? = some m ∧
    Reaches program m.file n.file

theorem Leads.trans {c p q : ℕ} (h : Leads program s c p) (h' : Leads program s p q) :
    Leads program s c q := by
  obtain ⟨n, m, hn, hm, hnm⟩ := h
  obtain ⟨m', r, hm', hr, hmr⟩ := h'
  cases hm.symm.trans hm'
  exact ⟨n, r, hn, hr, hmr.trans hnm⟩

instance : Trans (Leads program s) (Leads program s) (Leads program s) :=
  ⟨Leads.trans⟩

theorem Line.pairwise_leads (hl : Line s) (hs : AllStand program s) :
    s.line.Pairwise (Leads program s) := by
  apply List.IsChain.pairwise
  refine hl.linked.imp fun c p hwaits => ?_
  obtain ⟨m, hm, -⟩ := id hwaits
  obtain ⟨n, hn, hat⟩ := (hs p m hm).at_statement.import_of (hwaits.waitsFor hm)
  exact ⟨n, m, hn, hm, .single (mem_of_getElem? hat)⟩

theorem reaches_of_pairwise {l : List ℕ} (h : l.Pairwise (Leads program s))
    (hi : l.head? = some i) (hm : s.modules[i]? = some m) (hj : j ∈ l)
    (hn : s.modules[j]? = some n) : Reaches program n.file m.file := by
  obtain ⟨below, rfl⟩ := head?_eq_some_iff.1 hi
  rcases mem_cons.1 hj with rfl | hj
  · cases hm.symm.trans hn
    exact .refl
  · obtain ⟨m', n', hm', hn', hreaches⟩ := rel_of_pairwise_cons h hj
    cases hm.symm.trans hm'
    cases hn.symm.trans hn'
    exact hreaches

theorem Line.reaches_top (hl : Line s) (hs : AllStand program s) (htop : s.Top i m)
    (hj : j ∈ s.stack) (hn : s.modules[j]? = some n) : Reaches program n.file m.file :=
  reaches_of_pairwise ((hl.pairwise_leads hs).sublist hl.stack_sublist) htop.1 htop.2 hj hn

/-- The module whose mark is read as unset has settled, or leads back to its importer. -/
theorem Line.past_of_read (hl : Line s) (hs : AllStand program s) (hf : FailsOn s)
    (htop : s.Top i m) (hcalm : s.throwing = false) (hmark : m.phase = .atMark j)
    (hread : s.pendingOf j = false) :
    ∃ n, s.modules[j]? = some n ∧ m.statement program = some (.importFrom n.file) ∧
      Past program s m.file n.file := by
  obtain ⟨n, hn, hat⟩ := (hs i m htop.2).at_statement.import_of (.inl hmark)
  refine ⟨n, hn, hat, j, n, hn, rfl, ?_⟩
  cases hsettled : n.phase.isSettled with
  | true =>
    cases hphase : n.phase with
    | settled ok =>
      cases ok with
      | true => exact .inl rfl
      | false =>
        rcases (hf j n hn hphase).head_phase hcalm (hl.head_of_top_read htop hmark hread) htop.2
          with hp | ⟨_, _, hp, _⟩ <;> rw [hmark] at hp <;> cases hp
    | _ => simp [hphase, Phase.isSettled] at hsettled
  | false =>
    have hstack : j ∈ s.stack := by
      by_contra hstack
      rw [hl.pendingOf_of_not_mem_stack (Loader.mem_line hn hsettled) hstack] at hread
      cases hread
    exact .inr ⟨mem_of_getElem? hat, hl.reaches_top hs htop hstack hn⟩

variable [DecidableEq File]

theorem AllStand.move (hs : AllStand program s) (hl : Line s) (hf : FailsOn s) (hc : Cached s)
    (hmove : Move program s a t) : AllStand program t := by
  have hk := hmove.keeps hl
  cases hmove with
  | @cached i m file j top calm runs at_import hit =>
    refine hs.of_set hk rfl ((hs i m top.2).rephase hk rfl rfl (exists_import_mono hk ?_))
    obtain ⟨n, hn, rfl, -⟩ := hc.hit file j hit
    exact ⟨n, hn, at_import⟩
  | @loads i m file top calm runs at_import miss =>
    intro k n hn
    rcases s.loadModule_getElem?_cases i m file hn with ⟨-, rfl⟩ | hn
    · exact ⟨trivial, Nat.zero_le _, by simp⟩
    · rcases getElem?_set_cases (s := s) rfl hn with ⟨-, rfl⟩ | ⟨-, hn⟩
      · exact (hs i m top.2).rephase hk rfl rfl
          ⟨_, s.loadModule_getElem?_length i m file, at_import⟩
      · exact (hs k n hn).mono hk
  | @passes i m j top calm marked read =>
    obtain ⟨n, -, hat, hpast⟩ := hl.past_of_read hs hf top calm marked read
    refine hs.of_set hk rfl ((hs i m top.2).advance hk hat ?_)
    rintro file ⟨⟩
    exact hpast
  | @waits i m j top calm marked read =>
    refine hs.of_set hk rfl ((hs i m top.2).rephase hk rfl rfl ?_)
    exact exists_import_mono hk ((hs i m top.2).at_statement.import_of (.inl marked))
  | @yields i m j top calm marked read =>
    obtain ⟨n, -, hat, hpast⟩ := hl.past_of_read hs hf top calm marked read
    exact hs.of_set hk rfl ((hs i m top.2).rephase hk rfl rfl ⟨n.file, hat, hpast.mono hk⟩)
  | @awaits i m top calm runs at_await =>
    exact hs.of_set hk rfl ((hs i m top.2).rephase hk rfl rfl at_await)
  | @ends i m top calm runs at_end =>
    unfold Loader.bodyEnds at hk ⊢
    split at hk
    · rename_i hpending
      rw [if_pos hpending]
      exact hs.of_set hk rfl ((hs i m top.2).rephase hk rfl rfl at_end)
    · rename_i hpending
      rw [if_neg hpending]
      exact hs.of_set hk rfl ((hs i m top.2).rephase hk rfl rfl ⟨at_end, rfl⟩)
  | @throws i m top throws =>
    unfold Loader.bodyThrows at hk ⊢
    split at hk
    · rename_i hrejects
      rw [if_pos hrejects]
      exact hs.of_set hk rfl ((hs i m top.2).rephase hk rfl rfl trivial)
    · rename_i hrejects
      rw [if_neg hrejects]
      exact hs.of_set hk rfl ((hs i m top.2).rephase hk rfl rfl trivial)
  | @continues _ i m what idle found suspended outcome =>
    have hat := (hs i m found).at_statement
    rw [Module.StandsAt, suspended] at hat
    cases what with
    | own => exact hs.of_set hk rfl ((hs i m found).advance hk hat (by rintro file ⟨⟩))
    | nothing =>
      obtain ⟨file, hat, hpast⟩ := hat
      refine hs.of_set hk rfl ((hs i m found).advance hk hat ?_)
      rintro file ⟨⟩
      exact hpast
    | body j =>
      obtain ⟨n, hn, hat⟩ := hat
      refine hs.of_set hk rfl ((hs i m found).advance hk hat ?_)
      rintro file ⟨⟩
      refine ⟨j, n, hn, rfl, .inl ?_⟩
      rcases outcome with hown | houtcome
      · cases hown
      · exact s.settled_of_outcome hn houtcome
  | @rejects _ i m what idle found suspended outcome =>
    exact hs.of_set hk rfl ((hs i m found).rephase hk rfl rfl trivial)
  | @reacts i m ok idle found ended =>
    have hat := (hs i m found).at_statement
    cases ok with
    | true =>
      rw [Module.StandsAt, ended] at hat
      exact hs.of_set hk rfl ((hs i m found).rephase hk rfl rfl ⟨hat, rfl⟩)
    | false => exact hs.of_set hk rfl ((hs i m found).rephase hk rfl rfl trivial)

end ModuleLoader

end Tabnode
