import Mathlib.Data.List.Chain
import Mathlib.Data.List.Nodup
import Tabnode.ModuleLoader.Loader

/-!
# What a step of the loader does

`Move` lists what any step can do to the state, with what it found there. Every step is
one of them (`move_of_step`), given that a module at the mark behind an import stands at
that import in its body (`AtImports`), which the moves keep.
-/

namespace Tabnode

namespace ModuleLoader

open Option

variable {File : Type*}

def Phase.onStack : Phase → Bool
  | .runs => true
  | .atMark _ => true
  | _ => false

def Phase.isSettled : Phase → Bool
  | .settled _ => true
  | _ => false

/-- The module waits for another, in the `require` of it or at its promise. -/
def Phase.waitsFor (phase : Phase) (j : ℕ) : Prop :=
  phase = .atMark j ∨ phase = .awaits (.body j)

def AtImports (program : File → Source File) (s : Loader File) : Prop :=
  ∀ (i : ℕ) (m : Module File) (j : ℕ), s.modules[i]? = some m → m.phase.waitsFor j →
    ∃ n, s.modules[j]? = some n ∧
      (program m.file).body[m.position]? = some (.importFrom n.file)

variable [DecidableEq File]

def Loader.Top (s : Loader File) (i : ℕ) (m : Module File) : Prop :=
  s.stack.head? = some i ∧ s.modules[i]? = some m

/-- A body throws here: by a statement of its own or out of a `require`. -/
def Loader.Throws (program : File → Source File) (s : Loader File) (m : Module File) : Prop :=
  s.throwing = true ∨
    m.phase = .runs ∧ (program m.file).body[m.position]? = some .throws

/-- The steps of the loader, by what they do. -/
inductive Move (program : File → Source File) (s : Loader File) : Action → Loader File → Prop
  | cached {i m file j} (top : s.Top i m) (calm : s.throwing = false) (runs : m.phase = .runs)
      (at_import : (program m.file).body[m.position]? = some (.importFrom file))
      (hit : s.moduleCache file = some j) :
      Move program s .run (s.setModule i { m with phase := .atMark j })
  | loads {i m file} (top : s.Top i m) (calm : s.throwing = false) (runs : m.phase = .runs)
      (at_import : (program m.file).body[m.position]? = some (.importFrom file))
      (miss : s.moduleCache file = none) :
      Move program s .run (s.loadModule i m file)
  | passes {i m j} (top : s.Top i m) (calm : s.throwing = false) (marked : m.phase = .atMark j)
      (read : s.pendingOf j = false) :
      Move program s .run (s.goOn i m)
  | waits {i m j} (top : s.Top i m) (calm : s.throwing = false) (marked : m.phase = .atMark j)
      (read : s.pendingOf j = true) :
      Move program s .run (s.suspend i m (.body j))
  | yields {i m j} (top : s.Top i m) (calm : s.throwing = false) (marked : m.phase = .atMark j)
      (read : s.pendingOf j = false) :
      Move program s .run (s.suspend i m .nothing)
  | awaits {i m} (top : s.Top i m) (calm : s.throwing = false) (runs : m.phase = .runs)
      (at_await : (program m.file).body[m.position]? = some .awaits) :
      Move program s .run (s.suspend i m .own)
  | ends {i m} (top : s.Top i m) (calm : s.throwing = false) (runs : m.phase = .runs)
      (at_end : (program m.file).body[m.position]? = none) :
      Move program s .run (s.bodyEnds i m)
  | throws {i m} (top : s.Top i m) (throws : s.Throws program m) :
      Move program s .run (s.bodyThrows i m (program m.file).bodyKind)
  | continues {a i m what} (idle : s.stack = []) (found : s.modules[i]? = some m)
      (suspended : m.phase = .awaits what)
      (outcome : what = .own ∨ s.outcome what = some true) :
      Move program s a (s.continueBody i m true)
  | rejects {a i m what} (idle : s.stack = []) (found : s.modules[i]? = some m)
      (suspended : m.phase = .awaits what)
      (outcome : what = .own ∧ a = .settleOwn i false ∨ s.outcome what = some false) :
      Move program s a (s.continueBody i m false)
  | reacts {i m ok} (idle : s.stack = []) (found : s.modules[i]? = some m)
      (ended : m.phase = .ended ok) :
      Move program s (.react i) (s.settle i m ok)

variable {program : File → Source File} {s t : Loader File} {a : Action}

theorem move_of_runBody {i : ℕ} {m : Module File} (hs : AtImports program s) (htop : s.Top i m)
    (h : s.runBody i m (program m.file) = some t) : Move program s .run t := by
  unfold Loader.runBody at h
  split at h
  · rename_i hthrowing
    cases h
    exact .throws htop (.inl hthrowing)
  · rename_i hthrowing
    have hcalm : s.throwing = false := by simpa using hthrowing
    split at h
    · rename_i hruns
      split at h <;> rename_i hat <;> cases h
      · exact .ends htop hcalm hruns hat
      · rename_i file
        unfold Loader.requireFile
        split
        · rename_i hhit
          exact .cached htop hcalm hruns hat hhit
        · rename_i hmiss
          exact .loads htop hcalm hruns hat hmiss
      · exact .awaits htop hcalm hruns hat
      · exact .throws htop (.inr ⟨hruns, hat⟩)
    · rename_i j hmarked
      cases h
      obtain ⟨n, -, hat⟩ := hs i m j htop.2 (.inl hmarked)
      have hkind := Source.bodyKind_ne_sync hat
      unfold Loader.importMark
      split
      · contradiction
      · split <;> rename_i hread
        · exact .waits htop hcalm hmarked hread
        · exact .passes htop hcalm hmarked (by simpa using hread)
      · split <;> rename_i hread
        · exact .waits htop hcalm hmarked hread
        · exact .yields htop hcalm hmarked (by simpa using hread)
    · cases h

theorem move_of_step (hs : AtImports program s) (h : step program s a = some t) :
    Move program s a t := by
  cases a with
  | run =>
    simp only [step] at h
    split at h
    · cases h
    · rename_i i rest hstack
      obtain ⟨m, hm, hrun⟩ := bind_eq_some_iff.1 h
      exact move_of_runBody hs ⟨by rw [hstack, List.head?_cons], hm⟩ hrun
  | settleOwn i ok =>
    simp only [step] at h
    split at h
    · rename_i hidle
      obtain ⟨m, hm, hown⟩ := bind_eq_some_iff.1 h
      split at hown
      · rename_i hphase
        cases hown
        cases ok with
        | true => exact .continues hidle hm hphase (.inl rfl)
        | false => exact .rejects hidle hm hphase (.inl ⟨rfl, rfl⟩)
      · cases hown
    · cases h
  | resume i =>
    simp only [step] at h
    split at h
    · rename_i hidle
      obtain ⟨m, hm, hresume⟩ := bind_eq_some_iff.1 h
      split at hresume
      · rename_i what hphase
        obtain ⟨ok, hok, rfl⟩ := map_eq_some_iff.1 hresume
        cases ok with
        | true => exact .continues hidle hm hphase (.inr hok)
        | false => exact .rejects hidle hm hphase (.inr hok)
      · cases hresume
    · cases h
  | react i =>
    simp only [step] at h
    split at h
    · rename_i hidle
      obtain ⟨m, hm, hreact⟩ := bind_eq_some_iff.1 h
      split at hreact
      · rename_i ok hphase
        cases hreact
        exact .reacts hidle hm hphase
      · cases hreact
    · cases h

end ModuleLoader

end Tabnode

/-!
## The line of unsettled modules

The modules that are not settled stand in one line, the latest first. Each waits for the one before it, in
its `require` or at its promise; the bodies the engine is running are some of them in the
same order; and all the others carry their mark. So only the first of the line can be
about to do something of its own. Each step keeps this: it changes a module in place, takes
the first of the line out, or puts a new one before it.
-/

namespace Tabnode

namespace ModuleLoader

/-- In a chain, whatever is not first stands right behind something. -/
theorem eq_head_or_exists_of_isChain {α : Type*} {R : α → α → Prop} {l : List α}
    (h : l.IsChain R) {a : α} (ha : a ∈ l) :
    l.head? = some a ∨ ∃ before c after, l = before ++ c :: a :: after ∧ R c a := by
  obtain ⟨before, after, rfl⟩ := List.append_of_mem ha
  rcases List.eq_nil_or_concat before with rfl | ⟨front, c, rfl⟩
  · exact .inl rfl
  · rw [List.concat_eq_append, List.append_assoc] at h ⊢
    refine .inr ⟨front, c, after, rfl, ?_⟩
    exact (List.isChain_cons_cons.1 h.right_of_append).1

/-- What a list takes from behind its first element, it takes from behind that element. -/
theorem tail_sublist_of_sublist {α : Type*} {l before after : List α} {a : α}
    (h : (a :: l).Sublist (before ++ a :: after)) (ha : a ∉ before) : l.Sublist after := by
  induction before with
  | nil => exact List.cons_sublist_cons.1 h
  | cons b before ih =>
    rw [List.cons_append] at h
    have hab : a ≠ b := fun hab => ha (by simp [hab])
    cases h with
    | cons _ h => exact ih h fun hmem => ha (List.mem_cons_of_mem b hmem)
    | cons_cons _ h => exact absurd rfl hab

variable {File : Type*}

def Loader.unsettled (s : Loader File) (i : ℕ) : Bool :=
  match s.modules[i]? with
  | some m => !m.phase.isSettled
  | none => false

def Loader.line (s : Loader File) : List ℕ :=
  ((List.range s.modules.length).filter s.unsettled).reverse

/-- A module that waits for another, which carries its mark if it waits at its promise. -/
def Loader.Waits (s : Loader File) (c p : ℕ) : Prop :=
  ∃ m, s.modules[p]? = some m ∧
    (m.phase = .atMark c ∨ m.phase = .awaits (.body c) ∧ s.pendingOf c = true)

/-- The unsettled modules wait for one another in a line, and those that run are some of
it in its order. -/
structure Line (s : Loader File) : Prop where
  linked : s.line.IsChain s.Waits
  stack_sublist : s.stack.Sublist s.line
  mem_stack : ∀ (i : ℕ) (m : Module File), s.modules[i]? = some m →
    (i ∈ s.stack ↔ m.phase.onStack = true)
  unmarked : ∀ (i : ℕ) (m : Module File), s.modules[i]? = some m →
    m.phase.isSettled = true → m.pending = false
  marked : ∀ (i : ℕ) (m : Module File), s.modules[i]? = some m →
    m.phase.isSettled = false → m.phase.onStack = false → m.pending = true
  throwing_head : s.throwing = true → s.stack.head? = s.line.head?

section

variable {s t : Loader File} {rest : List ℕ} {i c p : ℕ} {m m' n : Module File}

theorem Loader.unsettled_eq (h : s.modules[i]? = some m) :
    s.unsettled i = !m.phase.isSettled := by
  simp [Loader.unsettled, h]

theorem Loader.pendingOf_eq (h : s.modules[i]? = some m) : s.pendingOf i = m.pending := by
  simp [Loader.pendingOf, h]

theorem Loader.mem_line_iff : i ∈ s.line ↔ s.unsettled i = true := by
  unfold Loader.line
  rw [List.mem_reverse, List.mem_filter, List.mem_range, and_iff_right_iff_imp]
  intro h
  by_contra hlength
  simp [Loader.unsettled, List.getElem?_eq_none (Nat.le_of_not_lt hlength)] at h

theorem Loader.mem_line (h : s.modules[i]? = some m) (hphase : m.phase.isSettled = false) :
    i ∈ s.line := by
  rw [Loader.mem_line_iff, Loader.unsettled_eq h, hphase]
  rfl

theorem Loader.exists_of_mem_line (h : i ∈ s.line) :
    ∃ m, s.modules[i]? = some m ∧ m.phase.isSettled = false := by
  rw [Loader.mem_line_iff] at h
  unfold Loader.unsettled at h
  split at h
  · rename_i m hm
    exact ⟨m, hm, by simpa using h⟩
  · cases h

theorem Loader.nodup_line (s : Loader File) : s.line.Nodup :=
  List.nodup_reverse.2 (List.nodup_range.filter _)

theorem getElem?_set_eq (hm : s.modules[i]? = some m)
    (hmodules : t.modules = s.modules.set i m') : t.modules[i]? = some m' := by
  rw [hmodules, List.getElem?_set_self (List.getElem?_eq_some_iff.1 hm).1]

theorem getElem?_set_of_ne (hmodules : t.modules = s.modules.set i m') (k : ℕ) (hk : k ≠ i) :
    t.modules[k]? = s.modules[k]? := by
  rw [hmodules, List.getElem?_set_ne hk.symm]

theorem Loader.line_set (hm : s.modules[i]? = some m)
    (hmodules : t.modules = s.modules.set i m')
    (hphase : m'.phase.isSettled = m.phase.isSettled) : t.line = s.line := by
  unfold Loader.line
  rw [hmodules, List.length_set]
  congr 2
  funext k
  by_cases hk : k = i
  · subst hk
    rw [Loader.unsettled_eq hm, Loader.unsettled_eq (getElem?_set_eq hm hmodules), hphase]
  · unfold Loader.unsettled
    rw [getElem?_set_of_ne hmodules k hk]

theorem Loader.line_drop (hline : s.line = i :: rest) (hm : s.modules[i]? = some m)
    (hmodules : t.modules = s.modules.set i m') (hphase : m'.phase.isSettled = true) :
    t.line = rest := by
  have hfilter : t.line = s.line.filter fun k => k ≠ i := by
    unfold Loader.line
    rw [hmodules, List.length_set, List.filter_reverse, List.filter_filter]
    congr 2
    funext k
    by_cases hk : k = i
    · subst hk
      rw [Loader.unsettled_eq (getElem?_set_eq hm hmodules), hphase]
      simp
    · unfold Loader.unsettled
      rw [getElem?_set_of_ne hmodules k hk]
      simp [hk]
  have hnodup : (i :: rest).Nodup := hline ▸ s.nodup_line
  rw [hfilter, hline, List.filter_cons_of_neg (by simp), List.filter_eq_self]
  intro k hk
  have hki : k ≠ i := fun hki => (List.nodup_cons.1 hnodup).1 (hki ▸ hk)
  simpa using hki

theorem Loader.Waits.waitsFor (h : s.Waits c p) (hm : s.modules[p]? = some m) :
    m.phase.waitsFor c := by
  obtain ⟨n, hn, hphase⟩ := h
  cases hm.symm.trans hn
  exact hphase.imp_right And.left

end

theorem Phase.waitsFor_unique {phase : Phase} {j k : ℕ} (hj : phase.waitsFor j)
    (hk : phase.waitsFor k) : j = k := by
  rcases hj with rfl | rfl <;> rcases hk with hk | hk <;> cases hk <;> rfl

namespace Line

variable {s t : Loader File} {rest : List ℕ} {i j : ℕ} {m m' : Module File}

theorem mem_of_top (h : Line s) (htop : s.Top i m) : i ∈ s.line :=
  h.stack_sublist.subset (List.mem_of_mem_head? htop.1)

theorem onStack_of_top (h : Line s) (htop : s.Top i m) : m.phase.onStack = true :=
  (h.mem_stack i m htop.2).1 (List.mem_of_mem_head? htop.1)

theorem pendingOf_of_not_mem_stack (h : Line s) (hi : i ∈ s.line) (hstack : i ∉ s.stack) :
    s.pendingOf i = true := by
  obtain ⟨m, hm, hsettled⟩ := Loader.exists_of_mem_line hi
  rw [Loader.pendingOf_eq hm]
  apply h.marked i m hm hsettled
  rw [← Bool.not_eq_true, ← h.mem_stack i m hm]
  exact hstack

theorem mem_of_pendingOf (h : Line s) (hi : s.pendingOf i = true) : i ∈ s.line := by
  unfold Loader.pendingOf at hi
  split at hi
  · rename_i m hm
    apply Loader.mem_line hm
    by_contra hsettled
    rw [h.unmarked i m hm (by simpa using hsettled)] at hi
    cases hi
  · cases hi

theorem head_of_not_waitsFor (h : Line s) (hi : i ∈ s.line) (hm : s.modules[i]? = some m)
    (hwaits : ∀ c ∈ s.line, ¬ m.phase.waitsFor c) : s.line.head? = some i := by
  rcases eq_head_or_exists_of_isChain h.linked hi with hhead | ⟨before, c, after, hline, hc⟩
  · exact hhead
  · exact absurd (hc.waitsFor hm) (hwaits c (by simp [hline]))

/-- The innermost running body is the first of the line, or waits for a module that
carries its mark. -/
theorem head_or_pendingOf_of_top (h : Line s) (htop : s.Top i m) :
    s.line.head? = some i ∨ ∃ c, m.phase.waitsFor c ∧ s.pendingOf c = true := by
  rcases eq_head_or_exists_of_isChain h.linked (h.mem_of_top htop) with
    hhead | ⟨before, c, after, hline, hc⟩
  · exact .inl hhead
  · refine .inr ⟨c, hc.waitsFor htop.2, ?_⟩
    apply h.pendingOf_of_not_mem_stack (by simp [hline])
    obtain ⟨below, hstack⟩ := List.head?_eq_some_iff.1 htop.1
    have hline' : s.line = (before ++ [c]) ++ i :: after := by simp [hline]
    have hnodup := s.nodup_line
    have hsub := h.stack_sublist
    rw [hstack, hline'] at hsub
    rw [hline'] at hnodup
    have hfront : i ∉ before ++ [c] := fun hmem =>
      List.disjoint_of_nodup_append hnodup hmem List.mem_cons_self
    have hbelow := tail_sublist_of_sublist hsub hfront
    rw [hstack]
    intro hmem
    have hafter : c ∈ i :: after := by
      rcases List.mem_cons.1 hmem with rfl | hmem
      · exact List.mem_cons_self
      · exact List.mem_cons_of_mem i (hbelow.subset hmem)
    exact List.disjoint_of_nodup_append hnodup (by simp) hafter

theorem head_of_top_runs (h : Line s) (htop : s.Top i m) (hruns : m.phase = .runs) :
    s.line.head? = some i := by
  apply h.head_of_not_waitsFor (h.mem_of_top htop) htop.2
  simp [Phase.waitsFor, hruns]

theorem head_of_top_read (h : Line s) (htop : s.Top i m) (hmark : m.phase = .atMark j)
    (hread : s.pendingOf j = false) : s.line.head? = some i := by
  rcases h.head_or_pendingOf_of_top htop with hhead | ⟨c, hc, hpending⟩
  · exact hhead
  · cases Phase.waitsFor_unique hc (.inl hmark)
    rw [hread] at hpending
    cases hpending

/-! ### What the steps do to the line -/

theorem set (h : Line s) (hm : s.modules[i]? = some m)
    (hmodules : t.modules = s.modules.set i m') (hmem : m.phase.isSettled = false)
    (hmem' : m'.phase.isSettled = false) (hpending : m.pending = true → m'.pending = true)
    (hmarked : m'.phase.onStack = false → m'.pending = true)
    (hlinks : s.line.head? = some i ∨ ∀ c, s.Waits c i → t.Waits c i)
    (hsub : t.stack.Sublist s.line) (hstack : ∀ k ≠ i, (k ∈ t.stack ↔ k ∈ s.stack))
    (hstack' : i ∈ t.stack ↔ m'.phase.onStack = true)
    (hthrowing : t.throwing = true → t.stack.head? = s.line.head?) : Line t := by
  have hself := getElem?_set_eq hm hmodules
  have hother := getElem?_set_of_ne hmodules
  have hline : t.line = s.line := Loader.line_set hm hmodules (hmem'.trans hmem.symm)
  have hmarks : ∀ k, s.pendingOf k = true → t.pendingOf k = true := by
    intro k hk
    by_cases hki : k = i
    · subst hki
      rw [Loader.pendingOf_eq hself]
      rw [Loader.pendingOf_eq hm] at hk
      exact hpending hk
    · unfold Loader.pendingOf at hk ⊢
      rw [hother k hki]
      exact hk
  refine {
    linked := ?_
    stack_sublist := hline ▸ hsub
    mem_stack := ?_
    unmarked := ?_
    marked := ?_
    throwing_head := hline ▸ hthrowing }
  · rw [hline]
    refine h.linked.imp_of_mem_tail_imp fun c p _ hp hwaits => ?_
    by_cases hpi : p = i
    · subst hpi
      rcases hlinks with hhead | hlinks
      · obtain ⟨tail, htail⟩ := List.head?_eq_some_iff.1 hhead
        have hnodup := s.nodup_line
        rw [htail] at hp hnodup
        exact absurd hp (List.nodup_cons.1 hnodup).1
      · exact hlinks c hwaits
    · obtain ⟨n, hn, hphase⟩ := hwaits
      exact ⟨n, (hother p hpi).trans hn, hphase.imp_right (And.imp_right (hmarks c))⟩
  · intro k n hn
    by_cases hki : k = i
    · subst hki
      cases hself.symm.trans hn
      exact hstack'
    · rw [hstack k hki]
      exact h.mem_stack k n ((hother k hki).symm.trans hn)
  · intro k n hn hsettled
    by_cases hki : k = i
    · subst hki
      cases hself.symm.trans hn
      rw [hmem'] at hsettled
      cases hsettled
    · exact h.unmarked k n ((hother k hki).symm.trans hn) hsettled
  · intro k n hn hsettled hoff
    by_cases hki : k = i
    · subst hki
      cases hself.symm.trans hn
      exact hmarked hoff
    · exact h.marked k n ((hother k hki).symm.trans hn) hsettled hoff

theorem drop (h : Line s) (hline : s.line = i :: rest) (hm : s.modules[i]? = some m)
    (hmodules : t.modules = s.modules.set i m') (hsettled : m'.phase.isSettled = true)
    (hpending : m'.pending = false) (hsub : t.stack.Sublist rest)
    (hstack : ∀ k ≠ i, (k ∈ t.stack ↔ k ∈ s.stack))
    (hthrowing : t.throwing = true → m.pending = false) : Line t := by
  have hself := getElem?_set_eq hm hmodules
  have hother := getElem?_set_of_ne hmodules
  have hrest : t.line = rest := Loader.line_drop hline hm hmodules hsettled
  have hnodup := List.nodup_cons.1 (hline ▸ s.nodup_line)
  have hne : ∀ k ∈ rest, k ≠ i := fun k hk hki => hnodup.1 (hki ▸ hk)
  have hlinked := hline ▸ h.linked
  have hoff : m'.phase.onStack = false := by
    cases hphase : m'.phase <;> simp [hphase, Phase.isSettled] at hsettled ⊢
    rfl
  refine {
    linked := ?_
    stack_sublist := hrest ▸ hsub
    mem_stack := ?_
    unmarked := ?_
    marked := ?_
    throwing_head := ?_ }
  · rw [hrest]
    refine hlinked.tail.imp_of_mem_imp fun c p hc hp hwaits => ?_
    obtain ⟨n, hn, hphase⟩ := hwaits
    refine ⟨n, (hother p (hne p hp)).trans hn, hphase.imp_right (And.imp_right ?_)⟩
    intro hmark
    unfold Loader.pendingOf at hmark ⊢
    rw [hother c (hne c hc)]
    exact hmark
  · intro k n hn
    by_cases hki : k = i
    · subst hki
      cases hself.symm.trans hn
      rw [hoff]
      exact iff_of_false (fun hk => hnodup.1 (hsub.subset hk)) Bool.false_ne_true
    · rw [hstack k hki]
      exact h.mem_stack k n ((hother k hki).symm.trans hn)
  · intro k n hn hphase
    by_cases hki : k = i
    · subst hki
      cases hself.symm.trans hn
      exact hpending
    · exact h.unmarked k n ((hother k hki).symm.trans hn) hphase
  · intro k n hn hphase
    by_cases hki : k = i
    · subst hki
      cases hself.symm.trans hn
      rw [hsettled] at hphase
      cases hphase
    · exact h.marked k n ((hother k hki).symm.trans hn) hphase
  · intro hthrows
    rw [hrest]
    cases rest with
    | nil => rw [List.sublist_nil.1 hsub]
    | cons q below =>
      -- the module behind has no promise to wait at: it is in its `require`
      obtain ⟨n, hn, hphase⟩ := (List.isChain_cons_cons.1 hlinked).1
      have hmark : n.phase = .atMark i := by
        rcases hphase with hphase | ⟨-, hpend⟩
        · exact hphase
        · rw [Loader.pendingOf_eq hm, hthrowing hthrows] at hpend
          cases hpend
      have hq : q ∈ t.stack := by
        rw [hstack q (hne q List.mem_cons_self), h.mem_stack q n hn, hmark]
        rfl
      generalize t.stack = l at hq hsub
      cases hsub with
      | cons _ hsub => exact absurd (hsub.subset hq) (List.nodup_cons.1 hnodup.2).1
      | cons_cons _ _ => rfl

end Line

end ModuleLoader

end Tabnode
