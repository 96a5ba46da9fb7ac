import Tabnode.ModuleLoader.Line

/-!
# The line is kept

Every step keeps the line. What a load puts on it is first; what is settled was first; and
every other step changes one module of it in place.
-/

namespace Tabnode

namespace ModuleLoader

open List

variable {File : Type*} {program : File → Source File} {s t : Loader File} {a : Action}
  {i j : ℕ} {m m' : Module File}

theorem Loader.line_push (hmodules : t.modules = s.modules ++ [m'])
    (hphase : m'.phase.isSettled = false) : t.line = s.modules.length :: s.line := by
  have hself : t.modules[s.modules.length]? = some m' := by
    rw [hmodules, getElem?_concat_length]
  have hother : ∀ k < s.modules.length, t.unsettled k = s.unsettled k := by
    intro k hk
    unfold Loader.unsettled
    rw [hmodules, List.getElem?_append_left hk]
  unfold Loader.line
  rw [hmodules, length_append, length_singleton, range_succ, filter_append,
    reverse_append, filter_singleton, Loader.unsettled_eq hself, hphase]
  have hrange : (List.range s.modules.length).filter t.unsettled =
      (List.range s.modules.length).filter s.unsettled :=
    filter_congr fun k hk => hother k (mem_range.1 hk)
  rw [hrange]
  rfl

theorem Loader.line_loadModule [DecidableEq File] {file : File} (hm : s.modules[i]? = some m)
    (hphase : m.phase.isSettled = false) :
    (s.loadModule i m file).line = s.modules.length :: s.line := by
  have hlength : (s.setModule i { m with phase := .atMark s.modules.length }).modules.length =
      s.modules.length := length_set
  have hline : (s.setModule i { m with phase := .atMark s.modules.length }).line = s.line :=
    Loader.line_set hm rfl hphase.symm
  rw [Loader.line_push (s.loadModule_modules i m file) rfl, hline, hlength]

namespace Line

theorem push (h : Line s) (hmodules : t.modules = s.modules ++ [m']) (hruns : m'.phase = .runs)
    (hhead : ∀ p ∈ s.line.head?, ∃ m, s.modules[p]? = some m ∧
      m.phase = .atMark s.modules.length)
    (hstack : t.stack = s.modules.length :: s.stack) (hcalm : t.throwing = false) : Line t := by
  have hself : t.modules[s.modules.length]? = some m' := by
    rw [hmodules, getElem?_concat_length]
  have hother : ∀ (k : ℕ) (n : Module File), s.modules[k]? = some n →
      t.modules[k]? = some n := by
    intro k n hn
    rw [hmodules, List.getElem?_append_left (List.getElem?_eq_some_iff.1 hn).1]
    exact hn
  have hcases : ∀ (k : ℕ) (n : Module File), t.modules[k]? = some n →
      k = s.modules.length ∧ n = m' ∨ k ≠ s.modules.length ∧ s.modules[k]? = some n := by
    intro k n hn
    rw [hmodules, getElem?_append] at hn
    split at hn
    · rename_i hk
      exact .inr ⟨hk.ne, hn⟩
    · rename_i hk
      rw [getElem?_singleton] at hn
      split at hn <;> cases hn
      exact .inl ⟨by omega, rfl⟩
  have hline : t.line = s.modules.length :: s.line :=
    Loader.line_push hmodules (by rw [hruns]; rfl)
  refine {
    linked := ?_
    stack_sublist := ?_
    mem_stack := ?_
    unmarked := ?_
    marked := ?_
    throwing_head := ?_ }
  · rw [hline, isChain_cons]
    refine ⟨fun p hp => ?_, h.linked.imp fun c p hwaits => ?_⟩
    · obtain ⟨m, hm, hphase⟩ := hhead p hp
      exact ⟨m, hother p m hm, .inl hphase⟩
    · obtain ⟨n, hn, hphase⟩ := hwaits
      refine ⟨n, hother p n hn, hphase.imp_right (And.imp_right fun hmark => ?_)⟩
      unfold Loader.pendingOf at hmark ⊢
      split at hmark
      · rename_i q hq
        rw [hother c q hq]
        exact hmark
      · cases hmark
  · rw [hline, hstack]
    exact h.stack_sublist.cons_cons _
  · intro k n hn
    rw [hstack]
    rcases hcases k n hn with ⟨rfl, rfl⟩ | ⟨hk, hn⟩
    · simp [hruns, Phase.onStack]
    · rw [mem_cons, or_iff_right hk]
      exact h.mem_stack k n hn
  · intro k n hn hsettled
    rcases hcases k n hn with ⟨rfl, rfl⟩ | ⟨-, hn⟩
    · rw [hruns] at hsettled
      cases hsettled
    · exact h.unmarked k n hn hsettled
  · intro k n hn hsettled hoff
    rcases hcases k n hn with ⟨rfl, rfl⟩ | ⟨-, hn⟩
    · rw [hruns] at hoff
      cases hoff
    · exact h.marked k n hn hsettled hoff
  · intro hthrows
    rw [hcalm] at hthrows
    cases hthrows

theorem not_mem_tail (h : Line s) (htop : s.Top i m) : i ∉ s.stack.tail := by
  obtain ⟨below, hstack⟩ := head?_eq_some_iff.1 htop.1
  have hnodup := h.stack_sublist.nodup s.nodup_line
  rw [hstack] at hnodup ⊢
  exact (nodup_cons.1 hnodup).1

/-- The first of the line, if it is running, is the innermost running body. -/
theorem eq_top_of_head (h : Line s) (htop : s.Top i m) (hhead : s.line.head? = some j)
    (hj : j ∈ s.stack) : j = i := by
  obtain ⟨below, hstack⟩ := head?_eq_some_iff.1 htop.1
  obtain ⟨rest, hline⟩ := head?_eq_some_iff.1 hhead
  have hsub := h.stack_sublist
  have hnodup := s.nodup_line
  rw [hstack] at hj hsub
  rw [hline] at hsub hnodup
  cases hsub with
  | cons _ hsub => exact absurd (hsub.subset hj) (nodup_cons.1 hnodup).1
  | cons_cons _ _ => rfl

theorem mem_tail_iff (htop : s.Top i m) (k : ℕ) (hk : k ≠ i) :
    k ∈ s.stack.tail ↔ k ∈ s.stack := by
  obtain ⟨below, hstack⟩ := head?_eq_some_iff.1 htop.1
  rw [hstack, tail_cons, mem_cons, or_iff_right hk]

theorem unsettled_of_onStack {phase : Phase} (h : phase.onStack = true) :
    phase.isSettled = false := by
  cases phase <;> first | rfl | cases h

theorem keep (h : Line s) (htop : s.Top i m) (hhead : s.line.head? = some i) (hphase : m'.phase.onStack = true)
    (hpending : m'.pending = m.pending) : Line (s.setModule i m') := by
  refine h.set htop.2 rfl (unsettled_of_onStack (h.onStack_of_top htop))
    (unsettled_of_onStack hphase) ?_ ?_ (.inl hhead) h.stack_sublist (fun _ _ => Iff.rfl) ?_ ?_
  · exact hpending ▸ id
  · intro hoff
    rw [hphase] at hoff
    cases hoff
  · exact iff_of_true (mem_of_mem_head? htop.1) hphase
  · intro hthrows
    exact h.throwing_head hthrows

/-- The running body stops, with its promise kept, and stays on the line. -/
theorem stop (h : Line s) (htop : s.Top i m) (hmodules : t.modules = s.modules.set i m')
    (hstack : t.stack = s.stack.tail) (hcalm : t.throwing = false)
    (hsettled : m'.phase.isSettled = false) (hoff : m'.phase.onStack = false)
    (hpending : m'.pending = true)
    (hlinks : s.line.head? = some i ∨ ∀ c, s.Waits c i → t.Waits c i) : Line t := by
  refine h.set htop.2 hmodules (unsettled_of_onStack (h.onStack_of_top htop)) hsettled
    (fun _ => hpending) (fun _ => hpending) hlinks ?_ ?_ ?_ ?_
  · rw [hstack]
    exact (tail_sublist s.stack).trans h.stack_sublist
  · rw [hstack]
    exact mem_tail_iff htop
  · rw [hstack, hoff]
    exact iff_of_false (h.not_mem_tail htop) Bool.false_ne_true
  · rw [hcalm]
    exact fun hthrows => absurd hthrows Bool.false_ne_true

theorem leave (h : Line s) (htop : s.Top i m) (hhead : s.line.head? = some i)
    (hmodules : t.modules = s.modules.set i m') (hstack : t.stack = s.stack.tail)
    (hsettled : m'.phase.isSettled = true) (hload : m.pending = false)
    (hpending : m'.pending = false) : Line t := by
  obtain ⟨rest, hline⟩ := head?_eq_some_iff.1 hhead
  refine h.drop hline htop.2 hmodules hsettled hpending ?_ ?_ (fun _ => hload)
  · obtain ⟨below, hbelow⟩ := head?_eq_some_iff.1 htop.1
    have hsub := h.stack_sublist
    rw [hbelow, hline] at hsub
    rw [hstack, hbelow]
    exact cons_sublist_cons.1 hsub
  · rw [hstack]
    exact mem_tail_iff htop

theorem head_of_throws (h : Line s) (htop : s.Top i m) (hthrows : s.Throws program m) :
    s.line.head? = some i := by
  rcases hthrows with hthrowing | ⟨hruns, -⟩
  · rw [← h.throwing_head hthrowing]
    exact htop.1
  · exact h.head_of_top_runs htop hruns

/-- A body whose awaited promise is settled is the first of the line. -/
theorem head_of_outcome (h : Line s) {what : Awaited} {ok : Bool} (hm : s.modules[i]? = some m)
    (hphase : m.phase = .awaits what) (houtcome : what = .own ∨ s.outcome what = some ok) :
    s.line.head? = some i := by
  refine h.head_of_not_waitsFor (Loader.mem_line hm (by rw [hphase]; rfl)) hm ?_
  rintro c hc (hwaits | hwaits) <;> rw [hphase] at hwaits <;> cases hwaits
  obtain ⟨n, hn, hsettled⟩ := Loader.exists_of_mem_line hc
  rcases houtcome with hown | houtcome
  · cases hown
  · rw [s.settled_of_outcome hn houtcome] at hsettled
    cases hsettled

theorem head_of_ended (h : Line s) {ok : Bool} (hm : s.modules[i]? = some m)
    (hphase : m.phase = .ended ok) : s.line.head? = some i := by
  refine h.head_of_not_waitsFor (Loader.mem_line hm (by rw [hphase]; rfl)) hm ?_
  rintro c - (hwaits | hwaits) <;> rw [hphase] at hwaits <;> cases hwaits

theorem loads [DecidableEq File] {file : File} (h : Line s) (htop : s.Top i m)
    (hcalm : s.throwing = false) (hhead : s.line.head? = some i) :
    Line (s.loadModule i m file) := by
  have hset : Line (s.setModule i { m with phase := .atMark s.modules.length }) :=
    h.keep htop hhead rfl rfl
  have hlength : (s.setModule i { m with phase := .atMark s.modules.length }).modules.length =
      s.modules.length := length_set
  have hline : (s.setModule i { m with phase := .atMark s.modules.length }).line = s.line :=
    Loader.line_set htop.2 rfl (unsettled_of_onStack (h.onStack_of_top htop)).symm
  refine hset.push (s.loadModule_modules i m file) rfl ?_ ?_ hcalm
  · intro p hp
    rw [hline, hhead] at hp
    cases hp
    exact ⟨_, getElem?_set_eq htop.2 rfl, by rw [hlength]⟩
  · rw [hlength]
    rfl

theorem bodyEnds (h : Line s) (htop : s.Top i m) (hcalm : s.throwing = false)
    (hhead : s.line.head? = some i) : Line (s.bodyEnds i m) := by
  unfold Loader.bodyEnds
  split
  · rename_i hpending
    exact h.stop htop rfl rfl hcalm rfl rfl hpending (.inl hhead)
  · rename_i hpending
    have hload : m.pending = false := by simpa using hpending
    exact h.leave htop hhead rfl rfl rfl hload hload

theorem bodyThrows [DecidableEq File] {kind : BodyKind} (h : Line s) (htop : s.Top i m)
    (hhead : s.line.head? = some i) : Line (s.bodyThrows i m kind) := by
  unfold Loader.bodyThrows
  split
  · exact h.stop htop rfl rfl rfl rfl rfl rfl (.inl hhead)
  · rename_i hload
    have hload : m.pending = false := by simpa using fun hpending => hload (.inl hpending)
    exact h.leave htop hhead rfl rfl rfl hload hload

theorem calm_of_idle (h : Line s) (hidle : s.stack = []) (hhead : s.line.head? = some i) :
    s.throwing = false := by
  by_contra hthrows
  have hempty := h.throwing_head (by simpa using hthrows)
  rw [hidle, hhead] at hempty
  cases hempty

theorem continueBody {ok : Bool} (h : Line s) (hidle : s.stack = [])
    (hm : s.modules[i]? = some m) (hsettled : m.phase.isSettled = false)
    (hoff : m.phase.onStack = false) (hhead : s.line.head? = some i) :
    Line (s.continueBody i m ok) := by
  have hpending := h.marked i m hm hsettled hoff
  have hcalm := h.calm_of_idle hidle hhead
  cases ok with
  | true =>
    refine h.set hm rfl hsettled rfl id (fun _ => hpending) (.inl hhead) ?_ ?_ ?_ ?_
    · exact singleton_sublist.2 (mem_of_mem_head? hhead)
    · intro k hk
      simp [Loader.continueBody, hidle, hk]
    · simp [Loader.continueBody, Loader.goOn, Phase.onStack]
    · intro _
      exact hhead.symm
  | false =>
    refine h.set hm rfl hsettled rfl id (fun _ => hpending) (.inl hhead) ?_ ?_ ?_ ?_
    · exact h.stack_sublist
    · exact fun k _ => Iff.rfl
    · simp [Loader.continueBody, Loader.setModule, hidle, Phase.onStack]
    · intro hthrows
      exact h.throwing_head hthrows

theorem settle [DecidableEq File] {ok : Bool} (h : Line s) (hidle : s.stack = [])
    (hm : s.modules[i]? = some m) (hhead : s.line.head? = some i) :
    Line (s.settle i m ok) := by
  obtain ⟨rest, hline⟩ := head?_eq_some_iff.1 hhead
  have hcalm := h.calm_of_idle hidle hhead
  cases ok <;>
  · refine h.drop hline hm rfl rfl rfl ?_ (fun _ _ => Iff.rfl) ?_
    · change s.stack.Sublist rest
      rw [hidle]
      exact nil_sublist rest
    · intro hthrows
      rw [← Bool.not_eq_true] at hcalm
      exact absurd hthrows hcalm

theorem move [DecidableEq File] (h : Line s) (hmove : Move program s a t) : Line t := by
  cases hmove with
  | cached top calm runs _ _ => exact h.keep top (h.head_of_top_runs top runs) rfl rfl
  | loads top calm runs _ _ => exact h.loads top calm (h.head_of_top_runs top runs)
  | passes top calm marked read => exact h.keep top (h.head_of_top_read top marked read) rfl rfl
  | @waits i m j top calm marked read =>
    refine h.stop top rfl rfl calm rfl rfl rfl (.inr fun c hc => ?_)
    cases Phase.waitsFor_unique (.inl marked) (hc.waitsFor top.2)
    refine ⟨_, getElem?_set_eq top.2 rfl, .inr ⟨rfl, ?_⟩⟩
    by_cases hji : j = i
    · subst hji
      have hself := getElem?_set_eq (t := s.suspend j m (.body j)) top.2 rfl
      rw [Loader.pendingOf_eq hself]
    · have hother := getElem?_set_of_ne (t := s.suspend i m (.body j)) rfl j hji
      unfold Loader.pendingOf at read ⊢
      rw [hother]
      exact read
  | yields top calm marked read =>
    exact h.stop top rfl rfl calm rfl rfl rfl (.inl (h.head_of_top_read top marked read))
  | awaits top calm runs _ =>
    exact h.stop top rfl rfl calm rfl rfl rfl (.inl (h.head_of_top_runs top runs))
  | ends top calm runs _ => exact h.bodyEnds top calm (h.head_of_top_runs top runs)
  | throws top throws => exact h.bodyThrows top (h.head_of_throws top throws)
  | continues idle found suspended outcome =>
    exact h.continueBody idle found (by rw [suspended]; rfl) (by rw [suspended]; rfl)
      (h.head_of_outcome found suspended outcome)
  | rejects idle found suspended outcome =>
    exact h.continueBody idle found (by rw [suspended]; rfl) (by rw [suspended]; rfl)
      (h.head_of_outcome found suspended (outcome.imp_left And.left))
  | reacts idle found ended => exact h.settle idle found (h.head_of_ended found ended)

end Line

end ModuleLoader

end Tabnode
