import Tabnode.Descriptors.Realm

/-!
# Runs whose numbers do not meet keep their own files

A call changes the tables at its own number only (`frame_step`). As long as no two runs
hold one number, what the tables have under it is what its run was given (`Slot`), and
so every call is carried out by the run's own.
-/

namespace Tabnode

namespace Descriptors

open Function

variable {ρ : Type*}

/-- The tables at a number are unchanged. -/
structure Same (fd : Fd) (s t : Realm ρ) : Prop where
  given : ∀ r, t.given (r, fd) = s.given (r, fd)
  tables : ∀ r, t.tables (r, fd) = s.tables (r, fd)
  ownedFds : t.ownedFds fd = s.ownedFds fd
  openFds : t.openFds fd = s.openFds fd
  reservedFds : t.reservedFds fd = s.reservedFds fd
  stdioAliases : t.stdioAliases fd = s.stdioAliases fd

theorem Same.refl (fd : Fd) (s : Realm ρ) : Same fd s s :=
  ⟨fun _ => rfl, fun _ => rfl, rfl, rfl, rfl, rfl⟩

theorem Same.trans {fd : Fd} {s t u : Realm ρ} (hst : Same fd s t) (htu : Same fd t u) :
    Same fd s u where
  given r := (htu.given r).trans (hst.given r)
  tables r := (htu.tables r).trans (hst.tables r)
  ownedFds := htu.ownedFds.trans hst.ownedFds
  openFds := htu.openFds.trans hst.openFds
  reservedFds := htu.reservedFds.trans hst.reservedFds
  stdioAliases := htu.stdioAliases.trans hst.stdioAliases

variable [DecidableEq ρ] {s t : Realm ρ} {fd n : Fd}

namespace Realm

theorem update_pair {β : Type*} (f : ρ × Fd → β) (r : ρ) (v : β) (hn : n ≠ fd) (r' : ρ) :
    update f (r, fd) v (r', n) = f (r', n) :=
  update_of_ne (fun h => hn (Prod.ext_iff.1 h).2) v f

theorem openFile_same (s : Realm ρ) (r : ρ) (description : ℕ) (hn : n ≠ fd) :
    Same n s (s.openFile r fd description) where
  given := update_pair _ r _ hn
  tables := update_pair _ r _ hn
  ownedFds := update_of_ne hn _ _
  openFds := rfl
  reservedFds := rfl
  stdioAliases := rfl

theorem allocateFd_same (s : Realm ρ) (r : ρ) (hn : n ≠ fd) :
    Same n s (s.allocateFd r fd) where
  given := update_pair _ r _ hn
  tables := update_pair _ r _ hn
  ownedFds := rfl
  openFds := rfl
  reservedFds := update_of_ne hn _ _
  stdioAliases := rfl

theorem registerFd_same (s : Realm ρ) (r : ρ) (h : ℕ) (hn : n ≠ fd) :
    Same n s (s.registerFd r fd h) :=
  (s.allocateFd_same r hn).trans
    { Same.refl n _ with
      given := update_pair _ r _ hn
      openFds := update_of_ne hn _ _ }

theorem openStandard_same (s : Realm ρ) (r : ρ) (stream : ℕ) (hn : n ≠ fd) :
    Same n s (s.openStandard r fd stream) :=
  (s.allocateFd_same r hn).trans
    { Same.refl n _ with
      given := update_pair _ r _ hn
      stdioAliases := update_of_ne hn _ _ }

theorem treeRelease_same (s : Realm ρ) (o : ρ) (hn : n ≠ fd) :
    Same n s (s.treeRelease o fd) := by
  unfold treeRelease
  split
  · exact { Same.refl n s with tables := update_pair _ o _ hn }
  · exact Same.refl n s

theorem treeClose_same (s : Realm ρ) (o : ρ) (hn : n ≠ fd) : Same n s (s.treeClose o fd) := by
  unfold treeClose
  split
  · exact { Same.refl n s with tables := update_pair _ o _ hn }
  · exact Same.refl n s

theorem releaseFd_same (s : Realm ρ) (hn : n ≠ fd) : Same n s (s.releaseFd fd) := by
  have hopen : Same n s { s with openFds := update s.openFds fd none } :=
    { Same.refl n s with openFds := update_of_ne hn _ _ }
  unfold releaseFd
  simp only
  split
  · exact hopen
  · next o _ =>
      have hreserved : Same n { s with openFds := update s.openFds fd none }
          { s with
            openFds := update s.openFds fd none
            reservedFds := update s.reservedFds fd none } :=
        { Same.refl n _ with reservedFds := update_of_ne hn _ _ }
      exact (hopen.trans hreserved).trans (treeRelease_same _ o hn)

theorem closeFd_same (s : Realm ρ) (r : ρ) (hn : n ≠ fd) : Same n s (s.closeFd r fd) := by
  unfold closeFd
  split
  · next o _ =>
      have howned : Same n s { s with ownedFds := update s.ownedFds fd none } :=
        { Same.refl n s with ownedFds := update_of_ne hn _ _ }
      exact howned.trans (treeClose_same _ o hn)
  · split
    · exact Same.refl n s
    · exact releaseFd_same s hn
    · exact { Same.refl n s with stdioAliases := update_of_ne hn _ _ }

theorem forget_same (s : Realm ρ) (r : ρ) (hn : n ≠ fd) : Same n s (s.forget r fd) :=
  { Same.refl n s with given := update_pair _ r _ hn }

theorem forgetReserved_same (s : Realm ρ) (r : ρ) (hn : n ≠ fd) :
    Same n s (s.forgetReserved r fd) := by
  unfold forgetReserved
  split
  · exact Same.refl n s
  · exact forget_same s r hn

end Realm

theorem frame_step {a : Act ρ} (hstep : step s a = some t) (hn : n ≠ a.fd) : Same n s t := by
  cases a with
  | openFile r fd description =>
      simp only [step] at hstep
      split at hstep
      · cases hstep
        exact s.openFile_same r description hn
      · cases hstep
  | openStandard r fd stream =>
      simp only [step] at hstep
      split at hstep
      · cases hstep
        exact s.openStandard_same r stream hn
      · cases hstep
  | registerFd r fd h =>
      simp only [step] at hstep
      split at hstep
      · cases hstep
        exact s.registerFd_same r h hn
      · cases hstep
  | allocateFd r fd =>
      simp only [step] at hstep
      split at hstep
      · cases hstep
        exact s.allocateFd_same r hn
      · cases hstep
  | close r fd =>
      cases hstep
      exact (s.closeFd_same r hn).trans (Realm.forget_same _ r hn)
  | releaseFd r fd =>
      cases hstep
      exact (s.releaseFd_same hn).trans (Realm.forgetReserved_same _ r hn)

namespace Realm

@[simp] theorem treeRelease_runFds (s : Realm ρ) (o : ρ) :
    (s.treeRelease o fd).runFds = s.runFds := by
  unfold treeRelease
  split <;> rfl

@[simp] theorem treeRelease_ownedFds (s : Realm ρ) (o : ρ) :
    (s.treeRelease o fd).ownedFds = s.ownedFds := by
  unfold treeRelease
  split <;> rfl

@[simp] theorem treeRelease_openFds (s : Realm ρ) (o : ρ) :
    (s.treeRelease o fd).openFds = s.openFds := by
  unfold treeRelease
  split <;> rfl

@[simp] theorem treeRelease_given (s : Realm ρ) (o : ρ) :
    (s.treeRelease o fd).given = s.given := by
  unfold treeRelease
  split <;> rfl

theorem treeRelease_file {s : Realm ρ} (o : ρ) {r : ρ} {description : ℕ}
    (h : s.tables (r, fd) = some (.file description)) :
    (s.treeRelease o fd).tables (r, fd) = some (.file description) := by
  unfold treeRelease
  split
  · next hreserved =>
      have hne : (r, fd) ≠ (o, fd) := by
        intro heq
        rw [heq, hreserved] at h
        cases h
      exact (update_of_ne hne _ _).trans h
  · exact h

@[simp] theorem treeClose_runFds (s : Realm ρ) (o : ρ) :
    (s.treeClose o fd).runFds = s.runFds := by
  unfold treeClose
  split <;> rfl

@[simp] theorem treeClose_ownedFds (s : Realm ρ) (o : ρ) :
    (s.treeClose o fd).ownedFds = s.ownedFds := by
  unfold treeClose
  split <;> rfl

@[simp] theorem treeClose_openFds (s : Realm ρ) (o : ρ) :
    (s.treeClose o fd).openFds = s.openFds := by
  unfold treeClose
  split <;> rfl

@[simp] theorem treeClose_given (s : Realm ρ) (o : ρ) :
    (s.treeClose o fd).given = s.given := by
  unfold treeClose
  split <;> rfl

@[simp] theorem releaseFd_runFds (s : Realm ρ) : (s.releaseFd fd).runFds = s.runFds := by
  unfold releaseFd
  simp only
  split
  · rfl
  · exact treeRelease_runFds _ _

@[simp] theorem releaseFd_ownedFds (s : Realm ρ) : (s.releaseFd fd).ownedFds = s.ownedFds := by
  unfold releaseFd
  simp only
  split
  · rfl
  · exact treeRelease_ownedFds _ _

@[simp] theorem releaseFd_given (s : Realm ρ) : (s.releaseFd fd).given = s.given := by
  unfold releaseFd
  simp only
  split
  · rfl
  · exact treeRelease_given _ _

@[simp] theorem releaseFd_openFds (s : Realm ρ) : (s.releaseFd fd).openFds fd = none := by
  unfold releaseFd
  simp only
  split
  · exact update_self _ _ _
  · rw [treeRelease_openFds]
    exact update_self _ _ _

theorem releaseFd_file {s : Realm ρ} {r : ρ} {description : ℕ}
    (h : s.tables (r, fd) = some (.file description)) :
    (s.releaseFd fd).tables (r, fd) = some (.file description) := by
  unfold releaseFd
  simp only
  split
  · exact h
  · exact treeRelease_file _ h

@[simp] theorem closeFd_runFds (s : Realm ρ) (r : ρ) :
    (s.closeFd r fd).runFds = s.runFds := by
  unfold closeFd
  split
  · exact treeClose_runFds _ _
  · split
    · rfl
    · exact releaseFd_runFds s
    · rfl

@[simp] theorem closeFd_given (s : Realm ρ) (r : ρ) : (s.closeFd r fd).given = s.given := by
  unfold closeFd
  split
  · exact treeClose_given _ _
  · split
    · rfl
    · exact releaseFd_given s
    · rfl

@[simp] theorem forgetReserved_runFds (s : Realm ρ) (r : ρ) :
    (s.forgetReserved r fd).runFds = s.runFds := by
  unfold forgetReserved
  split <;> rfl

end Realm

theorem runFds_step {a : Act ρ} (hstep : step s a = some t) : t.runFds = s.runFds := by
  cases a with
  | close r fd =>
      cases hstep
      exact Realm.closeFd_runFds s r
  | releaseFd r fd =>
      cases hstep
      rw [Realm.forgetReserved_runFds, Realm.releaseFd_runFds]
  | _ =>
      simp only [step] at hstep
      split at hstep
      · cases hstep
        rfl
      · cases hstep

def Gift.owner (r : ρ) : Gift → Option ρ
  | .file _ => some r
  | _ => none

def Gift.opened : Gift → Option ℕ
  | .handle h => some h
  | _ => none

/-- What the tables have under a number that a run was given. -/
structure Holds (s : Realm ρ) (r : ρ) (fd : Fd) (g : Gift) : Prop where
  runFds : s.runFds (r, fd) = none
  tables : s.tables (r, fd) = some g.held
  ownedFds : s.ownedFds fd = g.owner r
  openFds : s.openFds fd = g.opened
  reservedFds : ∀ h, g = .handle h → s.reservedFds fd = some r
  stdioAliases : ∀ stream, g = .standard stream → s.stdioAliases fd = some stream

/-- A number is free, or one run's. -/
structure Slot (s : Realm ρ) (fd : Fd) : Prop where
  one : ∀ r r', s.given (r, fd) ≠ none → s.given (r', fd) ≠ none → r = r'
  free : (∀ r, s.given (r, fd) = none) → s.ownedFds fd = none ∧ s.openFds fd = none
  held : ∀ r g, s.given (r, fd) = some g → Holds s r fd g

omit [DecidableEq ρ] in
theorem Slot.of_none (hgiven : ∀ r, s.given (r, fd) = none) (howned : s.ownedFds fd = none)
    (hopen : s.openFds fd = none) : Slot s fd where
  one r _ h := absurd (hgiven r) h
  free _ := ⟨howned, hopen⟩
  held r g h := absurd ((hgiven r).symm.trans h) (Option.some_ne_none g).symm

theorem Slot.of_holds {r : ρ} {g : Gift} (hgiven : s.given (r, fd) = some g)
    (hothers : ∀ r', r' ≠ r → s.given (r', fd) = none) (hholds : Holds s r fd g) :
    Slot s fd := by
  have hone : ∀ r', s.given (r', fd) ≠ none → r' = r := fun r' hr' => by
    by_contra hne
    exact hr' (hothers r' hne)
  refine ⟨fun a b ha hb => (hone a ha).trans (hone b hb).symm, fun hnone => ?_, ?_⟩
  · rw [hnone r] at hgiven
    cases hgiven
  · intro r' g' hg'
    have heq := hone r' (by rw [hg']; exact Option.some_ne_none g')
    rw [heq, hgiven] at hg'
    cases hg'
    rw [heq]
    exact hholds

omit [DecidableEq ρ] in
theorem Slot.same (h : Slot s n) (hsame : Same n s t) (hrun : t.runFds = s.runFds) :
    Slot t n where
  one r r' hr hr' := by
    rw [hsame.given] at hr hr'
    exact h.one r r' hr hr'
  free hnone := by
    rw [hsame.ownedFds, hsame.openFds]
    exact h.free fun r => (hsame.given r).symm.trans (hnone r)
  held r g hg := by
    rw [hsame.given] at hg
    have hholds := h.held r g hg
    refine ⟨?_, ?_, ?_, ?_, ?_, ?_⟩
    · rw [hrun]
      exact hholds.runFds
    · rw [hsame.tables]
      exact hholds.tables
    · rw [hsame.ownedFds]
      exact hholds.ownedFds
    · rw [hsame.openFds]
      exact hholds.openFds
    · rw [hsame.reservedFds]
      exact hholds.reservedFds
    · rw [hsame.stdioAliases]
      exact hholds.stdioAliases

variable {r : ρ}

/-- A number that is free in its tree's table and that no other run holds is nobody's. -/
theorem Slot.nobody (h : Slot s fd) (htable : s.tables (r, fd) = none)
    (hothers : ∀ r', r' ≠ r → s.given (r', fd) = none) :
    (∀ r', s.given (r', fd) = none) ∧ s.ownedFds fd = none ∧ s.openFds fd = none := by
  have hnone : ∀ r', s.given (r', fd) = none := by
    intro r'
    by_cases heq : r' = r
    · rw [heq]
      cases hg : s.given (r, fd) with
      | none => rfl
      | some g =>
          rw [(h.held r g hg).tables] at htable
          cases htable
    · exact hothers r' heq
  exact ⟨hnone, h.free hnone⟩

theorem given_others {g : Option Gift} (hothers : ∀ r', r' ≠ r → s.given (r', fd) = none)
    (r' : ρ) (hne : r' ≠ r) : update s.given (r, fd) g (r', fd) = none := by
  rw [update_of_ne fun heq => hne (Prod.ext_iff.1 heq).1]
  exact hothers r' hne

theorem Slot.openFile (h : Slot s fd) (htable : s.tables (r, fd) = none)
    (hothers : ∀ r', r' ≠ r → s.given (r', fd) = none) (hrun : s.runFds (r, fd) = none)
    (description : ℕ) : Slot (s.openFile r fd description) fd := by
  obtain ⟨-, -, hopen⟩ := h.nobody htable hothers
  refine Slot.of_holds (update_self (r, fd) _ _) (given_others hothers) ?_
  exact ⟨hrun, update_self (r, fd) _ _, update_self fd _ _, hopen, nofun, nofun⟩

theorem Slot.allocateFd (h : Slot s fd) (htable : s.tables (r, fd) = none)
    (hothers : ∀ r', r' ≠ r → s.given (r', fd) = none) (hrun : s.runFds (r, fd) = none) :
    Slot (s.allocateFd r fd) fd := by
  obtain ⟨-, howned, hopen⟩ := h.nobody htable hothers
  refine Slot.of_holds (update_self (r, fd) _ _) (given_others hothers) ?_
  exact ⟨hrun, update_self (r, fd) _ _, howned, hopen, nofun, nofun⟩

theorem Slot.registerFd (h : Slot s fd) (htable : s.tables (r, fd) = none)
    (hothers : ∀ r', r' ≠ r → s.given (r', fd) = none) (hrun : s.runFds (r, fd) = none)
    (handle : ℕ) : Slot (s.registerFd r fd handle) fd := by
  obtain ⟨-, howned, -⟩ := h.nobody htable hothers
  refine Slot.of_holds (update_self (r, fd) _ _)
    (given_others (s := s.allocateFd r fd) (given_others hothers)) ?_
  exact ⟨hrun, update_self (r, fd) _ _, howned, update_self fd _ _,
    fun _ _ => update_self fd _ _, nofun⟩

theorem Slot.openStandard (h : Slot s fd) (htable : s.tables (r, fd) = none)
    (hothers : ∀ r', r' ≠ r → s.given (r', fd) = none) (hrun : s.runFds (r, fd) = none)
    (stream : ℕ) : Slot (s.openStandard r fd stream) fd := by
  obtain ⟨-, howned, hopen⟩ := h.nobody htable hothers
  refine Slot.of_holds (update_self (r, fd) _ _)
    (given_others (s := s.allocateFd r fd) (given_others hothers)) ?_
  refine ⟨hrun, update_self (r, fd) _ _, howned, hopen, nofun, fun _ heq => ?_⟩
  cases heq
  exact update_self fd _ _

theorem Slot.closeFd_free (h : Slot s fd) (hothers : ∀ r', r' ≠ r → s.given (r', fd) = none) :
    (s.closeFd r fd).ownedFds fd = none ∧ (s.closeFd r fd).openFds fd = none := by
  -- a number with a tree has no handle, and one with a handle is none the run started with
  have hheld : (s.ownedFds fd ≠ none → s.openFds fd = none) ∧
      (s.runFds (r, fd) ≠ none → s.openFds fd = none) := by
    cases hg : s.given (r, fd) with
    | none =>
        have hnone : ∀ r', s.given (r', fd) = none := by
          intro r'
          by_cases heq : r' = r
          · rw [heq]
            exact hg
          · exact hothers r' heq
        obtain ⟨-, hopen⟩ := h.free hnone
        exact ⟨fun _ => hopen, fun _ => hopen⟩
    | some g =>
        have hholds := h.held r g hg
        refine ⟨fun howned => ?_, fun hrun => absurd hholds.runFds hrun⟩
        rw [hholds.ownedFds] at howned
        rw [hholds.openFds]
        cases g with
        | file description => rfl
        | _ => exact absurd rfl howned
  unfold Realm.closeFd
  cases howned : s.ownedFds fd with
  | some o =>
      simp only [Realm.treeClose_ownedFds, Realm.treeClose_openFds]
      exact ⟨update_self fd _ _, hheld.1 (by rw [howned]; exact Option.some_ne_none o)⟩
  | none =>
      cases hrun : s.runFds (r, fd) with
      | some h' =>
          exact ⟨howned, hheld.2 (by rw [hrun]; exact Option.some_ne_none h')⟩
      | none =>
          cases hopen : s.openFds fd with
          | some h' =>
              simp only [Realm.releaseFd_ownedFds, Realm.releaseFd_openFds]
              exact ⟨howned, trivial⟩
          | none => exact ⟨howned, hopen⟩

theorem Slot.close (h : Slot s fd) (hothers : ∀ r', r' ≠ r → s.given (r', fd) = none) :
    Slot ((s.closeFd r fd).forget r fd) fd := by
  obtain ⟨howned, hopen⟩ := h.closeFd_free hothers
  refine Slot.of_none (fun r' => ?_) howned hopen
  by_cases heq : r' = r
  · rw [heq]
    exact update_self (r, fd) _ _
  · refine given_others (fun r' hne => ?_) r' heq
    rw [Realm.closeFd_given]
    exact hothers r' hne

theorem Slot.releaseFd (h : Slot s fd) (hothers : ∀ r', r' ≠ r → s.given (r', fd) = none) :
    Slot ((s.releaseFd fd).forgetReserved r fd) fd := by
  have hgiven : (s.releaseFd fd).given = s.given := s.releaseFd_given
  have hforgotten : s.ownedFds fd = none → Slot ((s.releaseFd fd).forget r fd) fd := by
    intro howned
    refine Slot.of_none (fun r' => ?_) ((congrFun s.releaseFd_ownedFds fd).trans howned)
      s.releaseFd_openFds
    by_cases heq : r' = r
    · rw [heq]
      exact update_self (r, fd) _ _
    · refine given_others (fun r' hne => ?_) r' heq
      rw [hgiven]
      exact hothers r' hne
  unfold Realm.forgetReserved
  split
  · next description hfile =>
      -- the file stays open
      rw [hgiven] at hfile
      have hholds := h.held r _ hfile
      refine Slot.of_holds (r := r) (g := .file description) (by rw [hgiven, hfile])
        (fun r' hne => by rw [hgiven]; exact hothers r' hne) ?_
      refine ⟨?_, Realm.releaseFd_file hholds.tables, ?_, s.releaseFd_openFds, nofun, nofun⟩
      · rw [Realm.releaseFd_runFds]
        exact hholds.runFds
      · rw [Realm.releaseFd_ownedFds]
        exact hholds.ownedFds
  · next hnot =>
      refine hforgotten ?_
      rw [hgiven] at hnot
      cases hg : s.given (r, fd) with
      | none =>
          refine (h.free fun r' => ?_).1
          by_cases heq : r' = r
          · rw [heq]
            exact hg
          · exact hothers r' heq
      | some g =>
          rw [(h.held r g hg).ownedFds]
          cases g with
          | file description => exact absurd hg (hnot description)
          | _ => rfl

def Kept (s : Realm ρ) : Prop := ∀ fd, Slot s fd

omit [DecidableEq ρ] in
theorem kept_start (runFds : ρ × Fd → Option ℕ) : Kept (start runFds) :=
  fun _ => Slot.of_none (fun _ => rfl) rfl rfl

theorem kept_step (s : Realm ρ) (a : Act ρ) (t : Realm ρ) (hk : Kept s) (hapart : Apart s a)
    (hstep : step s a = some t) : Kept t := by
  intro n
  by_cases hn : n = a.fd
  · subst hn
    obtain ⟨hothers, hrun⟩ := hapart
    have hslot := hk a.fd
    cases a with
    | openFile r fd description =>
        simp only [step] at hstep
        split at hstep
        · next htable =>
            cases hstep
            exact hslot.openFile htable hothers (hrun trivial) description
        · cases hstep
    | openStandard r fd stream =>
        simp only [step] at hstep
        split at hstep
        · next htable =>
            cases hstep
            exact hslot.openStandard htable hothers (hrun trivial) stream
        · cases hstep
    | registerFd r fd h =>
        simp only [step] at hstep
        split at hstep
        · next htable =>
            cases hstep
            exact hslot.registerFd htable hothers (hrun trivial) h
        · cases hstep
    | allocateFd r fd =>
        simp only [step] at hstep
        split at hstep
        · next htable =>
            cases hstep
            exact hslot.allocateFd htable hothers (hrun trivial)
        · cases hstep
    | close r fd =>
        cases hstep
        exact hslot.close hothers
    | releaseFd r fd =>
        cases hstep
        exact hslot.releaseFd hothers
  · exact (hk n).same (frame_step hstep hn) (runFds_step hstep)

omit [DecidableEq ρ] in
/-- What the tables have under a number carries its run's calls out. -/
theorem Holds.carries {g : Gift} (h : Holds s r fd g) : Carries r (carrier s r fd) g := by
  have howned := h.ownedFds
  have hhandle : s.handleForFd r fd = g.opened := by
    rw [Realm.handleForFd, h.runFds, h.openFds]
    rfl
  have htable := h.tables
  cases g with
  | file description =>
      have htree : ofTree s r fd = .tree r description := by
        rw [ofTree, htable]
        rfl
      intro op
      cases op <;> simp only [carrier, hhandle, howned, Gift.owner, Gift.opened, htree]
  | handle h' =>
      constructor
      · simp only [carrier, hhandle, Gift.opened]
      · intro op hop
        cases op with
        | write => exact absurd rfl hop
        | _ => simp only [carrier, hhandle, howned, Gift.owner, Gift.opened]
  | standard stream =>
      have hstream : s.stdioOf fd = some stream := by
        rw [Realm.stdioOf, h.stdioAliases stream rfl]
        rfl
      constructor
      · simp only [carrier, howned, Gift.owner]
      · intro op hop
        cases op with
        | ftruncate => exact absurd rfl hop
        | _ => simp only [carrier, hhandle, howned, hstream, Gift.owner, Gift.opened]
  | bare =>
      intro op
      cases hstream : s.stdioOf fd with
      | none => cases op <;> simp [carrier, hhandle, howned, hstream, Gift.owner, Gift.opened]
      | some stream =>
          cases op <;> simp [carrier, hhandle, howned, hstream, Gift.owner, Gift.opened]

omit [DecidableEq ρ] in
theorem Kept.faithful (h : Kept s) : Faithful s where
  carried r fd g hg := ((h fd).held r g hg).carries
  open_still r fd g hg := ((h fd).held r g hg).tables

/-- A call on a number of one run leaves the numbers of the others. -/
theorem spared_step {a : Act ρ} (hapart : Apart s a) (hstep : step s a = some t)
    (hne : r ≠ a.run) (hheld : s.given (r, fd) ≠ none) : Spared r fd s t := by
  have hn : fd ≠ a.fd := by
    intro heq
    rw [heq] at hheld
    exact hheld (hapart.1 r hne)
  have hsame := frame_step hstep hn
  exact ⟨hsame.given r, hsame.tables r, hsame.ownedFds, hsame.openFds, hsame.reservedFds,
    hsame.stdioAliases⟩

/-- In every state of a run of a realm whose runs' numbers do not meet, each number means its
own run's, and a call by one run leaves the numbers that others hold. -/
theorem run_faithful (runFds : ρ × Fd → Option ℕ) {as : List (Act ρ)}
    (hok : Machine.Meets step Apart (start runFds) as)
    (h : Machine.run step (start runFds) as = some s) :
    Faithful s ∧ ∀ a t, Apart s a → step s a = some t → ∀ r, r ≠ a.run → ∀ fd,
      s.given (r, fd) ≠ none → Spared r fd s t :=
  ⟨(Machine.invariant_of_meets kept_step (kept_start runFds) hok h).faithful,
    fun _ _ hapart hstep _ hne _ hheld => spared_step hapart hstep hne hheld⟩

instance decidableGives (a : Act ρ) : Decidable a.Gives :=
  match a with
  | .openFile _ _ _ => .isTrue trivial
  | .openStandard _ _ _ => .isTrue trivial
  | .registerFd _ _ _ => .isTrue trivial
  | .allocateFd _ _ => .isTrue trivial
  | .close _ _ => .isFalse id
  | .releaseFd _ _ => .isFalse id

instance decidableApart (s : Realm Bool) (a : Act Bool) : Decidable (Apart s a) :=
  inferInstanceAs (Decidable (_ ∧ _))

def plainRun : List (Act Bool) :=
  [.openFile true 20 1, .openFile false 21 2, .registerFd true 22 5, .close true 20,
    .openFile false 20 3, .close true 22]

def plainEnd : Realm Bool :=
  (Machine.run step (start fun _ => none) plainRun).getD (start fun _ => none)

theorem run_faithful_plainRun :
    Faithful plainEnd ∧ ∀ a t, Apart plainEnd a → step plainEnd a = some t → ∀ r, r ≠ a.run →
      ∀ fd, plainEnd.given (r, fd) ≠ none → Spared r fd plainEnd t :=
  @run_faithful Bool _ plainEnd (fun _ => none) plainRun (by decide) rfl

/-- Two trees give one number: the first run's calls go to the second run's tree. -/
theorem number_of_another :
    ¬ ∀ (as : List (Act Bool)) (s : Realm Bool),
      Machine.run step (start fun _ => none) as = some s → Faithful s := by
  intro h
  have hfaithful := h [.openFile true 20 1, .openFile false 20 2] _ rfl
  have hread := hfaithful.carried true 20 (.file 1) rfl .read
  revert hread
  decide

end Descriptors

end Tabnode
