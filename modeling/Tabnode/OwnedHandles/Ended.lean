import Tabnode.OwnedHandles.Counted

/-!
# The end of a run closes each handle once

The listening handles that hold the loop are closed first, and the sets are right all
the while, so what the run still has afterwards are the handles not closed yet. These are
away while they are closed, and each close that takes its own leaves one away less.
-/

namespace Tabnode

namespace OwnedHandles

open Machine Buckets List Option

/-- A call that gives a run a handle it had not, may give it that handle. -/
theorem brings_of_perform {s t : Handles} {op : Op} (h : perform s op = some t) {b : Handle}
    {k : Token} (hb : t.ownerOf b = some k) : s.ownerOf b = some k ∨ op.Brings k b := by
  by_cases hne : b = op.handle
  · subst hne
    cases op with
    | register i current active =>
        simp only [perform] at h
        split at h
        · cases h
          exact .inr ⟨rfl, (s.registerHandle_ownerOf i current active).symm.trans hb⟩
        · cases h
    | start i =>
        cases h
        exact .inl ((s.startHandle_ownerOf i).symm.trans hb)
    | stop i =>
        cases h
        exact .inl ((s.stopHandle_ownerOf i).symm.trans hb)
    | ref i =>
        cases h
        exact .inl ((s.refHandle_ownerOf i).symm.trans hb)
    | unref i =>
        cases h
        exact .inl ((s.unrefHandle_ownerOf i).symm.trans hb)
    | release i =>
        cases h
        exact absurd ((s.releaseHandle_ownerOf i).symm.trans hb) (by simp)
    | holdRequest request i current => exact .inr rfl
    | adopt i token =>
        cases h
        exact .inr ⟨rfl, (s.adoptHandle_ownerOf i token).symm.trans hb⟩
  · exact .inl (((perform_touches h).ownerOf b hne).symm.trans hb)

theorem owned_of_perform {s t : Handles} {op : Op} (h : perform s op = some t) {b : Handle}
    {k : Token} (hb : s.ownerOf b = some k) (hnot : ¬ op.Takes k b) :
    t.ownerOf b = some k := by
  by_cases hne : b = op.handle
  · subst hne
    cases op with
    | register i current active =>
        simp only [perform] at h
        split at h
        · next hnone => exact absurd (hnone.symm.trans hb) (by simp)
        · cases h
    | start i =>
        cases h
        exact (s.startHandle_ownerOf i).trans hb
    | stop i =>
        cases h
        exact (s.stopHandle_ownerOf i).trans hb
    | ref i =>
        cases h
        exact (s.refHandle_ownerOf i).trans hb
    | unref i =>
        cases h
        exact (s.unrefHandle_ownerOf i).trans hb
    | release i => exact absurd rfl hnot
    | holdRequest request i current =>
        simp only [perform] at h
        split at h
        · next hnone => exact absurd (hnone.symm.trans hb) (by simp)
        · cases h
    | adopt i token =>
        cases h
        have htoken : token = some k := by
          by_contra hother
          exact hnot ⟨rfl, hother⟩
        exact (s.adoptHandle_ownerOf i token).trans htoken
  · exact ((perform_touches h).ownerOf b hne).trans hb

theorem not_owned_of_takes {s t : Handles} {op : Op} (h : perform s op = some t) {b : Handle}
    {k : Token} (hop : op.Takes k b) : t.ownerOf b ≠ some k := by
  cases op with
  | release i =>
      cases h
      cases hop
      rw [Handles.releaseHandle_ownerOf]
      exact (some_ne_none k).symm
  | adopt i token =>
      cases h
      obtain ⟨rfl, hother⟩ := hop
      rwa [Handles.adoptHandle_ownerOf]
  | _ => cases hop

variable {s t : Handles} {ops : List Op} {b : Handle} {k : Token}

theorem brings_of_run (h : Machine.run perform s ops = some t) (hb : t.ownerOf b = some k) :
    s.ownerOf b = some k ∨ ∃ op ∈ ops, op.Brings k b := by
  induction ops generalizing s with
  | nil =>
      cases h
      exact .inl hb
  | cons op ops ih =>
      obtain ⟨m, hm, hrest⟩ := run_cons_eq_some.1 h
      rcases ih hrest with howned | ⟨later, hlater, hbrings⟩
      · rcases brings_of_perform hm howned with hown | hbrings
        · exact .inl hown
        · exact .inr ⟨op, mem_cons_self, hbrings⟩
      · exact .inr ⟨later, mem_cons_of_mem op hlater, hbrings⟩

theorem owned_of_run (h : Machine.run perform s ops = some t) (hb : s.ownerOf b = some k)
    (hnot : ∀ op ∈ ops, ¬ op.Takes k b) : t.ownerOf b = some k := by
  induction ops generalizing s with
  | nil =>
      cases h
      exact hb
  | cons op ops ih =>
      obtain ⟨m, hm, hrest⟩ := run_cons_eq_some.1 h
      exact ih hrest (owned_of_perform hm hb (hnot op mem_cons_self))
        fun later hlater => hnot later (mem_cons_of_mem op hlater)

theorem not_owned_of_run (h : Machine.run perform s ops = some t)
    (htakes : ∃ op ∈ ops, op.Takes k b) (hnot : ∀ op ∈ ops, ¬ op.Brings k b) :
    t.ownerOf b ≠ some k := by
  induction ops generalizing s with
  | nil =>
      obtain ⟨op, hop, -⟩ := htakes
      cases hop
  | cons op ops ih =>
      obtain ⟨m, hm, hrest⟩ := run_cons_eq_some.1 h
      have hlater : ∀ op ∈ ops, ¬ op.Brings k b :=
        fun later hlater => hnot later (mem_cons_of_mem op hlater)
      by_cases hhead : op.Takes k b
      · intro hown
        rcases brings_of_run hrest hown with hm' | ⟨later, hmem, hbrings⟩
        · exact not_owned_of_takes hm hhead hm'
        · exact hlater later hmem hbrings
      · refine ih hrest ?_ hlater
        obtain ⟨taker, hmem, htaker⟩ := htakes
        rcases mem_cons.1 hmem with rfl | hmem
        · exact absurd htaker hhead
        · exact ⟨taker, hmem, htaker⟩

variable {e : Ending} {c d : Closing} {h : Handle} {hs : List Handle}

theorem closeAtEnd_run (hclose : closeAtEnd e c h = some d) :
    Machine.run perform c.handles (e.close c.closed h).1 = some d.handles ∧
      d.closed = c.closed ++ [h] := by
  obtain ⟨u, hu, rfl⟩ := map_eq_some_iff.1 hclose
  exact ⟨hu, rfl⟩

theorem closed_of_run (hrun : Machine.run (closeAtEnd e) c hs = some d) :
    d.closed = c.closed ++ hs := by
  induction hs generalizing c with
  | nil =>
      cases hrun
      exact (append_nil _).symm
  | cons h hs ih =>
      obtain ⟨m, hm, hrest⟩ := run_cons_eq_some.1 hrun
      rw [ih hrest, (closeAtEnd_run hm).2, append_assoc, singleton_append]

/-- While the listening handles are closed, some still to come: each handle the run had is
closed and gone, or is the run's still, or will be found listening. -/
structure Serving (s : Handles) (k : Token) (e : Ending) (hs : List Handle) (c : Closing) :
    Prop where
  kept : Kept (fun _ => False) c.handles
  nodup : c.closed.Nodup
  fresh : ∀ h ∈ c.closed, h ∉ hs
  had : ∀ h ∈ c.closed, s.ownerOf h = some k
  given : ∀ h ∈ c.closed, c.handles.ownerOf h ≠ some k
  still : ∀ h, s.ownerOf h = some k → h ∉ c.closed →
    c.handles.ownerOf h = some k ∨ (h ∈ hs ∧ ∀ later, e.listening later h = true)
  passed : ∀ h ∈ members s.owners k, h ∉ hs →
    (∀ later, e.listening later h = true) → h ∈ c.closed
  concerns : ∀ h, c.handles.ownerOf h = some k → Concerns s k e h

theorem Serving.close (hs' : Serving s k e (h :: hs) c) (hclean : Clean s k e)
    (hhad : s.ownerOf h = some k) (hholds : h ∈ members s.owners k)
    (hnot : h ∉ hs) (hlistening : e.listening c.closed h = true)
    (hclose : closeAtEnd e c h = some d) : Serving s k e hs d := by
  obtain ⟨hrun, hclosed⟩ := closeAtEnd_run hclose
  have hmem : ∀ b, b ∈ d.closed ↔ b ∈ c.closed ∨ b = h := fun b => by
    rw [hclosed, mem_append, mem_singleton]
  have hown : Concerns s k e h := .inl hhad
  have hfresh : h ∉ c.closed := fun hmem => hs'.fresh h hmem mem_cons_self
  have hkeeps : ∀ b, s.ownerOf b = some k → ∀ op ∈ (e.close c.closed h).1, ¬ op.Brings k b :=
    fun b hb => hclean.keeps c.closed h b hown hb
  refine ⟨(hs'.kept.script hrun).mono fun b => by simp, ?_, ?_, ?_, ?_, ?_, ?_, ?_⟩
  · rw [hclosed]
    exact hs'.nodup.append (nodup_singleton h) (by simpa using hfresh)
  · intro b hb
    rcases (hmem b).1 hb with hb | rfl
    · exact fun hlater => hs'.fresh b hb (mem_cons_of_mem h hlater)
    · exact hnot
  · intro b hb
    rcases (hmem b).1 hb with hb | rfl
    · exact hs'.had b hb
    · exact hhad
  · intro b hb howned
    rcases (hmem b).1 hb with hb | rfl
    · rcases brings_of_run hrun howned with hbefore | ⟨op, hop, hbrings⟩
      · exact hs'.given b hb hbefore
      · exact hkeeps b (hs'.had b hb) op hop hbrings
    · exact not_owned_of_run hrun (hclean.takes c.closed b hown) (hkeeps b hhad) howned
  · intro b hb hnotin
    have hne : b ≠ h := fun heq => hnotin ((hmem b).2 (.inr heq))
    have hbefore : b ∉ c.closed := fun hin => hnotin ((hmem b).2 (.inl hin))
    by_cases htakes : ∃ op ∈ (e.close c.closed h).1, op.Takes k b
    · -- it is taken early, and so is one that is found listening later
      rcases hclean.spares c.closed h b hholds hlistening hb htakes with
        heq | hin | ⟨hcounted, halways⟩
      · exact absurd heq hne
      · exact absurd hin hbefore
      · refine .inr ⟨?_, halways⟩
        by_contra hpassed
        refine hbefore (hs'.passed b hcounted ?_ halways)
        exact fun hin => (mem_cons.1 hin).elim hne hpassed
    · rcases hs'.still b hb hbefore with howned | ⟨hin, halways⟩
      · exact .inl (owned_of_run hrun howned fun op hop htake => htakes ⟨op, hop, htake⟩)
      · exact .inr ⟨(mem_cons.1 hin).resolve_left hne, halways⟩
  · intro b hb hpassed halways
    rw [hmem]
    by_cases heq : b = h
    · exact .inr heq
    · exact .inl (hs'.passed b hb (fun hin => (mem_cons.1 hin).elim heq hpassed) halways)
  · intro b hb
    rcases brings_of_run hrun hb with hbefore | ⟨op, hop, hbrings⟩
    · exact hs'.concerns b hbefore
    · exact .inr ⟨c.closed, h, op, hop, hbrings⟩

theorem Serving.pass (hs' : Serving s k e (h :: hs) c)
    (hlistening : ¬ e.listening c.closed h = true) : Serving s k e hs c where
  __ := hs'
  fresh b hb hin := hs'.fresh b hb (mem_cons_of_mem h hin)
  still b hb hnot := by
    rcases hs'.still b hb hnot with howned | ⟨hin, halways⟩
    · exact .inl howned
    · refine .inr ⟨(mem_cons.1 hin).resolve_left ?_, halways⟩
      rintro rfl
      exact hlistening (halways c.closed)
  passed b hb hpassed halways := by
    refine hs'.passed b hb (fun hin => (mem_cons.1 hin).elim ?_ hpassed) halways
    rintro rfl
    exact hlistening (halways c.closed)

theorem Serving.run (hclean : Clean s k e)
    (hhad : ∀ h ∈ hs, s.ownerOf h = some k ∧ h ∈ members s.owners k)
    (hnodup : hs.Nodup) (hs' : Serving s k e hs c)
    (hrun : Machine.run (closeListening e) c hs = some d) : Serving s k e [] d := by
  induction hs generalizing c with
  | nil =>
      cases hrun
      exact hs'
  | cons h hs ih =>
      obtain ⟨m, hm, hrest⟩ := run_cons_eq_some.1 hrun
      obtain ⟨hnot, hnodup'⟩ := nodup_cons.1 hnodup
      obtain ⟨hown, hholds⟩ := hhad h mem_cons_self
      refine ih (fun b hb => hhad b (mem_cons_of_mem h hb)) hnodup' ?_ hrest
      unfold closeListening at hm
      split at hm
      · next hlistening => exact hs'.close hclean hown hholds hnot hlistening hm
      · next hlistening =>
          cases hm
          exact hs'.pass hlistening

theorem Kept.serving (hk : Kept (fun _ => False) s) (k : Token) (e : Ending) :
    Serving s k e (members s.owners k) ⟨s, [], []⟩ where
  kept := hk
  nodup := nodup_nil
  fresh _ hin := absurd hin not_mem_nil
  had _ hin := absurd hin not_mem_nil
  given _ hin := absurd hin not_mem_nil
  still _ hb _ := .inl hb
  passed _ hb hnot _ := absurd hb hnot
  concerns _ hb := .inl hb

theorem serving_of_releaseOwnedServers (hk : Kept (fun _ => False) s) (hclean : Clean s k e)
    (h : releaseOwnedServers e ⟨s, [], []⟩ k = some c) : Serving s k e [] c := by
  have hstart := hk.serving k e
  have hhad : ∀ b ∈ members s.owners k,
      s.ownerOf b = some k ∧ b ∈ members s.owners k :=
    fun b hb => ⟨((hk.placed b).counted k hb).1, hb⟩
  unfold releaseOwnedServers at h
  split at h
  · next hnone =>
      cases h
      rwa [members_of_none hnone] at hstart
  · next held hheld =>
      rw [members_of_some hheld] at hstart
      rw [members_of_some hheld] at hhad
      have hnodup := hk.owners.nodup k
      rw [members_of_some hheld] at hnodup
      refine Serving.run hclean (fun b hb => ?_) hnodup hstart h
      rw [members_of_some hheld]
      exact hhad b hb

/-- While the handles the run still has are closed, some still to come: only these are
away, and the run has none of those it had but these. -/
structure Sweeping (s : Handles) (k : Token) (hs : List Handle) (c : Closing) : Prop where
  kept : ∃ away : Handle → Prop, (∀ h, away h → h ∈ hs) ∧ Kept away c.handles
  given : ∀ h, s.ownerOf h = some k → h ∉ hs → c.handles.ownerOf h ≠ some k

theorem Sweeping.close (hs' : Sweeping s k (h :: hs) c) (hclean : Clean s k e)
    (hown : Concerns s k e h) (hclose : closeAtEnd e c h = some d) : Sweeping s k hs d := by
  obtain ⟨hrun, -⟩ := closeAtEnd_run hclose
  have htakes := hclean.takes c.closed h hown
  constructor
  · obtain ⟨away, haway, hk⟩ := hs'.kept
    refine ⟨_, fun b hb => ?_, hk.script hrun⟩
    obtain ⟨hin, hunsettled⟩ := hb
    refine (mem_cons.1 (haway b hin)).resolve_left ?_
    rintro rfl
    obtain ⟨op, hop, htake⟩ := htakes
    exact hunsettled op hop htake.settles
  · intro b hb hnot howned
    have hkeeps := hclean.keeps c.closed h b hown hb
    by_cases heq : b = h
    · rw [heq] at howned hkeeps
      exact not_owned_of_run hrun htakes hkeeps howned
    · rcases brings_of_run hrun howned with hbefore | ⟨op, hop, hbrings⟩
      · exact hs'.given b hb (fun hin => (mem_cons.1 hin).elim heq hnot) hbefore
      · exact hkeeps op hop hbrings

theorem Sweeping.run (hclean : Clean s k e) (hown : ∀ h ∈ hs, Concerns s k e h)
    (hs' : Sweeping s k hs c) (hrun : Machine.run (closeAtEnd e) c hs = some d) :
    Sweeping s k [] d := by
  induction hs generalizing c with
  | nil =>
      cases hrun
      exact hs'
  | cons h hs ih =>
      obtain ⟨m, hm, hrest⟩ := run_cons_eq_some.1 hrun
      exact ih (fun b hb => hown b (mem_cons_of_mem h hb))
        (hs'.close hclean (hown h mem_cons_self) hm) hrest

theorem Kept.forget (hk : Kept (fun _ => False) s) (k : Token) :
    Kept (fun h => s.ownerOf h = some k)
      { s with
        allOwned := Function.update s.allOwned k none
        owners := Function.update s.owners k none } where
  owners := hk.owners.drop k
  allOwned := hk.allOwned.drop k
  placed h :=
    { counted := fun t ht => (hk.placed h).counted t (mem_members_drop.1 ht).1
      owned := fun t => by
        rw [mem_members_drop, (hk.placed h).owned t]
        constructor
        · rintro ⟨⟨hown, -⟩, hne⟩
          exact ⟨hown, fun hk' => hne (Option.some.inj (hown.symm.trans hk'))⟩
        · rintro ⟨hown, hnot⟩
          refine ⟨⟨hown, id⟩, ?_⟩
          rintro rfl
          exact hnot hown
      held := fun t hnot hown href hactive => by
        refine mem_members_drop.2
          ⟨(hk.placed h).held t id hown href hactive, ?_⟩
        rintro rfl
        exact hnot hown }

theorem Kept.mem_allOwned (hk : Kept (fun _ => False) s) :
    h ∈ members s.allOwned k ↔ s.ownerOf h = some k := by
  simp [(hk.placed h).owned k]

/-- A clean end leaves the sets right and has closed each handle of its run once. -/
theorem Clean.ended (hclean : Clean s k e) (hk : Kept (fun _ => False) s)
    (hend : endOwnedProcess e s k = some d) :
    Kept (fun _ => False) d.handles ∧ Ended s k d := by
  obtain ⟨c, hservers, hrest⟩ := bind_eq_some_iff.1 hend
  have hserved := serving_of_releaseOwnedServers hk hclean hservers
  have hstill : ∀ b, s.ownerOf b = some k → b ∉ c.closed → c.handles.ownerOf b = some k :=
    fun b hb hnot => (hserved.still b hb hnot).resolve_right
      fun hin => absurd hin.1 not_mem_nil
  unfold releaseOwnedHandles at hrest
  split at hrest
  · next hnone =>
      -- the run has nothing left
      cases hrest
      have hempty : ∀ b, d.handles.ownerOf b ≠ some k := by
        intro b hb
        have hin := hserved.kept.mem_allOwned.2 hb
        rw [members_of_none hnone] at hin
        cases hin
      refine ⟨hserved.kept, fun b hb => ⟨?_, hempty b⟩⟩
      refine count_eq_one_of_mem hserved.nodup ?_
      by_contra hnot
      exact hempty b (hstill b hb hnot)
  · next held hheld =>
      have hmem : ∀ b, b ∈ held ↔ c.handles.ownerOf b = some k := by
        intro b
        rw [← hserved.kept.mem_allOwned, members_of_some hheld]
      have hnodup : held.Nodup := by
        rw [← members_of_some hheld]
        exact hserved.kept.allOwned.nodup k
      have hclosed := closed_of_run hrest
      have hswept : Sweeping s k [] d := by
        refine Sweeping.run hclean (fun b hb => hserved.concerns b ((hmem b).1 hb)) ?_ hrest
        refine ⟨⟨_, fun b hb => (hmem b).2 hb, hserved.kept.forget k⟩, fun b hb hnot => ?_⟩
        exact fun hown => hnot ((hmem b).2 hown)
      refine ⟨?_, fun b hb => ⟨?_, hswept.given b hb not_mem_nil⟩⟩
      · obtain ⟨away, haway, hkept⟩ := hswept.kept
        exact hkept.mono fun b => by simpa using fun hin => absurd (haway b hin) not_mem_nil
      · rw [hclosed, count_append]
        by_cases hb' : b ∈ c.closed
        · have hnot : b ∉ held := fun hin => hserved.given b hb' ((hmem b).1 hin)
          rw [count_eq_one_of_mem hserved.nodup hb', count_eq_zero_of_not_mem hnot]
        · have hin : b ∈ held := (hmem b).2 (hstill b hb hb')
          rw [count_eq_zero_of_not_mem hb', count_eq_one_of_mem hnodup hin]

theorem kept_start : Kept (fun _ => False) Handles.start where
  owners := ⟨fun _ _ h => absurd h (some_ne_none _).symm, fun _ => nodup_nil⟩
  allOwned := ⟨fun _ _ h => absurd h (some_ne_none _).symm, fun _ => nodup_nil⟩
  placed h :=
    { counted := fun t ht => absurd ht not_mem_nil
      owned := fun t => iff_of_false not_mem_nil fun h => by cases h.1
      held := fun t _ h => by cases h }

theorem step_kept (s : Handles) (a : Act) (t : Handles) (hk : Kept (fun _ => False) s)
    (hok : EndsClean s a) (hstep : step s a = some t) : Kept (fun _ => False) t := by
  cases a with
  | call op => exact (hk.perform hstep).mono fun b => by simp
  | endProcess k e =>
      obtain ⟨c, hend, rfl⟩ := map_eq_some_iff.1 hstep
      exact (Clean.ended hok hk hend).1

theorem Kept.counted (hk : Kept (fun _ => False) s) : Counted s := by
  have howners : ∀ t h, h ∈ members s.owners t ↔
      s.ownerOf h = some t ∧ s.refHeld h = true ∧ s.activeHandles h = true := fun t h =>
    ⟨(hk.placed h).counted t, fun hh => (hk.placed h).held t id hh.1 hh.2.1 hh.2.2⟩
  refine ⟨howners, fun t h => hk.mem_allOwned, fun t u h ht hu => ?_, hk.owners.ne_nil,
    hk.allOwned.ne_nil, fun t held hheld => ?_⟩
  · exact Option.some.inj ((hk.mem_allOwned.1 ht).symm.trans (hk.mem_allOwned.1 hu))
  · have heq : held = (members s.owners t).toFinset := by
      ext h
      rw [hheld, List.mem_toFinset, howners]
    rw [heq, toFinset_card_of_nodup (hk.owners.nodup t), Handles.ownedHandleCount,
      members]
    cases s.owners t with
    | none => rfl
    | some l => rfl

/-- In every state of a run whose ends are clean the sets are right, and a clean end then
closes every handle of its run once and leaves it none of them. -/
theorem run_owned {as : List Act} (hok : Meets step EndsClean Handles.start as)
    (h : Machine.run step Handles.start as = some s) :
    Counted s ∧ ∀ k e, Clean s k e → ∀ c, endOwnedProcess e s k = some c → Ended s k c := by
  have hk := invariant_of_meets step_kept kept_start hok h
  exact ⟨hk.counted, fun k e hclean c hend => (hclean.ended hk hend).2⟩

def plainEnding : Ending where
  listening _ h := h == 0
  close _ h := ([.release h], h == 0)

theorem clean_plainEnding (s : Handles) (k : Token) : Clean s k plainEnding where
  takes _ h _ := ⟨.release h, mem_singleton_self _, rfl⟩
  keeps _ i _ _ _ op hop := by
    rw [mem_singleton.1 hop]
    exact id
  spares _ i h _ _ _ htakes := by
    obtain ⟨op, hop, htake⟩ := htakes
    rw [mem_singleton.1 hop] at htake
    exact .inl htake.symm

def plainRun : List Act :=
  [.call (.register 0 (some 7) true), .call (.register 1 none false), .call (.adopt 1 (some 7)),
    .call (.start 1), .call (.unref 0), .endProcess 7 plainEnding,
    .call (.register 2 (some 7) true)]

def plainEnd : Handles := (Machine.run step Handles.start plainRun).getD Handles.start

theorem run_owned_plainRun :
    Counted plainEnd ∧
      ∀ k e, Clean plainEnd k e → ∀ c, endOwnedProcess e plainEnd k = some c →
        Ended plainEnd k c :=
  @run_owned plainEnd plainRun
    ⟨trivial, fun _ _ => ⟨trivial, fun _ _ => ⟨trivial, fun _ _ => ⟨trivial, fun _ _ =>
      ⟨trivial, fun _ _ => ⟨clean_plainEnding _ 7, fun _ _ => ⟨trivial, fun _ _ =>
        trivial⟩⟩⟩⟩⟩⟩⟩ rfl

def throwing : Ending where
  listening _ _ := true
  close _ _ := ([], true)

/-- A listening handle whose close throws is closed twice. -/
theorem closed_twice :
    ¬ ∀ (as : List Act) (s : Handles), Machine.run step Handles.start as = some s →
      ∀ k e c, endOwnedProcess e s k = some c → Ended s k c := by
  intro h
  obtain ⟨hcount, -⟩ := h [.call (.register 0 (some 7) true)] _ rfl 7 throwing _ rfl 0 rfl
  revert hcount
  decide

end OwnedHandles

end Tabnode
