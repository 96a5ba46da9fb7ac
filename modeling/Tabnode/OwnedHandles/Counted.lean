import Tabnode.OwnedHandles.Handles

/-!
# The sets of the runs are their handles

Every call touches one handle: what the sets hold of the others stays. So the sets are
right when each handle is `Placed` in them, and a call only has to place its own again.
While a run ends, the handles it is to close are away: they still belong to the run and
are in none of its sets. Each close settles its own, and at the end none is away.
-/

namespace Tabnode

namespace OwnedHandles

open Buckets

/-- Nothing changes but at one handle. -/
structure Touches (h : Handle) (s t : Handles) : Prop where
  ownerOf : ∀ b, b ≠ h → t.ownerOf b = s.ownerOf b
  refHeld : ∀ b, b ≠ h → t.refHeld b = s.refHeld b
  active : ∀ b, b ≠ h → t.activeHandles b = s.activeHandles b
  owners : ∀ b, b ≠ h → ∀ k, b ∈ members t.owners k ↔ b ∈ members s.owners k
  allOwned : ∀ b, b ≠ h → ∀ k,
    b ∈ members t.allOwned k ↔ b ∈ members s.allOwned k
  owners_tidy : Tidy s.owners → Tidy t.owners
  allOwned_tidy : Tidy s.allOwned → Tidy t.allOwned

theorem Touches.refl (h : Handle) (s : Handles) : Touches h s s where
  ownerOf _ _ := rfl
  refHeld _ _ := rfl
  active _ _ := rfl
  owners _ _ _ := Iff.rfl
  allOwned _ _ _ := Iff.rfl
  owners_tidy := id
  allOwned_tidy := id

variable {h : Handle} {s t : Handles}

theorem Touches.trans {u : Handles} (hst : Touches h s t)
    (htu : Touches h t u) : Touches h s u where
  ownerOf b hb := (htu.ownerOf b hb).trans (hst.ownerOf b hb)
  refHeld b hb := (htu.refHeld b hb).trans (hst.refHeld b hb)
  active b hb := (htu.active b hb).trans (hst.active b hb)
  owners b hb k := (htu.owners b hb k).trans (hst.owners b hb k)
  allOwned b hb k := (htu.allOwned b hb k).trans (hst.allOwned b hb k)
  owners_tidy := htu.owners_tidy ∘ hst.owners_tidy
  allOwned_tidy := htu.allOwned_tidy ∘ hst.allOwned_tidy

namespace Handles

variable (s : Handles) (h : Handle)

theorem mem_add_of_ne {m : Token → Option (List Handle)} {b : Handle} (hb : b ≠ h)
    (j k : Token) : b ∈ members (add m j h) k ↔ b ∈ members m k := by
  rw [mem_members_add]
  simp [hb]

theorem mem_remove_of_ne {m : Token → Option (List Handle)} {b : Handle} (hb : b ≠ h)
    (j k : Token) :
    b ∈ members (remove m j h) k ↔ b ∈ members m k := by
  rw [members_remove]
  split
  · next hk => rw [hk, List.mem_erase_of_ne hb]
  · rfl

theorem hold_touches : Touches h s (s.hold h) := by
  unfold hold
  split
  · exact Touches.refl h s
  · next token _ =>
      split
      · exact { Touches.refl h s with
          owners := fun b hb k => mem_add_of_ne h hb token k
          owners_tidy := fun ht => ht.add token h }
      · exact Touches.refl h s

theorem drop_touches : Touches h s (s.drop h) := by
  unfold drop
  split
  · exact Touches.refl h s
  · next token _ =>
      exact { Touches.refl h s with
        owners := fun b hb k => mem_remove_of_ne h hb token k
        owners_tidy := fun ht => ht.remove token h }

theorem join_touches : Touches h s (s.join h) := by
  unfold join
  split
  · exact Touches.refl h s
  · next token _ =>
      exact { Touches.refl h s with
        allOwned := fun b hb k => mem_add_of_ne h hb token k
        allOwned_tidy := fun ht => ht.add token h }

theorem leave_touches : Touches h s (s.leave h) := by
  unfold leave
  split
  · exact Touches.refl h s
  · next token _ =>
      exact { Touches.refl h s with
        allOwned := fun b hb k => mem_remove_of_ne h hb token k
        allOwned_tidy := fun ht => ht.remove token h }

theorem setHeldBy_touches (held : Option (Option Token)) : Touches h s (s.setHeldBy h held) :=
  { Touches.refl h s with
    ownerOf := fun b hb => by simp only [ownerOf, setHeldBy, Function.update_of_ne hb] }

theorem setRef_touches (on : Bool) : Touches h s (s.setRef h on) :=
  { Touches.refl h s with
    refHeld := fun b hb => by simp only [setRef, Function.update_of_ne hb] }

theorem setActive_touches (on : Bool) : Touches h s (s.setActive h on) :=
  { Touches.refl h s with
    active := fun b hb => by simp only [setActive, Function.update_of_ne hb] }

@[simp] theorem hold_ownerOf (b : Handle) : (s.hold h).ownerOf b = s.ownerOf b := by
  unfold hold
  split
  · rfl
  · split <;> rfl

@[simp] theorem hold_refHeld : (s.hold h).refHeld = s.refHeld := by
  unfold hold
  split
  · rfl
  · split <;> rfl

@[simp] theorem hold_activeHandles : (s.hold h).activeHandles = s.activeHandles := by
  unfold hold
  split
  · rfl
  · split <;> rfl

@[simp] theorem hold_allOwned : (s.hold h).allOwned = s.allOwned := by
  unfold hold
  split
  · rfl
  · split <;> rfl

@[simp] theorem drop_ownerOf (b : Handle) : (s.drop h).ownerOf b = s.ownerOf b := by
  unfold drop
  split <;> rfl

@[simp] theorem drop_refHeld : (s.drop h).refHeld = s.refHeld := by
  unfold drop
  split <;> rfl

@[simp] theorem drop_activeHandles : (s.drop h).activeHandles = s.activeHandles := by
  unfold drop
  split <;> rfl

@[simp] theorem drop_allOwned : (s.drop h).allOwned = s.allOwned := by
  unfold drop
  split <;> rfl

@[simp] theorem join_ownerOf (b : Handle) : (s.join h).ownerOf b = s.ownerOf b := by
  unfold join
  split <;> rfl

@[simp] theorem join_owners : (s.join h).owners = s.owners := by
  unfold join
  split <;> rfl

@[simp] theorem leave_owners : (s.leave h).owners = s.owners := by
  unfold leave
  split <;> rfl

@[simp] theorem setHeldBy_ownerOf (held : Option (Option Token)) :
    (s.setHeldBy h held).ownerOf h = held.join := by
  simp only [ownerOf, setHeldBy, Function.update_self]

@[simp] theorem setRef_refHeld (on : Bool) : (s.setRef h on).refHeld h = on := by
  simp only [setRef, Function.update_self]

@[simp] theorem setActive_activeHandles (on : Bool) :
    (s.setActive h on).activeHandles h = on := by
  simp only [setActive, Function.update_self]

@[simp] theorem setRef_ownerOf (on : Bool) (b : Handle) :
    (s.setRef h on).ownerOf b = s.ownerOf b := rfl

@[simp] theorem setActive_ownerOf (on : Bool) (b : Handle) :
    (s.setActive h on).ownerOf b = s.ownerOf b := rfl

variable {t : Token}

theorem mem_hold : h ∈ members (s.hold h).owners t ↔
    h ∈ members s.owners t ∨
      (s.ownerOf h = some t ∧ s.refHeld h = true ∧ s.activeHandles h = true) := by
  unfold hold
  split
  · next hnone => simp [hnone]
  · next token htoken =>
      split
      · next hboth =>
          rw [Bool.and_eq_true] at hboth
          simp [mem_members_add, htoken, hboth, eq_comm]
      · next hboth =>
          rw [Bool.and_eq_true] at hboth
          simp [hboth]

theorem mem_drop (htidy : Tidy s.owners) : h ∈ members (s.drop h).owners t ↔
      h ∈ members s.owners t ∧ s.ownerOf h ≠ some t := by
  unfold drop
  split
  · next hnone => simp [hnone]
  · next token htoken => simp [mem_members_remove htidy, htoken, eq_comm]

theorem mem_join : h ∈ members (s.join h).allOwned t ↔
    h ∈ members s.allOwned t ∨ s.ownerOf h = some t := by
  unfold join
  split
  · next hnone => simp [hnone]
  · next token htoken => simp [mem_members_add, htoken, eq_comm]

theorem mem_leave (htidy : Tidy s.allOwned) : h ∈ members (s.leave h).allOwned t ↔
      h ∈ members s.allOwned t ∧ s.ownerOf h ≠ some t := by
  unfold leave
  split
  · next hnone => simp [hnone]
  · next token htoken => simp [mem_members_remove htidy, htoken, eq_comm]

end Handles

/-- What the sets have of a handle is right, but that it may not hold its run's loop yet:
one that is away is in no set of all the handles of a run. -/
structure Under (s : Handles) (away : Prop) (h : Handle) : Prop where
  counted : ∀ t, h ∈ members s.owners t →
    s.ownerOf h = some t ∧ s.refHeld h = true ∧ s.activeHandles h = true
  owned : ∀ t, h ∈ members s.allOwned t ↔ s.ownerOf h = some t ∧ ¬ away

/-- The sets have a handle where it belongs. -/
structure Placed (s : Handles) (away : Prop) (h : Handle) : Prop extends Under s away h where
  held : ∀ t, ¬ away → s.ownerOf h = some t → s.refHeld h = true → s.activeHandles h = true →
    h ∈ members s.owners t

theorem Placed.of_touches {away : Prop} {b : Handle} (hp : Placed s away b) (ht : Touches h s t)
    (hb : b ≠ h) : Placed t away b where
  counted k hk := by
    rw [ht.ownerOf b hb, ht.refHeld b hb, ht.active b hb]
    exact hp.counted k ((ht.owners b hb k).1 hk)
  owned k := by
    rw [ht.allOwned b hb k, ht.ownerOf b hb]
    exact hp.owned k
  held k hnot := by
    rw [ht.ownerOf b hb, ht.refHeld b hb, ht.active b hb, ht.owners b hb k]
    exact hp.held k hnot

def Gone (s : Handles) (h : Handle) : Prop :=
  (∀ t, h ∉ members s.owners t) ∧ ∀ t, h ∉ members s.allOwned t

theorem Under.setRef {away : Prop} (hu : Under s away h) : Under (s.setRef h true) away h where
  counted t ht :=
    ⟨(hu.counted t ht).1, Handles.setRef_refHeld s h true, (hu.counted t ht).2.2⟩
  owned := hu.owned

theorem Under.setActive {away : Prop} (hu : Under s away h) :
    Under (s.setActive h true) away h where
  counted t ht :=
    ⟨(hu.counted t ht).1, (hu.counted t ht).2.1, Handles.setActive_activeHandles s h true⟩
  owned := hu.owned

theorem Under.hold {away : Prop} (hu : Under s away h) : Placed (s.hold h) away h where
  counted t ht := by
    rw [Handles.hold_ownerOf, Handles.hold_refHeld, Handles.hold_activeHandles]
    rcases (s.mem_hold h).1 ht with hmem | hnew
    · exact hu.counted t hmem
    · exact hnew
  owned t := by
    rw [Handles.hold_allOwned, Handles.hold_ownerOf]
    exact hu.owned t
  held t _ := by
    rw [Handles.hold_ownerOf, Handles.hold_refHeld, Handles.hold_activeHandles]
    exact fun hown href hactive => (s.mem_hold h).2 (.inr ⟨hown, href, hactive⟩)

/-- A handle that is not both referenced and active is placed when it is dropped. -/
theorem placed_drop {away : Prop} (htidy : Tidy s.owners)
    (hcounted : ∀ t, h ∈ members s.owners t → s.ownerOf h = some t)
    (howned : ∀ t, h ∈ members s.allOwned t ↔ s.ownerOf h = some t ∧ ¬ away)
    (hnot : ¬ (s.refHeld h = true ∧ s.activeHandles h = true)) : Placed (s.drop h) away h where
  counted t ht := by
    obtain ⟨hmem, hne⟩ := (s.mem_drop h htidy).1 ht
    exact absurd (hcounted t hmem) hne
  owned t := by
    rw [Handles.drop_allOwned, Handles.drop_ownerOf]
    exact howned t
  held t _ _ href hactive := by
    rw [Handles.drop_refHeld] at href
    rw [Handles.drop_activeHandles] at hactive
    exact absurd ⟨href, hactive⟩ hnot

theorem Under.gone {away : Prop} (hu : Under s away h) (howners : Tidy s.owners)
    (hall : Tidy s.allOwned) : Gone ((s.drop h).leave h) h := by
  constructor
  · intro t ht
    rw [Handles.leave_owners, s.mem_drop h howners] at ht
    exact ht.2 (hu.counted t ht.1).1
  · intro t ht
    rw [(s.drop h).mem_leave h (by rwa [Handles.drop_allOwned]), Handles.drop_allOwned,
      Handles.drop_ownerOf] at ht
    exact ht.2 ((hu.owned t).1 ht.1).1

theorem Gone.join (hg : Gone s h) : Under (s.join h) False h where
  counted t ht := by
    rw [Handles.join_owners] at ht
    exact absurd ht (hg.1 t)
  owned t := by
    rw [s.mem_join h, Handles.join_ownerOf]
    constructor
    · rintro (hmem | hown)
      · exact absurd hmem (hg.2 t)
      · exact ⟨hown, id⟩
    · exact fun hown => .inr hown.1

/-- No set is empty, and each handle is where it belongs. -/
structure Kept (away : Handle → Prop) (s : Handles) : Prop where
  owners : Tidy s.owners
  allOwned : Tidy s.allOwned
  placed : ∀ h, Placed s (away h) h

variable {away : Handle → Prop}

theorem Kept.touches (hk : Kept away s) (ht : Touches h s t) {now : Handle → Prop}
    (hnow : ∀ b, b ≠ h → now b = away b) (hp : Placed t (now h) h) : Kept now t where
  owners := ht.owners_tidy hk.owners
  allOwned := ht.allOwned_tidy hk.allOwned
  placed b := by
    by_cases hb : b = h
    · rw [hb]
      exact hp
    · rw [hnow b hb]
      exact (hk.placed b).of_touches ht hb

def Op.handle : Op → Handle
  | .register h _ _ => h
  | .start h => h
  | .stop h => h
  | .ref h => h
  | .unref h => h
  | .release h => h
  | .holdRequest request _ _ => request
  | .adopt h _ => h

def Op.Settles (h : Handle) : Op → Prop
  | .register i _ _ => i = h
  | .release i => i = h
  | .holdRequest request _ _ => request = h
  | .adopt i _ => i = h
  | _ => False

variable {op : Op}

theorem Op.Takes.settles {token : Token} (ht : op.Takes token h) : op.Settles h := by
  cases op with
  | release i => exact ht
  | adopt i given => exact ht.1
  | _ => cases ht

namespace Handles

variable (s : Handles) (h : Handle)

theorem registerHandle_touches (current : Option Token) (active : Bool) :
    Touches h s (s.registerHandle h current active) := by
  have hjoined : Touches h s (((s.setHeldBy h (some current)).join h).setRef h true) :=
    ((s.setHeldBy_touches h _).trans (join_touches _ h)).trans (setRef_touches _ h true)
  unfold registerHandle
  split
  · exact (hjoined.trans (setActive_touches _ h true)).trans (hold_touches _ h)
  · exact hjoined.trans (hold_touches _ h)

theorem releaseHandle_touches : Touches h s (s.releaseHandle h) :=
  (((((s.drop_touches h).trans (leave_touches _ h)).trans (setHeldBy_touches _ h _)).trans
    (setRef_touches _ h _)).trans (setActive_touches _ h _))

@[simp] theorem registerHandle_ownerOf (current : Option Token) (active : Bool) :
    (s.registerHandle h current active).ownerOf h = current := by
  unfold registerHandle
  split
  · rw [hold_ownerOf, setActive_ownerOf, setRef_ownerOf, join_ownerOf, setHeldBy_ownerOf]
    rfl
  · rw [hold_ownerOf, setRef_ownerOf, join_ownerOf, setHeldBy_ownerOf]
    rfl

@[simp] theorem startHandle_ownerOf : (s.startHandle h).ownerOf h = s.ownerOf h :=
  hold_ownerOf _ h h

@[simp] theorem stopHandle_ownerOf : (s.stopHandle h).ownerOf h = s.ownerOf h :=
  drop_ownerOf _ h h

@[simp] theorem refHandle_ownerOf : (s.refHandle h).ownerOf h = s.ownerOf h :=
  hold_ownerOf _ h h

@[simp] theorem unrefHandle_ownerOf : (s.unrefHandle h).ownerOf h = s.ownerOf h :=
  drop_ownerOf _ h h

@[simp] theorem releaseHandle_ownerOf : (s.releaseHandle h).ownerOf h = none := by
  rw [releaseHandle, setActive_ownerOf, setRef_ownerOf, setHeldBy_ownerOf]
  rfl

@[simp] theorem adoptHandle_ownerOf (token : Option Token) :
    (s.adoptHandle h token).ownerOf h = token := by
  rw [adoptHandle, hold_ownerOf, join_ownerOf, setHeldBy_ownerOf]
  rfl

theorem adoptHandle_touches (token : Option Token) : Touches h s (s.adoptHandle h token) :=
  (((((s.drop_touches h).trans (leave_touches _ h)).trans (setHeldBy_touches _ h _)).trans
    (join_touches _ h)).trans (hold_touches _ h))

end Handles

theorem perform_touches (h : perform s op = some t) : Touches op.handle s t := by
  cases op with
  | register i current active =>
      simp only [perform] at h
      split at h
      · cases h
        exact s.registerHandle_touches i current active
      · cases h
  | start i =>
      cases h
      exact (s.setActive_touches i true).trans (Handles.hold_touches _ i)
  | stop i =>
      cases h
      exact (s.setActive_touches i false).trans (Handles.drop_touches _ i)
  | ref i =>
      cases h
      exact (s.setRef_touches i true).trans (Handles.hold_touches _ i)
  | unref i =>
      cases h
      exact (s.setRef_touches i false).trans (Handles.drop_touches _ i)
  | release i =>
      cases h
      exact s.releaseHandle_touches i
  | holdRequest request i current =>
      simp only [perform] at h
      split at h
      · cases h
        exact (s.registerHandle_touches request current true).trans
          (Handles.adoptHandle_touches _ request _)
      · cases h
  | adopt i token =>
      cases h
      exact s.adoptHandle_touches i token

/-- A handle that belongs to no run is placed when it is registered. -/
theorem Kept.registerHandle (hk : Kept away s) (hnone : s.ownerOf h = none) (current : Option Token)
    (active : Bool) : Placed (s.registerHandle h current active) False h := by
  have hgone : Gone (s.setHeldBy h (some current)) h := by
    constructor
    · intro t ht
      have hown := ((hk.placed h).counted t ht).1
      rw [hnone] at hown
      cases hown
    · intro t ht
      have hown := (((hk.placed h).owned t).1 ht).1
      rw [hnone] at hown
      cases hown
  have hjoined := hgone.join.setRef
  unfold Handles.registerHandle
  split
  · exact hjoined.setActive.hold
  · exact hjoined.hold

theorem Kept.adoptHandle (hk : Kept away s) (h : Handle)
    (token : Option Token) : Placed (s.adoptHandle h token) False h := by
  have hgone : Gone (((s.drop h).leave h).setHeldBy h (some token)) h :=
    (hk.placed h).toUnder.gone hk.owners hk.allOwned
  exact hgone.join.hold

theorem Kept.releaseHandle (hk : Kept away s)
    (h : Handle) : Placed (s.releaseHandle h) False h := by
  have hgone : Gone (s.releaseHandle h) h :=
    (hk.placed h).toUnder.gone hk.owners hk.allOwned
  have hnone : (s.releaseHandle h).ownerOf h = none := s.releaseHandle_ownerOf h
  refine ⟨⟨fun t ht => absurd ht (hgone.1 t), fun t => ?_⟩, fun t _ hown => ?_⟩
  · rw [hnone]
    refine iff_of_false (hgone.2 t) ?_
    rintro ⟨hown, -⟩
    cases hown
  · rw [hnone] at hown
    cases hown

theorem Kept.holdRequest (hk : Kept away s) {request : Handle} (hnone : s.ownerOf request = none)
    (h : Handle)
    (current : Option Token) : Placed (s.holdRequest request h current) False request := by
  have hregistered : Kept (fun b => away b ∧ b ≠ request)
      (s.registerHandle request current true) := by
    refine hk.touches (s.registerHandle_touches request current true)
      (fun b hb => by simp [hb]) ?_
    simpa using hk.registerHandle hnone current true
  exact hregistered.adoptHandle request _

theorem Kept.startHandle (hk : Kept away s) (h : Handle) : Placed (s.startHandle h) (away h) h :=
  (hk.placed h).toUnder.setActive.hold

theorem Kept.refHandle (hk : Kept away s) (h : Handle) : Placed (s.refHandle h) (away h) h :=
  (hk.placed h).toUnder.setRef.hold

theorem Kept.stopHandle (hk : Kept away s) (h : Handle) : Placed (s.stopHandle h) (away h) h :=
  placed_drop (s := s.setActive h false) hk.owners
    (fun t ht => ((hk.placed h).counted t ht).1) (hk.placed h).owned (by simp)

theorem Kept.unrefHandle (hk : Kept away s) (h : Handle) : Placed (s.unrefHandle h) (away h) h :=
  placed_drop (s := s.setRef h false) hk.owners
    (fun t ht => ((hk.placed h).counted t ht).1) (hk.placed h).owned (by simp)

theorem Kept.perform (hk : Kept away s)
    (h : perform s op = some t) : Kept (fun b => away b ∧ ¬ op.Settles b) t := by
  refine hk.touches (perform_touches h) (fun b hb => ?_) ?_
  · -- the calls that settle a handle settle their own
    have hnot : ¬ op.Settles b := by
      cases op <;> first | exact id | exact fun heq => hb heq.symm
    simp [hnot]
  cases op with
  | register i current active =>
      simp only [OwnedHandles.perform] at h
      split at h
      · next hnone =>
          cases h
          simpa [Op.Settles, Op.handle] using hk.registerHandle hnone current active
      · cases h
  | start i =>
      cases h
      simpa [Op.Settles, Op.handle] using hk.startHandle i
  | stop i =>
      cases h
      simpa [Op.Settles, Op.handle] using hk.stopHandle i
  | ref i =>
      cases h
      simpa [Op.Settles, Op.handle] using hk.refHandle i
  | unref i =>
      cases h
      simpa [Op.Settles, Op.handle] using hk.unrefHandle i
  | release i =>
      cases h
      simpa [Op.Settles, Op.handle] using hk.releaseHandle i
  | holdRequest request i current =>
      simp only [OwnedHandles.perform] at h
      split at h
      · next hnone =>
          cases h
          simpa [Op.Settles, Op.handle] using hk.holdRequest hnone i current
      · cases h
  | adopt i token =>
      cases h
      simpa [Op.Settles, Op.handle] using hk.adoptHandle i token

theorem Kept.mono (hk : Kept away s) {now : Handle → Prop}
    (hnow : ∀ h, now h ↔ away h) : Kept now s := by
  have heq : now = away := funext fun h => propext (hnow h)
  rw [heq]
  exact hk

theorem Kept.script {ops : List Op} (hk : Kept away s)
    (h : Machine.run OwnedHandles.perform s ops = some t) :
    Kept (fun b => away b ∧ ∀ op ∈ ops, ¬ op.Settles b) t := by
  induction ops generalizing s away with
  | nil =>
      cases h
      exact hk.mono fun b => by simp
  | cons op ops ih =>
      obtain ⟨m, hm, hrest⟩ := Machine.run_cons_eq_some.1 h
      exact (ih (hk.perform hm) hrest).mono fun b => by simp [and_assoc]

end OwnedHandles

end Tabnode
