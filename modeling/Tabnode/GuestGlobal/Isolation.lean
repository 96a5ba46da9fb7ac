import Tabnode.GuestGlobal.Simulation

/-!
# A guest's global is its own

While no operation lands on the realm, every operation answers as on an ordinary object of
its process, whatever the other processes do meanwhile (`ordinary_of_run`).
-/

namespace Tabnode

namespace GuestGlobal

open Function Ordinary
open List hiding set
open OrderedMap hiding set

variable {α β : Type*} {r : Realm α β} {p : ℕ} {g : Guest α β} {o : Ordinary α β} {k : Key}

/-! ## Names -/

theorem mem_foldl_pushKey (keys l : List Key) : k ∈ l.foldl pushKey keys ↔ k ∈ keys ∨ k ∈ l := by
  induction l generalizing keys with
  | nil => simp
  | cons j l ih =>
    rw [foldl_cons, ih, pushKey]
    split
    · rename_i hj
      rw [mem_cons]
      refine ⟨fun h => h.imp_right .inr, ?_⟩
      rintro (h | rfl | h)
      · exact .inl h
      · exact .inl hj
      · exact .inr h
    · rw [mem_append, mem_singleton, mem_cons, or_assoc]

theorem nodup_foldl_pushKey {keys : List Key} (h : keys.Nodup) (l : List Key) :
    (l.foldl pushKey keys).Nodup := by
  induction l generalizing keys with
  | nil => exact h
  | cons j l ih =>
    rw [foldl_cons]
    refine ih ?_
    rw [pushKey]
    split
    · exact h
    · rename_i hj
      refine nodup_append.2 ⟨h, nodup_singleton j, ?_⟩
      rintro a ha b hb rfl
      exact hj ((mem_singleton.1 hb) ▸ ha)

theorem filter_foldl_pushKey (q : Key → Bool) (keys l : List Key) :
    (l.foldl pushKey keys).filter q = (l.filter q).foldl pushKey (keys.filter q) := by
  induction l generalizing keys with
  | nil => rfl
  | cons j l ih =>
    rw [foldl_cons, ih, filter_cons]
    by_cases hq : q j = true
    · have hpush : (pushKey keys j).filter q = pushKey (keys.filter q) j := by
        by_cases hj : j ∈ keys
        · rw [pushKey, pushKey, if_pos hj, if_pos (mem_filter.2 ⟨hj, hq⟩)]
        · rw [pushKey, pushKey, if_neg hj, if_neg fun hf => hj (mem_filter.1 hf).1,
            filter_append, filter_singleton, hq, cond_true]
      rw [if_pos hq, foldl_cons, hpush]
    · have hpush : (pushKey keys j).filter q = keys.filter q := by
        rw [pushKey]
        split
        · rfl
        · rw [filter_append, filter_singleton, Bool.eq_false_iff.2 hq, cond_false,
            append_nil]
      rw [if_neg hq, hpush]

theorem mem_ownKeys (object : Globals α β) : k ∈ ownKeys object ↔ k ∈ keys object := by
  have hindex : ∀ n, n ∈ (keys object).filterMap Key.index? ↔
      .index n ∈ keys object := by
    intro n
    rw [mem_filterMap]
    constructor
    · rintro ⟨j, hj, hn⟩
      cases j with
      | index m => exact (Option.some.inj hn) ▸ hj
      | name _ | symbol _ => cases hn
    · exact fun hn => ⟨_, hn, rfl⟩
  cases k <;> simp [ownKeys, hindex, Key.isName, Key.isSymbol]

theorem nodup_ownKeys {object : Globals α β} (h : (keys object).Nodup) :
    (ownKeys object).Nodup := by
  have hindices : ((((keys object).filterMap Key.index?).mergeSort (· ≤ ·)).map
      Key.index).Nodup := by
    refine List.Nodup.map (fun _ _ heq => Key.index.inj heq) ?_
    rw [(mergeSort_perm _ _).nodup_iff]
    refine List.Nodup.filterMap (fun a b n ha hb => ?_) h
    cases a <;> cases b <;> simp_all [Key.index?]
  refine nodup_append.2 ⟨nodup_append.2 ⟨hindices, h.filter _, ?_⟩, h.filter _, ?_⟩
  · rintro a ha b hb rfl
    obtain ⟨n, -, rfl⟩ := mem_map.1 ha
    cases (mem_filter.1 hb).2
  · rintro a ha b hb rfl
    rcases mem_append.1 ha with ha | ha
    · obtain ⟨n, -, rfl⟩ := mem_map.1 ha
      cases (mem_filter.1 hb).2
    · have hname := (mem_filter.1 ha).2
      have hsymbol := (mem_filter.1 hb).2
      cases a <;> cases hname
      cases hsymbol

theorem ownKeys_of_names {object : Globals α β}
    (h : ∀ k ∈ keys object, k.isName = true) : ownKeys object = keys object := by
  have hindices : (keys object).filterMap Key.index? = [] := by
    rw [filterMap_eq_nil_iff]
    intro k hk
    have hname := h k hk
    cases k <;> cases hname
    rfl
  have hnames : (keys object).filter Key.isName = keys object :=
    filter_eq_self.2 h
  have hsymbols : (keys object).filter Key.isSymbol = [] := by
    rw [filter_eq_nil_iff]
    intro k hk
    have hname := h k hk
    cases k <;> cases hname
    simp [Key.isSymbol]
  simp only [ownKeys, hindices, hnames, hsymbols, mergeSort_nil, map_nil,
    nil_append, append_nil]

theorem mem_ownKeysTrap : k ∈ ownKeysTrap r g ↔ k ∈ keys g.target ∨
    k ∉ g.removed ∧ k ∉ localNames ∧ (k ∈ nodeGlobals ∨ k ∈ keys r.own) := by
  simp only [ownKeysTrap, mem_foldl_pushKey, mem_ownKeys, mem_filter, decide_eq_true_eq]
  tauto

/-- The names reported are those of the ordinary object, and the target allows them. -/
theorem ownKeysTrap_perm (h : Sim r p g o) :
    (ownKeysTrap r g).Perm (ownKeys o.own) ∧ KeysAgree g.target (ownKeysTrap r g) = true := by
  have hnodup : (ownKeysTrap r g).Nodup :=
    nodup_foldl_pushKey (nodup_foldl_pushKey (nodup_ownKeys h.nodupTarget) _) _
  have hmem : ∀ k, k ∈ ownKeysTrap r g ↔ k ∈ ownKeys o.own := by
    intro k
    rw [mem_ownKeysTrap, mem_ownKeys]
    by_cases hk : k = processKey
    · subst hk
      have hno := not_or.1 h.untouched
      have hlocal : processKey ∉ localNames := by decide
      have hnode : processKey ∉ nodeGlobals := by decide
      rw [h.process, or_iff_right hno.1, and_iff_right hno.2, and_iff_right hlocal,
        or_iff_right hnode]
    · exact (mem_own_iff h hk).symm
  refine ⟨(perm_ext_iff_of_nodup hnodup (nodup_ownKeys h.nodupOwn)).2 hmem, ?_⟩
  rw [KeysAgree, decide_eq_true hnodup, Bool.true_and, all_eq_true]
  intro e he
  have hkey : e.1 ∈ ownKeysTrap r g := mem_ownKeysTrap.2 (.inl (mem_map_of_mem he))
  rw [decide_eq_true hkey, Bool.or_true]

/-! ## The beginning -/

theorem target_new : keys (Guest.new r).target =
    localNames ++ nodeGlobalAccessors.map fun e => .name e.1 := rfl

theorem removed_new : (Guest.new r).removed = names ["document", "window", "location"] := rfl

theorem not_touched_new : ¬ (Guest.new r).Touched processKey := by
  rw [Guest.Touched, target_new, removed_new]
  exact not_or.2 ⟨by decide, by decide⟩

theorem target_new_apart : ∀ k ∈ (Guest.new r).removed, k ∉ keys (Guest.new r).target := by
  rw [target_new, removed_new]
  decide

theorem at?_new_of_mem (hk : k ≠ processKey) (hmem : k ∈ ownKeysTrap r (Guest.new r)) :
    ∃ property, at? r p (Guest.new r) k = some property := by
  cases hfind : find k (Guest.new r).target with
  | some property => exact ⟨property, at?_of_target hfind⟩
  | none =>
    have hrest := (mem_ownKeysTrap.1 hmem).resolve_left (find_eq_none_iff.1 hfind)
    obtain ⟨hr, hlocal, hstands⟩ := hrest
    rw [at?_of_absent hfind, standingProperty, if_neg (not_or.2 ⟨hr, hlocal⟩), if_neg hk]
    by_cases hnode : k ∈ nodeGlobals
    · rw [if_pos hnode]
      exact ⟨_, rfl⟩
    · obtain ⟨property, hrealm⟩ := mem_keys_iff.1 (hstands.resolve_left hnode)
      rw [if_neg hnode, hrealm]
      exact ⟨_, rfl⟩

theorem at?_new_of_notMem (hk : k ≠ processKey) (hmem : k ∉ ownKeysTrap r (Guest.new r)) :
    at? r p (Guest.new r) k = none := by
  rw [mem_ownKeysTrap, not_or] at hmem
  obtain ⟨htarget, hrest⟩ := hmem
  rw [at?_of_absent (find_eq_none_iff.2 htarget), standingProperty]
  by_cases hout : k ∈ (Guest.new r).removed ∨ k ∈ localNames
  · rw [if_pos hout]
    rfl
  · obtain ⟨hr, hlocal⟩ := not_or.1 hout
    have hno := not_or.1 fun hstands => hrest ⟨hr, hlocal, hstands⟩
    rw [if_neg hout, if_neg hk, if_neg hno.1, find_eq_none_iff.2 hno.2]
    rfl

/-- A new guest's global is in step with the object its process begins with. -/
theorem sim_new (r : Realm α β) (p : ℕ) : Sim r p (Guest.new r) (Ordinary.new r p) where
  find k hk := by
    rw [Ordinary.new, find_map_self]
    split
    · rename_i hmem
      obtain ⟨property, hproperty⟩ := at?_new_of_mem (p := p) hk hmem
      rw [hproperty]
      rfl
    · rename_i hmem
      rw [at?_new_of_notMem hk hmem]
  held := rfl
  untouched := not_touched_new
  process := by
    have hno := not_or.1 (not_touched_new (r := r))
    have hlocal : processKey ∉ localNames := by decide
    have hnode : processKey ∉ nodeGlobals := by decide
    rw [Ordinary.new, keys_map_self, mem_ownKeysTrap, or_iff_right hno.1,
      and_iff_right hno.2, and_iff_right hlocal, or_iff_right hnode]
  apart k hk := find_eq_none_iff.2 (target_new_apart k hk)
  starts _ hk := hk
  inherits _ hk := hk.2.2.2.2
  nodupOwn := by
    rw [Ordinary.new, keys_map_self]
    refine nodup_foldl_pushKey (nodup_foldl_pushKey (nodup_ownKeys ?_) _) _
    rw [target_new]
    decide
  nodupTarget := by
    rw [target_new]
    decide

/-! ## The order of names -/

/-- The guest has made no name since it began. -/
structure Unmade (r : Realm α β) (g : Guest α β) (o : Ordinary α β) : Prop where
  removed : ∀ k ∈ (Guest.new r).removed, k ∈ g.removed
  target : keys g.target =
    (keys (Guest.new r).target).filter fun k => decide (k ∉ g.removed)
  own : keys o.own =
    (ownKeysTrap r (Guest.new r)).filter fun k => decide (k ∉ g.removed)

theorem unmade_new (r : Realm α β) (p : ℕ) : Unmade r (Guest.new r) (Ordinary.new r p) where
  removed _ hk := hk
  target := by
    refine (filter_eq_self.2 fun k hk => ?_).symm
    exact decide_eq_true fun hr => target_new_apart k hr hk
  own := by
    rw [Ordinary.new, keys_map_self]
    refine (filter_eq_self.2 fun k hk => ?_).symm
    refine decide_eq_true fun hr => ?_
    rcases mem_ownKeysTrap.1 hk with htarget | hrest
    · exact target_new_apart k hr htarget
    · exact hrest.1 hr

/-- While no name has been made, names are reported in the order of the ordinary object. -/
theorem Unmade.ownKeysTrap_eq (h : Unmade r g o)
    (hnames : ∀ k ∈ keys r.own, k.isName = true) :
    ownKeysTrap r g = ownKeys o.own := by
  have hstart : ∀ k ∈ keys (Guest.new r).target, k.isName = true := by
    rw [target_new]
    decide
  have hnode : ∀ k ∈ nodeGlobals, k.isName = true := by decide
  have htarget : ∀ k ∈ keys g.target, k.isName = true := by
    intro k hk
    rw [h.target] at hk
    exact hstart k (mem_filter.1 hk).1
  have hown : ∀ k ∈ keys o.own, k.isName = true := by
    intro k hk
    rw [h.own] at hk
    rcases mem_ownKeysTrap.1 (mem_filter.1 hk).1 with ht | ⟨-, -, hn | hr⟩
    · exact hstart k ht
    · exact hnode k hn
    · exact hnames k hr
  have hsame : ∀ l : List Key,
      (l.filter fun k => decide (k ∉ localNames ∧ k ∉ (Guest.new r).removed)).filter
          (fun k => decide (k ∉ g.removed)) =
        l.filter fun k => decide (k ∉ localNames ∧ k ∉ g.removed) := by
    intro l
    rw [filter_filter]
    refine filter_congr fun k _ => ?_
    by_cases hr : k ∈ g.removed
    · simp [hr]
    · have hno : k ∉ (Guest.new r).removed := fun hn => hr (h.removed k hn)
      simp [hr, hno]
  rw [ownKeys_of_names hown, h.own, ownKeysTrap, ownKeysTrap, filter_foldl_pushKey,
    filter_foldl_pushKey, hsame, hsame, ownKeys_of_names hnames, ownKeys_of_names htarget,
    ownKeys_of_names hstart, h.target]

section

variable [DecidableEq α] [DecidableEq β]

variable {object : Globals α β}

theorem keys_callFn {f : Fn β}
    (hf : f = .setter (.name "Navigator") → .name "Navigator" ∈ keys object)
    (held : List (Key × Value α β)) (v : Value α β) :
    keys (callFn r p object held f v).1.1 = keys object := by
  cases f with
  | getter j => rfl
  | setter j =>
    by_cases hnav : j = .name "Navigator"
    · subst hnav
      obtain ⟨property, hfind⟩ := mem_keys_iff.1 (hf rfl)
      simp only [callFn, if_true, PropertyMap.define]
      split
      · exact keys_set_of_find hfind
      · rfl
    · by_cases hname : j ∈ accessorNames
      · simp only [callFn, if_neg hnav, if_pos hname]
      · simp only [callFn, if_neg hnav, if_neg hname]
  | other f => rfl

/-! ## Runs -/

def Op.Makes : Op α β → Prop
  | .set _ _ | .define _ _ => True
  | _ => False

variable {w : World α β} {op : Op α β}

/-- One operation: the realm is as it was, the process is in step with its ordinary object,
and the answers are the same. -/
theorem perform_inStep {p : ℕ} {o : Ordinary α β} (h : Sim w.realm p (w.guests p) o)
    (hop : OwnOp w.realm p (w.guests p) op) : (w.perform p op).1.realm = w.realm ∧
      Sim w.realm p ((w.perform p op).1.guests p) (o.perform w.realm p op).1 ∧
      Same (w.perform p op).2 (o.perform w.realm p op).2 := by
  have hsame : ∀ a : Answer α β, Same a a := by
    intro a
    cases a <;> first | rfl | exact List.Perm.refl _
  cases op with
  | get k =>
    obtain ⟨hstep, hpass⟩ := getTrap_inStep h hop
    simp only [World.perform, passes, hpass, if_true, update_self]
    exact ⟨hstep.realm, hstep.sim, hstep.answer ▸ hsame _⟩
  | set k v =>
    obtain ⟨hstep, hpass⟩ := setTrap_inStep h hop
    simp only [World.perform, passes, hpass, if_true, update_self]
    exact ⟨hstep.realm, hstep.sim, hstep.answer ▸ hsame _⟩
  | has k =>
    obtain ⟨hanswer, hpass⟩ := hasTrap_eq h hop
    simp only [World.perform, passes, hpass, if_true, update_self]
    exact ⟨trivial, h, by rw [hanswer]; exact hsame _⟩
  | delete k =>
    obtain ⟨hstep, hpass⟩ := deleteTrap_inStep h hop
    simp only [World.perform, passes, hpass, if_true, update_self]
    exact ⟨hstep.realm, hstep.sim, hstep.answer ▸ hsame _⟩
  | define k d =>
    obtain ⟨hstep, hpass⟩ := defineTrap_inStep h hop
    simp only [World.perform, passes, hpass, if_true, update_self]
    exact ⟨hstep.realm, hstep.sim, hstep.answer ▸ hsame _⟩
  | getOwn k =>
    obtain ⟨hanswer, hpass⟩ := getOwnTrap_eq h hop
    simp only [World.perform, passes, hpass, if_true, update_self]
    exact ⟨trivial, h, by rw [hanswer]; exact hsame _⟩
  | ownKeys =>
    obtain ⟨hperm, hpass⟩ := ownKeysTrap_perm h
    simp only [World.perform, passes, hpass, if_true, update_self]
    exact ⟨trivial, h, hperm⟩

theorem perform_other (w : World α β) {p q : ℕ} (h : q ≠ p) (op : Op α β) :
    (w.perform p op).1.guests q = w.guests q := by
  simp only [World.perform, update_of_ne h]

theorem perform_get_of_absent (h : Sim r p g o) (hk : k ≠ processKey)
    (hfind : find k g.target = none) : (o.perform r p (.get k)).1 = o := by
  by_cases hr : k ∈ g.removed
  · simp only [perform, h.find_removed hk hr]
  · have hno : ¬ g.Touched k := by
      rw [touched_iff, hfind]
      simpa using hr
    by_cases hnode : k ∈ nodeGlobals
    · simp only [perform, h.find_nodeGlobal hk hno hnode]
    · rcases h.find_realm hk hno hnode with ⟨-, hown⟩ | ⟨q, w, e, -, -, -, hown⟩
      · simp only [perform, hown]
      · simp only [perform, hown]

omit [DecidableEq α] [DecidableEq β] in
theorem Sim.navigator (h : Sim r p g o) {f : Fn β} (hf : Calls g f) :
    f = .setter (.name "Navigator") → .name "Navigator" ∈ keys g.target ∧
      .name "Navigator" ∈ keys o.own := by
  intro hsetter
  have hnew : (Guest.new r).Touched (.name "Navigator") := by
    refine .inl ?_
    rw [target_new]
    decide
  have htarget := (h.starts _ hnew).resolve_right (hf hsetter)
  obtain ⟨property, hproperty⟩ := mem_keys_iff.1 htarget
  exact ⟨htarget, mem_keys_iff.2 ⟨property, h.find_target (by decide) hproperty⟩⟩

omit [DecidableEq α] [DecidableEq β] in
theorem keys_delete (h : (object.delete k).2 = true) : keys (object.delete k).1 =
      (keys object).filter fun j => decide (j ≠ k) := by
  have herase : (object.delete k).1 = erase k object := by
    unfold PropertyMap.delete at h ⊢
    cases hfind : find k object with
    | none => exact (erase_of_find_eq_none hfind).symm
    | some property =>
      rw [hfind] at h
      dsimp only at h ⊢
      split at h
      · rename_i hc
        rw [if_pos hc]
      · cases h
  unfold OrderedMap.keys
  rw [herase, erase, filter_map]
  rfl

omit [DecidableEq α] [DecidableEq β] in
theorem delete_refused (h : (object.delete k).2 = false) : (object.delete k).1 = object := by
  unfold PropertyMap.delete at h ⊢
  cases hfind : find k object with
  | none => rfl
  | some property =>
    rw [hfind] at h
    dsimp only at h ⊢
    split at h
    · cases h
    · rename_i hc
      rw [if_neg hc]

theorem Unmade.perform {p : ℕ} {o : Ordinary α β} (h : Unmade w.realm (w.guests p) o)
    (hsim : Sim w.realm p (w.guests p) o) (hop : OwnOp w.realm p (w.guests p) op)
    (hno : ¬ op.Makes) :
    Unmade w.realm ((w.perform p op).1.guests p) (o.perform w.realm p op).1 := by
  cases op with
  | get k =>
    obtain ⟨hk, hcalls, -⟩ := hop
    simp only [World.perform, update_self, getTrap, if_neg hk]
    cases hfind : find k (w.guests p).target with
    | none =>
      rw [perform_get_of_absent hsim hk hfind]
      exact h
    | some property =>
      have hown := hsim.find_target hk hfind
      obtain ⟨content, e, c⟩ := property
      cases content with
      | data v w => simpa only [getTarget, perform, hown] using h
      | accessor get set =>
        cases get with
        | none => simpa only [getTarget, perform, hown] using h
        | some f =>
          rw [hfind] at hcalls
          have hnav := hsim.navigator hcalls
          simp only [getTarget, perform, hown, called]
          refine ⟨h.removed, ?_, ?_⟩
          · exact (keys_callFn (fun hf => (hnav hf).1) _ _).trans h.target
          · exact (keys_callFn (fun hf => (hnav hf).2) _ _).trans h.own
  | set k v => exact absurd trivial hno
  | has k => simpa only [World.perform, update_self, perform] using h
  | delete k =>
    obtain ⟨hstep, -⟩ := deleteTrap_inStep hsim hop
    have hanswer := hstep.answer
    have hwithout : ∀ l : List Key,
        (l.filter fun j => decide (j ∉ (w.guests p).removed)).filter (fun j => decide (j ≠ k)) =
          l.filter fun j => decide (j ∉ k :: (w.guests p).removed) := by
      intro l
      rw [filter_filter]
      refine filter_congr fun j _ => ?_
      by_cases hj : j = k <;> simp [hj]
    simp only [World.perform, update_self]
    unfold deleteTrap at hanswer ⊢
    cases hdelete : ((w.guests p).target.delete k).2 with
    | false =>
      simp only [hdelete, Bool.false_eq_true, if_false, perform,
        Answer.done.injEq] at hanswer ⊢
      rw [delete_refused hanswer.symm]
      exact h
    | true =>
      simp only [hdelete, if_true, perform, Answer.done.injEq] at hanswer ⊢
      refine ⟨fun j hj => mem_cons_of_mem k (h.removed j hj), ?_, ?_⟩
      · dsimp only
        rw [keys_delete hdelete, h.target, hwithout]
      · dsimp only
        rw [keys_delete hanswer.symm, h.own, hwithout]
  | define k d => exact absurd trivial hno
  | getOwn _ | ownKeys => simpa only [World.perform, update_self, perform] using h

/-- Only the question for the keys is answered with keys, and none is refused. -/
theorem Ordinary.perform_ne (o : Ordinary α β) (r : Realm α β) (p : ℕ) {bad : Answer α β}
    (hbad : bad = .typeError ∨ op ≠ .ownKeys ∧ ∃ l, bad = .keys l) :
    (o.perform r p op).2 ≠ bad := by
  have hnot (a : Answer α β) (htype : a ≠ .typeError) (hkeys : ∀ l, a ≠ .keys l) : a ≠ bad := by
    rintro rfl
    rcases hbad with h | ⟨-, l, h⟩
    · exact htype h
    · exact hkeys l h
  have hcalled : ∀ f v returned args, (∀ v, returned v ≠ bad) →
      (o.called r p f v returned args).2 ≠ bad := by
    intro f v returned args hreturned
    unfold called
    dsimp only
    split
    · exact hreturned _
    · exact hnot _ nofun nofun
    · exact hnot _ nofun nofun
  cases op with
  | get k =>
    unfold perform
    dsimp only
    split
    · exact hnot _ nofun nofun
    · split
      · exact hnot _ nofun nofun
      · exact hnot _ nofun nofun
      · exact hcalled _ _ _ _ fun _ => hnot _ nofun nofun
  | set k v =>
    unfold perform
    dsimp only
    split
    · exact hnot _ nofun nofun
    · split
      · exact hnot _ nofun nofun
      · exact hnot _ nofun nofun
      · exact hnot _ nofun nofun
      · exact hcalled _ _ _ _ fun _ => hnot _ nofun nofun
  | has | delete | define | getOwn => exact hnot _ nofun nofun
  | ownKeys =>
    rcases hbad with rfl | ⟨hop, -⟩
    · exact nofun
    · exact absurd rfl hop

omit [DecidableEq α] [DecidableEq β] in
theorem Same.ne_typeError {a b : Answer α β} (h : Same a b) (hb : b ≠ .typeError) :
    a ≠ .typeError := by
  rintro rfl
  cases b <;> first | exact hb rfl | cases h

omit [DecidableEq α] [DecidableEq β] in
theorem Same.eq_of_not_keys {a b : Answer α β} (h : Same a b) (hb : ∀ l, b ≠ .keys l) : a = b := by
  cases b with
  | keys l => exact absurd rfl (hb l)
  | value | done | descriptor | called | threw | typeError => cases a <;> exact h

def Sims (w : World α β) (objects : ℕ → Ordinary α β) : Prop :=
  ∀ p, Sim w.realm p (w.guests p) (objects p)

variable {objects : ℕ → Ordinary α β}

theorem Sims.perform (h : Sims w objects) {p : ℕ} (hop : OwnOp w.realm p (w.guests p) op) :
    Sims (w.perform p op).1
      (update objects p ((objects p).perform w.realm p op).1) := by
  obtain ⟨hrealm, hnext, -⟩ := perform_inStep (h p) hop
  intro q
  rw [hrealm]
  by_cases hq : q = p
  · subst hq
    rw [update_self]
    exact hnext
  · rw [update_of_ne hq, perform_other w hq]
    exact h q

variable {ops : List (ℕ × Op α β)}

/-- Along a run the answers are the same, and no trap contradicts its target. -/
theorem Sims.answers (h : Sims w objects) (hops : OwnOps w ops) :
    List.Forall₂ Same (w.answers ops) (ordinaryAnswers w.realm objects ops) ∧
      .typeError ∉ w.answers ops := by
  induction ops generalizing w objects with
  | nil => exact ⟨.nil, by simp [World.answers]⟩
  | cons a ops ih =>
    obtain ⟨p, op⟩ := a
    obtain ⟨hop, hops⟩ := hops
    obtain ⟨hrealm, -, hsame⟩ := perform_inStep (h p) hop
    obtain ⟨hrest, hpass⟩ := ih (h.perform hop) hops
    rw [hrealm] at hrest
    refine ⟨.cons hsame hrest, ?_⟩
    rw [World.answers, mem_cons, not_or]
    exact ⟨(hsame.ne_typeError ((objects p).perform_ne w.realm p (.inl rfl))).symm, hpass⟩

omit [DecidableEq α] [DecidableEq β] in
/-- The first operation of such a run, and who has made names after it. -/
theorem KeysFirst.cons {made : List ℕ} {p : ℕ}
    (h : KeysFirst made ((p, op) :: ops)) : (op = .ownKeys → p ∉ made) ∧
      ∃ made', KeysFirst made' ops ∧ ∀ q, q ∉ made' → q ∉ made ∧ (q = p → ¬ op.Makes) := by
  cases op with
  | set | define =>
    refine ⟨fun hop => (by cases hop), p :: made, h, fun q hq => ?_⟩
    rw [mem_cons, not_or] at hq
    exact ⟨hq.2, fun hqp => absurd hqp hq.1⟩
  | ownKeys => exact ⟨fun _ => h.1, made, h.2, fun q hq => ⟨hq, fun _ => id⟩⟩
  | get | has | delete | getOwn =>
    exact ⟨fun hop => (by cases hop), made, h, fun q hq => ⟨hq, fun _ => id⟩⟩

/-- Names asked for before any was made come in the order of the ordinary object. -/
theorem Sims.answers_eq {made : List ℕ} (h : Sims w objects) (hops : OwnOps w ops)
    (hnames : ∀ k ∈ keys w.realm.own, k.isName = true)
    (hunmade : ∀ p, p ∉ made → Unmade w.realm (w.guests p) (objects p))
    (hfirst : KeysFirst made ops) : w.answers ops = ordinaryAnswers w.realm objects ops := by
  induction ops generalizing w objects made with
  | nil => rfl
  | cons a ops ih =>
    obtain ⟨p, op⟩ := a
    obtain ⟨hop, hops⟩ := hops
    obtain ⟨hrealm, -, hsame⟩ := perform_inStep (h p) hop
    obtain ⟨hkeys, made', hfirst', hmade⟩ := hfirst.cons
    have hanswer : (w.perform p op).2 = ((objects p).perform w.realm p op).2 := by
      by_cases hask : op = .ownKeys
      · subst hask
        have heq := (hunmade p (hkeys rfl)).ownKeysTrap_eq hnames
        obtain ⟨-, hpass⟩ := ownKeysTrap_perm (h p)
        rw [heq] at hpass
        simp only [World.perform, passes, Ordinary.perform, heq, hpass, if_true]
      · exact hsame.eq_of_not_keys fun l =>
          (objects p).perform_ne w.realm p (.inr ⟨hask, l, rfl⟩)
    have hunmade' : ∀ q, q ∉ made' → Unmade (w.perform p op).1.realm
        ((w.perform p op).1.guests q)
        (update objects p ((objects p).perform w.realm p op).1 q) := by
      intro q hq
      obtain ⟨hold, hno⟩ := hmade q hq
      rw [hrealm]
      by_cases hqp : q = p
      · subst hqp
        rw [update_self]
        exact (hunmade q hold).perform (h q) hop (hno rfl)
      · rw [update_of_ne hqp, perform_other w hqp]
        exact hunmade q hold
    have hrest := ih (h.perform hop) hops (by rwa [hrealm]) hunmade' hfirst'
    rw [hrealm] at hrest
    rw [World.answers, ordinaryAnswers, hanswer, hrest]

/-- A guest's global is an ordinary object of its process, in any run of any processes
whose operations keep off the realm and what the proxy treats otherwise: each answer is
that of the object, names being given in any order, or in the object's own where they are
asked for before the process makes any; and no trap contradicts its target. -/
theorem ordinary_of_run (r : Realm α β) {ops : List (ℕ × Op α β)} (h : OwnOps (World.new r) ops) :
    List.Forall₂ Same ((World.new r).answers ops) (ordinaryAnswers r (Ordinary.new r) ops) ∧
      .typeError ∉ (World.new r).answers ops ∧
      ((∀ k ∈ keys r.own, k.isName = true) → KeysFirst [] ops →
        (World.new r).answers ops = ordinaryAnswers r (Ordinary.new r) ops) := by
  have hsims : Sims (World.new r) (Ordinary.new r) := fun p => sim_new r p
  obtain ⟨hsame, hpass⟩ := hsims.answers h
  refine ⟨hsame, hpass, fun hnames hfirst => ?_⟩
  exact hsims.answers_eq h hnames (fun p _ => unmade_new r p) hfirst

end

/-- A realm whose global has one name, `console`, and whose prototypes have `toString`. -/
def smallRealm : Realm ℕ ℕ where
  own := [(.name "console", ⟨.data (.given 7) true, false, true⟩)]
  inherited := [(.name "toString", ⟨.data (.given 8) true, false, true⟩)]
  isFunction _ := false
  isObject _ := false

/-- One process takes `atob` for its own, another deletes it from its own. -/
theorem ordinary_of_run_atob :
    (World.new smallRealm).answers
        [(0, .ownKeys), (0, .set (.name "atob") (.given 1)), (1, .get (.name "atob")),
          (1, .delete (.name "atob")), (0, .get (.name "atob")), (1, .has (.name "atob"))] =
      ordinaryAnswers smallRealm (Ordinary.new smallRealm)
        [(0, .ownKeys), (0, .set (.name "atob") (.given 1)), (1, .get (.name "atob")),
          (1, .delete (.name "atob")), (0, .get (.name "atob")), (1, .has (.name "atob"))] :=
  (ordinary_of_run smallRealm (by decide +kernel)).2.2 (by decide) (by simp [KeysFirst])

/-- What one process assigns under a name of its own, another reads. -/
theorem assigned_name_is_seen :
    ¬ List.Forall₂ Same
      ((World.new smallRealm).answers
        [(0, .set (.name "settings") (.given 1)), (1, .get (.name "settings"))])
      (ordinaryAnswers smallRealm (Ordinary.new smallRealm)
        [(0, .set (.name "settings") (.given 1)), (1, .get (.name "settings"))]) := by
  have hseen : (World.new smallRealm).answers
      [(0, .set (.name "settings") (.given 1)), (1, .get (.name "settings"))] =
        [.done true, .value (.given 1)] := by decide +kernel
  have hmeant : ordinaryAnswers smallRealm (Ordinary.new smallRealm)
      [(0, .set (.name "settings") (.given 1)), (1, .get (.name "settings"))] =
        [.done true, .value .undefined] := by decide +kernel
  rw [hseen, hmeant]
  intro h
  cases h with
  | cons _ hrest =>
    cases hrest with
    | cons hvalue _ => cases hvalue

end GuestGlobal

end Tabnode
