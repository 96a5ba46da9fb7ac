import Tabnode.Data.Journal
import Tabnode.VirtualFS.Plan

/-!
# What an action does to the tree

`Edit.tree` is the tree after an edit, as a function of the tree before it. An
action either ends in that tree, or stops while it makes directories, at one
that cannot be reported (`act_outcome`).
-/

namespace Tabnode

namespace VirtualFS

open Effect

/-! ## The tree an action ends in -/

def Edit.tree (now : JsNumber) (parent : Place) (root : FSNode) : Edit → FSNode
  | .nothing => root
  | .write _ name data => withFile now root parent name data
  | .setContent _ f data =>
      f.assign (fun a => { a with kind := .file data, mtime := now }) root
  | .add _ f name node => f.put name node root
  | .drop _ f name => f.remove name root
  | .move _ _ source oldName node newName =>
      (source.remove oldName root).put parent newName node
  | .setMode _ f mode => f.assign (fun a => { a with mode := some mode }) root
  | .setTimes _ f atime mtime =>
      match mtime with
      | .ok mtime =>
          f.assign (fun a => { a with mtime := mtime })
            (f.assign (fun a => { a with atime := some atime }) root)
      | .error _ => f.assign (fun a => { a with atime := some atime }) root
  | .mount name tree => root.put parent name (mountPoint tree now)
  | .unmount place name => root.remove place name

@[simp] theorem root_emit (env : Env) (event : Event) (s : State) :
    ((emit env event).run s).2.root = s.root := by
  rw [run_emit]

theorem root_forEach {α : Type} {f : α → Fs Unit}
    (hf : ∀ a s, ((f a).run s).2.root = s.root) (l : List α) (s : State) :
    ((forEach f l).run s).2.root = s.root := by
  induction l generalizing s with
  | nil => rfl
  | cons a l ih =>
      rw [forEach, run_bind]
      have ha := hf a s
      cases hr : (f a).run s with
      | mk r s' =>
          rw [hr] at ha
          cases r with
          | error e => exact ha
          | ok u => exact (ih s').trans ha

theorem root_announce (env : Env) (oldPath newPath : Str) (node : FSNode)
    (replaced : Option FSNode) (s : State) :
    ((renameSync.announce env oldPath newPath node replaced).run s).2.root = s.root := by
  rw [renameSync.announce, run_bind]
  have hgone := root_forEach (fun p s => root_emit env (.delete p) s)
    (gonePaths oldPath newPath node replaced) s
  cases hr : (forEach (fun p => emit env (.delete p))
      (gonePaths oldPath newPath node replaced)).run s with
  | mk r s' =>
      rw [hr] at hgone
      cases r with
      | error e => exact hgone
      | ok u => exact (root_forEach (root_emitChanged env) _ s').trans hgone

theorem root_finish (env : Env) (e : Edit) (parent : Place) (s : State) :
    ((finish env e parent).run s).2.root = e.tree env.now parent s.root := by
  cases e with
  | nothing => rfl
  | write _ _ _ | setContent _ _ _ => exact root_emit env _ _
  | add path f name node => exact root_emitChanged env path _
  | drop path f name => exact root_emit env _ _
  | move oldPath newPath source oldName node newName =>
      rw [finish, finishMove, run_get_bind, run_bind, run_edit]
      cases source.childPlace oldName with
      | none => exact root_announce env oldPath newPath node _ _
      | some oldPlace =>
          by_cases hp : oldPlace <+: parent
          · simp only [if_pos hp]
            rfl
          · simp only [if_neg hp]
            exact root_announce env oldPath newPath node _ _
  | setMode path f mode => exact root_emitChanged env path _
  | setTimes path f atime mtime =>
      cases mtime with
      | error e => rfl
      | ok mtime => exact root_emitChanged env path _
  | mount _ _ | unmount _ _ => rfl

def Event.toChange : Event → Change Str
  | .change path _ => .add path
  | .delete path => .drop path

def madePlaces : Place → List Name → List Place
  | _, [] => []
  | base, name :: rest => (base ++ [name]) :: madePlaces (base ++ [name]) rest

/-- The state after all of some directories were made, each of them reported. -/
structure Made (env : Env) (base : Place) (missing : List Name) (s s' : State) : Prop where
  root : s'.root = withDirectories env.now s.root base missing
  reported : env.changeListened → ∀ k < missing.length, ∃ event,
    changeEvent (withDirectories env.now s.root base (missing.take (k + 1)))
      (absolute (base ++ missing.take (k + 1))) = .ok event
  events : ∃ es, s'.events = s.events ++ es ∧ (env.changeListened →
    es.map Event.toChange = (madePlaces base missing).map fun q => .add (absolute q))

theorem emitChanged_ok {env : Env} {path : Str} {s s' : State}
    (h : (emitChanged env path).run s = (.ok (), s')) :
    (env.changeListened → ∃ event, changeEvent s.root path = .ok event) ∧
      ∃ es, s'.events = s.events ++ es ∧
        (env.changeListened → es.map Event.toChange = [.add path]) := by
  rw [run_emitChanged] at h
  split at h
  · next hl =>
      cases hc : changeEvent s.root path with
      | error e => simp [hc] at h
      | ok event =>
          simp only [hc, Prod.mk.injEq, true_and] at h
          refine ⟨fun _ => ⟨event, rfl⟩, [event], by rw [← h], fun _ => ?_⟩
          rw [changeEvent] at hc
          split at hc
          · cases hc
            rfl
          · cases hc
  · next hl =>
      simp only [Prod.mk.injEq, true_and] at h
      exact ⟨fun h' => absurd h' hl, [], by rw [← h]; simp, fun h' => absurd h' hl⟩

/-- Making directories ends with all of them made, or stops at one that was made
and could not be reported. -/
theorem makeDirectories_outcome (env : Env) (base : Place) (missing : List Name)
    (s : State) :
    (∃ s', (makeDirectories env base missing).run s = (.ok (base ++ missing), s') ∧
      Made env base missing s s') ∨
    ∃ e s' k, (makeDirectories env base missing).run s = (.error e, s') ∧
      k < missing.length ∧
      s'.root = withDirectories env.now s.root base (missing.take (k + 1)) ∧
      env.changeListened ∧
      changeEvent s'.root (absolute (base ++ missing.take (k + 1))) = .error e := by
  induction missing generalizing base s with
  | nil =>
      refine .inl ⟨s, by rw [List.append_nil]; rfl, rfl, ?_, [], by simp, fun _ => rfl⟩
      intro _ k hk
      cases hk
  | cons name rest ih =>
      have hassoc : ∀ l, (base ++ [name]) ++ l = base ++ name :: l := by simp
      have hrun : (makeDirectories env base (name :: rest)).run s =
          (emitChanged env (absolute (base ++ [name])) >>= fun _ =>
            makeDirectories env (base ++ [name]) rest).run
          { s with root := s.root.put base name (newDirectory env.now) } := rfl
      rw [hrun]
      have hroot := root_emitChanged env (absolute (base ++ [name]))
        { s with root := s.root.put base name (newDirectory env.now) }
      cases he : (emitChanged env (absolute (base ++ [name]))).run
          { s with root := s.root.put base name (newDirectory env.now) } with
      | mk r s' =>
          rw [he] at hroot
          cases r with
          | error e =>
              refine .inr ⟨e, s', 0, run_bind_error he _, by simp, hroot, ?_⟩
              rw [run_emitChanged] at he
              split at he
              · next hl =>
                  refine ⟨hl, ?_⟩
                  rw [hroot]
                  split at he
                  · cases he
                  · next e' hce =>
                      cases he
                      exact hce
              · cases he
          | ok u =>
              obtain ⟨hev, es, hes, hpath⟩ := emitChanged_ok he
              rw [run_bind_ok he]
              rcases ih (base ++ [name]) s' with ⟨s'', hr, hmade⟩ | ⟨e, s'', k, hr, hk, hs'', hl⟩
              · left
                refine ⟨s'', by rw [hr, hassoc], ?_, ?_, ?_⟩
                · rw [hmade.root, hroot, withDirectories]
                · intro hlis k hk
                  cases k with
                  | zero => exact hev hlis
                  | succ k =>
                      have hrep := hmade.reported hlis k (by simpa using hk)
                      rw [hroot, hassoc] at hrep
                      exact hrep
                · obtain ⟨es', hes', hpath'⟩ := hmade.events
                  refine ⟨es ++ es', by rw [hes', hes, List.append_assoc], fun hlis => ?_⟩
                  rw [List.map_append, hpath hlis, hpath' hlis, madePlaces]
                  rfl
              · right
                refine ⟨e, s'', k + 1, hr, by simpa using hk, ?_, ?_⟩
                · rw [hs'', hroot, List.take_succ_cons, withDirectories]
                · rwa [hassoc] at hl

/-- An action ends in its tree, or stops while it makes directories. -/
theorem act_outcome (env : Env) (a : Act) (s : State) :
    ((act env a).run s).2.root = a.edit.tree env.now (a.base ++ a.missing)
        (withDirectories env.now s.root a.base a.missing) ∨
    ∃ e k, ((act env a).run s).1 = .error e ∧ k < a.missing.length ∧
      ((act env a).run s).2.root =
        withDirectories env.now s.root a.base (a.missing.take (k + 1)) := by
  rw [act]
  rcases makeDirectories_outcome env a.base a.missing s with
    ⟨s', hr, hmade⟩ | ⟨e, s', k, hr, hk, hs', -⟩
  · left
    rw [run_bind_ok hr, root_finish, hmade.root]
  · right
    rw [run_bind_error hr]
    exact ⟨e, k, rfl, hk, hs'⟩

end VirtualFS

end Tabnode

/-!
## The invariant of the filesystem

A tree of the filesystem is well formed: its nodes are sound, and its root is a
directory that nothing is mounted at. Every edit keeps it (`Edit.tree_wellFormed`),
so it holds in every reachable state, whatever the calls answered
(`Reachable.wellFormed`).
-/

namespace Tabnode

namespace VirtualFS

/-- What every tree of the filesystem is. -/
structure WellFormed (root : FSNode) : Prop where
  sound : Sound root
  directory : root.label.kind = Kind.directory
  unmounted : root.label.mount = none

abbrev SoundEntry (e : Entry) (names : List Name) : Prop :=
  SoundNode e.kind names ∧ (e.mount.isSome → e.kind = Kind.directory)

variable {e : Entry} {k : Name}

theorem soundEntry_set {c : FSNode} {l : List (Name × FSNode)}
    (h : SoundEntry e (OrderedMap.keys l)) (hk : e.kind = Kind.directory)
    (hname : EntryName k) : SoundEntry e (OrderedMap.keys (OrderedMap.set k c l)) := by
  refine ⟨⟨OrderedMap.nodup_set h.1.nodup, ?_, fun _ => hk⟩, h.2⟩
  intro n hn
  rcases OrderedMap.mem_keys_set.1 hn with rfl | hn
  · exact hname
  · exact h.1.names_ok n hn

theorem soundEntry_erase {l : List (Name × FSNode)} (h : SoundEntry e (OrderedMap.keys l)) :
    SoundEntry e (OrderedMap.keys (OrderedMap.erase k l)) := by
  refine ⟨⟨OrderedMap.nodup_erase h.1.nodup,
    fun n hn => h.1.names_ok n (OrderedMap.mem_keys_erase hn), fun hne => ?_⟩, h.2⟩
  refine h.1.directory fun hnil => hne ?_
  rw [List.eq_nil_iff_forall_not_mem]
  intro n hn
  have hmem := OrderedMap.mem_keys_erase hn
  rw [hnil] at hmem
  cases hmem

variable {root node : FSNode} {p : Place}

theorem sound_put (h : Sound root) (hnode : Sound node)
    (hp : ∀ d, root.get? p = some d → d.label.kind = Kind.directory)
    (hname : EntryName k) : Sound (root.put p k node) :=
  LabelTree.AllNodes.put h hnode fun d hd => soundEntry_set (h p d hd) (hp d hd) hname

theorem sound_remove (h : Sound root) : Sound (root.remove p k) :=
  LabelTree.AllNodes.remove h fun d hd => soundEntry_erase (h p d hd)

variable {g : Attrs → Attrs}

theorem sound_assign (h : Sound root) (hg : ∀ e, root.label? p = some e → e.kind = Kind.directory →
      (g e.toAttrs).kind = Kind.directory) : Sound (assign p g root) := by
  refine LabelTree.AllNodes.relabel h fun d hd => ?_
  have hdir := hg d.label (LabelTree.label?_of_get? hd)
  obtain ⟨⟨hnodup, hnames, hne⟩, hmount⟩ := h p d hd
  exact ⟨⟨hnodup, hnames, fun hn => hdir (hne hn)⟩, fun hm => hdir (hmount hm)⟩

theorem sound_leaf (hc : node.children = [])
    (hm : node.label.mount.isSome → node.label.kind = Kind.directory) : Sound node := by
  obtain ⟨e, cs⟩ := node
  cases hc
  refine LabelTree.AllNodes.of_children ⟨⟨List.nodup_nil, by simp [OrderedMap.keys],
    fun h => absurd rfl h⟩, hm⟩ ?_
  intro k c h
  cases h

theorem WellFormed.put (h : WellFormed root) (hnode : Sound node)
    (hp : ∀ d, root.get? p = some d → d.label.kind = Kind.directory)
    (hname : EntryName k) : WellFormed (root.put p k node) := by
  have hlabel : (root.put p k node).label = root.label := by
    have hnot : ¬ p ++ [k] <+: [] := by
      intro hpre
      have := hpre.length_le
      simp at this
    cases hget : root.get? p with
    | none =>
        have hq := LabelTree.label?_put_of_absent hget k node []
        simpa using hq
    | some d =>
        have hq := LabelTree.label?_put hget k node []
        rw [if_neg hnot] at hq
        simpa using hq
  exact ⟨sound_put h.sound hnode hp hname, by rw [hlabel]; exact h.directory,
    by rw [hlabel]; exact h.unmounted⟩

theorem WellFormed.remove (h : WellFormed root) : WellFormed (root.remove p k) := by
  have hlabel : (root.remove p k).label = root.label := by
    have hnot : ¬ p ++ [k] <+: [] := by
      intro hpre
      have := hpre.length_le
      simp at this
    have hq := LabelTree.label?_remove root p k []
    rw [if_neg hnot] at hq
    simpa using hq
  exact ⟨sound_remove h.sound, by rw [hlabel]; exact h.directory,
    by rw [hlabel]; exact h.unmounted⟩

theorem WellFormed.assign (h : WellFormed root)
    (hg : ∀ e, root.label? p = some e → e.kind = Kind.directory →
      (g e.toAttrs).kind = Kind.directory) : WellFormed (assign p g root) := by
  have hlabel : (VirtualFS.assign p g root).label.kind = Kind.directory ∧
      (VirtualFS.assign p g root).label.mount = none := by
    have hq := LabelTree.label?_relabel root p
      (fun e => { e with toAttrs := g e.toAttrs }) []
    rw [LabelTree.label?_nil, LabelTree.label?_nil] at hq
    split at hq
    · next hp =>
        rw [Option.map_some, Option.some_inj] at hq
        rw [VirtualFS.assign, hq]
        exact ⟨hg root.label (by rw [hp]; rfl) h.directory, h.unmounted⟩
    · rw [Option.some_inj] at hq
      rw [VirtualFS.assign, hq]
      exact ⟨h.directory, h.unmounted⟩
  exact ⟨sound_assign h.sound hg, hlabel.1, hlabel.2⟩

def Entry.shape (e : Entry) : Kind × Option MountedTree := (e.kind, e.mount)

/-! ### Edits keep it -/

def Extends (root root' : FSNode) : Prop :=
  ∀ q e, root.label? q = some e → root'.label? q = some e

variable {base : Place} {missing : List Name}

theorem IsDestination.label?_eq_none {q : Place} (h : IsDestination root base missing)
    (hb : base <+: q) (hq : q <+: base ++ missing) (hne : q ≠ base) : root.label? q = none := by
  obtain ⟨d, hd, -, hmissing⟩ := h.directory
  obtain ⟨r, rfl⟩ := hb
  cases r with
  | nil => exact absurd (List.append_nil base) hne
  | cons n r =>
      rw [List.prefix_append_right_inj] at hq
      cases missing with
      | nil => simp at hq
      | cons m rest =>
          obtain ⟨rfl, -⟩ := List.cons_prefix_cons.1 hq
          refine LabelTree.label?_eq_none_iff.2
            (LabelTree.get?_eq_none_of_isPrefix (p := base ++ [n]) ⟨r, by simp⟩ ?_)
          rw [LabelTree.get?_append_singleton, hd]
          exact hmissing n rfl

theorem extends_withDirectories (now : JsNumber) (h : IsDestination root base missing) :
    Extends root (withDirectories now root base missing) := by
  intro q e he
  obtain ⟨d, hd, -, hmissing⟩ := h.directory
  rw [label?_withDirectories now hd hmissing, if_neg]
  · exact he
  · rintro ⟨h1, h2, h3⟩
    rw [h.label?_eq_none h1 h2 h3] at he
    cases he

theorem IsDestination.take (h : IsDestination root base missing) (k : ℕ) :
    IsDestination root base (missing.take k) := by
  obtain ⟨d, hd, hk, hmissing⟩ := h.directory
  refine ⟨⟨d, hd, hk, fun n hn => ?_⟩, fun n hn => ?_⟩
  · cases missing with
    | nil => simp at hn
    | cons m rest =>
        cases k with
        | zero => simp at hn
        | succ k => exact hmissing n (by simpa using hn)
  · refine h.valid n ?_
    rw [List.mem_append] at hn ⊢
    exact hn.imp_right List.mem_of_mem_take

theorem directory_withDirectories (now : JsNumber) (h : IsDestination root base missing) :
    ∃ d, (withDirectories now root base missing).get? (base ++ missing) = some d ∧
      d.label.kind = Kind.directory := by
  obtain ⟨d, hd, hk, hmissing⟩ := h.directory
  have hl := label?_withDirectories now hd hmissing (base ++ missing)
  cases missing with
  | nil => exact ⟨d, by simpa [withDirectories] using hd, hk⟩
  | cons m rest =>
      rw [if_pos ⟨List.prefix_append _ _, List.prefix_refl _, by simp⟩] at hl
      obtain ⟨c, hc, hce⟩ := LabelTree.label?_eq_some_iff.1 hl
      exact ⟨c, hc, by rw [hce]; rfl⟩

theorem WellFormed.withDirectories (now : JsNumber) (h : WellFormed root)
    (hd : IsDestination root base missing) :
    WellFormed (withDirectories now root base missing) := by
  obtain ⟨d, hget, hk, -⟩ := hd.directory
  have hv := hd.valid
  clear hd
  induction missing generalizing root base d with
  | nil => exact h
  | cons name rest ih =>
      rw [VirtualFS.withDirectories]
      refine ih (h.put (sound_leaf rfl (by simp [newDirectory])) ?_ ?_)
        (newDirectory now) (LabelTree.get?_put_append hget name _ []) rfl (by simpa using hv)
      · intro d' hd'
        rw [hget] at hd'
        cases hd'
        exact hk
      · exact (hv name (by simp)).entryName

variable {f : Found} {name : Name}

theorem sound_child (h : Sound root) (hf : f.In root)
    (hc : f.child? name = some node) : Sound node := by
  cases f with
  | here place d => exact (LabelTree.AllNodes.get? h hf.1).get? (p := [name]) (by
      rw [LabelTree.get?_cons]
      show (d.child? name).bind _ = _
      rw [show d.child? name = some node from hc]
      rfl)
  | mounted place below answer =>
      obtain ⟨e, tree, -, -, hans⟩ := hf
      simp only [Found.child?, Option.map_eq_some_iff] at hc
      obtain ⟨c, hc, rfl⟩ := hc
      intro p d hd
      rw [Answer.toNode, LabelTree.get?_map, Option.map_eq_some_iff] at hd
      obtain ⟨d', hd', rfl⟩ := hd
      have hs := tree.sound _ _ hans (name :: p) d' (by
        rw [LabelTree.get?_cons, hc]
        exact hd')
      rw [LabelTree.label_map, LabelTree.keys_map]
      exact ⟨hs, by simp⟩

theorem Entry.isFile_iff : e.isFile ↔ ∃ content, e.kind = .file content := by
  rw [Entry.isFile]
  cases e.kind <;> simp [Kind.content?]

theorem WellFormed.withFile (now : JsNumber) {parent : Place} (h : WellFormed root)
    (hp : ∀ d, root.get? parent = some d → d.label.kind = Kind.directory) (hname : EntryName name)
    (data : List UInt8) : WellFormed (withFile now root parent name data) := by
  rw [VirtualFS.withFile]
  split
  · next hfile =>
      refine h.assign fun e he hk => ?_
      rw [he, Option.any_some, Entry.isFile_iff] at hfile
      obtain ⟨content, hfile⟩ := hfile
      rw [hfile] at hk
      cases hk
  · exact h.put (sound_leaf rfl (by simp [newFile])) hp hname

/-- Assigning to a found node what leaves it a directory if it is one. -/
theorem WellFormed.foundAssign {root' : FSNode} (h : WellFormed root') (hsub : Extends root root')
    (hf : f.In root) (hg : f.kind = Kind.directory → ∀ a, a.kind = Kind.directory →
      (g a).kind = Kind.directory) : WellFormed (f.assign g root') := by
  cases f with
  | mounted place below answer => exact h
  | here place node =>
      refine h.assign fun e he hk => hg ?_ _ hk
      rw [hsub _ _ (LabelTree.label?_of_get? hf.1)] at he
      cases he
      exact hk

theorem WellFormed.foundRemove (h : WellFormed root) (f : Found)
    (name : Name) : WellFormed (f.remove name root) := by
  cases f with
  | here place node => exact h.remove
  | mounted place below answer => exact h

/-- A directory that is still there after a removal was one before. -/
theorem directory_foundRemove {d : FSNode}
    (hp : ∀ d, root.get? p = some d → d.label.kind = Kind.directory)
    (hd : (f.remove name root).get? p = some d) : d.label.kind = Kind.directory := by
  cases f with
  | mounted place below answer => exact hp d hd
  | here place node =>
      have hl := LabelTree.label?_of_get? hd
      rw [Found.remove, LabelTree.label?_remove] at hl
      split at hl
      · cases hl
      · obtain ⟨d', hd', hl⟩ := LabelTree.label?_eq_some_iff.1 hl
        rw [← hl]
        exact hp d' hd'

/-- Every edit that fits a tree keeps a tree well formed that extends it. -/
theorem Edit.tree_wellFormed (now : JsNumber) {root' : FSNode} {parent : Place} {e : Edit}
    (hroot : WellFormed root) (h : WellFormed root') (hsub : Extends root root')
    (hp : ∀ d, root'.get? parent = some d → d.label.kind = Kind.directory)
    (hfit : e.Fits root parent) : WellFormed (e.tree now parent root') := by
  cases e with
  | nothing => exact h
  | write path name data => exact h.withFile now hp hfit.entryName data
  | setContent path f data =>
      obtain ⟨hf, content, hk⟩ := hfit
      refine h.foundAssign hsub hf fun hdir => ?_
      rw [hk] at hdir
      cases hdir
  | add path f name node =>
      obtain ⟨hf, hk, -, hname, hc, hm⟩ := hfit
      cases f with
      | mounted place below answer => exact h
      | here place d =>
          refine h.put (sound_leaf hc (by simp [hm])) (fun d' hd' => ?_) hname
          have hl := hsub _ _ (LabelTree.label?_of_get? hf.1)
          rw [LabelTree.label?_of_get? hd', Option.some_inj] at hl
          rw [hl]
          exact hk
  | drop path f name => exact h.foundRemove f name
  | move oldPath newPath source oldName node newName =>
      obtain ⟨hf, hk, hc, hname⟩ := hfit
      exact (h.foundRemove source oldName).put (sound_child hroot.sound hf hc)
        (fun d hd => directory_foundRemove hp hd) hname
  | setMode path f mode => exact h.foundAssign hsub hfit fun _ a ha => ha
  | setTimes path f atime mtime =>
      have hatime : WellFormed (f.assign (fun a => { a with atime := some atime }) root') :=
        h.foundAssign hsub hfit fun _ a ha => ha
      cases mtime with
      | error e => exact hatime
      | ok mtime =>
          cases f with
          | mounted place below answer => exact h
          | here place node =>
              exact WellFormed.assign (g := fun a => { a with mtime := mtime }) hatime
                fun _ _ ha => ha
  | mount name tree => exact h.put (sound_leaf rfl fun _ => rfl) hp hfit.1.entryName
  | unmount place name => exact h.remove

/-! ### Every reachable tree -/

variable {s : State}

/-- An action that fits a well-formed tree leaves one, whatever it answers. -/
theorem act_wellFormed (env : Env) {a : Act} (h : WellFormed s.root)
    (hfit : a.Fits s.root) : WellFormed ((act env a).run s).2.root := by
  rcases act_outcome env a s with hroot | ⟨e, k, -, -, hroot⟩
  · rw [hroot]
    obtain ⟨d, hd, hk⟩ := directory_withDirectories env.now hfit.destination
    refine Edit.tree_wellFormed env.now h (h.withDirectories env.now hfit.destination)
      (extends_withDirectories env.now hfit.destination) (fun d' hd' => ?_) hfit.edit
    rw [hd] at hd'
    cases hd'
    exact hk
  · rw [hroot]
    exact h.withDirectories env.now (hfit.destination.take (k + 1))

theorem wellFormed_new (now : JsNumber) : WellFormed (State.new now).root := by
  refine ⟨sound_leaf rfl ?_, rfl, rfl⟩
  intro h
  cases h

theorem perform_wellFormed (env : Env) (c : Call) (h : WellFormed s.root) :
    WellFormed ((perform env c).run s).2.root := by
  rw [perform_run env c s h.directory]
  cases hplan : plan env s.root c with
  | error e => exact h
  | ok a => exact act_wellFormed env h (plan_fits h.directory hplan)

theorem Reachable.wellFormed (h : Reachable s) : WellFormed s.root := by
  induction h with
  | new now => exact wellFormed_new now
  | step h env c ih => exact perform_wellFormed env c ih

/-- No run of calls, some of them failing half way, leaves a malformed tree. -/
theorem wellFormed_run (h : WellFormed s.root) (calls : List (Env × Call)) :
    WellFormed (calls.foldl (fun s c => ((perform c.1 c.2).run s).2) s).root := by
  induction calls generalizing s with
  | nil => exact h
  | cons c calls ih => exact ih (perform_wellFormed c.1 c.2 h)

/-! ### Small instances -/

def emptyTree : MountedTree where
  node path :=
    if path = ['/'] then some (.node { kind := .directory, mtime := .finite 0 } []) else none
  sound path answer h p d hd := by
    split at h
    · cases h
      cases p with
      | nil =>
          cases hd
          exact ⟨List.nodup_nil, by simp [OrderedMap.keys], fun hn => absurd rfl hn⟩
      | cons n p => cases hd
    · cases h
  root_directory answer h := by
    rw [if_pos rfl] at h
    cases h
    rfl

def quiet : Env :=
  { now := .finite 0, stack := 8, changeListened := false, deleteListened := false }

/-- A new filesystem with a mount at `/m`. -/
def mountedState : State :=
  ((perform quiet (.mount "/m".toList emptyTree)).run (State.new (.finite 0))).2

theorem reachable_mountedState : Reachable mountedState := .step (.new _) _ _

theorem wellFormed_run_mountedState :
    WellFormed ((perform quiet (.rename "/m".toList "/m/x".toList)).run mountedState).2.root :=
  wellFormed_run reachable_mountedState.wellFormed [(quiet, .rename "/m".toList "/m/x".toList)]

end VirtualFS

end Tabnode
