import Tabnode.VirtualFS.Atomicity
import Tabnode.VirtualFS.Physical

/-!
# An index kept by events

A host that keeps the set of a tree's paths applies each event: a change adds its
path, a removal takes it away. The events name paths as the calls were given them.
`Act.Tells` says which calls name the places they edit, and replace and take away
nothing else; after any run of such calls the host has the paths of the tree
(`follows_of_run`).
-/

namespace Tabnode

namespace VirtualFS

open Effect LabelTree List

def paths (root : FSNode) : Set Str := {p | ∃ q, root.label? q ≠ none ∧ p = absolute q}

def index (start : Set Str) (events : List Event) : Set Str :=
  Change.replay start (events.map Event.toChange)

/-- A host that has the paths of one state's tree has those of another's, when it
has applied the events between them. -/
def Follows (s s' : State) : Prop :=
  ∃ es, s'.events = s.events ++ es ∧ index (paths s.root) es = paths s'.root

/-- The call names the place of each entry it makes, changes or takes away. The
bytes, mode and times of an entry may be changed by any path that is a place; a
write replaces nothing that holds entries, and a move does not go into itself. An
entry may also be put where it stands, from a path that is no place. -/
def Act.Tells (root : FSNode) (a : Act) : Prop :=
  match a.edit with
  | .nothing => True
  | .write path name _ => a.dir ++ [name] = getPathSegments path ∧
      ∀ node, root.get? (a.dir ++ [name]) = some node → node.children = []
  | .setContent path _ _ | .setMode path _ _ | .setTimes path _ _ _ =>
      root.label? (getPathSegments path) ≠ none
  | .add path parent name _ | .drop path parent name =>
      parent.childPlace name = some (getPathSegments path)
  | .move oldPath newPath source oldName _ newName =>
      a.dir ++ [newName] = getPathSegments newPath ∧
        (source.childPlace oldName = some (getPathSegments oldPath) ∧
            ¬ getPathSegments oldPath <+: a.dir ∨
          source.childPlace oldName = some (a.dir ++ [newName]) ∧
            root.label? (getPathSegments oldPath) = none)
  | .mount _ _ | .unmount _ _ => False

def Env.Listens (env : Env) : Prop := env.changeListened ∧ env.deleteListened

/-- A run of calls, heard by a host, each of which names the places it edits. -/
inductive Run (s : State) : State → Prop where
  | start : Run s s
  | call {t : State} (h : Run s t) (env : Env) (c : Call) (hl : env.Listens)
      (hc : ∀ a, plan env t.root c = .ok a → a.Tells t.root) :
      Run s ((perform env c).run t).2

theorem Follows.refl (s : State) : Follows s s :=
  ⟨[], (append_nil _).symm, rfl⟩

variable {s : State}

theorem Follows.trans {t u : State} (h : Follows s t) (h' : Follows t u) : Follows s u := by
  obtain ⟨es, hes, hi⟩ := h
  obtain ⟨es', hes', hi'⟩ := h'
  refine ⟨es ++ es', by rw [hes', hes, append_assoc], ?_⟩
  rw [index, map_append, Change.replay_append]
  rw [index] at hi hi'
  rw [hi, hi']

/-! ## Paths after an edit -/

variable {root d node : FSNode} {dir : Place} {name : Name}

/-- An entry with nothing below it, put where nothing lies below, is one path more. -/
theorem paths_put (hd : root.get? dir = some d) (hnode : node.children = [])
    (hold : ∀ old, root.get? (dir ++ [name]) = some old → old.children = []) :
    paths (root.put dir name node) = insert (absolute (dir ++ [name])) (paths root) := by
  ext p
  rw [Set.mem_insert_iff]
  constructor
  · rintro ⟨q, hq, rfl⟩
    rw [label?_put hd] at hq
    split at hq
    · next hpre =>
        obtain ⟨r, rfl⟩ := hpre
        have hdrop : (dir ++ [name] ++ r).drop (dir.length + 1) = r := by
          rw [← length_singleton (a := name), ← length_append, drop_left]
        rw [hdrop] at hq
        rw [label?_leaf hnode hq, append_nil]
        exact .inl rfl
    · exact .inr ⟨q, hq, rfl⟩
  · rintro (rfl | ⟨q, hq, rfl⟩)
    · refine ⟨dir ++ [name], ?_, rfl⟩
      rw [label?_put hd, if_pos (prefix_refl _)]
      simp
    · refine ⟨q, ?_, rfl⟩
      rw [label?_put hd]
      split
      · next hpre =>
          -- nothing lies below the name, so this is the name itself
          obtain ⟨r, rfl⟩ := hpre
          rw [label?_append] at hq
          cases hget : root.get? (dir ++ [name]) with
          | none => simp [hget] at hq
          | some old =>
              rw [hget] at hq
              rw [label?_leaf (hold old hget) hq]
              simp
      · exact hq

theorem paths_assign (place : Place) (g : Attrs → Attrs) (root : FSNode) :
    paths (assign place g root) = paths root := by
  have hnone : ∀ q, (assign place g root).label? q ≠ none ↔ root.label? q ≠ none := by
    intro q
    rw [assign, label?_relabel]
    split
    · rw [Ne, Option.map_eq_none_iff]
    · rfl
  ext p
  simp only [paths, hnone]

theorem paths_foundAssign (f : Found) (g : Attrs → Attrs) (root : FSNode) :
    paths (f.assign g root) = paths root := by
  cases f with
  | here place node => exact paths_assign place g root
  | mounted place below answer => rfl

variable {place : Place}

theorem paths_remove {old : FSNode} (hm : Plain root)
    (hget : root.get? (place ++ [name]) = some old) (hold : old.children = []) :
    paths (root.remove place name) = paths root \ {absolute (place ++ [name])} := by
  have hN : root.label? (place ++ [name]) ≠ none := by
    rw [label?_of_get? hget]
    simp
  have hne : joinSlash (place ++ [name]) ≠ [] :=
    joinSlash_ne_nil_of_valid (hm.named _ hN) (by simp)
  ext p
  rw [Set.mem_sdiff, Set.mem_singleton_iff]
  constructor
  · rintro ⟨q, hq, rfl⟩
    rw [label?_remove] at hq
    split at hq
    · exact absurd rfl hq
    · next hpre =>
        refine ⟨⟨q, hq, rfl⟩, fun heq => hpre ?_⟩
        rw [absolute_inj (hm.no_slash hN) (hm.no_slash hq) hne heq.symm]
  · rintro ⟨⟨q, hq, rfl⟩, hp⟩
    refine ⟨q, ?_, rfl⟩
    rw [label?_remove, if_neg]
    · exact hq
    · rintro ⟨r, rfl⟩
      rw [label?_append, hget, Option.bind_some] at hq
      rw [label?_leaf hold hq, append_nil] at hp
      exact hp rfl

variable {oldPath newPath : Str}

theorem mem_gonePaths {p : Str} {replaced : Option FSNode} :
    p ∈ gonePaths oldPath newPath node replaced ↔ p ∈ subtreePaths oldPath node ∨
      ∃ old, replaced = some old ∧ p ∈ subtreePaths newPath old ∧
        p ∉ subtreePaths newPath node := by
  cases replaced with
  | none => simp [gonePaths]
  | some old => simpa [gonePaths] using or_comm

variable {oldName newName : Name}

/-- The paths a move takes away and makes are those of the tree it leaves. -/
theorem paths_move (hs : Sound root) (hm : Plain root) (hsnode : Sound node)
    (hnode : ∀ r, root.label? (place ++ [oldName] ++ r) = node.label? r)
    (hd : root.get? dir = some d) (hdir : ¬ place ++ [oldName] <+: dir)
    (hv : ∀ n ∈ dir ++ [newName], ValidName n) :
    (paths root \ {p | p ∈ gonePaths (absolute (place ++ [oldName])) (absolute (dir ++ [newName]))
        node ((root.remove place oldName).get? (dir ++ [newName]))}) ∪
        {p | p ∈ subtreePaths (absolute (dir ++ [newName])) node} =
      paths ((root.remove place oldName).put dir newName node) := by
  obtain ⟨d', hd'⟩ := get?_remove_isSome hd hdir
  have hO : root.label? (place ++ [oldName]) ≠ none := by
    rw [← append_nil (place ++ [oldName]), hnode]
    simp
  have hOne : joinSlash (place ++ [oldName]) ≠ [] :=
    joinSlash_ne_nil_of_valid (hm.named _ hO) (by simp)
  have hNne : joinSlash (dir ++ [newName]) ≠ [] := joinSlash_ne_nil_of_valid hv (by simp)
  have hsremoved : Sound (root.remove place oldName) := sound_remove hs
  have hput : ∀ r, ((root.remove place oldName).put dir newName node).label?
      (dir ++ [newName] ++ r) = node.label? r := by
    intro r
    rw [label?_put hd', if_pos (prefix_append _ r)]
    rw [← length_singleton (a := newName), ← length_append, drop_left]
  have hremoved : ∀ q, (root.remove place oldName).label? q ≠ none → root.label? q ≠ none := by
    intro q hq
    rw [label?_remove] at hq
    split at hq
    · exact absurd rfl hq
    · exact hq
  ext p
  simp only [Set.mem_union, Set.mem_sdiff, Set.mem_ofPred_eq, mem_gonePaths,
    mem_subtreePaths hsnode hOne, mem_subtreePaths hsnode hNne]
  constructor
  · rintro (⟨⟨q, hq, rfl⟩, hgone⟩ | ⟨r, hr, rfl⟩)
    · rw [not_or] at hgone
      have hOq : ¬ place ++ [oldName] <+: q := by
        rintro ⟨r, rfl⟩
        rw [hnode] at hq
        exact hgone.1 ⟨r, hq, rfl⟩
      by_cases hNq : dir ++ [newName] <+: q
      · -- below what was replaced, so the moved entry has it too
        obtain ⟨r, rfl⟩ := hNq
        have hq' : (root.remove place oldName).label? (dir ++ [newName] ++ r) ≠ none := by
          rwa [label?_remove, if_neg hOq]
        rw [label?_append] at hq'
        cases hold : (root.remove place oldName).get? (dir ++ [newName]) with
        | none => simp [hold] at hq'
        | some old =>
            rw [hold] at hq'
            by_contra hno
            refine hgone.2 ⟨old, hold, ?_, ?_⟩
            · exact (mem_subtreePaths (AllNodes.get? hsremoved hold) hNne).2
                ⟨r, hq', rfl⟩
            · rintro ⟨r', hr', heq⟩
              exact hno ⟨dir ++ [newName] ++ r', by rwa [hput], heq⟩
      · refine ⟨q, ?_, rfl⟩
        rwa [label?_move hd' hOq hNq]
    · exact ⟨dir ++ [newName] ++ r, by rwa [hput], rfl⟩
  · rintro ⟨q, hq, rfl⟩
    by_cases hNq : dir ++ [newName] <+: q
    · obtain ⟨r, rfl⟩ := hNq
      rw [hput] at hq
      exact .inr ⟨r, hq, rfl⟩
    · left
      have hq' : (root.remove place oldName).label? q ≠ none := by
        rwa [label?_put hd', if_neg hNq] at hq
      have hqroot := hremoved q hq'
      have hOq : ¬ place ++ [oldName] <+: q := by
        intro hpre
        rw [label?_remove, if_pos hpre] at hq'
        exact hq' rfl
      refine ⟨⟨q, hqroot, rfl⟩, ?_⟩
      rintro (⟨r, hr, heq⟩ | ⟨old, hold, hp, -⟩)
      · have hr' : root.label? (place ++ [oldName] ++ r) ≠ none := by
          rwa [hnode]
        have hqr := absolute_inj (hm.no_slash hr') (hm.no_slash hqroot)
          (joinSlash_append_ne_nil hOne r) heq.symm
        exact hOq (hqr ▸ prefix_append _ r)
      · obtain ⟨r, hr, heq⟩ :=
          (mem_subtreePaths (AllNodes.get? hsremoved hold) hNne).1 hp
        have hr' : (root.remove place oldName).label? (dir ++ [newName] ++ r) ≠ none := by
          rwa [label?_append, hold]
        have hqr := absolute_inj (hm.no_slash (hremoved _ hr')) (hm.no_slash hqroot)
          (joinSlash_append_ne_nil hNne r) heq.symm
        exact hNq (hqr ▸ prefix_append _ r)

/-! ## Events -/

variable {env : Env}

/-- An event that was heard, after an edit that makes the change it says. -/
theorem Follows.emit (s' : State) {event : Event} (hl : env.hears event)
    (hev : s'.events = s.events) (h : event.toChange.apply (paths s.root) = paths s'.root) :
    Follows s ((emit env event).run s').2 := by
  rw [run_emit, if_pos hl]
  exact ⟨[event], by rw [hev], h⟩

variable {s'' : State} {path : Str}

/-- A report that did not fail, after an edit that adds its path. -/
theorem Follows.emitChanged (s' : State) (hl : env.changeListened) (hev : s'.events = s.events)
    (h : insert path (paths s.root) = paths s'.root)
    (hrun : (emitChanged env path).run s' = (.ok (), s'')) : Follows s s'' := by
  obtain ⟨-, es, hes, hchange⟩ := emitChanged_ok hrun
  have hroot : s''.root = s'.root := by
    have hr := root_emitChanged env path s'
    rw [hrun] at hr
    exact hr
  refine ⟨es, by rw [hes, hev], ?_⟩
  rw [index, hchange hl, hroot, ← h]
  rfl

theorem events_forEach_delete (hl : env.deleteListened) (l : List Str) (s : State) :
    ∃ s' es, (forEach (fun p => emit env (.delete p)) l).run s = (.ok (), s') ∧
      s'.root = s.root ∧ s'.events = s.events ++ es ∧
      es.map Event.toChange = l.map Change.drop := by
  induction l generalizing s with
  | nil => exact ⟨s, [], rfl, rfl, by simp, rfl⟩
  | cons p l ih =>
      have hhears : env.hears (.delete p) = true := hl
      have hrun := run_emit env (.delete p) s
      rw [if_pos hhears] at hrun
      obtain ⟨s', es, hr, hroot, hes, hchange⟩ :=
        ih { s with events := s.events ++ [.delete p] }
      refine ⟨s', .delete p :: es, ?_, hroot, ?_, ?_⟩
      · rw [forEach, run_bind_ok hrun]
        exact hr
      · rw [hes, append_assoc]
        rfl
      · rw [map_cons, map_cons, hchange]
        rfl

theorem events_forEach_emitChanged (hl : env.changeListened) (l : List Str) (s : State)
    (h : ∀ p ∈ l, ∃ r, lstatNode s.root p = .ok r) :
    ∃ s' es, (forEach (emitChanged env) l).run s = (.ok (), s') ∧
      s'.root = s.root ∧ s'.events = s.events ++ es ∧
      es.map Event.toChange = l.map Change.add := by
  induction l generalizing s with
  | nil => exact ⟨s, [], rfl, rfl, by simp, rfl⟩
  | cons p l ih =>
      obtain ⟨r, hr⟩ := h p (by simp)
      have hrun := run_emitChanged env p s
      rw [if_pos hl, changeEvent, hr] at hrun
      obtain ⟨s', es, hr', hroot, hes, hchange⟩ :=
        ih { s with events := s.events ++ [.change p ((r.bind fun n => n.kind.content?).getD [])] }
          fun p' hp' => h p' (mem_cons_of_mem p hp')
      refine ⟨s', .change p ((r.bind fun n => n.kind.content?).getD []) :: es, ?_, hroot, ?_, ?_⟩
      · rw [forEach, run_bind_ok hrun]
        exact hr'
      · rw [hes, append_assoc]
        rfl
      · rw [map_cons, map_cons, hchange]
        rfl

/-! ## What a call tells -/

variable {base : Place} {missing : List Name}

theorem mem_madePlaces {q : Place} :
    q ∈ madePlaces base missing ↔ base <+: q ∧ q <+: base ++ missing ∧ q ≠ base := by
  induction missing generalizing base with
  | nil =>
      rw [madePlaces, append_nil]
      refine iff_of_false (by simp) ?_
      rintro ⟨h1, h2, h3⟩
      exact h3 (h1.eq_of_length_le h2.length_le).symm
  | cons name rest ih =>
      have hassoc : base ++ [name] ++ rest = base ++ name :: rest := by simp
      rw [madePlaces, mem_cons, ih, hassoc]
      constructor
      · rintro (rfl | ⟨h1, h2, -⟩)
        · exact ⟨prefix_append _ _, ⟨rest, hassoc⟩, by simp⟩
        · refine ⟨(prefix_append base [name]).trans h1, h2, ?_⟩
          rintro rfl
          have hlen := h1.length_le
          simp at hlen
      · rintro ⟨⟨r, rfl⟩, h2, h3⟩
        cases r with
        | nil => exact absurd (append_nil base) h3
        | cons k r =>
            have hk := h2
            rw [prefix_append_right_inj, cons_prefix_cons] at hk
            obtain ⟨rfl, -⟩ := hk
            by_cases hr : r = []
            · exact .inl (by rw [hr])
            · exact .inr ⟨⟨r, by simp⟩, h2, by simp [hr]⟩

variable {s' : State}

theorem Made.follows (h : Made env base missing s s') (hd : IsDestination s.root base missing)
    (hl : env.changeListened) : Follows s s' := by
  obtain ⟨es, hes, hchange⟩ := h.events
  refine ⟨es, hes, ?_⟩
  have hmap : (madePlaces base missing).map (fun q => Change.add (absolute q)) =
      ((madePlaces base missing).map absolute).map Change.add := by
    rw [map_map]
    rfl
  rw [index, hchange hl, hmap, Change.replay_adds, h.root]
  obtain ⟨d, hget, -, hmissing⟩ := hd.directory
  ext p
  simp only [Set.mem_union, Set.mem_ofPred_eq, mem_map, mem_madePlaces]
  constructor
  · rintro (⟨q, hq, rfl⟩ | ⟨q, hq, rfl⟩)
    · obtain ⟨e, he⟩ := Option.ne_none_iff_exists'.1 hq
      refine ⟨q, ?_, rfl⟩
      rw [extends_withDirectories env.now hd q e he]
      simp
    · refine ⟨q, ?_, rfl⟩
      rw [label?_withDirectories env.now hget hmissing, if_pos hq]
      simp
  · rintro ⟨q, hq, rfl⟩
    rw [label?_withDirectories env.now hget hmissing] at hq
    split at hq
    · next hmade => exact .inr ⟨q, hmade, rfl⟩
    · exact .inl ⟨q, hq, rfl⟩

/-- What a host has after the events of a move that can all be told. -/
theorem run_announce_heard (hl : env.Listens) (oldPath : Str) (replaced : Option FSNode)
    (hlook : ∀ p ∈ subtreePaths newPath node, ∃ r, lstatNode s.root p = .ok r) :
    ∃ s' es, (renameSync.announce env oldPath newPath node replaced).run s = (.ok (), s') ∧
      s'.root = s.root ∧ s'.events = s.events ++ es ∧
      ∀ start, index start es =
        (start \ {p | p ∈ gonePaths oldPath newPath node replaced}) ∪
          {p | p ∈ subtreePaths newPath node} := by
  obtain ⟨s1, es1, hrun1, hroot1, hes1, hchange1⟩ :=
    events_forEach_delete hl.2 (gonePaths oldPath newPath node replaced) s
  rw [← hroot1] at hlook
  obtain ⟨s2, es2, hrun2, hroot2, hes2, hchange2⟩ :=
    events_forEach_emitChanged hl.1 _ s1 hlook
  refine ⟨s2, es1 ++ es2, ?_, hroot2.trans hroot1, ?_, fun start => ?_⟩
  · rw [renameSync.announce, run_bind_ok hrun1, hrun2]
  · rw [hes2, hes1, append_assoc]
  · rw [index, map_append, hchange1, hchange2, Change.replay_append, Change.replay_drops,
      Change.replay_adds]

theorem follows_announce (h : WellFormed s.root) (hm : Plain s.root) (hl : env.Listens)
    (hsnode : Sound node) (hnode : ∀ r, s.root.label? (place ++ [oldName] ++ r) = node.label? r)
    (hd : s.root.get? dir = some d) (hdir : ¬ place ++ [oldName] <+: dir)
    (hv : ∀ n ∈ dir ++ [newName], ValidName n)
    (hroot : s'.root = (s.root.remove place oldName).put dir newName node) (hs' : Sound s'.root)
    (hm' : Plain s'.root) (hev : s'.events = s.events) :
    Follows s ((renameSync.announce env (absolute (place ++ [oldName]))
      (absolute (dir ++ [newName])) node
      ((s.root.remove place oldName).get? (dir ++ [newName]))).run s').2 := by
  obtain ⟨d', hd'⟩ := get?_remove_isSome hd hdir
  have hNne : joinSlash (dir ++ [newName]) ≠ [] := joinSlash_ne_nil_of_valid hv (by simp)
  have hlook : ∀ p ∈ subtreePaths (absolute (dir ++ [newName])) node,
      ∃ r, lstatNode s'.root p = .ok r := by
    intro p hp
    obtain ⟨r, hr, rfl⟩ := (mem_subtreePaths hsnode hNne).1 hp
    refine lstatNode_place hs' hm' ?_
    rw [hroot, label?_append, get?_put_append hd' newName node []]
    exact hr
  obtain ⟨s2, es, hrun, hroot2, hes, hindex⟩ := run_announce_heard hl
    (absolute (place ++ [oldName])) ((s.root.remove place oldName).get? (dir ++ [newName])) hlook
  rw [hrun]
  refine ⟨es, by rw [hes, hev], ?_⟩
  rw [hindex, paths_move h.sound hm hsnode hnode hd hdir hv, ← hroot, ← hroot2]

theorem paths_withFile (now : JsNumber) (hd : root.get? dir = some d)
    (hold : ∀ old, root.get? (dir ++ [name]) = some old → old.children = []) (data : List UInt8) :
    paths (withFile now root dir name data) = insert (absolute (dir ++ [name])) (paths root) := by
  rw [withFile]
  split
  · next hfile =>
      rw [Option.any_eq_true] at hfile
      obtain ⟨e, he, -⟩ := hfile
      rw [paths_assign]
      have hmem : absolute (dir ++ [name]) ∈ paths root := ⟨_, by rw [he]; simp, rfl⟩
      exact (Set.insert_eq_of_mem hmem).symm
  · exact paths_put hd rfl hold

theorem insert_path (h : root.label? (getPathSegments path) ≠ none) :
    insert (normalizePath path) (paths root) = paths root :=
  Set.insert_eq_of_mem ⟨_, h, normalizePath_eq path⟩

/-! ## Each edit tells -/

variable {c : Call}

theorem Act.Tells.plain {a : Act} (h : WellFormed root) (hm : Plain root)
    (hplan : Planned env root c a) (htells : a.Tells root) : Plain (a.tree env root) := by
  have hfit := hplan.fits h.directory
  have hm' := hm.withDirectories env.now hfit.destination
  cases hplan with
  | nothing => exact hm
  | directories => exact hm'
  | write hc hw hb hd =>
      refine hm'.withFile env.now ?_ _
      rw [htells.1]
      exact valid_getPathSegments _
  | setContent hc hw hget hk => exact hm.foundAssign _ _
  | add hc hw hget hk hfree =>
      rename_i path parent node
      obtain ⟨place, parent, rfl, hplace⟩ := hm.here (getNode_in hget)
      have hv : ∀ n ∈ place ++ [getBasename path], ValidName n := by
        rw [Option.some_inj.1 htells]
        exact valid_getPathSegments _
      cases hc with
      | mkdir | symlink _ => exact hm.put_leaf rfl rfl hv
  | drop hc hw hget hk hchild =>
      obtain ⟨place, parent, rfl, hplace⟩ := hm.here (getNode_in hget)
      exact hm.remove _ _
  | move hold hnew hget hk hchild hd =>
      rename_i oldPath newPath source node base missing
      obtain ⟨place, parent, rfl, hplace⟩ := hm.here (getNode_in hget)
      obtain ⟨hN, -⟩ := htells
      have hnode : ∀ r, root.label? (place ++ [getBasename oldPath] ++ r) = node.label? r := by
        intro r
        rw [label?_append, get?_append_singleton, hplace, Option.bind_some]
        rw [show parent.child? (getBasename oldPath) = some node from hchild]
        rfl
      refine (hm'.remove _ _).put (fun r e he => ?_) fun r hr n hn => ?_
      · exact hm.unmounted _ e ((hnode r).trans he)
      · rcases mem_append.1 hn with hn | hn
        · exact valid_getPathSegments _ n (hN ▸ hn)
        · rw [← hnode] at hr
          exact hm.named _ hr n (mem_append_right _ hn)
  | setMode hw hget => exact hm.foundAssign _ _
  | setTimes hw hget ha =>
      rename_i path atime mtime f atimeMs
      have hatime := hm.foundAssign f fun a => { a with atime := some atimeMs }
      show Plain (Edit.tree env.now _ root (.setTimes _ f atimeMs (unixMs env.now "mtime" mtime)))
      cases unixMs env.now "mtime" mtime with
      | error e => exact hatime
      | ok mtimeMs => exact hatime.foundAssign f _
  | mount | unmount => exact absurd htells id

theorem follows_write (hl : env.changeListened) (hd : s.root.get? dir = some d)
    (hN : dir ++ [name] = getPathSegments path)
    (hold : ∀ old, s.root.get? (dir ++ [name]) = some old → old.children = []) (data : List UInt8) :
    Follows s ((finish env (.write (normalizePath path) name data) dir).run s).2 := by
  have hpaths := paths_withFile env.now hd hold data
  rw [hN, ← normalizePath_eq] at hpaths
  exact Follows.emit { s with root := withFile env.now s.root dir name data } hl rfl hpaths.symm

theorem follows_setContent (hl : env.changeListened)
    (hin : s.root.label? (getPathSegments path) ≠ none) (f : Found) (data : List UInt8)
    (dir : Place) :
    Follows s ((finish env (.setContent (normalizePath path) f data) dir).run s).2 := by
  refine Follows.emit { s with root := f.assign _ s.root } hl rfl ?_
  exact (insert_path hin).trans (paths_foundAssign f _ s.root).symm

theorem follows_assign (s' : State) (hl : env.changeListened)
    (hin : s.root.label? (getPathSegments path) ≠ none) (hroot : paths s'.root = paths s.root)
    (hev : s'.events = s.events)
    (hrun : (emitChanged env (normalizePath path)).run s' = (.ok (), s'')) : Follows s s'' := by
  refine Follows.emitChanged s' hl hev ?_ hrun
  rw [hroot, insert_path hin]

theorem follows_add (hl : env.changeListened) (hd : s.root.get? place = some d)
    (hfree : d.child? name = none) (hc : node.children = [])
    (hN : place ++ [name] = getPathSegments path) (hrun : (emitChanged env (normalizePath path)).run
      { s with root := s.root.put place name node } = (.ok (), s'')) : Follows s s'' := by
  have hfree' : s.root.get? (place ++ [name]) = none := by
    rw [get?_append_singleton, hd]
    exact hfree
  have hold : ∀ old, s.root.get? (place ++ [name]) = some old → old.children = [] := by
    intro old hold
    rw [hfree'] at hold
    cases hold
  have hpaths := paths_put hd hc hold
  rw [hN, ← normalizePath_eq] at hpaths
  exact Follows.emitChanged { s with root := s.root.put place name node } hl rfl
    hpaths.symm hrun

theorem follows_drop (hm : Plain s.root) (hl : env.deleteListened) (hd : s.root.get? place = some d)
    (hchild : d.child? name = some node) (hc : node.children = [])
    (hN : place ++ [name] = getPathSegments path) (dir : Place) :
    Follows s ((finish env (.drop (normalizePath path) (.here place d) name) dir).run s).2 := by
  have hget : s.root.get? (place ++ [name]) = some node := by
    rw [get?_append_singleton, hd]
    exact hchild
  have hpaths := paths_remove hm hget hc
  rw [hN, ← normalizePath_eq] at hpaths
  exact Follows.emit { s with root := s.root.remove place name } hl rfl hpaths.symm

theorem Call.Drops.children (h : c.Drops path node) (hs : Sound node) : node.children = [] := by
  cases h with
  | rmdir hk hc => exact hc
  | unlink hk =>
      by_contra hc
      refine hk ((hs [] node rfl).1.directory ?_)
      intro hkeys
      exact hc (map_eq_nil_iff.1 hkeys)

theorem follows_move {parent : FSNode} (h : WellFormed s.root) (hm : Plain s.root)
    (hl : env.Listens) (hdest : IsDestination s.root base missing)
    (hplace : s.root.get? place = some parent) (hchild : parent.child? oldName = some node)
    (hO : place ++ [oldName] = getPathSegments oldPath)
    (hN : base ++ missing ++ [newName] = getPathSegments newPath)
    (hdir : ¬ place ++ [oldName] <+: base ++ missing)
    (hs' : s'.root = withDirectories env.now s.root base missing)
    (hd : s'.root.get? (base ++ missing) = some d)
    (hplain : Plain ((s'.root.remove place oldName).put (base ++ missing) newName node)) :
    Follows s' ((finish env (.move (normalizePath oldPath) (normalizePath newPath)
      (.here place parent) oldName node newName) (base ++ missing)).run s').2 := by
  have hsnode : Sound node := sound_child h.sound (f := .here place parent)
    ⟨hplace, fun n hn => valid_getPathSegments oldPath n (hO ▸ mem_append_left _ hn)⟩ hchild
  have hwf' : WellFormed s'.root := by
    rw [hs']
    exact h.withDirectories env.now hdest
  have hm' : Plain s'.root := by
    rw [hs']
    exact hm.withDirectories env.now hdest
  have hv : ∀ n ∈ base ++ missing ++ [newName], ValidName n := by
    rw [hN]
    exact valid_getPathSegments newPath
  have hnode : ∀ r, s'.root.label? (place ++ [oldName] ++ r) = node.label? r := by
    intro r
    obtain ⟨b, hb, -, hmissing⟩ := hdest.directory
    rw [hs', label?_withDirectories env.now hb hmissing, if_neg, label?_append,
      get?_append_singleton, hplace, Option.bind_some]
    · rw [show parent.child? oldName = some node from hchild]
      rfl
    · rintro ⟨-, hpre, -⟩
      exact hdir ((prefix_append _ r).trans hpre)
  have hsound : Sound ((s'.root.remove place oldName).put (base ++ missing) newName node) := by
    refine sound_put (sound_remove hwf'.sound) hsnode (fun d' hd' => ?_) ?_
    · obtain ⟨b, hb, hk⟩ := directory_withDirectories env.now hdest
      have hlabel := label?_of_get? hd'
      rw [label?_remove, if_neg hdir, hs', label?_of_get? hb,
        Option.some_inj] at hlabel
      rw [← hlabel]
      exact hk
    · exact (hv newName (by simp)).entryName
  have hrun : (finish env (.move (normalizePath oldPath) (normalizePath newPath)
      (.here place parent) oldName node newName) (base ++ missing)).run s' =
      (renameSync.announce env (normalizePath oldPath) (normalizePath newPath) node
        ((s'.root.remove place oldName).get? (base ++ missing ++ [newName]))).run
        { s' with root := (s'.root.remove place oldName).put (base ++ missing) newName node } := by
    rw [finish, finishMove, run_get_bind, run_bind, run_edit]
    simp only [Found.childPlace, if_neg hdir]
    rfl
  rw [hrun, normalizePath_eq oldPath, normalizePath_eq newPath, ← hO, ← hN]
  exact follows_announce hwf' hm' hl hsnode hnode hd hdir hv rfl hsound hplain rfl

/-- A host hears of nothing new, where an entry is put where it stands. -/
theorem follows_move_same {parent : FSNode} (h : WellFormed s.root) (hm : Plain s.root)
    (hl : env.Listens) (hplace : s.root.get? place = some parent)
    (hnode : s.root.get? (place ++ [oldName]) = some node)
    (hON : place ++ [oldName] = dir ++ [newName]) (hN : dir ++ [newName] = getPathSegments newPath)
    (hold : s.root.label? (getPathSegments oldPath) = none) :
    Follows s ((finish env (.move (normalizePath oldPath) (normalizePath newPath)
      (.here place parent) oldName node newName) dir).run s).2 := by
  obtain ⟨hdir, hname⟩ := append_inj' hON rfl
  obtain rfl := (List.cons.inj hname).1
  subst hdir
  have hsame := label?_move_same hplace hnode
  have hsnode : Sound node := AllNodes.get? h.sound hnode
  have hbelow : ∀ r, s.root.label? (place ++ [oldName] ++ r) = node.label? r := by
    intro r
    rw [label?_append, hnode]
    rfl
  have hNne : joinSlash (place ++ [oldName]) ≠ [] :=
    joinSlash_ne_nil_of_valid (hN ▸ valid_getPathSegments newPath) (by simp)
  have hOne : joinSlash (getPathSegments oldPath) ≠ [] := by
    refine joinSlash_ne_nil_of_valid (valid_getPathSegments oldPath) fun hnil => ?_
    rw [hnil, label?_nil] at hold
    cases hold
  have hremoved : (s.root.remove place oldName).get? (place ++ [oldName]) = none := by
    rw [← label?_eq_none_iff, label?_remove, if_pos (prefix_refl _)]
  have hpaths : paths ((s.root.remove place oldName).put place oldName node) = paths s.root := by
    simp only [paths, hsame]
  have hdir : ¬ place ++ [oldName] <+: place := by
    intro hpre
    have hlen := hpre.length_le
    simp at hlen
  have hlook : ∀ p ∈ subtreePaths (normalizePath newPath) node, ∃ r,
      lstatNode ((s.root.remove place oldName).put place oldName node) p = .ok r := by
    have hm' : Plain ((s.root.remove place oldName).put place oldName node) :=
      ⟨fun q e he => hm.unmounted q e (hsame q ▸ he), fun q hq => hm.named q (hsame q ▸ hq)⟩
    have hs' : Sound ((s.root.remove place oldName).put place oldName node) := by
      refine sound_put (sound_remove h.sound) hsnode (fun d' hd' => ?_) ?_
      · have hlabel := label?_of_get? hd'
        rw [label?_remove, if_neg hdir, label?_of_get? hplace,
          Option.some_inj] at hlabel
        rw [get?_append_singleton, hplace] at hnode
        rw [← hlabel]
        exact h.sound.directory_of_child hplace hnode
      · exact (valid_getPathSegments newPath oldName (hN ▸ by simp)).entryName
    intro p hp
    rw [normalizePath_eq, ← hN] at hp
    obtain ⟨r, hr, rfl⟩ := (mem_subtreePaths hsnode hNne).1 hp
    refine lstatNode_place hs' hm' ?_
    rwa [hsame, hbelow]
  obtain ⟨s', es, hrun, hroot, hes, hindex⟩ := run_announce_heard
    (s := { s with root := (s.root.remove place oldName).put place oldName node }) hl
    (normalizePath oldPath) none hlook
  have hfinish : (finish env (.move (normalizePath oldPath) (normalizePath newPath)
      (.here place parent) oldName node oldName) place).run s = (.ok (), s') := by
    rw [finish, finishMove, run_get_bind, run_bind, run_edit]
    simp only [Found.childPlace, if_neg hdir, Found.remove, hremoved]
    exact hrun
  rw [hfinish]
  refine ⟨es, hes, ?_⟩
  rw [hindex, hroot, hpaths]
  ext p
  simp only [Set.mem_union, Set.mem_sdiff, Set.mem_ofPred_eq, mem_gonePaths]
  rw [normalizePath_eq newPath, normalizePath_eq oldPath, ← hN, mem_subtreePaths hsnode hNne,
    mem_subtreePaths hsnode hOne]
  constructor
  · rintro (⟨hp, -⟩ | ⟨r, hr, rfl⟩)
    · exact hp
    · exact ⟨_, by rwa [hbelow], rfl⟩
  · rintro ⟨q, hq, rfl⟩
    refine .inl ⟨⟨q, hq, rfl⟩, ?_⟩
    rintro (⟨r, hr, heq⟩ | ⟨_, hnone, -⟩)
    · -- below a path that is no place there is none
      have hslash : ∀ n ∈ getPathSegments oldPath ++ r, '/' ∉ n := by
        intro n hn
        rcases mem_append.1 hn with hn | hn
        · exact (valid_getPathSegments oldPath n hn).2.1
        · rw [← hbelow] at hr
          exact hm.no_slash hr n (mem_append_right _ hn)
      have hqr := absolute_inj hslash (hm.no_slash hq) (joinSlash_append_ne_nil hOne r) heq.symm
      rw [← hqr, label?_append, label?_eq_none_iff.1 hold] at hq
      exact hq rfl
    · cases hnone

/-- A host hears of what a call edits, where the call names the places. -/
theorem finish_follows {a : Act} (h : WellFormed s.root) (hm : Plain s.root) (hl : env.Listens)
    (hplan : plan env s.root c = .ok a) (htells : a.Tells s.root)
    (hs' : s'.root = withDirectories env.now s.root a.base a.missing) :
    Follows s' ((finish env a.edit a.dir).run s').2 := by
  have hdest := (plan_fits h.directory hplan).destination
  have hplain := htells.plain h hm (plan_cases hplan)
  -- an edit that is told of without fail
  have hok : ¬ a.Fails env s.root →
      (finish env a.edit a.dir).run s' = (.ok (), ((finish env a.edit a.dir).run s').2) := by
    intro hfails
    have hno := (finish_error_iff h hplan hs').not.2 hfails
    cases hr : (finish env a.edit a.dir).run s' with
    | mk r s'' =>
        cases r with
        | ok u => rfl
        | error e => exact absurd ⟨e, by rw [hr]⟩ hno
  obtain ⟨d, hd, -⟩ := directory_withDirectories env.now hdest
  rw [← hs'] at hd
  cases plan_cases hplan with
  | nothing | directories => exact Follows.refl s'
  | write hc hw hb hdest' =>
      rename_i path data base missing
      refine follows_write hl.1 hd (getPathSegments_normalizePath path ▸ htells.1) ?_ data
      intro old hold
      refine htells.2 old ?_
      have hbelow := get?_below_withDirectories env.now hdest (getBasename path)
      rw [← hs'] at hbelow
      exact hbelow.symm.trans hold
  | setContent hc hw hget hk =>
      have hroot : s'.root = s.root := hs'
      rw [← hroot] at htells
      exact follows_setContent hl.1 (getPathSegments_normalizePath _ ▸ htells) _ _ _
  | add hc hw hget hk hfree =>
      rename_i path parent node
      have hroot : s'.root = s.root := hs'
      obtain ⟨place, parent, rfl, hplace⟩ := hm.here (getNode_in hget)
      rw [← hroot] at hplace
      refine follows_add hl.1 hplace hfree (by cases hc <;> rfl)
        (getPathSegments_normalizePath path ▸ Option.some_inj.1 htells)
        (hok (not_fails (by simp [Act.of]) (by simp [Act.of])))
  | drop hc hw hget hk hchild =>
      rename_i path parent node
      have hroot : s'.root = s.root := hs'
      obtain ⟨place, parent, rfl, hplace⟩ := hm.here (getNode_in hget)
      have hsnode := sound_child h.sound (getNode_in hget) hchild
      rw [← hroot] at hplace hm
      exact follows_drop hm hl.2 hplace hchild (hc.children hsnode)
        (getPathSegments_normalizePath path ▸ Option.some_inj.1 htells) _
  | move hold hnew hget hk hchild hdest' =>
      rename_i oldPath newPath source node base missing
      obtain ⟨place, parent, rfl, hplace⟩ := hm.here (getNode_in hget)
      obtain ⟨hN, htells⟩ := htells
      rw [getPathSegments_normalizePath] at hN
      rw [Act.tree, ← hs'] at hplain
      rcases htells with ⟨hO, hdir⟩ | ⟨hO, hold⟩
      · rw [getPathSegments_normalizePath] at hO hdir
        rw [← Option.some_inj.1 hO] at hdir
        exact follows_move h hm hl hdest hplace hchild (Option.some_inj.1 hO) hN hdir hs' hd
          hplain
      · rw [getPathSegments_normalizePath] at hold
        have hnode : s.root.get? (place ++ [getBasename oldPath]) = some node := by
          rw [get?_append_singleton, hplace]
          exact hchild
        have hnil : missing = [] := by
          rw [Option.some_inj.1 hO] at hnode
          exact hdest.missing_eq_nil hnode
        subst hnil
        have hroot : s'.root = s.root := hs'
        rw [← hroot] at hplace hnode hold h hm
        exact follows_move_same h hm hl hplace hnode (Option.some_inj.1 hO) hN hold
  | setMode hw hget =>
      rename_i path mode f
      have hin : s'.root.label? (getPathSegments path) ≠ none := by
        rw [show s'.root = s.root from hs', ← getPathSegments_normalizePath path]
        exact htells
      exact follows_assign { s' with root := f.assign _ s'.root } hl.1 hin
        (paths_foundAssign f _ _) rfl (hok (not_fails (by simp [Act.of]) (by simp [Act.of])))
  | setTimes hw hget ha =>
      rename_i path atime mtime f atimeMs
      have hin : s'.root.label? (getPathSegments path) ≠ none := by
        rw [show s'.root = s.root from hs', ← getPathSegments_normalizePath path]
        exact htells
      cases hmtime : unixMs env.now "mtime" mtime with
      | error e =>
          refine ⟨[], (append_nil _).symm, ?_⟩
          exact (paths_foundAssign f _ s'.root).symm
      | ok mtimeMs =>
          rw [hmtime] at hok
          exact follows_assign { s' with root := f.assign _ (f.assign _ s'.root) } hl.1 hin
            ((paths_foundAssign f _ _).trans (paths_foundAssign f _ _)) rfl
            (hok (not_fails (by simp [Act.of]) (by simp [Act.of])))
  | mount | unmount => exact absurd htells id

/-! ## Runs -/

/-- A call that names the places it edits is heard of, whatever it answers. -/
theorem follows_perform (h : WellFormed s.root) (hm : Plain s.root) (hl : env.Listens)
    (hc : ∀ a, plan env s.root c = .ok a → a.Tells s.root) :
    Follows s ((perform env c).run s).2 ∧ Plain ((perform env c).run s).2.root := by
  rw [perform_run _ _ _ h.directory]
  cases hplan : plan env s.root c with
  | error e => exact ⟨Follows.refl s, hm⟩
  | ok a =>
      have hdest := (plan_fits h.directory hplan).destination
      obtain ⟨s', hmade, hrun⟩ := act_of_reported hdest (hm.reported h.sound hdest)
      rw [carry_ok, hrun]
      constructor
      · exact (hmade.follows hdest hl.1).trans
          (finish_follows h hm hl hplan (hc a hplan) hmade.root)
      · rw [root_finish, hmade.root]
        exact (hc a hplan).plain h hm (plan_cases hplan)

/-- From a tree without mounts, a host that hears every event of a run has the paths
of the tree after each call, where the calls name the places they edit. -/
theorem follows_of_run {s t : State} (hs : Reachable s) (hm : Plain s.root) (h : Run s t) :
    Follows s t := by
  have hrun : Follows s t ∧ Plain t.root ∧ WellFormed t.root := by
    induction h with
    | start => exact ⟨Follows.refl s, hm, hs.wellFormed⟩
    | call _ env c hl hc ih =>
        obtain ⟨hfollows, hplain, hwf⟩ := ih
        obtain ⟨hstep, hplain'⟩ := follows_perform hwf hplain hl hc
        exact ⟨hfollows.trans hstep, hplain', perform_wellFormed env c hwf⟩
  exact hrun.1

def heard : Env :=
  { now := .finite 0, stack := 8, changeListened := true, deleteListened := true }

/-- A directory `/d` is made, and heard of. -/
theorem follows_of_run_mkdir :
    Follows (State.new (.finite 0))
      ((perform heard (.mkdir "/d".toList false)).run (State.new (.finite 0))).2 := by
  refine follows_of_run (.new _) (plain_new _) (.call .start heard _ ⟨rfl, rfl⟩ fun a ha => ?_)
  have hplan : plan heard (State.new (.finite 0)).root (.mkdir "/d".toList false) =
      .ok (.of (.add "/d".toList (.here [] (newDirectory (.finite 0))) "d".toList
        (newDirectory (.finite 0)))) := rfl
  rw [hplan] at ha
  cases ha
  rfl

/-- The tree after a directory `/d` and a link `/link` to it, both heard of. -/
def linked : State :=
  ((perform heard (.symlink "/d".toList "/link".toList)).run
    ((perform heard (.mkdir "/d".toList false)).run (State.new (.finite 0))).2).2

/-- A file written through the link is `/d/x`, and is told of as `/link/x`. -/
theorem writeFileSync_through_link :
    Reachable linked ∧
      ((perform heard (.writeFile "/link/x".toList [])).run linked).1 = .ok () ∧
      ¬ Follows linked ((perform heard (.writeFile "/link/x".toList [])).run linked).2 := by
  have hreach : Reachable linked := .step (.step (.new _) _ _) _ _
  refine ⟨hreach, rfl, ?_⟩
  rintro ⟨es, hes, hindex⟩
  have hevents : ((perform heard (.writeFile "/link/x".toList [])).run linked).2.events =
      linked.events ++ [.change "/link/x".toList []] := rfl
  rw [hevents, append_cancel_left_eq] at hes
  subst hes
  have hmem : "/link/x".toList ∈
      paths ((perform heard (.writeFile "/link/x".toList [])).run linked).2.root := by
    rw [← hindex]
    exact Set.mem_insert _ _
  obtain ⟨q, hq, heq⟩ := hmem
  have hsound := (hreach.step heard (.writeFile "/link/x".toList [])).wellFormed.sound
  have hplace : ["link".toList, "x".toList] = q :=
    absolute_inj (by decide) (fun n hn => (hsound.entryName hq n hn).1) (by decide) heq
  subst hplace
  exact hq rfl

end VirtualFS

end Tabnode
