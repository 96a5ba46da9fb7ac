import Tabnode.VirtualFS.Lookup

/-!
# Which calls throw with the tree changed

A call that throws should leave the tree as it was (`ErrorAtomic`). What its checks
refuse does, and most edits cannot fail: the event of a new entry is about a path
that has just been looked up (`lstatNode_put_reported`). `Act.Breaks` lists what is
left: directories that are made and cannot be reported, a first time that is kept
when the second is refused, and moves that throw once the entry is moved.
-/

namespace Tabnode

namespace VirtualFS

open Effect LabelTree List Option

def SameTree (root root' : FSNode) : Prop := ∀ q, root'.label? q = root.label? q

theorem SameTree.refl (root : FSNode) : SameTree root root := fun _ => rfl

def ErrorAtomic (env : Env) (s : State) (c : Call) : Prop :=
  ∀ e, ((perform env c).run s).1 = .error e →
    SameTree s.root ((perform env c).run s).2.root

def Act.tree (env : Env) (root : FSNode) (a : Act) : FSNode :=
  a.edit.tree env.now a.dir (withDirectories env.now root a.base a.missing)

def Act.HalfTimed (root : FSNode) (a : Act) : Prop :=
  ∃ path place node atime e, a.edit = .setTimes path (.here place node) atime (.error e) ∧
    root.get? place = some node ∧ node.label.atime ≠ some atime

/-- A move of an entry that does not stand at its new place already, and that a
listener cannot be told of: the lookup of one of the new paths, with the entry
moved, follows too many links. -/
def Act.Unannounced (env : Env) (root : FSNode) (a : Act) : Prop :=
  env.changeListened ∧ ∃ oldPath newPath source oldName node newName,
    a.edit = .move oldPath newPath source oldName node newName ∧
    source.childPlace oldName ≠ some (a.dir ++ [newName]) ∧
    (source.childPlace oldName = none →
      ∃ q, root.label? (a.dir ++ [newName] ++ q) ≠ node.label? q) ∧
    ∃ p ∈ subtreePaths newPath node, ∃ e, lstatNode (a.tree env root) p = .error e

def Act.Breaks (env : Env) (root : FSNode) (a : Act) : Prop :=
  Unreported env root a.base a.missing ∨ a.HalfTimed root ∨ a.IntoItself ∨
    a.Unannounced env root

/-! ## Events that cannot fail -/

variable {env : Env} {root : FSNode} {s : State} {f : Found}

/-- A path that was found, or one name below it, can be reported in a tree that
covers the one it was found in. -/
theorem run_emitChanged_covers {path path' : Str} {tail : List Name} (hcov : Covers root s.root)
    (htail : tail.length ≤ 1) (hv : ∀ n ∈ tail, ValidName n)
    (hpath : getPathSegments path' = getPathSegments path ++ tail)
    (hget : getNode root path = .ok (some f)) :
    ∃ s', (emitChanged env path').run s = (.ok (), s') := by
  rw [run_emitChanged]
  split
  · obtain ⟨r, hr⟩ := substrateNode_covers hcov htail hv hpath hget
    have hl : lstatNode s.root path' = .ok r := hr
    rw [changeEvent, hl]
    exact ⟨_, rfl⟩
  · exact ⟨s, rfl⟩

theorem run_emitChanged_same (env : Env) {path : Str} (hcov : Covers root s.root)
    (hget : getNode root path = .ok (some f)) :
    ∃ s', (emitChanged env (normalizePath path)).run s = (.ok (), s') := by
  have hpath : getPathSegments (normalizePath path) = getPathSegments path ++ [] := by
    rw [getPathSegments_normalizePath, append_nil]
  exact run_emitChanged_covers hcov (by simp) (by simp) hpath hget

variable {node : FSNode}

theorem covers_put {name : Name} (hin : f.In root)
    (hfree : f.child? name = none) : Covers root (f.put name node root) := by
  apply Extends.covers
  intro q e he
  cases f with
  | mounted place below answer => exact he
  | here place parent =>
      rw [Found.put, label?_put hin.1, if_neg]
      · exact he
      · -- nothing stands at or below the new name
        intro hpre
        have hnone : root.get? (place ++ [name]) = none := by
          rw [get?_append_singleton, hin.1]
          exact hfree
        have habsent := get?_eq_none_of_isPrefix hpre hnone
        rw [label?, habsent] at he
        cases he

/-- A tree with fields assigned, the type not among them, covers the old one. -/
theorem Covers.assign {root' : FSNode} (h : Covers root root') {g : Attrs → Attrs}
    (hg : ∀ a, (g a).kind = a.kind) (f : Found) : Covers root (f.assign g root') := by
  intro q e he
  obtain ⟨e', he', hs⟩ := h q e he
  cases f with
  | mounted place below answer => exact ⟨e', he', hs⟩
  | here place node =>
      rw [Found.assign, VirtualFS.assign, label?_relabel]
      split
      · refine ⟨{ e' with toAttrs := g e'.toAttrs }, by rw [he']; rfl, ?_⟩
        rw [← hs]
        simp [Entry.shape, hg]
      · exact ⟨e', he', hs⟩

theorem getPathSegments_split (path : Str) :
    ∃ tail : List Name, tail.length ≤ 1 ∧ (∀ n ∈ tail, ValidName n) ∧
      getPathSegments path = getPathSegments (getParentPath path) ++ tail := by
  by_cases hb : getBasename path = []
  · refine ⟨[], by simp, by simp, ?_⟩
    rw [(getBasename_eq_nil_iff path).1 hb]
    rw [getPathSegments_getParentPath, (getBasename_eq_nil_iff path).1 hb]
    rfl
  · refine ⟨[getBasename path], by simp, ?_, getPathSegments_parent_basename hb⟩
    intro n hn
    rw [mem_singleton.1 hn]
    exact validName_getBasename hb

/-! ## Events of a move -/

theorem run_forEach_delete (env : Env) (l : List Str) (s : State) :
    ∃ s', (forEach (fun p => emit env (.delete p)) l).run s = (.ok (), s') := by
  induction l generalizing s with
  | nil => exact ⟨s, rfl⟩
  | cons p l ih =>
      rw [forEach, run_bind, run_emit]
      exact ih _

theorem run_forEach_emitChanged (env : Env) (l : List Str) (s : State) :
    (∃ e, ((forEach (emitChanged env) l).run s).1 = .error e) ↔
      env.changeListened ∧ ∃ p ∈ l, ∃ e, lstatNode s.root p = .error e := by
  induction l generalizing s with
  | nil => simp [forEach]
  | cons p l ih =>
      rw [forEach, run_bind, run_emitChanged]
      by_cases hl : env.changeListened
      · rw [if_pos hl]
        cases hp : lstatNode s.root p with
        | error e => simp [changeEvent, hp, hl]
        | ok r => simpa [changeEvent, hp, hl] using ih _
      · rw [if_neg hl]
        simpa [hl] using ih s

theorem run_announce (env : Env) (oldPath newPath : Str) (node : FSNode)
    (replaced : Option FSNode) (s : State) :
    (∃ e, ((renameSync.announce env oldPath newPath node replaced).run s).1 = .error e) ↔
      env.changeListened ∧
        ∃ p ∈ subtreePaths newPath node, ∃ e, lstatNode s.root p = .error e := by
  obtain ⟨s', hs'⟩ := run_forEach_delete env (gonePaths oldPath newPath node replaced) s
  have hroot : s'.root = s.root := by
    have h := root_forEach (fun p s => root_emit env (.delete p) s)
      (gonePaths oldPath newPath node replaced) s
    rw [hs'] at h
    exact h
  rw [renameSync.announce, run_bind_ok hs', run_forEach_emitChanged, hroot]

/-! ## Edits that fail -/

def Act.Fails (env : Env) (root : FSNode) (a : Act) : Prop :=
  (∃ path f atime e, a.edit = .setTimes path f atime (.error e)) ∨ a.IntoItself ∨
    env.changeListened ∧ ∃ oldPath newPath source oldName node newName,
      a.edit = .move oldPath newPath source oldName node newName ∧
      ∃ p ∈ subtreePaths newPath node, ∃ e, lstatNode (a.tree env root) p = .error e

variable {base : Place} {missing : List Name}

theorem covers_withDirectories (now : JsNumber) (h : IsDestination root base missing) :
    Covers root (withDirectories now root base missing) :=
  (extends_withDirectories now h).covers

variable {a : Act} {oldName newName : Name}

theorem finishMove_error_iff {s' : State} {oldPath newPath : Str} {source : Found}
    (hs' : s'.root = withDirectories env.now s.root a.base a.missing)
    (he : a.edit = .move oldPath newPath source oldName node newName) :
    (∃ e, ((finish env a.edit a.dir).run s').1 = .error e) ↔
      a.IntoItself ∨ env.changeListened ∧
        ∃ p ∈ subtreePaths newPath node, ∃ e, lstatNode (a.tree env s.root) p = .error e := by
  have htree : a.tree env s.root =
      (source.remove oldName s'.root).put a.dir newName node := by
    rw [Act.tree, he, ← hs']
    rfl
  rw [he, finish, finishMove, run_get_bind, run_bind, run_edit, htree]
  cases hplace : source.childPlace oldName with
  | none =>
      simp only
      rw [run_announce]
      refine (or_iff_right ?_).symm
      rintro ⟨O, N, hmoved, -⟩
      rw [he] at hmoved
      simp [Edit.moved, hplace] at hmoved
  | some O =>
      simp only
      by_cases hpre : O <+: a.dir
      · rw [if_pos hpre]
        refine iff_of_true ⟨_, rfl⟩ (.inl ⟨O, a.dir ++ [newName], ?_, hpre⟩)
        rw [he, Edit.moved, hplace]
      · rw [if_neg hpre, run_announce]
        refine (or_iff_right ?_).symm
        rintro ⟨O', N, hmoved, hpre'⟩
        rw [he, Edit.moved, hplace] at hmoved
        simp only [some_inj, Prod.mk.injEq] at hmoved
        exact hpre (hmoved.1 ▸ hpre')

theorem not_fails (hset : ∀ path f atime e, a.edit ≠ .setTimes path f atime (.error e))
    (hmove : ∀ o n source oldName node newName,
      a.edit ≠ .move o n source oldName node newName) : ¬ a.Fails env root := by
  rintro (⟨_, _, _, _, he⟩ | ⟨_, _, hmoved, -⟩ | ⟨-, _, _, _, _, _, _, he, -⟩)
  · exact hset _ _ _ _ he
  · cases he : a.edit with
    | move o n source oldName node newName => exact hmove _ _ _ _ _ _ he
    | _ =>
        rw [he] at hmoved
        cases hmoved
  · exact hmove _ _ _ _ _ _ he

theorem finish_error_iff {c : Call} {s' : State} (h : WellFormed s.root)
    (hplan : plan env s.root c = .ok a)
    (hs' : s'.root = withDirectories env.now s.root a.base a.missing) :
    (∃ e, ((finish env a.edit a.dir).run s').1 = .error e) ↔ a.Fails env s.root := by
  have hfit := plan_fits h.directory hplan
  have hcov := covers_withDirectories env.now hfit.destination
  rw [← hs'] at hcov
  have hok : ∀ {r : Except FsError Unit × State} {s'' : State}, r = (.ok (), s'') →
      ¬ ∃ e, r.1 = .error e := by
    rintro r s'' rfl ⟨e, he⟩
    cases he
  cases plan_cases hplan with
  | nothing => exact iff_of_false (hok rfl) (not_fails (by simp [Act.of]) (by simp [Act.of]))
  | directories => exact iff_of_false (hok rfl) (not_fails (by simp) (by simp))
  | write => exact iff_of_false (hok (run_emit env _ _)) (not_fails (by simp) (by simp))
  | setContent =>
      exact iff_of_false (hok (run_emit env _ _))
        (not_fails (by simp [Act.of]) (by simp [Act.of]))
  | add hc hw hget hk hfree =>
      rename_i path parent node
      refine iff_of_false ?_ (not_fails (by simp [Act.of]) (by simp [Act.of]))
      obtain ⟨tail, htail, hv, hpath⟩ := getPathSegments_split path
      rw [← getPathSegments_normalizePath path] at hpath
      have hcov' : Covers s.root (parent.put (getBasename path) node s'.root) := by
        rw [hs']
        exact covers_put (getNode_in hget) hfree
      obtain ⟨s'', hrun⟩ := run_emitChanged_covers
        (s := { s' with root := parent.put (getBasename path) node s'.root })
        hcov' htail hv hpath hget
      exact hok hrun
  | drop =>
      exact iff_of_false (hok (run_emit env _ _))
        (not_fails (by simp [Act.of]) (by simp [Act.of]))
  | move =>
      rw [finishMove_error_iff hs' rfl]
      constructor
      · rintro (hinto | ⟨hl, hp⟩)
        · exact .inr (.inl hinto)
        · exact .inr (.inr ⟨hl, _, _, _, _, _, _, rfl, hp⟩)
      · rintro (⟨_, _, _, _, he⟩ | hinto | ⟨hl, _, _, _, _, _, _, he, hp⟩)
        · cases he
        · exact .inl hinto
        · cases he
          exact .inr ⟨hl, hp⟩
  | setMode hw hget =>
      rename_i path mode f
      refine iff_of_false ?_ (not_fails (by simp [Act.of]) (by simp [Act.of]))
      have hcov' := hcov.assign (g := fun a => { a with mode := some (mode % 4096).toNat })
        (fun _ => rfl) f
      obtain ⟨s'', hrun⟩ := run_emitChanged_same env
        (s := { s' with root := f.assign _ s'.root }) hcov' hget
      exact hok hrun
  | setTimes hw hget ha =>
      rename_i path atime mtime f atimeMs
      cases hm : unixMs env.now "mtime" mtime with
      | error e => exact iff_of_true ⟨e, rfl⟩ (.inl ⟨_, _, _, _, rfl⟩)
      | ok mtimeMs =>
          refine iff_of_false ?_ (not_fails (by simp [Act.of]) (by simp [Act.of]))
          have hatime := hcov.assign (g := fun a => { a with atime := some atimeMs })
            (fun _ => rfl) f
          have hmtime := hatime.assign (g := fun a => { a with mtime := mtimeMs })
            (fun _ => rfl) f
          obtain ⟨s'', hrun⟩ := run_emitChanged_same env
            (s := { s' with root := f.assign _ (f.assign _ s'.root) }) hmtime hget
          exact hok hrun
  | mount => exact iff_of_false (hok rfl) (not_fails (by simp) (by simp))
  | unmount => exact iff_of_false (hok rfl) (not_fails (by simp [Act.of]) (by simp [Act.of]))

/-! ## What they leave -/

/-- A move to another place changes the tree: the old place is empty, or, where the
entry goes above itself, the tree would have itself below it. -/
theorem not_sameTree_move {root' parent : FSNode} {place dir : Place}
    (hparent : root.get? place = some parent) (hnode : parent.child? oldName = some node)
    (hd : ∃ d, root'.get? dir = some d) (hdir : ¬ place ++ [oldName] <+: dir)
    (hne : place ++ [oldName] ≠ dir ++ [newName]) :
    ¬ SameTree root ((root'.remove place oldName).put dir newName node) := by
  intro hsame
  have hO : root.get? (place ++ [oldName]) = some node := by
    rw [get?_append_singleton, hparent]
    exact hnode
  obtain ⟨d, hd⟩ := hd
  obtain ⟨d', hd'⟩ := get?_remove_isSome hd hdir
  by_cases hN : dir ++ [newName] <+: place ++ [oldName]
  · obtain ⟨r, hr⟩ := hN
    have hrne : r ≠ [] := by
      rintro rfl
      rw [append_nil] at hr
      exact hne hr.symm
    rw [← hr] at hO
    obtain ⟨c, hc⟩ := get?_isSome_of_isPrefix (prefix_append _ r) hO
    -- the entry above is the moved one, which lies below it
    have hrepeat : ∀ q, c.label? (r ++ q) = c.label? q := by
      intro q
      have hbelow : root.label? (dir ++ [newName] ++ q) = c.label? q := by
        rw [label?_append, hc]
        rfl
      have hmoved := hsame (dir ++ [newName] ++ q)
      rw [label?_put hd', if_pos (prefix_append _ q)] at hmoved
      have hdrop : (dir ++ [newName] ++ q).drop (dir.length + 1) = q := by
        rw [← length_singleton (a := newName), ← length_append, drop_left]
      rw [hdrop, hbelow] at hmoved
      rw [← hmoved, label?_append]
      rw [get?_append, hc, bind_some] at hO
      rw [hO]
      rfl
    exact hrne (eq_nil_of_label?_append hrepeat)
  · have hgone := hsame (place ++ [oldName])
    rw [label?_put hd', if_neg hN, label?_remove,
      if_pos (prefix_refl _), label?_of_get? hO] at hgone
    cases hgone

theorem not_sameTree_withDirectories (now : JsNumber) (h : IsDestination root base missing) {k : ℕ}
    (hk : k < missing.length) :
    ¬ SameTree root (withDirectories now root base (missing.take (k + 1))) := by
  intro hsame
  have hne : base ++ missing.take (k + 1) ≠ base := by
    intro heq
    have hlen := congrArg List.length heq
    rw [length_append, length_take, min_eq_left hk] at hlen
    omega
  have hnone := (h.take (k + 1)).label?_eq_none (prefix_append _ _) (prefix_refl _) hne
  obtain ⟨d, hd, -⟩ := directory_withDirectories now (h.take (k + 1))
  rw [← hsame, label?_of_get? hd] at hnone
  cases hnone

/-- A first time that is kept changes a node of the tree that had another. -/
theorem sameTree_atime_iff (hin : f.In root) (atime : JsNumber) :
    SameTree root (f.assign (fun a => { a with atime := some atime }) root) ↔
      ∀ place node, f = .here place node → node.label.atime = some atime := by
  cases f with
  | mounted place below answer =>
      refine iff_of_true (SameTree.refl root) ?_
      intro _ _ hf
      cases hf
  | here place node =>
      constructor
      · intro hsame _ _ hf
        cases hf
        have hplace := hsame place
        rw [Found.assign, VirtualFS.assign, label?_relabel, if_pos rfl,
          label?_of_get? hin.1, map_some, some_inj] at hplace
        exact (congrArg (fun e => e.atime) hplace).symm
      · intro hatime q
        rw [Found.assign, VirtualFS.assign, label?_relabel]
        split
        · next hq =>
            rw [← hq, label?_of_get? hin.1, map_some, ← hatime _ _ rfl]
        · rfl

/-- A move that is not into itself changes the tree, unless the entry is put where
it was, or a mounted tree's entry where an equal one stands. -/
theorem sameTree_move_iff (now : JsNumber) {source : Found} (h : IsDestination root base missing)
    (hin : source.In root) (hchild : source.child? oldName = some node)
    (hinto : ∀ O, source.childPlace oldName = some O → ¬ O <+: base ++ missing) :
    SameTree root ((source.remove oldName (withDirectories now root base missing)).put
        (base ++ missing) newName node) ↔
      ¬ (source.childPlace oldName ≠ some (base ++ missing ++ [newName]) ∧
        (source.childPlace oldName = none →
          ∃ q, root.label? (base ++ missing ++ [newName] ++ q) ≠ node.label? q)) := by
  obtain ⟨d, hd, -⟩ := directory_withDirectories now h
  cases source with
  | here place parent =>
      simp only [Found.childPlace, Found.remove, reduceCtorEq, false_implies, and_true,
        ne_eq, not_not, some_inj]
      constructor
      · intro hsame
        by_contra hne
        exact not_sameTree_move hin.1 hchild ⟨d, hd⟩ (hinto _ rfl) hne hsame
      · intro hON q
        have hnode : root.get? (place ++ [oldName]) = some node := by
          rw [get?_append_singleton, hin.1]
          exact hchild
        have hnil : missing = [] := by
          rw [hON] at hnode
          exact h.missing_eq_nil hnode
        obtain ⟨hdir, hname⟩ := append_inj' hON rfl
        cases hname
        rw [hnil, withDirectories, ← hnil, ← hdir, label?_move_same hin.1 hnode]
  | mounted place below answer =>
      simp only [Found.childPlace, Found.remove, ne_eq, reduceCtorEq, not_false_eq_true,
        true_implies, true_and, not_exists, not_not]
      have hbelow : ∀ q, ((withDirectories now root base missing).put (base ++ missing)
          newName node).label? (base ++ missing ++ [newName] ++ q) = node.label? q := by
        intro q
        rw [label?_put hd, if_pos (prefix_append _ q)]
        rw [← length_singleton (a := newName), ← length_append, drop_left]
      constructor
      · intro hsame q
        rw [← hsame, hbelow]
      · intro hsame q
        have hnil : missing = [] := by
          have hthere := hsame []
          rw [append_nil, label?_nil] at hthere
          obtain ⟨old, hold, -⟩ := label?_eq_some_iff.1 hthere
          exact h.missing_eq_nil hold
        by_cases hq : base ++ missing ++ [newName] <+: q
        · obtain ⟨r, rfl⟩ := hq
          rw [hbelow, hsame]
        · rw [label?_put hd, if_neg hq, hnil]
          rfl

theorem not_sameTree_intoItself (hfit : a.Fits root)
    (hinto : a.IntoItself) : ¬ SameTree root (a.tree env root) := by
  obtain ⟨O, N, hO, hpre⟩ := hinto
  have hedit := hfit.edit
  cases he : a.edit with
  | move oldPath newPath source oldName node newName =>
      rw [he] at hedit hO
      cases source with
      | mounted place below answer => cases hO
      | here place parent =>
          cases hO
          intro hsame
          have hgone : (a.tree env root).label? (place ++ [oldName]) = none := by
            rw [Act.tree, he]
            exact label?_intoItself hpre
          rw [hsame, label?_eq_none_iff, get?_append_singleton,
            hedit.1.1, bind_some] at hgone
          rw [show parent.child? oldName = some node from hedit.2.2.1] at hgone
          cases hgone
  | _ =>
      rw [he] at hO
      cases hO

/-- What an action that fails leaves is the old tree, unless it is one of those
that `Act.Breaks` lists. -/
theorem sameTree_iff_of_fails (hfit : a.Fits root) (hfails : a.Fails env root) :
    SameTree root (a.tree env root) ↔
      ¬ (a.HalfTimed root ∨ a.IntoItself ∨ a.Unannounced env root) := by
  by_cases hinto : a.IntoItself
  · exact iff_of_false (not_sameTree_intoItself hfit hinto) fun h => h (.inr (.inl hinto))
  have hedit := hfit.edit
  rcases hfails with ⟨path, f, atime, e, he⟩ | hinto' |
    ⟨hl, oldPath, newPath, source, oldName, node, newName, he, hp⟩
  · have hnil : a.missing = [] := by
      have hmade := hfit.made
      rw [he] at hmade
      exact hmade.resolve_left id
    have htree : a.tree env root = f.assign (fun a => { a with atime := some atime }) root := by
      rw [Act.tree, he, hnil]
      rfl
    rw [he] at hedit
    rw [htree, sameTree_atime_iff hedit, not_or, not_or]
    constructor
    · intro hatime
      refine ⟨?_, hinto, ?_⟩
      · rintro ⟨_, _, _, _, _, he', -, hne⟩
        rw [he] at he'
        cases he'
        exact hne (hatime _ _ rfl)
      · rintro ⟨-, _, _, _, _, _, _, he', -⟩
        rw [he] at he'
        cases he'
    · rintro ⟨hhalf, -, -⟩ place node rfl
      by_contra hne
      exact hhalf ⟨_, _, _, _, _, he, hedit.1, hne⟩
  · exact absurd hinto' hinto
  · have htree : a.tree env root =
        (source.remove oldName (withDirectories env.now root a.base a.missing)).put
          (a.base ++ a.missing) newName node := by
      rw [Act.tree, he]
      rfl
    rw [he] at hedit
    rw [htree, sameTree_move_iff env.now hfit.destination hedit.1 hedit.2.2.1]
    · rw [not_iff_not]
      constructor
      · rintro ⟨hne, hdiff⟩
        exact .inr (.inr ⟨hl, _, _, _, _, _, _, he, hne, hdiff, hp⟩)
      · rintro (⟨_, _, _, _, _, he', -⟩ | hinto' | ⟨-, _, _, _, _, _, _, he', hne, hdiff, -⟩)
        · rw [he] at he'
          cases he'
        · exact absurd hinto' hinto
        · rw [he] at he'
          cases he'
          exact ⟨hne, hdiff⟩
    · intro O hO hpre
      refine hinto ⟨O, a.dir ++ [newName], ?_, hpre⟩
      rw [he, Edit.moved, hO]

/-- In every reachable tree, a call that throws leaves the tree as it was exactly
where it is not one of those that `Act.Breaks` lists. -/
theorem errorAtomic_iff {env : Env} {s : State} (hs : Reachable s) {c : Call} :
    ErrorAtomic env s c ↔ ∀ a, plan env s.root c = .ok a → ¬ a.Breaks env s.root := by
  have h := hs.wellFormed
  rw [ErrorAtomic, perform_run _ _ _ h.directory]
  cases hplan : plan env s.root c with
  | error e => exact iff_of_true (fun _ _ => SameTree.refl s.root) fun _ ha => by cases ha
  | ok a =>
      have hfit := plan_fits h.directory hplan
      simp only [carry_ok, Except.ok.injEq, forall_eq']
      by_cases hrep : Unreported env s.root a.base a.missing
      · refine iff_of_false (fun hatomic => ?_) fun h => h (.inl hrep)
        obtain ⟨e, s', k, hrun, hk, hs'⟩ := act_of_unreported hfit.destination hrep
        have hsame := hatomic e (by rw [hrun])
        rw [hrun, hs'] at hsame
        exact not_sameTree_withDirectories env.now hfit.destination hk hsame
      · rw [Act.Breaks, or_iff_right hrep]
        obtain ⟨s', hmade, hrun⟩ := act_of_reported hfit.destination hrep
        have htree : ((act env a).run s).2.root = a.tree env s.root := by
          rw [hrun, root_finish, hmade.root]
          rfl
        have herror := finish_error_iff h hplan hmade.root
        rw [htree, hrun, ← forall_exists_index (q := fun _ => SameTree s.root (a.tree env s.root)),
          herror]
        by_cases hfails : a.Fails env s.root
        · rw [← sameTree_iff_of_fails hfit hfails]
          simp [hfails]
        · refine iff_of_true (fun hf => absurd hf hfails) ?_
          rintro (⟨_, _, _, _, _, he, -⟩ | hinto | ⟨hl, _, _, _, _, _, _, he, -, -, hp⟩)
          · exact hfails (.inl ⟨_, _, _, _, he⟩)
          · exact hfails (.inr (.inl hinto))
          · exact hfails (.inr (.inr ⟨hl, _, _, _, _, _, _, he, hp⟩))

/-- A new filesystem with a file `/f`. -/
def oneFile : State :=
  ((perform quiet (.writeFile "/f".toList [1])).run (State.new (.finite 0))).2

theorem reachable_oneFile : Reachable oneFile := .step (.new _) _ _

theorem errorAtomic_iff_oneFile :
    ErrorAtomic quiet oneFile (.utimes "/f".toList (.number .nan) (.number (.finite 1))) := by
  refine (errorAtomic_iff reachable_oneFile).2 fun a ha => ?_
  have hplan : plan quiet oneFile.root
      (.utimes "/f".toList (.number .nan) (.number (.finite 1))) =
      .error (.invalidArgType "atime" "number") := rfl
  rw [hplan] at ha
  cases ha

/-- The second time is refused, and the first one is set. -/
theorem utimesSync_half_set :
    Reachable oneFile ∧
      ((perform quiet (.utimes "/f".toList (.number (.finite 0)) (.number .nan))).run oneFile).1 =
        .error (.invalidArgType "mtime" "number") ∧
      (oneFile.root.label? ["f".toList]).map (fun e => e.atime) = some none ∧
      (((perform quiet (.utimes "/f".toList (.number (.finite 0)) (.number .nan))).run
        oneFile).2.root.label? ["f".toList]).map (fun e => e.atime) =
          some (some (.finite 0)) ∧
      ¬ ErrorAtomic quiet oneFile
        (.utimes "/f".toList (.number (.finite 0)) (.number .nan)) := by
  have hbefore : (oneFile.root.label? ["f".toList]).map (fun e => e.atime) = some none := rfl
  have hafter : (((perform quiet (.utimes "/f".toList (.number (.finite 0))
      (.number .nan))).run oneFile).2.root.label? ["f".toList]).map (fun e => e.atime) =
      some (some (JsNumber.finite 0).timesThousand) := rfl
  have hvalue : (JsNumber.finite 0).timesThousand = .finite 0 := by
    simp [JsNumber.timesThousand, JsNumber.round]
  rw [hvalue] at hafter
  refine ⟨reachable_oneFile, rfl, hbefore, hafter, fun hatomic => ?_⟩
  have hsame := hatomic (.invalidArgType "mtime" "number") rfl ["f".toList]
  rw [hsame, hbefore] at hafter
  cases hafter

end VirtualFS

end Tabnode
