import Tabnode.SyncChild.Tree
import Tabnode.VirtualFS.Entries

/-!
# The shell's filesystem

`VirtualFSAdapter` gives the shell its file operations over a tree. Each is made of
the tree's own synchronous operations, called one after another, and throws with the
first of them that does.
-/

namespace Tabnode

namespace ShellFiles

open VirtualFS

structure RmOptions where
  recursive : Bool := false
  force : Bool := false

/-- Remove a directory and what is listed in it, each entry by what a stat of its path
answers. `left` are the calls the stack has room for. -/
def rmRecursive (env : Env) (inodeFor : FSNode → Str → ℕ) : ℕ → Str → Fs Unit
  | 0, _ => Effect.throw .rangeError
  | left + 1, path => do
      let entries ← SyncChild.readdirSync path
      Effect.forEach (fun entry => do
        let stats ← SyncChild.statSync inodeFor (childPath path entry)
        if stats.isDirectory then rmRecursive env inodeFor left (childPath path entry)
        else unlinkSync env (childPath path entry)) entries
      rmdirSync env path

def rm (env : Env) (inodeFor : FSNode → Str → ℕ) (path : Str) (options : RmOptions) :
    Fs Unit := do
  let found ← SyncChild.existsSync path
  if !found then
    if options.force then pure () else Effect.throw (.node .ENOENT "rm" path)
  else do
    let stats ← SyncChild.statSync inodeFor path
    if stats.isFile then unlinkSync env path
    else if stats.isDirectory then
      if options.recursive then rmRecursive env inodeFor env.stack path else rmdirSync env path
    else pure ()

end ShellFiles

end Tabnode

/-!
## What `rm` removes

`rm` asks a stat, which follows links, what to do with an entry, and removes the entry
itself. A recursive removal that goes into a directory through a link ends at that link,
which is no directory to `rmdir`, so one that is answered has met no such link: it has
removed the entry its path names and nothing that is not below it (`rmRecursive_ok`).
The one path that is answered wrongly is that of a link to nothing, with `force`
(`rm_removes_iff`).
-/

namespace Tabnode

namespace ShellFiles

open VirtualFS

/-- What a removal promises of what it answers and leaves: it fails, or the entry at the
path and all below it is gone and all else as it was; a directory was empty unless
`recursive`; and an absent path is no error with `force`, and changes nothing. -/
structure Removes (options : RmOptions) (path : Str) (root : FSNode)
    (r : Except FsError Unit × State) : Prop where
  answered : r.1 = .ok () →
    match lstatNode root path with
    | .ok (some f) => ∃ place node, f = .here place node ∧ Taken root r.2.root place ∧
        (options.recursive = false → node.label.kind = Kind.directory → node.children = [])
    | .ok none => ∀ q, r.2.root.label? q = root.label? q
    | .error _ => False
  absent : options.force = true → lstatNode root path = .ok none →
    r.1 = .ok () ∧ ∀ q, r.2.root.label? q = root.label? q

/-! ### The reads -/

variable {inodeFor : FSNode → Str → ℕ} {path : Str} {s s' : State}

theorem statSync_ok {stats : SyncChild.Stats}
    (h : (SyncChild.statSync inodeFor path).run s = (.ok stats, s')) :
    s' = s ∧ ∃ f, getNode s.root path = .ok (some f) ∧
      stats = SyncChild.statOf (inodeFor s.root path) f := by
  rw [SyncChild.statSync, Effect.run_get_bind] at h
  cases hr : getNode s.root path with
  | error e => simp [hr] at h
  | ok r =>
      rw [hr, Effect.run_lift_ok_bind] at h
      cases r with
      | none => simp at h
      | some f =>
          simp only [Effect.run_pure, Prod.mk.injEq, Except.ok.injEq] at h
          exact ⟨h.2.symm, f, rfl, h.1.symm⟩

theorem readdirSync_ok {names : List Name}
    (h : (SyncChild.readdirSync path).run s = (.ok names, s')) :
    s' = s ∧ ∃ f, getNode s.root path = .ok (some f) ∧ f.kind = .directory ∧
      names = SyncChild.childNames f := by
  rw [SyncChild.readdirSync, Effect.run_get_bind] at h
  cases hr : getNode s.root path with
  | error e => simp [hr] at h
  | ok r =>
      rw [hr, Effect.run_lift_ok_bind] at h
      cases r with
      | none => simp at h
      | some f =>
          by_cases hk : f.kind = .directory
          · simp only [hk, ne_eq, not_true, if_false, Effect.run_pure, Prod.mk.injEq,
              Except.ok.injEq] at h
            exact ⟨h.2.symm, f, rfl, hk, h.1.symm⟩
          · simp [hk] at h

/-! ### Paths of listed names -/

theorem getPathSegments_childPath (path : Str) {name : Name} (hname : EntryName name) :
    getPathSegments (childPath path name) =
      getPathSegments path ++ if name = [] then [] else [name] := by
  have hsplit : splitSegments name = if name = [] then [] else [name] := by
    split
    · next hnil => rw [hnil, splitSegments_nil]
    · next hne =>
        have hone := @splitSegments_joinSlash [name] (by
          intro n hn
          rw [List.mem_singleton.1 hn]
          exact ⟨hne, hname.1⟩)
        simpa [joinSlash] using hone
  have hfold : ∀ resolved : List Name, (splitSegments name).foldl resolvePart resolved =
      resolved ++ if name = [] then [] else [name] := by
    intro resolved
    rw [hsplit]
    split
    · simp
    · next hne =>
        refine foldl_resolvePart_of_valid fun n hn => ?_
        rw [List.mem_singleton.1 hn]
        exact ⟨hne, hname⟩
  rw [childPath]
  split
  · next hroot =>
      rw [hroot, getPathSegments_eq, splitSegments_slash, hfold]
      rfl
  · rw [getPathSegments_eq, splitSegments_append_slash, List.foldl_append, hfold,
      ← getPathSegments_eq]

/-! ### What is left of a tree -/

/-- What the walk relies on: a tree of directories, files and links under the names of
entries, its root a directory. -/
structure Standing (root : FSNode) : Prop where
  unmounted : Unmounted root
  directory : root.label.kind = Kind.directory
  named : ∀ q, root.label? q ≠ none → ∀ n ∈ q, EntryName n

variable {root : FSNode}

theorem Standing.of_wellFormed (h : WellFormed root) (hm : Unmounted root) : Standing root :=
  ⟨hm, h.directory, fun _ hq => h.sound.entryName hq⟩

variable {above : Place}

theorem Standing.taken {root' : FSNode} (h : Standing root)
    (ht : Taken root root' (entryPlace above path)) : Standing root' := by
  have hlabel := ht []
  rw [if_neg (by simp [entryPlace]), LabelTree.label?_nil, LabelTree.label?_nil,
    Option.some_inj] at hlabel
  refine ⟨h.unmounted.of_extends ht.extends, by rw [hlabel, h.directory], fun q hq => ?_⟩
  refine h.named q fun hnone => hq ?_
  rw [ht q, hnone, ite_self]

variable {d : FSNode} {place : Place}

/-- What is listed in a directory of the tree has the name of an entry. -/
theorem Standing.listed (h : Standing root) (hd : root.get? place = some d) {n : Name}
    (hn : n ∈ SyncChild.childNames (.here place d)) : EntryName n := by
  obtain ⟨c, hc⟩ := OrderedMap.mem_keys_iff.1 hn
  refine h.named (place ++ [n]) ?_ n (by simp)
  have hget : root.get? (place ++ [n]) = some c := by
    rw [LabelTree.get?_append_singleton, hd]
    exact hc
  rw [LabelTree.label?_of_get? hget]
  simp

/-! ### A recursive removal -/

/-- The entry a listed name's path names is at or below the directory that was listed,
in whatever is left of the tree. An empty name's path is the directory's own. -/
theorem entryPlace_below {root' node : FSNode} (hm : Unmounted root) (hext : Extends root' root)
    {name : Name} (hget : getNode root path = .ok (some (.here place d))) (hname : EntryName name)
    (h : NamesEntry root' (childPath path name) above node)
    (hnil : name = [] → node.label.kind = Kind.directory) :
    place <+: entryPlace above (childPath path name) := by
  have hsegments := getPathSegments_childPath path hname
  by_cases hempty : name = []
  · rw [if_pos hempty, List.append_nil] at hsegments
    have hfound := h.found (hm.of_extends hext) (by rw [hnil hempty]; rfl)
    obtain ⟨d', hd', -⟩ := getNode_extends hext hm hfound
    have hsame := getNode_congr hsegments.symm hd'
    rw [hget, Except.ok.injEq, Option.some_inj, Found.here.injEq] at hsame
    rw [← hsame.1]
  · rw [if_neg hempty] at hsegments
    obtain ⟨p, hp, -, -⟩ := h.child
    obtain ⟨d', hd', -⟩ := getNode_extends hext hm hp
    have hparent : getPathSegments path =
        getPathSegments (getParentPath (childPath path name)) := by
      rw [getPathSegments_getParentPath, hsegments, List.dropLast_concat]
    have hsame := getNode_congr hparent hd'
    rw [hget, Except.ok.injEq, Option.some_inj, Found.here.injEq] at hsame
    rw [hsame.1]
    exact List.prefix_append _ _

variable {env : Env}

/-- The removal of what is listed in a directory takes away what is below it only, where
that of each directory takes away what its path names. -/
theorem rmEntries_ok {left : ℕ} (ih : ∀ {path : Str} {s s' : State}, Standing s.root →
      (rmRecursive env inodeFor left path).run s = (.ok (), s') →
      ∃ above node, NamesEntry s.root path above node ∧ node.label.kind = Kind.directory ∧
        Taken s.root s'.root (entryPlace above path)) (hroot : Standing root)
    (hget : getNode root path = .ok (some (.here place d))) (hdir : d.label.kind = Kind.directory)
    {entries : List Name} (hentries : ∀ n ∈ entries, EntryName n) (hext : Extends s.root root)
    (hs : Standing s.root) (h : (Effect.forEach (fun entry => do
        let stats ← SyncChild.statSync inodeFor (childPath path entry)
        if stats.isDirectory then rmRecursive env inodeFor left (childPath path entry)
        else unlinkSync env (childPath path entry)) entries).run s = (.ok (), s')) :
    Standing s'.root ∧ Extends s'.root s.root ∧
      ∀ q, ¬ place <+: q → s'.root.label? q = s.root.label? q := by
  induction entries generalizing s with
  | nil =>
      cases h
      exact ⟨hs, fun _ _ he => he, fun _ _ => rfl⟩
  | cons entry entries iht =>
      obtain ⟨u, t, hentry, hrest⟩ := Effect.run_bind_eq_ok h
      obtain ⟨stats, t', hstat, hremoved⟩ := Effect.run_bind_eq_ok hentry
      obtain ⟨rfl, f, hf, rfl⟩ := statSync_ok hstat
      have hname := hentries entry List.mem_cons_self
      have htaken : ∃ above, place <+: entryPlace above (childPath path entry) ∧
          Taken t'.root t.root (entryPlace above (childPath path entry)) := by
        by_cases hk : f.kind = .directory
        · have hstats : (SyncChild.statOf (inodeFor t'.root (childPath path entry))
              f).isDirectory = true := decide_eq_true hk
          rw [if_pos hstats] at hremoved
          obtain ⟨above, node, hnames, hnode, htaken⟩ := ih hs hremoved
          exact ⟨above, entryPlace_below hroot.unmounted hext hget hname hnames fun _ => hnode,
            htaken⟩
        · have hstats : ¬ (SyncChild.statOf (inodeFor t'.root (childPath path entry))
              f).isDirectory = true := fun hd => hk (of_decide_eq_true hd)
          rw [if_neg hstats] at hremoved
          -- what is no directory is not the root, nor the directory that was listed
          have hnamed : getBasename (childPath path entry) ≠ [] := by
            intro hb
            rw [getBasename_eq_nil_iff] at hb
            rw [getNode_root hb] at hf
            cases hf
            exact hk hs.directory
          have hne : entry ≠ [] := by
            intro hempty
            have hsegments := getPathSegments_childPath path hname
            rw [if_pos hempty, List.append_nil] at hsegments
            obtain ⟨p, c, rfl, -⟩ := hs.unmounted.here (getNode_in hf)
            obtain ⟨c', hc', hkind⟩ := getNode_extends hext hroot.unmounted hf
            have hsame := getNode_congr hsegments.symm hc'
            rw [hget, Except.ok.injEq, Option.some_inj, Found.here.injEq] at hsame
            rw [Found.kind_here, ← hkind, ← hsame.2] at hk
            exact hk hdir
          obtain ⟨above, node, hnames, -, htaken⟩ := unlinkSync_ok hs.unmounted hnamed hremoved
          exact ⟨above, entryPlace_below hroot.unmounted hext hget hname hnames
            fun hempty => absurd hempty hne, htaken⟩
      obtain ⟨above, hbelow, htaken⟩ := htaken
      have hfewer := htaken.extends
      obtain ⟨hst, hextends, hsame⟩ := iht (fun n hn => hentries n (List.mem_cons_of_mem _ hn))
        (fun q e he => hext q e (hfewer q e he)) (hs.taken htaken) hrest
      refine ⟨hst, fun q e he => hfewer q e (hextends q e he), fun q hq => ?_⟩
      rw [hsame q hq, htaken q, if_neg fun hpre => hq (hbelow.trans hpre)]

/-- A recursive removal that is answered has taken away the entry its path names, a
directory, and all that was below it. -/
theorem rmRecursive_ok {left : ℕ} (hs : Standing s.root)
    (h : (rmRecursive env inodeFor left path).run s = (.ok (), s')) :
    ∃ above node, NamesEntry s.root path above node ∧ node.label.kind = Kind.directory ∧
      Taken s.root s'.root (entryPlace above path) := by
  induction left generalizing path s s' with
  | zero => cases h
  | succ left ih =>
      obtain ⟨entries, t, hread, h⟩ := Effect.run_bind_eq_ok h
      obtain ⟨rfl, f, hf, hk, rfl⟩ := readdirSync_ok hread
      obtain ⟨u, t', hentries, hrmdir⟩ := Effect.run_bind_eq_ok h
      obtain ⟨place, d, rfl, hd⟩ := hs.unmounted.here (getNode_in hf)
      obtain ⟨hst, hext, hsame⟩ := rmEntries_ok ih hs hf hk
        (fun n hn => hs.listed hd hn) (fun _ _ he => he) hs hentries
      obtain ⟨above, node', hnames, hnode', -, htaken⟩ := rmdirSync_ok hst.unmounted hrmdir
      -- the directory that was listed is the entry that `rmdir` removed
      have hplace : place = entryPlace above path := by
        obtain ⟨c, hc, -⟩ := getNode_extends hext hs.unmounted
          (hnames.found hst.unmounted (by rw [hnode']; rfl))
        rw [hf, Except.ok.injEq, Option.some_inj, Found.here.injEq] at hc
        exact hc.1
      obtain ⟨node, hbefore, hlabel⟩ := hnames.before hext hs.unmounted
      refine ⟨above, node, hbefore, by rw [hlabel, hnode'], fun q => ?_⟩
      rw [htaken q]
      split
      · rfl
      · next hq => exact hsame q (hplace ▸ hq)

/-! ### What `rm` answers -/

variable {options : RmOptions}

/-- A removal that fails where there is something, or without `force`, promises nothing. -/
theorem Removes.of_error {r : Except FsError Unit × State} {e : FsError} (hr : r.1 = .error e)
    (habsent : options.force = true → lstatNode root path ≠ .ok none) :
    Removes options path root r where
  answered h := by
    rw [hr] at h
    cases h
  absent hforce hnone := absurd hnone (habsent hforce)

theorem Removes.of_taken {node : FSNode} (hm : Unmounted root)
    (hnames : NamesEntry root path above node) (ht : Taken root s'.root (entryPlace above path))
    (hempty : options.recursive = false → node.label.kind = Kind.directory →
      node.children = []) : Removes options path root (.ok (), s') where
  answered _ := by
    rw [hnames.lstat hm]
    exact ⟨_, node, rfl, ht, hempty⟩
  absent _ hnone := by
    rw [hnames.lstat hm] at hnone
    cases hnone

/-- What `rm` does with what it has found at the path. -/
def rmFound (env : Env) (inodeFor : FSNode → Str → ℕ) (path : Str) (options : RmOptions)
    (f : Found) : Fs Unit :=
  if f.kind.content?.isSome then unlinkSync env path
  else if f.kind = .directory then
    if options.recursive then rmRecursive env inodeFor env.stack path else rmdirSync env path
  else pure ()

theorem rm_run_of_found {f : Found} (hget : getNode s.root path = .ok (some f)) :
    (rm env inodeFor path options).run s = (rmFound env inodeFor path options f).run s := by
  rw [rm, Effect.run_bind, SyncChild.existsSync, Effect.run_get_bind, hget]
  show (SyncChild.statSync inodeFor path >>= _).run s = _
  rw [Effect.run_bind, SyncChild.statSync, Effect.run_get_bind, hget, rmFound]
  show (if f.kind.content?.isSome = true then unlinkSync env path
    else if decide (f.kind = .directory) = true then
      if options.recursive = true then rmRecursive env inodeFor env.stack path
      else rmdirSync env path
    else pure ()).run s = _
  simp only [decide_eq_true_eq]

/-- A removal that is answered, of what was found, took away the entry of the path. -/
theorem rmFound_ok {f : Found} (hs : Standing s.root) (hget : getNode s.root path = .ok (some f))
    (h : (rmFound env inodeFor path options f).run s = (.ok (), s')) :
    Removes options path s.root (.ok (), s') := by
  rw [rmFound] at h
  cases hk : f.kind with
  | symlink target =>
      have hnot := getNode_not_link hs.unmounted hs.directory hget
      rw [hk] at hnot
      cases hnot
  | file content =>
      rw [if_pos (by simp [hk, Kind.content?])] at h
      have hnamed : getBasename path ≠ [] := by
        intro hb
        rw [getBasename_eq_nil_iff] at hb
        rw [getNode_root hb] at hget
        cases hget
        rw [Found.kind_here, hs.directory] at hk
        cases hk
      obtain ⟨above, node, hnames, hnode, htaken⟩ := unlinkSync_ok hs.unmounted hnamed h
      exact .of_taken hs.unmounted hnames htaken fun _ hdir => absurd hdir hnode
  | directory =>
      rw [if_neg (by simp [hk, Kind.content?]), if_pos hk] at h
      cases hrecursive : options.recursive with
      | true =>
          rw [if_pos hrecursive] at h
          obtain ⟨above, node, hnames, -, htaken⟩ := rmRecursive_ok hs h
          refine .of_taken hs.unmounted hnames htaken fun hno => ?_
          rw [hrecursive] at hno
          cases hno
      | false =>
          rw [if_neg (by simp [hrecursive])] at h
          obtain ⟨above, node, hnames, -, hempty, htaken⟩ := rmdirSync_ok hs.unmounted h
          exact .of_taken hs.unmounted hnames htaken fun _ _ => hempty

/-- What `rm` answers keeps its promise but for a link to nothing, with `force`. -/
theorem rm_removes_iff (env : Env) (inodeFor : FSNode → Str → ℕ) {s : State}
    (hs : WellFormed s.root) (hm : Unmounted s.root) (path : Str) (options : RmOptions) :
    Removes options path s.root ((rm env inodeFor path options).run s) ↔
      ¬ (options.force = true ∧ getNode s.root path = .ok none ∧
        ∃ f, lstatNode s.root path = .ok (some f)) := by
  have hst := Standing.of_wellFormed hs hm
  constructor
  · rintro h ⟨hforce, hnone, f, hf⟩
    have hrun : (rm env inodeFor path options).run s = (.ok (), s) := by
      rw [rm, Effect.run_bind, SyncChild.existsSync, Effect.run_get_bind, hnone]
      show (if options.force = true then (pure () : Fs Unit) else _).run s = _
      rw [if_pos hforce, Effect.run_pure]
    have hanswered := h.answered (by rw [hrun])
    rw [hf, hrun] at hanswered
    obtain ⟨place, node, rfl, htaken, -⟩ := hanswered
    have hstands : s.root.get? place = some node := (substrateNode_in hf).1
    have hgone := htaken place
    rw [if_pos (List.prefix_refl _), LabelTree.label?_of_get? hstands] at hgone
    cases hgone
  · intro hlink
    cases hget : getNode s.root path with
    | error e =>
        have hrun : (rm env inodeFor path options).run s = (.error e, s) := by
          rw [rm, Effect.run_bind, SyncChild.existsSync, Effect.run_get_bind, hget]
          rfl
        rw [hrun]
        refine .of_error rfl fun _ hnone => ?_
        rw [getNode_of_lstatNode_missing hnone] at hget
        cases hget
    | ok r =>
        cases r with
        | none =>
            have hrun : (rm env inodeFor path options).run s =
                (if options.force = true then (pure () : Fs Unit)
                  else Effect.throw (.node .ENOENT "rm" path)).run s := by
              rw [rm, Effect.run_bind, SyncChild.existsSync, Effect.run_get_bind, hget]
              rfl
            rw [hrun]
            by_cases hforce : options.force = true
            · rw [if_pos hforce, Effect.run_pure]
              obtain ⟨r, hr⟩ := lstatNode_ok_of_missing hget
              have hnone : r = none := by
                cases r with
                | none => rfl
                | some f => exact absurd ⟨hforce, hget, f, hr⟩ hlink
              refine ⟨fun _ => ?_, fun _ _ => ⟨rfl, fun _ => rfl⟩⟩
              rw [hr, hnone]
              exact fun _ => rfl
            · rw [if_neg hforce]
              exact .of_error rfl fun h => absurd h hforce
        | some f =>
            have hthere : lstatNode s.root path ≠ .ok none := by
              intro hnone
              rw [getNode_of_lstatNode_missing hnone] at hget
              cases hget
            rw [rm_run_of_found hget]
            cases hrun : (rmFound env inodeFor path options f).run s with
            | mk r s' =>
                cases r with
                | error e => exact .of_error rfl fun _ => hthere
                | ok u => exact rmFound_ok hst hget hrun

/-! ### Small instances -/

/-- A tree with one entry, a file `/f`. -/
def single : State :=
  ((perform quiet (.writeFile "/f".toList [])).run (State.new (.finite 0))).2

/-- `rm` of the one file takes it away. -/
theorem rm_removes_single :
    Removes {} "/f".toList single.root ((rm quiet (fun _ _ => 0) "/f".toList {}).run single) := by
  refine (rm_removes_iff quiet (fun _ _ => 0) ?_ ?_ "/f".toList {}).2 ?_
  · exact (Reachable.step (.new _) quiet (.writeFile "/f".toList [])).wellFormed
  · have hplain : Plain (withFile (.finite 0) (State.new (.finite 0)).root [] "f".toList []) :=
      (plain_new _).withFile _ (by decide) []
    exact hplain.unmounted
  · rintro ⟨hforce, -⟩
    cases hforce

/-- A tree with one entry, a link `/l` to nothing. -/
def dangling : State :=
  ((perform quiet (.symlink "/none".toList "/l".toList)).run (State.new (.finite 0))).2

/-- `rm -f` of a link to nothing is answered, and leaves the link. -/
theorem rm_leaves_dangling :
    Reachable dangling ∧ Unmounted dangling.root ∧
      ¬ Removes { force := true } "/l".toList dangling.root
        ((rm quiet (fun _ _ => 0) "/l".toList { force := true }).run dangling) := by
  refine ⟨.step (.new _) _ _, ?_, fun h => ?_⟩
  · have hplain : Plain ((State.new (.finite 0)).root.put [] "l".toList
        (newSymlink "/none".toList (.finite 0))) :=
      (plain_new _).put_leaf rfl rfl (by decide)
    exact hplain.unmounted
  · have hanswered := h.answered rfl
    have hlstat : lstatNode dangling.root "/l".toList =
        .ok (some (.here ["l".toList] (newSymlink "/none".toList (.finite 0)))) := rfl
    rw [hlstat] at hanswered
    obtain ⟨place, node, hhere, htaken, -⟩ := hanswered
    cases hhere
    have hgone := htaken ["l".toList]
    rw [if_pos (List.prefix_refl _)] at hgone
    cases hgone

end ShellFiles

end Tabnode
