import Tabnode.VirtualFS.Lookup
import Tabnode.VirtualFS.Physical
import Tabnode.VirtualFS.Plan

/-!
# The entry a path names

`NamesEntry` is what a method that edits an entry looks up: the directory at the
parent's path, and its child under the base name. In a tree that nothing is mounted in
this is the entry `lstatNode` finds, and `getNode` too where it is no link
(`NamesEntry.lstat`, `NamesEntry.found`). What a path finds in a part of a tree it finds
in the whole one (`getNode_extends`), so the entry a removal took away was the path's
entry in every tree before it. What is written over a file, or where nothing was, is read
back by the same path, whatever links and missing directories are on the way
(`readFileSync_writeFileSync`), and what was read elsewhere is read as before
(`readFileSync_after_writeFileSync`).
-/

namespace Tabnode

namespace VirtualFS

open LabelTree List Option

def Unmounted (root : FSNode) : Prop :=
  ∀ q e, root.label? q = some e → e.mount = none

variable {root : FSNode}

theorem Unmounted.here (hm : Unmounted root) {f : Found} (h : f.In root) :
    ∃ place node, f = .here place node ∧ root.get? place = some node := by
  cases f with
  | here place node => exact ⟨place, node, rfl, h.1⟩
  | mounted place below answer =>
      obtain ⟨e, tree, he, hmount, -⟩ := h
      rw [hm _ _ he] at hmount
      cases hmount

variable {root' : FSNode}

theorem Unmounted.of_extends (hm : Unmounted root) (h : Extends root' root) : Unmounted root' :=
  fun q e he => hm q e (h q e he)

theorem enter_unmounted {child : FSNode} (hm : child.label.mount = none) (index : ℕ)
    (names : List Name) : enter none index names (.here names child) = (.here names child, none) := by
  simp [enter, Found.mount, hm]

/-! ## A name more -/

variable {node : FSNode} {follow : Bool} {names segments : List Name} {name : Name}

/-- A walk goes on at a child that is no link, or at the last one not to be followed. -/
theorem walkNode_child_of_found {d c : FSNode} (hm : Unmounted root) {place : List Name}
    (hget : root.get? names = some node)
    (h : walkNode true names (.here names node) none segments = .found (.here place d))
    (hdir : d.label.kind = Kind.directory) (hc : d.child? name = some c)
    (hlast : follow = false ∨ c.label.kind.target? = none) :
    walkNode follow names (.here names node) none (segments ++ [name]) =
      .found (.here (place ++ [name]) c) := by
  induction segments generalizing names node with
  | nil =>
      cases h
      have hchild : root.get? (place ++ [name]) = some c := by
        rw [get?_append_singleton, hget]
        exact hc
      have hmount := hm _ _ (label?_of_get? hchild)
      rw [nil_append, walkNode, Found.kind_here, if_neg (not_not.2 hdir)]
      simp only [nextNode, hc, map_some, Found.kind_here, isEmpty_nil, Bool.not_true,
        Bool.or_false]
      rw [enter_unmounted hmount]
      rcases hlast with rfl | htarget
      · cases c.label.kind.target? <;> rfl
      · rw [htarget]
        rfl
  | cons segment rest ih =>
      rw [walkNode] at h
      rw [cons_append, walkNode]
      split at h
      · cases h
      · next hnot =>
          rw [if_neg hnot]
          simp only [nextNode] at h ⊢
          cases hcs : node.child? segment with
          | none => simp [hcs] at h
          | some child =>
              have hchild : root.get? (names ++ [segment]) = some child := by
                rw [get?_append_singleton, hget]
                exact hcs
              simp only [hcs, map_some, Found.kind_here, Bool.true_or] at h ⊢
              rw [enter_unmounted (hm _ _ (label?_of_get? hchild))] at h ⊢
              cases htarget : child.label.kind.target? with
              | some target => simp [htarget] at h
              | none =>
                  simp only [htarget] at h ⊢
                  exact ih hchild h

theorem walkNode_child_of_link (hm : Unmounted root) {rest : List Name} {linkPath target : Str}
    (hget : root.get? names = some node)
    (h : walkNode true names (.here names node) none segments = .link linkPath target rest) :
    walkNode follow names (.here names node) none (segments ++ [name]) =
      .link linkPath target (rest ++ [name]) := by
  induction segments generalizing names node with
  | nil => cases h
  | cons segment after ih =>
      rw [walkNode] at h
      rw [cons_append, walkNode]
      split at h
      · cases h
      · next hnot =>
          rw [if_neg hnot]
          simp only [nextNode] at h ⊢
          cases hcs : node.child? segment with
          | none => simp [hcs] at h
          | some child =>
              have hchild : root.get? (names ++ [segment]) = some child := by
                rw [get?_append_singleton, hget]
                exact hcs
              simp only [hcs, map_some, Found.kind_here, Bool.true_or] at h ⊢
              rw [enter_unmounted (hm _ _ (label?_of_get? hchild))] at h ⊢
              cases htarget : child.label.kind.target? with
              | some target' =>
                  simp only [htarget, Walk.link.injEq] at h
                  obtain ⟨rfl, rfl, rfl⟩ := h
                  have hmore : (after ++ [name]).isEmpty = false := by simp
                  rw [hmore, Bool.not_false, Bool.or_true]
              | none =>
                  simp only [htarget] at h ⊢
                  exact ih hchild h

variable {path : Str} {place : Place}

theorem substrateNode_child {d c : FSNode} (hm : Unmounted root) {left : ℕ} {parent : Str}
    (hpath : getPathSegments path = getPathSegments parent ++ [name]) (hname : ValidName name)
    (h : substrateNode root true left parent = .ok (some (.here place d)))
    (hdir : d.label.kind = Kind.directory) (hc : d.child? name = some c)
    (hlast : follow = false ∨ c.label.kind.target? = none) :
    substrateNode root follow left path = .ok (some (.here (place ++ [name]) c)) := by
  induction left generalizing parent path with
  | zero => cases h
  | succ left ih =>
      rw [substrateNode] at h ⊢
      rw [hpath]
      cases hw : walkNode true [] (.here [] root) none (getPathSegments parent) with
      | missing =>
          rw [hw] at h
          cases h
      | found node =>
          rw [hw] at h
          cases h
          rw [walkNode_child_of_found hm (get?_nil root) hw hdir hc hlast]
      | link linkPath target rest =>
          rw [hw] at h
          have hv : ∀ n ∈ rest, ValidName n := fun n hn =>
            valid_getPathSegments parent n ((walkNode_link_suffix hw).subset hn)
          have hv' : ∀ n ∈ rest ++ [name], ValidName n := by
            intro n hn
            rcases mem_append.1 hn with hn | hn
            · exact hv n hn
            · rw [mem_singleton.1 hn]
              exact hname
          rw [walkNode_child_of_link hm (get?_nil root) hw]
          refine ih ?_ h
          rw [getPathSegments_afterLink hv, getPathSegments_afterLink hv', append_assoc]

/-! ## Lookups in a tree that keeps the ways -/

def Kind.blank : Kind → Kind
  | .file _ => .file []
  | kind => kind

theorem Kind.blank_eq {kind kind' : Kind} (h : kind'.blank = kind.blank) :
    (kind' = .directory ↔ kind = .directory) ∧ kind'.target? = kind.target? := by
  cases kind <;> cases kind' <;> simp_all [Kind.blank, Kind.target?]

def KeepsNodes (root root' : FSNode) : Prop :=
  ∀ q c, root.get? q = some c →
    ∃ c', root'.get? q = some c' ∧ c'.label.kind.blank = c.label.kind.blank

/-- A walk that ends at a node or at a link ends there in a tree that keeps the nodes. -/
theorem walkNode_keepsNodes {node' : FSNode} (hm : Unmounted root) (hm' : Unmounted root')
    (hkeep : KeepsNodes root root') (hget : root.get? names = some node)
    (hget' : root'.get? names = some node')
    (hsame : node'.label.kind.blank = node.label.kind.blank) :
    walkNode follow names (.here names node) none segments = .missing ∨
    (∃ place c c', root'.get? place = some c' ∧
      walkNode follow names (.here names node) none segments = .found (.here place c) ∧
      walkNode follow names (.here names node') none segments = .found (.here place c')) ∨
    ∃ linkPath target after,
      walkNode follow names (.here names node) none segments = .link linkPath target after ∧
      walkNode follow names (.here names node') none segments = .link linkPath target after := by
  induction segments generalizing names node node' with
  | nil => exact .inr (.inl ⟨names, node, node', hget', rfl, rfl⟩)
  | cons segment rest ih =>
      rw [walkNode, walkNode, Found.kind_here, Found.kind_here]
      by_cases hdir : node.label.kind = .directory
      · rw [if_neg (not_not.2 hdir), if_neg (not_not.2 ((Kind.blank_eq hsame).1.2 hdir))]
        cases hchild : node.child? segment with
        | none => exact .inl (by simp only [nextNode, hchild, map_none])
        | some child =>
            have hc : root.get? (names ++ [segment]) = some child := by
              rw [get?_append_singleton, hget]
              exact hchild
            obtain ⟨child', hc', hblank⟩ := hkeep _ _ hc
            have hchild' : node'.child? segment = some child' := by
              rw [get?_append_singleton, hget'] at hc'
              exact hc'
            simp only [nextNode, hchild, hchild', map_some, Found.kind_here,
              (Kind.blank_eq hblank).2]
            split
            · exact .inr (.inr ⟨_, _, _, rfl, rfl⟩)
            · rw [enter_unmounted (hm _ _ (label?_of_get? hc)),
                enter_unmounted (hm' _ _ (label?_of_get? hc'))]
              exact ih hc hc' hblank
      · exact .inl (if_pos hdir)

theorem substrateNode_keepsNodes (hm : Unmounted root) (hm' : Unmounted root')
    (hkeep : KeepsNodes root root') {left : ℕ} {c : FSNode}
    (h : substrateNode root follow left path = .ok (some (.here place c))) :
    ∃ c', root'.get? place = some c' ∧
      substrateNode root' follow left path = .ok (some (.here place c')) := by
  induction left generalizing path with
  | zero => cases h
  | succ left ih =>
      obtain ⟨top, htop, hblank⟩ := hkeep _ _ (get?_nil root)
      rw [get?_nil, some_inj] at htop
      subst htop
      rw [substrateNode] at h ⊢
      rcases walkNode_keepsNodes hm hm' hkeep (get?_nil root) (get?_nil root') hblank with
        hnone | ⟨_, _, c', hc', hw, hw'⟩ | ⟨_, _, _, hw, hw'⟩
      · rw [hnone] at h
        cases h
      · rw [hw] at h
        cases h
        exact ⟨c', hc', by rw [hw']⟩
      · rw [hw] at h
        rw [hw']
        exact ih h

theorem getNode_extends (h : Extends root' root) (hm : Unmounted root) {d' : FSNode}
    (hget : getNode root' path = .ok (some (.here place d'))) :
    ∃ d, getNode root path = .ok (some (.here place d)) ∧ d.label.kind = d'.label.kind := by
  have hlabel (q : Place) (c : FSNode) (hc : root'.get? q = some c) :
      ∃ c', root.get? q = some c' ∧ c'.label = c.label :=
    label?_eq_some_iff.1 (h q _ (label?_of_get? hc))
  have hkeep : KeepsNodes root' root := fun q c hc => by
    obtain ⟨c', hc', hsame⟩ := hlabel q c hc
    exact ⟨c', hc', by rw [hsame]⟩
  obtain ⟨d, hd, hfound⟩ := substrateNode_keepsNodes (hm.of_extends h) hm hkeep hget
  obtain ⟨c', hc', hsame⟩ := hlabel place d' (substrateNode_in hget).1
  rw [hd, some_inj] at hc'
  exact ⟨d, hfound, by rw [hc', hsame]⟩

theorem getNode_congr {path' : Str} (hpath : getPathSegments path' = getPathSegments path)
    {r : Option Found} (h : getNode root path = .ok r) : getNode root path' = .ok r := by
  have hbound : linkBound = 40 + 1 := rfl
  rw [getNode, hbound, substrateNode] at h ⊢
  rwa [hpath]

theorem getNode_root (h : getPathSegments path = []) :
    getNode root path = .ok (some (.here [] root)) := by
  have hbound : linkBound = 40 + 1 := rfl
  rw [getNode, hbound, substrateNode, h, walkNode]

theorem getNode_not_link (hm : Unmounted root) (hroot : root.label.kind = Kind.directory)
    {f : Found} (h : getNode root path = .ok (some f)) : f.kind.target? = none := by
  have hwalk : ∀ (segments names : List Name) (node : FSNode), Unmounted node →
      node.label.kind.target? = none →
      walkNode true names (.here names node) none segments = .found f → f.kind.target? = none := by
    intro segments
    induction segments with
    | nil =>
        intro names node _ hk hw
        cases hw
        exact hk
    | cons segment rest ih =>
        intro names node hmn _ hw
        rw [walkNode] at hw
        split at hw
        · cases hw
        · simp only [nextNode] at hw
          cases hc : node.child? segment with
          | none => simp [hc] at hw
          | some child =>
              have hbelow : ∀ q, node.label? (segment :: q) = child.label? q := by
                intro q
                rw [label?_cons, hc]
                rfl
              simp only [hc, map_some, Found.kind_here, Bool.true_or] at hw
              rw [enter_unmounted (hmn [segment] _ (hbelow []))] at hw
              cases htarget : child.label.kind.target? with
              | some target => simp [htarget] at hw
              | none =>
                  simp only [htarget] at hw
                  exact ih _ _ (fun q e he => hmn (segment :: q) e ((hbelow q).trans he)) htarget hw
  rw [getNode] at h
  generalize linkBound = left at h
  induction left generalizing path with
  | zero => cases h
  | succ left ih =>
      rw [substrateNode] at h
      cases hw : walkNode true [] (.here [] root) none (getPathSegments path) with
      | missing =>
          rw [hw] at h
          cases h
      | found node =>
          rw [hw] at h
          cases h
          exact hwalk _ _ _ hm (by rw [hroot]; rfl) hw
      | link linkPath target rest =>
          rw [hw] at h
          exact ih h

/-! ## Links at the end of a path -/

/-- A walk that follows the last link is the one that does not, but for that link. -/
theorem walkNode_follow (segments names : List Name) (current : Found) (mounted : Mounted) :
    walkNode true names current mounted segments = walkNode false names current mounted segments ∨
      ∃ linkPath target f,
        walkNode true names current mounted segments = .link linkPath target [] ∧
          walkNode false names current mounted segments = .found f := by
  induction segments generalizing names current mounted with
  | nil => exact .inl rfl
  | cons segment rest ih =>
      rw [walkNode, walkNode]
      split
      · exact .inl rfl
      · cases nextNode current mounted (names ++ [segment]) segment with
        | none => exact .inl rfl
        | some child =>
            simp only [Bool.true_or, Bool.false_or]
            cases child.kind.target? with
            | none => exact ih _ _ _
            | some target =>
                cases rest with
                | nil => exact .inr ⟨_, _, _, rfl, rfl⟩
                | cons next rest => exact .inl rfl

/-- Where a lookup finds nothing, following no link at the end does not fail. -/
theorem lstatNode_ok_of_missing (h : getNode root path = .ok none) :
    ∃ r, lstatNode root path = .ok r := by
  rw [getNode] at h
  rw [lstatNode]
  generalize linkBound = left at h ⊢
  induction left generalizing path with
  | zero => cases h
  | succ left ih =>
      rw [substrateNode] at h ⊢
      rcases walkNode_follow (getPathSegments path) [] (.here [] root) none with
        hsame | ⟨linkPath, target, f, -, hfound⟩
      · rw [hsame] at h
        cases hw : walkNode false [] (.here [] root) none (getPathSegments path) with
        | found f =>
            rw [hw] at h
            cases h
        | missing => exact ⟨none, rfl⟩
        | link linkPath target rest =>
            rw [hw] at h
            exact ih h
      · rw [hfound]
        exact ⟨some f, rfl⟩

/-- Where nothing is found without following the last link, nothing is with it. -/
theorem getNode_of_lstatNode_missing
    (h : lstatNode root path = .ok none) : getNode root path = .ok none := by
  rw [lstatNode] at h
  rw [getNode]
  generalize linkBound = left at h ⊢
  induction left generalizing path with
  | zero => cases h
  | succ left ih =>
      rw [substrateNode] at h ⊢
      rcases walkNode_follow (getPathSegments path) [] (.here [] root) none with
        hsame | ⟨linkPath, target, f, -, hfound⟩
      · rw [hsame]
        cases hw : walkNode false [] (.here [] root) none (getPathSegments path) with
        | found f =>
            rw [hw] at h
            cases h
        | missing => rfl
        | link linkPath target rest =>
            rw [hw] at h
            exact ih h
      · rw [hfound] at h
        cases h

/-! ## The entry of a path -/

/-- A path names an entry: its base name is that of a child of the directory at its
parent's path. -/
structure NamesEntry (root : FSNode) (path : Str) (above : Place) (node : FSNode) : Prop where
  named : getBasename path ≠ []
  child : ∃ d, getNode root (getParentPath path) = .ok (some (.here above d)) ∧
    d.label.kind = Kind.directory ∧ d.child? (getBasename path) = some node

def entryPlace (above : Place) (path : Str) : Place := above ++ [getBasename path]

theorem valid_getBasename (h : getBasename path ≠ []) : ValidName (getBasename path) := by
  refine valid_getPathSegments path _ ?_
  rw [getPathSegments_parent_basename h]
  simp

variable {above : Place}

theorem NamesEntry.stands
    (h : NamesEntry root path above node) : root.get? (entryPlace above path) = some node := by
  obtain ⟨d, hd, -, hc⟩ := h.child
  rw [entryPlace, get?_append_singleton, (getNode_in hd).1]
  exact hc

/-- The entry a path names is what is found there, a link not followed. -/
theorem NamesEntry.lstat (hm : Unmounted root) (h : NamesEntry root path above node) :
    lstatNode root path = .ok (some (.here (entryPlace above path) node)) := by
  obtain ⟨d, hd, hdir, hc⟩ := h.child
  exact substrateNode_child hm (getPathSegments_parent_basename h.named)
    (valid_getBasename h.named) hd hdir hc (.inl rfl)

theorem NamesEntry.found (hm : Unmounted root) (h : NamesEntry root path above node)
    (hk : node.label.kind.target? = none) :
    getNode root path = .ok (some (.here (entryPlace above path) node)) := by
  obtain ⟨d, hd, hdir, hc⟩ := h.child
  exact substrateNode_child hm (getPathSegments_parent_basename h.named)
    (valid_getBasename h.named) hd hdir hc (.inr hk)

/-- The entry a path names in a part of a tree is the one it names in the tree. -/
theorem NamesEntry.before {node' : FSNode} (hext : Extends root' root) (hm : Unmounted root)
    (h : NamesEntry root' path above node') :
    ∃ node, NamesEntry root path above node ∧ node.label = node'.label := by
  obtain ⟨d', hd', hdir, -⟩ := h.child
  obtain ⟨d, hd, hkind⟩ := getNode_extends hext hm hd'
  have hlabel := hext _ _ (label?_of_get? h.stands)
  obtain ⟨node, hnode, hsame⟩ := label?_eq_some_iff.1 hlabel
  refine ⟨node, ⟨h.named, d, hd, hkind.trans hdir, ?_⟩, hsame⟩
  rw [entryPlace, get?_append_singleton, (getNode_in hd).1] at hnode
  exact hnode

/-! ## Removals that are answered -/

def Taken (root root' : FSNode) (place : Place) : Prop :=
  ∀ q, root'.label? q = if place <+: q then none else root.label? q

theorem Taken.extends (h : Taken root root' place) : Extends root' root := by
  intro q e he
  rw [h q] at he
  split at he
  · cases he
  · exact he

theorem planDrop_ok (hm : Unmounted root) {missing : FsError} {refused : FSNode → Option FsError}
    {a : Act} (hne : getBasename path ≠ []) (h : planDrop root path missing refused = .ok a) :
    ∃ above d node, NamesEntry root path above node ∧ refused node = none ∧
      a = .of (.drop path (.here above d) (getBasename path)) := by
  obtain ⟨f, hf, h⟩ := bind_eq_ok h
  obtain ⟨hget, hdir⟩ := parentDirectory_ok hf
  obtain ⟨above, d, rfl, -⟩ := hm.here (getNode_in hget)
  cases hc : (Found.here above d).child? (getBasename path) with
  | none => simp [hc] at h
  | some node =>
      simp only [hc] at h
      cases hrefused : refused node with
      | some e => simp [hrefused] at h
      | none =>
          simp only [hrefused] at h
          cases h
          exact ⟨above, d, node, ⟨hne, d, hget, hdir, hc⟩, hrefused, rfl⟩

theorem taken_drop (env : Env) (s : State) (path : Str) (above : Place) (d : FSNode)
    (name : Name) :
    Taken s.root ((act env (.of (.drop path (.here above d) name))).run s).2.root
      (above ++ [name]) := by
  intro q
  have hroot : ((act env (.of (.drop path (.here above d) name))).run s).2.root =
      s.root.remove above name := by
    rw [act, Act.of, makeDirectories, Effect.run_pure_bind, finish, Effect.run_bind, run_edit]
    simp only [root_emit]
    rfl
  rw [hroot, label?_remove]

/-- `unlinkSync` takes away what its path names, which is no directory. -/
theorem unlinkSync_ok {env : Env} {s s' : State} (hm : Unmounted s.root)
    (hne : getBasename path ≠ []) (h : (unlinkSync env path).run s = (.ok (), s')) :
    ∃ above node, NamesEntry s.root path above node ∧ node.label.kind ≠ Kind.directory ∧
      Taken s.root s'.root (entryPlace above path) := by
  rw [unlinkSync_run] at h
  cases hplan : planUnlink s.root path with
  | error e => simp [hplan] at h
  | ok a =>
      rw [hplan, carry_ok] at h
      obtain ⟨u, -, hdrop⟩ := bind_eq_ok hplan
      obtain ⟨above, d, node, hnames, hrefused, rfl⟩ := planDrop_ok hm (by simpa using hne) hdrop
      refine ⟨above, node, ?_, ?_, ?_⟩
      · exact ⟨hne, by simpa using hnames.child⟩
      · intro hk
        simp [unlinkRefused, hk] at hrefused
      · have htaken := taken_drop env s (normalizePath path) above d (getBasename path)
        rw [getBasename_normalizePath] at h
        rwa [h] at htaken

/-- `rmdirSync` takes away what its path names, a directory with nothing in it. -/
theorem rmdirSync_ok {env : Env} {s s' : State} (hm : Unmounted s.root)
    (h : (rmdirSync env path).run s = (.ok (), s')) :
    ∃ above node, NamesEntry s.root path above node ∧ node.label.kind = Kind.directory ∧
      node.children = [] ∧ Taken s.root s'.root (entryPlace above path) := by
  rw [rmdirSync_run] at h
  cases hplan : planRmdir s.root path with
  | error e => simp [hplan] at h
  | ok a =>
      rw [hplan, carry_ok] at h
      obtain ⟨u, -, hdrop⟩ := bind_eq_ok hplan
      split at hdrop
      · cases hdrop
      · next hne =>
          obtain ⟨above, d, node, hnames, hrefused, rfl⟩ := planDrop_ok hm hne hdrop
          have htaken := taken_drop env s (normalizePath path) above d (getBasename path)
          rw [getBasename_normalizePath] at h hne
          rw [h] at htaken
          cases rmdirRefused_eq_none hrefused with
          | rmdir hk hc =>
              exact ⟨above, node, ⟨hne, by simpa using hnames.child⟩, hk, hc, htaken⟩

/-! ## What is read back -/

variable {parent : Str} {rest : List Name} {base : Place} {missing : List Name}

def DirectoriesAt (root : FSNode) (base : Place) (missing : List Name) : Prop :=
  ∀ q, base <+: q → q <+: base ++ missing → ∃ d, root.get? q = some d ∧ d.label.kind = .directory

def KeepsWays (root root' : FSNode) : Prop :=
  ∀ q e, root.label? q = some e → (∀ content, e.kind ≠ .file content) → root'.label? q = some e

theorem walkNode_directories (hm : Unmounted root) (hget : root.get? names = some node)
    (h : DirectoriesAt root names rest) :
    ∃ d, walkNode true names (.here names node) none rest = .found (.here (names ++ rest) d) ∧
      d.label.kind = .directory := by
  induction rest generalizing names node with
  | nil =>
      obtain ⟨d, hd, hdir⟩ := h names (prefix_refl _) (prefix_append _ _)
      rw [hget, some_inj] at hd
      refine ⟨node, by rw [append_nil]; rfl, ?_⟩
      rwa [hd]
  | cons segment rest ih =>
      obtain ⟨d, hd, hdir⟩ := h names (prefix_refl _) (prefix_append _ _)
      obtain ⟨c, hc, hcdir⟩ := h (names ++ [segment]) (prefix_append _ _) (by simp)
      rw [hget, some_inj] at hd
      subst hd
      have hchild : node.child? segment = some c := by
        rwa [get?_append_singleton, hget] at hc
      have hmount := hm _ _ (label?_of_get? hc)
      rw [walkNode, Found.kind_here, if_neg (not_not.2 hdir)]
      simp only [nextNode, hchild, map_some, Found.kind_here, hcdir, Kind.target?]
      rw [enter_unmounted hmount]
      have hrest := ih hc fun q hq hq' => h q ((prefix_append _ _).trans hq) (by simpa using hq')
      rw [append_assoc] at hrest
      exact hrest

/-- The walk that makes directories and a later lookup end at the same place, or follow the same
link. -/
theorem walkNode_destinationFrom {again : Str → Except FsError (Place × List Name)}
    {node' : FSNode} (hm : Unmounted root) (hm' : Unmounted root') (hkeep : KeepsWays root root')
    (hmade : DirectoriesAt root' base missing) (hget : root.get? names = some node)
    (hget' : root'.get? names = some node') (hdir : node.label.kind = .directory)
    (hdir' : node'.label.kind = .directory)
    (h : destinationFrom root path again names rest = .ok (base, missing)) :
    (∃ d, walkNode true names (.here names node') none rest = .found (.here (base ++ missing) d) ∧
      d.label.kind = .directory) ∨
    ∃ linkPath target after,
      again (afterLink (substrateLinkTarget linkPath target) after) = .ok (base, missing) ∧
      walkNode true names (.here names node') none rest = .link linkPath target after ∧
      walkNode true names (.here names node) none rest = .link linkPath target after := by
  induction rest generalizing names node node' with
  | nil =>
      cases h
      exact .inl ⟨node', by rw [append_nil]; rfl, hdir'⟩
  | cons segment rest ih =>
      rw [destinationFrom] at h
      cases hc : root.get? (names ++ [segment]) with
      | none =>
          rw [hc] at h
          cases h
          exact .inl (walkNode_directories hm' hget' hmade)
      | some child =>
          rw [hc] at h
          have hl := label?_of_get? hc
          have hchild : node.child? segment = some child := by
            rwa [get?_append_singleton, hget] at hc
          rw [walkNode, walkNode, Found.kind_here, Found.kind_here, if_neg (not_not.2 hdir),
            if_neg (not_not.2 hdir')]
          have hkept (hk : ∀ content, child.label.kind ≠ .file content) :
              ∃ child', root'.get? (names ++ [segment]) = some child' ∧
                node'.child? segment = some child' ∧ child'.label = child.label := by
            obtain ⟨child', hc', hsame⟩ := label?_eq_some_iff.1 (hkeep _ _ hl hk)
            refine ⟨child', hc', ?_, hsame⟩
            rwa [get?_append_singleton, hget'] at hc'
          cases hk : child.label.kind with
          | file content => simp [hk] at h
          | symlink target =>
              simp only [hk] at h
              obtain ⟨child', -, hchild', hsame⟩ := hkept (by simp [hk])
              refine .inr ⟨_, target, rest, h, ?_, ?_⟩ <;>
                simp [nextNode, hchild, hchild', hsame, hk, Kind.target?]
          | directory =>
              simp only [hk] at h
              obtain ⟨child', hc', hchild', hsame⟩ := hkept (by simp [hk])
              have hdirs : child'.label.kind = .directory := by rw [hsame, hk]
              simp only [nextNode, hchild, hchild', map_some, Found.kind_here, hdirs, hk,
                Kind.target?]
              rw [enter_unmounted (hm _ _ hl), enter_unmounted (hm' _ _ (label?_of_get? hc'))]
              exact ih hc hc' hk hdirs h

theorem substrateNode_destination (hm : Unmounted root) (hm' : Unmounted root')
    (hkeep : KeepsWays root root') (hroot : root.label.kind = .directory)
    (hroot' : root'.label.kind = .directory)
    (hmade : DirectoriesAt root' base missing) (hname : ValidName name) {left stack : ℕ}
    {r : Option Found} (hpath : getPathSegments path = getPathSegments parent ++ [name])
    (h : destination root stack parent = .ok (base, missing))
    (hr : substrateNode root false left path = .ok r) :
    ∃ d, substrateNode root' true left parent = .ok (some (.here (base ++ missing) d)) ∧
      d.label.kind = .directory := by
  induction left generalizing stack path parent with
  | zero => cases hr
  | succ left ih =>
      cases stack with
      | zero => cases h
      | succ stack =>
          rw [destination] at h
          rw [substrateNode]
          rcases walkNode_destinationFrom hm hm' hkeep hmade (get?_nil root) (get?_nil root')
            hroot hroot' h with ⟨d, hd, hdir⟩ | ⟨linkPath, target, after, hagain, hlink', hlink⟩
          · exact ⟨d, by rw [hd], hdir⟩
          · rw [hlink']
            have hv : ∀ n ∈ after, ValidName n := fun n hn =>
              valid_getPathSegments parent n ((walkNode_link_suffix hlink).subset hn)
            have hv' : ∀ n ∈ after ++ [name], ValidName n := by
              intro n hn
              rcases mem_append.1 hn with hn | hn
              · exact hv n hn
              · rw [mem_singleton.1 hn]
                exact hname
            rw [substrateNode, hpath, walkNode_child_of_link hm (get?_nil root) hlink] at hr
            refine ih ?_ hagain hr
            rw [getPathSegments_afterLink hv, getPathSegments_afterLink hv', append_assoc]

variable {dir : Place} {d : FSNode} {data : List UInt8}

/-- A written file stands at its place. -/
theorem get?_withFile (now : JsNumber) (name : Name) (data : List UInt8)
    (hd : root.get? dir = some d) :
    ∃ c, (withFile now root dir name data).get? (dir ++ [name]) = some c ∧
      c.label.kind = .file data := by
  rw [withFile]
  split
  · next hfile =>
      obtain ⟨e, he, -⟩ := (Option.any_eq_true _ _).1 hfile
      obtain ⟨c, hc, hlabel⟩ := label?_eq_some_iff.1 <| show (assign (dir ++ [name])
        (fun a => { a with kind := .file data, mtime := now }) root).label? (dir ++ [name]) = _ by
          rw [assign, label?_relabel, if_pos rfl, he]
          rfl
      exact ⟨c, hc, by rw [hlabel]⟩
  · exact ⟨newFile data now, get?_put_append hd name _ [], rfl⟩

/-- Every other entry stays as it was. -/
theorem label?_withFile_of_ne (now : JsNumber) (data : List UInt8) (hd : root.get? dir = some d)
    (hplain : ∀ e, root.label? (dir ++ [name]) = some e → e.isFile) {q : Place} {e : Entry}
    (he : root.label? q = some e) (hq : q ≠ dir ++ [name]) :
    (withFile now root dir name data).label? q = some e := by
  rw [withFile]
  split
  · rw [assign, label?_relabel, if_neg (Ne.symm hq), he]
  · next hfile =>
      rw [label?_put hd, if_neg, he]
      intro hbelow
      have hnone : root.label? (dir ++ [name]) = none := by
        cases hl : root.label? (dir ++ [name]) with
        | none => rfl
        | some e' => simp [hl, hplain e' hl] at hfile
      rw [label?_eq_none_iff.2 (get?_eq_none_of_isPrefix hbelow (label?_eq_none_iff.1 hnone))] at he
      cases he

/-- A tree in which one entry, a file or nothing, has become another. -/
theorem keepsWays_of_ne (hfile : ∀ e, root.label? place = some e → e.isFile)
    (hkept : ∀ q e, root.label? q = some e → q ≠ place → root'.label? q = some e) :
    KeepsWays root root' := by
  intro q e he hk
  refine hkept q e he ?_
  rintro rfl
  obtain ⟨content, hcontent⟩ := Entry.isFile_iff.1 (hfile e he)
  exact hk content hcontent

theorem directoriesAt_withDirectories (now : JsNumber) (h : IsDestination root base missing) :
    DirectoriesAt (withDirectories now root base missing) base missing := by
  obtain ⟨d, hd, hdir, hmissing⟩ := h.directory
  intro q hbase hq
  have hlabel := label?_withDirectories now hd hmissing q
  by_cases heq : q = base
  · rw [if_neg fun hne => hne.2.2 heq, heq, label?_of_get? hd] at hlabel
    obtain ⟨c, hc, hsame⟩ := label?_eq_some_iff.1 hlabel
    exact ⟨c, heq ▸ hc, by rw [hsame, hdir]⟩
  · rw [if_pos ⟨hbase, hq, heq⟩] at hlabel
    obtain ⟨c, hc, hsame⟩ := label?_eq_some_iff.1 hlabel
    exact ⟨c, hc, by rw [hsame]; rfl⟩

theorem DirectoriesAt.keep (h : DirectoriesAt root base missing) (hkeep : KeepsWays root root') :
    DirectoriesAt root' base missing := by
  intro q hbase hq
  obtain ⟨d, hd, hdir⟩ := h q hbase hq
  obtain ⟨c, hc, hsame⟩ := label?_eq_some_iff.1 (hkeep q _ (label?_of_get? hd) (by simp [hdir]))
  exact ⟨c, hc, by rw [hsame, hdir]⟩

variable {s s' : State} {env : Env} {r : Option Found}

/-- A write that is answered leaves the file at its place. -/
theorem writeFileSync_ok (h : (writeFileSync env path data).run s = (.ok (), s')) :
    ∃ base missing, getBasename path ≠ [] ∧
      destination s.root env.stack (getParentPath path) = .ok (base, missing) ∧
      s'.root = withFile env.now (withDirectories env.now s.root base missing) (base ++ missing)
        (getBasename path) data := by
  rw [writeFileSync, writeFileSyncInternal_run] at h
  cases hplan : planWrite s.root env.stack path data with
  | error e => simp [hplan] at h
  | ok a =>
      rw [hplan, carry_ok] at h
      obtain ⟨u, -, hplan⟩ := bind_eq_ok hplan
      split at hplan
      · cases hplan
      · next hne =>
          obtain ⟨found, hfound, hplan⟩ := bind_eq_ok hplan
          cases hplan
          rw [getBasename_normalizePath] at hne h
          rw [getParentPath_normalizePath] at hfound
          refine ⟨found.1, found.2, hne, hfound, ?_⟩
          rcases act_outcome env
              ⟨found.1, found.2, .write (normalizePath path) (getBasename path) data⟩ s with
            hroot | ⟨e, k, herror, -⟩
          · rwa [h] at hroot
          · rw [h] at herror
            cases herror

/-- What stands where a path is written is what the path names. -/
theorem lstatNode_at_destination (hroot : root.label.kind = .directory) (hm : Unmounted root)
    {stack : ℕ} (hne : getBasename path ≠ [])
    (h : destination root stack (getParentPath path) = .ok (base, missing))
    (hr : lstatNode root path = .ok r) {c : FSNode}
    (hc : root.get? (base ++ missing ++ [getBasename path]) = some c) :
    r = some (.here (base ++ missing ++ [getBasename path]) c) := by
  obtain ⟨d, hd, hdir, hmissing⟩ := (destination_spec hroot h).directory
  obtain rfl : missing = [] := by
    rcases missing with - | ⟨m, missing⟩
    · rfl
    · have hnone : root.get? (base ++ [m]) = none := by
        rw [get?_append_singleton, hd]
        exact hmissing m rfl
      rw [get?_eq_none_of_isPrefix ⟨missing ++ [getBasename path], by simp⟩ hnone] at hc
      cases hc
  have hmade : DirectoriesAt root base [] := fun q hbase hq =>
    ⟨d, by rwa [← hbase.eq_of_length_le (by simpa using hq.length_le)], hdir⟩
  have hname := valid_getBasename hne
  have hpath := getPathSegments_parent_basename hne
  rw [lstatNode] at hr
  obtain ⟨above, habove, habovedir⟩ := substrateNode_destination hm hm (fun _ _ he _ => he)
    hroot hroot hmade hname hpath h hr
  have hchild : above.child? (getBasename path) = some c := by
    rw [get?_append_singleton, (substrateNode_in habove).1] at hc
    exact hc
  rw [substrateNode_child hm hpath hname habove habovedir hchild (.inl rfl)] at hr
  cases hr
  rfl

/-- A tree after a path of it was written, over a file at its place or where nothing was. -/
structure Written (root root' : FSNode) (path : Str) (place : Place) (data : List UInt8) :
    Prop where
  plain : Plain root'
  file : ∃ c, c.label.kind = .file data ∧
    ∀ follow, substrateNode root' follow linkBound path = .ok (some (.here place c))
  replaced : ∀ e, root.label? place = some e → e.isFile
  kept : ∀ q e, root.label? q = some e → q ≠ place → root'.label? q = some e

theorem written_writeFileSync (hs : Reachable s) (hm : Plain s.root)
    (hr : lstatNode s.root path = .ok r) (hplain : ∀ f ∈ r, ∃ content, f.kind = .file content)
    (h : (writeFileSync env path data).run s = (.ok (), s')) :
    ∃ place, Written s.root s'.root path place data ∧
      ∀ c, s.root.get? place = some c → r = some (.here place c) := by
  obtain ⟨base, missing, hne, hdestination, hroot⟩ := writeFileSync_ok h
  have hdirectory := hs.wellFormed.directory
  have hname := valid_getBasename hne
  have hpath := getPathSegments_parent_basename hne
  have hspec := destination_spec hdirectory hdestination
  obtain ⟨d, hd, -, hmissing⟩ := hspec.directory
  have hmade := directoriesAt_withDirectories env.now hspec
  obtain ⟨last, hlast, -⟩ := hmade (base ++ missing) (prefix_append _ _) (prefix_refl _)
  have hnamed (c : FSNode) := lstatNode_at_destination (c := c) hdirectory hm.unmounted hne
    hdestination hr
  have hover : ∀ e, s.root.label? (base ++ missing ++ [getBasename path]) = some e → e.isFile := by
    intro e he
    obtain ⟨c, hc, rfl⟩ := label?_eq_some_iff.1 he
    exact Entry.isFile_iff.2 (hplain _ (hnamed c hc))
  have hplace : ∀ e, (withDirectories env.now s.root base missing).label?
      (base ++ missing ++ [getBasename path]) = some e → e.isFile := by
    rw [label?_withDirectories env.now hd hmissing, if_neg]
    · exact hover
    · rintro ⟨-, hle, -⟩
      simpa using hle.length_le
  have hkept (q : Place) (e : Entry) := label?_withFile_of_ne (q := q) (e := e) env.now data hlast
    hplace
  obtain ⟨file, hfile, hkind⟩ := get?_withFile env.now (getBasename path) data hlast
  have hplain' := (hm.withDirectories env.now hspec).withFile env.now
    (forall_mem_append.2 ⟨hspec.valid, forall_mem_singleton.2 hname⟩) data
  rw [← hroot] at hkept hfile hplain'
  have hstays (q : Place) (e : Entry) (he : s.root.label? q = some e) :=
    hkept q e (extends_withDirectories env.now hspec q e he)
  have hways := keepsWays_of_ne hover hstays
  have hdirectory' : s'.root.label.kind = .directory := by
    have hlabel := hways [] _ rfl (by simp [hdirectory])
    rw [label?_nil, some_inj] at hlabel
    rw [hlabel, hdirectory]
  rw [lstatNode] at hr
  obtain ⟨above, habove, habovedir⟩ := substrateNode_destination hm.unmounted hplain'.unmounted
    hways hdirectory hdirectory' (hmade.keep (keepsWays_of_ne hplace hkept)) hname hpath
    hdestination hr
  have hchild : above.child? (getBasename path) = some file := by
    rw [get?_append_singleton, (substrateNode_in habove).1] at hfile
    exact hfile
  refine ⟨_, ⟨hplain', ⟨file, hkind, fun follow => ?_⟩, hover, hstays⟩, hnamed⟩
  exact substrateNode_child hplain'.unmounted hpath hname habove habovedir hchild
    (.inr (by rw [hkind]; rfl))

/-- A path that leads to a file is read. -/
theorem readFileSync_file {c : FSNode} (h : getNode s.root path = .ok (some (.here place c)))
    (hc : c.label.kind = .file data) : (readFileSync path).run s = (.ok data, s) := by
  rw [readFileSync_run, planRead, h]
  show (foundContent path (some (.here place c)), s) = _
  rw [foundContent, Found.kind_here, hc]

/-- What is written over a file, or where nothing was, is read back. -/
theorem readFileSync_writeFileSync (hs : Reachable s) (hm : Plain s.root)
    (hr : lstatNode s.root path = .ok r) (hplain : ∀ f ∈ r, ∃ content, f.kind = .file content)
    (h : (writeFileSync env path data).run s = (.ok (), s')) :
    (readFileSync path).run s' = (.ok data, s') := by
  obtain ⟨place, hwritten, -⟩ := written_writeFileSync hs hm hr hplain h
  obtain ⟨c, hkind, hfound⟩ := hwritten.file
  exact readFileSync_file (hfound true) hkind

/-- A file in a directory that is not there yet. -/
theorem readFileSync_writeFileSync_new :
    ∃ s', (writeFileSync quiet "/a/b".toList [7]).run (.new (.finite 0)) = (.ok (), s') ∧
      (readFileSync "/a/b".toList).run s' = (.ok [7], s') :=
  ⟨_, rfl, readFileSync_writeFileSync (.new _) (plain_new _) (r := none) rfl (by simp)
    (show (writeFileSync quiet "/a/b".toList [7]).run (.new (.finite 0)) = (.ok (), _) from rfl)⟩

/-! ## What is read elsewhere -/

theorem Written.keepsNodes (h : Written root root' path place data) : KeepsNodes root root' := by
  intro q c hc
  have hl := label?_of_get? hc
  by_cases hq : q = place
  · subst hq
    obtain ⟨content, hcontent⟩ := Entry.isFile_iff.1 (h.replaced _ hl)
    obtain ⟨file, hfile, hfound⟩ := h.file
    exact ⟨file, (substrateNode_in (hfound true)).1, by rw [hfile, hcontent]; rfl⟩
  · obtain ⟨c', hc', hsame⟩ := label?_eq_some_iff.1 (h.kept q _ hl hq)
    exact ⟨c', hc', by rw [hsame]⟩

theorem readFileSync_ok (hm : Unmounted s.root)
    (h : (readFileSync path).run s = (.ok data, s')) :
    ∃ place c, getNode s.root path = .ok (some (.here place c)) ∧ c.label.kind = .file data := by
  rw [readFileSync_run, planRead] at h
  cases hget : getNode s.root path with
  | error e =>
      rw [hget] at h
      cases h
  | ok found =>
      rw [hget] at h
      replace h : foundContent path found = .ok data := congrArg Prod.fst h
      rcases found with - | f
      · cases h
      · obtain ⟨place, c, rfl, -⟩ := hm.here (substrateNode_in hget)
        rw [foundContent, Found.kind_here] at h
        cases hk : c.label.kind with
        | file content =>
            rw [hk] at h
            cases h
            exact ⟨place, c, rfl, hk⟩
        | directory => simp [hk] at h
        | symlink target => simp [hk] at h

/-- A path that could be read gives what was written where it leads to the file that was written
over, and what it gave before where it leads elsewhere. -/
theorem readFileSync_after_writeFileSync {other : Str} {old : List UInt8} (hs : Reachable s)
    (hm : Plain s.root) (hr : lstatNode s.root path = .ok r)
    (hplain : ∀ f ∈ r, ∃ content, f.kind = .file content)
    (h : (writeFileSync env path data).run s = (.ok (), s'))
    (hold : (readFileSync other).run s = (.ok old, s)) :
    (getNode s.root other = .ok r → (readFileSync other).run s' = (.ok data, s')) ∧
    (getNode s.root other ≠ .ok r → (readFileSync other).run s' = (.ok old, s')) := by
  obtain ⟨place, hwritten, hnamed⟩ := written_writeFileSync hs hm hr hplain h
  obtain ⟨file, hkind, hfound⟩ := hwritten.file
  obtain ⟨q, c, hget, hc⟩ := readFileSync_ok hm.unmounted hold
  have hunmounted := hwritten.plain.unmounted
  have hnodes := hwritten.keepsNodes
  obtain ⟨c', hc', hget'⟩ := substrateNode_keepsNodes hm.unmounted hunmounted hnodes hget
  simp only [hget, Except.ok.injEq, ne_eq]
  constructor
  · rintro rfl
    -- the path that is written leads to the same entry afterwards
    obtain ⟨e, -, hagain⟩ := substrateNode_keepsNodes hm.unmounted hunmounted hnodes hr
    rw [hfound false] at hagain
    cases hagain
    rw [(substrateNode_in (hfound true)).1, some_inj] at hc'
    exact readFileSync_file hget' (by rw [← hc', hkind])
  · intro hne
    have hq : q ≠ place := by
      rintro rfl
      exact hne (hnamed c (substrateNode_in hget).1).symm
    have hlabel := hwritten.kept q _ (label?_of_get? (substrateNode_in hget).1) hq
    rw [label?_of_get? hc', some_inj] at hlabel
    exact readFileSync_file hget' (by rw [hlabel, hc])

/-- A file beside which another is written. -/
theorem readFileSync_after_writeFileSync_beside :
    ∃ s s', (writeFileSync quiet "/f".toList [1]).run (.new (.finite 0)) = (.ok (), s) ∧
      (writeFileSync quiet "/a/b".toList [7]).run s = (.ok (), s') ∧
      (readFileSync "/f".toList).run s' = (.ok [1], s') := by
  have hfirst : (writeFileSync quiet "/f".toList [1]).run (.new (.finite 0)) = (.ok (), _) := rfl
  obtain ⟨_, hwritten, -⟩ := written_writeFileSync (.new _) (plain_new _) (r := none) rfl (by simp)
    hfirst
  refine ⟨_, _, hfirst, rfl, (readFileSync_after_writeFileSync
    (.step (.new (.finite 0)) quiet (.writeFile "/f".toList [1])) hwritten.plain (r := none) rfl
    (by simp) (show (writeFileSync quiet "/a/b".toList [7]).run _ = (.ok (), _) from rfl) rfl).2 ?_⟩
  rintro h
  cases h

end VirtualFS

end Tabnode
