import Tabnode.VirtualFS.Invariant

/-!
# The two resolvers agree

`walkNode` and `walkReal` are the loops of the two resolvers. From the same
state they end the same way (`walkReal_eq`): they part only below a node that is
not a directory, where `walkNode` stops on the type and `walkReal` finds no
child. Each outer loop follows a link to the same path and counts it once, so
the agreement carries over the whole resolution, link bound included.
-/

namespace Tabnode

namespace VirtualFS

open LabelTree

def MountedTree.Regular (tree : MountedTree) : Prop :=
  ∀ below rest answer, tree.node (absolute below) = some answer →
    answer.label.kind ≠ Kind.directory → rest ≠ [] →
      tree.node (absolute (below ++ rest)) = none

def RegularMounts (root : FSNode) : Prop :=
  ∀ place e tree, root.label? place = some e → e.mount = some tree → tree.Regular

/-- How a walk of `__substrateNode` ends, for a walk that keeps no node. -/
def Walk.toReal : Walk → RealWalk
  | .found _ => .resolved
  | .missing => .missing
  | .link linkPath target rest => .link linkPath target rest

variable {root : FSNode} {names : List Name} {current : Found} {mounted : Mounted}

theorem nextNode_eq_none (hs : Sound root) (hm : RegularMounts root)
    (hw : WalkState root names current mounted) (hk : current.kind ≠ Kind.directory)
    (segment : Name) : nextNode current mounted (names ++ [segment]) segment = none := by
  cases hw with
  | tree h =>
      rename_i node
      have hnone : node.child? segment = none := by
        rw [← Option.not_isSome_iff_eq_none, Option.isSome_iff_exists]
        rintro ⟨child, hc⟩
        exact hk (hs.directory_of_child h hc)
      simp [nextNode, hnone]
  | mountPoint hlen h hmount =>
      exact absurd ((hs _ _ h).2 (by simp [hmount])) hk
  | mounted hlen he hmount hans =>
      rename_i answer e tree at_
      have hdrop : (names ++ [segment]).drop (at_ + 1) =
          names.drop (at_ + 1) ++ [segment] :=
        List.drop_append_of_le_length hlen
      simp only [nextNode, hdrop, Option.map_eq_none_iff]
      exact hm _ e tree he hmount _ [segment] answer hans hk (by simp)

/-- Entering a mount changes no more than what is read of the mount point. -/
theorem walkReal_enter (mounted : Mounted) (index : ℕ) (names : List Name)
    (child : Found) (segments : List Name) :
    walkReal names child (enter mounted index names child).2 segments =
      walkReal names (enter mounted index names child).1
        (enter mounted index names child).2 segments := by
  cases mounted with
  | some m => rfl
  | none =>
      cases hmount : child.mount with
      | none => simp [enter, hmount]
      | some tree =>
          -- below a mount point the node of the tree itself is not read
          simp only [enter, hmount]
          cases segments <;> rfl

theorem walkReal_eq (hs : Sound root) (hm : RegularMounts root) {segments : List Name}
    (hw : WalkState root names current mounted) : walkReal names current mounted segments =
      (walkNode true names current mounted segments).toReal := by
  induction segments generalizing names current mounted with
  | nil => rfl
  | cons segment rest ih =>
      rw [walkReal, walkNode]
      by_cases hk : current.kind = Kind.directory
      · rw [if_neg (not_not.2 hk)]
        cases hc : nextNode current mounted (names ++ [segment]) segment with
        | none => rfl
        | some child =>
            cases ht : child.kind.target? with
            | some target => simp only [ht, Bool.true_or, Walk.toReal]
            | none =>
                simp only [ht, walkReal_enter]
                exact ih (hw.next hc)
      · rw [if_pos hk, nextNode_eq_none hs hm hw hk segment]
        rfl

/-! ## A walk that meets no link -/

theorem target?_enter {child : Found} (h : child.kind.target? = none)
    (mounted : Mounted) (index : ℕ) (names : List Name) :
    (enter mounted index names child).1.kind.target? = none := by
  cases mounted with
  | some m => exact h
  | none =>
      cases hmount : child.mount with
      | none => simpa [enter, hmount] using h
      | some tree =>
          cases hr : tree.node ['/'] with
          | none => simpa [enter, hmount, hr] using h
          | some answer =>
              simp [enter, hmount, hr, tree.root_directory answer hr, Kind.target?]

variable {node : Found}

/-- The names of a found walk lead, one by one, to nodes that are no links. -/
theorem walkNode_isPrefix {pre rest : List Name} (hcur : current.kind.target? = none)
    (h : walkNode true names current mounted (pre ++ rest) = .found node) :
    ∃ n, walkNode false names current mounted pre = .found n ∧
      n.kind.target? = none := by
  induction pre generalizing names current mounted with
  | nil => exact ⟨current, rfl, hcur⟩
  | cons segment pre ih =>
      rw [List.cons_append, walkNode] at h
      rw [walkNode]
      by_cases hk : current.kind = Kind.directory
      · rw [if_neg (not_not.2 hk)] at h ⊢
        cases hc : nextNode current mounted (names ++ [segment]) segment with
        | none => simp [hc] at h
        | some child =>
            rw [hc] at h
            cases ht : child.kind.target? with
            | some target => simp [ht] at h
            | none =>
                simp only [ht] at h ⊢
                exact ih (target?_enter ht _ _ _) h
      · rw [if_pos hk] at h
        cases h

/-! ## The whole resolution -/

def Agree (root : FSNode) (node? : Except FsError (Option Found))
    (real : Except FsError Str) : Prop :=
  match node? with
  | .ok (some node) => ∃ segments, (∀ n ∈ segments, ValidName n) ∧
      real = .ok (absolute segments) ∧
      walkNode true [] (.here [] root) none segments = .found node
  | .ok none => Throws real .ENOENT
  | .error _ => Throws node? .ELOOP ∧ Throws real .ELOOP

/-- The two outer loops agree from the same path and the same count of links. -/
theorem realpathLoop_agree (hs : Sound root) (hm : RegularMounts root) (path : Str) (left : ℕ)
    {p resolved : Str} (hp : getPathSegments p = splitSegments resolved)
    (hr : resolved = absolute (getPathSegments p)) : Agree root (substrateNode root true left p)
      (realpathLoop root path left resolved) := by
  induction left generalizing p resolved with
  | zero => exact ⟨⟨_, _, rfl⟩, _, _, rfl⟩
  | succ left ih =>
      rw [substrateNode, realpathLoop, ← hp, walkReal_eq hs hm (walkState_root root)]
      cases hw : walkNode true [] (.here [] root) none (getPathSegments p) with
      | found node => exact ⟨_, valid_getPathSegments p, by rw [hr]; rfl, hw⟩
      | missing => exact ⟨_, _, rfl⟩
      | link linkPath target rest =>
          exact ih rfl (normalizePath_eq _)

theorem realpathSync_agree (hs : Sound root) (hm : RegularMounts root) (path : Str) :
    Agree root (getNode root path) (realpathSync root path) :=
  realpathLoop_agree hs hm path linkBound rfl (normalizePath_eq path)

theorem resolve_of_walk (hs : Sound root) (hm : RegularMounts root) {segments : List Name}
    (hv : ∀ n ∈ segments, ValidName n)
    (hw : walkNode true [] (.here [] root) none segments = .found node) :
    getNode root (absolute segments) = .ok (some node) ∧
      realpathSync root (absolute segments) = .ok (absolute segments) := by
  have hseg := getPathSegments_absolute hv
  constructor
  · rw [getNode, linkBound, substrateNode, hseg, hw]
  · rw [realpathSync, normalizePath_eq, hseg, linkBound, realpathLoop,
      splitSegments_absolute fun n hn => ⟨(hv n hn).1, (hv n hn).2.1⟩,
      walkReal_eq hs hm (walkState_root root), hw]
    rfl

theorem lstatNode_isPrefix (hroot : root.label.kind = Kind.directory) {pre rest : List Name}
    (hv : ∀ n ∈ pre, ValidName n)
    (hw : walkNode true [] (.here [] root) none (pre ++ rest) = .found node) :
    ∃ n, lstatNode root (absolute pre) = .ok (some n) ∧ n.kind.target? = none := by
  have hcur : (Found.here [] root).kind.target? = none := by
    rw [Found.kind_here, hroot]
    rfl
  obtain ⟨n, hn, ht⟩ := walkNode_isPrefix hcur hw
  refine ⟨n, ?_, ht⟩
  rw [lstatNode, linkBound, substrateNode, getPathSegments_absolute hv, hn]

/-- In every reachable tree, and for every path: `realpathSync` answers exactly
where `getNode` finds a node, with a path to that node that meets no link and is
its own real path; and the two fail together, of a link loop and of a missing
entry. -/
theorem realpathSync_getNode {s : State} (h : Reachable s) (hm : RegularMounts s.root)
    (path : Str) :
    ((∃ q, realpathSync s.root path = .ok q) ↔
      ∃ node, getNode s.root path = .ok (some node)) ∧
    (∀ q node, realpathSync s.root path = .ok q → getNode s.root path = .ok (some node) →
      getNode s.root q = .ok (some node) ∧
      (∀ pre, pre <+: getPathSegments q →
        ∃ n, lstatNode s.root (absolute pre) = .ok (some n) ∧ n.kind.target? = none) ∧
      realpathSync s.root q = .ok q) ∧
    (Throws (realpathSync s.root path) .ELOOP ↔ Throws (getNode s.root path) .ELOOP) ∧
    (Throws (realpathSync s.root path) .ENOENT ↔ getNode s.root path = .ok none) := by
  have hw := h.wellFormed
  have hagree := realpathSync_agree hw.sound hm path
  cases hn : getNode s.root path with
  | error e =>
      rw [hn] at hagree
      obtain ⟨⟨syscall, p, hloop⟩, syscall', p', hreal⟩ := hagree
      rw [hreal]
      simp [Throws, Except.error.inj hloop]
  | ok node? =>
      rw [hn] at hagree
      cases node? with
      | none =>
          obtain ⟨syscall, p, hreal⟩ := hagree
          rw [hreal]
          simp [Throws]
      | some node =>
          obtain ⟨segments, hv, hreal, hwalk⟩ := hagree
          rw [hreal]
          refine ⟨by simp, ?_, by simp [Throws], by simp [Throws]⟩
          intro q node' hq hnode
          cases hq
          cases hnode
          obtain ⟨hget, hself⟩ := resolve_of_walk hw.sound hm hv hwalk
          refine ⟨hget, fun pre hpre => ?_, hself⟩
          rw [getPathSegments_absolute hv] at hpre
          obtain ⟨rest, rfl⟩ := hpre
          exact lstatNode_isPrefix hw.directory
            (fun n hn => hv n (List.mem_append_left rest hn)) hwalk

/-- A mount at `/m`, and a link `/l` to it. -/
def linkedMount : State :=
  ((perform quiet (.symlink "m".toList "/l".toList)).run mountedState).2

theorem regular_emptyTree : emptyTree.Regular := by
  intro below rest answer hans hk
  simp only [emptyTree] at hans
  split at hans
  · cases hans
    exact absurd rfl hk
  · cases hans

theorem regularMounts_linkedMount : RegularMounts linkedMount.root := by
  have hroot : linkedMount.root = .node { kind := .directory, mtime := .finite 0 }
      [("m".toList, mountPoint emptyTree (.finite 0)),
       ("l".toList, newSymlink "m".toList (.finite 0))] := rfl
  have hall : linkedMount.root.AllNodes
      fun e _ => ∀ tree, e.mount = some tree → tree = emptyTree := by
    rw [hroot]
    refine AllNodes.of_children (by simp) fun k c hc => ?_
    simp only [child?, children_node, OrderedMap.find_cons,
      OrderedMap.find_nil] at hc
    split at hc
    · cases hc
      refine AllNodes.of_children ?_ fun _ _ h => by cases h
      rintro tree ⟨⟩
      rfl
    · split at hc
      · cases hc
        refine AllNodes.of_children ?_ fun _ _ h => by cases h
        rintro tree ⟨⟩
      · cases hc
  intro place e tree he hmount
  obtain ⟨node, hnode, rfl⟩ := label?_eq_some_iff.1 he
  rw [hall place node hnode tree hmount]
  exact regular_emptyTree

theorem realpathSync_getNode_linkedMount :
    realpathSync linkedMount.root "/l".toList = .ok "/m".toList ∧
      ∃ node, getNode linkedMount.root "/l".toList = .ok (some node) :=
  ⟨rfl, (realpathSync_getNode (.step reachable_mountedState _ _) regularMounts_linkedMount
    "/l".toList).1.1 ⟨_, rfl⟩⟩

end VirtualFS

end Tabnode
