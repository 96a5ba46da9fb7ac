import Tabnode.VirtualFS.Node

/-!
# Path resolution

The filesystem has two resolvers. `substrateNode` (behind `getNode` and
`lstat`) walks the segments from the root and, at a link, starts again on the
path the link makes, at most forty times. `realpathSync` walks without looking
at a node's type, and starts again in an outer loop. A third walk,
`assertWritable`, follows nothing: it reads the children maps as they are.

A link is met in the loop and followed by its caller, so each loop is a function
that says how it ended. `left` counts the links that may still be followed, one
more than the source's `40 - depth`.
-/

namespace Tabnode

namespace VirtualFS

/-- What a resolution finds: a node of the tree, at its place, or a node a
mounted tree answers, at a mount point and a path below it. -/
inductive Found where
  | here (place : Place) (node : FSNode)
  | mounted (place : Place) (below : List Name) (answer : Answer)

namespace Found

def attrs : Found → Attrs
  | here _ node => node.label.toAttrs
  | mounted _ _ answer => answer.label

def kind (f : Found) : Kind := f.attrs.kind

def mount : Found → Option MountedTree
  | here _ node => node.label.mount
  | mounted _ _ _ => none

@[simp] theorem kind_here (place : Place) (node : FSNode) :
    (here place node).kind = node.label.kind := rfl

@[simp] theorem kind_mounted (place : Place) (below : List Name) (answer : Answer) :
    (mounted place below answer).kind = answer.label.kind := rfl

end Found

/-- `mounted` in the two resolvers: the tree, and the index of its mount point
among the segments. -/
abbrev Mounted := Option (MountedTree × ℕ)

/-- The child both resolvers read at a segment: the mounted tree's answer, else
the children map's entry. `names` are the segments up to this one. -/
def nextNode (current : Found) (mounted : Mounted) (names : List Name)
    (segment : Name) : Option Found :=
  match mounted, current with
  | some (tree, at_), _ =>
      (tree.node (absolute (names.drop (at_ + 1)))).map
        (Found.mounted (names.take (at_ + 1)) (names.drop (at_ + 1)))
  | none, .here _ node => (node.child? segment).map (Found.here names)
  | none, .mounted _ _ _ => none

/-- Where a walk goes on from a child at an index: the first mount on the way is
entered at the node its tree has for the mount point. -/
def enter (mounted : Mounted) (index : ℕ) (names : List Name) (child : Found) :
    Found × Mounted :=
  match mounted, child.mount with
  | none, some tree =>
      -- `child.mount.node('/') ?? child`
      ((tree.node ['/']).elim child (Found.mounted names []), some (tree, index))
  | mounted, _ => (child, mounted)

/-- How a walk along the segments ends: at a node, nowhere, or at a link to
follow, lying at a path and with segments still to go. -/
inductive Walk where
  | found (node : Found)
  | missing
  | link (linkPath target : Str) (rest : List Name)

/-- The loop of `__substrateNode` from a node it has reached by `names`. -/
def walkNode (follow : Bool) : List Name → Found → Mounted → List Name → Walk
  | _, current, _, [] => .found current
  | names, current, mounted, segment :: rest =>
      if current.kind ≠ Kind.directory then .missing
      else
        match nextNode current mounted (names ++ [segment]) segment with
        | none => .missing
        | some child =>
            match child.kind.target?, follow || !rest.isEmpty with
            | some target, true => .link (absolute (names ++ [segment])) target rest
            | _, _ =>
                let next := enter mounted names.length (names ++ [segment]) child
                walkNode follow (names ++ [segment]) next.1 next.2 rest

/-- The node at a path, following every link on the way and, when `follow`, the
last one too. -/
def substrateNode (root : FSNode) (follow : Bool) :
    ℕ → Str → Except FsError (Option Found)
  | 0, path => .error (.node .ELOOP "stat" path)
  | left + 1, path =>
      match walkNode follow [] (.here [] root) none (getPathSegments path) with
      | .found node => .ok (some node)
      | .missing => .ok none
      | .link linkPath target rest =>
          substrateNode root follow left
            (afterLink (substrateLinkTarget linkPath target) rest)

/-- The links a resolution may follow, and the start: `depth > 40` throws. -/
def linkBound : ℕ := 41

def getNode (root : FSNode) (path : Str) : Except FsError (Option Found) :=
  substrateNode root true linkBound path

def lstatNode (root : FSNode) (path : Str) : Except FsError (Option Found) :=
  substrateNode root false linkBound path

/-- How a walk of `realpathSync` ends. -/
inductive RealWalk where
  | resolved
  | missing
  | link (linkPath target : Str) (rest : List Name)

/-- The inner loop of `realpathSync`. -/
def walkReal : List Name → Found → Mounted → List Name → RealWalk
  | _, _, _, [] => .resolved
  | names, current, mounted, segment :: rest =>
      match nextNode current mounted (names ++ [segment]) segment with
      | none => .missing
      | some child =>
          match child.kind.target? with
          | some target => .link (absolute (names ++ [segment])) target rest
          | none =>
              let mounted' := (enter mounted names.length (names ++ [segment]) child).2
              walkReal (names ++ [segment]) child mounted' rest

/-- The outer loop of `realpathSync`: `path` is the caller's, `resolved` the one
being walked. -/
def realpathLoop (root : FSNode) (path : Str) : ℕ → Str → Except FsError Str
  | 0, _ => .error (.node .ELOOP "realpath" path)
  | left + 1, resolved =>
      match walkReal [] (.here [] root) none (splitSegments resolved) with
      | .resolved => .ok resolved
      | .missing => .error (.node .ENOENT "realpath" path)
      | .link linkPath target rest =>
          realpathLoop root path left
            (normalizePath (afterLink (substrateLinkTarget linkPath target) rest))

def realpathSync (root : FSNode) (path : Str) : Except FsError Str :=
  realpathLoop root path linkBound (normalizePath path)

def meetsMount : FSNode → List Name → Bool
  | _, [] => false
  | node, segment :: rest =>
      match node.child? segment with
      | none => false
      | some child => child.label.mount.isSome || meetsMount child rest

def assertWritable (root : FSNode) (path : Str) (syscall : String) :
    Except FsError Unit :=
  if meetsMount root (getPathSegments path) then .error (.node .EROFS syscall path)
  else .ok ()

end VirtualFS

end Tabnode

/-!
## Where a walk is

A walk that has come by some names is at the node of the tree under these names,
or at or below the first mount point on the way. `WalkState` says which, and is
kept from one segment to the next (`WalkState.next`), so what a lookup finds
stands where it says (`getNode_in`).
-/

namespace Tabnode

namespace VirtualFS

/-- The state of a walk that has come by `names`: in the tree, at a mount point
whose tree has no node for it, or at a node a mounted tree answers. -/
inductive WalkState (root : FSNode) (names : List Name) : Found → Mounted → Prop where
  | tree {node : FSNode} (h : root.get? names = some node) :
      WalkState root names (.here names node) none
  | mountPoint {node : FSNode} {tree : MountedTree} {at_ : ℕ}
      (hlen : names.length = at_ + 1) (h : root.get? names = some node)
      (hmount : node.label.mount = some tree) :
      WalkState root names (.here names node) (some (tree, at_))
  | mounted {answer : Answer} {e : Entry} {tree : MountedTree} {at_ : ℕ}
      (hlen : at_ < names.length) (he : root.label? (names.take (at_ + 1)) = some e)
      (hmount : e.mount = some tree)
      (hans : tree.node (absolute (names.drop (at_ + 1))) = some answer) :
      WalkState root names
        (.mounted (names.take (at_ + 1)) (names.drop (at_ + 1)) answer)
        (some (tree, at_))

theorem walkState_root (root : FSNode) : WalkState root [] (.here [] root) none :=
  .tree rfl

variable {root : FSNode} {names : List Name} {current : Found}

theorem WalkState.answer {segment : Name} {child : Found} {e : Entry} {tree : MountedTree} {at_ : ℕ}
    (hlen : at_ < names.length) (he : root.label? (names.take (at_ + 1)) = some e)
    (hmount : e.mount = some tree)
    (hc : nextNode current (some (tree, at_)) (names ++ [segment]) segment =
      some child) : WalkState root (names ++ [segment]) child (some (tree, at_)) := by
  simp only [nextNode, Option.map_eq_some_iff] at hc
  obtain ⟨answer, hans, rfl⟩ := hc
  refine .mounted (by simp; omega) ?_ hmount hans
  rw [List.take_append_of_le_length hlen]
  exact he

variable {mounted : Mounted}

/-- The child a walk goes on to, with the mount it may enter, keeps the state. -/
theorem WalkState.next {segment : Name} {child : Found} (hw : WalkState root names current mounted)
    (hc : nextNode current mounted (names ++ [segment]) segment = some child) :
    WalkState root (names ++ [segment])
      (enter mounted names.length (names ++ [segment]) child).1
      (enter mounted names.length (names ++ [segment]) child).2 := by
  cases hw with
  | tree h =>
      rename_i node
      simp only [nextNode, Option.map_eq_some_iff] at hc
      obtain ⟨c, hc, rfl⟩ := hc
      have hget : root.get? (names ++ [segment]) = some c := by
        rw [LabelTree.get?_append_singleton, h]
        exact hc
      cases htree : c.label.mount with
      | none => simpa [enter, Found.mount, htree] using WalkState.tree hget
      | some tree =>
          cases hr : tree.node ['/'] with
          | none =>
              simpa [enter, Found.mount, htree, hr] using
                WalkState.mountPoint (by simp) hget htree
          | some answer =>
              have htake : (names ++ [segment]).take (names.length + 1) =
                  names ++ [segment] := by simp
              have hdrop : (names ++ [segment]).drop (names.length + 1) = [] := by simp
              have hst : WalkState root (names ++ [segment])
                  (.mounted ((names ++ [segment]).take (names.length + 1))
                    ((names ++ [segment]).drop (names.length + 1)) answer)
                  (some (tree, names.length)) :=
                .mounted (by simp) (by rw [htake]; exact LabelTree.label?_of_get? hget)
                  htree (by rw [hdrop]; exact hr)
              rw [htake, hdrop] at hst
              simpa [enter, Found.mount, htree, hr] using hst
  | mountPoint hlen h hmount =>
      refine WalkState.answer (by omega) ?_ hmount hc
      rw [List.take_of_length_le (by omega)]
      exact LabelTree.label?_of_get? h
  | mounted hlen he hmount hans => exact WalkState.answer hlen he hmount hc

variable {f : Found}

theorem walkNode_state {follow : Bool} {segments : List Name}
    (hw : WalkState root names current mounted)
    (h : walkNode follow names current mounted segments = .found f) :
    ∃ mounted', WalkState root (names ++ segments) f mounted' := by
  induction segments generalizing names current mounted with
  | nil =>
      cases h
      exact ⟨mounted, by rwa [List.append_nil]⟩
  | cons segment rest ih =>
      rw [walkNode] at h
      split at h
      · cases h
      · cases hc : nextNode current mounted (names ++ [segment]) segment with
        | none => simp [hc] at h
        | some child =>
            rw [hc] at h
            simp only at h
            split at h
            · cases h
            · obtain ⟨mounted', hst⟩ := ih (hw.next hc) h
              exact ⟨mounted', by simpa using hst⟩

/-! ### What a lookup finds -/

/-- A found node stands in a tree: it is the tree's own, or the answer of a tree
that is mounted there. -/
def Found.In (root : FSNode) : Found → Prop
  | .here place node => root.get? place = some node ∧ ∀ n ∈ place, ValidName n
  | .mounted place below answer => ∃ e tree, root.label? place = some e ∧
      e.mount = some tree ∧ tree.node (absolute below) = some answer

theorem WalkState.found_in (hw : WalkState root names current mounted)
    (hv : ∀ n ∈ names, ValidName n) : current.In root := by
  cases hw with
  | tree h => exact ⟨h, hv⟩
  | mountPoint hlen h hmount => exact ⟨h, hv⟩
  | mounted hlen he hmount hans => exact ⟨_, _, he, hmount, hans⟩

theorem substrateNode_in {follow : Bool} {left : ℕ} {path : Str}
    (h : substrateNode root follow left path = .ok (some f)) : f.In root := by
  induction left generalizing path with
  | zero => cases h
  | succ left ih =>
      rw [substrateNode] at h
      cases hw : walkNode follow [] (.here [] root) none (getPathSegments path) with
      | found node =>
          rw [hw] at h
          cases h
          obtain ⟨mounted, hst⟩ := walkNode_state (walkState_root root) hw
          exact hst.found_in (by simpa using valid_getPathSegments path)
      | missing =>
          rw [hw] at h
          cases h
      | link linkPath target rest =>
          rw [hw] at h
          exact ih h

theorem getNode_in {path : Str} (h : getNode root path = .ok (some f)) : f.In root :=
  substrateNode_in h

end VirtualFS

end Tabnode
