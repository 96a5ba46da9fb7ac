import Tabnode.VirtualFS.Invariant

/-!
# When a lookup fails

A lookup throws only for more links than it may follow. It reads a tree by the
links its walks end at (`substrateNode_eq_error_iff`), and an empty directory more
adds none: whether the directories a call makes can be reported is known before
they are made (`makeDirectories_of_reported`).
-/

namespace Tabnode

namespace VirtualFS

open LabelTree List Option

def Walk.link? : Walk → Option (Str × Str × List Name)
  | .link linkPath target rest => some (linkPath, target, rest)
  | _ => none

variable {root : FSNode} {follow : Bool}

/-- Two trees whose walks end at the same links fail the same lookups. -/
theorem substrateNode_eq_error_iff {root' : FSNode}
    (h : ∀ segments, (walkNode follow [] (.here [] root') none segments).link? =
      (walkNode follow [] (.here [] root) none segments).link?) (left : ℕ) (path : Str)
    (e : FsError) : substrateNode root' follow left path = .error e ↔
      substrateNode root follow left path = .error e := by
  induction left generalizing path with
  | zero => rfl
  | succ left ih =>
      have hlink := h (getPathSegments path)
      rw [substrateNode, substrateNode]
      cases hw : walkNode follow [] (.here [] root) none (getPathSegments path) with
      | found _ | missing =>
          cases hw' : walkNode follow [] (.here [] root') none (getPathSegments path) with
          | found _ | missing => simp
          | link linkPath target rest => simp [hw, hw', Walk.link?] at hlink
      | link linkPath target rest =>
          cases hw' : walkNode follow [] (.here [] root') none (getPathSegments path) with
          | found _ | missing => simp [hw, hw', Walk.link?] at hlink
          | link linkPath' target' rest' =>
              simp only [hw, hw', Walk.link?, some_inj, Prod.mk.injEq] at hlink
              obtain ⟨rfl, rfl, rfl⟩ := hlink
              exact ih _

/-! ## An empty directory more -/

variable {names : List Name} {current : Found}

theorem link?_walkNode_mounted {current' : Found} (h : current'.kind = current.kind)
    (m : MountedTree × ℕ) (segments : List Name) :
    (walkNode follow names current' (some m) segments).link? =
      (walkNode follow names current (some m) segments).link? := by
  cases segments with
  | nil => rfl
  | cons segment rest =>
      rw [walkNode, walkNode, h]
      rfl

theorem link?_walkNode_newDirectory (now : JsNumber) (follow : Bool) (names segments : List Name) :
    (walkNode follow names (.here names (newDirectory now)) none segments).link? = none := by
  cases segments <;> rfl

variable {node : FSNode}

/-- Putting an empty directory where nothing stands gives the walks no link. -/
theorem link?_walkNode_put (now : JsNumber) (follow : Bool) {p : Place} {k : Name}
    (habsent : node.get? (p ++ [k]) = none) (names segments : List Name) :
    (walkNode follow names (.here names (node.put p k (newDirectory now))) none segments).link? =
      (walkNode follow names (.here names node) none segments).link? := by
  induction segments generalizing node p names with
  | nil => rfl
  | cons segment rest ih =>
      rw [walkNode, walkNode]
      have hlabel : (node.put p k (newDirectory now)).label = node.label := by
        cases p with
        | nil => rfl
        | cons n p =>
            rw [put, update]
            cases node.child? n <;> rfl
      rw [Found.kind_here, Found.kind_here, hlabel]
      split
      · rfl
      · simp only [nextNode]
        cases p with
        | nil =>
            -- the new directory stands here
            have hk : node.child? k = none := by simpa [get?_cons] using habsent
            have hput : (node.put [] k (newDirectory now)).child? segment =
                if k = segment then some (newDirectory now) else node.child? segment :=
              child?_withChild k segment _ node
            by_cases hks : k = segment
            · subst hks
              rw [hput, if_pos rfl, hk]
              exact link?_walkNode_newDirectory now follow _ rest
            · rw [hput, if_neg hks]
        | cons n p =>
            cases hn : node.child? n with
            | none =>
                have hsame : node.put (n :: p) k (newDirectory now) = node :=
                  update_cons_of_no_child hn _ _
                rw [hsame]
            | some c =>
                have hput : (node.put (n :: p) k (newDirectory now)).child? segment =
                    if n = segment then some (c.put p k (newDirectory now))
                    else node.child? segment := by
                  rw [put, update_cons_of_child hn]
                  exact child?_withChild n segment _ node
                by_cases hns : n = segment
                · -- the way goes on towards it
                  subst hns
                  have hc : c.get? (p ++ [k]) = none := by
                    rw [cons_append, get?_cons, hn] at habsent
                    exact habsent
                  have hclabel : (c.put p k (newDirectory now)).label = c.label := by
                    cases p with
                    | nil => rfl
                    | cons n p =>
                        rw [put, update]
                        cases c.child? n <;> rfl
                  rw [hput, if_pos rfl, hn]
                  simp only [map_some, Found.kind_here, hclabel]
                  split
                  · rfl
                  · cases hmount : c.label.mount with
                    | none =>
                        simpa [enter, Found.mount, hclabel, hmount] using ih hc _
                    | some tree =>
                        simp only [enter, Found.mount, hclabel, hmount]
                        cases tree.node ['/'] with
                        | none => exact link?_walkNode_mounted (by simp [hclabel]) _ _
                        | some answer => rfl
                · rw [hput, if_neg hns]

variable {base : Place} {missing : List Name}

theorem link?_walkNode_withDirectories (now : JsNumber) (follow : Bool)
    (h : IsDestination root base missing) (segments : List Name) :
    (walkNode follow [] (.here [] (withDirectories now root base missing)) none
        segments).link? =
      (walkNode follow [] (.here [] root) none segments).link? := by
  obtain ⟨d, hd, -, hmissing⟩ := h.directory
  clear h
  induction missing generalizing root base d with
  | nil => rfl
  | cons name rest ih =>
      have habsent : root.get? (base ++ [name]) = none := by
        rw [get?_append_singleton, hd]
        exact hmissing name rfl
      rw [withDirectories, ih (newDirectory now) (get?_put_append hd name _ [])
        fun _ _ => rfl]
      exact link?_walkNode_put now follow habsent [] segments

theorem lstatNode_withDirectories_eq_error_iff (now : JsNumber)
    (h : IsDestination root base missing) (path : Str) (e : FsError) :
    lstatNode (withDirectories now root base missing) path = .error e ↔
      lstatNode root path = .error e :=
  substrateNode_eq_error_iff (link?_walkNode_withDirectories now false h) linkBound path e

theorem changeEvent_eq_error_iff {path : Str} {e : FsError} :
    changeEvent root path = .error e ↔ lstatNode root path = .error e := by
  rw [changeEvent]
  cases lstatNode root path <;> simp

/-! ## A lookup of what has just been found -/

def Covers (node node' : FSNode) : Prop :=
  ∀ q e, node.label? q = some e → ∃ e', node'.label? q = some e' ∧ e'.shape = e.shape

variable {node' : FSNode}

theorem Extends.covers (h : Extends node node') : Covers node node' :=
  fun q e he => ⟨e, h q e he, rfl⟩

theorem Covers.child {child : FSNode} (h : Covers node node') {n : Name}
    (hc : node.child? n = some child) :
    ∃ child', node'.child? n = some child' ∧ Covers child child' := by
  have hfirst := h [n] child.label (by rw [label?_cons, hc]; rfl)
  obtain ⟨e', he', -⟩ := hfirst
  rw [label?_cons] at he'
  cases hc' : node'.child? n with
  | none => simp [hc'] at he'
  | some child' =>
      refine ⟨child', rfl, fun q e he => ?_⟩
      have hq := h (n :: q) e (by rw [label?_cons, hc]; exact he)
      rwa [label?_cons, hc'] at hq

theorem Covers.label (h : Covers node node') :
    node'.label.kind = node.label.kind ∧ node'.label.mount = node.label.mount := by
  obtain ⟨e', he', hs⟩ := h [] node.label rfl
  rw [label?_nil, some_inj] at he'
  rw [he']
  exact Prod.mk.injEq .. ▸ hs

/-- The link that a walk meets which does not follow the last one, on the way of a
walk that does, and at most one name further. -/
def Walk.linkThen (tail : List Name) : Walk → Option (Str × Str × List Name)
  | .link linkPath target rest =>
      if rest ++ tail = [] then none else some (linkPath, target, rest ++ tail)
  | _ => none

variable {tail : List Name}

theorem link?_walkNode_last (htail : tail.length ≤ 1) (current : Found) (mounted : Mounted) :
    (walkNode false names current mounted tail).link? = none := by
  cases tail with
  | nil => rfl
  | cons n rest =>
      have hnil : rest = [] := by
        rw [length_cons] at htail
        exact eq_nil_of_length_eq_zero (by omega)
      subst hnil
      rw [walkNode]
      split
      · rfl
      · cases nextNode current mounted (names ++ [n]) n with
        | none => rfl
        | some child => cases ht : child.kind.target? <;> simp [ht, walkNode, Walk.link?]

variable {segments : List Name}

theorem link?_walkNode_mounted_then (htail : tail.length ≤ 1) {current' : Found}
    (hk : current'.kind = current.kind) (m : MountedTree × ℕ)
    (hne : walkNode true names current (some m) segments ≠ .missing) :
    (walkNode false names current' (some m) (segments ++ tail)).link? =
      (walkNode true names current (some m) segments).linkThen tail := by
  induction segments generalizing names current current' with
  | nil => exact link?_walkNode_last htail current' (some m)
  | cons segment rest ih =>
      rw [walkNode] at hne ⊢
      rw [cons_append, walkNode, hk]
      split at hne
      · exact absurd rfl hne
      · next hdir =>
          rw [if_neg hdir, if_neg hdir]
          have hnext : nextNode current' (some m) (names ++ [segment]) segment =
              nextNode current (some m) (names ++ [segment]) segment := rfl
          rw [hnext]
          cases hc : nextNode current (some m) (names ++ [segment]) segment with
          | none => simp [hc] at hne
          | some child =>
              rw [hc] at hne
              cases ht : child.kind.target? with
              | none =>
                  simp only [ht] at hne ⊢
                  exact ih rfl hne
              | some target =>
                  simp only [ht, Bool.true_or, Bool.false_or, Walk.linkThen]
                  cases hrest : rest ++ tail with
                  | nil | cons _ _ => rfl

/-- A walk in a tree that covers another meets the links that the other's walk
meets. -/
theorem link?_walkNode_covers (htail : tail.length ≤ 1) (hcov : Covers node node')
    (hne : walkNode true names (.here names node) none segments ≠ .missing) :
    (walkNode false names (.here names node') none (segments ++ tail)).link? =
      (walkNode true names (.here names node) none segments).linkThen tail := by
  induction segments generalizing names node node' with
  | nil => exact link?_walkNode_last htail _ none
  | cons segment rest ih =>
      rw [walkNode] at hne ⊢
      rw [cons_append, walkNode, Found.kind_here, hcov.label.1]
      rw [Found.kind_here] at hne ⊢
      split at hne
      · exact absurd rfl hne
      · next hdir =>
          rw [if_neg hdir, if_neg hdir]
          simp only [nextNode] at hne ⊢
          cases hc : node.child? segment with
          | none => simp [hc] at hne
          | some child =>
              obtain ⟨child', hc', hcov'⟩ := hcov.child hc
              rw [hc] at hne
              simp only [hc', map_some, Found.kind_here, hcov'.label.1] at hne ⊢
              cases ht : child.label.kind.target? with
              | some target =>
                  simp only [Bool.true_or, Bool.false_or, Walk.linkThen]
                  cases hrest : rest ++ tail with
                  | nil | cons _ _ => rfl
              | none =>
                  simp only [ht] at hne
                  simp only
                  cases hm : child.label.mount with
                  | none =>
                      simp only [enter, Found.mount, hm, hcov'.label.2] at hne ⊢
                      exact ih hcov' hne
                  | some tree =>
                      simp only [enter, Found.mount, hm, hcov'.label.2] at hne ⊢
                      cases hr : tree.node ['/'] with
                      | none =>
                          simp only [hr] at hne ⊢
                          exact link?_walkNode_mounted_then htail (by simp [hcov'.label.1]) _ hne
                      | some answer =>
                          simp only [hr] at hne ⊢
                          exact link?_walkNode_mounted_then htail rfl _ hne

theorem walkNode_link_suffix {rest : List Name} {mounted : Mounted} {linkPath target : Str}
    (h : walkNode follow names current mounted segments = .link linkPath target rest) :
    rest <:+ segments := by
  induction segments generalizing names current mounted with
  | nil => cases h
  | cons segment tail ih =>
      rw [walkNode] at h
      split at h
      · cases h
      · split at h
        · cases h
        · split at h
          · cases h
            exact suffix_cons segment _
          · exact (ih h).trans (suffix_cons segment tail)

/-- What was found can be looked up again, at most one name further, in a tree that
has it still. -/
theorem substrateNode_covers {root' : FSNode} (hcov : Covers root root') (htail : tail.length ≤ 1)
    {left : ℕ} {path path' : Str} {f : Found} (hv : ∀ n ∈ tail, ValidName n)
    (hpath : getPathSegments path' = getPathSegments path ++ tail)
    (h : substrateNode root true left path = .ok (some f)) :
    ∃ r, substrateNode root' false left path' = .ok r := by
  induction left generalizing path path' with
  | zero => cases h
  | succ left ih =>
      rw [substrateNode] at h
      have hne : walkNode true [] (.here [] root) none (getPathSegments path) ≠ .missing := by
        intro hm
        rw [hm] at h
        cases h
      have hlink := link?_walkNode_covers htail hcov hne
      rw [substrateNode, hpath]
      cases hw' : walkNode false [] (.here [] root') none (getPathSegments path ++ tail) with
      | found _ | missing => exact ⟨_, rfl⟩
      | link linkPath target rest =>
          rw [hw'] at hlink
          cases hw : walkNode true [] (.here [] root) none (getPathSegments path) with
          | found f' => simp [hw, Walk.link?, Walk.linkThen] at hlink
          | missing => exact absurd hw hne
          | link linkPath' target' rest' =>
              rw [hw] at h hlink
              simp only [Walk.link?, Walk.linkThen] at hlink
              split at hlink
              · cases hlink
              · simp only [some_inj, Prod.mk.injEq] at hlink
                obtain ⟨rfl, rfl, rfl⟩ := hlink
                have hrest : ∀ n ∈ rest', ValidName n := fun n hn =>
                  valid_getPathSegments path n ((walkNode_link_suffix hw).subset hn)
                refine ih ?_ h
                rw [getPathSegments_afterLink hrest, getPathSegments_afterLink,
                  append_assoc]
                intro n hn
                exact (mem_append.1 hn).elim (hrest n) (hv n)

/-! ## Directories that cannot be reported -/

/-- One of the directories a call makes cannot be reported to a listener: the
lookup of its path follows too many links. The path crosses a mount then, since
the place of a directory that is made meets no link of the tree. -/
def Unreported (env : Env) (root : FSNode) (base : Place) (missing : List Name) : Prop :=
  env.changeListened ∧ ∃ k < missing.length, ∃ e,
    lstatNode root (absolute (base ++ missing.take (k + 1))) = .error e

variable {env : Env} {s : State}

theorem makeDirectories_of_reported (h : IsDestination s.root base missing)
    (hrep : ¬ Unreported env s.root base missing) :
    ∃ s', (makeDirectories env base missing).run s = (.ok (base ++ missing), s') ∧
      Made env base missing s s' := by
  rcases makeDirectories_outcome env base missing s with hok | ⟨e, s', k, -, hk, hs', hl, he⟩
  · exact hok
  · refine absurd ⟨hl, k, hk, e, ?_⟩ hrep
    rw [changeEvent_eq_error_iff, hs',
      lstatNode_withDirectories_eq_error_iff env.now (h.take (k + 1))] at he
    exact he

theorem makeDirectories_of_unreported (h : IsDestination s.root base missing)
    (hrep : Unreported env s.root base missing) :
    ∃ e s' k, (makeDirectories env base missing).run s = (.error e, s') ∧
      k < missing.length ∧
      s'.root = withDirectories env.now s.root base (missing.take (k + 1)) := by
  obtain ⟨hl, k, hk, e, he⟩ := hrep
  rcases makeDirectories_outcome env base missing s with
    ⟨s', -, hmade⟩ | ⟨e', s', k', hr, hk', hs', -⟩
  · -- each of them was reported, the one that cannot be among them
    obtain ⟨event, hev⟩ := hmade.reported hl k hk
    rw [← lstatNode_withDirectories_eq_error_iff env.now (h.take (k + 1)),
      ← changeEvent_eq_error_iff, hev] at he
    cases he
  · exact ⟨e', s', k', hr, hk', hs'⟩

/-- An action whose directories can be reported goes on to its edit. -/
theorem act_of_reported {a : Act} (h : IsDestination s.root a.base a.missing)
    (hrep : ¬ Unreported env s.root a.base a.missing) : ∃ s', Made env a.base a.missing s s' ∧
      (act env a).run s = (finish env a.edit a.dir).run s' := by
  obtain ⟨s', hr, hmade⟩ := makeDirectories_of_reported h hrep
  exact ⟨s', hmade, by rw [act, Effect.run_bind_ok hr]; rfl⟩

theorem act_of_unreported {a : Act} (h : IsDestination s.root a.base a.missing)
    (hrep : Unreported env s.root a.base a.missing) :
    ∃ e s' k, (act env a).run s = (.error e, s') ∧ k < a.missing.length ∧
      s'.root = withDirectories env.now s.root a.base (a.missing.take (k + 1)) := by
  obtain ⟨e, s', k, hr, hk, hs'⟩ := makeDirectories_of_unreported h hrep
  exact ⟨e, s', k, by rw [act, Effect.run_bind_error hr], hk, hs'⟩

theorem not_unreported_of_unheard (h : env.changeListened = false) (root : FSNode) (base : Place)
    (missing : List Name) : ¬ Unreported env root base missing := by
  rintro ⟨hl, -⟩
  rw [h] at hl
  cases hl

end VirtualFS

end Tabnode

/-!
## What a move does

A move takes an entry out of the tree and puts it at its new place: elsewhere the
tree keeps its labels (`label?_move`). An entry that is put where it was is there
as before, and one that goes into itself is gone.
-/

namespace Tabnode

namespace VirtualFS

/-- The places an edit moves an entry from and to. An entry that a mounted tree
answered has no place to be taken from. -/
def Edit.moved (dir : Place) : Edit → Option (Option Place × Place)
  | .move _ _ source oldName _ newName => some (source.childPlace oldName, dir ++ [newName])
  | _ => none

def Act.IntoItself (a : Act) : Prop :=
  ∃ O N, a.edit.moved a.dir = some (some O, N) ∧ O <+: a.dir

variable {root node d : FSNode} {place dir : Place} {oldName : Name}

/-- The labels after a move, off the moved subtree and its new place. -/
theorem label?_move {q : Place} {newName : Name}
    (hd : (root.remove place oldName).get? dir = some d) (hO : ¬ place ++ [oldName] <+: q)
    (hN : ¬ dir ++ [newName] <+: q) :
    ((root.remove place oldName).put dir newName node).label? q = root.label? q := by
  rw [LabelTree.label?_put hd, if_neg hN, LabelTree.label?_remove, if_neg hO]

theorem get?_remove_isSome (hd : root.get? dir = some d) (hO : ¬ place ++ [oldName] <+: dir) :
    ∃ d', (root.remove place oldName).get? dir = some d' := by
  have hl := LabelTree.label?_remove root place oldName dir
  rw [if_neg hO, LabelTree.label?_of_get? hd] at hl
  obtain ⟨d', hd', -⟩ := LabelTree.label?_eq_some_iff.1 hl
  exact ⟨d', hd'⟩

/-- Putting the node that stands at a place there again changes no label. -/
theorem label?_move_same {name : Name} (hd : root.get? place = some d)
    (hnode : root.get? (place ++ [name]) = some node)
    (q : Place) : ((root.remove place name).put place name node).label? q = root.label? q := by
  have hnot : ¬ place ++ [name] <+: place := by
    intro h
    have hlen := h.length_le
    simp at hlen
  obtain ⟨d', hd'⟩ := get?_remove_isSome hd hnot
  rw [LabelTree.label?_put hd']
  split
  · next h =>
      obtain ⟨r, rfl⟩ := h
      rw [LabelTree.label?_append, hnode, Option.bind_some]
      simp [List.drop_append, List.drop_eq_nil_of_le]
  · next h => rw [LabelTree.label?_remove, if_neg h]

theorem label?_intoItself {newName : Name} (hdir : place ++ [oldName] <+: dir) :
    ((root.remove place oldName).put dir newName node).label? (place ++ [oldName]) = none := by
  have hnone : ∀ q, place ++ [oldName] <+: q → (root.remove place oldName).label? q = none := by
    intro q hq
    rw [LabelTree.label?_remove, if_pos hq]
  rw [LabelTree.label?_put_of_absent (LabelTree.label?_eq_none_iff.1 (hnone dir hdir))]
  exact hnone _ (List.prefix_refl _)

end VirtualFS

end Tabnode
