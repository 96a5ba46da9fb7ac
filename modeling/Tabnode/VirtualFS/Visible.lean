import Tabnode.VirtualFS.Invariant

/-!
# What stands at a place

`visible root p` is the type of what a reader finds at a list of names when no
link is followed: the tree's own node above the first mount point on the way, and
the mounted tree's answer from there on. It is what the walk of `getNode` finds
on names that meet no link (`visible_eq_walkNode`).

What is visible at a place depends on the labels on the way to it only
(`visible_congr`), those below a mount point not counted, and a subtree shows the
same wherever it stands (`visible_append`).
-/

namespace Tabnode

namespace VirtualFS

open LabelTree List Option

def MountedTree.show (tree : MountedTree) : List Name → Kind → List Name → Option Kind
  | _, kind, [] => some kind
  | below, kind, n :: rest =>
      if kind = .directory then
        match tree.node (absolute (below ++ [n])) with
        | some answer =>
            if answer.label.kind.target? = none then
              tree.show (below ++ [n]) answer.label.kind rest
            else none
        | none => none
      else none

def visible (node : FSNode) : List Name → Option Kind
  | [] =>
      match node.label.mount with
      | some tree => tree.show [] .directory []
      | none => some node.label.kind
  | n :: rest =>
      match node.label.mount with
      | some tree => tree.show [] .directory (n :: rest)
      | none =>
          match node.child? n with
          | some child => if child.label.kind.target? = none then visible child rest else none
          | none => none

variable {node : FSNode}

theorem visible_of_mount {tree : MountedTree} (h : node.label.mount = some tree) (p : List Name) :
    visible node p = tree.show [] .directory p := by
  cases p <;> simp only [visible, h]

theorem visible_nil (h : node.label.mount = none) : visible node [] = some node.label.kind := by
  simp only [visible, h]

theorem visible_cons (h : node.label.mount = none) (n : Name) (rest : List Name) :
    visible node (n :: rest) =
      match node.child? n with
      | some child => if child.label.kind.target? = none then visible child rest else none
      | none => none := by
  simp only [visible, h]

/-! ## It is what the resolver finds -/

def Walk.kind? : Walk → Option Kind
  | .found f => some f.kind
  | _ => none

theorem show_eq_walkNode (tree : MountedTree) {at_ : ℕ} (rest names : List Name)
    (current : Found) (hlen : at_ < names.length) :
    (walkNode true names current (some (tree, at_)) rest).kind? =
      tree.show (names.drop (at_ + 1)) current.kind rest := by
  induction rest generalizing names current with
  | nil => rfl
  | cons n rest ih =>
      have hdrop : (names ++ [n]).drop (at_ + 1) = names.drop (at_ + 1) ++ [n] :=
        drop_append_of_le_length hlen
      rw [walkNode, MountedTree.show]
      by_cases hk : current.kind = Kind.directory
      · rw [if_neg (not_not.2 hk), if_pos hk, nextNode, hdrop]
        cases tree.node (absolute (names.drop (at_ + 1) ++ [n])) with
        | none => rfl
        | some answer =>
            simp only [map_some, Found.kind_mounted]
            cases ht : answer.label.kind.target? with
            | some target => simp [Walk.kind?]
            | none =>
                simp only [if_true]
                rw [← hdrop]
                exact ih (names ++ [n]) _ (by simp; omega)
      · rw [if_pos hk, if_neg hk]
        rfl

variable {root : FSNode}

theorem visible_eq_walkNode_here (hs : Sound root) (p names : List Name)
    (hget : root.get? names = some node) (hm : node.label.mount = none) :
    (walkNode true names (.here names node) none p).kind? = visible node p := by
  induction p generalizing names node with
  | nil => rw [visible_nil hm]; rfl
  | cons n rest ih =>
      rw [walkNode, visible_cons hm]
      simp only [nextNode]
      cases hc : node.child? n with
      | none =>
          simp only [map_none]
          split <;> rfl
      | some child =>
          have hdir : node.label.kind = Kind.directory := hs.directory_of_child hget hc
          have hget' : root.get? (names ++ [n]) = some child := by
            rw [get?_append_singleton, hget]
            exact hc
          rw [Found.kind_here, if_neg (not_not.2 hdir)]
          simp only [map_some, Found.kind_here]
          cases ht : child.label.kind.target? with
          | some target => simp [Walk.kind?]
          | none =>
              simp only [if_true]
              cases hmount : child.label.mount with
              | none =>
                  simpa [enter, Found.mount, hmount] using ih _ hget' hmount
              | some tree =>
                  have hdrop : (names ++ [n]).drop (names.length + 1) = [] := by simp
                  have hkind : child.label.kind = Kind.directory :=
                    (hs _ _ hget').2 (by simp [hmount])
                  rw [visible_of_mount hmount]
                  simp only [enter, Found.mount, hmount]
                  rw [show_eq_walkNode _ _ _ _ (by simp), hdrop]
                  cases hr : tree.node ['/'] with
                  | none => simp [hkind]
                  | some answer => simp [tree.root_directory answer hr]

/-- What is visible at a list of names is what the walk of `getNode` finds there,
where it meets no link. -/
theorem visible_eq_walkNode (h : WellFormed root) (p : List Name) :
    (walkNode true [] (.here [] root) none p).kind? = visible root p :=
  visible_eq_walkNode_here h.sound p [] rfl h.unmounted

/-! ## What it depends on -/

def Hidden (root : FSNode) (p : Place) : Prop :=
  ∃ q e, q <+: p ∧ q ≠ p ∧ root.label? q = some e ∧ e.mount.isSome

theorem not_hidden_nil (root : FSNode) : ¬ Hidden root [] := by
  rintro ⟨q, e, hq, hne, -⟩
  exact hne (prefix_nil.1 hq)

variable {p q : Place}

theorem Hidden.of_isPrefix (hp : Hidden root p) (hpq : p <+: q) : Hidden root q := by
  obtain ⟨r, e, hr, hne, he, hm⟩ := hp
  refine ⟨r, e, hr.trans hpq, ?_, he, hm⟩
  rintro rfl
  exact hne (hr.eq_of_length_le hpq.length_le)

/-- Below an unmounted node a place is hidden as it is below its first name. -/
theorem hidden_cons_iff {child : FSNode} {n : Name} (hm : node.label.mount = none)
    (hc : node.child? n = some child) : Hidden node (n :: p) ↔ Hidden child p := by
  have hlabel : ∀ q, node.label? (n :: q) = child.label? q := by
    intro q
    rw [label?_cons, hc, bind_some]
  constructor
  · rintro ⟨q, e, hq, hne, he, hmount⟩
    cases q with
    | nil =>
        rw [label?_nil, some_inj] at he
        rw [← he, hm] at hmount
        cases hmount
    | cons m q =>
        obtain ⟨rfl, hq'⟩ := cons_prefix_cons.1 hq
        refine ⟨q, e, hq', fun h => hne (by rw [h]), ?_, hmount⟩
        rw [← hlabel]
        exact he
  · rintro ⟨q, e, hq, hne, he, hmount⟩
    refine ⟨n :: q, e, cons_prefix_cons.2 ⟨rfl, hq⟩, fun h => hne (by simpa using h), ?_,
      hmount⟩
    rw [hlabel]
    exact he

theorem not_hidden_singleton (hm : node.label.mount = none) (n : Name) : ¬ Hidden node [n] := by
  rintro ⟨q, e, hq, hne, he, hmount⟩
  cases q with
  | nil =>
      rw [label?_nil, some_inj] at he
      rw [← he, hm] at hmount
      cases hmount
  | cons m q =>
      obtain ⟨rfl, hq'⟩ := cons_prefix_cons.1 hq
      exact hne (by rw [prefix_nil.1 hq'])

/-- The labels on the way to a place decide what is visible there, those below a
mount point not counted. -/
theorem visible_congr {node' : FSNode} {p : List Name} (h : ∀ q, q <+: p → ¬ Hidden node q →
      (node'.label? q).map Entry.shape = (node.label? q).map Entry.shape) :
    visible node' p = visible node p := by
  induction p generalizing node node' with
  | nil =>
      have hroot := h [] nil_prefix (not_hidden_nil node)
      simp only [label?_nil, map_some, some_inj, Entry.shape,
        Prod.mk.injEq] at hroot
      rw [visible, visible, hroot.1, hroot.2]
  | cons n rest ih =>
      have hroot := h [] nil_prefix (not_hidden_nil node)
      simp only [label?_nil, map_some, some_inj, Entry.shape,
        Prod.mk.injEq] at hroot
      cases hm : node.label.mount with
      | some tree =>
          rw [visible_of_mount hm, visible_of_mount (hroot.2.trans hm)]
      | none =>
          have hfirst := h [n] ⟨rest, rfl⟩ (not_hidden_singleton hm n)
          rw [label?_cons, label?_cons] at hfirst
          rw [visible_cons hm, visible_cons (hroot.2.trans hm)]
          cases hc : node.child? n with
          | none =>
              cases hc' : node'.child? n with
              | none => rfl
              | some child' => simp [hc, hc'] at hfirst
          | some child =>
              cases hc' : node'.child? n with
              | none => simp [hc, hc'] at hfirst
              | some child' =>
                  simp only [hc, hc', bind_some, label?_nil, map_some,
                    some_inj, Entry.shape, Prod.mk.injEq] at hfirst
                  simp only [hfirst.1]
                  split
                  · refine ih fun q hq hhid => ?_
                    have hq' := h (n :: q) (cons_prefix_cons.2 ⟨rfl, hq⟩)
                      (fun hh => hhid ((hidden_cons_iff hm hc).1 hh))
                    rw [label?_cons, label?_cons, hc, hc'] at hq'
                    exact hq'
                  · rfl

/-- A subtree shows below its place what it shows itself, where the way to it
crosses no mount point. -/
theorem visible_append (hs : Sound root) (hget : root.get? p = some node) (hhid : ¬ Hidden root p)
    (ht : p ≠ [] → node.label.kind.target? = none) (rest : List Name) :
    visible root (p ++ rest) = visible node rest := by
  induction p generalizing root with
  | nil =>
      cases hget
      rfl
  | cons n p ih =>
      have hm : root.label.mount = none := by
        cases hm : root.label.mount with
        | none => rfl
        | some tree =>
            exact absurd ⟨[], root.label, nil_prefix, by simp, rfl, by simp [hm]⟩ hhid
      rw [get?_cons, bind_eq_some_iff] at hget
      obtain ⟨child, hc, hget⟩ := hget
      have hchild : Sound child := AllNodes.get? hs (p := [n]) (by
        rw [get?_cons, hc]
        rfl)
      have htarget : child.label.kind.target? = none := by
        cases p with
        | nil =>
            cases hget
            exact ht (by simp)
        | cons m p =>
            rw [get?_cons, bind_eq_some_iff] at hget
            obtain ⟨d, hd, -⟩ := hget
            rw [hchild.directory_of_child (get?_nil child) hd]
            rfl
      rw [cons_append, visible_cons hm, hc]
      simp only [htarget, if_true]
      exact ih hchild hget (fun h => hhid ((hidden_cons_iff hm hc).2 h))
        (fun hp => ht (by simp))

theorem visible_of_label? (hs : Sound root) {e : Entry} (hl : root.label? p = some e)
    (hhid : ¬ Hidden root p) (hm : e.mount = none)
    (ht : e.kind.target? = none) : visible root p = some e.kind := by
  obtain ⟨d, hd, rfl⟩ := label?_eq_some_iff.1 hl
  have happ := visible_append hs hd hhid (fun _ => ht) []
  rwa [append_nil, visible_nil hm] at happ

variable {root' : FSNode}

theorem hidden_congr (h : ∀ q, q <+: p → q ≠ p →
      (root'.label? q).map Entry.mount = (root.label? q).map Entry.mount) :
    Hidden root' p ↔ Hidden root p := by
  have hiff : ∀ r r' : FSNode, (∀ q, q <+: p → q ≠ p →
      (r'.label? q).map Entry.mount = (r.label? q).map Entry.mount) →
      Hidden r' p → Hidden r p := by
    rintro r r' h ⟨q, e, hq, hne, he, hm⟩
    have hq' := h q hq hne
    rw [he, map_some, eq_comm, map_eq_some_iff] at hq'
    obtain ⟨e', he', hmount⟩ := hq'
    exact ⟨q, e', hq, hne, he', by rwa [hmount]⟩
  exact ⟨hiff root root' h, hiff root' root fun q hq hne => (h q hq hne).symm⟩

/-- On the way to what is visible there are nodes of the tree, none of them a
link, up to the first mount point. -/
theorem get?_of_visible {p : List Name} {k : Kind} (h : visible node p = some k) (hq : q <+: p)
    (hhid : ¬ Hidden node q) : ∃ d, node.get? q = some d ∧ (q ≠ [] → d.label.kind.target? = none) ∧
      visible d (p.drop q.length) = some k := by
  induction q generalizing node p with
  | nil => exact ⟨node, rfl, fun hne => absurd rfl hne, h⟩
  | cons n q ih =>
      obtain ⟨rest, rfl⟩ := hq
      have hm : node.label.mount = none := by
        cases hm : node.label.mount with
        | none => rfl
        | some tree =>
            exact absurd ⟨[], node.label, nil_prefix, by simp, rfl, by simp [hm]⟩ hhid
      rw [cons_append, visible_cons hm] at h
      cases hc : node.child? n with
      | none => simp [hc] at h
      | some child =>
          simp only [hc] at h
          split at h
          · next ht =>
              obtain ⟨d, hd, hdt, hv⟩ := ih h ⟨rest, rfl⟩
                (fun hh => hhid ((hidden_cons_iff hm hc).2 hh))
              refine ⟨d, by rw [get?_cons, hc]; exact hd, fun _ => ?_, ?_⟩
              · cases q with
                | nil =>
                    cases hd
                    exact ht
                | cons m q => exact hdt (by simp)
              · simpa using hv
          · cases h

/-! ## Files that can be reached -/

def FileAt (root : FSNode) (p : Place) (content : List UInt8) : Prop :=
  (∀ n ∈ p, ValidName n) ∧ visible root p = some (.file content)

variable {content : List UInt8}

theorem FileAt.congr (hf : FileAt root p content) (h : ∀ q, q <+: p → ¬ Hidden root q →
      (root'.label? q).map Entry.shape = (root.label? q).map Entry.shape) :
    FileAt root' p content :=
  ⟨hf.1, by rw [visible_congr h]; exact hf.2⟩

theorem FileAt.of_extends (hf : FileAt root p content)
    (h : Extends root root') : FileAt root' p content := by
  refine hf.congr fun q hq hhid => ?_
  obtain ⟨d, hd, -, -⟩ := get?_of_visible hf.2 hq hhid
  have hl := label?_of_get? hd
  rw [h q _ hl, hl]

theorem FileAt.on_way (hf : FileAt root p content) (hq : q <+: p) (hhid : ¬ Hidden root q) :
    ∃ d, root.get? q = some d ∧ (q ≠ [] → d.label.kind.target? = none) ∧
      visible d (p.drop q.length) = some (.file content) :=
  get?_of_visible hf.2 hq hhid

theorem FileAt.not_below_empty {d : FSNode} (hf : FileAt root p content) (hq : q <+: p)
    (hhid : ¬ Hidden root q) (hd : root.get? q = some d) (hk : d.label.kind = .directory)
    (hc : d.children = []) (hm : d.label.mount = none) : False := by
  obtain ⟨d', hd', -, hvis⟩ := hf.on_way hq hhid
  rw [hd] at hd'
  cases hd'
  cases hrest : p.drop q.length with
  | nil =>
      rw [hrest, visible_nil hm, hk] at hvis
      cases hvis
  | cons n rest =>
      rw [hrest, visible_cons hm, child?, hc] at hvis
      cases hvis

end VirtualFS

end Tabnode
