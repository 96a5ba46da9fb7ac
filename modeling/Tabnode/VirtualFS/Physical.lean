import Tabnode.VirtualFS.Lookup

/-!
# Places and their paths

A place is named by the path of its names (`absolute`), and by no other where its
first name is not empty (`absolute_inj`). `subtreePaths` lists the paths of the
places below one (`mem_subtreePaths`). In a tree with no mounts a place is looked up
without a link on the way, so it can always be reported (`lstatNode_of_directories`).
-/

namespace Tabnode

namespace VirtualFS

open LabelTree List Option

/-! ## Paths of places -/

variable {N : Place}

theorem joinSlash_append_ne_nil (h : joinSlash N ≠ []) (r : List Name) :
    joinSlash (N ++ r) ≠ [] := by
  induction r generalizing N with
  | nil => rwa [append_nil]
  | cons k r ih =>
      have hassoc : N ++ k :: r = (N ++ [k]) ++ r := by simp
      rw [hassoc]
      apply ih
      rw [joinSlash_append_singleton]
      split
      · next hN =>
          rw [hN] at h
          exact absurd rfl h
      · simp

theorem joinSlash_ne_nil_of_valid (hv : ∀ n ∈ N, ValidName n) (hN : N ≠ []) : joinSlash N ≠ [] :=
  fun h => hN ((joinSlash_eq_nil_iff hv).1 h)

variable {q : Place}

theorem absolute_inj {p : Place} (hp : ∀ n ∈ p, '/' ∉ n) (hq : ∀ n ∈ q, '/' ∉ n)
    (hne : joinSlash p ≠ []) (h : absolute p = absolute q) : p = q := by
  rw [absolute, absolute, List.cons.injEq] at h
  have hsplit : ∀ l : List Name, (∀ n ∈ l, '/' ∉ n) → joinSlash l ≠ [] →
      (joinSlash l).splitOn '/' = l := by
    intro l hl hlne
    apply splitOn_intercalate
    · exact hl
    · rintro rfl
      exact hlne rfl
  rw [← hsplit p hp hne, h.2, hsplit q hq (h.2 ▸ hne)]

theorem childPath_absolute (h : joinSlash N ≠ []) (k : Name) :
    childPath (absolute N) k = absolute (N ++ [k]) := by
  have hne : absolute N ≠ ['/'] := by
    rw [absolute, Ne, List.cons.injEq]
    exact fun heq => h heq.2
  have hN : N ≠ [] := by
    rintro rfl
    exact h rfl
  rw [childPath, if_neg hne, absolute, absolute, joinSlash_append_singleton, if_neg hN]
  rfl

theorem childrenPaths_eq (path : Str) (children : List (Name × FSNode)) :
    childrenPaths path children =
      children.flatMap fun c => subtreePaths (childPath path c.1) c.2 := by
  induction children with
  | nil => rfl
  | cons c children ih => rw [childrenPaths, ih, flatMap_cons]

variable {node : FSNode}

/-- The paths in a subtree: its own, and those in the subtrees of its children. -/
theorem mem_subtreePaths_iff (hs : Sound node) {path p : Str} : p ∈ subtreePaths path node ↔
      p = path ∨ ∃ k c, node.child? k = some c ∧ p ∈ subtreePaths (childPath path k) c := by
  have hroot := hs [] node rfl
  have hchild : ∀ k c, (k, c) ∈ node.children ↔ node.child? k = some c := fun k c =>
    ⟨OrderedMap.find_of_mem hroot.1.nodup, OrderedMap.mem_of_find⟩
  obtain ⟨e, children⟩ := node
  rw [subtreePaths, mem_cons]
  apply or_congr_right
  constructor
  · intro hp
    split at hp
    · rw [childrenPaths_eq, mem_flatMap] at hp
      obtain ⟨⟨k, c⟩, hc, hp⟩ := hp
      exact ⟨k, c, (hchild k c).1 hc, hp⟩
    · cases hp
  · rintro ⟨k, c, hc, hp⟩
    have hdir : e.kind = Kind.directory :=
      hs.directory_of_child (get?_nil (.node e children)) hc
    rw [if_pos hdir, childrenPaths_eq, mem_flatMap]
    exact ⟨(k, c), (hchild k c).2 hc, hp⟩

theorem Sound.child {c : FSNode} (hs : Sound node) {k : Name}
    (hc : node.child? k = some c) : Sound c := by
  refine AllNodes.get? hs (p := [k]) ?_
  rw [get?_cons, hc]
  rfl

theorem Sound.entryName (hs : Sound node) (hq : node.label? q ≠ none) : ∀ n ∈ q, EntryName n := by
  induction q generalizing node with
  | nil => simp
  | cons k q ih =>
      rw [label?_cons] at hq
      cases hc : node.child? k with
      | none => simp [hc] at hq
      | some c =>
          rw [hc] at hq
          intro n hn
          rcases mem_cons.1 hn with rfl | hn
          · exact (hs [] node rfl).1.names_ok n (OrderedMap.mem_keys_iff.2 ⟨c, hc⟩)
          · exact ih (hs.child hc) hq n hn

theorem mem_subtreePaths (hs : Sound node) (hN : joinSlash N ≠ []) {p : Str} :
    p ∈ subtreePaths (absolute N) node ↔
      ∃ r, node.label? r ≠ none ∧ p = absolute (N ++ r) := by
  constructor
  · intro hp
    induction hsize : sizeOf node using Nat.strong_induction_on generalizing node N with
    | _ size ih =>
        subst hsize
        rcases (mem_subtreePaths_iff hs).1 hp with rfl | ⟨k, c, hc, hp⟩
        · exact ⟨[], by simp, by rw [append_nil]⟩
        · rw [childPath_absolute hN] at hp
          obtain ⟨r, hr, rfl⟩ := ih _ (sizeOf_child_lt hc) (hs.child hc)
            (joinSlash_append_ne_nil hN [k]) hp rfl
          refine ⟨k :: r, ?_, by simp⟩
          rw [label?_cons, hc]
          exact hr
  · rintro ⟨r, hr, rfl⟩
    induction r generalizing node N with
    | nil => exact (mem_subtreePaths_iff hs).2 (.inl (by rw [append_nil]))
    | cons k r ih =>
        rw [label?_cons] at hr
        cases hc : node.child? k with
        | none => simp [hc] at hr
        | some c =>
            rw [hc] at hr
            have hp := ih (hs.child hc) (joinSlash_append_ne_nil hN [k]) hr
            rw [append_assoc, singleton_append] at hp
            rw [← childPath_absolute hN] at hp
            exact (mem_subtreePaths_iff hs).2 (.inr ⟨k, c, hc, hp⟩)

/-! ## Lookups of places -/

/-- A tree without mounts, whose entries all have a name. -/
structure Plain (root : FSNode) : Prop where
  unmounted : ∀ q e, root.label? q = some e → e.mount = none
  named : ∀ q, root.label? q ≠ none → ∀ n ∈ q, ValidName n

variable {root : FSNode}

theorem Sound.directory_above (hs : Sound root) {p : Place} {e : Entry}
    (hp : root.label? p = some e) (hq : root.label? q ≠ none) (hpre : p <+: q) (hne : p ≠ q) :
    e.kind = Kind.directory := by
  obtain ⟨r, rfl⟩ := hpre
  cases r with
  | nil => exact absurd (append_nil p).symm hne
  | cons k r =>
      obtain ⟨d, hd, rfl⟩ := label?_eq_some_iff.1 hp
      rw [label?_append, hd, bind_some, label?_cons] at hq
      cases hc : d.child? k with
      | none => simp [hc] at hq
      | some c => exact hs.directory_of_child hd hc

/-- Without mounts and with directories on the way, a walk meets no link. -/
theorem link?_walkNode_of_directories {names segments : List Name}
    (hm : ∀ q e, node.label? q = some e → e.mount = none)
    (h : ∀ p e, p <+: segments → p ≠ segments → p ≠ [] → node.label? p = some e →
      e.kind = Kind.directory) :
    (walkNode false names (.here names node) none segments).link? = none := by
  induction segments generalizing node names with
  | nil => rfl
  | cons segment rest ih =>
      rw [walkNode]
      split
      · rfl
      · simp only [nextNode]
        cases hc : node.child? segment with
        | none => rfl
        | some c =>
            have hlabel : ∀ q, node.label? (segment :: q) = c.label? q := by
              intro q
              rw [label?_cons, hc]
              rfl
            have hmount : c.label.mount = none := hm [segment] c.label (hlabel [])
            have hrest : (walkNode false (names ++ [segment]) (.here (names ++ [segment]) c)
                none rest).link? = none := by
              apply ih
              · intro q e he
                exact hm (segment :: q) e ((hlabel q).trans he)
              · intro p e hp hne _ he
                refine h (segment :: p) e (prefix_cons_inj segment |>.2 hp) ?_ (by simp)
                  ((hlabel p).trans he)
                rw [Ne, List.cons.injEq]
                exact fun heq => hne heq.2
            simp only [map_some, Found.kind_here, Bool.false_or]
            split
            · next target _ ht hlast =>
                -- a link that is not the last name stands above nothing
                have hne : rest ≠ [] := by
                  rintro rfl
                  cases hlast
                have hdir := h [segment] c.label ⟨rest, rfl⟩ (by simp [hne.symm]) (by simp)
                  (hlabel [])
                rw [hdir] at ht
                cases ht
            · simpa [enter, Found.mount, hmount] using hrest

/-- Without mounts, a place with directories above it can be looked up. -/
theorem lstatNode_of_directories (hm : Plain root) (hv : ∀ n ∈ q, ValidName n)
    (h : ∀ p e, p <+: q → p ≠ q → p ≠ [] → root.label? p = some e →
      e.kind = Kind.directory) : ∃ r, lstatNode root (absolute q) = .ok r := by
  rw [lstatNode, linkBound, substrateNode, getPathSegments_absolute hv]
  have hlink : (walkNode false [] (.here [] root) none q).link? = none :=
    link?_walkNode_of_directories hm.unmounted h
  cases hw : walkNode false [] (.here [] root) none q with
  | found _ | missing => exact ⟨_, rfl⟩
  | link linkPath target rest =>
      rw [hw] at hlink
      cases hlink

theorem lstatNode_place (hs : Sound root) (hm : Plain root)
    (hq : root.label? q ≠ none) : ∃ r, lstatNode root (absolute q) = .ok r :=
  lstatNode_of_directories hm (hm.named q hq)
    fun _ _ hp hne _ he => hs.directory_above he hq hp hne

/-- Without mounts, every directory that is made can be reported. -/
theorem Plain.reported {env : Env} (hs : Sound root) (hm : Plain root) {base : Place}
    {missing : List Name} (h : IsDestination root base missing) :
    ¬ Unreported env root base missing := by
  rintro ⟨-, k, -, e, he⟩
  obtain ⟨d, hd, hk, -⟩ := h.directory
  have hlook : ∃ r, lstatNode root (absolute (base ++ missing.take (k + 1))) = .ok r := by
    refine lstatNode_of_directories hm (h.take (k + 1)).valid fun p e hp _ _ he => ?_
    by_cases hpeq : p = base
    · rw [hpeq, label?_of_get? hd, some_inj] at he
      rw [← he]
      exact hk
    · rcases prefix_or_prefix_of_prefix hp (prefix_append base _) with hpb | hbp
      · refine hs.directory_above he ?_ hpb hpeq
        rw [label?_of_get? hd]
        simp
      · -- nothing stands where directories are missing
        rw [(h.take (k + 1)).label?_eq_none hbp hp hpeq] at he
        cases he
  obtain ⟨r, hr⟩ := hlook
  rw [hr] at he
  cases he

theorem Plain.here (hm : Plain root) {f : Found} (h : f.In root) :
    ∃ place node, f = .here place node ∧ root.get? place = some node := by
  cases f with
  | here place node => exact ⟨place, node, rfl, h.1⟩
  | mounted place below answer =>
      obtain ⟨e, tree, he, hmount, -⟩ := h
      rw [hm.unmounted place e he] at hmount
      cases hmount

/-! ## Edits of plain trees -/

theorem label?_leaf (h : node.children = []) {r : List Name}
    (hr : node.label? r ≠ none) : r = [] := by
  cases r with
  | nil => rfl
  | cons k r =>
      rw [label?_cons, child?, h] at hr
      exact absurd rfl hr

theorem Plain.no_slash (hm : Plain root) (hq : root.label? q ≠ none) : ∀ n ∈ q, '/' ∉ n :=
  fun n hn => (hm.named q hq n hn).2.1

variable {dir : Place} {name : Name}

theorem Plain.put (hm : Plain root) (hmount : ∀ r e, node.label? r = some e → e.mount = none)
    (hnames : ∀ r, node.label? r ≠ none → ∀ n ∈ dir ++ [name] ++ r, ValidName n) :
    Plain (root.put dir name node) := by
  cases hd : root.get? dir with
  | none =>
      have hsame := label?_put_of_absent hd name node
      exact ⟨fun q e he => hm.unmounted q e (hsame q ▸ he),
        fun q hq => hm.named q (hsame q ▸ hq)⟩
  | some d =>
      have hdrop : ∀ r, (dir ++ [name] ++ r).drop (dir.length + 1) = r := by
        intro r
        rw [← length_singleton (a := name), ← length_append, drop_left]
      constructor
      · intro q e he
        rw [label?_put hd] at he
        split at he
        · exact hmount _ e he
        · exact hm.unmounted q e he
      · intro q hq
        rw [label?_put hd] at hq
        split at hq
        · next hpre =>
            obtain ⟨r, rfl⟩ := hpre
            rw [hdrop] at hq
            exact hnames r hq
        · exact hm.named q hq

/-- An entry with nothing below it and a name of its own keeps a tree plain. -/
theorem Plain.put_leaf (hm : Plain root) (hc : node.children = [])
    (hmount : node.label.mount = none)
    (hv : ∀ n ∈ dir ++ [name], ValidName n) : Plain (root.put dir name node) := by
  refine hm.put (fun r e he => ?_) fun r hr => ?_
  · have hr := label?_leaf hc (r := r) (by rw [he]; simp)
    rw [hr, label?_nil, some_inj] at he
    rw [← he]
    exact hmount
  · rw [label?_leaf hc hr, append_nil]
    exact hv

theorem Plain.remove (hm : Plain root) (place : Place) (name : Name) :
    Plain (root.remove place name) := by
  have hsub : ∀ q e, (root.remove place name).label? q = some e → root.label? q = some e := by
    intro q e he
    rw [label?_remove] at he
    split at he
    · cases he
    · exact he
  refine ⟨fun q e he => hm.unmounted q e (hsub q e he), fun q hq => ?_⟩
  obtain ⟨e, he⟩ := ne_none_iff_exists'.1 hq
  refine hm.named q ?_
  rw [hsub q e he]
  simp

theorem Plain.assign (hm : Plain root) (place : Place) (g : Attrs → Attrs) :
    Plain (assign place g root) := by
  constructor
  · intro q e he
    rw [VirtualFS.assign, label?_relabel] at he
    split at he
    · obtain ⟨e', he', rfl⟩ := map_eq_some_iff.1 he
      exact hm.unmounted q e' he'
    · exact hm.unmounted q e he
  · intro q hq
    refine hm.named q ?_
    rw [VirtualFS.assign, label?_relabel] at hq
    split at hq
    · rwa [Ne, map_eq_none_iff] at hq
    · exact hq

theorem Plain.foundAssign (hm : Plain root) (f : Found) (g : Attrs → Attrs) :
    Plain (f.assign g root) := by
  cases f with
  | mounted place below answer => exact hm
  | here place node => exact hm.assign place g

theorem Plain.withDirectories (now : JsNumber) (hm : Plain root) {base : Place}
    {missing : List Name} (h : IsDestination root base missing) :
    Plain (withDirectories now root base missing) := by
  obtain ⟨d, hd, -, hmissing⟩ := h.directory
  constructor
  · intro q e he
    rw [label?_withDirectories now hd hmissing] at he
    split at he
    · cases he
      rfl
    · exact hm.unmounted q e he
  · intro q hq
    rw [label?_withDirectories now hd hmissing] at hq
    split at hq
    · next hmade => exact fun n hn => h.valid n (hmade.2.1.subset hn)
    · exact hm.named q hq

theorem Plain.withFile (now : JsNumber) (hm : Plain root) (hv : ∀ n ∈ dir ++ [name], ValidName n)
    (data : List UInt8) : Plain (withFile now root dir name data) := by
  rw [VirtualFS.withFile]
  split
  · exact hm.assign _ _
  · exact hm.put_leaf rfl rfl hv

theorem plain_new (now : JsNumber) : Plain (State.new now).root := by
  have hempty : (State.new now).root.children = [] := rfl
  constructor
  · intro q e he
    have hq := label?_leaf hempty (r := q) (by rw [he]; simp)
    rw [hq] at he
    cases he
    rfl
  · intro q hq n hn
    rw [label?_leaf hempty hq] at hn
    cases hn

/-! ## Places of plain trees are found -/

end VirtualFS

end Tabnode
