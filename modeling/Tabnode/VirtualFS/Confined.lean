import Tabnode.VirtualFS.Directories
import Tabnode.VirtualFS.Invariant

/-!
# Calls confined to a place

`Confined` says what calls at or below a place keep of the tree: every other entry,
but for directories made on the way to the place. Such calls do not move the place:
names that led to the directory above it still do (`Confined.leads`), and a lookup
that comes out elsewhere came out there before (`Confined.getNode`). What is left to
show of a call is where its edits are made.
-/

namespace Tabnode

namespace VirtualFS

open LabelTree List Option

/-- The places calls may work at: those at or below some, and those on the way there. -/
structure Region where
  inside : Place → Prop
  way : Place → Prop
  inside_append : ∀ q r, inside q → inside (q ++ r)

def Region.of (above : Place) (name : Name) : Region where
  inside q := above ++ [name] <+: q
  way q := q <+: above
  inside_append _ _ h := h.trans (prefix_append _ _)

def Region.none : Region where
  inside _ := False
  way _ := False
  inside_append _ _ h := h

def NoLinks (root : FSNode) (inside : Place → Prop) : Prop :=
  ∀ q e, inside q → root.label? q = some e → e.kind.target? = none ∧
    ∀ tree, e.mount = some tree → ∀ path answer, tree.node path = some answer →
      answer.label.kind.target? = none

def MadeOnWay (before root : FSNode) (region : Region) (q : Place) : Prop :=
  region.way q ∧ before.label? q = none ∧
    ∃ e, root.label? q = some e ∧ e.kind = .directory ∧ e.mount = none

def SameStanding (e e' : Entry) : Prop := e'.kind = e.kind ∧ e'.mount = e.mount

/-- What calls confined to a region, and to some entries beside it, keep of the tree
before them. -/
structure Confined (before root : FSNode) (region : Region) (beside : Place → Prop) : Prop where
  outside : ∀ q, ¬ region.inside q → root.label? q = before.label? q ∨
    (beside q ∧ ∃ e e', before.label? q = some e ∧ root.label? q = some e' ∧ SameStanding e e') ∨
      MadeOnWay before root region q
  links : NoLinks root region.inside

variable {root : FSNode} {region : Region}

theorem Confined.refl (beside : Place → Prop)
    (hlinks : NoLinks root region.inside) : Confined root root region beside :=
  ⟨fun _ _ => .inl rfl, hlinks⟩

variable {before : FSNode} {beside : Place → Prop} {q : Place}

/-- An entry outside stands as it stood, or is a directory made on the way. -/
theorem Confined.standing (h : Confined before root region beside) (hq : ¬ region.inside q) :
    (before.label? q = none ∧ root.label? q = none) ∨
      (∃ e e', before.label? q = some e ∧ root.label? q = some e' ∧ SameStanding e e') ∨
        MadeOnWay before root region q := by
  rcases h.outside q hq with hsame | hbeside | hmade
  · cases he : before.label? q with
    | none => exact .inl ⟨rfl, hsame.trans he⟩
    | some e => exact .inr (.inl ⟨e, e, rfl, hsame.trans he, rfl, rfl⟩)
  · exact .inr (.inl hbeside.2)
  · exact .inr (.inr hmade)

variable {above : Place}

theorem not_inside_of_isPrefix (h : q <+: above) (name : Name) :
    ¬ (Region.of above name).inside q := by
  intro hq
  have hlength := (hq.trans h).length_le
  simp at hlength

/-! ## The place is not moved -/

variable {name : Name} {names rest : List Name}

/-- On the way to the place nothing stands but what was made there. -/
theorem Confined.leads_made (h : Confined before root (.of above name) beside)
    (habove : names ++ rest = above)
    (habsent : before.label? names = none) : Leads root names rest above := by
  induction rest generalizing names with
  | nil =>
      rw [← habove, append_nil]
      exact .nil
  | cons segment rest ih =>
      have hassoc : (names ++ [segment]) ++ rest = above := by simpa using habove
      have hnone : before.label? (names ++ [segment]) = none :=
        label?_eq_none_iff.2 (get?_eq_none_of_isPrefix
          (prefix_append names [segment]) (label?_eq_none_iff.1 habsent))
      rcases h.standing (not_inside_of_isPrefix ⟨rest, hassoc⟩ name) with
        ⟨-, hsame⟩ | ⟨e, e', he, -⟩ | ⟨-, -, e, he, hk, -⟩
      · rw [← habove]
        exact .absent hsame
      · rw [hnone] at he
        cases he
      · exact .directory he hk (ih hassoc hnone)

variable {place : Place}

theorem Confined.leads (h : Confined before root (.of above name) beside)
    (hlinks : NoLinks before (Region.of above name).inside) (hleads : Leads before names rest place)
    (hplace : place = above) : Leads root names rest place := by
  induction hleads with
  | nil => exact .nil
  | @absent names rest segment hnone =>
      have hprefix : names ++ [segment] <+: above := ⟨rest, by simp [← hplace]⟩
      rcases h.standing (not_inside_of_isPrefix hprefix name) with
        ⟨-, hsame⟩ | ⟨e, e', he, -⟩ | ⟨-, -, e, he, hk, -⟩
      · exact .absent hsame
      · rw [hnone] at he
        cases he
      · rw [hplace]
        exact .directory he hk (h.leads_made (by simp [← hplace]) hnone)
  | @file names segment e content hlabel hk =>
      have hprefix : names ++ [segment] <+: above := hplace ▸ prefix_rfl
      rcases h.standing (not_inside_of_isPrefix hprefix name) with
        ⟨hnone, -⟩ | ⟨d, d', hd, hd', hkind, -⟩ | ⟨-, hnone, -⟩
      · simp [hlabel] at hnone
      · rw [hlabel, some_inj] at hd
        exact .file hd' (by rw [hkind, ← hd, hk])
      · simp [hlabel] at hnone
  | @directory names rest segment e place hlabel hk hrest ih =>
      have hbelow : ¬ (Region.of above name).inside (names ++ [segment]) := by
        intro hin
        have hplace' := hrest.eq_append fun q e hq he =>
          (hlinks q e (hin.trans hq) he).1
        refine not_inside_of_isPrefix (prefix_refl above) name (hin.trans ⟨rest, ?_⟩)
        rw [← hplace', hplace]
      rcases h.standing hbelow with
        ⟨hnone, -⟩ | ⟨d, d', hd, hd', hkind, -⟩ | ⟨-, hnone, -⟩
      · simp [hlabel] at hnone
      · rw [hlabel, some_inj] at hd
        exact .directory hd' (by rw [hkind, ← hd, hk]) (ih hplace)
      · simp [hlabel] at hnone
  | @link names rest segment e target place hlabel hk hrest ih =>
      have hbelow : ¬ (Region.of above name).inside (names ++ [segment]) := by
        intro hin
        have hnone := (hlinks _ e hin hlabel).1
        rw [hk] at hnone
        cases hnone
      rcases h.standing hbelow with
        ⟨hnone, -⟩ | ⟨d, d', hd, hd', hkind, -⟩ | ⟨-, hnone, -⟩
      · simp [hlabel] at hnone
      · rw [hlabel, some_inj] at hd
        exact .link hd' (by rw [hkind, ← hd, hk]) (ih hplace)
      · simp [hlabel] at hnone

/-! ## A lookup comes out where it came out before -/

/-- How a walk ends, to how the walk along the same names ended before. -/
inductive Ends (before : FSNode) (region : Region) : Walk → Walk → Prop where
  | link {linkPath target : Str} {rest : List Name} :
      Ends before region (.link linkPath target rest) (.link linkPath target rest)
  | same {q : Place} {node node' : FSNode} :
      Ends before region (.found (.here q node)) (.found (.here q node'))
  | inside {q : Place} {node : FSNode} {walk : Walk} (h : region.inside q) :
      Ends before region walk (.found (.here q node))
  | made {q : Place} {node : FSNode} {walk : Walk} (h : region.way q)
      (hnone : before.label? q = none) : Ends before region walk (.found (.here q node))
  | missing {walk : Walk} : Ends before region walk .missing
  | answered {place : Place} {below : List Name} {answer : Answer} {walk : Walk} :
      Ends before region walk (.found (.mounted place below answer))

variable {walk : Walk} {current : Found}

theorem ends_of_mounted {tree : MountedTree} {at_ : ℕ}
    (htree : ∀ path answer, tree.node path = some answer → answer.label.kind.target? = none)
    (hrest : rest ≠ []) :
    Ends before region walk (walkNode true names current (some (tree, at_)) rest) := by
  induction rest generalizing names current with
  | nil => exact absurd rfl hrest
  | cons segment rest ih =>
      rw [walkNode]
      split
      · exact .missing
      · simp only [nextNode]
        cases hans : tree.node (absolute ((names ++ [segment]).drop (at_ + 1))) with
        | none => exact .missing
        | some answer =>
            simp only [map_some, Found.kind_mounted, htree _ _ hans]
            by_cases hnil : rest = []
            · subst hnil
              exact .answered
            · exact ih hnil

/-- A walk that enters a child goes on in the tree mounted there, or in the tree. -/
theorem enter_here (index : ℕ) (names : List Name) (child : FSNode) :
    enter none index names (.here names child) =
      match child.label.mount with
      | none => (.here names child, none)
      | some tree => ((tree.node ['/']).elim (.here names child) (.mounted names []), some (tree, index)) := by
  cases hm : child.label.mount <;> simp [enter, Found.mount, hm]

variable {node : FSNode}

theorem ends_of_inside (hlinks : NoLinks root region.inside) (hnames : region.inside names)
    (hnode : root.get? names = some node) (index : ℕ) : Ends before region walk
      (walkNode true names (enter none index names (.here names node)).1
        (enter none index names (.here names node)).2 rest) := by
  induction rest generalizing names node index with
  | nil =>
      rw [enter_here]
      cases hm : node.label.mount with
      | none => exact .inside hnames
      | some tree =>
          cases hans : tree.node ['/'] with
          | none =>
              simp only [hans]
              exact .inside hnames
          | some answer =>
              simp only [hans]
              exact .answered
  | cons segment rest ih =>
      rw [enter_here]
      cases hm : node.label.mount with
      | some tree =>
          exact ends_of_mounted ((hlinks names _ hnames (label?_of_get? hnode)).2 tree hm)
            (by simp)
      | none =>
          simp only
          rw [walkNode]
          split
          · exact .missing
          · simp only [nextNode]
            cases hc : node.child? segment with
            | none => exact .missing
            | some child =>
                have hget : root.get? (names ++ [segment]) = some child := by
                  rw [get?_append_singleton, hnode]
                  exact hc
                have hbelow := region.inside_append names [segment] hnames
                simp only [map_some, Found.kind_here,
                  (hlinks _ _ hbelow (label?_of_get? hget)).1]
                exact ih hbelow hget _

/-- A walk that has come to a directory made on the way to the place. -/
theorem Confined.ends_of_made (h : Confined before root region beside)
    (hnode : root.get? names = some node) (hmade : MadeOnWay before root region names) :
    Ends before region walk (walkNode true names (.here names node) none rest) := by
  induction rest generalizing names node with
  | nil => exact .made hmade.1 hmade.2.1
  | cons segment rest ih =>
      rw [walkNode]
      split
      · exact .missing
      · simp only [nextNode]
        cases hc : node.child? segment with
        | none => exact .missing
        | some child =>
            have hget : root.get? (names ++ [segment]) = some child := by
              rw [get?_append_singleton, hnode]
              exact hc
            have hlabel := label?_of_get? hget
            simp only [map_some]
            by_cases hbelow : region.inside (names ++ [segment])
            · simp only [Found.kind_here, (h.links _ _ hbelow hlabel).1]
              exact ends_of_inside h.links hbelow hget _
            · have hnone : before.label? (names ++ [segment]) = none :=
                label?_eq_none_iff.2 (get?_eq_none_of_isPrefix
                  (prefix_append names [segment]) (label?_eq_none_iff.1 hmade.2.1))
              rcases h.standing hbelow with ⟨-, hsame⟩ | ⟨e, e', he, -⟩ | hmade'
              · rw [hlabel] at hsame
                cases hsame
              · rw [hnone] at he
                cases he
              · obtain ⟨e, he, hk, hm⟩ := hmade'.2.2
                rw [hlabel, some_inj] at he
                have hkind : child.label.kind.target? = none := by
                  rw [he, hk]
                  rfl
                have hmount : child.label.mount = none := by rw [he, hm]
                simp only [Found.kind_here, hkind, enter_here, hmount]
                exact ih hget hmade'

/-- Two walks that have come to one node, as it is and as it was. -/
inductive InStep (before root : FSNode) (names : List Name) : Found → Found → Mounted → Prop where
  | tree {node node' : FSNode} (h : before.get? names = some node)
      (h' : root.get? names = some node') (hlabel : SameStanding node.label node'.label) :
      InStep before root names (.here names node) (.here names node') none
  | mountPoint {node node' : FSNode} {mounting : MountedTree × ℕ} (hlabel : SameStanding node.label node'.label) :
      InStep before root names (.here names node) (.here names node') (some mounting)
  | answered {place : Place} {below : List Name} {answer : Answer} {mounting : MountedTree × ℕ} :
      InStep before root names (.mounted place below answer) (.mounted place below answer)
        (some mounting)

theorem InStep.kind {current' : Found} {mounted : Mounted}
    (h : InStep before root names current current' mounted) : current'.kind = current.kind := by
  cases h with
  | tree _ _ hlabel => exact hlabel.1
  | mountPoint hlabel => exact hlabel.1
  | answered => rfl

theorem inStep_enter {child child' : FSNode} (h : before.get? names = some child)
    (h' : root.get? names = some child') (hlabel : SameStanding child.label child'.label)
    (index : ℕ) : InStep before root names (enter none index names (.here names child)).1
        (enter none index names (.here names child')).1
        (enter none index names (.here names child')).2 ∧
      (enter none index names (.here names child')).2 =
        (enter none index names (.here names child)).2 := by
  rw [enter_here, enter_here, hlabel.2]
  cases hm : child.label.mount with
  | none => exact ⟨.tree h h' hlabel, rfl⟩
  | some tree =>
      cases hans : tree.node ['/'] with
      | none =>
          simp only [hans]
          exact ⟨.mountPoint hlabel, trivial⟩
      | some answer =>
          simp only [hans]
          exact ⟨.answered, trivial⟩

/-- A walk ends as it ended before, or at the place, or on the way to it, or nowhere. -/
theorem Confined.ends (h : Confined before root region beside) {current' : Found}
    {mounted : Mounted} (hstep : InStep before root names current current' mounted) :
    Ends before region (walkNode true names current mounted rest)
      (walkNode true names current' mounted rest) := by
  induction rest generalizing names current current' mounted with
  | nil =>
      cases hstep with
      | tree | mountPoint => exact .same
      | answered => exact .answered
  | cons segment rest ih =>
      rw [walkNode, walkNode, hstep.kind]
      by_cases hk : current.kind ≠ Kind.directory
      · rw [if_pos hk, if_pos hk]
        exact .missing
      · rw [if_neg hk, if_neg hk]
        cases mounted with
        | some mounting =>
            -- both read the mounted tree
            obtain ⟨tree, at_⟩ := mounting
            simp only [nextNode]
            cases hans : tree.node (absolute ((names ++ [segment]).drop (at_ + 1))) with
            | none => exact .missing
            | some answer =>
                simp only [map_some, Found.kind_mounted]
                cases answer.label.kind.target? with
                | none => exact ih .answered
                | some target => exact .link
        | none =>
            cases hstep with
            | @tree node node' hget hget' hlabel =>
                have hchild : before.get? (names ++ [segment]) = node.child? segment := by
                  rw [get?_append_singleton, hget]
                  rfl
                have hchild' : root.get? (names ++ [segment]) = node'.child? segment := by
                  rw [get?_append_singleton, hget']
                  rfl
                simp only [nextNode]
                cases hc' : node'.child? segment with
                | none => exact .missing
                | some child' =>
                    rw [hc'] at hchild'
                    have hlabel' := label?_of_get? hchild'
                    by_cases hbelow : region.inside (names ++ [segment])
                    · simp only [map_some, Found.kind_here, (h.links _ _ hbelow hlabel').1]
                      exact ends_of_inside h.links hbelow hchild' _
                    · rcases h.standing hbelow with
                        ⟨-, hsame⟩ | ⟨e, e', he, he', hsame⟩ | hmade
                      · rw [hlabel'] at hsame
                        cases hsame
                      · obtain ⟨child, hc, rfl⟩ := label?_eq_some_iff.1 he
                        rw [hlabel', some_inj] at he'
                        subst he'
                        rw [hc] at hchild
                        simp only [← hchild, map_some, Found.kind_here, hsame.1]
                        cases child.label.kind.target? with
                        | some target => exact .link
                        | none =>
                            obtain ⟨hin, heq⟩ := inStep_enter hc hchild' hsame names.length
                            simp only [← heq]
                            exact ih hin
                      · obtain ⟨e, he, hkind, hmount⟩ := hmade.2.2
                        rw [hlabel', some_inj] at he
                        have htarget : child'.label.kind.target? = none := by
                          rw [he, hkind]
                          rfl
                        have hm : child'.label.mount = none := by rw [he, hmount]
                        simp only [map_some, Found.kind_here, htarget, enter_here, hm]
                        exact h.ends_of_made hchild' hmade

variable {path : Str}

/-- A lookup that comes out at a node of the tree comes out at the place, at a directory
made on the way to it, or where it came out before. -/
theorem Confined.getNode (h : Confined before root region beside)
    (hroot : SameStanding before.label root.label)
    (hget : VirtualFS.getNode root path = .ok (some (.here q node))) :
    region.inside q ∨ region.way q ∧ before.label? q = none ∨
      ∃ node', VirtualFS.getNode before path = .ok (some (.here q node')) := by
  rw [VirtualFS.getNode] at hget ⊢
  generalize linkBound = left at hget ⊢
  induction left generalizing path with
  | zero => cases hget
  | succ left ih =>
      rw [substrateNode] at hget ⊢
      have htop : InStep before root [] (.here [] before) (.here [] root) none :=
        .tree (get?_nil before) (get?_nil root) hroot
      have hends := @Confined.ends root region before beside _ (getPathSegments path) _ h _ _ htop
      generalize walkNode true [] (.here [] root) none (getPathSegments path) = walk at hget hends
      generalize walkNode true [] (.here [] before) none (getPathSegments path) = walk' at hends ⊢
      cases hends with
      | link => exact ih hget
      | same =>
          cases hget
          exact .inr (.inr ⟨_, rfl⟩)
      | inside hin =>
          cases hget
          exact .inl hin
      | made hmade hnone =>
          cases hget
          exact .inr (.inl ⟨hmade, hnone⟩)
      | missing | answered => cases hget

/-! ## Where a plan goes -/

/-- Where nothing is inside, names lead nowhere they did not lead before. -/
theorem Confined.leads_before (h : Confined before root .none beside)
    (hleads : Leads root names rest place) : Leads before names rest place := by
  have hstanding : ∀ q, (before.label? q = none ∧ root.label? q = none) ∨
      ∃ e e', before.label? q = some e ∧ root.label? q = some e' ∧ SameStanding e e' := by
    intro q
    rcases h.standing (q := q) id with hnone | hsame | hmade
    · exact .inl hnone
    · exact .inr hsame
    · exact absurd hmade.1 id
  induction hleads with
  | nil => exact .nil
  | @absent names rest segment hnone =>
      rcases hstanding (names ++ [segment]) with ⟨hbefore, -⟩ | ⟨e, e', -, he', -⟩
      · exact .absent hbefore
      · simp [hnone] at he'
  | @file names segment d content hlabel hk =>
      rcases hstanding (names ++ [segment]) with ⟨-, hnone⟩ | ⟨e, e', he, he', hkind, -⟩
      · simp [hlabel] at hnone
      · rw [hlabel, some_inj] at he'
        exact .file he (by rw [← hkind, ← he', hk])
  | @directory names rest segment d place hlabel hk hrest ih =>
      rcases hstanding (names ++ [segment]) with ⟨-, hnone⟩ | ⟨e, e', he, he', hkind, -⟩
      · simp [hlabel] at hnone
      · rw [hlabel, some_inj] at he'
        exact .directory he (by rw [← hkind, ← he', hk]) ih
  | @link names rest segment d target place hlabel hk hrest ih =>
      rcases hstanding (names ++ [segment]) with ⟨-, hnone⟩ | ⟨e, e', he, he', hkind, -⟩
      · simp [hlabel] at hnone
      · rw [hlabel, some_inj] at he'
        exact .link he (by rw [← hkind, ← he', hk]) ih

/-- From the directory above a place, names that go to the place lead to themselves. -/
theorem leads_below (hlinks : NoLinks root (Region.of above name).inside)
    (h : Leads root above (name :: rest) place) : place = above ++ name :: rest := by
  cases hlabel : root.label? (above ++ [name]) with
  | none => exact h.of_absent hlabel
  | some e =>
      cases hk : e.kind with
      | file content =>
          obtain ⟨rfl, rfl⟩ := h.of_file hlabel hk
          rfl
      | directory =>
          have hplace := (h.of_directory hlabel hk).eq_append fun q d hq hd => (hlinks q d hq hd).1
          rw [hplace]
          simp
      | symlink target =>
          have hnone := (hlinks _ e prefix_rfl hlabel).1
          rw [hk] at hnone
          cases hnone

/-- The region that a directory and a name in it stand for: where the directory's names
lead, or nowhere. -/
inductive Aims (before : FSNode) (names : List Name) (name : Name) : Region → Prop where
  | leads {above : Place} (h : Leads before [] names above) : Aims before names name (.of above name)
  | nowhere (h : ∀ above, ¬ Leads before [] names above) : Aims before names name .none

/-- The walk of `mkdir -p` along the directory's names, and on along the name, comes out
where they led before. -/
theorem Confined.destination (h : Confined before root region beside)
    (hlinks : NoLinks before region.inside) (haims : Aims before names name region)
    (hrest : rest.head?.all (· == name)) {stack : ℕ} (hpath : getPathSegments path = names ++ rest)
    {base : Place} {missing : List Name}
    (hdest : VirtualFS.destination root stack path = .ok (base, missing)) :
    ∃ above, region = .of above name ∧ base ++ missing = above ++ rest := by
  have hleads := leads_of_destination hdest
  rw [hpath] at hleads
  cases haims with
  | nowhere hnone =>
      obtain ⟨above, habove⟩ := hleads.first rfl
      exact absurd (h.leads_before habove) (hnone above)
  | @leads above hbefore =>
      have habove := h.leads hlinks hbefore rfl
      refine ⟨above, rfl, ?_⟩
      cases rest with
      | nil =>
          rw [append_nil] at hleads ⊢
          exact habove.unique hleads
      | cons c rest =>
          have hc : c = name := by simpa using hrest
          subst hc
          exact leads_below h.links (habove.after (cons_ne_nil _ _) hleads)

/-! ## The edits -/

theorem Confined.withDirectories (h : Confined before root region beside) {base : Place}
    {missing : List Name} (hdest : IsDestination root base missing)
    (hway : ∀ q, q <+: base ++ missing → ¬ region.inside q → region.way q) (now : JsNumber) :
    Confined before (withDirectories now root base missing) region beside := by
  obtain ⟨d, hd, -, hmissing⟩ := hdest.directory
  have hlabel := label?_withDirectories now hd hmissing
  constructor
  · intro q hq
    by_cases hmade : base <+: q ∧ q <+: base ++ missing ∧ q ≠ base
    · have hnone : root.label? q = none := by
        obtain ⟨⟨r, rfl⟩, hpre, hne⟩ := hmade
        cases r with
        | nil => exact absurd (append_nil base) hne
        | cons c r =>
            have hc : c ∈ missing.head? := by
              rw [prefix_append_right_inj] at hpre
              obtain ⟨t, rfl⟩ := hpre
              rfl
            refine label?_eq_none_iff.2 ?_
            rw [get?_append, hd, bind_some, get?_cons, hmissing c hc]
            rfl
      refine .inr (.inr ⟨hway q hmade.2.1 hq, ?_, ?_⟩)
      · rcases h.standing hq with ⟨hbefore, -⟩ | ⟨e, e', -, he', -⟩ | hmade'
        · exact hbefore
        · simp [hnone] at he'
        · exact hmade'.2.1
      · exact ⟨_, (hlabel q).trans (if_pos hmade), rfl, rfl⟩
    · have hsame : (VirtualFS.withDirectories now root base missing).label? q = root.label? q :=
        (hlabel q).trans (if_neg hmade)
      simpa only [MadeOnWay, hsame] using h.outside q hq
  · intro q e hq he
    rw [hlabel q] at he
    split at he
    · cases he
      exact ⟨rfl, fun tree htree => by cases htree⟩
    · exact h.links q e hq he

/-- An edit that keeps what is outside the region, and puts no link into it. -/
theorem Confined.edit {root' : FSNode} (h : Confined before root region beside)
    (houtside : ∀ q, ¬ region.inside q → root'.label? q = root.label? q)
    (hinside : ∀ q e, region.inside q → root'.label? q = some e → root.label? q = some e ∨
      e.kind.target? = none ∧ e.mount = none ∨ ∃ d, root.label? q = some d ∧
        e.kind.target? = none ∧ e.mount = d.mount) : Confined before root' region beside := by
  constructor
  · intro q hq
    simpa only [MadeOnWay, houtside q hq] using h.outside q hq
  · intro q e hq he
    rcases hinside q e hq he with hsame | ⟨hk, hm⟩ | ⟨d, hd, hk, hm⟩
    · exact h.links q e hq hsame
    · exact ⟨hk, fun tree htree => by simp [hm] at htree⟩
    · exact ⟨hk, fun tree htree => (h.links q d hq hd).2 tree (by rw [← hm, htree])⟩

theorem Confined.withFile (h : Confined before root region beside) {dir : Place}
    (hin : region.inside (dir ++ [name])) (now : JsNumber) (data : List UInt8) :
    Confined before (withFile now root dir name data) region beside := by
  have hbelow : ∀ q, ¬ region.inside q → ¬ dir ++ [name] <+: q := by
    rintro q hq ⟨r, rfl⟩
    exact hq (region.inside_append _ r hin)
  rw [VirtualFS.withFile]
  split
  · refine h.edit (fun q hq => ?_) fun q e hq he => ?_
    · rw [VirtualFS.assign, label?_relabel, if_neg]
      rintro rfl
      exact hbelow _ hq prefix_rfl
    · rw [VirtualFS.assign, label?_relabel] at he
      split at he
      · obtain ⟨d, hd, rfl⟩ := map_eq_some_iff.1 he
        exact .inr (.inr ⟨d, hd, rfl, rfl⟩)
      · exact .inl he
  · cases hdir : root.get? dir with
    | none =>
        have hsame := label?_put_of_absent hdir name (newFile data now)
        exact h.edit (fun q _ => hsame q) fun q e _ he => .inl ((hsame q).symm.trans he)
    | some d =>
        have hput := label?_put hdir name (newFile data now)
        refine h.edit (fun q hq => (hput q).trans (if_neg (hbelow q hq))) fun q e hq he => ?_
        rw [hput q] at he
        split at he
        · generalize q.drop (dir.length + 1) = r at he
          cases r with
          | nil =>
              cases he
              exact .inr (.inl ⟨rfl, rfl⟩)
          | cons c r => cases he
        · exact .inl he

/-- The mode of an entry in the region, beside it or on the way to it. -/
theorem Confined.setMode (h : Confined before root region beside) {p : Place}
    (hp : region.inside p ∨ (region.way p ∧ before.label? p = none) ∨
      beside p ∧ before.label? p ≠ none) (mode : ℕ) :
    Confined before (assign p (fun a => { a with mode := some mode }) root) region beside := by
  have hlabel : ∀ q, (assign p (fun a => { a with mode := some mode }) root).label? q =
      if p = q then (root.label? q).map fun e => { e with mode := some mode } else root.label? q :=
    fun q => label?_relabel root p _ q
  constructor
  · intro q hq
    by_cases hpq : p = q
    · subst hpq
      have hat := (hlabel p).trans (if_pos rfl)
      rcases h.standing hq with ⟨hnone, hnone'⟩ | ⟨e, e', he, he', hsame⟩ | ⟨hway, hnone, e, he, hk, hm⟩
      · exact .inl (by rw [hat, hnone', hnone]; rfl)
      · rcases hp with hin | ⟨-, hnone⟩ | ⟨hbeside, -⟩
        · exact absurd hin hq
        · simp [he] at hnone
        · refine .inr (.inl ⟨hbeside, e, { e' with mode := some mode }, he, ?_, hsame⟩)
          rw [hat, he']
          rfl
      · refine .inr (.inr ⟨hway, hnone, { e with mode := some mode }, ?_, hk, hm⟩)
        rw [hat, he]
        rfl
    · have hsame := (hlabel q).trans (if_neg hpq)
      simpa only [MadeOnWay, hsame] using h.outside q hq
  · intro q e hq he
    rw [hlabel q] at he
    split at he
    · obtain ⟨d, hd, rfl⟩ := map_eq_some_iff.1 he
      exact h.links q d hq hd
    · exact h.links q e hq he

/-! ## A call at a path -/

/-- The calls that make, write or change the mode of what is at or below a path, or make
the directory above it. -/
inductive Call.At (path : Str) : Call → Prop where
  | mkdir {dir : Str} (h : getPathSegments path <+: getPathSegments dir ∨
      getPathSegments dir = (getPathSegments path).dropLast) : Call.At path (.mkdir dir true)
  | writeFile {file : Str} {data : List UInt8} (h : getPathSegments path <+: getPathSegments file) :
      Call.At path (.writeFile file data)
  | chmod {entry : Str} {mode : ℤ} (h : getPathSegments path <+: getPathSegments entry) :
      Call.At path (.chmod entry mode)

def LookedUp (before : FSNode) (path : Str) (q : Place) : Prop :=
  ∃ entry node, getPathSegments path <+: getPathSegments entry ∧
    getNode before entry = .ok (some (.here q node))

theorem Confined.root_standing (h : Confined before root region beside)
    (haims : Aims before names name region) : SameStanding before.label root.label := by
  have hroot : ¬ region.inside [] := by
    cases haims with
    | leads => simp [Region.of]
    | nowhere => exact id
  rcases h.standing hroot with ⟨hnone, -⟩ | ⟨e, e', he, he', hsame⟩ | ⟨-, hnone, -⟩
  · cases hnone
  · cases he
    cases he'
    exact hsame
  · cases hnone

/-- On the way to a place below another is the way to that, or a place below it. -/
theorem way_of_isPrefix (hrest : rest.head?.all (· == name)) (h : q <+: above ++ rest)
    (hq : ¬ (Region.of above name).inside q) : (Region.of above name).way q := by
  rcases prefix_or_prefix_of_prefix h (prefix_append above rest) with habove | ⟨r, rfl⟩
  · exact habove
  · cases r with
    | nil => simp [Region.of]
    | cons c r =>
        rw [prefix_append_right_inj] at h
        obtain ⟨t, rfl⟩ := h
        have hc : c = name := by simpa using hrest
        subst hc
        exact absurd ⟨r, by simp⟩ hq

variable {s : State}

/-- An action that makes its directories along names that go to the place. -/
theorem Confined.act (h : Confined before s.root region beside) {env : Env} {a : Act}
    (hdest : IsDestination s.root a.base a.missing)
    (hplace : ∃ above name rest, region = .of above name ∧ rest.head?.all (· == name) ∧
      a.base ++ a.missing = above ++ rest) (hedit : ∀ root', Confined before root' region beside →
      Confined before (a.edit.tree env.now (a.base ++ a.missing) root') region beside) :
    Confined before ((VirtualFS.act env a).run s).2.root region beside := by
  obtain ⟨above, name, rest, rfl, hrest, hplace⟩ := hplace
  have hmake : ∀ k, Confined before
      (VirtualFS.withDirectories env.now s.root a.base (a.missing.take k)) (.of above name) beside := by
    intro k
    refine h.withDirectories (hdest.take k) (fun q hq => ?_) env.now
    refine way_of_isPrefix hrest (hq.trans ?_)
    rw [← hplace, prefix_append_right_inj]
    exact take_prefix k _
  rcases act_outcome env a s with hroot | ⟨e, k, -, -, hroot⟩
  · rw [hroot]
    refine hedit _ ?_
    simpa using hmake a.missing.length
  · rw [hroot]
    exact hmake (k + 1)

/-- The names of a path at or below another, after its directory. -/
theorem segments_below {entry : Str} (hpath : getPathSegments path = names ++ [name])
    (h : getPathSegments path <+: getPathSegments entry) :
    ∃ rest, getPathSegments entry = names ++ name :: rest := by
  obtain ⟨rest, hrest⟩ := h
  exact ⟨rest, by rw [← hrest, hpath, append_assoc, singleton_append]⟩

/-- A call at a path is confined to where the path's directory led. -/
theorem Confined.perform (h : Confined before s.root region (LookedUp before path))
    (hpath : getPathSegments path = names ++ [name]) (haims : Aims before names name region)
    (hlinks : NoLinks before region.inside) (hroot : before.label.kind = .directory) {c : Call}
    (hc : c.At path) (env : Env) :
    Confined before ((VirtualFS.perform env c).run s).2.root region (LookedUp before path) := by
  have hstanding := h.root_standing haims
  rw [perform_run env c s (hstanding.1.trans hroot)]
  cases hplan : plan env s.root c with
  | error e => exact h
  | ok a =>
      rw [carry_ok]
      have hdest := (plan_fits (hstanding.1.trans hroot) hplan).destination
      have hplanned := plan_cases hplan
      cases hc with
      | @mkdir dir hdir =>
          cases hplanned with
          | nothing => exact h
          | @directories _ base missing _ hd =>
              obtain ⟨rest, hrest, hsegments⟩ : ∃ rest, rest.head?.all (· == name) = true ∧
                  getPathSegments (normalizePath dir) = names ++ rest := by
                rw [getPathSegments_normalizePath]
                rcases hdir with hbelow | hparent
                · obtain ⟨rest, hrest⟩ := segments_below hpath hbelow
                  exact ⟨name :: rest, by simp, hrest⟩
                · exact ⟨[], rfl, by rw [hparent, hpath, dropLast_concat, append_nil]⟩
              obtain ⟨above, hregion, hplace⟩ := h.destination hlinks haims hrest hsegments hd
              exact h.act hdest ⟨above, name, rest, hregion, hrest, hplace⟩ fun _ h' => h'
          | write hw => cases hw
          | setContent hu => cases hu
          | add ha => cases ha
          | drop hd => cases hd
      | @writeFile file data hfile =>
          cases hplanned with
          | nothing => exact h
          | @write _ _ _ base missing hw _ hb hd =>
              cases hw
              obtain ⟨rest, hsegments⟩ := segments_below hpath hfile
              have hparent : getPathSegments (getParentPath file) =
                  names ++ (name :: rest).dropLast := by
                rw [getPathSegments_getParentPath, hsegments,
                  dropLast_append_of_ne_nil (cons_ne_nil _ _)]
              have hhead : (name :: rest).dropLast.head?.all (· == name) = true := by
                cases rest <;> simp
              obtain ⟨above, hregion, hplace⟩ := h.destination hlinks haims hhead hparent hd
              refine h.act hdest ⟨above, name, _, hregion, hhead, hplace⟩ fun root' h' => ?_
              refine h'.withFile ?_ env.now _
              have hbase : getBasename file = (name :: rest).getLast (cons_ne_nil _ _) := by
                rw [getBasename_eq, hsegments, getLast?_append_of_ne_nil _ (cons_ne_nil _ _),
                  getLast?_eq_getLast_of_ne_nil (cons_ne_nil _ _), getD_some]
              rw [hplace, hbase, append_assoc, dropLast_concat_getLast, hregion]
              exact ⟨rest, by simp⟩
          | setContent hu => cases hu
          | add ha => cases ha
          | drop hd => cases hd
      | @chmod entry mode hentry =>
          cases hplanned with
          | nothing => exact h
          | @setMode _ _ f _ hget =>
              rw [show ((VirtualFS.act env (.of (.setMode (normalizePath entry) f _))).run s).2.root =
                f.assign (fun a => { a with mode := some (mode % 4096).toNat }) s.root from
                root_finish env _ _ s]
              cases f with
              | mounted place below answer => exact h
              | here p node =>
                  refine h.setMode ?_ _
                  rcases h.getNode hstanding hget with hin | hmade | ⟨node', hbefore⟩
                  · exact .inl hin
                  · exact .inr (.inl hmade)
                  · refine .inr (.inr ⟨⟨entry, node', hentry, hbefore⟩, ?_⟩)
                    rw [label?_of_get? (getNode_in hbefore).1]
                    exact some_ne_none _
          | write hw => cases hw
          | setContent hu => cases hu
          | add ha => cases ha
          | drop hd => cases hd

/-- The calls at a path are together confined to where the path's directory led. -/
theorem Confined.forEach (h : Confined before s.root region (LookedUp before path))
    (hpath : getPathSegments path = names ++ [name]) (haims : Aims before names name region)
    (hlinks : NoLinks before region.inside) (hroot : before.label.kind = .directory)
    {cs : List Call} (hcs : ∀ c ∈ cs, c.At path) (env : Env) :
    Confined before ((Effect.forEach (VirtualFS.perform env) cs).run s).2.root region
      (LookedUp before path) := by
  induction cs generalizing s with
  | nil => exact h
  | cons c cs ih =>
      have hstep := h.perform hpath haims hlinks hroot (hcs c mem_cons_self) env
      rw [Effect.run_forEach_cons, Effect.run_bind]
      rcases hrun : (VirtualFS.perform env c).run s with ⟨_ | _, s'⟩
      · rwa [hrun] at hstep
      · rw [hrun] at hstep
        exact ih hstep fun c hc => hcs c (mem_cons_of_mem _ hc)

end VirtualFS

end Tabnode
