import Mathlib.Data.List.Infix
import Tabnode.Data.OrderedMap

/-!
# Labelled trees

A labelled tree has a label at each node and children under distinct names, in
insertion order. An address is the list of names from the root. `get? t p` is
the subtree at an address and `label? t p` its label: a tree is read as the
partial function `label? t`, and each edit of a tree is stated by what it does
to that function. Addresses an edit does not touch are read as before.
-/

namespace Tabnode

open OrderedMap

open List Option

/-- A label, and the children under their names. -/
inductive LabelTree (κ α : Type*) where
  | node (label : α) (children : List (κ × LabelTree κ α))

namespace LabelTree

def label {κ α : Type*} : LabelTree κ α → α
  | node a _ => a

def children {κ α : Type*} : LabelTree κ α → List (κ × LabelTree κ α)
  | node _ cs => cs

@[simp] theorem label_node {κ α : Type*} (a : α) (cs : List (κ × LabelTree κ α)) :
    (node a cs).label = a := rfl

@[simp] theorem children_node {κ α : Type*} (a : α)
    (cs : List (κ × LabelTree κ α)) : (node a cs).children = cs := rfl

def child? {κ α : Type*} [DecidableEq κ] (t : LabelTree κ α) (k : κ) :
    Option (LabelTree κ α) :=
  find k t.children

def get? {κ α : Type*} [DecidableEq κ] (t : LabelTree κ α) :
    List κ → Option (LabelTree κ α)
  | [] => some t
  | k :: p => (t.child? k).bind fun c => c.get? p

def label? {κ α : Type*} [DecidableEq κ] (t : LabelTree κ α) (p : List κ) :
    Option α :=
  (t.get? p).map label

@[simp] theorem get?_nil {κ α : Type*} [DecidableEq κ] (t : LabelTree κ α) :
    t.get? [] = some t := rfl

variable {κ α : Type*} [DecidableEq κ] {t c d : LabelTree κ α} {p q : List κ} {k : κ}

theorem get?_cons (t : LabelTree κ α) (k : κ)
    (p : List κ) : t.get? (k :: p) = (t.child? k).bind fun c => c.get? p := rfl

@[simp] theorem label?_nil (t : LabelTree κ α) :
    t.label? [] = some t.label := rfl

theorem get?_append (t : LabelTree κ α)
    (p q : List κ) : t.get? (p ++ q) = (t.get? p).bind fun c => c.get? q := by
  induction p generalizing t with
  | nil => rfl
  | cons k p ih =>
      rw [cons_append, get?_cons, get?_cons, bind_assoc]
      congr 1
      funext c
      exact ih c

theorem get?_append_singleton (t : LabelTree κ α) (p : List κ) (k : κ) :
    t.get? (p ++ [k]) = (t.get? p).bind fun c => c.child? k := by
  rw [get?_append]
  congr 1
  funext c
  rw [get?_cons]
  cases c.child? k <;> rfl

theorem label?_append (t : LabelTree κ α)
    (p q : List κ) : t.label? (p ++ q) = (t.get? p).bind fun c => c.label? q := by
  rw [label?, get?_append]
  cases t.get? p <;> rfl

theorem label?_cons (t : LabelTree κ α) (k : κ)
    (p : List κ) : t.label? (k :: p) = (t.child? k).bind fun c => c.label? p := by
  rw [label?, get?_cons]
  cases t.child? k <;> rfl

theorem label?_of_get? (h : t.get? p = some c) : t.label? p = some c.label := by
  rw [label?, h]
  rfl

theorem label?_eq_none_iff : t.label? p = none ↔ t.get? p = none := by
  rw [label?, map_eq_none_iff]

theorem label?_eq_some_iff {a : α} :
    t.label? p = some a ↔ ∃ c, t.get? p = some c ∧ c.label = a := by
  rw [label?, map_eq_some_iff]

theorem get?_eq_none_of_isPrefix (h : p <+: q) (hp : t.get? p = none) : t.get? q = none := by
  obtain ⟨r, rfl⟩ := h
  rw [get?_append, hp]
  rfl

theorem get?_isSome_of_isPrefix (h : p <+: q)
    (hq : t.get? q = some c) : ∃ d, t.get? p = some d := by
  rw [← ne_none_iff_exists']
  intro hp
  rw [get?_eq_none_of_isPrefix h hp] at hq
  cases hq

/-! ## Changing every label -/

mutual

def map {κ α β : Type*} (f : α → β) : LabelTree κ α → LabelTree κ β
  | node a cs => node (f a) (mapChildren f cs)

def mapChildren {κ α β : Type*} (f : α → β) :
    List (κ × LabelTree κ α) → List (κ × LabelTree κ β)
  | [] => []
  | (k, c) :: cs => (k, map f c) :: mapChildren f cs

end

variable {β : Type*}

omit [DecidableEq κ] in
theorem label_map (f : α → β) (t : LabelTree κ α) : (t.map f).label = f t.label := by
  cases t
  rfl

omit [DecidableEq κ] in
theorem keys_map (f : α → β) (t : LabelTree κ α) :
    keys (t.map f).children = keys t.children := by
  obtain ⟨a, cs⟩ := t
  show keys (mapChildren f cs) = keys cs
  induction cs with
  | nil => rfl
  | cons e cs ih =>
      obtain ⟨k, c⟩ := e
      simpa [mapChildren, OrderedMap.keys] using ih

theorem child?_map (f : α → β) (t : LabelTree κ α)
    (k : κ) : (t.map f).child? k = (t.child? k).map (map f) := by
  obtain ⟨a, cs⟩ := t
  show find k (mapChildren f cs) = (find k cs).map (map f)
  induction cs with
  | nil => rfl
  | cons e cs ih =>
      obtain ⟨k', c⟩ := e
      rw [mapChildren, find_cons, find_cons]
      split
      · rfl
      · exact ih

theorem get?_map (f : α → β) (t : LabelTree κ α)
    (p : List κ) : (t.map f).get? p = (t.get? p).map (map f) := by
  induction p generalizing t with
  | nil => rfl
  | cons k p ih =>
      rw [get?_cons, get?_cons, child?_map]
      cases t.child? k with
      | none => rfl
      | some c => exact ih c

/-! ## Edits -/

/-- Replace the subtree at an address by its image; an absent address is left
alone. -/
def update {κ α : Type*} [DecidableEq κ] (t : LabelTree κ α) :
    List κ → (LabelTree κ α → LabelTree κ α) → LabelTree κ α
  | [], f => f t
  | k :: p, f =>
      match t.child? k with
      | none => t
      | some c => node t.label (OrderedMap.set k (c.update p f) t.children)

/-- The tree with `c` under the name `k` of its root. -/
def withChild {κ α : Type*} [DecidableEq κ] (k : κ) (c t : LabelTree κ α) :
    LabelTree κ α :=
  node t.label (OrderedMap.set k c t.children)

/-- The tree without the child under the name `k` of its root. -/
def withoutChild {κ α : Type*} [DecidableEq κ] (k : κ) (t : LabelTree κ α) :
    LabelTree κ α :=
  node t.label (erase k t.children)

def put {κ α : Type*} [DecidableEq κ] (t : LabelTree κ α) (p : List κ) (k : κ)
    (c : LabelTree κ α) : LabelTree κ α :=
  t.update p (withChild k c)

def remove {κ α : Type*} [DecidableEq κ] (t : LabelTree κ α) (p : List κ)
    (k : κ) : LabelTree κ α :=
  t.update p (withoutChild k)

def relabel {κ α : Type*} [DecidableEq κ] (t : LabelTree κ α) (p : List κ)
    (f : α → α) : LabelTree κ α :=
  t.update p fun c => node (f c.label) c.children

@[simp] theorem child?_withChild (k j : κ) (c t : LabelTree κ α) :
    (withChild k c t).child? j = if k = j then some c else t.child? j :=
  find_set k j c t.children

@[simp] theorem child?_withoutChild (k j : κ) (t : LabelTree κ α) :
    (withoutChild k t).child? j = if k = j then none else t.child? j :=
  find_erase k j t.children

theorem update_cons_of_child (h : t.child? k = some c)
    (p : List κ) (f : LabelTree κ α → LabelTree κ α) :
    t.update (k :: p) f = withChild k (c.update p f) t := by
  rw [update, h]
  rfl

theorem update_cons_of_no_child (h : t.child? k = none)
    (p : List κ) (f : LabelTree κ α → LabelTree κ α) : t.update (k :: p) f = t := by
  rw [update, h]

theorem get?_update_append (t : LabelTree κ α) (p q : List κ) (f : LabelTree κ α → LabelTree κ α) :
    (t.update p f).get? (p ++ q) = (t.get? p).bind fun c => (f c).get? q := by
  induction p generalizing t with
  | nil => rfl
  | cons k p ih =>
      cases hc : t.child? k with
      | none =>
          rw [update_cons_of_no_child hc, cons_append, get?_cons, hc,
            get?_cons, hc]
          rfl
      | some c =>
          rw [update_cons_of_child hc, cons_append, get?_cons,
            child?_withChild, if_pos rfl, bind_some, ih c, get?_cons, hc]
          rfl

/-- Above the updated address the label stays; beside it the subtree stays. -/
theorem label?_update_of_not_isPrefix (t : LabelTree κ α)
    (h : ¬ p <+: q) (f : LabelTree κ α → LabelTree κ α) : (t.update p f).label? q = t.label? q := by
  induction p generalizing t q with
  | nil => exact absurd nil_prefix h
  | cons k p ih =>
      cases hc : t.child? k with
      | none => rw [update_cons_of_no_child hc]
      | some c =>
          rw [update_cons_of_child hc]
          cases q with
          | nil => rfl
          | cons j q =>
              by_cases hkj : k = j
              · subst hkj
                have hpq : ¬ p <+: q := fun hp => h (prefix_cons_inj k |>.2 hp)
                have hrec := ih c hpq
                simp only [label?, get?_cons, child?_withChild, hc, if_true,
                  bind_some] at hrec ⊢
                exact hrec
              · simp only [label?, get?_cons, child?_withChild, if_neg hkj]

/-! ## What an edit does to the labels -/

theorem get?_put_append (hp : t.get? p = some d)
    (k : κ) (c : LabelTree κ α) (r : List κ) : (t.put p k c).get? (p ++ k :: r) = c.get? r := by
  rw [put, get?_update_append, hp, bind_some, get?_cons, child?_withChild,
    if_pos rfl, bind_some]

theorem label?_put_of_absent (hp : t.get? p = none)
    (k : κ) (c : LabelTree κ α) (q : List κ) : (t.put p k c).label? q = t.label? q := by
  by_cases hpq : p <+: q
  · obtain ⟨r, rfl⟩ := hpq
    have hput : (t.put p k c).label? (p ++ r) = none := by
      rw [label?, put, get?_update_append, hp]
      rfl
    rw [hput, label?_append, hp]
    rfl
  · rw [put, label?_update_of_not_isPrefix t hpq]

theorem label?_update_entry {f : LabelTree κ α → LabelTree κ α} {entry : Option (LabelTree κ α)}
    (hlabel : ∀ d, (f d).label = d.label)
    (hchild : ∀ d j, (f d).child? j = if k = j then entry else d.child? j) (q : List κ) :
    (t.update p f).label? q = if p ++ [k] <+: q then
      (t.get? p).bind fun _ => entry.bind (·.label? (q.drop (p.length + 1))) else t.label? q := by
  by_cases hpq : p <+: q
  · obtain ⟨r, rfl⟩ := hpq
    have hedit : (t.update p f).label? (p ++ r) = (t.get? p).bind fun d => (f d).label? r := by
      rw [label?, get?_update_append]
      cases t.get? p <;> rfl
    rw [hedit, label?_append]
    cases r with
    | nil =>
        have hnot : ¬ p ++ [k] <+: p ++ [] := by
          intro h
          have hlen := h.length_le
          simp only [length_append, length_singleton, append_nil] at hlen
          omega
        rw [if_neg hnot]
        simp only [label?_nil, hlabel]
    | cons j r =>
        simp only [label?_cons, hchild]
        by_cases hkj : k = j
        · subst hkj
          have hpre : p ++ [k] <+: p ++ k :: r := ⟨r, by simp⟩
          have hdrop : (p ++ k :: r).drop (p.length + 1) = r := by
            simp [drop_append, drop_eq_nil_of_le]
          rw [if_pos hpre, hdrop]
          simp only [if_true]
        · have hnot : ¬ p ++ [k] <+: p ++ j :: r := by
            rw [prefix_append_right_inj, cons_prefix_cons]
            exact fun h => hkj h.1
          rw [if_neg hnot]
          simp only [if_neg hkj]
  · have hnot : ¬ p ++ [k] <+: q :=
      fun h => hpq ((prefix_append p [k]).trans h)
    rw [if_neg hnot, label?_update_of_not_isPrefix t hpq]

/-- Below a put entry its own labels are read, and elsewhere the old ones. -/
theorem label?_put (hp : t.get? p = some d)
    (k : κ) (c : LabelTree κ α) (q : List κ) : (t.put p k c).label? q =
      if p ++ [k] <+: q then c.label? (q.drop (p.length + 1)) else t.label? q := by
  rw [put, @label?_update_entry _ _ _ t p k (withChild k c) (some c) (fun _ => rfl)
    (fun d j => child?_withChild k j c d), hp]
  rfl

/-- Below a removed entry nothing is left, and elsewhere the old labels. -/
theorem label?_remove (t : LabelTree κ α) (p : List κ) (k : κ) (q : List κ) :
    (t.remove p k).label? q = if p ++ [k] <+: q then none else t.label? q := by
  rw [remove, @label?_update_entry _ _ _ t p k (withoutChild k) none (fun _ => rfl)
    (fun d j => child?_withoutChild k j d)]
  cases t.get? p <;> rfl

theorem label?_relabel (t : LabelTree κ α) (p : List κ) (f : α → α) (q : List κ) :
    (t.relabel p f).label? q = if p = q then (t.label? q).map f else t.label? q := by
  by_cases hpq : p <+: q
  · obtain ⟨r, rfl⟩ := hpq
    have hrel : (t.relabel p f).label? (p ++ r) =
        (t.get? p).bind fun c => (node (f c.label) c.children).label? r := by
      rw [label?, relabel, get?_update_append]
      cases t.get? p <;> rfl
    rw [hrel, label?_append]
    cases r with
    | nil =>
        rw [if_pos (append_nil p).symm]
        cases t.get? p <;> rfl
    | cons j r =>
        have hne : p ≠ p ++ j :: r := by simp
        rw [if_neg hne]
        cases t.get? p <;> simp [label?, get?_cons, child?]
  · have hne : p ≠ q := by
      rintro rfl
      exact hpq (prefix_refl p)
    rw [if_neg hne, relabel, label?_update_of_not_isPrefix t hpq]

/-! ## A tree is finite -/

theorem sizeOf_child_lt [SizeOf κ] [SizeOf α] (h : t.child? k = some c) : sizeOf c < sizeOf t := by
  obtain ⟨a, cs⟩ := t
  have hmem : (k, c) ∈ cs := mem_of_find h
  have hlt := sizeOf_lt_of_mem hmem
  rw [node.sizeOf_spec]
  rw [Prod.mk.sizeOf_spec] at hlt
  omega

theorem length_lt_sizeOf (h : t.label? p ≠ none) : p.length < sizeOf t := by
  induction p generalizing t with
  | nil =>
      obtain ⟨a, cs⟩ := t
      rw [node.sizeOf_spec, length_nil]
      omega
  | cons k p ih =>
      rw [label?_cons] at h
      cases hc : t.child? k with
      | none => simp [hc] at h
      | some c =>
          rw [hc] at h
          have hp := ih h
          have hlt := sizeOf_child_lt hc
          rw [length_cons]
          omega

theorem eq_nil_of_label?_append {r : List κ}
    (h : ∀ q, t.label? (r ++ q) = t.label? q) : r = [] := by
  by_contra hr
  have hpow : ∀ n, t.label? (List.replicate n r).flatten ≠ none := by
    intro n
    induction n with
    | zero => simp
    | succ n ih => rwa [replicate_succ, flatten_cons, h]
  have hlen := length_lt_sizeOf (hpow (sizeOf t))
  have hpos : 1 ≤ r.length := length_pos_iff.2 hr
  rw [length_flatten, map_replicate, sum_replicate_nat] at hlen
  have hmul := Nat.mul_le_mul_left (sizeOf t) hpos
  omega

/-! ## A predicate at every node -/

def AllNodes {κ α : Type*} [DecidableEq κ] (P : α → List κ → Prop)
    (t : LabelTree κ α) : Prop :=
  ∀ p c, t.get? p = some c → P c.label (keys c.children)

variable {P : α → List κ → Prop}

theorem AllNodes.get? (h : AllNodes P t) (hp : t.get? p = some c) : AllNodes P c := by
  intro q d hq
  refine h (p ++ q) d ?_
  rw [get?_append, hp]
  exact hq

theorem AllNodes.child (h : AllNodes P t) (hk : t.child? k = some c) : AllNodes P c :=
  h.get? (show t.get? [k] = some c by rw [get?_cons, hk]; rfl)

theorem AllNodes.of_children (ht : P t.label (keys t.children))
    (hc : ∀ k c, t.child? k = some c → AllNodes P c) : AllNodes P t := by
  intro p d hp
  cases p with
  | nil =>
      cases hp
      exact ht
  | cons k p =>
      rw [get?_cons, bind_eq_some_iff] at hp
      obtain ⟨c, hk, hp⟩ := hp
      exact hc k c hk p d hp

/-- Overwriting a name that is there leaves the names as they are. -/
theorem keys_withChild_of_child (h : t.child? k = some d) :
    keys (withChild k c t).children = keys t.children :=
  keys_set_of_find h

/-- An update keeps the predicate when its image at the address has it and the
names above are kept. -/
theorem AllNodes.update {f : LabelTree κ α → LabelTree κ α} (h : AllNodes P t)
    (hf : ∀ c, t.get? p = some c → AllNodes P (f c)) : AllNodes P (t.update p f) := by
  induction p generalizing t with
  | nil => exact hf t rfl
  | cons k p ih =>
      cases hc : t.child? k with
      | none =>
          rw [update_cons_of_no_child hc]
          exact h
      | some c =>
          rw [update_cons_of_child hc]
          refine AllNodes.of_children ?_ ?_
          · rw [keys_withChild_of_child hc]
            exact h [] t rfl
          · intro j d hj
            rw [child?_withChild] at hj
            split at hj
            · cases hj
              refine ih (h.child hc) fun e he => hf e ?_
              rw [get?_cons, hc]
              exact he
            · exact h.child hj

/-- Putting a sound subtree under a node keeps the predicate where the node has
it with the new name. -/
theorem AllNodes.put {c : LabelTree κ α} (h : AllNodes P t) (hc : AllNodes P c)
    (hp : ∀ d, t.get? p = some d →
      P d.label (keys (OrderedMap.set k c d.children))) : AllNodes P (t.put p k c) := by
  refine h.update fun d hd => AllNodes.of_children (hp d hd) ?_
  intro j e hj
  rw [child?_withChild] at hj
  split at hj
  · cases hj
    exact hc
  · exact (h.get? hd).child hj

theorem AllNodes.remove (h : AllNodes P t) (hp : ∀ d, t.get? p = some d →
      P d.label (keys (erase k d.children))) : AllNodes P (t.remove p k) := by
  refine h.update fun d hd => AllNodes.of_children (hp d hd) ?_
  intro j e hj
  rw [child?_withoutChild] at hj
  split at hj
  · cases hj
  · exact (h.get? hd).child hj

theorem AllNodes.relabel {f : α → α} (h : AllNodes P t)
    (hp : ∀ d, t.get? p = some d → P (f d.label) (keys d.children)) :
    AllNodes P (t.relabel p f) := by
  refine h.update fun d hd => AllNodes.of_children (hp d hd) ?_
  intro j e hj
  exact (h.get? hd).child (show d.child? j = some e from hj)

end LabelTree

end Tabnode
