import Mathlib.Data.List.Basic
import Mathlib.Data.List.Perm.Basic
import Mathlib.Order.Basic

/-!
# Sorting by a comparator

A comparator that is consistent on the elements of a list divides them into ordered
classes. A sort of the language is asked to sort a list, keeping the order of what is
equal, only by such a comparator; by any other it may leave the list in any order. So the
first element of a sorted list with a property is a least one, whatever the sort, exactly
when the comparator is consistent or all elements with the property are equal
(`find?_least_iff`).
-/

namespace Tabnode

open List
variable {α : Type}

def Consistent (cmp : α → α → Ordering) (l : List α) : Prop :=
  Std.TransCmp fun a b : {x // x ∈ l} => cmp a b

/-- What a sort of the language is asked for. -/
structure IsSort (sort : (α → α → Ordering) → List α → List α) : Prop where
  perm : ∀ cmp l, (sort cmp l).Perm l
  sorted : ∀ {cmp l}, Consistent cmp l → (sort cmp l).Pairwise fun a b => (cmp a b).isLE
  stable : ∀ {cmp l}, Consistent cmp l → ∀ run : List α, run.Sublist l →
    run.Pairwise (fun a b => (cmp a b).isLE) → run.Sublist (sort cmp l)

namespace IsSort

theorem attach_mergeSort (cmp : α → α → Ordering) (l : List α) :
    (l.attach.mergeSort fun a b => (cmp a b).isLE).map Subtype.val =
      l.mergeSort fun a b => (cmp a b).isLE := by
  rw [map_mergeSort (s := fun a b => (cmp a b).isLE) fun _ _ _ _ => rfl,
    attach_map_subtype_val]

variable {cmp : α → α → Ordering} {l : List α}

theorem trans_isLE (h : Consistent cmp l) (a b c : {x // x ∈ l}) (hab : (cmp a b).isLE)
    (hbc : (cmp b c).isLE) : (cmp a c).isLE :=
  h.isLE_trans hab hbc

theorem total_isLE (h : Consistent cmp l)
    (a b : {x // x ∈ l}) : (cmp a b).isLE || (cmp b a).isLE := by
  have hswap : cmp b a = (cmp a b).swap := h.eq_swap
  rw [hswap]
  cases cmp a b <;> rfl

theorem mergeSort :
    IsSort fun (cmp : α → α → Ordering) l => l.mergeSort fun a b => (cmp a b).isLE where
  perm cmp l := mergeSort_perm l _
  sorted h := by
    rw [← attach_mergeSort, pairwise_map]
    exact pairwise_mergeSort (trans_isLE h) (total_isLE h) _
  stable {cmp l} h run hrun hsorted := by
    rw [← attach_mergeSort]
    rw [← attach_map_subtype_val l] at hrun
    obtain ⟨kept, hkept, rfl⟩ := sublist_map_iff.1 hrun
    rw [pairwise_map] at hsorted
    exact (sublist_mergeSort (trans_isLE h) (total_isLE h) hsorted hkept).map Subtype.val

/-- Where a comparator is not consistent, a sort may leave any element first. -/
theorem exists_head (h : ¬ Consistent cmp l) {w : α}
    (hw : w ∈ l) : ∃ sort : (α → α → Ordering) → List α → List α,
      IsSort sort ∧ (sort cmp l).head? = some w := by
  classical
  refine ⟨fun cmp l => if ¬ Consistent cmp l ∧ w ∈ l then w :: l.erase w
    else l.mergeSort fun a b => (cmp a b).isLE, ⟨fun cmp l => ?_, ?_, ?_⟩, ?_⟩
  · split
    · next hcase => exact (perm_cons_erase hcase.2).symm
    · exact mergeSort.perm cmp l
  · intro cmp l hcmp
    rw [if_neg fun hcase => hcase.1 hcmp]
    exact mergeSort.sorted hcmp
  · intro cmp l hcmp
    rw [if_neg fun hcase => hcase.1 hcmp]
    exact mergeSort.stable hcmp
  · exact congrArg List.head? (if_pos ⟨h, hw⟩)

variable {sort : (α → α → Ordering) → List α → List α}

theorem find?_eq_none_iff (h : IsSort sort) (cmp : α → α → Ordering) (l : List α)
    (p : α → Bool) : (sort cmp l).find? p = none ↔ ∀ a ∈ l, p a = false := by
  simp [find?_eq_none, (h.perm cmp l).mem_iff]

theorem mem_of_find? (h : IsSort sort) {p : α → Bool} {a : α}
    (ha : (sort cmp l).find? p = some a) : a ∈ l ∧ p a = true :=
  ⟨(h.perm cmp l).mem_iff.1 (mem_of_find?_eq_some ha), find?_some ha⟩

theorem find?_least (h : IsSort sort) (hcmp : Consistent cmp l) {p : α → Bool} {a b : α}
    (ha : (sort cmp l).find? p = some a) (hb : b ∈ l) (hpb : p b = true) : (cmp a b).isLE := by
  obtain ⟨hpa, before, after, heq, hbefore⟩ := find?_eq_some_iff_append.1 ha
  have hsorted := h.sorted hcmp
  have hmem := (h.perm cmp l).mem_iff.2 hb
  rw [heq] at hsorted hmem
  rcases mem_append.1 hmem with hin | hin
  · have hnot := hbefore b hin
    rw [hpb] at hnot
    cases hnot
  · rcases mem_cons.1 hin with rfl | hin
    · have hself : cmp b b = (cmp b b).swap :=
        hcmp.eq_swap (a := ⟨b, hb⟩) (b := ⟨b, hb⟩)
      revert hself
      cases cmp b b <;> simp
    · exact (pairwise_cons.1 (pairwise_append.1 hsorted).2.1).1 b hin

/-- The first element of a sorted list with a property is a least one, whatever the sort,
exactly when the comparator is consistent or all elements with the property are equal. -/
theorem find?_least_iff (cmp : α → α → Ordering) (l : List α) (p : α → Bool) :
    (∀ sort, IsSort sort → ∀ a, (sort cmp l).find? p = some a →
        ∀ b ∈ l, p b = true → (cmp a b).isLE) ↔
      Consistent cmp l ∨
        ∀ a ∈ l, p a = true → ∀ b ∈ l, p b = true → (cmp a b).isLE := by
  constructor
  · intro h
    by_cases hcmp : Consistent cmp l
    · exact .inl hcmp
    · refine .inr fun a ha hpa => ?_
      obtain ⟨sort, hsort, hhead⟩ := exists_head hcmp ha
      refine h sort hsort a ?_
      obtain ⟨rest, hrest⟩ := head?_eq_some_iff.1 hhead
      rw [hrest, find?_cons, hpa]
  · rintro (hcmp | hequal) sort hsort a ha b hb hpb
    · exact hsort.find?_least hcmp ha hb hpb
    · have hmem := hsort.mem_of_find? ha
      exact hequal a hmem.1 hmem.2 b hb hpb

end IsSort

end Tabnode
