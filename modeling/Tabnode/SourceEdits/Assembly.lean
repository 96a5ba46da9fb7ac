import Mathlib.Data.List.Basic
import Mathlib.Data.Nat.Notation

/-!
# Assembling an edited text

The edits of a text are applied in descending order: the parts between them and their texts
are collected from the end on, and joined in reverse. Where no range reaches over the one
before it, that is what applying the edits one after the other makes.
-/

namespace Tabnode

namespace SourceEdits

open List

/-- `[start, end, text]` -/
structure Edit (α : Type*) where
  start : ℕ
  stop : ℕ
  text : List α

variable {α : Type*}

/-- `text.slice(first, last)` -/
def slice (text : List α) (first last : ℕ) : List α := (text.take last).drop first

def chunksFrom (source : List α) (cursor : ℕ) : List (Edit α) → List (List α)
  | [] => [slice source 0 cursor]
  | edit :: edits =>
    slice source edit.stop cursor :: edit.text :: chunksFrom source edit.start edits

def applySourceEdits (source : List α) (edits : List (Edit α)) : List α :=
  if edits = [] then source else (chunksFrom source source.length edits).reverse.flatten

/-- `out.slice(0, start) + text + out.slice(end)` -/
def Edit.apply (out : List α) (edit : Edit α) : List α :=
  out.take edit.start ++ edit.text ++ out.drop edit.stop

def sequentially (source : List α) (edits : List (Edit α)) : List α :=
  edits.foldl Edit.apply source

/-- `b[0] - a[0] || b[1] - a[1]` is not positive. -/
def Edit.notAfter (a b : Edit α) : Bool :=
  decide (b.start < a.start) || decide (b.start = a.start) && decide (b.stop ≤ a.stop)

/-- The parts as they are collected, up to a range that reaches over the one before it. -/
def partsFrom (code : List α) (cursor : ℕ) : List (Edit α) → Option (List (List α))
  | [] => some [slice code 0 cursor]
  | edit :: edits =>
    if cursor < edit.stop then none
    else (partsFrom code edit.start edits).map fun parts =>
      slice code edit.stop cursor :: edit.text :: parts

def applyReplacements (code : List α) (replacements : List (Edit α)) : List α :=
  let replacements := replacements.mergeSort Edit.notAfter
  match partsFrom code code.length replacements with
  | none => sequentially code replacements
  | some parts => parts.reverse.flatten

/-! ## Descending order -/

def Edit.range (edit : Edit α) : ℕ × ℕ := (edit.start, edit.stop)

/-- The edits in descending order of start then end, with ties as they come. -/
structure Descends (edits ordered : List (Edit α)) : Prop where
  descending : ordered.Pairwise fun a b => a.notAfter b = true
  ties : ∀ range, ordered.filter (·.range = range) = edits.filter (·.range = range)

theorem Edit.notAfter_iff {a b : Edit α} : a.notAfter b = true ↔
    b.start < a.start ∨ b.start = a.start ∧ b.stop ≤ a.stop := by
  simp [Edit.notAfter]

theorem Edit.notAfter_trans (a b c : Edit α) (hab : a.notAfter b = true)
    (hbc : b.notAfter c = true) : a.notAfter c = true := by
  rw [Edit.notAfter_iff] at *
  omega

theorem Edit.notAfter_total (a b : Edit α) : (a.notAfter b || b.notAfter a) = true := by
  rw [Bool.or_eq_true, Edit.notAfter_iff, Edit.notAfter_iff]
  omega

theorem Edit.range_eq {a b : Edit α} (hab : a.notAfter b = true) (hba : b.notAfter a = true) :
    a.range = b.range := by
  rw [Edit.notAfter_iff] at *
  exact Prod.ext (show a.start = b.start by omega) (show a.stop = b.stop by omega)

theorem Edit.notAfter_of_range_eq {a b : Edit α} (h : a.range = b.range) :
    a.notAfter b = true := by
  have hstart : a.start = b.start := congrArg Prod.fst h
  have hstop : a.stop = b.stop := congrArg Prod.snd h
  rw [Edit.notAfter_iff]
  omega

theorem eq_of_ties {first second : List (Edit α)}
    (hfirst : first.Pairwise fun a b => a.notAfter b = true)
    (hsecond : second.Pairwise fun a b => a.notAfter b = true)
    (hties : ∀ range, first.filter (·.range = range) = second.filter (·.range = range)) :
    first = second := by
  have hmem : ∀ {a : Edit α}, a ∈ first ↔ a ∈ second := by
    intro a
    have hsame := congrArg (a ∈ ·) (hties a.range)
    simpa only [mem_filter, decide_true, and_true, eq_iff_iff] using hsame
  induction first generalizing second with
  | nil =>
    cases second with
    | nil => rfl
    | cons b second => exact absurd (hmem.2 mem_cons_self) not_mem_nil
  | cons a first ih =>
    cases second with
    | nil => exact absurd (hmem.1 mem_cons_self) not_mem_nil
    | cons b second =>
      rw [pairwise_cons] at hfirst hsecond
      have hrange : a.range = b.range := by
        rcases mem_cons.1 (hmem.1 mem_cons_self) with rfl | ha
        · rfl
        rcases mem_cons.1 (hmem.2 mem_cons_self) with hb | hb
        · rw [hb]
        · exact Edit.range_eq (hfirst.1 b hb) (hsecond.1 a ha)
      have hheads := hties a.range
      rw [filter_cons_of_pos (by simp), filter_cons_of_pos (by simp [hrange])] at hheads
      obtain ⟨rfl, -⟩ := List.cons.inj hheads
      have htails : ∀ range, first.filter (·.range = range) = second.filter (·.range = range) := by
        intro range
        have hsame := hties range
        simp only [filter_cons] at hsame
        split at hsame
        · exact (List.cons.inj hsame).2
        · exact hsame
      rw [ih hfirst.2 hsecond.2 htails ?_]
      intro c
      have hsame := congrArg (c ∈ ·) (htails c.range)
      simpa only [mem_filter, decide_true, and_true, eq_iff_iff] using hsame

theorem descends_mergeSort (edits : List (Edit α)) :
    Descends edits (edits.mergeSort Edit.notAfter) where
  descending := pairwise_mergeSort Edit.notAfter_trans Edit.notAfter_total edits
  ties range := by
    have hties : (edits.filter (·.range = range)).Pairwise fun a b => a.notAfter b = true := by
      refine pairwise_of_forall_mem_list fun a ha b hb => Edit.notAfter_of_range_eq ?_
      have hrange := (mem_filter.1 ha).2
      have hrange' := (mem_filter.1 hb).2
      simp only [decide_eq_true_eq] at hrange hrange'
      rw [hrange, hrange']
    have hsub := (sublist_mergeSort Edit.notAfter_trans Edit.notAfter_total hties
      filter_sublist).filter (fun edit => decide (edit.range = range))
    rw [filter_filter] at hsub
    simp only [Bool.and_self] at hsub
    refine (hsub.eq_of_length ?_).symm
    exact ((mergeSort_perm edits Edit.notAfter).filter _).length_eq.symm

/-! ## Assembly -/

def Apart (cursor : ℕ) : List (Edit α) → Prop
  | [] => True
  | edit :: edits => edit.start ≤ edit.stop ∧ edit.stop ≤ cursor ∧ Apart edit.start edits

theorem flatten_chunksFrom {source tail : List α} {cursor : ℕ} {edits : List (Edit α)}
    (hcursor : cursor ≤ source.length) (h : Apart cursor edits) :
    (chunksFrom source cursor edits).reverse.flatten ++ tail =
      sequentially (source.take cursor ++ tail) edits := by
  induction edits generalizing cursor tail with
  | nil => simp [chunksFrom, slice, sequentially]
  | cons edit edits ih =>
    obtain ⟨hrange, hle, hrest⟩ := h
    have hlength : (source.take cursor).length = cursor := by
      rw [length_take, Nat.min_eq_left hcursor]
    have happly : Edit.apply (source.take cursor ++ tail) edit =
        source.take edit.start ++ (edit.text ++ (slice source edit.stop cursor ++ tail)) := by
      rw [Edit.apply, take_append_of_le_length (by omega), take_take,
        Nat.min_eq_left (by omega), drop_append_of_le_length (by omega), slice,
        append_assoc]
    rw [chunksFrom, reverse_cons, reverse_cons, flatten_append,
      flatten_append, append_assoc, append_assoc, sequentially, foldl_cons,
      happly, ← sequentially, ← ih (by omega) hrest]
    simp

theorem sequentially_eq {source : List α} {edits : List (Edit α)}
    (h : Apart source.length edits) :
    (chunksFrom source source.length edits).reverse.flatten = sequentially source edits := by
  have hsame : _ ++ [] = sequentially (_ ++ []) _ := flatten_chunksFrom (Nat.le_refl _) h
  rwa [append_nil, append_nil, take_length] at hsame

theorem partsFrom_eq {code : List α} {cursor : ℕ} {edits : List (Edit α)}
    {parts : List (List α)} (hranges : ∀ edit ∈ edits, edit.start ≤ edit.stop)
    (h : partsFrom code cursor edits = some parts) :
    parts = chunksFrom code cursor edits ∧ Apart cursor edits := by
  induction edits generalizing cursor parts with
  | nil => exact ⟨(Option.some.inj h).symm, trivial⟩
  | cons edit edits ih =>
    rw [partsFrom] at h
    split_ifs at h with hover
    obtain ⟨rest, hrest, rfl⟩ := Option.map_eq_some_iff.1 h
    obtain ⟨rfl, hapart⟩ := ih (fun e he => hranges e (mem_cons_of_mem _ he)) hrest
    exact ⟨rfl, hranges edit mem_cons_self, Nat.not_lt.1 hover, hapart⟩

theorem apart_of_pairwise {source : List α} {edits : List (Edit α)}
    (hin : ∀ edit ∈ edits, edit.start ≤ edit.stop ∧ edit.stop ≤ source.length)
    (h : edits.Pairwise fun a b => b.stop ≤ a.start) : Apart source.length edits := by
  have hall : ∀ cursor, (∀ edit ∈ edits, edit.stop ≤ cursor) → Apart cursor edits := by
    induction edits with
    | nil => exact fun _ _ => trivial
    | cons edit edits ih =>
      rw [pairwise_cons] at h
      intro cursor hcursor
      exact ⟨(hin edit mem_cons_self).1, hcursor edit mem_cons_self,
        ih (fun e he => hin e (mem_cons_of_mem _ he)) h.2 edit.start h.1⟩
  exact hall _ fun edit hedit => (hin edit hedit).2

theorem descends_of_pairwise {edits : List (Edit α)}
    (hranges : ∀ edit ∈ edits, edit.start ≤ edit.stop)
    (h : edits.Pairwise fun a b => b.stop ≤ a.start) : Descends edits edits where
  descending := by
    refine h.imp_of_mem fun {a b} ha hb hle => Edit.notAfter_iff.2 ?_
    have hrangeA := hranges a ha
    have hrangeB := hranges b hb
    omega
  ties _ := rfl

/-- Both assemblies are the edits one after the other in descending order: of ranges that come
in that order and apart, and of any ranges. -/
theorem assembly_eq_sequentially (source : List α) (edits ordered : List (Edit α))
    (hin : ∀ edit ∈ edits, edit.start ≤ edit.stop ∧ edit.stop ≤ source.length)
    (hordered : Descends edits ordered) :
    ((edits.Pairwise fun a b => b.stop ≤ a.start) →
      applySourceEdits source edits = sequentially source ordered) ∧
    applyReplacements source edits = sequentially source ordered := by
  constructor
  · intro hapart
    have hself := descends_of_pairwise (fun e he => (hin e he).1) hapart
    rw [eq_of_ties hordered.descending hself.descending hordered.ties, applySourceEdits]
    split_ifs with hnil
    · rw [hnil]
      rfl
    · exact sequentially_eq (apart_of_pairwise hin hapart)
  · have hsort := descends_mergeSort edits
    rw [eq_of_ties hordered.descending hsort.descending fun range =>
      (hordered.ties range).trans (hsort.ties range).symm, applyReplacements]
    split
    · rfl
    · rename_i parts hparts
      obtain ⟨rfl, hapart⟩ := partsFrom_eq
        (fun e he => (hin e ((mergeSort_perm edits _).mem_iff.1 he)).1) hparts
      exact sequentially_eq hapart

/-- Two insertions at one place and a replacement that ends there. -/
theorem assembly_eq_sequentially_shared :
    applySourceEdits ['a', 'b', 'c'] [⟨2, 2, ['x']⟩, ⟨2, 2, ['y']⟩, ⟨1, 2, ['z']⟩] =
        sequentially ['a', 'b', 'c'] [⟨2, 2, ['x']⟩, ⟨2, 2, ['y']⟩, ⟨1, 2, ['z']⟩] ∧
      applyReplacements ['a', 'b', 'c'] [⟨2, 2, ['x']⟩, ⟨2, 2, ['y']⟩, ⟨1, 2, ['z']⟩] =
        sequentially ['a', 'b', 'c'] [⟨2, 2, ['x']⟩, ⟨2, 2, ['y']⟩, ⟨1, 2, ['z']⟩] := by
  have hboth := assembly_eq_sequentially ['a', 'b', 'c']
    [⟨2, 2, ['x']⟩, ⟨2, 2, ['y']⟩, ⟨1, 2, ['z']⟩] [⟨2, 2, ['x']⟩, ⟨2, 2, ['y']⟩, ⟨1, 2, ['z']⟩]
    (by decide) ⟨by decide, fun _ => rfl⟩
  exact ⟨hboth.1 (by decide), hboth.2⟩

end SourceEdits

end Tabnode
