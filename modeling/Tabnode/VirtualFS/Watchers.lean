import Mathlib.Data.List.ReduceOption
import Mathlib.Logic.Function.Basic
import Tabnode.VirtualFS.Path

/-!
# Watchers

The watchers of a path are a set that is walked while its listeners run, and a listener may
open watchers and close them. The set keeps a cell for each of its members in the order they
came in, and a member that goes leaves its cell empty, so that the walk goes on where it was;
a member that comes in meanwhile is walked over too. What a listener does is a parameter: the
operations of the n-th call.
-/

namespace Tabnode

namespace VirtualFS

open Function Option

/-! ## Sets that are walked while they change -/

abbrev LiveSet (α : Type*) := List (Option α)

namespace LiveSet

variable {α : Type*} [DecidableEq α]

def add (s : LiveSet α) (a : α) : LiveSet α := if some a ∈ s then s else s ++ [some a]

def delete (s : LiveSet α) (a : α) : LiveSet α :=
  s.map fun cell => if cell = some a then none else cell

def size (s : LiveSet α) : ℕ := s.reduceOption.length

variable {s : LiveSet α} {a : α}

theorem add_of_not_mem (h : some a ∉ s) : s.add a = s ++ [some a] :=
  if_neg h

theorem length_delete (s : LiveSet α) (a : α) : (s.delete a).length = s.length :=
  List.length_map _

theorem getElem?_delete_eq_some_iff {b : α} {i : ℕ} :
    (s.delete a)[i]? = some (some b) ↔ s[i]? = some (some b) ∧ b ≠ a := by
  rw [delete, List.getElem?_map, map_eq_some_iff]
  constructor
  · rintro ⟨cell, hcell, hkept⟩
    split_ifs at hkept with hsame
    subst hkept
    exact ⟨hcell, fun h => hsame (h ▸ rfl)⟩
  · rintro ⟨hcell, hne⟩
    exact ⟨_, hcell, if_neg fun h => hne (Option.some.inj h)⟩

omit [DecidableEq α] in
theorem size_ne_zero_of_mem (h : some a ∈ s) : s.size ≠ 0 := by
  have hmem : a ∈ s.reduceOption := List.reduceOption_mem_iff.2 h
  exact (List.length_pos_of_mem hmem).ne'

end LiveSet

/-! ## Watchers -/

structure WatcherEntry where
  path : Str
  recursive : Bool
  closed : Bool
  deriving DecidableEq

/-- The watchers that were ever opened, by number, and the sets that were ever made; a path has
one of them, or none. -/
structure WatcherBook where
  entries : List WatcherEntry
  sets : List (LiveSet ℕ)
  watchers : Str → Option ℕ

namespace WatcherBook

def empty : WatcherBook := ⟨[], [], fun _ => none⟩

def watch (book : WatcherBook) (filename : Str) (recursive : Bool) : WatcherBook :=
  let normalized := normalizePath filename
  let id := book.entries.length
  let entries := book.entries ++ [⟨normalized, recursive, false⟩]
  match book.watchers normalized with
  | some set => ⟨entries, book.sets.modify set fun cells => cells.add id, book.watchers⟩
  | none => ⟨entries, book.sets ++ [LiveSet.add [] id],
      update book.watchers normalized (some book.sets.length)⟩

/-- A watcher's `close`: it goes from its path's set, and an empty set from its path. -/
def close (book : WatcherBook) (id : ℕ) : WatcherBook :=
  match book.entries[id]? with
  | none => book
  | some entry =>
      let entries := book.entries.modify id fun entry => { entry with closed := true }
      match book.watchers entry.path with
      | none => { book with entries := entries }
      | some set =>
          let sets := book.sets.modify set fun cells => cells.delete id
          ⟨entries, sets,
            if (sets.getD set []).size = 0 then update book.watchers entry.path none
            else book.watchers⟩

end WatcherBook

/-- What a listener does to the watchers, whatever it does it by. -/
inductive WatchOp
  | watch (filename : Str) (recursive : Bool)
  | close (id : ℕ)
  deriving DecidableEq

def WatcherBook.perform (book : WatcherBook) : WatchOp → WatcherBook
  | .watch filename recursive => book.watch filename recursive
  | .close id => book.close id

/-! ## The delivery of a change -/

inductive WatchEventType
  | rename
  | change
  deriving DecidableEq

/-- A call of a watcher's listener, and the watchers as they were then. -/
structure WatchCall where
  watcher : ℕ
  eventType : WatchEventType
  filename : Str
  before : WatcherBook

structure Delivery where
  book : WatcherBook
  calls : List WatchCall

section Deliver

variable (listeners : ℕ → List WatchOp) (eventType : WatchEventType)

def Delivery.call (d : Delivery) (id : ℕ) (filename : Str) : Delivery :=
  ⟨(listeners d.calls.length).foldl WatcherBook.perform d.book,
    d.calls ++ [⟨id, eventType, filename, d.book⟩]⟩

/-- The walk over a set from one of its cells on: everyone is called, or who is recursive. -/
def walkWatchers (everyone : Bool) (filename : Str) (set : ℕ) :
    ℕ → ℕ → Delivery → Option Delivery
  | 0, _, _ => none
  | fuel + 1, cursor, d =>
      match (d.book.sets.getD set [])[cursor]? with
      | none => some d
      | some none => walkWatchers everyone filename set fuel (cursor + 1) d
      | some (some id) =>
          match d.book.entries[id]? with
          | none => walkWatchers everyone filename set fuel (cursor + 1) d
          | some entry =>
              if entry.closed = false ∧ (entry.recursive || everyone) = true then
                walkWatchers everyone filename set fuel (cursor + 1)
                  (d.call listeners eventType id filename)
              else walkWatchers everyone filename set fuel (cursor + 1) d

def callWatchers (fuel : ℕ) (path : Str) (everyone : Bool) (filename : Str) (d : Delivery) :
    Option Delivery :=
  match d.book.watchers path with
  | none => some d
  | some set => walkWatchers listeners eventType everyone filename set fuel 0 d

def climb (fuel : ℕ) (normalized : Str) : ℕ → Str → Str → Delivery → Option Delivery
  | 0, _, _, _ => none
  | rounds + 1, current, relative, d =>
      let isDirectChild := getParentPath normalized == current
      match callWatchers listeners eventType fuel current isDirectChild relative d with
      | none => none
      | some d =>
          if current = ['/'] then some d
          else
            climb fuel normalized rounds (getParentPath current)
              (getBasename current ++ '/' :: relative) d

def notifyWatchers (fuel : ℕ) (path : Str) (book : WatcherBook) : Option Delivery :=
  let normalized := normalizePath path
  let basename := getBasename normalized
  match callWatchers listeners eventType fuel normalized true basename ⟨book, []⟩ with
  | none => none
  | some d => climb listeners eventType fuel normalized fuel (getParentPath normalized) basename d

end Deliver

/-! ## What the operations keep -/

namespace WatcherBook

/-- A watcher that is in a set is open, and the set is its path's; a watcher that is open is in
its path's set, in one cell of it. -/
structure Sound (book : WatcherBook) : Prop where
  live : ∀ {set : ℕ} {cells : LiveSet ℕ} {i id : ℕ}, book.sets[set]? = some cells →
    cells[i]? = some (some id) → ∃ entry : WatcherEntry, book.entries[id]? = some entry ∧
      entry.closed = false ∧
      book.watchers entry.path = some set
  held : ∀ {id : ℕ} {entry : WatcherEntry}, book.entries[id]? = some entry → entry.closed = false →
    ∃ (set : ℕ) (cells : LiveSet ℕ) (i : ℕ), book.watchers entry.path = some set ∧
      book.sets[set]? = some cells ∧ cells[i]? = some (some id)
  distinct : ∀ {set : ℕ} {cells : LiveSet ℕ} {i j id : ℕ}, book.sets[set]? = some cells →
    cells[i]? = some (some id) → cells[j]? = some (some id) → i = j
  made : ∀ {path set}, book.watchers path = some set → set < book.sets.length
  single : ∀ {path other set}, book.watchers path = some set →
    book.watchers other = some set → path = other

def Closed (book : WatcherBook) (id : ℕ) : Prop :=
  ∃ entry, book.entries[id]? = some entry ∧ entry.closed = true

/-- What may have come of a book: watchers stay what they were and closed ones closed, a set's
members stay in their cells until they are closed, and new ones come after them; no path takes
the set of another. -/
structure Later (book after : WatcherBook) : Prop where
  length : book.entries.length ≤ after.entries.length
  entries : ∀ {id : ℕ} {entry : WatcherEntry}, book.entries[id]? = some entry →
    ∃ entry' : WatcherEntry, after.entries[id]? = some entry' ∧ entry'.path = entry.path ∧
      entry'.recursive = entry.recursive ∧ (entry.closed = true → entry'.closed = true)
  sets : ∀ {set : ℕ} {cells : LiveSet ℕ}, book.sets[set]? = some cells →
    ∃ cells' : LiveSet ℕ, after.sets[set]? = some cells' ∧ cells.length ≤ cells'.length ∧
    (∀ {i id : ℕ}, cells'[i]? = some (some id) →
      cells[i]? = some (some id) ∨ cells.length ≤ i ∧ book.entries.length ≤ id) ∧
    ∀ {i id : ℕ}, cells[i]? = some (some id) → cells'[i]? = some (some id) ∨ after.Closed id
  watchers : ∀ {path set}, after.watchers path = some set → set < book.sets.length →
    book.watchers path = some set

theorem Later.refl (book : WatcherBook) : Later book book where
  length := le_rfl
  entries h := ⟨_, h, rfl, rfl, id⟩
  sets h := ⟨_, h, le_rfl, Or.inl, Or.inl⟩
  watchers h _ := h

variable {book : WatcherBook} {id : ℕ}

theorem Later.closed {after : WatcherBook} (h : Later book after)
    (hclosed : book.Closed id) : after.Closed id := by
  obtain ⟨entry, hentry, hclosed⟩ := hclosed
  obtain ⟨entry', hentry', -, -, hkept⟩ := h.entries hentry
  exact ⟨entry', hentry', hkept hclosed⟩

theorem Later.trans {between after : WatcherBook} (h : Later book between)
    (h' : Later between after) : Later book after where
  length := h.length.trans h'.length
  entries hentry := by
    obtain ⟨entry, hbetween, hpath, hrecursive, hclosed⟩ := h.entries hentry
    obtain ⟨entry', hafter, hpath', hrecursive', hclosed'⟩ := h'.entries hbetween
    exact ⟨entry', hafter, hpath'.trans hpath, hrecursive'.trans hrecursive,
      fun hc => hclosed' (hclosed hc)⟩
  sets hset := by
    obtain ⟨cells, hbetween, hlength, hback, hkept⟩ := h.sets hset
    obtain ⟨cells', hafter, hlength', hback', hkept'⟩ := h'.sets hbetween
    refine ⟨cells', hafter, hlength.trans hlength', fun hcell => ?_, fun hcell => ?_⟩
    · rcases hback' hcell with hcell | ⟨hi, hid⟩
      · exact hback hcell
      · exact .inr ⟨hlength.trans hi, h.length.trans hid⟩
    · rcases hkept hcell with hcell | hclosed
      · exact hkept' hcell
      · exact .inr (h'.closed hclosed)
  watchers hset hlt := by
    refine h.watchers (h'.watchers hset (hlt.trans_le ?_)) hlt
    by_contra hless
    have hsome := List.getElem?_eq_getElem (Nat.lt_of_not_le hless)
    obtain ⟨cells, hbetween, -⟩ := h.sets hsome
    rw [List.getElem?_eq_none le_rfl] at hbetween
    cases hbetween

theorem Sound.lt_length (h : book.Sound) {set : ℕ} {cells : LiveSet ℕ} {i : ℕ}
    (hset : book.sets[set]? = some cells) (hcell : cells[i]? = some (some id)) :
    id < book.entries.length := by
  obtain ⟨entry, hentry, -⟩ := h.live hset hcell
  exact (List.getElem?_eq_some_iff.1 hentry).1

/-- What opening a watcher does: its number is added to its path's set, or to a new one. -/
theorem Sound.watch_spec (h : book.Sound) (filename : Str) (recursive : Bool) :
    ∃ target cells, (book.watch filename recursive).entries =
        book.entries ++ [⟨normalizePath filename, recursive, false⟩] ∧
      (book.watch filename recursive).watchers =
        update book.watchers (normalizePath filename) (some target) ∧
      (book.watch filename recursive).sets[target]? =
        some (cells ++ [some book.entries.length]) ∧
      (∀ other, other ≠ target →
        (book.watch filename recursive).sets[other]? = book.sets[other]?) ∧
      (book.watchers (normalizePath filename) = some target ∧ book.sets[target]? = some cells ∨
        book.watchers (normalizePath filename) = none ∧ target = book.sets.length ∧
          cells = []) := by
  cases hwatchers : book.watchers (normalizePath filename) with
  | none =>
    refine ⟨book.sets.length, [], ?_, ?_, ?_, fun other hother => ?_, .inr ⟨rfl, rfl, rfl⟩⟩
    · simp only [WatcherBook.watch, hwatchers]
    · simp only [WatcherBook.watch, hwatchers]
    · simp only [WatcherBook.watch, hwatchers, List.getElem?_concat_length]
      rfl
    · simp only [WatcherBook.watch, hwatchers]
      rcases Nat.lt_or_gt_of_ne hother with hlt | hgt
      · exact List.getElem?_append_left hlt
      · rw [List.getElem?_eq_none (by simp; omega), List.getElem?_eq_none hgt.le]
  | some target =>
    have hlt := h.made hwatchers
    have hsome := List.getElem?_eq_getElem hlt
    have hfresh : some book.entries.length ∉ book.sets[target] := by
      intro hmem
      obtain ⟨i, hi⟩ := List.mem_iff_getElem?.1 hmem
      exact absurd (h.lt_length hsome hi) (Nat.lt_irrefl _)
    refine ⟨target, _, ?_, ?_, ?_, fun other hother => ?_, .inl ⟨rfl, hsome⟩⟩
    · simp only [WatcherBook.watch, hwatchers]
    · have hsame : update book.watchers (normalizePath filename) (some target) =
          book.watchers := by rw [← hwatchers, update_eq_self]
      simp only [WatcherBook.watch, hwatchers, hsame]
    · simp only [WatcherBook.watch, hwatchers, List.getElem?_modify, hsome, if_true,
        map_eq_map, map_some, LiveSet.add_of_not_mem hfresh]
    · simp only [WatcherBook.watch, hwatchers, List.getElem?_modify, if_neg (Ne.symm hother)]
      simp

theorem Sound.watch (h : book.Sound) (filename : Str) (recursive : Bool) :
    (book.watch filename recursive).Sound ∧ Later book (book.watch filename recursive) := by
  obtain ⟨target, cells, hentries, hwatchers, htarget, hothers, hbefore⟩ :=
    h.watch_spec filename recursive
  generalize book.watch filename recursive = after at *
  generalize normalizePath filename = path at *
  have hkept : ∀ {id : ℕ} {entry : WatcherEntry}, book.entries[id]? = some entry →
      after.entries[id]? = some entry := by
    intro id entry hentry
    rw [hentries, List.getElem?_append_left (List.getElem?_eq_some_iff.1 hentry).1, hentry]
  have hnew : after.entries[book.entries.length]? = some ⟨path, recursive, false⟩ := by
    rw [hentries, List.getElem?_concat_length]
  have hown : after.watchers path = some target := by rw [hwatchers, update_self]
  have hother : ∀ other, other ≠ path → after.watchers other = book.watchers other := by
    intro other hne
    rw [hwatchers, update_of_ne hne]
  have hcells : ∀ {i id : ℕ}, cells[i]? = some (some id) → book.sets[target]? = some cells := by
    intro i id hcell
    rcases hbefore with ⟨-, hset⟩ | ⟨-, -, rfl⟩
    · exact hset
    · cases hcell
  have hfound : ∀ {other : Str} {set : ℕ}, after.watchers other = some set → other ≠ path →
      book.watchers other = some set ∧ set ≠ target := by
    intro other set hset hne
    rw [hother other hne] at hset
    refine ⟨hset, ?_⟩
    rintro rfl
    rcases hbefore with ⟨hpath, -⟩ | ⟨-, rfl, -⟩
    · exact hne (h.single hset hpath)
    · exact absurd (h.made hset) (Nat.lt_irrefl _)
  have hcell_cases : ∀ {i id : ℕ}, (cells ++ [some book.entries.length])[i]? = some (some id) →
      cells[i]? = some (some id) ∨ i = cells.length ∧ id = book.entries.length := by
    intro i id hcell
    rcases Nat.lt_trichotomy i cells.length with hlt | rfl | hgt
    · rw [List.getElem?_append_left hlt] at hcell
      exact .inl hcell
    · rw [List.getElem?_concat_length] at hcell
      exact .inr ⟨rfl, (Option.some.inj (Option.some.inj hcell)).symm⟩
    · rw [List.getElem?_eq_none (by simp; omega)] at hcell
      cases hcell
  refine ⟨⟨?_, ?_, ?_, ?_, ?_⟩, ⟨?_, ?_, ?_, ?_⟩⟩
  · intro set cells' i id hset hcell
    by_cases hsame : set = target
    · subst hsame
      rw [htarget, Option.some.injEq] at hset
      subst hset
      rcases hcell_cases hcell with hold | ⟨-, rfl⟩
      · obtain ⟨entry, hentry, hopen, hpath⟩ := h.live (hcells hold) hold
        refine ⟨entry, hkept hentry, hopen, ?_⟩
        by_cases hne : entry.path = path
        · rw [hne, hown]
        · rw [hother _ hne, hpath]
      · exact ⟨_, hnew, rfl, hown⟩
    · rw [hothers set hsame] at hset
      obtain ⟨entry, hentry, hopen, hpath⟩ := h.live hset hcell
      refine ⟨entry, hkept hentry, hopen, ?_⟩
      rw [hother _ ?_, hpath]
      rintro hne
      rcases hbefore with ⟨hold, -⟩ | ⟨hnone, -⟩
      · rw [← hne, hpath] at hold
        exact hsame (Option.some.inj hold)
      · rw [← hne, hpath] at hnone
        cases hnone
  · intro id entry hentry hopen
    rw [hentries] at hentry
    rcases Nat.lt_or_ge id book.entries.length with hlt | hge
    · rw [List.getElem?_append_left hlt] at hentry
      obtain ⟨set, held, i, hset, hheld, hcell⟩ := h.held hentry hopen
      by_cases hpath : entry.path = path
      · rcases hbefore with ⟨hold, hcellsOf⟩ | ⟨hnone, -⟩
        · rw [hpath, hold, Option.some.injEq] at hset
          subst hset
          rw [hcellsOf, Option.some.injEq] at hheld
          subst hheld
          refine ⟨target, _, i, hpath ▸ hown, htarget, ?_⟩
          rw [List.getElem?_append_left (List.getElem?_eq_some_iff.1 hcell).1, hcell]
        · rw [hpath, hnone] at hset
          cases hset
      · obtain ⟨-, hne⟩ := hfound ((hother _ hpath).trans hset) hpath
        exact ⟨set, held, i, (hother _ hpath).trans hset, (hothers set hne).trans hheld, hcell⟩
    · rw [List.getElem?_append_right hge] at hentry
      have hid : id = book.entries.length := by
        have hlt := (List.getElem?_eq_some_iff.1 hentry).1
        rw [List.length_singleton] at hlt
        omega
      rw [hid, Nat.sub_self, List.getElem?_cons_zero, Option.some.injEq] at hentry
      subst hentry
      exact ⟨target, _, cells.length, hown, htarget, hid ▸ List.getElem?_concat_length⟩
  · intro set cells' i j id hset hi hj
    by_cases hsame : set = target
    · subst hsame
      rw [htarget, Option.some.injEq] at hset
      subst hset
      rcases hcell_cases hi with hi | ⟨rfl, rfl⟩
      · rcases hcell_cases hj with hj | ⟨rfl, rfl⟩
        · exact h.distinct (hcells hi) hi hj
        · exact absurd (h.lt_length (hcells hi) hi) (Nat.lt_irrefl _)
      · rcases hcell_cases hj with hj | ⟨rfl, -⟩
        · exact absurd (h.lt_length (hcells hj) hj) (Nat.lt_irrefl _)
        · rfl
    · exact h.distinct ((hothers set hsame).symm.trans hset) hi hj
  · intro other set hset
    by_cases hpath : other = path
    · rw [hpath, hown, Option.some.injEq] at hset
      exact hset ▸ (List.getElem?_eq_some_iff.1 htarget).1
    · obtain ⟨hold, hne⟩ := hfound hset hpath
      have hsome := List.getElem?_eq_getElem (h.made hold)
      exact (List.getElem?_eq_some_iff.1 ((hothers set hne).trans hsome)).1
  · intro first second set hfirst hsecond
    by_cases hpath : first = path
    · by_cases hpath' : second = path
      · exact hpath.trans hpath'.symm
      · rw [hpath, hown, Option.some.injEq] at hfirst
        exact absurd hfirst.symm (hfound hsecond hpath').2
    · by_cases hpath' : second = path
      · rw [hpath', hown, Option.some.injEq] at hsecond
        exact absurd hsecond.symm (hfound hfirst hpath).2
      · exact h.single (hfound hfirst hpath).1 (hfound hsecond hpath').1
  · rw [hentries, List.length_append]
    exact Nat.le_add_right _ _
  · intro id entry hentry
    exact ⟨entry, hkept hentry, rfl, rfl, fun h => h⟩
  · intro set before hset
    by_cases hsame : set = target
    · subst hsame
      rcases hbefore with ⟨-, hold⟩ | ⟨-, rfl, -⟩
      · rw [hold, Option.some.injEq] at hset
        subst hset
        refine ⟨_, htarget, ?_, fun hcell => ?_, fun hcell => .inl ?_⟩
        · rw [List.length_append]
          exact Nat.le_add_right _ _
        · exact (hcell_cases hcell).imp_right fun hnew => ⟨hnew.1.ge, hnew.2.ge⟩
        · rw [List.getElem?_append_left (List.getElem?_eq_some_iff.1 hcell).1, hcell]
      · rw [List.getElem?_eq_none le_rfl] at hset
        cases hset
    · exact ⟨before, (hothers set hsame).trans hset, le_rfl, Or.inl, Or.inl⟩
  · intro other set hset hlt
    by_cases hpath : other = path
    · rw [hpath, hown, Option.some.injEq] at hset
      subst hset
      rcases hbefore with ⟨hold, -⟩ | ⟨-, rfl, -⟩
      · rw [hpath, hold]
      · exact absurd hlt (Nat.lt_irrefl _)
    · exact (hfound hset hpath).1

/-- What closing a watcher does: it is closed, and it is in no set any more; a path has the set it
had as long as another watcher is in it. -/
theorem Sound.close_spec (h : book.Sound) {entry : WatcherEntry}
    (hentry : book.entries[id]? = some entry) :
    (book.close id).entries = book.entries.modify id (fun entry => { entry with closed := true }) ∧
      (book.close id).sets.length = book.sets.length ∧
      (∀ {set : ℕ} {cells : LiveSet ℕ}, book.sets[set]? = some cells →
        ∃ cells' : LiveSet ℕ, (book.close id).sets[set]? = some cells' ∧
          cells'.length = cells.length ∧ ∀ {i other : ℕ},
            cells'[i]? = some (some other) ↔ cells[i]? = some (some other) ∧ other ≠ id) ∧
      (∀ {path : Str} {set : ℕ}, (book.close id).watchers path = some set →
        book.watchers path = some set) ∧
      ∀ {path : Str} {set i other : ℕ} {cells : LiveSet ℕ}, book.watchers path = some set →
        book.sets[set]? = some cells → cells[i]? = some (some other) → other ≠ id →
        (book.close id).watchers path = some set := by
  have habsent : ∀ {set i other : ℕ} {cells : LiveSet ℕ}, book.sets[set]? = some cells →
      book.watchers entry.path ≠ some set → cells[i]? = some (some other) → other ≠ id := by
    rintro set i other cells hset hne hcell rfl
    obtain ⟨entry', hentry', -, hpath⟩ := h.live hset hcell
    rw [hentry, Option.some.injEq] at hentry'
    exact hne (hentry' ▸ hpath)
  cases hwatchers : book.watchers entry.path with
  | none =>
    have hclose : book.close id = { book with
        entries := book.entries.modify id fun entry => { entry with closed := true } } := by
      simp only [WatcherBook.close, hentry, hwatchers]
    rw [hclose]
    refine ⟨rfl, rfl, fun {set cells} hset => ⟨cells, hset, rfl, fun {i other} => ?_⟩,
      fun h => h, fun h _ _ _ => h⟩
    exact ⟨fun hcell => ⟨hcell, habsent hset (by simp [hwatchers]) hcell⟩, And.left⟩
  | some target =>
    have hsome := List.getElem?_eq_getElem (h.made hwatchers)
    have hsets : ∀ {set : ℕ} {cells : LiveSet ℕ}, book.sets[set]? = some cells →
        ∃ cells' : LiveSet ℕ, (book.sets.modify target fun cells => cells.delete id)[set]? =
            some cells' ∧ cells'.length = cells.length ∧ ∀ {i other : ℕ},
              cells'[i]? = some (some other) ↔ cells[i]? = some (some other) ∧ other ≠ id := by
      intro set cells hset
      rw [List.getElem?_modify, hset, map_eq_map, map_some]
      by_cases hsame : target = set
      · rw [if_pos hsame]
        exact ⟨_, rfl, LiveSet.length_delete _ _, LiveSet.getElem?_delete_eq_some_iff⟩
      · rw [if_neg hsame]
        refine ⟨_, rfl, rfl, fun {i other} => ?_⟩
        exact ⟨fun hcell => ⟨hcell, habsent hset (by simp [hwatchers, hsame]) hcell⟩, And.left⟩
    simp only [WatcherBook.close, hentry, hwatchers]
    refine ⟨trivial, List.length_modify _ _ _, hsets, ?_, ?_⟩
    · intro path set hset
      split_ifs at hset
      · by_cases hpath : path = entry.path
        · rw [hpath, update_self] at hset
          cases hset
        · rwa [update_of_ne hpath] at hset
      · exact hset
    · intro path set i other cells hset hcells hcell hne
      split_ifs with hempty
      · by_cases hpath : path = entry.path
        · rw [hpath, hwatchers, Option.some.injEq] at hset
          subst hset
          obtain ⟨cells', hcells', -, hkept⟩ := hsets hcells
          have hmem := List.mem_of_getElem? (hkept.2 ⟨hcell, hne⟩)
          rw [List.getD_eq_getElem?_getD, hcells', getD_some] at hempty
          exact absurd hempty (LiveSet.size_ne_zero_of_mem hmem)
        · rwa [update_of_ne hpath]
      · exact hset

theorem Sound.close (h : book.Sound) (id : ℕ) :
    (book.close id).Sound ∧ Later book (book.close id) := by
  cases hentry : book.entries[id]? with
  | none =>
    have hclose : book.close id = book := by simp only [WatcherBook.close, hentry]
    rw [hclose]
    exact ⟨h, .refl book⟩
  | some entry =>
    obtain ⟨hentries, hlength, hsets, hback, hkept⟩ := h.close_spec hentry
    generalize book.close id = after at *
    have hself : after.entries[id]? = some { entry with closed := true } := by
      rw [hentries, List.getElem?_modify_eq, hentry]
      rfl
    have hfind : ∀ other, other ≠ id → after.entries[other]? = book.entries[other]? := by
      intro other hne
      rw [hentries, List.getElem?_modify_ne _ _ hne.symm]
    have hset_back : ∀ {set : ℕ} {cells' : LiveSet ℕ}, after.sets[set]? = some cells' →
        ∃ cells, book.sets[set]? = some cells ∧ ∀ {i other : ℕ},
          cells'[i]? = some (some other) ↔ cells[i]? = some (some other) ∧ other ≠ id := by
      intro set cells' hset
      have hlt := (List.getElem?_eq_some_iff.1 hset).1
      rw [hlength] at hlt
      have hsome := List.getElem?_eq_getElem hlt
      obtain ⟨cells'', hset', -, hcells⟩ := hsets hsome
      rw [hset, Option.some.injEq] at hset'
      exact ⟨_, hsome, hset' ▸ hcells⟩
    have hopen : ∀ {other : ℕ} {entry' : WatcherEntry}, after.entries[other]? = some entry' →
        entry'.closed = false → book.entries[other]? = some entry' ∧ other ≠ id := by
      intro other entry' hother hopen
      have hne : other ≠ id := by
        rintro rfl
        rw [hself, Option.some.injEq] at hother
        rw [← hother] at hopen
        cases hopen
      exact ⟨(hfind other hne).symm.trans hother, hne⟩
    refine ⟨⟨?_, ?_, ?_, ?_, ?_⟩, ⟨?_, ?_, ?_, ?_⟩⟩
    · intro set cells' i other hset hcell
      obtain ⟨cells, hbefore, hcells⟩ := hset_back hset
      obtain ⟨hcell, hne⟩ := hcells.1 hcell
      obtain ⟨entry', hentry', hopen, hpath⟩ := h.live hbefore hcell
      exact ⟨entry', (hfind other hne).trans hentry', hopen, hkept hpath hbefore hcell hne⟩
    · intro other entry' hother hclosed
      obtain ⟨hbefore, hne⟩ := hopen hother hclosed
      obtain ⟨set, cells, i, hpath, hset, hcell⟩ := h.held hbefore hclosed
      obtain ⟨cells', hset', -, hcells⟩ := hsets hset
      exact ⟨set, cells', i, hkept hpath hset hcell hne, hset', hcells.2 ⟨hcell, hne⟩⟩
    · intro set cells' i j other hset hi hj
      obtain ⟨cells, hbefore, hcells⟩ := hset_back hset
      exact h.distinct hbefore (hcells.1 hi).1 (hcells.1 hj).1
    · intro path set hset
      exact hlength ▸ h.made (hback hset)
    · intro path other set hpath hother
      exact h.single (hback hpath) (hback hother)
    · rw [hentries, List.length_modify]
    · intro other entry' hother
      by_cases hne : other = id
      · subst hne
        rw [hentry, Option.some.injEq] at hother
        subst hother
        exact ⟨_, hself, rfl, rfl, fun _ => rfl⟩
      · exact ⟨entry', (hfind other hne).trans hother, rfl, rfl, fun h => h⟩
    · intro set cells hset
      obtain ⟨cells', hset', hlength, hcells⟩ := hsets hset
      refine ⟨cells', hset', hlength.ge, fun hcell => .inl (hcells.1 hcell).1,
        fun {i other} hcell => ?_⟩
      by_cases hne : other = id
      · exact .inr ⟨_, hne ▸ hself, rfl⟩
      · exact .inl (hcells.2 ⟨hcell, hne⟩)
    · intro path set hset _
      exact hback hset

theorem Sound.perform (h : book.Sound) (op : WatchOp) :
    (book.perform op).Sound ∧ Later book (book.perform op) := by
  cases op with
  | watch filename recursive => exact h.watch filename recursive
  | close id => exact h.close id

theorem Sound.foldl (h : book.Sound) (ops : List WatchOp) :
    (ops.foldl WatcherBook.perform book).Sound ∧
      Later book (ops.foldl WatcherBook.perform book) := by
  induction ops generalizing book with
  | nil => exact ⟨h, .refl book⟩
  | cons op ops ih =>
    obtain ⟨hsound, hlater⟩ := h.perform op
    obtain ⟨hsound', hlater'⟩ := ih hsound
    exact ⟨hsound', hlater.trans hlater'⟩

theorem sound_empty : empty.Sound where
  live h _ := by cases h
  held h _ := by cases h
  distinct h _ _ := by cases h
  made h := by cases h
  single h _ := by cases h

end WatcherBook

end VirtualFS

end Tabnode
