import Mathlib.Data.List.Basic
import Mathlib.Data.Nat.Notation

/-!
# The output of a child that was not streamed

A command line's output is collected as one text, and the pieces of it that were streamed are
taken out where they stand. The earliest place of a piece leaves the most to the pieces behind
it, so where all of them stand in the text in some way, each is found.
-/

namespace Tabnode

namespace ChildProcess

open List

variable {α : Type*}

section Source

variable [DecidableEq α]

/-- `text.indexOf(piece, cursor)` -/
def indexOf (text piece : List α) (cursor : ℕ) : Option ℕ :=
  (List.range (text.length + 1)).find? fun place =>
    cursor ≤ place && piece.isPrefixOf (text.drop place)

def takeOut : List α → ℕ → List (List α) → List α
  | rest, _, [] => rest
  | rest, cursor, piece :: streamed =>
    if piece = [] then takeOut rest cursor streamed
    else
      match indexOf rest piece cursor with
      | none => takeOut rest cursor streamed
      | some place =>
        takeOut (rest.take place ++ rest.drop (place + piece.length)) place streamed

def unstreamedOutput (total : List α) (streamed : List (List α)) : List α :=
  takeOut total 0 streamed

end Source

/-- The text has the pieces in it, whole and in order, and the rest between them. -/
inductive Interleaved : List (List α) → List α → List α → Prop
  | nil (rest : List α) : Interleaved [] rest rest
  | cons {pieces : List (List α)} {total rest : List α} (before piece : List α) :
      Interleaved pieces rest total →
        Interleaved (piece :: pieces) (before ++ rest) (before ++ (piece ++ total))

variable {pieces : List (List α)} {total rest : List α}

theorem Interleaved.append (h : Interleaved pieces rest total) (before : List α) :
    Interleaved pieces (before ++ rest) (before ++ total) := by
  cases h with
  | nil => exact .nil _
  | cons before' piece h =>
    rw [← append_assoc, ← append_assoc]
    exact .cons (before ++ before') piece h

variable [DecidableEq α]

/-- A place is found no later than any other, and not before the cursor. -/
theorem exists_indexOf (kept before piece after : List α) :
    ∃ first last, indexOf (kept ++ (before ++ (piece ++ after))) piece kept.length =
        some (kept.length + first.length) ∧
      before ++ (piece ++ after) = first ++ (piece ++ last) ∧ after <:+ last := by
  generalize htext : kept ++ (before ++ (piece ++ after)) = text
  have hplace : (decide (kept.length ≤ kept.length + before.length) &&
      piece.isPrefixOf (text.drop (kept.length + before.length))) = true := by
    rw [← htext, ← append_assoc, drop_left' length_append]
    simp
  have hlt : kept.length + before.length < text.length + 1 := by
    rw [← htext]
    simp only [length_append]
    omega
  obtain ⟨place, hfind⟩ : ∃ place, indexOf text piece kept.length = some place :=
    Option.isSome_iff_exists.1
      (find?_isSome.2 ⟨_, mem_range.2 hlt, hplace⟩)
  have hfound := find?_some hfind
  rw [Bool.and_eq_true, decide_eq_true_eq, isPrefixOf_iff_prefix] at hfound
  obtain ⟨hcursor, last, hlast⟩ := hfound
  have hle : place ≤ kept.length + before.length := by
    by_contra hgt
    obtain ⟨-, i, hi, hplaceEq, hnone⟩ := find?_eq_some_iff_getElem.1 hfind
    rw [getElem_range] at hplaceEq
    have hbefore := hnone (kept.length + before.length) (by omega)
    rw [getElem_range, hplace] at hbefore
    cases hbefore
  obtain ⟨skip, rfl⟩ := Nat.exists_eq_add_of_le hcursor
  have hdrop : text.drop (kept.length + skip) = (before ++ (piece ++ after)).drop skip := by
    rw [← htext, ← drop_drop, drop_left]
  rw [hdrop] at hlast
  have hskip : skip ≤ before.length := by omega
  refine ⟨before.take skip, last, ?_, ?_, ?_⟩
  · rw [hfind, length_take, Nat.min_eq_left hskip]
  · rw [hlast, drop_append_of_le_length hskip, ← append_assoc (before.take skip),
      take_append_drop]
  · rw [drop_append_of_le_length hskip] at hlast
    have hsuffix : piece ++ after <:+ piece ++ last := ⟨before.drop skip, hlast.symm⟩
    refine suffix_of_suffix_length_le ((suffix_append _ _).trans hsuffix)
      (suffix_append _ _) ?_
    have hlength := hsuffix.length_le
    simp only [length_append] at hlength
    omega

/-- Each piece is taken out of what is behind the pieces before it. -/
theorem takeOut_interleaved (hpieces : ∀ piece ∈ pieces, piece ≠ []) (kept : List α)
    (h : Interleaved pieces rest total) :
    ∃ left, takeOut (kept ++ total) kept.length pieces = kept ++ left ∧
      Interleaved pieces left total := by
  induction pieces generalizing kept rest total with
  | nil =>
    cases h
    exact ⟨_, rfl, .nil _⟩
  | cons piece pieces ih =>
    cases h with
    | cons before _ h =>
      rename_i behind more
      obtain ⟨first, last, hindex, hsame, extra, rfl⟩ := exists_indexOf kept before piece behind
      obtain ⟨left, hleft, hinterleaved⟩ :=
        ih (fun p hp => hpieces p (mem_cons_of_mem _ hp)) (kept ++ first) (h.append extra)
      have htake : (kept ++ (before ++ (piece ++ behind))).take (kept.length + first.length) =
          kept ++ first := by
        rw [hsame, ← append_assoc, take_left' length_append]
      have hdrop : (kept ++ (before ++ (piece ++ behind))).drop
          (kept.length + first.length + piece.length) = extra ++ behind := by
        rw [hsame, ← append_assoc, ← drop_drop, drop_left' length_append,
          drop_left]
      refine ⟨first ++ left, ?_, hsame ▸ .cons first piece hinterleaved⟩
      rw [takeOut, if_neg (hpieces piece mem_cons_self), hindex]
      dsimp only
      rw [htake, hdrop, ← length_append, hleft, append_assoc]

/-- What is left of a text with the pieces in it is a rest of it: nothing streamed is in it
again, and nothing else is missing. -/
theorem unstreamedOutput_interleaved (pieces : List (List α)) (total other : List α)
    (hpieces : ∀ piece ∈ pieces, piece ≠ []) (h : Interleaved pieces other total) :
    Interleaved pieces (unstreamedOutput total pieces) total := by
  obtain ⟨left, hleft, hinterleaved⟩ := takeOut_interleaved hpieces [] h
  rw [unstreamedOutput, show takeOut total 0 pieces = left from hleft]
  exact hinterleaved

/-- The pieces `ab` and `a` stand in `aaba` behind an `a` of the other text; the last is found. -/
theorem unstreamedOutput_interleaved_aaba :
    Interleaved [['a', 'b'], ['a']] (unstreamedOutput "aaba".toList [['a', 'b'], ['a']])
      "aaba".toList :=
  unstreamedOutput_interleaved [['a', 'b'], ['a']] "aaba".toList ['a'] (by decide)
    (.cons ['a'] ['a', 'b'] (.cons [] ['a'] (.nil [])))

end ChildProcess

end Tabnode
