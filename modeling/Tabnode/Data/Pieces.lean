import Mathlib.Data.List.Basic
import Mathlib.Data.Nat.Notation

/-!
# Pieces

A list of elements that make up characters is seen in chunks. What a chunk cuts off is
held back and completed by the beginning of the next one, so that the list is taken in
pieces which each end where a character does. A decoding that may be split at those
places is the concatenation of the decodings of the pieces (`flatMap_pieces`).
-/

namespace Tabnode

open List
variable {α β : Type*}

/-- How elements make up characters: how many more an unfinished one needs, which elements
may be among these, and what a list that begins with a character leaves unfinished. -/
structure Cutter (α : Type*) where
  need : List α → ℕ
  continues : α → Bool
  unfinished : List α → List α

namespace Cutter

variable (K : Cutter α)

def body (x : List α) : List α := x.take (x.length - (K.unfinished x).length)

def completing (held chunk : List α) : List α :=
  (chunk.take (K.need held)).takeWhile K.continues

def Pending (held chunk : List α) : Prop :=
  (K.completing held chunk).length < K.need held ∧
    (K.completing held chunk).length = chunk.length

instance (held chunk : List α) : Decidable (K.Pending held chunk) :=
  inferInstanceAs (Decidable (_ ∧ _))

def rest (held chunk : List α) : List α := chunk.drop (K.completing held chunk).length

def feed (held chunk : List α) : List (List α) × List α :=
  match held with
  | [] => ([K.body chunk], K.unfinished chunk)
  | held@(_ :: _) =>
      if K.Pending held chunk then ([], held ++ chunk)
      else
        ([held ++ K.completing held chunk, K.body (K.rest held chunk)],
          K.unfinished (K.rest held chunk))

def pieces : List α → List (List α) → List (List α)
  | held, [] => [held]
  | held, chunk :: chunks => (K.feed held chunk).1 ++ pieces (K.feed held chunk).2 chunks

/-- A decoding may be split before what is unfinished, behind a character that has all it
needs, and before an element that continues nothing. -/
structure Splits (D : List α → List β) (Held : List α → Prop) : Prop where
  held_unfinished : ∀ x, Held (K.unfinished x)
  held_append : ∀ {a h chunk}, Held (a :: h) → K.Pending (a :: h) chunk →
    Held (a :: h ++ chunk)
  at_unfinished : ∀ x y, D (x ++ y) = D (K.body x) ++ D (K.unfinished x ++ y)
  at_need : ∀ {a h c}, Held (a :: h) → (∀ b ∈ c, K.continues b) →
    c.length = K.need (a :: h) → ∀ y, D (a :: h ++ c ++ y) = D (a :: h ++ c) ++ D y
  at_start : ∀ {x b}, ¬ K.continues b → ∀ y, D (x ++ b :: y) = D x ++ D (b :: y)

variable {K} {D : List α → List β} {Held : List α → Prop}

theorem completing_append_rest (held chunk : List α) :
    K.completing held chunk ++ K.rest held chunk = chunk := by
  have hprefix : K.completing held chunk <+: chunk :=
    (List.takeWhile_prefix _).trans (List.take_prefix _ _)
  rw [rest, prefix_iff_eq_take.1 hprefix, length_take,
    Nat.min_eq_left hprefix.length_le, take_append_drop]

theorem continues_of_mem_completing {held chunk : List α} :
    ∀ b ∈ K.completing held chunk, K.continues b :=
  all_eq_true.1 all_takeWhile

/-- Behind a held character that is short of what it needs stands an element that
continues nothing. -/
theorem rest_eq_cons {held chunk : List α} (hshort : (K.completing held chunk).length < K.need held)
    (hmore : (K.completing held chunk).length ≠ chunk.length) :
    ∃ b rest, K.rest held chunk = b :: rest ∧ ¬ K.continues b := by
  have hsplit : K.completing held chunk ++ (chunk.take (K.need held)).dropWhile K.continues =
      chunk.take (K.need held) := takeWhile_append_dropWhile
  have hlen := congrArg List.length hsplit
  have hle := (List.takeWhile_prefix (l := chunk.take (K.need held)) K.continues).length_le
  rw [length_take] at hle
  rw [length_append, length_take] at hlen
  rw [← completing] at hle
  have hne : (chunk.take (K.need held)).dropWhile K.continues ≠ [] := by
    intro hnil
    rw [hnil, length_nil] at hlen
    omega
  have hhead := head_dropWhile_not K.continues hne
  cases hdrop : (chunk.take (K.need held)).dropWhile K.continues with
  | nil => exact absurd hdrop hne
  | cons b others =>
    refine ⟨b, others ++ chunk.drop (K.need held), ?_, by simpa [hdrop] using hhead⟩
    have hchunk : chunk = K.completing held chunk ++ (b :: others ++ chunk.drop (K.need held)) := by
      rw [← hdrop, ← append_assoc, hsplit, take_append_drop]
    calc K.rest held chunk
        = (K.completing held chunk ++ (b :: others ++ chunk.drop (K.need held))).drop
            (K.completing held chunk).length := by rw [← hchunk, rest]
      _ = b :: others ++ chunk.drop (K.need held) := drop_left' rfl

theorem flatMap_feed (hD : K.Splits D Held) {held : List α} (hheld : Held held)
    (chunk y : List α) :
    D (held ++ chunk ++ y) = (K.feed held chunk).1.flatMap D ++ D ((K.feed held chunk).2 ++ y) ∧
      Held (K.feed held chunk).2 := by
  cases held with
  | nil =>
    simp only [feed, nil_append, flatMap_cons, flatMap_nil, append_nil]
    exact ⟨hD.at_unfinished chunk y, hD.held_unfinished chunk⟩
  | cons a h =>
    by_cases hpending : K.Pending (a :: h) chunk
    · simp only [feed, if_pos hpending, flatMap_nil, nil_append]
      exact ⟨trivial, hD.held_append hheld hpending⟩
    · have hsplit : D (a :: h ++ chunk ++ y) =
          D (a :: h ++ K.completing (a :: h) chunk) ++ D (K.rest (a :: h) chunk ++ y) := by
        have hchunk : a :: h ++ chunk ++ y = a :: h ++ K.completing (a :: h) chunk ++
            (K.rest (a :: h) chunk ++ y) := by
          conv_lhs => rw [← completing_append_rest (K := K) (a :: h) chunk]
          simp only [append_assoc]
        have hle : (K.completing (a :: h) chunk).length ≤ K.need (a :: h) :=
          Nat.le_trans (List.takeWhile_prefix _).length_le (length_take_le _ _)
        rw [hchunk]
        by_cases hneed : (K.completing (a :: h) chunk).length = K.need (a :: h)
        · exact hD.at_need hheld continues_of_mem_completing hneed _
        · obtain ⟨b, rest, hrest, hb⟩ := rest_eq_cons (by omega) fun heq => hpending ⟨by omega, heq⟩
          rw [hrest]
          exact hD.at_start hb (rest ++ y)
      simp only [feed, if_neg hpending, flatMap_cons, flatMap_nil, append_nil,
        append_assoc] at hsplit ⊢
      rw [hsplit, hD.at_unfinished (K.rest (a :: h) chunk) y]
      exact ⟨rfl, hD.held_unfinished _⟩

theorem flatMap_pieces (hD : K.Splits D Held) {held : List α} (hheld : Held held)
    (chunks : List (List α)) : (K.pieces held chunks).flatMap D = D (held ++ chunks.flatten) := by
  induction chunks generalizing held with
  | nil => simp [pieces]
  | cons chunk chunks ih =>
    obtain ⟨hdecode, hnext⟩ := flatMap_feed hD hheld chunk chunks.flatten
    rw [pieces, flatMap_append, ih hnext, flatten_cons, ← append_assoc, hdecode]

/-- Of two decodings, the one no longer than the other on each piece, the results are the
same where they are on each piece. -/
theorem flatMap_eq_flatMap_iff {f g : α → List β} {l : List α}
    (h : ∀ x, (f x).length ≤ (g x).length) : l.flatMap f = l.flatMap g ↔ ∀ x ∈ l, f x = g x := by
  refine ⟨fun heq => ?_, flatMap_congr⟩
  have hle : ∀ l : List α, (l.flatMap f).length ≤ (l.flatMap g).length := by
    intro l
    induction l with
    | nil => exact Nat.le_refl _
    | cons x l ih =>
      have hx := h x
      simp only [flatMap_cons, length_append]
      omega
  induction l with
  | nil => simp
  | cons x l ih =>
    simp only [flatMap_cons] at heq
    have hlen := congrArg List.length heq
    simp only [length_append] at hlen
    have hx := h x
    have hl := hle l
    obtain ⟨hhead, htail⟩ := append_inj heq (by omega)
    intro z hz
    rcases mem_cons.1 hz with rfl | hz
    · exact hhead
    · exact ih htail z hz

end Cutter

end Tabnode
