import Tabnode.StringDecoder.Feed

/-!
# Chunks

The text of chunks, however the bytes were cut, is that of the whole where the platform's
decoder has each piece right that the cuts make, and nowhere else (`chunked_iff`).
-/

namespace Tabnode

namespace StringDecoder

open List

/-- The chunks decode to the text of the whole, and the decoder answers after it as a new
one does. -/
def Chunked (enc : Encoding) (chunks : List (List UInt8)) : Prop :=
  ∃ next, decodeChunks (Decoder.new enc) chunks = .ok (next, text enc chunks.flatten) ∧
    ∀ calls, answers next calls = answers (Decoder.new enc) calls

theorem holds_new (enc : Encoding) : Holds (Decoder.new enc) [] := by
  cases enc <;> exact holds_nothing rfl rfl

theorem encoding_new (enc : Encoding) : (Decoder.new enc).encoding = enc := by cases enc <;> rfl

theorem feed_simple {enc : Encoding} (henc : Simple enc = true) (buf : List UInt8) :
    (cutter enc).feed [] buf = ([buf], []) := by
  have hnone : (cutter enc).unfinished buf = [] := by
    cases enc with
    | latin1 | ascii | hex =>
      refine eq_nil_of_length_eq_zero ?_
      exact (length_group_unfinished 1 buf).trans (Nat.mod_one _)
    | utf8 | utf16le | base64 | base64url => cases henc
  rw [Cutter.feed, Cutter.body, hnone, length_nil, Nat.sub_zero, take_length]

variable {self : Decoder} {held : List UInt8}

theorem write_feed (h : Holds self held) {buf : List UInt8} (hfits : Fits self.encoding buf) :
    ∃ next, write self buf =
        .ok (next, ((cutter self.encoding).feed held buf).1.flatMap (slice self.encoding)) ∧
      next.encoding = self.encoding ∧ Holds next ((cutter self.encoding).feed held buf).2 := by
  by_cases hsimple : Simple self.encoding = true
  · have hheld : held = [] := by
      by_contra hne
      rw [not_simple_of_held h.may hne] at hsimple
      cases hsimple
    subst hheld
    refine ⟨self, ?_, rfl, ?_⟩
    · rw [write, if_neg (not_not.2 hfits), if_pos hsimple, feed_simple hsimple]
      simp
    · rw [feed_simple hsimple]
      exact h
  · obtain ⟨hsame, htext, hholds⟩ := heldWrite_feed (Bool.eq_false_iff.2 hsimple) h buf
    refine ⟨(heldWrite self buf).1, ?_, hsame, hholds⟩
    rw [write, if_neg (not_not.2 hfits), if_neg hsimple, ← htext]

theorem write_of_not_fits {buf : List UInt8} (h : ¬ Fits self.encoding buf) :
    write self buf = .error (.stringTooLong kStringMaxLength) := if_pos h

theorem decodeChunks_eq (h : Holds self held) {chunks : List (List UInt8)}
    (hfits : ∀ chunk ∈ chunks, Fits self.encoding chunk) : ∃ next, decodeChunks self chunks =
        .ok (next, ((cutter self.encoding).pieces held chunks).flatMap (slice self.encoding)) ∧
      next.encoding = self.encoding ∧ Holds next [] := by
  induction chunks generalizing self held with
  | nil =>
    obtain ⟨hsame, htext, hholds⟩ := flush_eq h
    refine ⟨(flush self).1, ?_, hsame, hholds⟩
    rw [decodeChunks, finish, Cutter.pieces, flatMap_cons, flatMap_nil, append_nil,
      ← htext]
  | cons chunk chunks ih =>
    obtain ⟨next, hwrite, hsame, hholds⟩ := write_feed h (hfits chunk (by simp))
    obtain ⟨last, hrest, hsame', hholds'⟩ :=
      ih hholds fun c hc => by rw [hsame]; exact hfits c (mem_cons_of_mem chunk hc)
    refine ⟨last, ?_, hsame'.trans hsame, hholds'⟩
    simp only [decodeChunks, hwrite, hrest, hsame, Cutter.pieces, flatMap_append]

theorem decodeChunks_error (self : Decoder) {chunks : List (List UInt8)}
    (h : ¬ ∀ chunk ∈ chunks, Fits self.encoding chunk) (hself : Holds self held) :
    ∃ e, decodeChunks self chunks = .error e := by
  induction chunks generalizing self held with
  | nil => exact absurd (by simp) h
  | cons chunk chunks ih =>
    by_cases hfits : Fits self.encoding chunk
    · obtain ⟨next, hwrite, hsame, hholds⟩ := write_feed hself hfits
      have hrest : ¬ ∀ c ∈ chunks, Fits next.encoding c := by
        intro hall
        refine h fun c hc => ?_
        rcases mem_cons.1 hc with rfl | hc
        · exact hfits
        · rw [← hsame]
          exact hall c hc
      obtain ⟨e, he⟩ := ih next hrest hholds
      exact ⟨e, by simp only [decodeChunks, hwrite, he]⟩
    · exact ⟨.stringTooLong kStringMaxLength, by simp only [decodeChunks, write_of_not_fits hfits]⟩

def answer (enc : Encoding) (held : List UInt8) : Call → Except Error (List ℕ) × List UInt8
  | .write buf =>
      if Fits enc buf then
        (.ok (((cutter enc).feed held buf).1.flatMap (slice enc)), ((cutter enc).feed held buf).2)
      else (.error (.stringTooLong kStringMaxLength), held)
  | .finish none | .finish (some []) => (.ok (slice enc held), [])
  | .finish (some buf@(_ :: _)) =>
      if Fits enc buf then
        (.ok (((cutter enc).feed held buf).1.flatMap (slice enc) ++
          slice enc ((cutter enc).feed held buf).2), [])
      else (.error (.stringTooLong kStringMaxLength), held)

theorem call_eq (h : Holds self held) (c : Call) :
    (call self c).2 = (answer self.encoding held c).1 ∧
      (call self c).1.encoding = self.encoding ∧
      Holds (call self c).1 (answer self.encoding held c).2 := by
  obtain ⟨hflush, hflushText, hflushHolds⟩ := flush_eq h
  cases c with
  | write buf =>
    by_cases hfits : Fits self.encoding buf
    · obtain ⟨next, hwrite, hsame, hholds⟩ := write_feed h hfits
      simp only [call, hwrite, answer, if_pos hfits]
      exact ⟨trivial, hsame, hholds⟩
    · simp only [call, write_of_not_fits hfits, answer, if_neg hfits]
      exact ⟨trivial, trivial, h⟩
  | finish buf =>
    match buf with
    | none | some [] =>
      simp only [call, finish, answer]
      exact ⟨by rw [hflushText], hflush, hflushHolds⟩
    | some (b :: buf) =>
      by_cases hfits : Fits self.encoding (b :: buf)
      · obtain ⟨next, hwrite, hsame, hholds⟩ := write_feed h hfits
        obtain ⟨hlast, htext, hnothing⟩ := flush_eq hholds
        simp only [call, finish, hwrite, answer, if_pos hfits]
        exact ⟨by rw [htext, hsame], hlast.trans hsame, hnothing⟩
      · simp only [call, finish, write_of_not_fits hfits, answer, if_neg hfits]
        exact ⟨trivial, trivial, h⟩

theorem answers_congr {d e : Decoder} (hd : Holds d held) (he : Holds e held)
    (henc : d.encoding = e.encoding) (calls : List Call) : answers d calls = answers e calls := by
  induction calls generalizing d e held with
  | nil => rfl
  | cons c calls ih =>
    obtain ⟨hd, hdenc, hdnext⟩ := call_eq hd c
    obtain ⟨he, heenc, henext⟩ := call_eq he c
    rw [henc] at hd hdnext
    rw [answers, answers, hd, he, ih hdnext henext (hdenc.trans (henc.trans heenc.symm))]

/-- The chunks decode to the text of the whole where each chunk fits and each piece is
faithful, and nowhere else. -/
theorem chunked_iff (enc : Encoding) (chunks : List (List UInt8)) :
    Chunked enc chunks ↔ (∀ chunk ∈ chunks, Fits enc chunk) ∧
      ∀ piece ∈ (cutter enc).pieces [] chunks, Faithful enc piece := by
  have hnew := holds_new enc
  have henc := encoding_new enc
  by_cases hfits : ∀ chunk ∈ chunks, Fits enc chunk
  · obtain ⟨next, hdecode, hsame, hholds⟩ := decodeChunks_eq hnew (henc.symm ▸ hfits)
    rw [henc] at hdecode
    have hwhole := Cutter.flatMap_pieces (splits_text enc) (henc ▸ hnew.may) chunks
    rw [nil_append] at hwhole
    have hpieces := Cutter.flatMap_eq_flatMap_iff (l := (cutter enc).pieces [] chunks)
      (length_slice_le enc)
    simp only [slice_eq_text_iff] at hpieces
    rw [Chunked, and_iff_right hfits, ← hpieces, hwhole, hdecode]
    constructor
    · rintro ⟨other, hsame, -⟩
      exact (Prod.mk.inj (Except.ok.inj hsame)).2
    · intro heq
      exact ⟨next, by rw [heq], answers_congr hholds hnew hsame⟩
  · obtain ⟨e, he⟩ := decodeChunks_error (Decoder.new enc) (henc.symm ▸ hfits) hnew
    refine iff_of_false ?_ fun h => hfits h.1
    rintro ⟨next, hdecode, -⟩
    rw [he] at hdecode
    cases hdecode

/-- A byte order mark at the beginning of a chunk is lost. -/
theorem bom_of_chunk_lost : ¬ Chunked .utf8 [[0x61], [0xEF, 0xBB, 0xBF, 0x62]] := by
  rintro ⟨next, hdecode, -⟩
  have htext : decodeChunks (Decoder.new .utf8) [[0x61], [0xEF, 0xBB, 0xBF, 0x62]] =
      .ok (Decoder.new .utf8, [0x61, 0x62]) := rfl
  rw [htext] at hdecode
  have hsame := (Prod.mk.inj (Except.ok.inj hdecode)).2
  exact absurd hsame (by decide)

end StringDecoder

end Tabnode
