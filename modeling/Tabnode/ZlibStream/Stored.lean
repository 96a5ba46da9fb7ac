import Tabnode.ZlibStream.Contract

/-!
# Stored blocks

What zlib keeps can be kept: with level 0 deflate stores its input in blocks as it is. Here
every byte is a block of its own, put out when a flush asks for it, and inflate is a machine
that reads one byte at a time.
-/

namespace Tabnode

namespace ZlibStream

open List

namespace Stored

/-! ## Reading blocks -/

/-- Where inflate is in a block: at its header, at its length, in the rest of the length
and its complement, at its byte, or past the last block. -/
inductive Inflating where
  | header
  | length (final : Bool)
  | rest (final empty : Bool) (left : ℕ)
  | data (final : Bool)
  | done
  deriving DecidableEq

def Inflating.after (final : Bool) : Inflating :=
  if final then .done else .header

def Inflating.next : Inflating → UInt8 → Inflating × List UInt8
  | .header, b => (.length (b == 1), [])
  | .length final, b => (.rest final (b == 0) 2, [])
  | .rest final empty (left + 1), _ => (.rest final empty left, [])
  | .rest final empty 0, _ => (if empty then .after final else .data final, [])
  | .data final, b => (.after final, [b])
  | .done, _ => (.done, [])

def Inflating.puts : Inflating → Bool
  | .data _ => true
  | _ => false

def Inflating.inflate : Inflating → List UInt8 → ℕ → Call Inflating
  | s, [], _ => ⟨if s = .done then .Z_STREAM_END else .Z_OK, s, 0, []⟩
  | s, b :: bs, room =>
      if s = .done then ⟨.Z_STREAM_END, s, 0, []⟩
      else if s.puts && room == 0 then ⟨.Z_OK, s, 0, []⟩
      else
        let r := s.next b
        let call := inflate r.1 bs (room - r.2.length)
        ⟨call.status, call.strm, call.taken + 1, r.2 ++ call.put⟩

def Inflating.readAll : Inflating → List UInt8 → Inflating × List UInt8
  | s, [] => (s, [])
  | s, b :: bs => ((readAll (s.next b).1 bs).1, (s.next b).2 ++ (readAll (s.next b).1 bs).2)

def Inflating.Ends : Inflating → List UInt8 → Prop
  | _, [] => True
  | s, b :: bs => s ≠ .done ∧ Ends (s.next b).1 bs

theorem readAll_append (s : Inflating) (bs cs : List UInt8) :
    s.readAll (bs ++ cs) =
      (((s.readAll bs).1.readAll cs).1, (s.readAll bs).2 ++ ((s.readAll bs).1.readAll cs).2) := by
  induction bs generalizing s with
  | nil => rfl
  | cons b bs ih =>
      rw [cons_append, Inflating.readAll, ih, Inflating.readAll, append_assoc]

theorem ends_append (s : Inflating) (bs cs : List UInt8) :
    s.Ends (bs ++ cs) ↔ s.Ends bs ∧ (s.readAll bs).1.Ends cs := by
  induction bs generalizing s with
  | nil => simp [Inflating.Ends, Inflating.readAll]
  | cons b bs ih =>
      rw [cons_append, Inflating.Ends, ih, Inflating.Ends, Inflating.readAll, and_assoc]

theorem puts_of_next {s : Inflating} {b : UInt8} (h : (s.next b).2 ≠ []) : s.puts = true := by
  unfold Inflating.next at h
  split at h <;> first | rfl | exact absurd rfl h

theorem length_next_le (s : Inflating) (b : UInt8) : (s.next b).2.length ≤ 1 := by
  unfold Inflating.next
  split <;> simp

/-- What a call of inflate reads is what it puts out, and it stops for want of input or
of room. -/
theorem inflate_spec (s : Inflating) (bs : List UInt8) (room : ℕ) :
    (s.inflate bs room).taken ≤ bs.length ∧ (s.inflate bs room).put.length ≤ room ∧
      s.readAll (bs.take (s.inflate bs room).taken) =
        ((s.inflate bs room).strm, (s.inflate bs room).put) ∧
      ((s.inflate bs room).status = .Z_OK ∨ (s.inflate bs room).status = .Z_STREAM_END) ∧
      (s.Ends bs → (s.inflate bs room).put.length < room →
        (s.inflate bs room).taken = bs.length) := by
  induction bs generalizing s room with
  | nil =>
      unfold Inflating.inflate
      refine ⟨le_rfl, Nat.zero_le _, rfl, ?_, fun _ _ => rfl⟩
      dsimp only
      split
      · exact .inr rfl
      · exact .inl rfl
  | cons b bs ih =>
      unfold Inflating.inflate
      split
      · next hdone =>
          exact ⟨Nat.zero_le _, Nat.zero_le _, rfl, .inr rfl, fun h => absurd hdone h.1⟩
      · split
        · next hfull =>
            refine ⟨Nat.zero_le _, Nat.zero_le _, rfl, .inl rfl, ?_⟩
            intro _ hroom
            simp only [Bool.and_eq_true, beq_iff_eq] at hfull
            simp only [length_nil] at hroom
            omega
        · next hgoes =>
            obtain ⟨htaken, hput, hread, hstatus, hall⟩ :=
              ih (s.next b).1 (room - (s.next b).2.length)
            have hfits : (s.next b).2.length ≤ room := by
              by_cases hnil : (s.next b).2 = []
              · rw [hnil]
                exact Nat.zero_le _
              · have hputs := puts_of_next hnil
                rw [hputs, Bool.true_and, beq_iff_eq] at hgoes
                have hone := length_next_le s b
                omega
            dsimp only
            refine ⟨by rw [length_cons]; omega, by rw [length_append]; omega, ?_,
              hstatus, ?_⟩
            · rw [take_succ_cons, Inflating.readAll, hread]
            · rintro ⟨-, hends⟩ hroom
              rw [length_append] at hroom
              rw [length_cons, hall hends (by omega)]

/-! ## Writing blocks -/

def block (b : UInt8) : List UInt8 := [0, 1, 0, 254, 255, b]

def blocks : List UInt8 → List UInt8
  | [] => []
  | b :: bs => block b ++ blocks bs

def finish : List UInt8 → List UInt8
  | [] => [1, 0, 0, 255, 255]
  | [b] => [1, 1, 0, 254, 255, b]
  | b :: c :: bs => block b ++ finish (c :: bs)

/-- What deflate holds: input it has not put into blocks, blocks it has not put out, and
whether the final block is among those. -/
structure Deflating where
  held : List UInt8 := []
  pending : List UInt8 := []
  final : Bool := false

def Deflating.take (d : Deflating) (flush : Flush) (input : List UInt8) : Deflating :=
  if d.final then d
  else
    match flush with
    | .Z_FINISH =>
        { held := [], pending := d.pending ++ finish (d.held ++ input), final := true }
    | .Z_NO_FLUSH | .Z_BLOCK | .Z_TREES => { d with held := d.held ++ input }
    | _ => { d with held := [], pending := d.pending ++ blocks (d.held ++ input) }

def Deflating.deflate (d : Deflating) (flush : Flush) (input : List UInt8) (room : ℕ) :
    Call Deflating :=
  let e := d.take flush input
  { status := if e.final && e.pending.length ≤ room then .Z_STREAM_END else .Z_OK
    strm := { e with pending := e.pending.drop room }
    taken := if d.final then 0 else input.length
    put := e.pending.take room }

def stored : ZlibModule Deflating Inflating where
  deflateInit2 _ _ _ _ := (.Z_OK, {})
  deflateSetDictionary d _ := (.Z_OK, d)
  deflate := Deflating.deflate
  deflateReset _ := (.Z_OK, {})
  inflateInit2 _ := (.Z_OK, .header)
  inflateSetDictionary s _ := (.Z_OK, s)
  inflate s _ := s.inflate
  inflateReset _ := (.Z_OK, .header)

/-- Bytes are blocks of `x`. -/
def Blocks (_ : ℤ) (_ x y : List UInt8) : Prop :=
  Inflating.header.Ends y ∧ (Inflating.header.readAll y).2 = x

/-! ## It keeps the contract -/

theorem readAll_blocks : ∀ bs : List UInt8, Inflating.header.Ends (blocks bs) ∧
    Inflating.header.readAll (blocks bs) = (.header, bs)
  | [] => ⟨trivial, rfl⟩
  | b :: bs => by
      obtain ⟨hends, hread⟩ := readAll_blocks bs
      have hblock : Inflating.header.readAll (block b) = (.header, [b]) := rfl
      have hblock' : Inflating.header.Ends (block b) := by
        simp [Inflating.Ends, block, Inflating.next]
      rw [blocks, ends_append, readAll_append, hblock]
      exact ⟨⟨hblock', hends⟩, by rw [hread]; rfl⟩

theorem readAll_finish : ∀ bs : List UInt8, Inflating.header.Ends (finish bs) ∧
    (Inflating.header.readAll (finish bs)).2 = bs
  | [] => ⟨by simp [Inflating.Ends, finish, Inflating.next], rfl⟩
  | [b] => ⟨by simp [Inflating.Ends, finish, Inflating.next], rfl⟩
  | b :: c :: bs => by
      obtain ⟨hends, hread⟩ := readAll_finish (c :: bs)
      have hblock : Inflating.header.readAll (block b) = (.header, [b]) := rfl
      have hblock' : Inflating.header.Ends (block b) := by
        simp [Inflating.Ends, block, Inflating.next]
      rw [finish, ends_append, readAll_append, hblock]
      exact ⟨⟨hblock', hends⟩, by rw [hread]; rfl⟩

/-- What a stream took is what it put out, what is pending and what it holds. -/
structure Writes (d : Deflating) (x y : List UInt8) : Prop where
  ends : Inflating.header.Ends (y ++ d.pending)
  reads : (Inflating.header.readAll (y ++ d.pending)).2 ++ d.held = x
  header : d.final = false → (Inflating.header.readAll (y ++ d.pending)).1 = .header
  held : d.final = true → d.held = []

variable {d : Deflating} {x y : List UInt8}

theorem Writes.append (h : Writes d x y) (hfinal : d.final = false) {input more : List UInt8}
    (hmore : Inflating.header.Ends more)
    (hread : (Inflating.header.readAll more).2 = d.held ++ input) :
    Inflating.header.Ends (y ++ (d.pending ++ more)) ∧
      (Inflating.header.readAll (y ++ (d.pending ++ more))).2 = x ++ input ∧
      (Inflating.header.readAll (y ++ (d.pending ++ more))).1 =
        (Inflating.header.readAll more).1 := by
  rw [← append_assoc, ends_append, readAll_append _ (y ++ d.pending), h.header hfinal]
  refine ⟨⟨h.ends, hmore⟩, ?_, rfl⟩
  rw [hread, ← append_assoc, h.reads]

theorem Writes.take (h : Writes d x y) (flush : Flush) (input : List UInt8) :
    Writes (d.take flush input) (x ++ if d.final then [] else input) y := by
  cases hfinal : d.final with
  | true =>
      unfold Deflating.take
      rw [if_pos hfinal, if_pos rfl, append_nil]
      exact h
  | false =>
      rw [if_neg Bool.false_ne_true]
      have held : Writes { d with held := d.held ++ input } (x ++ input) y :=
        ⟨h.ends, by rw [← append_assoc, h.reads], h.header,
          fun hf => absurd (hfinal.symm.trans hf) Bool.false_ne_true⟩
      have flushed : Writes { d with held := [],
                                     pending := d.pending ++ blocks (d.held ++ input) }
          (x ++ input) y := by
        obtain ⟨hends, hread⟩ := readAll_blocks (d.held ++ input)
        obtain ⟨hall, hreads, hstate⟩ := h.append hfinal hends (by rw [hread])
        exact ⟨hall, by rw [hreads, append_nil], fun _ => by rw [hstate, hread],
          fun _ => rfl⟩
      unfold Deflating.take
      rw [if_neg (by rw [hfinal]; exact Bool.false_ne_true)]
      cases flush with
      | Z_FINISH =>
          obtain ⟨hends, hread⟩ := readAll_finish (d.held ++ input)
          obtain ⟨hall, hreads, -⟩ := h.append hfinal hends hread
          exact ⟨hall, by rw [hreads, append_nil], nofun, fun _ => rfl⟩
      | Z_NO_FLUSH | Z_BLOCK | Z_TREES => exact held
      | Z_PARTIAL_FLUSH | Z_SYNC_FLUSH | Z_FULL_FLUSH => exact flushed

theorem Writes.put (h : Writes d x y) (room : ℕ) :
    Writes { d with pending := d.pending.drop room } x (y ++ d.pending.take room) := by
  obtain ⟨hends, hreads, hheader, hheld⟩ := h
  rw [← take_append_drop room d.pending, ← append_assoc] at hends hreads hheader
  exact ⟨hends, hreads, hheader, hheld⟩

theorem take_taken (d : Deflating) (flush : Flush) (input : List UInt8) (room : ℕ) :
    input.take (d.deflate flush input room).taken = if d.final then [] else input := by
  rw [Deflating.deflate]
  cases d.final with
  | true => rfl
  | false => exact take_length

theorem writes_of_deflated {windowBits : ℤ} {dictionary : List UInt8}
    (h : Deflated stored windowBits dictionary d x y) : Writes d x y := by
  have fresh : Writes {} [] [] := ⟨trivial, rfl, fun _ => rfl, nofun⟩
  induction h with
  | init h =>
      cases h
      exact fresh
  | dictionary dictionary h =>
      cases h
      exact fresh
  | reset => exact fresh
  | @deflate dictionary d x y _ flush input room ih =>
      have hput := (ih.take flush input).put room
      rw [← take_taken d flush input room] at hput
      exact hput

theorem held_of_completes (d : Deflating) (h : Writes d x y) {flush : Flush}
    (hcompletes : flush.completes = true) (input : List UInt8) :
    (d.take flush input).held = [] := by
  cases hfinal : d.final with
  | true =>
      unfold Deflating.take
      rw [if_pos hfinal]
      exact h.held hfinal
  | false =>
      unfold Deflating.take
      rw [if_neg (by rw [hfinal]; exact Bool.false_ne_true)]
      cases flush with
      | Z_NO_FLUSH | Z_BLOCK | Z_TREES => cases hcompletes
      | _ => rfl

theorem reads_of_inflated {windowBits : ℤ} {dictionary p o : List UInt8} {given : Bool}
    {s : Inflating} (h : Inflated stored windowBits dictionary given s p o) :
    Inflating.header.readAll p = (s, o) := by
  induction h with
  | init h =>
      cases h
      rfl
  | @inflate given s p o _ flush input room _ ih =>
      obtain ⟨-, -, hread, -⟩ := inflate_spec s input room
      rw [readAll_append, ih]
      simp only [stored, hread]
  | @dictionary given s p o _ flush input room hstatus _ =>
      obtain ⟨-, -, -, hor, -⟩ := inflate_spec s input room
      have hneed : (s.inflate input room).status = .Z_NEED_DICT := hstatus
      rw [hneed] at hor
      obtain h | h := hor <;> cases h

theorem keeps_stored : Keeps stored Blocks := by
  refine ⟨?_, ?_, ?_, ?_, ?_⟩
  · intro windowBits dictionary d x y _ flush input room
    refine ⟨?_, length_take_le _ _, ?_⟩
    · show (if d.final then 0 else input.length) ≤ input.length
      split <;> omega
    · intro hordinary
      have hstatus : Zlib.ordinary (d.deflate flush input room).status = true := by
        rw [Deflating.deflate]
        dsimp only
        split <;> rfl
      exact absurd (hstatus.symm.trans hordinary) Bool.false_ne_true.symm
  · intro windowBits dictionary d x y hmade flush input room hcompletes _ htaken hput
    have hwrites := writes_of_deflated hmade
    have hnext := (hwrites.take flush input)
    have hput' : (d.take flush input).pending.take room = (d.take flush input).pending := by
      refine take_of_length_le ?_
      have hlength : ((d.take flush input).pending.take room).length < room := hput
      rw [length_take] at hlength
      omega
    have hinput : (if d.final then [] else input) = input := by
      rw [← take_taken d flush input room]
      exact take_of_length_le (Nat.le_of_eq htaken.symm)
    have hreads := hnext.reads
    rw [held_of_completes d hwrites hcompletes, append_nil, hinput] at hreads
    show Blocks _ _ _ (y ++ (d.take flush input).pending.take room)
    rw [hput']
    exact ⟨hnext.ends, hreads⟩
  · intro windowBits window _
    exact ⟨.header, rfl⟩
  · rintro windowBits window dictionary x y ⟨hends, hreads⟩ _ _ given s p o hmade flush input room
      ⟨rest, rfl⟩
    obtain ⟨htaken, hput, hread, hstatus, hall⟩ := inflate_spec s input room
    have hp := reads_of_inflated hmade
    have hinput : s.Ends input := by
      have hwhole := ((ends_append _ _ _).1 hends).1
      have hlast := ((ends_append _ _ _).1 hwhole).2
      rwa [hp] at hlast
    have hprefix : o ++ (s.inflate input room).put <+: x := by
      have hsplit : p ++ input ++ rest = p ++ input.take (s.inflate input room).taken ++
          (input.drop (s.inflate input room).taken ++ rest) := by
        rw [append_assoc, append_assoc, ← append_assoc (input.take _),
          take_append_drop]
      rw [← hreads, hsplit, readAll_append _ (p ++ input.take _), readAll_append _ p, hp, hread]
      exact prefix_append _ _
    refine ⟨htaken, hput, hprefix, .inl ?_, ?_⟩
    · show Zlib.ordinary (s.inflate input room).status = true
      obtain h | h := hstatus <;> rw [h] <;> rfl
    · intro _ _ hroom
      have hlength : (s.inflate input room).taken = input.length := hall hinput hroom
      refine ⟨hlength, ?_⟩
      intro hy
      rw [hlength, take_length] at hread
      rw [← hreads, ← hy, readAll_append, hp, hread]
      rfl
  · intro windowBits window dictionary x y _ _ given s p o _ flush input room _ _
    rfl

end Stored

end ZlibStream

end Tabnode
