import Tabnode.ZlibStream.Stored

/-!
# Compressed streams decode to what was written

A handle that compresses is kept beside the calls that made its stream, and a handle that
decodes beside the calls that made its own; what zlib keeps of each call then carries over
to any writes of the two.
-/

namespace Tabnode

namespace ZlibStream

open List

variable {D I : Type} {z : ZlibModule D I}
  {Carries : ℤ → List UInt8 → List UInt8 → List UInt8 → Prop}

namespace Session

/-! ## The stream under a handle that compresses -/

def SameSettings (h h' : Zlib D I) : Prop :=
  h'.mode = h.mode ∧ h'.windowBits = h.windowBits ∧ h'.dictionary = h.dictionary

variable {h h' : Zlib D I}

theorem SameSettings.inflating (hs : SameSettings h h') : h'.inflating = h.inflating := by
  rw [Zlib.inflating, Zlib.inflating, hs.1]

theorem SameSettings.window (hs : SameSettings h h') :
    h'.windowFor h'.windowBits = h.windowFor h.windowBits := by
  rw [Zlib.windowFor, Zlib.windowFor, hs.1, hs.2.1]

theorem SameSettings.dictionaryOf (hs : SameSettings h h') : dictionaryOf h' = dictionaryOf h := by
  rw [Session.dictionaryOf, Session.dictionaryOf, hs.window, hs.2.2]

theorem SameSettings.trans {h'' : Zlib D I} (hs : SameSettings h h')
    (hs' : SameSettings h' h'') : SameSettings h h'' :=
  ⟨hs'.1.trans hs.1, hs'.2.1.trans hs.2.1, hs'.2.2.trans hs.2.2⟩

/-- A handle that compresses has the settings `h` and a stream made by its window's
calls; when the stream is whole, what it took and put out are what was written and put
out. What is flushed is carried. -/
structure Kept (z : ZlibModule D I)
    (Carries : ℤ → List UInt8 → List UInt8 → List UInt8 → Prop) (h : Zlib D I)
    (s : Session D I) : Prop where
  settings : SameSettings h s.handle
  strm : ∀ stream, s.handle.strm = some stream → ∃ strm dictionary x y,
    stream = .deflate strm ∧
      Deflated z (h.windowFor h.windowBits) dictionary strm x y ∧
      (s.whole = true → dictionary = dictionaryOf h ∧ x = s.written ∧ y = s.put)
  carries : s.flushed = true →
    Carries (h.windowFor h.windowBits) (dictionaryOf h) s.written s.put

theorem start_settings (z : ZlibModule D I) (h : Zlib D I) : SameSettings h (h.start z) := by
  unfold Zlib.start
  dsimp only
  split <;> split <;> exact ⟨rfl, rfl, rfl⟩

/-- A stream that is started anew takes the dictionary, where its format has one. -/
theorem start_strm (z : ZlibModule D I) (hinflating : h.inflating = false) (hnone : h.strm = none)
    {stream : Stream D I} (hstrm : (h.start z).strm = some stream) :
    ∃ strm, stream = .deflate strm ∧
      Deflated z (h.windowFor h.windowBits) (dictionaryOf h) strm [] [] := by
  unfold Zlib.start at hstrm
  simp only [hinflating, Bool.false_eq_true, if_false] at hstrm
  split at hstrm
  · next strm hinit =>
      obtain rfl := Option.some.inj hstrm
      refine ⟨_, rfl, ?_⟩
      have hbare : usedDictionary (h.windowFor h.windowBits) [] = [] := by
        unfold usedDictionary
        split <;> rfl
      cases hdictionary : h.dictionary with
      | none =>
          rw [dictionaryOf, hdictionary, Option.getD_none, hbare]
          exact .init hinit
      | some dictionary =>
          cases dictionary with
          | nil =>
              rw [dictionaryOf, hdictionary, Option.getD_some, hbare]
              exact .init hinit
          | cons b rest =>
              rw [dictionaryOf, hdictionary, Option.getD_some]
              exact .dictionary (b :: rest) hinit
  · rw [Zlib.fail, hnone] at hstrm
    cases hstrm

theorem run_deflate {strm : D} (hstrm : h.strm = some (.deflate strm)) (flush : Flush)
    (input : List UInt8) (room : ℕ) : SameSettings h (h.run z flush input room).2 ∧
      (h.run z flush input room).2.strm = some (.deflate (z.deflate strm flush input room).strm) ∧
      (Zlib.ordinary (z.deflate strm flush input room).status = true ∧
          (h.run z flush input room).1 = some ⟨(z.deflate strm flush input room).put,
            room - (z.deflate strm flush input room).put.length,
            input.length - (z.deflate strm flush input room).taken⟩ ∨
        Zlib.ordinary (z.deflate strm flush input room).status = false ∧
          (h.run z flush input room).1 = none) := by
  unfold Zlib.run
  simp only [hstrm, Zlib.settle]
  split
  · next hordinary => exact ⟨⟨rfl, rfl, rfl⟩, rfl, .inl ⟨hordinary, rfl⟩⟩
  · next hordinary => exact ⟨⟨rfl, rfl, rfl⟩, rfl, .inr ⟨by simpa using hordinary, rfl⟩⟩

theorem run_closed (hstrm : h.strm = none) (flush : Flush) (input : List UInt8) (room : ℕ) :
    SameSettings h (h.run z flush input room).2 ∧ (h.run z flush input room).2.strm = none ∧
      (h.run z flush input room).1 = none := by
  unfold Zlib.run
  simp only [hstrm]
  exact ⟨⟨rfl, rfl, rfl⟩, trivial, trivial⟩

/-! ## Calls on a handle that compresses -/

variable {s : Session D I}

theorem step_write_none {flush : Flush} {input : List UInt8} {room : ℕ}
    (h : (s.handle.run z flush input room).1 = none) : s.step z (.write flush input room) =
      { s with handle := (s.handle.run z flush input room).2 } := by
  rw [step]
  split
  · next hrun => rw [hrun]
  · next hrun =>
      rw [hrun] at h
      cases h

theorem step_write_some {flush : Flush} {input : List UInt8} {room : ℕ} {w : Written}
    (h : (s.handle.run z flush input room).1 = some w) : s.step z (.write flush input room) =
      { s with
        handle := (s.handle.run z flush input room).2
        written := s.written ++ input.take (input.length - w.availIn)
        put := s.put ++ w.put
        flushed := flush.completes && decide (w.availIn = 0) && decide (0 < w.availOut) } := by
  rw [step]
  split
  · next hrun =>
      rw [hrun] at h
      cases h
  · next hrun =>
      rw [hrun] at h ⊢
      obtain rfl := Option.some.inj h
      rfl

theorem Kept.write (hz : Keeps z Carries) (hs : Kept z Carries h s) (hwhole : s.whole = true)
    (flush : Flush) (input : List UInt8)
    (room : ℕ) : Kept z Carries h (s.step z (.write flush input room)) := by
  cases hstrm : s.handle.strm with
  | none =>
      obtain ⟨hsame, hafter, hnone⟩ := run_closed hstrm flush input room (z := z)
      rw [step_write_none hnone]
      refine ⟨hs.settings.trans hsame, ?_, hs.carries⟩
      intro stream hstream
      cases hafter.symm.trans hstream
  | some stream =>
      obtain ⟨strm, dictionary, x, y, rfl, hmade, hin⟩ := hs.strm stream hstrm
      obtain ⟨rfl, rfl, rfl⟩ := hin hwhole
      obtain ⟨hsame, hafter, hcase⟩ := run_deflate hstrm flush input room (z := z)
      obtain ⟨htaken, hput, hfailed⟩ := hz.deflates hmade flush input room
      have hnext := hmade.deflate flush input room
      obtain ⟨hordinary, hsome⟩ | ⟨hordinary, hnone⟩ := hcase
      · have hleft : input.length - (input.length - (z.deflate strm flush input room).taken) =
            (z.deflate strm flush input room).taken := by omega
        rw [step_write_some hsome]
        refine ⟨hs.settings.trans hsame, ?_, ?_⟩
        · intro stream hstream
          obtain rfl := Option.some.inj (hafter.symm.trans hstream)
          refine ⟨_, _, _, _, rfl, ?_, fun _ => ⟨rfl, rfl, rfl⟩⟩
          simp only [hleft]
          exact hnext
        · intro hflushed
          simp only [Bool.and_eq_true, decide_eq_true_eq] at hflushed
          obtain ⟨⟨hcompletes, hzero⟩, hroom⟩ := hflushed
          have hall : (z.deflate strm flush input room).taken = input.length := by omega
          have hcarried := hz.flushes hmade hcompletes hordinary hall (by omega)
          simp only [hleft]
          rw [hall, take_length]
          exact hcarried
      · obtain ⟨htook, hnil⟩ := hfailed hordinary
        rw [htook, hnil, take_zero, append_nil, append_nil] at hnext
        rw [step_write_none hnone]
        refine ⟨hs.settings.trans hsame, ?_, hs.carries⟩
        intro stream hstream
        obtain rfl := Option.some.inj (hafter.symm.trans hstream)
        exact ⟨_, _, _, _, rfl, hnext, fun _ => ⟨rfl, rfl, rfl⟩⟩

theorem kept_start {g : Zlib D I} (hsame : SameSettings h g) (hinflating : h.inflating = false)
    (hnone : g.strm = none) (hhandle : s.handle = g.start z)
    (hempty : s.whole = true → s.written = [] ∧ s.put = []) (hcarries : s.flushed = true →
      Carries (h.windowFor h.windowBits) (dictionaryOf h) s.written s.put) :
    Kept z Carries h s := by
  refine ⟨?_, ?_, hcarries⟩
  · rw [hhandle]
    exact hsame.trans (start_settings z g)
  · intro stream hstream
    rw [hhandle] at hstream
    obtain ⟨strm, rfl, hmade⟩ :=
      start_strm z (hsame.inflating.trans hinflating) hnone hstream
    rw [hsame.window, hsame.dictionaryOf] at hmade
    refine ⟨strm, dictionaryOf h, [], [], rfl, hmade, ?_⟩
    intro hwhole
    exact ⟨rfl, (hempty hwhole).1.symm, (hempty hwhole).2.symm⟩

/-- A stream that `params` starts is whole where nothing moved since the reset. -/
theorem Kept.params (hinflating : h.inflating = false) (hs : Kept z Carries h s)
    (level strategy : ℤ) : Kept z Carries h (s.step z (.params level strategy)) := by
  have hdeflates : ¬ s.handle.inflating = true := by
    rw [hs.settings.inflating, hinflating]
    exact Bool.false_ne_true
  have hparams : s.handle.params z level strategy =
      Zlib.start z { s.handle with level := level, strategy := strategy, strm := none } :=
    if_neg hdeflates
  refine kept_start (by exact hs.settings) hinflating rfl hparams ?_ hs.carries
  intro hwhole
  simpa only [step, Bool.and_eq_true, List.isEmpty_iff] using hwhole

theorem Kept.reset (hinflating : h.inflating = false)
    (hs : Kept z Carries h s) : Kept z Carries h (s.step z .reset) := by
  cases hstrm : s.handle.strm with
  | none =>
      have hreset : s.handle.reset z = s.handle.start z := by
        unfold Zlib.reset
        simp only [hstrm]
      exact kept_start hs.settings hinflating hstrm hreset (fun _ => ⟨rfl, rfl⟩) nofun
  | some stream =>
      obtain ⟨strm, dictionary, x, y, rfl, hmade, -⟩ := hs.strm stream hstrm
      have hreset : SameSettings s.handle (s.handle.reset z) ∧
          (s.handle.reset z).strm = some (.deflate (z.deflateReset strm).2) := by
        unfold Zlib.reset
        simp only [hstrm]
        split <;> exact ⟨⟨rfl, rfl, rfl⟩, rfl⟩
      obtain ⟨hsame, hafter⟩ := hreset
      rw [step, hstrm, hs.settings.dictionaryOf]
      refine ⟨hs.settings.trans hsame, ?_, nofun⟩
      intro stream hstream
      obtain rfl := Option.some.inj (hafter.symm.trans hstream)
      refine ⟨_, [], [], [], rfl, hmade.reset, ?_⟩
      intro hwhole
      simp only [Option.isNone_some, Bool.false_or, List.isEmpty_iff] at hwhole
      exact ⟨hwhole.symm, rfl, rfl⟩

theorem Kept.step (hz : Keeps z Carries) (hinflating : h.inflating = false)
    (hs : Kept z Carries h s) {op : Op} (hsuits : s.Suits op) : Kept z Carries h (s.step z op) := by
  cases op with
  | write flush input room => exact hs.write hz hsuits flush input room
  | params level strategy => exact hs.params hinflating level strategy
  | reset => exact hs.reset hinflating

theorem Kept.run (hz : Keeps z Carries) (hinflating : h.inflating = false) :
    ∀ {ops : List Op} {s : Session D I}, Kept z Carries h s → s.AllSuit z ops →
      Kept z Carries h (s.run z ops)
  | [], _, hs, _ => hs
  | op :: ops, s, hs, ⟨hsuits, hrest⟩ => by
      have hlast : Kept z Carries h ((s.step z op).run z ops) :=
        Kept.run hz hinflating (hs.step hz hinflating hsuits) hrest
      exact hlast

end Session

/-! ## The stream under a handle that decodes -/

/-- What a write of a handle that decodes comes to, once inflate was called or called
again: what it took and put out, and how much is left. -/
structure Answers (z : ZlibModule D I) (window : ℤ) (dictionary x y p o : List UInt8)
    (h h' : Zlib D I) (flush : Flush) (input : List UInt8) (room : ℕ) (w : Written) : Prop where
  settings : h'.dictionary = h.dictionary
  reported : h'.reported = h.reported
  inflated : ∃ given strm, h'.strm = some (.inflate strm) ∧
    Inflated z window dictionary given strm (p ++ input.take (input.length - w.availIn))
      (o ++ w.put)
  soFar : o ++ w.put <+: x
  left : w.availIn ≤ input.length
  finishes : flush.runsOn = true → 0 < w.availOut →
    w.availIn = 0 ∧ (p ++ input = y → o ++ w.put = x)

variable {window : ℤ} {dictionary x y : List UInt8} {strm : I}

theorem answers_of_ordinary (hz : Keeps z Carries) {windowBits : ℤ} {p o : List UInt8}
    (hcarries : Carries windowBits dictionary x y) (hreads : Reads windowBits window)
    (hraw : windowBits < 0 → dictionary = []) {given : Bool}
    (hmade : Inflated z window dictionary given strm p o) (h : Zlib D I) (ended : Bool)
    (flush : Flush) {input : List UInt8} (room : ℕ) (hinput : p ++ input <+: y)
    (hordinary : Zlib.ordinary (z.inflate strm flush input room).status = true) :
    Answers z window dictionary x y p o h
      { h with strm := some (.inflate (z.inflate strm flush input room).strm), ended := ended }
      flush input room
      ⟨(z.inflate strm flush input room).put,
        room - (z.inflate strm flush input room).put.length,
        input.length - (z.inflate strm flush input room).taken⟩ := by
  obtain ⟨htaken, hput, hprefix, -, hfinish⟩ :=
    hz.inflates hcarries hreads hraw hmade flush input room hinput
  have hstatus : (z.inflate strm flush input room).status ≠ .Z_NEED_DICT := by
    intro hneed
    rw [hneed] at hordinary
    cases hordinary
  refine ⟨rfl, rfl, ⟨given, _, rfl, ?_⟩, hprefix, Nat.sub_le _ _, ?_⟩
  · have hleft : input.length - (input.length - (z.inflate strm flush input room).taken) =
        (z.inflate strm flush input room).taken := by omega
    simp only [hleft]
    exact hmade.inflate hstatus
  · intro hruns hroom
    obtain ⟨hall, hlast⟩ := hfinish hstatus hruns (by simp only at hroom; omega)
    exact ⟨by simp only [hall, Nat.sub_self], hlast⟩

variable {h : Zlib D I}

/-- A write is answered, the dictionary given where it is asked for. -/
theorem run_inflate (hz : Keeps z Carries) {windowBits : ℤ} {p o : List UInt8}
    (hcarries : Carries windowBits dictionary x y) (hreads : Reads windowBits window)
    (hraw : windowBits < 0 → dictionary = []) {given : Bool}
    (hmade : Inflated z window dictionary given strm p o) (hstrm : h.strm = some (.inflate strm))
    (hdictionary : dictionary ≠ [] → h.dictionary = some dictionary) (flush : Flush)
    {input : List UInt8} (room : ℕ) (hinput : p ++ input <+: y) :
    ∃ w h', h.run z flush input room = (some w, h') ∧
      Answers z window dictionary x y p o h h' flush input room w := by
  obtain ⟨htaken, hput, hprefix, hcase, -⟩ :=
    hz.inflates hcarries hreads hraw hmade flush input room hinput
  obtain hordinary | ⟨hneed, rfl, hsome⟩ := hcase
  · refine ⟨_, _, ?_, answers_of_ordinary hz hcarries hreads hraw hmade h
      (h.ended || (z.inflate strm flush input room).status = .Z_STREAM_END) flush room hinput
      hordinary⟩
    unfold Zlib.run
    simp only [hstrm]
    split
    · next hneed _ =>
        rw [hneed] at hordinary
        cases hordinary
    · rw [Zlib.settle, if_pos hordinary]
  · have hgiven := hmade.dictionary hneed
    have hset := hz.knows hcarries hreads hmade flush input room hinput hneed
    generalize hcall : z.inflate strm flush input room = call at *
    generalize hknown : (z.inflateSetDictionary call.strm dictionary).2 = known at hgiven
    have hpair : z.inflateSetDictionary call.strm dictionary = (.Z_OK, known) :=
      Prod.ext hset hknown
    have hrest : p ++ input.take call.taken ++ input.drop call.taken <+: y := by
      rwa [append_assoc, take_append_drop]
    obtain ⟨htaken', -, -, hcase, -⟩ := hz.inflates hcarries hreads hraw hgiven flush
      (input.drop call.taken) (room - call.put.length) hrest
    have hagain : Zlib.ordinary (z.inflate known flush (input.drop call.taken)
        (room - call.put.length)).status = true := by
      obtain hordinary | ⟨-, hfalse, -⟩ := hcase
      · exact hordinary
      · cases hfalse
    obtain ⟨-, -, ⟨given, strm', hstrm', hinflated⟩, hsoFar, -, hfinishes⟩ :=
      answers_of_ordinary hz hcarries hreads hraw hgiven h h.ended flush
        (room - call.put.length) hrest hagain
    generalize hsecond : z.inflate known flush (input.drop call.taken)
      (room - call.put.length) = again at *
    refine ⟨⟨call.put ++ again.put, room - call.put.length - again.put.length,
        input.length - call.taken - again.taken⟩,
      { h with strm := some (.inflate again.strm) }, ?_, ?_⟩
    · unfold Zlib.run
      simp only [hstrm, hcall, hneed, hdictionary hsome, hpair, hsecond, hagain, if_true]
    · obtain rfl := Stream.inflate.inj (Option.some.inj hstrm')
      rw [length_drop] at htaken' hinflated hfinishes
      have htook : input.length - (input.length - call.taken - again.taken) =
          call.taken + again.taken := by omega
      have htook' : input.length - call.taken - (input.length - call.taken - again.taken) =
          again.taken := by omega
      simp only [htook'] at hinflated
      rw [append_assoc, ← take_add, append_assoc] at hinflated
      rw [append_assoc] at hsoFar
      refine ⟨rfl, rfl, ⟨given, again.strm, rfl, ?_⟩, hsoFar, by simp only; omega, ?_⟩
      · simp only [htook]
        exact hinflated
      · intro hruns hroom
        obtain ⟨hall, hlast⟩ := hfinishes hruns hroom
        refine ⟨hall, ?_⟩
        intro hy
        rw [append_assoc, take_append_drop, append_assoc] at hlast
        exact hlast hy

/-! ## Fed in any cut -/

/-- A handle that decodes has been given a part of its input, and put out a part of `x`. -/
structure Reading (z : ZlibModule D I) (window : ℤ) (dictionary x y : List UInt8)
    (h : Zlib D I) (r : Reader D I) : Prop where
  made : ∃ given strm p, r.handle.strm = some (.inflate strm) ∧
    Inflated z window dictionary given strm p r.out ∧ p ++ r.rest = y
  dictionary : dictionary ≠ [] → r.handle.dictionary = some dictionary
  reported : r.handle.reported = h.reported
  soFar : r.out <+: x

section

variable {windowBits window : ℤ} {dictionary x y : List UInt8} {h : Zlib D I}

theorem Reading.step (hz : Keeps z Carries) (hcarries : Carries windowBits dictionary x y)
    (hreads : Reads windowBits window) (hraw : windowBits < 0 → dictionary = [])
    {r : Reader D I} (hr : Reading z window dictionary x y h r) (f : Feed) :
    Reading z window dictionary x y h (r.step z f) ∧
      (f.flush.runsOn = true → r.rest.length ≤ f.length →
        ∀ w, (r.handle.run z f.flush (r.rest.take f.length) f.room).1 = some w →
          0 < w.availOut →
            w.availIn = 0 ∧ (r.step z f).out = x ∧ (r.step z f).rest = []) := by
  obtain ⟨given, strm, p, hstrm, hmade, hy⟩ := hr.made
  have hinput : p ++ r.rest.take f.length <+: y := by
    rw [← hy]
    exact (prefix_append_right_inj p).2 (List.take_prefix _ _)
  obtain ⟨w, h', hrun, hanswers⟩ := run_inflate hz hcarries hreads hraw hmade hstrm
    hr.dictionary f.flush f.room hinput
  obtain ⟨given', strm', hstrm', hinflated⟩ := hanswers.inflated
  have hstep : r.step z f = { handle := h'
                              rest := r.rest.drop ((r.rest.take f.length).length - w.availIn)
                              out := r.out ++ w.put } := by
    rw [Reader.step, hrun]
  have htook : (r.rest.take f.length).length - w.availIn ≤ f.length :=
    (Nat.sub_le _ _).trans (length_take_le _ _)
  rw [hstep]
  refine ⟨⟨⟨given', strm', _, hstrm', hinflated, ?_⟩, ?_, ?_, hanswers.soFar⟩, ?_⟩
  · rw [take_take, Nat.min_eq_left htook, append_assoc, take_append_drop, hy]
  · intro hsome
    rw [hanswers.settings]
    exact hr.dictionary hsome
  · rw [hanswers.reported, hr.reported]
  · intro hruns hall w' hw' hroom
    rw [hrun] at hw'
    obtain rfl := Option.some.inj hw'
    obtain ⟨hzero, hlast⟩ := hanswers.finishes hruns hroom
    rw [take_of_length_le hall] at hlast ⊢
    exact ⟨hzero, hlast hy, by rw [hzero, Nat.sub_zero, drop_length]⟩

theorem Reading.run (hz : Keeps z Carries) (hcarries : Carries windowBits dictionary x y)
    (hreads : Reads windowBits window) (hraw : windowBits < 0 → dictionary = []) :
    ∀ {feeds : List Feed} {r : Reader D I}, Reading z window dictionary x y h r →
      Reading z window dictionary x y h (r.run z feeds)
  | [], _, hr => hr
  | f :: feeds, r, hr => by
      have hlast : Reading z window dictionary x y h ((r.step z f).run z feeds) :=
        Reading.run hz hcarries hreads hraw (hr.step hz hcarries hreads hraw f).1
      exact hlast

/-- A handle with a fresh stream to inflate decodes what a stream carries. -/
theorem decodes_of_carries (hz : Keeps z Carries) (hcarries : Carries windowBits dictionary x y)
    (hreads : Reads windowBits window) (hraw : windowBits < 0 → dictionary = []) {strm : I}
    (hstrm : h.strm = some (.inflate strm)) (hinit : z.inflateInit2 window = (.Z_OK, strm))
    (hdictionary : dictionary ≠ [] → h.dictionary = some dictionary) : Decodes z h y x := by
  have hnew : Reading z window dictionary x y h { handle := h, rest := y } :=
    ⟨⟨false, strm, [], hstrm, .init hinit, rfl⟩, hdictionary, rfl, nil_prefix⟩
  refine ⟨?_, ?_, ?_⟩
  · intro feeds
    exact (hnew.run hz hcarries hreads hraw).soFar
  · intro feeds
    exact (hnew.run hz hcarries hreads hraw).reported
  · rintro feeds f r rfl
    exact ((hnew.run hz hcarries hreads hraw).step hz hcarries hreads hraw f).2

end

/-! ## The two sides -/

theorem start_inflate (hinflating : h.inflating = true)
    (hinit : z.inflateInit2 (h.windowFor h.windowBits) = (.Z_OK, strm)) :
    (h.start z).strm = some (.inflate strm) ∧ (h.start z).dictionary = h.dictionary := by
  rw [Zlib.start]
  simp only [hinflating, if_true, hinit]
  exact ⟨trivial, trivial⟩

theorem decodes_init (hz : Keeps z Carries) (hcarries : Carries window dictionary x y)
    (hraw : window < 0 → dictionary = []) (hinflating : h.inflating = true)
    (hreads : Reads window (h.windowFor h.windowBits))
    (hdictionary : dictionary ≠ [] → h.dictionary = some dictionary) :
    Decodes z (h.start z) y x := by
  obtain ⟨strm, hinit⟩ := hz.opens hreads
  obtain ⟨hstrm, hsame⟩ := start_inflate hinflating hinit
  refine decodes_of_carries hz hcarries hreads hraw hstrm hinit ?_
  intro hsome
  rw [hsame]
  exact hdictionary hsome

theorem reads_of_matches {h' : Zlib D I} (hmatches : Matches h.mode h'.mode)
    (hleast : 8 ≤ h.windowBits) (hle : h.windowBits ≤ h'.windowBits) (hleast' : 9 ≤ h'.windowBits)
    (hmost : h'.windowBits ≤ 15) :
    Reads (h.windowFor h.windowBits) (h'.windowFor h'.windowBits) := by
  refine ⟨h.windowBits, h'.windowBits, hleast, hle, hleast', hmost, ?_⟩
  obtain ⟨mode, _, _, _, windowBits, _, _, _, _⟩ := h
  obtain ⟨mode', _, _, _, windowBits', _, _, _, _⟩ := h'
  simp only at hmatches
  cases hmatches with
  | inflate => exact .inl ⟨rfl, .inl rfl⟩
  | unzip => exact .inl ⟨rfl, .inr rfl⟩
  | gunzip => exact .inr (.inl ⟨rfl, .inl rfl⟩)
  | gzipUnzip => exact .inr (.inl ⟨rfl, .inr rfl⟩)
  | inflateRaw => exact .inr (.inr ⟨rfl, rfl⟩)

theorem dictionary_of_used (hsome : Session.dictionaryOf h ≠ []) :
    h.dictionary = some (Session.dictionaryOf h) := by
  unfold Session.dictionaryOf usedDictionary at hsome ⊢
  split at hsome
  · exact absurd rfl hsome
  · next hwindow =>
      rw [if_neg hwindow]
      cases hdictionary : h.dictionary with
      | none =>
          rw [hdictionary] at hsome
          exact absurd rfl hsome
      | some dictionary => rfl

theorem dictionaryOf_eq_nil (hleast : 8 ≤ h.windowBits)
    (hraw : h.mode = .DEFLATERAW → h.dictionary.getD [] = []) (hmode : h.inflating = false)
    (hwindow : h.windowFor h.windowBits < 0) : Session.dictionaryOf h = [] := by
  have hraw' : h.mode = .DEFLATERAW := by
    obtain ⟨mode, _, _, _, windowBits, _, _, _, _⟩ := h
    cases mode with
    | DEFLATERAW => rfl
    | DEFLATE => exact absurd (show windowBits < 0 from hwindow) (by simp only at hleast; omega)
    | GZIP => exact absurd (show windowBits + 16 < 0 from hwindow) (by simp only at hleast; omega)
    | INFLATE | GUNZIP | INFLATERAW | UNZIP => cases hmode
  rw [Session.dictionaryOf, hraw hraw', usedDictionary, ite_self]

end ZlibStream

end Tabnode
