import Tabnode.VirtualFS.Watchers
import Tabnode.VirtualFS.Physical

/-!
# Every watcher hears a change once

A walk over a set calls the open ones of its watchers, each once: a watcher keeps its cell until
it is closed, and one that is opened meanwhile comes after all the others. The paths above a
change are different ones, and different from its own, but at the root, which is above itself:
a watcher of the root is called twice for a change of the root.
-/

namespace Tabnode

namespace VirtualFS

open WatcherBook List Option

variable {listeners : ℕ → List WatchOp} {eventType : WatchEventType}

/-- How the calls of a walk relate to the books before and after it. -/
structure Called (book after : WatcherBook) (path filename : Str) (everyone : Bool)
    (eventType : WatchEventType) (c : WatchCall) : Prop where
  eventType : c.eventType = eventType
  filename : c.filename = filename
  later : Later book c.before
  earlier : Later c.before after
  watching : ∃ entry : WatcherEntry, c.before.entries[c.watcher]? = some entry ∧
    entry.closed = false ∧ entry.path = path ∧ (entry.recursive || everyone) = true

/-- What a walk over the set of a path does from a cursor on. -/
structure Walked (set cursor : ℕ) (path filename : Str) (everyone : Bool)
    (eventType : WatchEventType) (d d' : Delivery) : Prop where
  sound : d'.book.Sound
  later : Later d.book d'.book
  calls : ∃ made : List WatchCall, d'.calls = d.calls ++ made ∧
    (made.map WatchCall.watcher).Nodup ∧
    (∀ c ∈ made, Called d.book d'.book path filename everyone eventType c) ∧
    (∀ c ∈ made, ∀ cells : LiveSet ℕ, d.book.sets[set]? = some cells →
      (∃ i, cursor ≤ i ∧ cells[i]? = some (some c.watcher)) ∨
        d.book.entries.length ≤ c.watcher) ∧
    ∀ (cells : LiveSet ℕ) (i id : ℕ) (entry : WatcherEntry), d'.book.sets[set]? = some cells →
      cursor ≤ i → cells[i]? = some (some id) → d'.book.entries[id]? = some entry →
      (entry.recursive || everyone) = true → id ∈ made.map WatchCall.watcher

variable {d : Delivery}

theorem sound_call (h : d.book.Sound) (id : ℕ) (filename : Str) :
    (d.call listeners eventType id filename).book.Sound ∧
      Later d.book (d.call listeners eventType id filename).book :=
  h.foldl _

variable {everyone : Bool} {filename path : Str} {set fuel cursor : ℕ} {d' : Delivery}

theorem walked_of_walkWatchers (hsound : d.book.Sound) (hset : set < d.book.sets.length)
    (hown : ∀ other, d.book.watchers other = some set → other = path)
    (h : walkWatchers listeners eventType everyone filename set fuel cursor d = some d') :
    Walked set cursor path filename everyone eventType d d' := by
  induction fuel generalizing cursor d with
  | zero => cases h
  | succ fuel ih =>
    have hcells := getElem?_eq_getElem hset
    generalize d.book.sets[set] = cells at hcells
    rw [walkWatchers, getD_eq_getElem?_getD, hcells, getD_some] at h
    -- a cell that is walked past adds no call
    have hpast : cursor < cells.length →
        (∀ id entry, cells[cursor]? = some (some id) → d.book.entries[id]? = some entry →
          ¬(entry.recursive || everyone) = true) →
        walkWatchers listeners eventType everyone filename set fuel (cursor + 1) d = some d' →
        Walked set cursor path filename everyone eventType d d' := by
      intro hinside hnot h
      obtain ⟨hsound', hlater, made, hmade, hnodup, hcalled, hplace, hall⟩ := ih hsound hset hown h
      refine ⟨hsound', hlater, made, hmade, hnodup, hcalled, fun c hc cells hset => ?_,
        fun cells' i id entry hset' hi hcell hentry hwanted => ?_⟩
      · obtain ⟨i, hi, hcell⟩ | hnew := hplace c hc cells hset
        · exact .inl ⟨i, Nat.le_of_succ_le hi, hcell⟩
        · exact .inr hnew
      · rcases Nat.eq_or_lt_of_le hi with rfl | hlt
        · obtain ⟨cells'', hset'', hlength, hback, -⟩ := hlater.sets hcells
          rw [hset', Option.some.injEq] at hset''
          subst hset''
          exfalso
          rcases hback hcell with hbefore | ⟨hout, -⟩
          · obtain ⟨entry', hentry', -⟩ := hsound.live hcells hbefore
            obtain ⟨entry'', hentry'', -, hrecursive, -⟩ := hlater.entries hentry'
            rw [hentry, Option.some.injEq] at hentry''
            rw [hentry'', hrecursive] at hwanted
            exact hnot id entry' hbefore hentry' hwanted
          · exact absurd hinside (Nat.not_lt.2 hout)
        · exact hall cells' i id entry hset' hlt hcell hentry hwanted
    split at h
    · rename_i hend
      cases h
      refine ⟨hsound, .refl _, [], by simp, nodup_nil, by simp, by simp, ?_⟩
      intro cells' i id entry hset' hi hcell
      rw [hcells, Option.some.injEq] at hset'
      subst hset'
      rw [getElem?_eq_none ((getElem?_eq_none_iff.1 hend).trans hi)] at hcell
      cases hcell
    · rename_i hempty
      refine hpast (List.getElem?_eq_some_iff.1 hempty).1 (fun id entry hcell => ?_) h
      rw [hempty] at hcell
      cases hcell
    · rename_i id hcell
      obtain ⟨entry, hentry, hopen, hpath⟩ := hsound.live hcells hcell
      have hinside := (List.getElem?_eq_some_iff.1 hcell).1
      have hid := hsound.lt_length hcells hcell
      rw [hentry] at h
      dsimp only at h
      split_ifs at h with hwanted
      · have hfirst : (d.call listeners eventType id filename).calls =
            d.calls ++ [⟨id, eventType, filename, d.book⟩] := rfl
        obtain ⟨hsound₁, hlater₁⟩ := @sound_call listeners eventType d hsound id filename
        generalize d.call listeners eventType id filename = d₁ at *
        obtain ⟨cells₁, hcells₁, hlength₁, hback₁, hkept₁⟩ := hlater₁.sets hcells
        have hset₁ := (List.getElem?_eq_some_iff.1 hcells₁).1
        have hown₁ : ∀ other, d₁.book.watchers other = some set → other = path :=
          fun other hother => hown other (hlater₁.watchers hother hset)
        obtain ⟨hsound', hlater', made, hmade, hnodup, hcalled, hplace, hall⟩ :=
          ih hsound₁ hset₁ hown₁ h
        have hcall : Called d.book d'.book path filename everyone eventType
            ⟨id, eventType, filename, d.book⟩ :=
          ⟨rfl, rfl, .refl _, hlater₁.trans hlater', entry, hentry, hopen, hown _ hpath, hwanted.2⟩
        refine ⟨hsound', hlater₁.trans hlater', ⟨id, eventType, filename, d.book⟩ :: made, ?_, ?_,
          ?_, ?_, ?_⟩
        · rw [hmade, hfirst, append_assoc, singleton_append]
        · rw [map_cons, nodup_cons]
          refine ⟨fun hagain => ?_, hnodup⟩
          obtain ⟨c, hc, hsame⟩ := mem_map.1 hagain
          have hagain : c.watcher = id := hsame
          rw [← hagain] at hid hcell
          rcases hplace c hc cells₁ hcells₁ with ⟨i, hi, hcell'⟩ | hnew
          · rcases hback₁ hcell' with hold | ⟨-, hnew⟩
            · exact absurd (hsound.distinct hcells hcell hold) (Nat.ne_of_lt hi)
            · exact absurd hid (Nat.not_lt.2 hnew)
          · exact absurd hid (Nat.not_lt.2 (hlater₁.length.trans hnew))
        · intro c hc
          rcases mem_cons.1 hc with rfl | hc
          · exact hcall
          · obtain ⟨hevent, hname, hbetween, hbefore, hwatching⟩ := hcalled c hc
            exact ⟨hevent, hname, hlater₁.trans hbetween, hbefore, hwatching⟩
        · intro c hc cells' hset'
          rw [hcells, Option.some.injEq] at hset'
          subst hset'
          rcases mem_cons.1 hc with rfl | hc
          · exact .inl ⟨cursor, le_rfl, hcell⟩
          · rcases hplace c hc cells₁ hcells₁ with ⟨i, hi, hcell'⟩ | hnew
            · exact (hback₁ hcell').imp (fun hold => ⟨i, Nat.le_of_succ_le hi, hold⟩) And.right
            · exact .inr (hlater₁.length.trans hnew)
        · intro cells' i other entry' hset' hi hother hentry' hwanted'
          rw [map_cons]
          rcases Nat.eq_or_lt_of_le hi with rfl | hlt
          · obtain ⟨cells'', hset'', -, hback, -⟩ := (hlater₁.trans hlater').sets hcells
            rw [hset', Option.some.injEq] at hset''
            subst hset''
            rcases hback hother with hold | ⟨hout, -⟩
            · rw [hcell, Option.some.injEq, Option.some.injEq] at hold
              exact hold ▸ mem_cons_self
            · exact absurd hinside (Nat.not_lt.2 hout)
          · exact mem_cons_of_mem _
              (hall cells' i other entry' hset' hlt hother hentry' hwanted')
      · refine hpast hinside (fun other entry' hcell' hentry' => ?_) h
        rw [hcell, Option.some.injEq, Option.some.injEq] at hcell'
        subst hcell'
        rw [hentry, Option.some.injEq] at hentry'
        subst hentry'
        exact fun h => hwanted ⟨hopen, h⟩

/-- What the walk over a path's watchers does: it calls those it is for, each once, but one that
is closed before its turn. -/
structure Reached (path filename : Str) (everyone : Bool) (eventType : WatchEventType)
    (d d' : Delivery) (made : List WatchCall) : Prop where
  sound : d'.book.Sound
  later : Later d.book d'.book
  calls : d'.calls = d.calls ++ made
  once : (made.map WatchCall.watcher).Nodup
  called : ∀ c ∈ made, Called d.book d'.book path filename everyone eventType c
  all : ∀ (id : ℕ) (entry : WatcherEntry), d.book.entries[id]? = some entry →
    entry.closed = false → entry.path = path → (entry.recursive || everyone) = true →
    id ∈ made.map WatchCall.watcher ∨ d'.book.Closed id

theorem reached_of_callWatchers (hsound : d.book.Sound)
    (h : callWatchers listeners eventType fuel path everyone filename d = some d') :
    ∃ made, Reached path filename everyone eventType d d' made := by
  unfold callWatchers at h
  split at h
  · rename_i hnone
    cases h
    refine ⟨[], hsound, .refl _, by simp, nodup_nil, by simp, ?_⟩
    intro id entry hentry hopen hpath
    obtain ⟨set, -, -, hset, -⟩ := hsound.held hentry hopen
    rw [hpath, hnone] at hset
    cases hset
  · rename_i set hset
    obtain ⟨hsound', hlater, made, hmade, hnodup, hcalled, -, hall⟩ :=
      walked_of_walkWatchers hsound (hsound.made hset)
        (fun other hother => hsound.single hother hset) h
    refine ⟨made, hsound', hlater, hmade, hnodup, hcalled, ?_⟩
    intro id entry hentry hopen hpath hwanted
    obtain ⟨set', cells, i, hset', hcells, hcell⟩ := hsound.held hentry hopen
    rw [hpath, hset, Option.some.injEq] at hset'
    subst hset'
    obtain ⟨cells', hcells', -, -, hkept⟩ := hlater.sets hcells
    rcases hkept hcell with hcell' | hclosed
    · obtain ⟨entry', hentry', -, hrecursive, -⟩ := hlater.entries hentry
      rw [← hrecursive] at hwanted
      exact .inl (hall cells' i id entry' hcells' (Nat.zero_le i) hcell' hentry' hwanted)
    · exact .inr hclosed

/-! ## The directories above a change -/

/-- The watchers that the loop from a directory on calls. -/
structure Climbed (segments names : List Name) (eventType : WatchEventType) (d d' : Delivery)
    (made : List WatchCall) : Prop where
  sound : d'.book.Sound
  later : Later d.book d'.book
  calls : d'.calls = d.calls ++ made
  once : (made.map WatchCall.watcher).Nodup
  called : ∀ c ∈ made, ∃ above below, above <+: names ∧ above ++ below = segments ∧
    Called d.book d'.book (absolute above) (joinSlash below) (decide (above = segments.dropLast))
      eventType c
  all : ∀ (id : ℕ) (entry : WatcherEntry) (above : List Name), d.book.entries[id]? = some entry →
    entry.closed = false → above <+: names → entry.path = absolute above →
    (entry.recursive || decide (above = segments.dropLast)) = true →
    id ∈ made.map WatchCall.watcher ∨ d'.book.Closed id

theorem absolute_inj_of_valid {p q : List Name} (hp : ∀ n ∈ p, ValidName n)
    (hq : ∀ n ∈ q, ValidName n) (h : absolute p = absolute q) : p = q := by
  rw [← getPathSegments_absolute hp, h, getPathSegments_absolute hq]

theorem Called.ne_of_path_ne {before between after : WatcherBook} {other name : Str} {all : Bool}
    {c c' : WatchCall} (hne : path ≠ other)
    (h : Called before between path filename everyone eventType c)
    (h' : Called between after other name all eventType c') : c.watcher ≠ c'.watcher := by
  intro hsame
  obtain ⟨entry, hentry, -, hpath, -⟩ := h.watching
  obtain ⟨entry', hentry', -, hpath', -⟩ := h'.watching
  rw [← hsame] at hentry'
  obtain ⟨last, hlast, hkept, -⟩ := (h.earlier.trans (h'.later)).entries hentry
  rw [hentry', Option.some.injEq] at hlast
  exact hne (by rw [← hpath, ← hpath', hlast, hkept])

theorem Called.widen {first before after last : WatcherBook} {c : WatchCall}
    (h : Called before after path filename everyone eventType c) (hbefore : Later first before)
    (hafter : Later after last) : Called first last path filename everyone eventType c :=
  ⟨h.eventType, h.filename, hbefore.trans h.later, h.earlier.trans hafter, h.watching⟩

theorem beq_absolute {p q : List Name} (hp : ∀ n ∈ p, ValidName n) (hq : ∀ n ∈ q, ValidName n) :
    (absolute p == absolute q) = decide (q = p) := by
  rw [Bool.eq_iff_iff, beq_iff_eq, decide_eq_true_iff]
  exact ⟨fun h => (absolute_inj_of_valid hp hq h).symm, fun h => h ▸ rfl⟩

theorem climbed_of_climb {segments names rest : List Name} (hvalid : ∀ n ∈ segments, ValidName n)
    (hsplit : names ++ rest = segments) (hrest : rest ≠ []) {rounds : ℕ} (hsound : d.book.Sound)
    (h : climb listeners eventType fuel (absolute segments) rounds (absolute names)
      (joinSlash rest) d = some d') : ∃ made, Climbed segments names eventType d d' made := by
  induction rounds generalizing names rest d with
  | zero => cases h
  | succ rounds ih =>
    have hnames : ∀ n ∈ names, ValidName n := fun n hn =>
      hvalid n (hsplit ▸ mem_append_left rest hn)
    have hparent : getParentPath (absolute segments) = absolute segments.dropLast := by
      rw [getParentPath_eq, getPathSegments_absolute hvalid]
    have hdirect : (getParentPath (absolute segments) == absolute names) =
        decide (names = segments.dropLast) := by
      rw [hparent, beq_absolute (fun n hn => hvalid n (mem_of_mem_dropLast hn)) hnames]
    rw [climb, hdirect] at h
    split at h
    · cases h
    · rename_i d₁ hcalled
      obtain ⟨made, hreached⟩ := reached_of_callWatchers hsound hcalled
      by_cases hroot : names = []
      · subst hroot
        rw [if_pos (show absolute [] = ['/'] from rfl)] at h
        cases h
        refine ⟨made, hreached.sound, hreached.later, hreached.calls, hreached.once, ?_, ?_⟩
        · exact fun c hc => ⟨[], rest, prefix_rfl, hsplit, hreached.called c hc⟩
        · intro id entry above hentry hopen habove hpath hwanted
          rw [prefix_nil.1 habove] at hpath hwanted
          exact hreached.all id entry hentry hopen hpath hwanted
      · obtain ⟨init, b, rfl⟩ := (eq_nil_or_concat' names).resolve_left hroot
        have hnotRoot : absolute (init ++ [b]) ≠ ['/'] := fun hsame =>
          hroot (absolute_inj_of_valid hnames (fun n hn => absurd hn not_mem_nil) hsame)
        have hup : getParentPath (absolute (init ++ [b])) = absolute init := by
          rw [getParentPath_eq, getPathSegments_absolute hnames, dropLast_concat]
        have hname : getBasename (absolute (init ++ [b])) = b := by
          rw [getBasename_eq, getPathSegments_absolute hnames, getLast?_concat,
            getD_some]
        rw [if_neg hnotRoot, hup, hname, ← joinSlash_cons hrest] at h
        obtain ⟨more, hclimbed⟩ := ih (by rw [← hsplit, append_assoc, singleton_append])
          (cons_ne_nil b rest) hreached.sound h
        have habove : ∀ {above : List Name}, above <+: init → above ≠ init ++ [b] := by
          rintro above hpre rfl
          have hlength := hpre.length_le
          rw [length_append, length_singleton] at hlength
          omega
        have hinit : ∀ {above : List Name}, above <+: init → ∀ n ∈ above, ValidName n :=
          fun hpre n hn => hnames n (mem_append_left _ (hpre.subset hn))
        refine ⟨made ++ more, hclimbed.sound, hreached.later.trans hclimbed.later, ?_, ?_, ?_, ?_⟩
        · rw [hclimbed.calls, hreached.calls, append_assoc]
        · rw [map_append, nodup_append]
          refine ⟨hreached.once, hclimbed.once, ?_⟩
          intro id hid other hother
          obtain ⟨c, hc, rfl⟩ := mem_map.1 hid
          obtain ⟨c', hc', rfl⟩ := mem_map.1 hother
          obtain ⟨above, below, hpre, -, hcall⟩ := hclimbed.called c' hc'
          refine (hreached.called c hc).ne_of_path_ne (fun hsame => ?_) hcall
          exact habove hpre (absolute_inj_of_valid hnames (hinit hpre) hsame).symm
        · intro c hc
          rcases mem_append.1 hc with hc | hc
          · exact ⟨init ++ [b], rest, prefix_rfl, hsplit,
              (hreached.called c hc).widen (.refl _) hclimbed.later⟩
          · obtain ⟨above, below, hpre, hwhole, hcall⟩ := hclimbed.called c hc
            exact ⟨above, below, hpre.trans (prefix_append _ _), hwhole,
              hcall.widen hreached.later (.refl _)⟩
        · intro id entry above hentry hopen hpre hpath hwanted
          rw [map_append, mem_append]
          rcases prefix_concat_iff.1 hpre with rfl | hpre
          · rcases hreached.all id entry hentry hopen hpath hwanted with hmade | hclosed
            · exact .inl (.inl hmade)
            · exact .inr (hclimbed.later.closed hclosed)
          · obtain ⟨entry', hentry', hpath', hrecursive, -⟩ := hreached.later.entries hentry
            cases hclosed : entry'.closed with
            | true => exact .inr (hclimbed.later.closed ⟨entry', hentry', hclosed⟩)
            | false =>
              rw [← hpath'] at hpath
              rw [← hrecursive] at hwanted
              exact (hclimbed.all id entry' above hentry' hclosed hpre hpath hwanted).imp_left
                .inr

/-! ## The end of the delivery -/

def isWatch : WatchOp → Bool
  | .watch _ _ => true
  | .close _ => false

def openedBefore (listeners : ℕ → List WatchOp) : ℕ → ℕ
  | 0 => 0
  | n + 1 => openedBefore listeners n + (listeners n).countP isWatch

def OpensAtMost (listeners : ℕ → List WatchOp) (total : ℕ) : Prop :=
  ∀ n, openedBefore listeners n ≤ total

variable {book : WatcherBook} {cells : LiveSet ℕ}

theorem length_foldl_le (h : book.Sound) (ops : List WatchOp)
    (hset : book.sets[set]? = some cells) :
    ∃ cells' : LiveSet ℕ, (ops.foldl WatcherBook.perform book).sets[set]? = some cells' ∧
      cells'.length ≤ cells.length + ops.countP isWatch := by
  induction ops generalizing book cells with
  | nil => exact ⟨cells, hset, le_rfl⟩
  | cons op ops ih =>
    have hstep : ∃ cells' : LiveSet ℕ, (book.perform op).sets[set]? = some cells' ∧
        cells'.length ≤ cells.length + (isWatch op).toNat := by
      cases op with
      | watch filename recursive =>
        obtain ⟨target, before, -, -, htarget, hothers, hbefore⟩ := h.watch_spec filename recursive
        by_cases hsame : set = target
        · subst hsame
          refine ⟨_, htarget, ?_⟩
          rcases hbefore with ⟨-, hold⟩ | ⟨-, rfl, -⟩
          · rw [hset, Option.some.injEq] at hold
            rw [hold, length_append]
            rfl
          · rw [getElem?_eq_none le_rfl] at hset
            cases hset
        · exact ⟨cells, (hothers set hsame).trans hset, Nat.le_add_right _ _⟩
      | close id =>
        cases hentry : book.entries[id]? with
        | none =>
          refine ⟨cells, ?_, Nat.le_add_right _ _⟩
          simp only [WatcherBook.perform, WatcherBook.close, hentry, hset]
        | some entry =>
          obtain ⟨cells', hset', hlength, -⟩ := (h.close_spec hentry).2.2.1 hset
          exact ⟨cells', hset', hlength.le⟩
    obtain ⟨cells', hset', hlength⟩ := hstep
    obtain ⟨cells'', hset'', hlength'⟩ := ih (h.perform op).1 hset'
    refine ⟨cells'', hset'', ?_⟩
    rw [countP_cons]
    cases hop : isWatch op <;> simp [hop] at hlength ⊢ <;> omega

variable {total : ℕ}

theorem walkWatchers_ends (hopens : OpensAtMost listeners total) (hsound : d.book.Sound)
    (hset : d.book.sets[set]? = some cells)
    (hfuel : cells.length - cursor + (total - openedBefore listeners d.calls.length) < fuel) :
    ∃ d', walkWatchers listeners eventType everyone filename set fuel cursor d = some d' := by
  induction fuel generalizing cursor d cells with
  | zero => exact absurd hfuel (Nat.not_lt_zero _)
  | succ fuel ih =>
    rw [walkWatchers, getD_eq_getElem?_getD, hset, getD_some]
    have hpast : cursor < cells.length → ∃ d',
        walkWatchers listeners eventType everyone filename set fuel (cursor + 1) d = some d' :=
      fun hinside => ih hsound hset (by omega)
    split
    · exact ⟨d, rfl⟩
    · rename_i hempty
      exact hpast (List.getElem?_eq_some_iff.1 hempty).1
    · rename_i id hcell
      have hinside := (List.getElem?_eq_some_iff.1 hcell).1
      split
      · exact hpast hinside
      · split_ifs
        · obtain ⟨cells', hset', hlength⟩ :=
            length_foldl_le hsound (listeners d.calls.length) hset
          have hmore := hopens (d.calls.length + 1)
          rw [openedBefore] at hmore
          refine ih (sound_call hsound id filename).1 hset' ?_
          have hcalls : (d.call listeners eventType id filename).calls.length =
              d.calls.length + 1 := length_append
          rw [hcalls, openedBefore]
          omega
        · exact hpast hinside

theorem walkWatchers_mono {more : ℕ} (hmore : fuel ≤ more)
    (h : walkWatchers listeners eventType everyone filename set fuel cursor d = some d') :
    walkWatchers listeners eventType everyone filename set more cursor d = some d' := by
  induction fuel generalizing more cursor d with
  | zero => cases h
  | succ fuel ih =>
    obtain ⟨more, rfl⟩ := Nat.exists_eq_add_of_le' (Nat.zero_lt_of_lt hmore)
    have hmore := Nat.le_of_succ_le_succ hmore
    rw [walkWatchers] at h ⊢
    split at h
    · exact h
    · exact ih hmore h
    · split at h
      · exact ih hmore h
      · split_ifs at h ⊢
        · exact ih hmore h
        · exact ih hmore h

theorem callWatchers_ends (hopens : OpensAtMost listeners total) (path : Str) (everyone : Bool)
    (filename : Str) (hsound : d.book.Sound) : ∃ enough d', ∀ fuel, enough ≤ fuel →
      callWatchers listeners eventType fuel path everyone filename d = some d' := by
  unfold callWatchers
  cases hset : d.book.watchers path with
  | none => exact ⟨0, d, fun _ _ => rfl⟩
  | some set =>
    have hcells := getElem?_eq_getElem (hsound.made hset)
    obtain ⟨d', hd'⟩ := @walkWatchers_ends listeners eventType d everyone filename set _ 0 _ total
      hopens hsound hcells (Nat.lt_succ_self _)
    exact ⟨_, d', fun fuel hfuel => walkWatchers_mono hfuel hd'⟩

theorem climb_ends (hopens : OpensAtMost listeners total) (normalized : Str) {names : List Name}
    (hvalid : ∀ n ∈ names, ValidName n) (relative : Str) (hsound : d.book.Sound) :
    ∃ enough d', ∀ fuel rounds, enough ≤ fuel → names.length < rounds →
      climb listeners eventType fuel normalized rounds (absolute names) relative d = some d' := by
  induction names using List.reverseRecOn generalizing relative d with
  | nil =>
    obtain ⟨enough, d', hd'⟩ := @callWatchers_ends listeners eventType d total hopens (absolute [])
      (getParentPath normalized == absolute []) relative hsound
    refine ⟨enough, d', fun fuel rounds hfuel hrounds => ?_⟩
    obtain ⟨rounds, rfl⟩ := Nat.exists_eq_add_of_le' hrounds
    rw [length_nil, climb, hd' fuel hfuel]
    rfl
  | append_singleton init b ih =>
    obtain ⟨enough, d₁, hd₁⟩ := @callWatchers_ends listeners eventType d total hopens
      (absolute (init ++ [b])) (getParentPath normalized == absolute (init ++ [b])) relative hsound
    obtain ⟨made, hreached⟩ := reached_of_callWatchers hsound (hd₁ enough le_rfl)
    have hinit : ∀ n ∈ init, ValidName n := fun n hn => hvalid n (mem_append_left _ hn)
    have hup : getParentPath (absolute (init ++ [b])) = absolute init := by
      rw [getParentPath_eq, getPathSegments_absolute hvalid, dropLast_concat]
    have hnotRoot : absolute (init ++ [b]) ≠ ['/'] := by
      intro hsame
      have hnil := absolute_inj_of_valid hvalid (fun n hn => absurd hn not_mem_nil) hsame
      simp at hnil
    obtain ⟨enough', d', hd'⟩ := ih hinit (getBasename (absolute (init ++ [b])) ++ '/' :: relative)
      hreached.sound
    refine ⟨max enough enough', d', fun fuel rounds hfuel hrounds => ?_⟩
    obtain ⟨rounds, rfl⟩ := Nat.exists_eq_add_of_le' (Nat.zero_lt_of_lt hrounds)
    rw [length_append, length_singleton] at hrounds
    rw [climb, hd₁ fuel ((le_max_left _ _).trans hfuel)]
    dsimp only
    rw [if_neg hnotRoot, hup]
    exact hd' fuel rounds ((le_max_right _ _).trans hfuel) (by omega)

theorem notifyWatchers_ends (hopens : OpensAtMost listeners total) (path : Str)
    (hsound : book.Sound) : ∃ enough d, ∀ fuel, enough ≤ fuel →
      notifyWatchers listeners eventType fuel path book = some d := by
  obtain ⟨enough, d₁, hd₁⟩ := @callWatchers_ends listeners eventType ⟨book, []⟩ total hopens
    (normalizePath path) true (getBasename (normalizePath path)) hsound
  obtain ⟨made, hreached⟩ := reached_of_callWatchers hsound (hd₁ enough le_rfl)
  obtain ⟨enough', d', hd'⟩ := @climb_ends listeners eventType d₁ total hopens (normalizePath path)
    (getPathSegments (normalizePath path)).dropLast
    (fun n hn => valid_getPathSegments _ n (mem_of_mem_dropLast hn))
    (getBasename (normalizePath path)) hreached.sound
  refine ⟨max enough (max enough' ((getPathSegments (normalizePath path)).dropLast.length + 1)), d',
    fun fuel hfuel => ?_⟩
  simp only [notifyWatchers, hd₁ fuel ((le_max_left _ _).trans hfuel)]
  rw [getParentPath_eq]
  exact hd' fuel fuel (by omega) (by omega)

/-! ## Every watcher once -/

/-- The watchers of a change: of its path, of the directory it is in, and the recursive ones of
the directories above. -/
def Concerns (path : Str) (entry : WatcherEntry) : Prop :=
  entry.path = normalizePath path ∨ entry.path = getParentPath path ∨
    entry.recursive = true ∧
      ∃ above, above <+: getPathSegments path ∧ entry.path = absolute above

def NamedFor (path watched filename : Str) : Prop :=
  if watched = normalizePath path then filename = getBasename path
  else normalizePath (watched ++ '/' :: filename) = normalizePath path

/-- Nobody is called twice, nobody who is closed or whom the change does not concern; and everyone
who was open and whom it concerns is called, or was closed meanwhile. -/
structure Heard (eventType : WatchEventType) (path : Str) (book : WatcherBook) (d : Delivery) :
    Prop where
  once : (d.calls.map WatchCall.watcher).Nodup
  called : ∀ c ∈ d.calls, c.eventType = eventType ∧ ∃ entry : WatcherEntry,
    c.before.entries[c.watcher]? = some entry ∧ entry.closed = false ∧ Concerns path entry ∧
      NamedFor path entry.path c.filename
  all : ∀ (id : ℕ) (entry : WatcherEntry), book.entries[id]? = some entry →
    entry.closed = false → Concerns path entry →
    id ∈ d.calls.map WatchCall.watcher ∨ d.book.Closed id

theorem normalizePath_join {above below segments : List Name}
    (h : ∀ n ∈ segments, ValidName n) (hsplit : above ++ below = segments) :
    normalizePath (absolute above ++ '/' :: joinSlash below) = absolute segments := by
  have hparts : ∀ n ∈ above ++ below, n ≠ [] ∧ '/' ∉ n := fun n hn =>
    ⟨(h n (hsplit ▸ hn)).1, (h n (hsplit ▸ hn)).2.1⟩
  rw [normalizePath_eq, getPathSegments_eq, splitSegments_append_slash,
    splitSegments_absolute fun n hn => hparts n (mem_append_left _ hn),
    splitSegments_joinSlash fun n hn => hparts n (mem_append_right _ hn), hsplit,
    foldl_resolvePart_of_valid h, nil_append]

theorem heard_of_ne_root (hroot : getPathSegments path ≠ []) (hsound : book.Sound)
    (h : notifyWatchers listeners eventType fuel path book = some d) :
    Heard eventType path book d := by
  obtain ⟨init, last, hsegments⟩ := (eq_nil_or_concat' _).resolve_left hroot
  have hvalid := valid_getPathSegments path
  have hnormal := normalizePath_eq path
  have hparent := getParentPath_eq path
  have hbase := getBasename_eq path
  rw [hsegments] at hvalid hnormal hparent hbase
  rw [dropLast_concat] at hparent
  rw [getLast?_concat, getD_some] at hbase
  have hinit : ∀ n ∈ init, ValidName n := fun n hn => hvalid n (mem_append_left _ hn)
  have hup : getParentPath (absolute (init ++ [last])) = absolute init := by
    rw [getParentPath_eq, getPathSegments_absolute hvalid, dropLast_concat]
  have hname : getBasename (absolute (init ++ [last])) = joinSlash [last] := by
    rw [getBasename_eq, getPathSegments_absolute hvalid, getLast?_concat, getD_some,
      joinSlash, intercalate_singleton]
  have hlast : joinSlash [last] = last := intercalate_singleton
  simp only [notifyWatchers, hnormal, hup, hname] at h
  split at h
  · cases h
  · rename_i d₁ hcalled
    obtain ⟨made, hreached⟩ := reached_of_callWatchers hsound hcalled
    obtain ⟨more, hclimbed⟩ := climbed_of_climb hvalid rfl (cons_ne_nil last [])
      hreached.sound h
    have hcalls : d.calls = made ++ more := by
      rw [hclimbed.calls, hreached.calls]
      rfl
    have habove : ∀ {above : List Name}, above <+: init →
        (∀ n ∈ above, ValidName n) ∧ absolute above ≠ absolute (init ++ [last]) := by
      intro above hpre
      have hvalid' : ∀ n ∈ above, ValidName n := fun n hn => hinit n (hpre.subset hn)
      refine ⟨hvalid', fun hsame => ?_⟩
      have hlength := hpre.length_le
      rw [absolute_inj_of_valid hvalid' hvalid hsame, length_append,
        length_singleton] at hlength
      omega
    refine ⟨?_, ?_, ?_⟩
    · rw [hcalls, map_append, nodup_append]
      refine ⟨hreached.once, hclimbed.once, ?_⟩
      intro id hid other hother
      obtain ⟨c, hc, rfl⟩ := mem_map.1 hid
      obtain ⟨c', hc', rfl⟩ := mem_map.1 hother
      obtain ⟨above, below, hpre, -, hcall⟩ := hclimbed.called c' hc'
      exact (hreached.called c hc).ne_of_path_ne (Ne.symm (habove hpre).2) hcall
    · intro c hc
      rw [hcalls] at hc
      rcases mem_append.1 hc with hc | hc
      · have hcall := hreached.called c hc
        obtain ⟨entry, hentry, hopen, hpath, -⟩ := hcall.watching
        refine ⟨hcall.eventType, entry, hentry, hopen, .inl (hpath.trans hnormal.symm), ?_⟩
        rw [NamedFor, if_pos (hpath.trans hnormal.symm), hcall.filename, hbase, hlast]
      · obtain ⟨above, below, hpre, hsplit, hcall⟩ := hclimbed.called c hc
        obtain ⟨entry, hentry, hopen, hpath, hwanted⟩ := hcall.watching
        refine ⟨hcall.eventType, entry, hentry, hopen, .inr ?_, ?_⟩
        · rw [Bool.or_eq_true, decide_eq_true_iff, dropLast_concat] at hwanted
          rcases hwanted with hrecursive | rfl
          · refine .inr ⟨hrecursive, above, ?_, hpath⟩
            rw [hsegments]
            exact hpre.trans (prefix_append _ _)
          · exact .inl (hpath.trans hparent.symm)
        · rw [NamedFor, hpath, hnormal, if_neg (habove hpre).2, hcall.filename]
          exact normalizePath_join hvalid hsplit
    · intro id entry hentry hopen hconcerns
      rw [hcalls, map_append, mem_append]
      by_cases hself : entry.path = absolute (init ++ [last])
      · rcases hreached.all id entry hentry hopen hself (Bool.or_true _) with hmade | hclosed
        · exact .inl (.inl hmade)
        · exact .inr (hclimbed.later.closed hclosed)
      · have hclimbs : ∃ above, above <+: init ∧ entry.path = absolute above ∧
            (entry.recursive || decide (above = (init ++ [last]).dropLast)) = true := by
          rcases hconcerns with hwhole | hdirect | ⟨hrecursive, above, hpre, hpath⟩
          · exact absurd (hwhole.trans hnormal) hself
          · refine ⟨init, prefix_rfl, hdirect.trans hparent, ?_⟩
            rw [dropLast_concat, decide_eq_true rfl, Bool.or_true]
          · rw [hsegments] at hpre
            rcases prefix_concat_iff.1 hpre with rfl | hpre
            · exact absurd hpath hself
            · exact ⟨above, hpre, hpath, by rw [hrecursive, Bool.true_or]⟩
        obtain ⟨above, hpre, hpath, hwanted⟩ := hclimbs
        obtain ⟨entry', hentry', hpath', hrecursive, -⟩ := hreached.later.entries hentry
        cases hclosed : entry'.closed with
        | true => exact .inr (hclimbed.later.closed ⟨entry', hentry', hclosed⟩)
        | false =>
          rw [← hpath'] at hpath
          rw [← hrecursive] at hwanted
          exact (hclimbed.all id entry' above hentry' hclosed hpre hpath hwanted).imp_left .inr

/-! ## A change of the root -/

theorem normalizePath_eq_root_iff (path : Str) :
    normalizePath path = ['/'] ↔ getPathSegments path = [] := by
  rw [normalizePath_eq]
  refine ⟨fun h => ?_, fun h => by rw [h]; rfl⟩
  exact absolute_inj_of_valid (valid_getPathSegments path)
    (fun n hn => absurd hn not_mem_nil) h

theorem notifyWatchers_root (hroot : normalizePath path = ['/'])
    (h : notifyWatchers listeners eventType fuel path book = some d) :
    ∃ between, callWatchers listeners eventType fuel ['/'] true [] ⟨book, []⟩ = some between ∧
      callWatchers listeners eventType fuel ['/'] true [] between = some d := by
  have hup : getParentPath ['/'] = ['/'] := by decide
  have hname : getBasename ['/'] = [] := by decide
  simp only [notifyWatchers, hroot, hup, hname] at h
  split at h
  · cases h
  · rename_i between hfirst
    refine ⟨between, hfirst, ?_⟩
    cases fuel with
    | zero => cases h
    | succ rounds =>
      rw [climb, hup, beq_self_eq_true] at h
      split at h
      · cases h
      · rename_i after hsecond
        rw [if_pos rfl] at h
        rw [← h]
        exact hsecond

theorem callWatchers_of_unwatched (hsound : d.book.Sound)
    (hnone : ∀ (id : ℕ) (entry : WatcherEntry), d.book.entries[id]? = some entry →
      entry.path = path → entry.closed = true)
    (h : callWatchers listeners eventType fuel path everyone filename d = some d') : d' = d := by
  unfold callWatchers at h
  split at h
  · exact (Option.some.inj h).symm
  · rename_i set hset
    have hlt := hsound.made hset
    have hcells := getElem?_eq_getElem hlt
    have hempty : ∀ i id : ℕ, d.book.sets[set][i]? ≠ some (some id) := by
      intro i id hcell
      obtain ⟨entry, hentry, hopen, hown⟩ := hsound.live hcells hcell
      rw [hnone id entry hentry (hsound.single hown hset)] at hopen
      cases hopen
    generalize d.book.sets[set] = cells at hcells hempty
    generalize 0 = cursor at h
    induction fuel generalizing cursor with
    | zero => cases h
    | succ fuel ih =>
      rw [walkWatchers, getD_eq_getElem?_getD, hcells, getD_some] at h
      split at h
      · exact (Option.some.inj h).symm
      · exact ih _ h
      · rename_i id hcell
        exact absurd hcell (hempty cursor id)

theorem book_of_callWatchers_silent
    (h : callWatchers (fun _ => []) eventType fuel path everyone filename d = some d') :
    d'.book = d.book := by
  unfold callWatchers at h
  split at h
  · rw [Option.some.inj h]
  · rename_i set hset
    clear hset
    generalize 0 = cursor at h
    induction fuel generalizing cursor d with
    | zero => cases h
    | succ fuel ih =>
      rw [walkWatchers] at h
      split at h
      · rw [Option.some.inj h]
      · exact ih _ h
      · split at h
        · exact ih _ h
        · rename_i id _ _ _ _
          split_ifs at h
          · have hcall := ih (cursor + 1) h
            exact hcall
          · exact ih _ h

theorem not_heard_root (hroot : normalizePath path = ['/']) (hsound : book.Sound) {id : ℕ}
    {entry : WatcherEntry} (hentry : book.entries[id]? = some entry) (hopen : entry.closed = false)
    (hpath : entry.path = ['/'])
    (h : notifyWatchers (fun _ => []) eventType fuel path book = some d) :
    ¬Heard eventType path book d := by
  intro hheard
  obtain ⟨between, hfirst, hsecond⟩ := notifyWatchers_root hroot h
  obtain ⟨made, hreached⟩ := reached_of_callWatchers hsound hfirst
  obtain ⟨more, hreached'⟩ := reached_of_callWatchers hreached.sound hsecond
  have hbook : between.book = book := book_of_callWatchers_silent hfirst
  have hbook' : d.book = book := (book_of_callWatchers_silent hsecond).trans hbook
  have hstill : ¬book.Closed id := by
    rintro ⟨entry', hentry', hclosed⟩
    rw [hentry, Option.some.injEq] at hentry'
    rw [← hentry', hopen] at hclosed
    cases hclosed
  have honce : id ∈ made.map WatchCall.watcher :=
    (hreached.all id entry hentry hopen hpath (Bool.or_true _)).resolve_right
      (hbook ▸ hstill)
  have htwice : id ∈ more.map WatchCall.watcher :=
    (hreached'.all id entry (hbook ▸ hentry) hopen hpath (Bool.or_true _)).resolve_right
      (hbook' ▸ hstill)
  have hnodup := hheard.once
  rw [hreached'.calls, hreached.calls, nil_append, map_append, nodup_append]
    at hnodup
  exact hnodup.2.2 id honce id htwice rfl

def watchersAfter (ops : List WatchOp) : WatcherBook := ops.foldl WatcherBook.perform .empty

theorem sound_watchersAfter (ops : List WatchOp) : (watchersAfter ops).Sound :=
  (sound_empty.foldl ops).1

/-- Whatever listeners do that do not open watchers without end, a change is delivered and heard by
everyone once: exactly when it is not one of the root, or nobody watches the root. -/
theorem notifyWatchers_heard_iff (ops : List WatchOp) (eventType : WatchEventType) (path : Str) :
    (∀ listeners total, OpensAtMost listeners total → ∃ enough d,
      (∀ fuel, enough ≤ fuel →
        notifyWatchers listeners eventType fuel path (watchersAfter ops) = some d) ∧
      Heard eventType path (watchersAfter ops) d) ↔
    (normalizePath path ≠ ['/'] ∨
      ∀ entry ∈ (watchersAfter ops).entries, entry.path = ['/'] → entry.closed = true) := by
  have hsound := sound_watchersAfter ops
  generalize watchersAfter ops = book at *
  constructor
  · intro hall
    by_contra hcondition
    rw [not_or, not_not] at hcondition
    obtain ⟨hroot, hwatched⟩ := hcondition
    simp only [not_forall, Bool.not_eq_true] at hwatched
    obtain ⟨entry, hmem, hpath, hopen⟩ := hwatched
    obtain ⟨id, hentry⟩ := mem_iff_getElem?.1 hmem
    have hsilent : OpensAtMost (fun _ => []) 0 := by
      intro n
      induction n with
      | zero => exact le_rfl
      | succ n ih => exact ih
    obtain ⟨enough, d, hd, hheard⟩ := hall _ 0 hsilent
    exact not_heard_root hroot hsound hentry hopen hpath (hd enough le_rfl) hheard
  · intro hcondition listeners total hopens
    obtain ⟨enough, d, hd⟩ := @notifyWatchers_ends listeners eventType book total hopens path hsound
    refine ⟨enough, d, hd, ?_⟩
    by_cases hroot : normalizePath path = ['/']
    · have hunwatched := hcondition.resolve_left (not_not.2 hroot)
      have hnone : ∀ (id : ℕ) (entry : WatcherEntry), book.entries[id]? = some entry →
          entry.path = ['/'] → entry.closed = true :=
        fun id entry hentry => hunwatched entry (mem_of_getElem? hentry)
      obtain ⟨between, hfirst, hsecond⟩ := notifyWatchers_root hroot (hd enough le_rfl)
      have hsame := callWatchers_of_unwatched (d := ⟨book, []⟩) hsound hnone hfirst
      subst hsame
      have hsame' := callWatchers_of_unwatched (d := ⟨book, []⟩) hsound hnone hsecond
      subst hsame'
      refine ⟨nodup_nil, fun c hc => absurd hc not_mem_nil, ?_⟩
      intro id entry hentry hopen hconcerns
      have hpath : entry.path = ['/'] := by
        have hparent : getParentPath path = ['/'] := by
          rw [getParentPath_eq, (normalizePath_eq_root_iff path).1 hroot]
          rfl
        rcases hconcerns with hwhole | hdirect | ⟨-, above, hpre, habove⟩
        · exact hwhole.trans hroot
        · exact hdirect.trans hparent
        · rw [(normalizePath_eq_root_iff path).1 hroot] at hpre
          rw [habove, prefix_nil.1 hpre]
          rfl
      rw [hnone id entry hentry hpath] at hopen
      cases hopen
    · exact heard_of_ne_root (fun h => hroot ((normalizePath_eq_root_iff path).2 h)) hsound
        (hd enough le_rfl)

/-- The root is watched, and it is told of a change: its watcher is called twice. -/
theorem not_heard_of_root : ¬∀ listeners total, OpensAtMost listeners total → ∃ enough d,
    (∀ fuel, enough ≤ fuel → notifyWatchers listeners .rename fuel ['/']
      (watchersAfter [.watch ['/'] false]) = some d) ∧
    Heard .rename ['/'] (watchersAfter [.watch ['/'] false]) d := by
  intro hall
  have hsilent : OpensAtMost (fun _ => []) 0 := by
    intro n
    induction n with
    | zero => exact le_rfl
    | succ n ih => exact ih
  obtain ⟨enough, d, hd, hheard⟩ := hall _ 0 hsilent
  have hentry : (watchersAfter [.watch ['/'] false]).entries[0]? = some ⟨['/'], false, false⟩ := by
    decide
  exact not_heard_root (by decide) (sound_watchersAfter _) hentry rfl rfl (hd enough le_rfl) hheard

end VirtualFS

end Tabnode
