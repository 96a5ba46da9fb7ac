import Tabnode.Wasi.Calls

/-!
# What the parts of a syscall do

`Does allowed opened w w'` says what happened between two worlds: each event the history
gained is allowed; the memory has the length it had; a descriptor of the table is one that
was there, its rights no wider, or one that `opened` allows; no two slots have one
descriptor. It is a preorder, and each part of a syscall meets a contract with it, which
says also that the table is as it was where it is.
-/

namespace Tabnode

namespace Wasi

open Effect OrderedMap List

variable {η : Type}

/-- One descriptor later: its rights have only been narrowed. -/
structure Narrows (d d' : Descriptor) : Prop where
  id : d'.id = d.id
  lineage : d'.lineage = d.lineage
  kind : d'.kind = d.kind
  type : d'.type = d.type
  preopen : d'.preopen = d.preopen
  base : Within d'.rightsBase d.rightsBase
  inheriting : Within d'.rightsInheriting d.rightsInheriting

theorem Narrows.refl (d : Descriptor) : Narrows d d :=
  ⟨rfl, rfl, rfl, rfl, rfl, .refl _, .refl _⟩

variable {d d' : Descriptor}

theorem Narrows.trans {d'' : Descriptor} (h : Narrows d d') (h' : Narrows d' d'') :
    Narrows d d'' where
  id := h'.id.trans h.id
  lineage := h'.lineage.trans h.lineage
  kind := h'.kind.trans h.kind
  type := h'.type.trans h.type
  preopen := h'.preopen.trans h.preopen
  base := h'.base.trans h.base
  inheriting := h'.inheriting.trans h.inheriting

/-- A descriptor that was opened under another has rights within those it inherits, and no
more than its type allows. -/
structure OpenedUnder (parent d : Descriptor) : Prop where
  lineage : d.lineage = parent.id :: parent.lineage
  preopen : d.preopen = false
  base : Within d.rightsBase parent.rightsInheriting
  inheriting : Within d.rightsInheriting parent.rightsInheriting
  baseMaximum : Within d.rightsBase (maximum d.type).1
  inheritingMaximum : Within d.rightsInheriting (maximum d.type).2

theorem OpenedUnder.narrows {parent : Descriptor} (h : OpenedUnder parent d)
    (h' : Narrows d d') : OpenedUnder parent d' where
  lineage := h'.lineage.trans h.lineage
  preopen := h'.preopen.trans h.preopen
  base := h'.base.trans h.base
  inheriting := h'.inheriting.trans h.inheriting
  baseMaximum := by
    rw [h'.type]
    exact h'.base.trans h.baseMaximum
  inheritingMaximum := by
    rw [h'.type]
    exact h'.inheriting.trans h.inheritingMaximum

/-- Each descriptor is in one slot, and its identity has been given out. -/
structure Apart (w : World η) : Prop where
  given : ∀ fd d, find fd w.table = some d → d.id < w.nextId
  apart : ∀ fd fd' d d', find fd w.table = some d →
    find fd' w.table = some d' → d.id = d'.id → fd = fd'

/-- What happened between two worlds, where certain events are allowed and descriptors may
have been opened under one. -/
structure Does (allowed : Event η → Prop) (parent : Option Descriptor) (w w' : World η) :
    Prop where
  events : ∃ events, w'.history = w.history ++ events ∧ ∀ event ∈ events, allowed event
  length : w'.memory.length = w.memory.length
  nextId : w.nextId ≤ w'.nextId
  comes : ∀ fd' d', find fd' w'.table = some d' →
    (∃ fd d, find fd w.table = some d ∧ Narrows d d') ∨
      (w.nextId ≤ d'.id ∧ d'.id < w'.nextId ∧ ∃ p, parent = some p ∧ OpenedUnder p d')
  apart : Apart w → Apart w'

variable {allowed : Event η → Prop} {parent : Option Descriptor}

instance : IsPreorder (World η) (Does allowed parent) where
  refl w := ⟨⟨[], by simp, by simp⟩, rfl, Nat.le_refl _,
    fun fd d h => .inl ⟨fd, d, h, .refl d⟩, id⟩
  trans w w' w'' h h' := by
    refine ⟨?_, h'.length.trans h.length, Nat.le_trans h.nextId h'.nextId, ?_,
      fun hw => h'.apart (h.apart hw)⟩
    · obtain ⟨events, hhistory, hall⟩ := h.events
      obtain ⟨events', hhistory', hall'⟩ := h'.events
      refine ⟨events ++ events', by rw [hhistory', hhistory, append_assoc], ?_⟩
      intro event hmem
      exact (mem_append.1 hmem).elim (hall event) (hall' event)
    · intro fd'' d'' hfind
      rcases h'.comes fd'' d'' hfind with ⟨fd', d', hfind', hnarrow⟩ | ⟨hlow, hhigh, hopened⟩
      · rcases h.comes fd' d' hfind' with ⟨fd, d, hd, hnarrow'⟩ | ⟨hlow, hhigh, p, hp, hopened⟩
        · exact .inl ⟨fd, d, hd, hnarrow'.trans hnarrow⟩
        · refine .inr ⟨by rwa [hnarrow.id], ?_, p, hp, hopened.narrows hnarrow⟩
          rw [hnarrow.id]
          exact Nat.lt_of_lt_of_le hhigh h'.nextId
      · exact .inr ⟨Nat.le_trans h.nextId hlow, hhigh, hopened⟩

variable {w' : World η}

theorem does_of_table {w : World η} {events : List (Event η)}
    (hhistory : w'.history = w.history ++ events) (hall : ∀ event ∈ events, allowed event)
    (hlength : w'.memory.length = w.memory.length) (htable : w'.table = w.table)
    (hnext : w'.nextId = w.nextId) : Does allowed parent w w' where
  events := ⟨events, hhistory, hall⟩
  length := hlength
  nextId := Nat.le_of_eq hnext.symm
  comes fd' d' hfind := .inl ⟨fd', d', by rwa [htable] at hfind, .refl d'⟩
  apart hw := ⟨fun fd d hfind => by
      rw [htable] at hfind
      rw [hnext]
      exact hw.given fd d hfind,
    fun fd fd' d d' hfind hfind' => by
      rw [htable] at hfind hfind'
      exact hw.apart fd fd' d d' hfind hfind'⟩

/-! ## The parts of a syscall -/

variable {E : Stop → Prop} {w : World η} {α : Type}

section Rules

variable {R : World η → World η → Prop} [IsPreorder (World η) R]

variable {Q : α → World η → Prop}

theorem meets_answer {errno : Errno} (h : E (.answer errno)) :
    Meets R E (answer errno : Syscall η α) w Q := .throw h

section Bind

variable {β : Type} {Q : β → World η → Prop}

omit [IsPreorder (World η) R] in
theorem meets_get_bind {f : World η → Syscall η β} (h : Meets R E (f w) w Q) :
    Meets R E (get >>= f) w Q := by
  cases hrun : (f w).run w with
  | mk result w' =>
    have hbind : (get >>= f).run w = (result, w') := hrun
    refine ⟨?_, ?_, ?_⟩
    · simpa only [hbind, hrun] using h.rel
    · simpa only [hbind, hrun] using h.ok
    · simpa only [hbind, hrun] using h.error

theorem meets_require_bind {condition : Bool} {errno : Errno} {f : Unit → Syscall η β}
    (herrno : condition = false → E (.answer errno))
    (h : condition = true → Meets R E (f ()) w Q) :
    Meets R E (require condition errno >>= f) w Q := by
  cases condition with
  | true => exact h rfl
  | false => exact (Meets.throw (herrno rfl)).bind fun _ _ _ (hfalse : False) => hfalse.elim

theorem meets_checkFits_bind {offset size : ℕ} {f : Unit → Syscall η β}
    (hover : w.fits offset size = false → E (.answer .EOVERFLOW))
    (h : w.fits offset size = true → Meets R E (f ()) w Q) :
    Meets R E (checkFits offset size >>= f) w Q := by
  rw [checkFits, Effect.bind_assoc']
  exact meets_get_bind (meets_require_bind hover h)

variable {fd : ℕ} {base inheriting : Rights}

/-- What a lookup answers is in the table, with the rights asked for. -/
theorem lookup_eq_ok {d : Descriptor}
    (h : w.lookup fd base inheriting = .ok d) : find fd w.table = some d ∧
      Within base d.rightsBase ∧ Within inheriting d.rightsInheriting := by
  unfold World.lookup at h
  cases hfind : find fd w.table with
  | none =>
    rw [hfind] at h
    cases h
  | some d' =>
    rw [hfind] at h
    dsimp only at h
    split at h
    · next hrights =>
      cases h
      exact ⟨rfl, hrights⟩
    · cases h

theorem lookup_eq_error {errno : Errno} (h : w.lookup fd base inheriting = .error errno) :
    errno = .EBADF ∨ errno = .ENOTCAPABLE := by
  unfold World.lookup at h
  split at h
  · cases h
    exact .inl rfl
  · split at h
    · cases h
    · cases h
      exact .inr rfl

theorem meets_lookup_bind {f : Descriptor → Syscall η β} (hbadf : E (.answer .EBADF))
    (hnotcapable : E (.answer .ENOTCAPABLE))
    (h : ∀ d, find fd w.table = some d → Within base d.rightsBase →
      Within inheriting d.rightsInheriting → Meets R E (f d) w Q) :
    Meets R E (lookup fd base inheriting >>= f) w Q := by
  rw [lookup, Effect.bind_assoc']
  refine meets_get_bind ?_
  cases hlookup : w.lookup fd base inheriting with
  | error errno =>
    have herrno : E (.answer errno) := by
      rcases lookup_eq_error hlookup with rfl | rfl
      · exact hbadf
      · exact hnotcapable
    exact (Meets.throw herrno).bind fun _ _ _ (hfalse : False) => hfalse.elim
  | ok d =>
    obtain ⟨hfind, hbase, hinheriting⟩ := lookup_eq_ok hlookup
    exact h d hfind hbase hinheriting

end Bind

theorem meets_catching {F : Stop → Prop} {x : Syscall η α} {handler : HostError → Syscall η α}
    (h : Meets R F x w Q) (hanswer : ∀ errno, F (.answer errno) → E (.answer errno))
    (hhandler : ∀ e w', R w w' → F (.thrown e) →
      Meets R E (handler e) w' Q) : Meets R E (catching x handler) w Q := by
  have hrel := h.rel
  have hok := h.ok
  have herror := h.error
  rw [run] at hrel hok herror
  rcases hx : x w with ⟨(errno | e) | a, w'⟩
  · rw [hx] at hrel herror
    refine .of_run_error (e := .answer errno) (t := w') ?_ hrel (hanswer errno (herror _ rfl))
    rw [run, catching, hx]
  · rw [hx] at hrel herror
    have hrun : (catching x handler).run w = (handler e).run w' := by
      rw [run, catching, hx]
      rfl
    have hmeets := hhandler e w' hrel (herror _ rfl)
    refine ⟨?_, fun a ha => ?_, fun stop hstop => ?_⟩
    · rw [hrun]
      exact IsTrans.trans _ _ _ hrel hmeets.rel
    · rw [hrun] at ha ⊢
      exact hmeets.ok a ha
    · rw [hrun] at hstop
      exact hmeets.error stop hstop
  · rw [hx] at hrel hok
    refine .of_run_ok (a := a) (t := w') ?_ hrel (hok a rfl)
    rw [run, catching, hx]

theorem meets_attempt {F : Stop → Prop} {x : Syscall η α} (h : Meets R F x w Q)
    (hanswer : ∀ errno, F (.answer errno) → E (.answer errno)) :
    Meets R E (attempt x) w fun a w' => ∀ b, a = some b → Q b w' := by
  refine meets_catching (F := F) ?_ hanswer fun e w' _ _ => .pure fun b hb => by cases hb
  refine h.map fun a w' _ hq => ?_
  rintro b ⟨⟩
  exact hq

end Rules

theorem meets_ask (host : Host η) (call : HostCall) (hcall : allowed (.call w.host call))
    (hthrown : ∀ e, (host.answer w.host call).1 = .error e → E (.thrown e)) :
    Meets (Does allowed parent) E (ask host call) w fun a w' =>
      (host.answer w.host call).1 = .ok a ∧ w'.host = (host.answer w.host call).2 ∧
        w'.table = w.table ∧ w'.memory = w.memory := by
  have hrel : Does allowed parent w { w with
      host := (host.answer w.host call).2, history := w.history ++ [.call w.host call] } :=
    does_of_table rfl (by simpa using hcall) rfl rfl rfl
  cases hresult : (host.answer w.host call).1 with
  | ok a =>
    refine .of_run_ok (a := a) ?_ hrel ⟨rfl, rfl, rfl, rfl⟩
    rw [run, ask, hresult]
  | error e =>
    refine .of_run_error (e := .thrown e) ?_ hrel (hthrown e hresult)
    rw [run, ask, hresult]

variable {offset : ℕ}

theorem meets_load {size : ℕ} (hload : w.fits offset size = true → allowed (.load offset size))
    (hthrown : w.fits offset size = false → E (.thrown rangeError)) :
    Meets (Does allowed parent) E (load offset size : Syscall η (List UInt8)) w fun a w' =>
      a = (w.memory.drop offset).take size ∧ w'.table = w.table ∧ w'.memory = w.memory ∧
        w'.host = w.host := by
  cases hfits : w.fits offset size with
  | true =>
    refine .of_run_ok (t := { w with history := w.history ++ [.load offset size] }) ?_
      (does_of_table rfl (by simpa using hload hfits) rfl rfl rfl) ⟨rfl, rfl, rfl, rfl⟩
    rw [run, load, if_pos hfits]
  | false =>
    refine .of_run_error (t := w) (e := .thrown rangeError) ?_ (Std.Refl.refl w) (hthrown hfits)
    rw [run, load, hfits, if_neg (by simp)]

theorem meets_store {bytes : List UInt8}
    (hstore : w.fits offset bytes.length = true → allowed (.store offset bytes.length))
    (hthrown : w.fits offset bytes.length = false → E (.thrown rangeError)) :
    Meets (Does allowed parent) E (store offset bytes : Syscall η Unit) w fun _ w' =>
      w'.table = w.table ∧ w'.host = w.host := by
  cases hfits : w.fits offset bytes.length with
  | true =>
    have hlength : (ByteHeap.overwrite w.memory offset bytes).length = w.memory.length :=
      ByteHeap.length_overwrite (by simpa [World.fits] using hfits)
    refine .of_run_ok (a := ()) (t := { w with
        memory := ByteHeap.overwrite w.memory offset bytes,
        history := w.history ++ [.store offset bytes.length] }) ?_
      (does_of_table rfl (by simpa using hstore hfits) hlength rfl rfl) ⟨rfl, rfl⟩
    rw [run, store, if_pos hfits]
  | false =>
    refine .of_run_error (t := w) (e := .thrown rangeError) ?_ (Std.Refl.refl w) (hthrown hfits)
    rw [run, store, hfits, if_neg (by simp)]

theorem meets_bytesAt {length : ℕ}
    (hload : allowed (.load offset ((w.memory.drop offset).take length).length)) :
    Meets (Does allowed parent) E (bytesAt offset length : Syscall η (List UInt8)) w fun a w' =>
      a = (w.memory.drop offset).take length ∧ w'.table = w.table ∧ w'.memory = w.memory ∧
        w'.host = w.host :=
  .of_run_ok rfl (does_of_table rfl (by simpa using hload) rfl rfl rfl) ⟨rfl, rfl, rfl, rfl⟩

/-- A change of what is neither the table, the memory nor the history. -/
theorem meets_modify {f : World η → World η} (hhistory : (f w).history = w.history)
    (hmemory : (f w).memory = w.memory) (htable : (f w).table = w.table)
    (hnext : (f w).nextId = w.nextId) (hhost : (f w).host = w.host) :
    Meets (Does allowed parent) E (modify f : Syscall η Unit) w fun _ w' =>
      w'.table = w.table ∧ w'.memory = w.memory ∧ w'.host = w.host := by
  refine .of_run_ok (a := ()) rfl ?_ ⟨htable, hmemory, hhost⟩
  have hnone : (f w).history = w.history ++ [] := by rw [hhistory, append_nil]
  exact does_of_table hnone (by simp) (by rw [hmemory]) htable hnext

/-- A computation that leaves the table, the memory and the host as they are. -/
structure Still (w w' : World η) : Prop where
  table : w'.table = w.table
  memory : w'.memory = w.memory
  host : w'.host = w.host

theorem Still.refl (w : World η) : Still w w := ⟨rfl, rfl, rfl⟩

theorem Still.trans {w w'' : World η} (h : Still w w') (h' : Still w' w'') : Still w w'' :=
  ⟨h'.table.trans h.table, h'.memory.trans h.memory, h'.host.trans h.host⟩

theorem Still.fits {w : World η} (h : Still w w') (offset size : ℕ) :
    w'.fits offset size = w.fits offset size := by
  rw [World.fits, World.fits, h.memory]

theorem meets_loadNumber {size : ℕ}
    (hload : w.fits offset size = true → allowed (.load offset size))
    (hthrown : w.fits offset size = false → E (.thrown rangeError)) :
    Meets (Does allowed parent) E (loadNumber size offset : Syscall η ℕ) w fun a w' =>
      a = ByteNumber.ofLittle ((w.memory.drop offset).take size) ∧ Still w w' := by
  refine (meets_load hload hthrown).map ?_
  rintro _ w' - ⟨rfl, htable, hmemory, hhost⟩
  exact ⟨rfl, htable, hmemory, hhost⟩

def iovecsAt (memory : List UInt8) : ℕ → ℕ → List (ℕ × ℕ)
  | 0, _ => []
  | n + 1, iovsPtr =>
      (ByteNumber.ofLittle ((memory.drop iovsPtr).take 4),
        ByteNumber.ofLittle ((memory.drop (iovsPtr + 4)).take 4)) ::
        iovecsAt memory n (iovsPtr + SIZE.iovec)

theorem meets_iovecsFrom {R : World η → World η → Prop} [IsPreorder (World η) R] {n iovsPtr : ℕ}
    (hload : ∀ i < 2 * n, ∀ w', Still w w' →
      Meets R E (loadNumber 4 (iovsPtr + 4 * i) : Syscall η ℕ) w' fun a w'' =>
        a = ByteNumber.ofLittle ((w'.memory.drop (iovsPtr + 4 * i)).take 4) ∧ Still w' w'')
    (hover : (∃ iov ∈ iovecsAt w.memory n iovsPtr, w.fits iov.1 iov.2 = false) →
      E (.answer .EOVERFLOW)) :
    Meets R E (iovecsFrom n iovsPtr : Syscall η (List (ℕ × ℕ))) w
      fun iovs w' => iovs = iovecsAt w.memory n iovsPtr ∧
        (∀ iov ∈ iovs, w.fits iov.1 iov.2 = true) ∧ Still w w' := by
  induction n generalizing iovsPtr w with
  | zero => exact .pure ⟨rfl, by simp, .refl w⟩
  | succ n ih =>
    refine (hload 0 (by omega) w (.refl w)).bind ?_
    rintro _ w₁ - ⟨rfl, hstill₁⟩
    refine (hload 1 (by omega) w₁ hstill₁).bind ?_
    rintro _ w₂ - ⟨rfl, hstill₂⟩
    have hstill := hstill₁.trans hstill₂
    rw [hstill₁.memory]
    refine meets_checkFits_bind (fun hfits => hover ⟨_, mem_cons_self, ?_⟩) fun hfits => ?_
    · rwa [← hstill.fits]
    refine (ih (fun i hi w' hw' => ?_) ?_).bind ?_
    · have h := hload (i + 2) (by omega) w' (hstill.trans hw')
      have heq : iovsPtr + SIZE.iovec + 4 * i = iovsPtr + 4 * (i + 2) := by
        simp only [SIZE.iovec]
        omega
      rwa [heq]
    · rintro ⟨iov, hmem, hnot⟩
      rw [hstill.memory] at hmem
      rw [hstill.fits] at hnot
      exact hover ⟨iov, mem_cons_of_mem _ hmem, hnot⟩
    · rintro _ w₃ - ⟨rfl, hall, hstill₃⟩
      rw [hstill.memory]
      refine .pure ⟨rfl, ?_, hstill.trans hstill₃⟩
      intro iov hmem
      rcases mem_cons.1 hmem with rfl | hmem
      · rwa [← hstill.fits]
      · rw [← hstill.fits]
        exact hall iov (by rwa [hstill.memory])

/-! ## The table -/

/-- A descriptor of the table, its rights no wider, put back in its slot. -/
theorem meets_update {fd : ℕ} (hfind : find fd w.table = some d)
    (hnarrow : Narrows d d') :
    Meets (Does allowed parent) E (update fd d' : Syscall η Unit) w fun _ w' =>
      find fd w'.table = some d' ∧ w'.memory = w.memory ∧ w'.host = w.host := by
  refine .of_run_ok (a := ()) rfl ?_ ⟨find_set_self .., rfl, rfl⟩
  have hcomes : ∀ fd' e', find fd' (OrderedMap.set fd d' w.table) = some e' →
      ∃ e, find fd' w.table = some e ∧ Narrows e e' := by
    intro fd' e' he'
    rw [find_set] at he'
    split at he'
    · next hfd =>
      cases he'
      exact ⟨d, hfd ▸ hfind, hnarrow⟩
    · exact ⟨e', he', .refl e'⟩
  refine ⟨⟨[], by simp, by simp⟩, rfl, Nat.le_refl _, ?_, fun hw => ⟨?_, ?_⟩⟩
  · intro fd' e' he'
    obtain ⟨e, he, hn⟩ := hcomes fd' e' he'
    exact .inl ⟨fd', e, he, hn⟩
  · intro fd' e' he'
    obtain ⟨e, he, hn⟩ := hcomes fd' e' he'
    rw [hn.id]
    exact hw.given fd' e he
  · intro fd₁ fd₂ e₁ e₂ h₁ h₂ hid
    obtain ⟨a₁, ha₁, hn₁⟩ := hcomes fd₁ e₁ h₁
    obtain ⟨a₂, ha₂, hn₂⟩ := hcomes fd₂ e₂ h₂
    exact hw.apart fd₁ fd₂ a₁ a₂ ha₁ ha₂ (by rw [← hn₁.id, ← hn₂.id, hid])

/-- A table whose descriptors are all of the table before, in slots of their own. -/
theorem does_of_slots (slot : ℕ → ℕ) (hslot : ∀ fd d, find fd w'.table = some d →
      find (slot fd) w.table = some d)
    (hinj : ∀ fd fd' d d', find fd w'.table = some d →
      find fd' w'.table = some d' → slot fd = slot fd' → fd = fd')
    (hhistory : w'.history = w.history) (hmemory : w'.memory = w.memory)
    (hnext : w'.nextId = w.nextId) : Does allowed parent w w' where
  events := ⟨[], by rw [hhistory, append_nil], by simp⟩
  length := by rw [hmemory]
  nextId := Nat.le_of_eq hnext.symm
  comes fd d hfind := .inl ⟨slot fd, d, hslot fd d hfind, .refl d⟩
  apart hw := ⟨fun fd d hfind => by
      rw [hnext]
      exact hw.given _ d (hslot fd d hfind),
    fun fd fd' d d' hfind hfind' hid => hinj fd fd' d d' hfind hfind'
      (hw.apart _ _ d d' (hslot fd d hfind) (hslot fd' d' hfind') hid)⟩

theorem meets_erase (fd : ℕ) :
    Meets (Does allowed parent) E
      (modify fun w => { w with table := erase fd w.table } : Syscall η Unit) w
      fun _ _ => True := by
  refine .of_run_ok (a := ()) rfl (does_of_slots id ?_ (fun _ _ _ _ _ _ h => h) rfl rfl rfl) trivial
  intro fd' d hfind
  simp only [find_erase] at hfind
  split at hfind
  · cases hfind
  · exact hfind

theorem meets_move {source target : ℕ} {moved : Descriptor}
    (hfind : find source w.table = some moved) :
    Meets (Does allowed parent) E
      (modify fun w => { w with
        table := erase source (OrderedMap.set target moved w.table) } : Syscall η Unit)
      w fun _ _ => True := by
  have hcases : ∀ fd d, find fd
      (erase source (OrderedMap.set target moved w.table)) = some d →
      source ≠ fd ∧ (if target = fd then some moved else find fd w.table) = some d := by
    intro fd d hd
    rw [find_erase, find_set] at hd
    split at hd
    · cases hd
    · next hsource => exact ⟨hsource, hd⟩
  refine .of_run_ok (a := ()) rfl
    (does_of_slots (fun fd => if target = fd then source else fd) ?_ ?_ rfl rfl rfl) trivial
  · intro fd d hd
    obtain ⟨-, hd⟩ := hcases fd d hd
    by_cases htarget : target = fd
    · rw [if_pos htarget] at hd ⊢
      exact hfind.trans hd
    · rwa [if_neg htarget] at hd ⊢
  · intro fd fd' d d' hd hd' heq
    obtain ⟨hsource, -⟩ := hcases fd d hd
    obtain ⟨hsource', -⟩ := hcases fd' d' hd'
    grind

theorem find_lowestFree_aux (table : List (ℕ × Descriptor)) (n fd : ℕ) :
    (∀ i < n, (find (fd + i) table).isSome = true) ∧
        lowestFree table n fd = fd + n ∨
      find (lowestFree table n fd) table = none := by
  induction n generalizing fd with
  | zero => exact .inl ⟨by simp, rfl⟩
  | succ n ih =>
    rw [lowestFree]
    split
    · next hsome =>
      rcases ih (fd + 1) with ⟨hall, heq⟩ | hnone
      · refine .inl ⟨fun i hi => ?_, by omega⟩
        cases i with
        | zero => exact hsome
        | succ i =>
          have := hall i (by omega)
          rwa [Nat.add_right_comm] at this
      · exact .inr hnone
    · next hnone => exact .inr (by simpa using hnone)

/-- The lowest slot that is free, of as many as the table has and one, is free. -/
theorem find_lowestFree (table : List (ℕ × Descriptor)) :
    find (lowestFree table (table.length + 1) 0) table = none := by
  rcases find_lowestFree_aux table (table.length + 1) 0 with ⟨hall, -⟩ | hnone
  · -- so many numbers do not fit in the keys of the table
    exfalso
    have hsub : List.range (table.length + 1) ⊆ keys table := by
      intro i hi
      have hsome := hall i (mem_range.1 hi)
      rw [Nat.zero_add, ← Option.ne_none_iff_isSome] at hsome
      by_contra hkey
      exact hsome (find_eq_none_iff.2 hkey)
    have hlength := (nodup_range.subperm hsub).length_le
    rw [length_range, OrderedMap.keys, length_map] at hlength
    omega
  · exact hnone

/-- A descriptor opened under the one that `Does` allows, put in the lowest free slot. -/
theorem meets_insert {p : Descriptor} (hparent : parent = some p) (hopened : OpenedUnder p d) :
    Meets (Does allowed parent) E (insert d : Syscall η ℕ) w fun _ w' => w'.memory = w.memory := by
  have hfree := find_lowestFree w.table
  refine .of_run_ok (a := lowestFree w.table (w.table.length + 1) 0) rfl ?_ rfl
  refine ⟨⟨[], by simp, by simp⟩, rfl, Nat.le_succ _, ?_, fun hw => ⟨?_, ?_⟩⟩
  · intro fd e he
    simp only [find_set] at he
    split at he
    · cases he
      exact .inr ⟨Nat.le_refl _, Nat.lt_succ_self _, p, hparent, { hopened with }⟩
    · exact .inl ⟨fd, e, he, .refl e⟩
  · intro fd e he
    simp only [find_set] at he
    split at he
    · cases he
      exact Nat.lt_succ_self _
    · exact Nat.lt_succ_of_lt (hw.given fd e he)
  · intro fd fd' e e' he he' hid
    simp only [find_set] at he he'
    split at he <;> split at he'
    · next h h' => exact h.symm.trans h'
    · cases he
      exact absurd (hw.given fd' e' he') (by rw [← hid]; exact Nat.lt_irrefl _)
    · cases he'
      exact absurd (hw.given fd e he) (by rw [hid]; exact Nat.lt_irrefl _)
    · exact hw.apart fd fd' e e' he he' hid

end Wasi

end Tabnode
