import Tabnode.Data.JsNumber
import Tabnode.Wasi.Lexical
import Tabnode.Wasi.Primitives
import Tabnode.Wasi.Syscalls

/-!
# Sizes, offsets and times as doubles

An integer below `2 ^ 53` is its own double, and a time of a `Date` in nanoseconds is a
finite number of seconds.
-/

namespace Tabnode

namespace Wasi

open JsNumber

variable {n : ℤ}

/-- The unit in the last place of an integer's double is no more than the integer. -/
theorem ulp_le (hn : n ≠ 0) : (2 : ℤ) ^ (Nat.log2 n.natAbs - 52) ≤ |n| := by
  have hlog : 2 ^ Nat.log2 n.natAbs ≤ n.natAbs := Nat.log2_self_le (Int.natAbs_ne_zero.2 hn)
  have hpow : 2 ^ (Nat.log2 n.natAbs - 52) ≤ 2 ^ Nat.log2 n.natAbs :=
    Nat.pow_le_pow_right (by decide) (Nat.sub_le _ _)
  have hnat := hpow.trans hlog
  rw [Int.abs_eq_natAbs]
  exact_mod_cast hnat

theorem nearest_of_lt (hlow : 0 ≤ n) (h : n < 2 ^ 53) : nearest n = n := by
  have hlog : Nat.log2 n.natAbs - 52 = 0 := by
    by_cases hzero : n.natAbs = 0
    · simp [hzero]
    · have hlt : Nat.log2 n.natAbs < 53 := (Nat.log2_lt hzero).2 (by omega)
      omega
  rw [nearest, hlog]
  simp

theorem nearest_nonneg (h : 0 ≤ n) : 0 ≤ nearest n := by
  rw [nearest]
  refine mul_nonneg (roundTiesEven_nonneg ?_) (by positivity)
  exact div_nonneg (by exact_mod_cast h) (by exact_mod_cast pow_nonneg (by norm_num) _)

theorem nearest_le (h : 0 ≤ n) : nearest n ≤ 2 * n := by
  by_cases hzero : n = 0
  · rw [hzero, nearest_of_lt (le_refl _) (by norm_num)]
    norm_num
  · have hulp := ulp_le hzero
    rw [abs_of_nonneg h] at hulp
    have hpos : 0 < (2 : ℤ) ^ (Nat.log2 n.natAbs - 52) := by positivity
    rw [nearest]
    generalize (2 : ℤ) ^ (Nat.log2 n.natAbs - 52) = ulp at hulp hpos ⊢
    have hposRat : (0 : ℚ) < ulp := by exact_mod_cast hpos
    have hround := mul_le_mul_of_nonneg_right (roundTiesEven_le (n / ulp : ℚ)) hposRat.le
    rw [add_mul, div_mul_cancel₀ _ hposRat.ne', one_mul] at hround
    have hint : roundTiesEven (n / ulp : ℚ) * ulp ≤ n + ulp := by exact_mod_cast hround
    exact hint.trans (by omega)

/-- The seconds of a time that is not far from the epoch are finite. -/
theorem isFinite_seconds {nanos : ℤ} (hlow : 0 ≤ nanos) (h : nanos ≤ 2 ^ 110) :
    (seconds nanos).isFinite = true := by
  have hnear : (nearest nanos : ℚ) ≤ 2 ^ (111 : ℕ) := by
    have hint : nearest nanos ≤ 2 ^ 111 := (nearest_le hlow).trans (by omega)
    exact_mod_cast hint
  have hnonneg : (0 : ℚ) ≤ nearest nanos := by exact_mod_cast nearest_nonneg hlow
  have hle : (nearest nanos : ℚ) / 1000000000 ≤ 2 ^ (100 : ℕ) := by
    rw [div_le_iff₀ (by norm_num)]
    exact hnear.trans (by norm_num)
  obtain ⟨y, hround, -⟩ := round_eq_finite (div_nonneg hnonneg (by norm_num)) hle
  rw [seconds, hround]
  rfl

/-- The most milliseconds a `Date` can be from the epoch. -/
def maxTime : ℚ := 8640000000000000

theorem nanosSince_bounds {ms : ℚ} (hlow : 0 ≤ ms) (h : ms ≤ maxTime) :
    0 ≤ nanosSince ms ∧ nanosSince ms ≤ 2 ^ 110 := by
  have hfloor : 0 ≤ ⌊ms⌋ := Int.floor_nonneg.2 hlow
  have hfloorLe : ⌊ms⌋ ≤ 8640000000000000 := by
    have := (Int.floor_le ms).trans h
    rw [maxTime] at this
    exact_mod_cast this
  have hfract : 0 ≤ (ms - ⌊ms⌋) * 1000000 := by
    have := Int.fract_nonneg ms
    rw [Int.fract] at this
    linarith
  have hfractLe : (ms - ⌊ms⌋) * 1000000 ≤ 2 ^ (100 : ℕ) := by
    have := (Int.fract_lt_one ms).le
    rw [Int.fract] at this
    calc (ms - ⌊ms⌋) * 1000000 ≤ 1 * 1000000 := mul_le_mul_of_nonneg_right this (by norm_num)
      _ ≤ 2 ^ (100 : ℕ) := by norm_num
  obtain ⟨y, hround, hy, hyLe⟩ := round_eq_finite hfract hfractLe
  have hvalue : ⌊valueOf (JsNumber.round ((ms - ⌊ms⌋) * 1000000)) + 1 / 2⌋ = ⌊y + 1 / 2⌋ := by
    rw [hround, valueOf]
  have hnonneg : 0 ≤ ⌊y + 1 / 2⌋ := Int.floor_nonneg.2 (by linarith)
  have hupper : ⌊y + 1 / 2⌋ ≤ 2 ^ 101 + 1 := by
    have hfloorY := Int.floor_le (y + 1 / 2)
    have hrat : (⌊y + 1 / 2⌋ : ℚ) ≤ 2 ^ (101 : ℕ) + 1 := by linarith
    exact_mod_cast hrat
  rw [nanosSince, hvalue]
  omega

end Wasi

end Tabnode

/-!
## Inside ranges of the memory

`Documented` is what a syscall relies on in the host: the arguments a call takes, that it
answers a value or an error with a code of the system for those, that no path with a NUL is
answered, and what its values are like. `Keeps ranges` says of two worlds that memory was touched
inside the ranges only, and `Stays` is the contract of a part of a syscall that has its
ranges checked: it answers no `EOVERFLOW`, and throws what is answered as an errno.
-/

namespace Tabnode

namespace Wasi

open Effect

variable {η : Type}

/-! ### The host's calls -/

def Clean (path : Str) : Prop := '\x00' ∉ path

/-- The arguments that a call of the host is documented for. The two calls that end the guest
are none of its fs. -/
def HostCall.InRange : HostCall → Prop
  | statSync path | lstatSync path | openSync path _ _ | readdirSync path | mkdirSync path
  | rmdirSync path | unlinkSync path | realpathSync path | readlinkSync path => Clean path
  | renameSync oldPath newPath => Clean oldPath ∧ Clean newPath
  | symlinkSync target path => Clean target ∧ Clean path
  | utimesSync path atime mtime => Clean path ∧ atime.isFinite = true ∧ mtime.isFinite = true
  | readSync _ length position => length < 2 ^ 31 ∧ -1 ≤ position ∧ position < 2 ^ 53
  | writeSync _ bytes position =>
      bytes.length < 2 ^ 31 ∧ -(2 ^ 53) < position ∧ position < 2 ^ 53
  | ftruncateSync _ length => -(2 ^ 53) < length ∧ length < 2 ^ 53
  | exit _ | kill _ => False
  | _ => True

def HostCall.Named : HostCall → Prop
  | statSync path | lstatSync path | openSync path _ _ | readdirSync path | mkdirSync path
  | rmdirSync path | unlinkSync path | realpathSync path | readlinkSync path
  | utimesSync path _ _ => Clean path
  | renameSync oldPath newPath => Clean oldPath ∧ Clean newPath
  | symlinkSync target path => Clean target ∧ Clean path
  | _ => True

/-- A time of stats, if it is there, is one of a `Date`. -/
def Dated (ms date : Option JsNumber) : Prop :=
  ∀ value, (ms.orElse fun _ => date) = some (.finite value) → value ≤ maxTime

structure HostStats.Documented (stats : HostStats) : Prop where
  size : stats.size < 2 ^ 53
  atime : Dated stats.atimeMs stats.atime
  mtime : Dated stats.mtimeMs stats.mtime

def HostCall.Plausible : (call : HostCall) → call.Answer → Prop
  | statSync _, stats | lstatSync _, stats | fstatSync _, stats => stats.Documented
  | readSync _ length _, bytes => bytes.length ≤ length
  | writeSync _ bytes _, count => count ≤ bytes.length
  | random length, bytes => bytes.length = length
  | realtime, ms => 0 ≤ ms ∧ ms ≤ maxTime
  | realpathSync _, path | readlinkSync _, path => Clean path
  | _, _ => True

/-- An error that `define` answers as an errno, and not as `EOVERFLOW`. -/
def FsFault (error : HostError) : Prop := isFsError error = true ∧ errnoOf error ≠ .EOVERFLOW

/-- A host that does as its documentation says. -/
structure Documented (host : Host η) : Prop where
  ok : ∀ state call a, (host.answer state call).1 = .ok a → call.Named ∧ call.Plausible a
  error : ∀ state (call : HostCall) e, call.InRange → (host.answer state call).1 = .error e →
    FsFault e

/-! ### What is kept -/

def Event.Inside (ranges : List (ℕ × ℕ)) (length : ℕ) : Event η → Prop
  | .load offset size | .store offset size =>
      offset + size ≤ length ∧ ∃ r ∈ ranges, r.1 ≤ offset ∧ offset + size ≤ r.1 + r.2
  | .call _ _ => True

/-- A descriptor whose paths and cursor are as the table's are. -/
structure Descriptor.Sane (d : Descriptor) : Prop where
  path : IsNormal d.path
  hostPath : Clean d.hostPath
  position : 0 ≤ d.position

def Tidy (w : World η) : Prop := ∀ fd d, OrderedMap.find fd w.table = some d → d.Sane

/-- Memory was touched inside the ranges, and the table is as tidy as it was. -/
structure Keeps (ranges : List (ℕ × ℕ)) (w w' : World η) : Prop where
  events : ∃ events, w'.history = w.history ++ events ∧
    ∀ event ∈ events, event.Inside ranges w.memory.length
  length : w'.memory.length = w.memory.length
  frame : ∀ i, (∀ r ∈ ranges, i < r.1 ∨ r.1 + r.2 ≤ i) → w'.memory[i]? = w.memory[i]?
  tidy : Tidy w → Tidy w'

variable {ranges : List (ℕ × ℕ)} {w w' : World η}

instance : IsPreorder (World η) (Keeps ranges) where
  refl _ := ⟨⟨[], by simp, by simp⟩, rfl, fun _ _ => rfl, id⟩
  trans w w' w'' h h' := by
    refine ⟨?_, h'.length.trans h.length, fun i hi => (h'.frame i hi).trans (h.frame i hi),
      h'.tidy ∘ h.tidy⟩
    obtain ⟨events, hhistory, hall⟩ := h.events
    obtain ⟨events', hhistory', hall'⟩ := h'.events
    refine ⟨events ++ events', by rw [hhistory', hhistory, List.append_assoc], ?_⟩
    intro event hmem
    rcases List.mem_append.1 hmem with hmem | hmem
    · exact hall event hmem
    · rw [← h.length]
      exact hall' event hmem

theorem Keeps.fits (h : Keeps ranges w w') (offset size : ℕ) :
    w'.fits offset size = w.fits offset size := by
  rw [World.fits, World.fits, h.length]

variable {ranges' : List (ℕ × ℕ)}

theorem Event.Inside.mono {length : ℕ} {event : Event η} (h : event.Inside ranges length)
    (hsub : ranges ⊆ ranges') : event.Inside ranges' length := by
  cases event with
  | call => exact h
  | load | store => exact ⟨h.1, h.2.imp fun _ hr => ⟨hsub hr.1, hr.2⟩⟩

theorem Keeps.mono (h : Keeps ranges w w') (hsub : ranges ⊆ ranges') : Keeps ranges' w w' where
  __ := h
  events := by
    obtain ⟨events, hhistory, hall⟩ := h.events
    exact ⟨events, hhistory, fun event hmem => (hall event hmem).mono hsub⟩
  frame i hi := h.frame i fun r hr => hi r (hsub hr)

theorem Keeps.memory_eq (h : Keeps [] w w') : w'.memory = w.memory :=
  List.ext_getElem? fun i => h.frame i fun r hr => by simp at hr

theorem keeps_of_memory {events : List (Event η)} (hhistory : w'.history = w.history ++ events)
    (hall : ∀ event ∈ events, event.Inside ranges w.memory.length)
    (hmemory : w'.memory = w.memory) (htidy : Tidy w → Tidy w') : Keeps ranges w w' :=
  ⟨⟨events, hhistory, hall⟩, by rw [hmemory], fun _ _ => by rw [hmemory], htidy⟩

/-! ### Contracts -/

/-- How a syscall may end whose ranges fit: under a condition nothing but an error of the
system is thrown. -/
def Fine (cond : Prop) : Stop → Prop
  | .answer errno => errno ≠ .EOVERFLOW
  | .thrown e => cond → FsFault e

abbrev Stays {α : Type} (cond : Prop) (ranges : List (ℕ × ℕ)) (x : Syscall η α) (w : World η)
    (Q : α → World η → Prop) : Prop :=
  Meets (Keeps ranges) (Fine cond) x w Q

def Room (ranges : List (ℕ × ℕ)) (w : World η) (offset size : ℕ) : Prop :=
  w.fits offset size = true ∧ ∃ r ∈ ranges, r.1 ≤ offset ∧ offset + size ≤ r.1 + r.2

variable {offset size : ℕ}

theorem room_of_mem (hmem : (offset, size) ∈ ranges) (hfits : w.fits offset size = true) :
    Room ranges w offset size :=
  ⟨hfits, _, hmem, Nat.le_refl _, Nat.le_refl _⟩

theorem Room.keeps (h : Room ranges w offset size)
    (hkeeps : Keeps ranges' w w') : Room ranges w' offset size := by
  rwa [Room, hkeeps.fits]

theorem Room.sub (h : Room ranges w offset size) {offset' size' : ℕ} (hle : offset ≤ offset')
    (hstop : offset' + size' ≤ offset + size) : Room ranges w offset' size' := by
  obtain ⟨hfits, r, hr, hlow, hhigh⟩ := h
  refine ⟨?_, r, hr, by omega, by omega⟩
  simp only [World.fits, decide_eq_true_eq] at hfits ⊢
  omega

theorem Room.inside (h : Room ranges w offset size) :
    offset + size ≤ w.memory.length ∧ ∃ r ∈ ranges, r.1 ≤ offset ∧ offset + size ≤ r.1 + r.2 :=
  ⟨by simpa [World.fits] using h.1, h.2⟩

variable {cond : Prop} {α : Type}

theorem Stays.weaken {x : Syscall η α} {Q : α → World η → Prop} (h : Stays cond ranges x w Q) :
    Stays cond ranges x w fun _ _ => True :=
  h.mono (fun _ hkeeps => hkeeps) (fun _ h => h) fun _ _ _ _ => trivial

theorem stays_answer {errno : Errno} {Q : α → World η → Prop} (h : errno ≠ .EOVERFLOW) :
    Stays cond ranges (answer errno) w Q := .throw h

/-! ### The host -/

variable {host : Host η} (hhost : Documented host)

include hhost

theorem stays_ask (call : HostCall) (hcall : cond → call.InRange) :
    Stays cond ranges (ask host call) w fun a w' => call.Named ∧ call.Plausible a ∧
      w'.table = w.table ∧ w'.memory = w.memory := by
  have hkeeps : Keeps ranges w { w with
      host := (host.answer w.host call).2, history := w.history ++ [.call w.host call] } :=
    keeps_of_memory rfl (by simp [Event.Inside]) rfl id
  cases hresult : (host.answer w.host call).1 with
  | ok a =>
    obtain ⟨hrange, hplausible⟩ := hhost.ok _ _ _ hresult
    refine .of_run_ok (a := a) ?_ hkeeps ⟨hrange, hplausible, rfl, rfl⟩
    rw [run, ask, hresult]
  | error e =>
    refine .of_run_error (e := .thrown e) ?_ hkeeps fun hcond =>
      hhost.error _ _ _ (hcall hcond) hresult
    rw [run, ask, hresult]

theorem stays_attempt_ask (call : HostCall) :
    Stays cond ranges (attempt (ask host call)) w fun a _ => ∀ b, a = some b →
      call.Plausible b := by
  have h : Stays False ranges (ask host call) w fun a _ => call.Plausible a :=
    (stays_ask hhost call False.elim).mono (fun _ h => h) (fun _ h => h) fun _ _ _ h => h.2.1
  exact meets_attempt h fun _ h => h

omit hhost

/-! ### The memory -/

variable {E : Stop → Prop}

theorem stays_load (h : Room ranges w offset size) :
    Meets (Keeps ranges) E (load offset size : Syscall η (List UInt8)) w fun a w' =>
      a = (w.memory.drop offset).take size ∧ Still w w' := by
  refine .of_run_ok (t := { w with history := w.history ++ [.load offset size] }) ?_ ?_
    ⟨rfl, rfl, rfl, rfl⟩
  · rw [run, load, if_pos h.1]
  · exact keeps_of_memory rfl (by simpa [Event.Inside] using h.inside) rfl id

theorem stays_loadNumber (h : Room ranges w offset size) :
    Meets (Keeps ranges) E (loadNumber size offset : Syscall η ℕ) w fun a w' =>
      a = ByteNumber.ofLittle ((w.memory.drop offset).take size) ∧ Still w w' := by
  refine (stays_load h).map ?_
  rintro _ w' - ⟨rfl, hstill⟩
  exact ⟨rfl, hstill⟩

theorem stays_bytesAt (h : Room ranges w offset size) :
    Meets (Keeps ranges) E (bytesAt offset size : Syscall η (List UInt8)) w fun a w' =>
      a = (w.memory.drop offset).take size ∧ a.length = size ∧ Still w w' := by
  have hinside := h.inside
  have hlength : ((w.memory.drop offset).take size).length = size := by
    rw [List.length_take, List.length_drop]
    omega
  refine .of_run_ok rfl (keeps_of_memory rfl ?_ rfl id) ⟨rfl, hlength, rfl, rfl, rfl⟩
  simpa [Event.Inside, hlength] using hinside

theorem stays_text (h : Room ranges w offset size) :
    Meets (Keeps ranges) E (text offset size : Syscall η Str) w fun a w' =>
      a = decodeText ((w.memory.drop offset).take size) ∧ Still w w' := by
  refine (stays_bytesAt h).map ?_
  rintro _ w' - ⟨rfl, -, hstill⟩
  exact ⟨rfl, hstill⟩

theorem getElem?_overwrite_of_apart {bytes source : List UInt8} {position i : ℕ}
    (hlength : position + source.length ≤ bytes.length)
    (hi : i < position ∨ position + source.length ≤ i) :
    (ByteHeap.overwrite bytes position source)[i]? = bytes[i]? := by
  rw [ByteHeap.overwrite]
  rcases hi with hi | hi
  · rw [List.append_assoc, List.getElem?_append_left (by simp; omega),
      List.getElem?_take_of_lt hi]
  · rw [List.getElem?_append_right (by simp; omega), List.getElem?_drop]
    congr 1
    simp only [List.length_append, List.length_take]
    omega

theorem stays_store {bytes : List UInt8} (h : Room ranges w offset bytes.length) :
    Meets (Keeps ranges) E (store offset bytes : Syscall η Unit) w fun _ _ => True := by
  obtain ⟨hlength, r, hr, hlow, hhigh⟩ := h.inside
  refine .of_run_ok (a := ()) (t := { w with
      memory := ByteHeap.overwrite w.memory offset bytes,
      history := w.history ++ [.store offset bytes.length] }) ?_ ?_ trivial
  · rw [run, store, if_pos h.1]
  · refine ⟨⟨_, rfl, by simpa [Event.Inside] using h.inside⟩, ByteHeap.length_overwrite hlength,
      fun i hi => ?_, id⟩
    refine getElem?_overwrite_of_apart hlength ?_
    have := hi r hr
    omega

theorem stays_storeNumber {value : ℤ} (h : Room ranges w offset size) :
    Meets (Keeps ranges) E (storeNumber size offset value : Syscall η Unit) w fun _ _ => True :=
  stays_store (by rwa [ByteNumber.length_toLittle])

/-! ### The table -/

theorem stays_modify {f : World η → World η} {Q : Unit → World η → Prop}
    (hhistory : (f w).history = w.history) (hmemory : (f w).memory = w.memory)
    (htidy : Tidy w → Tidy (f w)) (hq : Q () (f w)) :
    Meets (Keeps ranges) E (modify f : Syscall η Unit) w Q := by
  have hnone : (f w).history = w.history ++ [] := by rw [hhistory, List.append_nil]
  exact .of_run_ok (a := ()) rfl (keeps_of_memory hnone (by simp) hmemory htidy) hq

variable {d : Descriptor}

theorem Tidy.set (hw : Tidy w) {fd : ℕ} (hd : d.Sane) :
    ∀ fd' d', OrderedMap.find fd' (OrderedMap.set fd d w.table) = some d' → d'.Sane := by
  intro fd' d' hfind
  rw [OrderedMap.find_set] at hfind
  split at hfind
  · cases hfind
    exact hd
  · exact hw fd' d' hfind

theorem stays_update {fd : ℕ} (hd : d.Sane) :
    Meets (Keeps ranges) E (update fd d : Syscall η Unit) w fun _ _ => True :=
  stays_modify rfl rfl (fun hw => hw.set hd) trivial

theorem stays_insert (hd : d.Sane) :
    Meets (Keeps ranges) E (insert d : Syscall η ℕ) w fun _ _ => True := by
  refine meets_get_bind ((stays_modify rfl rfl (fun hw => ?_) trivial).bind
    (P := fun _ _ => True) fun _ _ _ _ => .pure trivial)
  exact hw.set ⟨hd.path, hd.hostPath, hd.position⟩

theorem stays_erase (fd : ℕ) :
    Meets (Keeps ranges) E
      (modify fun w => { w with table := OrderedMap.erase fd w.table } : Syscall η Unit) w
      fun _ _ => True := by
  refine stays_modify rfl rfl (fun hw fd' d hfind => ?_) trivial
  simp only [OrderedMap.find_erase] at hfind
  split at hfind
  · cases hfind
  · exact hw fd' d hfind

theorem stays_move {source target : ℕ} {moved : Descriptor} (hmoved : moved.Sane) :
    Meets (Keeps ranges) E
      (modify fun w => { w with
        table := OrderedMap.erase source (OrderedMap.set target moved w.table) } : Syscall η Unit)
      w fun _ _ => True := by
  refine stays_modify rfl rfl (fun hw fd d hfind => ?_) trivial
  simp only [OrderedMap.find_erase] at hfind
  split at hfind
  · cases hfind
  · exact hw.set hmoved fd d hfind

end Wasi

end Tabnode
