import Tabnode.Wasi.Primitives

/-!
# Syscalls that change nothing

A computation is mild for a condition when it asks the host to change a file or a directory
only where the condition holds. Most parts of the syscalls are mild for any (`Quiet`), and so
are the syscalls that open, list, read, stat or wait.
-/

namespace Tabnode

namespace Wasi

open Effect

def HostCall.mutates : HostCall → Bool
  | openSync _ flags _ => hasFlag flags O_CREAT || hasFlag flags O_TRUNC
  | writeSync _ _ _ | mkdirSync _ | rmdirSync _ | unlinkSync _ | renameSync _ _
  | ftruncateSync _ _ | utimesSync _ _ _ | symlinkSync _ _ => true
  | _ => false

variable {η : Type}

def Event.Changes (condition : Prop) : Event η → Prop
  | .call _ c => c.mutates = true → condition
  | _ => True

/-- A computation that changes files and directories only where a condition holds, and opens
descriptors only under one. -/
abbrev Mild (condition : Prop) (parent : Option Descriptor) {α : Type} (x : Syscall η α)
    (w : World η) : Prop :=
  Meets (Does (Event.Changes condition) parent) (fun _ => True) x w fun _ _ => True

def Quiet {α : Type} (x : Syscall η α) : Prop :=
  ∀ condition parent w, Mild condition parent x w

variable {α β : Type} {condition : Prop} {parent : Option Descriptor} {w : World η}

theorem Mild.bind {x : Syscall η α} {f : α → Syscall η β} (hx : Mild condition parent x w)
    (hf : ∀ a w', Mild condition parent (f a) w') : Mild condition parent (x >>= f) w :=
  Meets.bind hx fun a w' _ _ => hf a w'

namespace Quiet

theorem andThen {x : Syscall η α} {f : α → Syscall η β} (hx : Quiet x)
    (hf : ∀ a w', Mild condition parent (f a) w') : Mild condition parent (x >>= f) w :=
  (hx condition parent w).bind hf

theorem bind {x : Syscall η α} {f : α → Syscall η β} (hx : Quiet x) (hf : ∀ a, Quiet (f a)) :
    Quiet (x >>= f) :=
  fun condition parent w => (hx condition parent w).bind fun a => hf a condition parent

theorem map {x : Syscall η α} (f : α → β) (hx : Quiet x) : Quiet (f <$> x) :=
  fun condition parent w => (hx condition parent w).map fun _ _ _ _ => trivial

theorem ite {p : Prop} [Decidable p] {x y : Syscall η α} (hx : Quiet x) (hy : Quiet y) :
    Quiet (if p then x else y) := by
  split
  · exact hx
  · exact hy

theorem catching {x : Syscall η α} {handler : HostError → Syscall η α} (hx : Quiet x)
    (hhandler : ∀ e, Quiet (handler e)) : Quiet (catching x handler) := fun condition parent w =>
  meets_catching (hx condition parent w) (fun _ _ => trivial) fun e w' _ _ =>
    hhandler e condition parent w'

theorem attempt {x : Syscall η α} (hx : Quiet x) : Quiet (attempt x) :=
  (hx.map some).catching fun _ _ _ _ => .pure trivial

end Quiet

/-! ## Parts -/

theorem quiet_pure (a : α) : Quiet (pure a : Syscall η α) := fun _ _ _ => .pure trivial

theorem quiet_answer (errno : Errno) : Quiet (answer errno : Syscall η α) :=
  fun _ _ _ => .throw trivial

theorem quiet_throw (stop : Stop) : Quiet (throw stop : Syscall η α) :=
  fun _ _ _ => .throw trivial

theorem quiet_get : Quiet (get : Syscall η (World η)) := fun _ _ w =>
  .of_run_ok rfl (Std.Refl.refl w) trivial

theorem quiet_require (p : Bool) (errno : Errno) : Quiet (require p errno : Syscall η Unit) :=
  Quiet.ite (quiet_pure ()) (quiet_answer errno)

theorem quiet_checkFits (offset size : ℕ) : Quiet (checkFits offset size : Syscall η Unit) :=
  quiet_get.bind fun _ => quiet_require _ _

theorem quiet_ask (host : Host η) (call : HostCall) (h : call.mutates = false) :
    Quiet (ask host call) := fun _ _ _ =>
  (meets_ask host _ (fun hm => absurd hm (by simp [h])) fun _ _ => trivial).mono (fun _ h => h)
    (fun _ h => h) fun _ _ _ _ => trivial

theorem quiet_load (offset size : ℕ) : Quiet (load offset size : Syscall η (List UInt8)) :=
  fun _ _ _ => (meets_load (fun _ => trivial) fun _ => trivial).mono (fun _ h => h)
    (fun _ h => h) fun _ _ _ _ => trivial

theorem quiet_store (offset : ℕ) (bytes : List UInt8) :
    Quiet (store offset bytes : Syscall η Unit) :=
  fun _ _ _ => (meets_store (fun _ => trivial) fun _ => trivial).mono (fun _ h => h)
    (fun _ h => h) fun _ _ _ _ => trivial

theorem quiet_bytesAt (offset length : ℕ) :
    Quiet (bytesAt offset length : Syscall η (List UInt8)) :=
  fun _ _ _ => (meets_bytesAt trivial).mono (fun _ h => h) (fun _ h => h) fun _ _ _ _ => trivial

theorem quiet_text (offset length : ℕ) : Quiet (text offset length : Syscall η Str) :=
  (quiet_bytesAt offset length).map _

theorem quiet_loadNumber (size offset : ℕ) : Quiet (loadNumber size offset : Syscall η ℕ) :=
  (quiet_load offset size).map _

theorem quiet_storeNumber (size offset : ℕ) (value : ℤ) :
    Quiet (storeNumber size offset value : Syscall η Unit) := quiet_store _ _

theorem quiet_modify {f : World η → World η} (hhistory : ∀ w, (f w).history = w.history)
    (hmemory : ∀ w, (f w).memory = w.memory) (htable : ∀ w, (f w).table = w.table)
    (hnext : ∀ w, (f w).nextId = w.nextId) (hhost : ∀ w, (f w).host = w.host) :
    Quiet (modify f : Syscall η Unit) := fun _ _ w =>
  (meets_modify (hhistory w) (hmemory w) (htable w) (hnext w) (hhost w)).mono (fun _ h => h)
    (fun _ h => h) fun _ _ _ _ => trivial

theorem quiet_lookup (fd : ℕ) (base inheriting : Rights) :
    Quiet (lookup fd base inheriting : Syscall η Descriptor) := by
  refine quiet_get.bind fun w => ?_
  cases w.lookup fd base inheriting with
  | error errno => exact quiet_answer _
  | ok d => exact quiet_pure _

theorem quiet_iovecsFrom (n iovsPtr : ℕ) :
    Quiet (iovecsFrom n iovsPtr : Syscall η (List (ℕ × ℕ))) := by
  induction n generalizing iovsPtr with
  | zero => exact quiet_pure _
  | succ n ih =>
    exact (quiet_loadNumber _ _).bind fun _ => (quiet_loadNumber _ _).bind fun _ =>
      (quiet_checkFits _ _).bind fun _ => (ih _).bind fun _ => quiet_pure _

theorem quiet_iovecsOf (iovsPtr iovsLen : ℕ) :
    Quiet (iovecsOf iovsPtr iovsLen : Syscall η (List (ℕ × ℕ))) :=
  (quiet_checkFits _ _).bind fun _ => quiet_iovecsFrom _ _

theorem quiet_writeFilestat (offset : ℕ) (stat : Filestat) :
    Quiet (writeFilestat offset stat : Syscall η Unit) :=
  (quiet_storeNumber _ _ _).bind fun _ => (quiet_storeNumber _ _ _).bind fun _ =>
    (quiet_storeNumber _ _ _).bind fun _ => (quiet_storeNumber _ _ _).bind fun _ =>
      (quiet_storeNumber _ _ _).bind fun _ => (quiet_storeNumber _ _ _).bind fun _ =>
        (quiet_storeNumber _ _ _).bind fun _ => quiet_storeNumber _ _ _

variable (host : Host η)

theorem quiet_filestatOfDescriptor (d : Descriptor) : Quiet (filestatOfDescriptor host d) := by
  unfold filestatOfDescriptor
  cases d.kind with
  | stream => exact quiet_pure _
  | file fd => exact (quiet_ask host (.fstatSync fd) rfl).map _
  | dir => exact (quiet_ask host (.statSync d.hostPath) rfl).map _

theorem quiet_sizeOf (d : Descriptor) : Quiet (sizeOf host d) := by
  unfold sizeOf
  cases d.kind with
  | stream => exact quiet_pure _
  | file fd => exact (quiet_ask host (.fstatSync fd) rfl).map _
  | dir => exact quiet_pure _

theorem quiet_pullStdin : Quiet (pullStdin host) := by
  refine (quiet_ask host _ rfl).bind fun chunk => ?_
  cases chunk with
  | none | some _ =>
    exact quiet_modify (fun _ => rfl) (fun _ => rfl) (fun _ => rfl) (fun _ => rfl) fun _ => rfl

theorem Quiet.onlyIf {p : Bool} {x : Syscall η Unit} (hx : Quiet x) : Quiet (onlyIf p x) :=
  Quiet.ite hx (quiet_pure ())

theorem quiet_readStdin (length : ℕ) : Quiet (readStdin host length) := by
  refine quiet_get.bind fun _ => (quiet_pullStdin host).onlyIf.bind fun _ =>
    quiet_get.bind fun _ => ?_
  refine Quiet.bind ?_ fun _ => quiet_pure _
  exact quiet_modify (fun _ => rfl) (fun _ => rfl) (fun _ => rfl) (fun _ => rfl) fun _ => rfl

theorem quiet_writeStream (stream : Stream) (bytes : List UInt8) :
    Quiet (writeStream host stream bytes) :=
  Quiet.ite (quiet_pure _) (quiet_ask host _ rfl)

theorem quiet_realtimeNanos : Quiet (realtimeNanos host) :=
  (quiet_ask host .realtime rfl).map _

theorem quiet_monotonicNanos : Quiet (monotonicNanos host) :=
  (quiet_ask host .monotonic rfl).map _

theorem quiet_sleepNanos (nanos : ℤ) : Quiet (sleepNanos host nanos) :=
  Quiet.ite (quiet_pure _) (quiet_ask host _ rfl)

theorem quiet_timesToSet (d : Option Descriptor) (hostPath : Str) (atim mtim : ℤ) (flags : ℕ) :
    Quiet (timesToSet host d hostPath atim mtim flags) := by
  refine (quiet_realtimeNanos host).bind fun _ => ?_
  refine Quiet.bind (Quiet.ite ?_ (quiet_pure _)) fun _ => quiet_pure _
  cases d with
  | none => exact (quiet_ask host (.lstatSync hostPath) rfl).map _
  | some d => exact quiet_filestatOfDescriptor host d

theorem quiet_closeHost (d : Descriptor) : Quiet (closeHost host d) := by
  unfold closeHost
  cases d.kind with
  | stream => exact quiet_pure _
  | file => exact quiet_ask host _ rfl
  | dir => exact quiet_pure _

/-! ## Resolution -/

theorem quiet_requireDirectory (mustBeDirectory : Bool) (path : Str) :
    Quiet (requireDirectory host mustBeDirectory path) := by
  refine Quiet.ite ((quiet_ask host _ rfl).attempt.bind fun stats => ?_) (quiet_pure _)
  cases stats with
  | none => exact quiet_pure _
  | some stats => exact quiet_require _ _

theorem quiet_linkTarget (path : Str) : Quiet (linkTarget host path) :=
  (quiet_ask host _ rfl).bind fun _ => Quiet.ite (quiet_pure _)
    ((quiet_ask host _ rfl).bind fun _ => quiet_pure _)

theorem quiet_resolveLoop (d : Descriptor) (mustBeDirectory : Bool) (lookupFlags left : ℕ)
    (input : Str) : Quiet (resolveLoop host d mustBeDirectory lookupFlags left input) := by
  induction left generalizing input with
  | zero => exact quiet_answer _
  | succ left ih =>
    refine (quiet_require _ _).bind fun _ => (quiet_requireDirectory host _ _).bind fun _ => ?_
    refine Quiet.ite ((quiet_linkTarget host _).attempt.bind fun target => ?_) (quiet_pure _)
    rcases target with _ | _ | target
    · exact quiet_pure _
    · exact quiet_pure _
    · exact (quiet_require _ _).bind fun _ => (quiet_require _ _).bind fun _ => ih _

theorem quiet_resolve (d : Descriptor) (path : Str) (lookupFlags : ℕ) :
    Quiet (resolve host d path lookupFlags) :=
  (quiet_require _ _).bind fun _ => (quiet_require _ _).bind fun _ =>
    (quiet_require _ _).bind fun _ => (quiet_require _ _).bind fun _ =>
      quiet_resolveLoop host _ _ _ _ _

end Wasi

end Tabnode
