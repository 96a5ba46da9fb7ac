import Tabnode.VirtualFS.Directories

/-!
# Calls, and what they come to

A `Call` is a mutating method with its arguments. Every one of them first
resolves its paths and checks, reading the tree and throwing where it refuses,
and then acts. `plan` is the first part and `act` the second; `perform_run` says
that a call is its plan followed by its action. A refusal leaves the state as it
was, so what remains to be said of any call is said of its action.
-/

namespace Tabnode

namespace VirtualFS

open Effect

/-- The mutating methods of the filesystem, with their arguments. `unmount` is
the answer of `mount`, called. -/
inductive Call where
  | writeFile (path : Str) (data : List UInt8)
  | appendFile (path : Str) (bytes : List UInt8)
  | writeAt (path : Str) (data : List UInt8) (position : ℤ)
  | copyFile (src dest : Str)
  | mkdir (path : Str) (recursive : Bool)
  | symlink (target path : Str)
  | unlink (path : Str)
  | rmdir (path : Str)
  | rename (oldPath newPath : Str)
  | chmod (path : Str) (mode : ℤ)
  | utimes (path : Str) (atime mtime : TimeArg)
  | mount (path : Str) (tree : MountedTree)
  | unmount (parent : Place) (name : Name)

def perform (env : Env) : Call → Fs Unit
  | .writeFile path data => writeFileSync env path data
  | .appendFile path bytes => appendFileSync env path bytes
  | .writeAt path data position => writeAtSync env path data position
  | .copyFile src dest => copyFileSync env src dest
  | .mkdir path recursive => mkdirSync env path recursive
  | .symlink target path => symlinkSync env target path
  | .unlink path => unlinkSync env path
  | .rmdir path => rmdirSync env path
  | .rename oldPath newPath => renameSync env oldPath newPath
  | .chmod path mode => chmodSync env path mode
  | .utimes path atime mtime => utimesSync env path atime mtime
  | .mount path tree => VirtualFS.mount env path tree
  | .unmount parent name => VirtualFS.unmount parent name

/-- A state that calls lead to from a new filesystem, whatever they found around
them. -/
inductive Reachable : State → Prop where
  | new (now : JsNumber) : Reachable (State.new now)
  | step {s : State} (h : Reachable s) (env : Env) (c : Call) :
      Reachable ((perform env c).run s).2

/-! ## The plan of a call -/

/-- The last thing a call does, in the directory it ends in. The paths are the
normalized ones, for the events. -/
inductive Edit where
  | nothing
  | write (path : Str) (name : Name) (data : List UInt8)
  | setContent (path : Str) (f : Found) (data : List UInt8)
  | add (path : Str) (parent : Found) (name : Name) (node : FSNode)
  | drop (path : Str) (parent : Found) (name : Name)
  | move (oldPath newPath : Str) (source : Found) (oldName : Name) (node : FSNode)
      (newName : Name)
  | setMode (path : Str) (f : Found) (mode : ℕ)
  | setTimes (path : Str) (f : Found) (atime : JsNumber) (mtime : Except FsError JsNumber)
  | mount (name : Name) (tree : MountedTree)
  | unmount (parent : Place) (name : Name)

/-- What is left to do once a call has resolved its paths and made its checks:
make the directories missing below a directory, then an edit. -/
structure Act where
  base : Place
  missing : List Name
  edit : Edit

def Act.of (edit : Edit) : Act := { base := [], missing := [], edit := edit }

def planWrite (root : FSNode) (stack : ℕ) (path : Str) (data : List UInt8) :
    Except FsError Act := do
  let normalized := normalizePath path
  assertWritable root normalized "open"
  if getBasename normalized = [] then
    .error (.plain "EISDIR: illegal operation on a directory" path)
  else do
    let d ← destination root stack (getParentPath normalized)
    .ok ⟨d.1, d.2, .write normalized (getBasename normalized) data⟩

def foundContent (path : Str) : Option Found → Except FsError (List UInt8)
  | none => .error (.node .ENOENT "open" path)
  | some f =>
      match f.kind with
      | .file content => .ok content
      | _ => .error (.node .EISDIR "read" path)

def planRead (root : FSNode) (path : Str) : Except FsError (List UInt8) :=
  getNode root path >>= foundContent path

def planSetContent (root : FSNode) (path : Str) (f : Found)
    (written : List UInt8 → Except FsError Act) : Except FsError Act :=
  match f.kind with
  | .file content => do
      assertWritable root (normalizePath path) "open"
      written content
  | _ => .error (.node .EISDIR "open" path)

/-- The checks of `appendFileSync`. -/
def planAppend (root : FSNode) (stack : ℕ) (path : Str) (bytes : List UInt8) :
    Except FsError Act := do
  match ← getNode root (normalizePath path) with
  | none => planWrite root stack (normalizePath path) bytes
  | some f =>
      planSetContent root path f fun content =>
        .ok (.of (.setContent (normalizePath path) f (content ++ bytes)))

/-- The checks of `writeAtSync`. -/
def planWriteAt (root : FSNode) (stack : ℕ) (path : Str) (data : List UInt8)
    (position : ℤ) : Except FsError Act := do
  match ← getNode root (normalizePath path) with
  | none =>
      if position < 0 then .error .rangeError
      else planWrite root stack (normalizePath path) (writtenAt [] data position.toNat)
  | some f =>
      planSetContent root path f fun content =>
        if data = [] then .ok (.of .nothing)
        else if position < 0 then .error .rangeError
        else
          .ok (.of (.setContent (normalizePath path) f
            (writtenAt content data position.toNat)))

/-- The checks of `mkdir -p`. -/
def planMkdirRecursive (root : FSNode) (stack : ℕ) (path : Str) : Except FsError Act := do
  let node ← getNode root (normalizePath path)
  if decide (node.map Found.kind = some Kind.directory) then .ok (.of .nothing)
  else do
    assertWritable root (normalizePath path) "mkdir"
    let d ← destination root stack (normalizePath path)
    .ok ⟨d.1, d.2, .nothing⟩

def planAdd (root : FSNode) (path : Str) (node : FSNode)
    (missing notDirectory exists_ : FsError) : Except FsError Act := do
  let parent ← parentDirectory root (getParentPath path) missing notDirectory
  if (parent.child? (getBasename path)).isSome then .error exists_
  else .ok (.of (.add path parent (getBasename path) node))

/-- The checks of `mkdirSync` without `recursive`. -/
def planMkdir (root : FSNode) (now : JsNumber) (path : Str) : Except FsError Act := do
  let normalized := normalizePath path
  assertWritable root normalized "mkdir"
  if getBasename normalized = [] then .ok (.of .nothing)
  else
    planAdd root normalized (newDirectory now)
      (.node .ENOENT "mkdir" (getParentPath normalized))
      (.node .ENOTDIR "mkdir" (getParentPath normalized)) (.node .EEXIST "mkdir" path)

/-- The checks of `symlinkSync`. -/
def planSymlink (root : FSNode) (now : JsNumber) (target path : Str) :
    Except FsError Act := do
  assertWritable root (normalizePath path) "symlink"
  planAdd root (normalizePath path) (newSymlink target now) (.node .ENOENT "symlink" path)
    (.node .ENOENT "symlink" path) (.node .EEXIST "symlink" path)

/-- The checks of the removal of an entry; `refused` says which nodes stay. -/
def planDrop (root : FSNode) (path : Str) (missing : FsError)
    (refused : FSNode → Option FsError) : Except FsError Act := do
  let parent ← parentDirectory root (getParentPath path) missing missing
  match parent.child? (getBasename path) with
  | none => .error missing
  | some node =>
      match refused node with
      | some e => .error e
      | none => .ok (.of (.drop path parent (getBasename path)))

/-- What `unlinkSync` refuses to remove. -/
def unlinkRefused (path : Str) (node : FSNode) : Option FsError :=
  if node.label.kind = Kind.directory then some (.node .EISDIR "unlink" path) else none

/-- What `rmdirSync` refuses to remove. -/
def rmdirRefused (path : Str) (node : FSNode) : Option FsError :=
  if node.label.kind ≠ Kind.directory then some (.node .ENOTDIR "rmdir" path)
  else if node.children ≠ [] then some (.node .ENOTEMPTY "rmdir" path)
  else none

/-- The checks of `unlinkSync`. -/
def planUnlink (root : FSNode) (path : Str) : Except FsError Act := do
  assertWritable root (normalizePath path) "unlink"
  planDrop root (normalizePath path) (.node .ENOENT "unlink" path) (unlinkRefused path)

/-- The checks of `rmdirSync`. -/
def planRmdir (root : FSNode) (path : Str) : Except FsError Act := do
  assertWritable root (normalizePath path) "rmdir"
  if getBasename (normalizePath path) = [] then
    .error (.plain "EPERM: operation not permitted" path)
  else planDrop root (normalizePath path) (.node .ENOENT "rmdir" path) (rmdirRefused path)

/-- The checks of `renameSync`. -/
def planRename (root : FSNode) (stack : ℕ) (oldPath newPath : Str) : Except FsError Act := do
  let normalizedOld := normalizePath oldPath
  let normalizedNew := normalizePath newPath
  assertWritable root normalizedOld "rename"
  assertWritable root normalizedNew "rename"
  let source ← parentDirectory root (getParentPath normalizedOld)
    (.node .ENOENT "rename" oldPath) (.node .ENOENT "rename" oldPath)
  match source.child? (getBasename normalizedOld) with
  | none => .error (.node .ENOENT "rename" oldPath)
  | some node => do
      let d ← destination root stack (getParentPath normalizedNew)
      .ok ⟨d.1, d.2, .move normalizedOld normalizedNew source (getBasename normalizedOld) node
        (getBasename normalizedNew)⟩

/-- The checks of `chmodSync`. -/
def planChmod (root : FSNode) (path : Str) (mode : ℤ) : Except FsError Act := do
  assertWritable root path "chmod"
  match ← getNode root path with
  | none => .error (.node .ENOENT "chmod" path)
  | some f => .ok (.of (.setMode (normalizePath path) f (mode % 4096).toNat))

/-- The checks of `utimesSync`, up to the first time it assigns. -/
def planUtimes (root : FSNode) (now : JsNumber) (path : Str) (atime mtime : TimeArg) :
    Except FsError Act := do
  assertWritable root path "utime"
  match ← getNode root path with
  | none => .error (.node .ENOENT "utimes" path)
  | some f => do
      let atimeMs ← unixMs now "atime" atime
      .ok (.of (.setTimes (normalizePath path) f atimeMs (unixMs now "mtime" mtime)))

/-- A node `mount` finds at its place, and does not cover. -/
def mountRefused (node : Option FSNode) : Prop :=
  ∃ existing, node = some existing ∧
    (existing.label.kind ≠ Kind.directory ∨ existing.label.mount.isSome ∨
      existing.children ≠ [])

instance (node : Option FSNode) : Decidable (mountRefused node) :=
  match node with
  | none => .isFalse (by rintro ⟨_, h, _⟩; cases h)
  | some existing =>
      decidable_of_iff
        (existing.label.kind ≠ Kind.directory ∨ existing.label.mount.isSome ∨
          ¬ existing.children.isEmpty)
        (by simp [mountRefused])

/-- The checks of `mount`. -/
def planMount (root : FSNode) (stack : ℕ) (path : Str) (tree : MountedTree) :
    Except FsError Act := do
  let normalized := normalizePath path
  if getBasename normalized = [] then .error (.node .EINVAL "mount" path)
  else do
    let d ← destination root stack (getParentPath normalized)
    if mountRefused (root.get? (d.1 ++ d.2 ++ [getBasename normalized])) then
      .error (.node .EEXIST "mount" path)
    else .ok ⟨d.1, d.2, .mount (getBasename normalized) tree⟩

/-- The check of the answer of `mount`. -/
def planUnmount (root : FSNode) (parent : Place) (name : Name) : Act :=
  if (root.label? (parent ++ [name])).any fun e => e.mount.isSome then
    .of (.unmount parent name)
  else .of .nothing

def plan (env : Env) (root : FSNode) : Call → Except FsError Act
  | .writeFile path data => planWrite root env.stack path data
  | .appendFile path bytes => planAppend root env.stack path bytes
  | .writeAt path data position => planWriteAt root env.stack path data position
  | .copyFile src dest => do
      let content ← planRead root src
      planWrite root env.stack dest content
  | .mkdir path true => planMkdirRecursive root env.stack path
  | .mkdir path false => planMkdir root env.now path
  | .symlink target path => planSymlink root env.now target path
  | .unlink path => planUnlink root path
  | .rmdir path => planRmdir root path
  | .rename oldPath newPath => planRename root env.stack oldPath newPath
  | .chmod path mode => planChmod root path mode
  | .utimes path atime mtime => planUtimes root env.now path atime mtime
  | .mount path tree => planMount root env.stack path tree
  | .unmount parent name => .ok (planUnmount root parent name)

/-! ## The action of a call -/

/-- The tree with a file written at a name of a directory: a file that is there
keeps its node. -/
def withFile (now : JsNumber) (root : FSNode) (parent : Place) (name : Name)
    (data : List UInt8) : FSNode :=
  if (root.label? (parent ++ [name])).any Entry.isFile then
    assign (parent ++ [name]) (fun a => { a with kind := .file data, mtime := now }) root
  else root.put parent name (newFile data now)

def finishWrite (env : Env) (path : Str) (name : Name) (data : List UInt8)
    (emitEvent : Bool) (parent : Place) : Fs Unit := do
  edit fun root => withFile env.now root parent name data
  if emitEvent then emit env (.change path data) else pure ()

def finishMove (env : Env) (oldPath newPath : Str) (source : Found) (oldName : Name)
    (node : FSNode) (newName : Name) (newParent : Place) : Fs Unit := do
  let s ← Effect.get
  let replaced := (source.remove oldName s.root).get? (newParent ++ [newName])
  edit fun root => (source.remove oldName root).put newParent newName node
  match source.childPlace oldName with
  | some oldPlace =>
      if oldPlace <+: newParent then Effect.throw .rangeError
      else renameSync.announce env oldPath newPath node replaced
  | none => renameSync.announce env oldPath newPath node replaced

def finish (env : Env) : Edit → Place → Fs Unit
  | .nothing, _ => pure ()
  | .write path name data, parent => finishWrite env path name data true parent
  | .setContent path f data, _ => do
      edit (f.assign fun a => { a with kind := .file data, mtime := env.now })
      emit env (.change path data)
  | .add path parent name node, _ => do
      edit (parent.put name node)
      emitChanged env path
  | .drop path parent name, _ => do
      edit (parent.remove name)
      emit env (.delete path)
  | .move oldPath newPath source oldName node newName, newParent =>
      finishMove env oldPath newPath source oldName node newName newParent
  | .setMode path f mode, _ => do
      edit (f.assign fun a => { a with mode := some mode })
      emitChanged env path
  | .setTimes path f atime mtime, _ => do
      edit (f.assign fun a => { a with atime := some atime })
      let mtimeMs ← lift mtime
      edit (f.assign fun a => { a with mtime := mtimeMs })
      emitChanged env path
  | .mount name tree, parent => edit fun root => root.put parent name (mountPoint tree env.now)
  | .unmount parent name, _ => edit fun root => root.remove parent name

def act (env : Env) (a : Act) : Fs Unit :=
  makeDirectories env a.base a.missing >>= finish env a.edit

/-! ## A call is its plan and its action -/

def carry (env : Env) (s : State) (p : Except FsError Act) : Except FsError Unit × State :=
  match p with
  | .ok a => (act env a).run s
  | .error e => (.error e, s)

@[simp] theorem carry_ok (env : Env) (s : State) (a : Act) :
    carry env s (.ok a) = (act env a).run s := rfl

@[simp] theorem carry_error (env : Env) (s : State) (e : FsError) :
    carry env s (.error e) = (.error e, s) := rfl

variable {env : Env} {s : State}

theorem run_lift_bind {α : Type} {x : Except FsError α} {f : α → Fs Unit}
    {g : α → Except FsError Act} (h : ∀ a, x = .ok a → (f a).run s = carry env s (g a)) :
    (lift x >>= f).run s = carry env s (x >>= g) := by
  cases x with
  | error e => rfl
  | ok a => exact h a rfl

theorem run_ensureDirectory_bind {path : Str} {f : Place → Fs Unit}
    {g : Place × List Name → Except FsError Act}
    (h : ∀ d, destination s.root env.stack path = .ok d →
      (makeDirectories env d.1 d.2 >>= f).run s = carry env s (g d)) :
    (ensureDirectory env env.stack path >>= f).run s =
      carry env s (destination s.root env.stack path >>= g) := by
  rw [run_bind, ensureDirectory_run]
  cases hd : destination s.root env.stack path with
  | error e => rfl
  | ok d => exact h d hd

variable {base : Place} {missing : List Name}

/-- What follows the directories that were made depends on where they end. -/
theorem run_makeDirectories_bind {f g : Place → Fs Unit}
    (h : ∀ s', s'.root = withDirectories env.now s.root base missing →
      (f (base ++ missing)).run s' = (g (base ++ missing)).run s') :
    (makeDirectories env base missing >>= f).run s =
      (makeDirectories env base missing >>= g).run s := by
  induction missing generalizing base s with
  | nil =>
      have h' := h s rfl
      rw [List.append_nil] at h'
      exact h'
  | cons name rest ih =>
      rw [makeDirectories]
      simp only [run_bind, run_edit]
      cases he : (emitChanged env (absolute (base ++ [name]))).run
          { s with root := s.root.put base name (newDirectory env.now) } with
      | mk r s' =>
          have hroot : s'.root = s.root.put base name (newDirectory env.now) := by
            have h := root_emitChanged env (absolute (base ++ [name]))
              { s with root := s.root.put base name (newDirectory env.now) }
            rw [he] at h
            exact h
          cases r with
          | error e => rfl
          | ok u =>
              simp only [← run_bind]
              refine ih fun s'' hs'' => ?_
              have hassoc : (base ++ [name]) ++ rest = base ++ name :: rest := by simp
              rw [hassoc]
              refine h s'' ?_
              rw [hs'', hroot, withDirectories]

/-- A write is its checks, the directories it makes, and the entry it sets. -/
theorem writeFileSyncInternal_run (env : Env) (path : Str) (data : List UInt8) (s : State) :
    (writeFileSyncInternal env path data true).run s =
      carry env s (planWrite s.root env.stack path data) := by
  rw [writeFileSyncInternal, planWrite, run_get_bind]
  refine run_lift_bind fun _ _ => ?_
  by_cases hb : getBasename (normalizePath path) = []
  · rw [if_pos hb, if_pos hb]
    rfl
  · rw [if_neg hb, if_neg hb]
    refine run_ensureDirectory_bind fun d hd => ?_
    refine run_makeDirectories_bind fun s' hs' => ?_
    rw [run_get_bind, finish, finishWrite, run_bind, run_edit, withFile]
    -- whether the name held a file already
    generalize (s'.root.label? (d.1 ++ d.2 ++ [getBasename (normalizePath path)])).any
      Entry.isFile = present
    cases present <;> rfl

theorem readFileSync_run (path : Str) (s : State) :
    (readFileSync path).run s = (lift (planRead s.root path)).run s := by
  rw [readFileSync, planRead, run_get_bind]
  cases getNode s.root path with
  | error e => rfl
  | ok node =>
      rw [run_lift_ok_bind]
      show _ = (foundContent path node, s)
      cases node with
      | none => rfl
      | some f =>
          simp only [foundContent]
          cases f.kind <;> rfl

theorem appendFileSync_run (env : Env) (path : Str) (bytes : List UInt8) (s : State) :
    (appendFileSync env path bytes).run s =
      carry env s (planAppend s.root env.stack path bytes) := by
  rw [appendFileSync, planAppend, run_get_bind]
  refine run_lift_bind fun node _ => ?_
  cases node with
  | none => exact writeFileSyncInternal_run env _ bytes s
  | some f =>
      simp only [planSetContent]
      cases f.kind with
      | file content => exact run_lift_bind fun _ _ => rfl
      | directory | symlink _ => rfl

theorem writeAtSync_run (env : Env) (path : Str) (data : List UInt8) (position : ℤ)
    (s : State) :
    (writeAtSync env path data position).run s =
      carry env s (planWriteAt s.root env.stack path data position) := by
  rw [writeAtSync, planWriteAt, run_get_bind]
  refine run_lift_bind fun node _ => ?_
  cases node with
  | none =>
      by_cases hp : position < 0
      · simp only [if_pos hp]
        rfl
      · simp only [if_neg hp]
        exact writeFileSyncInternal_run env _ _ s
  | some f =>
      simp only [planSetContent]
      cases f.kind with
      | file content =>
          refine run_lift_bind fun _ _ => ?_
          by_cases hd : data = []
          · simp only [if_pos hd]
            rfl
          · simp only [if_neg hd]
            by_cases hp : position < 0
            · simp only [if_pos hp]
              rfl
            · simp only [if_neg hp]
              rfl
      | directory | symlink _ => rfl

theorem copyFileSync_run (env : Env) (src dest : Str) (s : State) :
    (copyFileSync env src dest).run s =
      carry env s (plan env s.root (.copyFile src dest)) := by
  rw [copyFileSync, run_bind, readFileSync_run, ← run_bind, plan]
  exact run_lift_bind fun content _ => writeFileSyncInternal_run env dest content s

theorem mkdirSync_run (env : Env) (path : Str) (recursive : Bool) (s : State) :
    (mkdirSync env path recursive).run s =
      carry env s (plan env s.root (.mkdir path recursive)) := by
  rw [mkdirSync, run_get_bind]
  cases recursive with
  | true =>
      rw [plan, planMkdirRecursive]
      simp only [if_true]
      refine run_lift_bind fun node _ => ?_
      rw [run_pure_bind]
      generalize decide (node.map Found.kind = some Kind.directory) = present
      cases present with
      | true => rfl
      | false =>
          refine run_lift_bind fun _ _ => ?_
          exact run_ensureDirectory_bind fun d _ => rfl
  | false =>
      rw [plan, planMkdir]
      simp only [Bool.false_eq_true, if_false]
      rw [run_pure_bind]
      simp only [Bool.false_eq_true, if_false]
      refine run_lift_bind fun _ _ => ?_
      by_cases hb : getBasename (normalizePath path) = []
      · simp only [if_pos hb]
        rfl
      · simp only [if_neg hb, planAdd]
        refine run_lift_bind fun parent _ => ?_
        by_cases hc : (parent.child? (getBasename (normalizePath path))).isSome = true
        · simp only [if_pos hc]
          rfl
        · simp only [if_neg hc]
          rfl

theorem symlinkSync_run (env : Env) (target path : Str) (s : State) :
    (symlinkSync env target path).run s =
      carry env s (planSymlink s.root env.now target path) := by
  rw [symlinkSync, planSymlink, run_get_bind]
  refine run_lift_bind fun _ _ => ?_
  rw [planAdd]
  refine run_lift_bind fun parent _ => ?_
  by_cases hc : (parent.child? (getBasename (normalizePath path))).isSome = true
  · simp only [if_pos hc]
    rfl
  · simp only [if_neg hc]
    rfl

theorem unlinkSync_run (env : Env) (path : Str) (s : State) :
    (unlinkSync env path).run s = carry env s (planUnlink s.root path) := by
  rw [unlinkSync, planUnlink, run_get_bind]
  refine run_lift_bind fun _ _ => ?_
  rw [planDrop]
  refine run_lift_bind fun parent _ => ?_
  cases parent.child? (getBasename (normalizePath path)) with
  | none => rfl
  | some node =>
      simp only [unlinkRefused]
      by_cases hk : node.label.kind = Kind.directory
      · simp only [if_pos hk]
        rfl
      · simp only [if_neg hk]
        rfl

theorem rmdirSync_run (env : Env) (path : Str) (s : State) :
    (rmdirSync env path).run s = carry env s (planRmdir s.root path) := by
  rw [rmdirSync, planRmdir, run_get_bind]
  refine run_lift_bind fun _ _ => ?_
  by_cases hb : getBasename (normalizePath path) = []
  · simp only [if_pos hb]
    rfl
  · simp only [if_neg hb, planDrop]
    refine run_lift_bind fun parent _ => ?_
    cases parent.child? (getBasename (normalizePath path)) with
    | none => rfl
    | some node =>
        simp only [rmdirRefused]
        by_cases hk : node.label.kind ≠ Kind.directory
        · simp only [if_pos hk]
          rfl
        · simp only [if_neg hk]
          by_cases hc : node.children ≠ []
          · simp only [if_pos hc]
            rfl
          · simp only [if_neg hc]
            rfl

theorem renameSync_run (env : Env) (oldPath newPath : Str) (s : State) :
    (renameSync env oldPath newPath).run s =
      carry env s (planRename s.root env.stack oldPath newPath) := by
  rw [renameSync, planRename, run_get_bind]
  refine run_lift_bind fun _ _ => ?_
  refine run_lift_bind fun _ _ => ?_
  refine run_lift_bind fun source _ => ?_
  cases source.child? (getBasename (normalizePath oldPath)) with
  | none => rfl
  | some node =>
      refine run_ensureDirectory_bind fun d _ => ?_
      refine run_makeDirectories_bind fun s' _ => ?_
      rw [run_get_bind, finish, finishMove, run_get_bind]
      rfl

theorem chmodSync_run (env : Env) (path : Str) (mode : ℤ) (s : State) :
    (chmodSync env path mode).run s = carry env s (planChmod s.root path mode) := by
  rw [chmodSync, planChmod, run_get_bind]
  refine run_lift_bind fun _ _ => ?_
  refine run_lift_bind fun node _ => ?_
  cases node <;> rfl

theorem utimesSync_run (env : Env) (path : Str) (atime mtime : TimeArg) (s : State) :
    (utimesSync env path atime mtime).run s =
      carry env s (planUtimes s.root env.now path atime mtime) := by
  rw [utimesSync, planUtimes, run_get_bind]
  refine run_lift_bind fun _ _ => ?_
  refine run_lift_bind fun node _ => ?_
  cases node with
  | none => rfl
  | some f => exact run_lift_bind fun _ _ => rfl

/-- An entry that is there has its directories, so none is missing. -/
theorem IsDestination.missing_eq_nil {root node : FSNode} {rest : List Name}
    (h : IsDestination root base missing)
    (hget : root.get? (base ++ missing ++ rest) = some node) : missing = [] := by
  obtain ⟨d, hd, -, hmissing⟩ := h.directory
  cases missing with
  | nil => rfl
  | cons m missing =>
      have hpre : base ++ [m] <+: base ++ m :: missing ++ rest :=
        ⟨missing ++ rest, by simp⟩
      have hno : root.get? (base ++ [m]) = none := by
        rw [LabelTree.get?_append_singleton, hd]
        exact hmissing m rfl
      rw [LabelTree.get?_eq_none_of_isPrefix hpre hno] at hget
      cases hget

/-- Directories that were made hide nothing of what stands below them. -/
theorem get?_below_withDirectories (now : JsNumber) {root : FSNode}
    (h : IsDestination root base missing) (name : Name) :
    (withDirectories now root base missing).get? (base ++ missing ++ [name]) =
      root.get? (base ++ missing ++ [name]) := by
  cases hget : root.get? (base ++ missing ++ [name]) with
  | some node =>
      have hnil := h.missing_eq_nil hget
      subst hnil
      exact hget
  | none =>
      obtain ⟨d, hd, -, hmissing⟩ := h.directory
      rw [← LabelTree.label?_eq_none_iff, label?_withDirectories now hd hmissing, if_neg,
        LabelTree.label?_eq_none_iff.2 hget]
      rintro ⟨-, hle, -⟩
      have := hle.length_le
      simp at this

theorem mount_run (env : Env) (path : Str) (tree : MountedTree) (s : State)
    (hroot : s.root.label.kind = Kind.directory) :
    (VirtualFS.mount env path tree).run s =
      carry env s (planMount s.root env.stack path tree) := by
  rw [VirtualFS.mount, planMount]
  by_cases hb : getBasename (normalizePath path) = []
  · simp only [if_pos hb]
    rfl
  · simp only [if_neg hb]
    refine run_ensureDirectory_bind fun d hd => ?_
    have hdest := destination_spec hroot hd
    by_cases hr : mountRefused
        (s.root.get? (d.1 ++ d.2 ++ [getBasename (normalizePath path)]))
    · rw [if_pos hr]
      obtain ⟨existing, hget, hex⟩ := hr
      -- an entry that is there has its directories, so none is made
      have hnil : d.2 = [] := hdest.missing_eq_nil hget
      rw [hnil, List.append_nil] at hget
      rw [hnil, makeDirectories, run_pure_bind, run_get_bind, hget]
      simp only [if_pos hex]
      rfl
    · rw [if_neg hr]
      refine run_makeDirectories_bind fun s' hs' => ?_
      rw [run_get_bind, hs', get?_below_withDirectories env.now hdest]
      cases hget : s.root.get? (d.1 ++ d.2 ++ [getBasename (normalizePath path)]) with
      | none => rfl
      | some existing =>
          have hex := fun h => hr ⟨existing, hget, h⟩
          simp only [if_neg hex]
          rfl

theorem unmount_run (env : Env) (parent : Place) (name : Name) (s : State) :
    (VirtualFS.unmount parent name).run s =
      carry env s (.ok (planUnmount s.root parent name)) := by
  rw [VirtualFS.unmount, planUnmount, run_get_bind]
  by_cases hm : (s.root.label? (parent ++ [name])).any (fun e => e.mount.isSome) = true
  · simp only [if_pos hm]
    rfl
  · simp only [if_neg hm]
    rfl

/-- A call is its plan, and a refusal leaves the state as it was. -/
theorem perform_run (env : Env) (c : Call) (s : State)
    (hroot : s.root.label.kind = Kind.directory) :
    (perform env c).run s = carry env s (plan env s.root c) := by
  cases c with
  | writeFile path data => exact writeFileSyncInternal_run env path data s
  | appendFile path bytes => exact appendFileSync_run env path bytes s
  | writeAt path data position => exact writeAtSync_run env path data position s
  | copyFile src dest => exact copyFileSync_run env src dest s
  | mkdir path recursive => exact mkdirSync_run env path recursive s
  | symlink target path => exact symlinkSync_run env target path s
  | unlink path => exact unlinkSync_run env path s
  | rmdir path => exact rmdirSync_run env path s
  | rename oldPath newPath => exact renameSync_run env oldPath newPath s
  | chmod path mode => exact chmodSync_run env path mode s
  | utimes path atime mtime => exact utimesSync_run env path atime mtime s
  | mount path tree => exact mount_run env path tree s hroot
  | unmount parent name => exact unmount_run env parent name s

end VirtualFS

end Tabnode
