import Tabnode.VirtualFS.Invariant

/-!
# Mounts are read-only

`assertWritable` walks the names of a path and follows no link. A call whose path
meets a mount on that walk changes nothing: it throws `EROFS`, or answers from
the read it makes before the check (`perform_of_meetsMount`).
-/

namespace Tabnode

namespace VirtualFS

open List

def Call.paths : Call → List Str
  | .writeFile path _ | .appendFile path _ | .writeAt path _ _ | .copyFile _ path
  | .mkdir path _ | .symlink _ path | .unlink path | .rmdir path | .chmod path _
  | .utimes path _ _ => [path]
  | .rename oldPath newPath => [oldPath, newPath]
  | .mount _ _ | .unmount _ _ => []

def Call.MeetsMount (root : FSNode) (c : Call) : Prop :=
  ∃ path ∈ c.paths, meetsMount root (getPathSegments path)

def refusedAsFile (path : Str) (f : Found) : Option (Except FsError Unit) :=
  if f.kind.content?.isSome then none else some (.error (.node .EISDIR "open" path))

/-- The answer of a call whose first read settles it, before any check for a
mount: `mkdir -p` of a directory that is there is done, a file's bytes are added
to or overwritten in a file only, and a copy has its source. -/
def Call.firstRead (root : FSNode) : Call → Option (Except FsError Unit)
  | .mkdir path true =>
      match getNode root path with
      | .error e => some (.error e)
      | .ok node => if node.map Found.kind = some .directory then some (.ok ()) else none
  | .appendFile path _ =>
      match getNode root path with
      | .error e => some (.error e)
      | .ok node => node.bind (refusedAsFile path)
  | .writeAt path _ position =>
      match getNode root path with
      | .error e => some (.error e)
      | .ok none => if position < 0 then some (.error .rangeError) else none
      | .ok (some f) => refusedAsFile path f
  | .copyFile src _ =>
      match planRead root src with
      | .error e => some (.error e)
      | .ok _ => none
  | _ => none

variable {root : FSNode} {path : Str}

theorem assertWritable_of_meetsMount (h : meetsMount root (getPathSegments path))
    (syscall : String) : assertWritable root path syscall = .error (.node .EROFS syscall path) := by
  rw [assertWritable, if_pos h]

theorem assertWritable_normalizePath (h : meetsMount root (getPathSegments path))
    (syscall : String) : assertWritable root (normalizePath path) syscall =
      .error (.node .EROFS syscall (normalizePath path)) :=
  assertWritable_of_meetsMount (by rwa [getPathSegments_normalizePath]) syscall

def RefusedForMount {α : Type} (p : Except FsError α) : Prop :=
  ∃ syscall path, p = .error (.node .EROFS syscall path)

theorem refused_bind {α β : Type} {p : Except FsError α} (h : RefusedForMount p)
    (f : α → Except FsError β) : RefusedForMount (p >>= f) := by
  obtain ⟨syscall, path, rfl⟩ := h
  exact ⟨syscall, path, rfl⟩

theorem refused_assertWritable (h : meetsMount root (getPathSegments path)) (syscall : String) :
    RefusedForMount (assertWritable root (normalizePath path) syscall) :=
  ⟨_, _, assertWritable_normalizePath h syscall⟩

theorem refused_planWrite (h : meetsMount root (getPathSegments path)) (stack : ℕ)
    (data : List UInt8) : RefusedForMount (planWrite root stack path data) :=
  refused_bind (refused_assertWritable h "open") _

theorem refused_planWrite_normalizePath (h : meetsMount root (getPathSegments path)) (stack : ℕ)
    (data : List UInt8) : RefusedForMount (planWrite root stack (normalizePath path) data) :=
  refused_planWrite (by rwa [getPathSegments_normalizePath]) stack data

def Settled (first : Option (Except FsError Unit)) (p : Except FsError Act) : Prop :=
  match first with
  | some answer => p = answer.map fun _ => .of .nothing
  | none => RefusedForMount p

theorem settled_planSetContent (f : Found) (h : meetsMount root (getPathSegments path))
    (written : List UInt8 → Except FsError Act) :
    Settled (refusedAsFile path f) (planSetContent root path f written) := by
  rw [refusedAsFile, planSetContent]
  cases f.kind with
  | file content => exact refused_bind (refused_assertWritable h "open") _
  | directory | symlink _ => rfl

theorem settled_plan {env : Env} {c : Call} (h : c.MeetsMount root) :
    Settled (c.firstRead root) (plan env root c) := by
  obtain ⟨path, hmem, h⟩ := h
  cases c with
  | writeFile p data =>
      cases mem_singleton.1 hmem
      exact refused_planWrite h env.stack data
  | appendFile p bytes =>
      cases mem_singleton.1 hmem
      rw [Call.firstRead, plan, planAppend, getNode_normalizePath]
      cases getNode root path with
      | error e => rfl
      | ok node =>
          rw [ok_bind]
          cases node with
          | none => exact refused_planWrite_normalizePath h env.stack bytes
          | some f => exact settled_planSetContent f h _
  | writeAt p data position =>
      cases mem_singleton.1 hmem
      rw [Call.firstRead, plan, planWriteAt, getNode_normalizePath]
      cases getNode root path with
      | error e => rfl
      | ok node =>
          rw [ok_bind]
          cases node with
          | none =>
              by_cases hp : position < 0
              · simp only [if_pos hp]
                rfl
              · simp only [if_neg hp]
                exact refused_planWrite_normalizePath h env.stack _
          | some f => exact settled_planSetContent f h _
  | copyFile src dest =>
      cases mem_singleton.1 hmem
      rw [Call.firstRead, plan]
      cases planRead root src with
      | error e => rfl
      | ok content =>
          rw [ok_bind]
          exact refused_planWrite h env.stack content
  | mkdir p recursive =>
      cases mem_singleton.1 hmem
      cases recursive with
      | true =>
          rw [Call.firstRead, plan, planMkdirRecursive, getNode_normalizePath]
          cases getNode root path with
          | error e => rfl
          | ok node =>
              rw [ok_bind]
              by_cases hk : node.map Found.kind = some Kind.directory
              · simp only [hk, if_true]
                rfl
              · simp only [hk, if_false, decide_false, Bool.false_eq_true]
                exact refused_bind (refused_assertWritable h "mkdir") _
      | false => exact refused_bind (refused_assertWritable h "mkdir") _
  | symlink target p =>
      cases mem_singleton.1 hmem
      exact refused_bind (refused_assertWritable h "symlink") _
  | unlink p =>
      cases mem_singleton.1 hmem
      exact refused_bind (refused_assertWritable h "unlink") _
  | rmdir p =>
      cases mem_singleton.1 hmem
      exact refused_bind (refused_assertWritable h "rmdir") _
  | rename oldPath newPath =>
      by_cases hold : meetsMount root (getPathSegments oldPath)
      · exact refused_bind (refused_assertWritable hold "rename") _
      · have hnew : meetsMount root (getPathSegments newPath) := by
          rcases mem_cons.1 hmem with rfl | hmem
          · exact absurd h hold
          · cases mem_singleton.1 hmem
            exact h
        have hok : assertWritable root (normalizePath oldPath) "rename" = .ok () := by
          rw [assertWritable, getPathSegments_normalizePath, if_neg hold]
        show RefusedForMount (planRename root env.stack oldPath newPath)
        rw [planRename, hok, ok_bind]
        exact refused_bind (refused_assertWritable hnew "rename") _
  | chmod p mode =>
      cases mem_singleton.1 hmem
      exact refused_bind ⟨_, _, assertWritable_of_meetsMount h "chmod"⟩ _
  | utimes p atime mtime =>
      cases mem_singleton.1 hmem
      exact refused_bind ⟨_, _, assertWritable_of_meetsMount h "utime"⟩ _
  | mount _ _ | unmount _ _ => cases hmem

end VirtualFS

end Tabnode
