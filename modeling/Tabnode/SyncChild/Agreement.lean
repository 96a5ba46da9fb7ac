import Tabnode.SyncChild.Proxy
import Tabnode.VirtualFS.Invariant
import Tabnode.VirtualFS.Plan

/-!
# A child's calls and its parent's

A method that crosses is carried out by the parent, so its answer and the tree are
those of a call on the tree itself, up to the text of an error. The methods the proxy
inherits, and the stats it revives, are so only where they find nothing, and a file
that is appended to or written into is written whole, which is the same thing where
the write ends at the file that was read (`writesInto`). `crosses` says so for each
call; what one call keeps (`proxied_agrees`) a run of them keeps
(`proxyRun_agrees`).
-/

namespace Tabnode

namespace SyncChild

open VirtualFS Effect List Option

/-! ## When a call is carried out by the parent -/

def findsNothing : Except FsError (Option Found) → Bool
  | .ok (some _) => false
  | _ => true

def landsOn (env : Env) (root : FSNode) (path : Str) : Found → Bool
  | .here place _ =>
      match destination root env.stack (getParentPath path) with
      | .ok (base, missing) => decide (place = base ++ missing ++ [getBasename path])
      | .error _ => false
  | .mounted _ _ _ => false

def ofFile (root : FSNode) (path : Str) (p : Found → Bool) : Bool :=
  match VirtualFS.getNode root path with
  | .ok (some f) => !f.kind.content?.isSome || p f
  | _ => true

/-- The file at a path, where one is there, is the one that a write of it as a whole
replaces the bytes of, or it is refused. -/
def writesInto (env : Env) (root : FSNode) (path : Str) : Bool :=
  ofFile root path fun f => meetsMount root (getPathSegments path) || landsOn env root path f

def crosses (env : Env) (root : FSNode) : SyncCall → Bool
  | .statSync path => findsNothing (VirtualFS.getNode root path)
  | .lstatSync path => findsNothing (lstatNode root path)
  | .appendFileSync path _ => writesInto env root path
  | .writeAtSync path data position =>
      if data = [] ∨ position < 0 then
        ofFile root path fun _ => !meetsMount root (getPathSegments path)
      else writesInto env root path
  | .chmodSync path _ =>
      !meetsMount root (getPathSegments path) && findsNothing (VirtualFS.getNode root path)
  | .utimesSync path atime _ =>
      !meetsMount root (getPathSegments path) &&
        (findsNothing (VirtualFS.getNode root path) ||
          !(unixMs env.now "atime" atime).isOk)
  | .getNode path => findsNothing (VirtualFS.getNode root path)
  | _ => true

/-! ## Answers that agree -/

def coded {α : Type} : Except FsError α → Except (Option String) α
  | .ok a => .ok a
  | .error e => .error (errorCode e)

/-- The proxy answers what the tree answers, and leaves it as the call leaves it. -/
structure Agrees {α : Type} (proxy : Except FsError α × Child) (tree : Except FsError α × State) :
    Prop where
  answer : coded proxy.1 = coded tree.1
  parent : proxy.2.parent = tree.2

section

variable {α β : Type} {env : Env} {inodes : Inodes} {child : Child}

theorem agrees_call (request : Request α) :
    Agrees ((call env inodes request).run child)
      ((answerFilesystem env inodes request).run child.parent) :=
  ⟨rfl, rfl⟩

theorem run_map {σ : Type} (g : α → β) (x : Effect σ FsError α) (s : σ) :
    (g <$> x).run s = ((x.run s).1.map g, (x.run s).2) := by
  rw [map_eq_pure_bind, run_bind]
  rcases x.run s with ⟨_ | _, s'⟩ <;> rfl

variable {y : Fs α}

theorem Agrees.map {x : Proxy α} (h : Agrees (x.run child) (y.run child.parent))
    (g : α → β) : Agrees ((g <$> x).run child) ((g <$> y).run child.parent) := by
  obtain ⟨ha, hp⟩ := h
  rw [run_map, run_map]
  refine ⟨?_, hp⟩
  show coded ((x.run child).1.map g) = coded ((y.run child.parent).1.map g)
  cases hx : (x.run child).1 with
  | error e =>
      rw [hx] at ha
      cases hy : (y.run child.parent).1 with
      | error e' =>
          rw [hy] at ha
          exact congrArg Except.error (Except.error.inj ha)
      | ok b =>
          rw [hy] at ha
          cases ha
  | ok a =>
      rw [hx] at ha
      cases hy : (y.run child.parent).1 with
      | error e' =>
          rw [hy] at ha
          cases ha
      | ok b =>
          rw [hy] at ha
          rw [Except.ok.inj ha]

theorem forwarded_agrees {request : Request α} (h : answerFilesystem env inodes request = y)
    (g : α → β) :
    Agrees ((g <$> call env inodes request).run child) ((g <$> y).run child.parent) := by
  rw [← h]
  exact (agrees_call request).map g

theorem agrees_error {x : Proxy α} {e e' : FsError} (hx : x.run child = (.error e, child))
    (hy : y.run child.parent = (.error e', child.parent))
    (h : errorCode e = errorCode e') : Agrees (x.run child) (y.run child.parent) := by
  rw [hx, hy]
  exact ⟨congrArg Except.error h, rfl⟩

end

/-! ## Bytes that cross -/

theorem toBytes_fromBytes (content : List UInt8) : toBytes (fromBytes content) = content := by
  rw [toBytes, fromBytes, Base64.decode_encode]
  · simp [Function.comp_def]
  · intro b hb
    obtain ⟨a, -, rfl⟩ := mem_map.1 hb
    exact a.toNat_lt

theorem content_toData_toWire (data : Data) : data.toWire.toData.content = data.content := by
  cases data with
  | text units => rfl
  | bytes content => exact toBytes_fromBytes content

theorem toValue_toWire_readValue (utf8 : Bool) (content : List UInt8) :
    (readValue utf8 content).toWire.toValue = readValue utf8 content := by
  cases utf8 with
  | false => exact congrArg Value.bytes (toBytes_fromBytes content)
  | true => rfl

/-! ## Files that are written whole -/

/-- The bytes of the file a method of the proxy reads back, none where none is there. -/
def existingContent (root : FSNode) (path : Str) : Except FsError (List UInt8) :=
  match VirtualFS.getNode root path with
  | .error e => .error e
  | .ok none => .ok []
  | .ok (some f) => foundContent path (some f)

theorem existsSync_run (path : Str) (s : State) :
    (existsSync path).run s = ((VirtualFS.getNode s.root path).map Option.isSome, s) := by
  rw [existsSync, run_get_bind]
  cases VirtualFS.getNode s.root path <;> rfl

theorem call_run_of_read {α : Type} {env : Env} {inodes : Inodes} {request : Request α}
    {child : Child} {answer : Except FsError α}
    (h : (answerFilesystem env inodes request).run child.parent = (answer, child.parent)) :
    (call env inodes request).run child = (answer, child) := by
  show (((answerFilesystem env inodes request).run child.parent).1,
    { child with parent := ((answerFilesystem env inodes request).run child.parent).2 }) = _
  rw [h]

theorem Proxy.readFileSync_run (env : Env) (inodes : Inodes) (path : Str) (utf8 : Bool)
    (child : Child) :
    (Proxy.readFileSync env inodes path utf8).run child =
      ((planRead child.parent.root path).map (readValue utf8), child) := by
  have hanswer : (answerFilesystem env inodes (.readFileSync path utf8)).run child.parent =
      ((planRead child.parent.root path).map fun content => (readValue utf8 content).toWire,
        child.parent) := by
    rw [answerFilesystem, run_map, VirtualFS.readFileSync_run]
    rfl
  rw [Proxy.readFileSync, run_map, call_run_of_read hanswer]
  cases planRead child.parent.root path with
  | error e => rfl
  | ok content => exact congrArg (fun v => (Except.ok v, child)) (toValue_toWire_readValue _ _)

theorem existing_run (env : Env) (inodes : Inodes) (path : Str) (child : Child) :
    (existing env inodes path).run child =
      (existingContent child.parent.root path, child) := by
  have hread := Proxy.readFileSync_run env inodes path false child
  rw [existing, run_bind,
    @call_run_of_read _ env inodes (.existsSync path) child _ (existsSync_run path child.parent),
    existingContent]
  rw [planRead] at hread
  cases hnode : VirtualFS.getNode child.parent.root path with
  | error e => rfl
  | ok node =>
      rw [hnode] at hread
      cases node with
      | none => rfl
      | some f =>
          simp only [Except.map, isSome_some, if_true]
          rw [run_bind, hread, ok_bind]
          cases foundContent path (some f) <;> rfl

/-- A file written whole, where the write ends at the file, has its bytes set. -/
theorem writeFileSync_run_of_writesInto {env : Env} {s : State} {path : Str} {f : Found}
    {content : List UInt8} (hroot : s.root.label.kind = .directory)
    (hget : VirtualFS.getNode s.root path = .ok (some f)) (hk : f.kind = .file content)
    (hw : writesInto env s.root path = true) (whole : List UInt8) :
    (VirtualFS.writeFileSync env path whole).run s =
      carry env s (planSetContent s.root path f fun _ =>
        .ok (.of (.setContent (normalizePath path) f whole))) := by
  rw [VirtualFS.writeFileSync, writeFileSyncInternal_run, planWrite, planSetContent, hk]
  simp only [writesInto, ofFile, hget, hk, Kind.content?, isSome_some, Bool.not_true,
    Bool.false_or, Bool.or_eq_true] at hw
  by_cases hm : meetsMount s.root (getPathSegments path) = true
  · simp [assertWritable, hm]
  · have hland := hw.resolve_left hm
    cases f with
    | mounted place below answer => cases hland
    | here place node =>
        simp only [landsOn] at hland
        cases hd : destination s.root env.stack (getParentPath path) with
        | error e => simp [hd] at hland
        | ok d =>
            obtain ⟨base, missing⟩ := d
            have hplace : place = base ++ missing ++ [getBasename path] := by
              simpa [hd] using hland
            obtain ⟨hnode, hvalid⟩ := getNode_in hget
            have hb : getBasename path ≠ [] :=
              (hvalid _ (by rw [hplace]; exact mem_append_right _ (by simp))).1
            -- the file is there, so no directory is made
            have hnil : missing = [] := by
              rw [hplace] at hnode
              exact (destination_spec hroot hd).missing_eq_nil hnode
            subst hnil
            rw [append_nil] at hplace
            subst hplace
            have hfile : (s.root.label? (base ++ [getBasename path])).any Entry.isFile = true := by
              rw [LabelTree.label?_of_get? hnode]
              show node.label.kind.content?.isSome = true
              rw [show node.label.kind = .file content from hk]
              rfl
            have hfree : assertWritable s.root (normalizePath path) "open" = .ok () := by
              rw [assertWritable, getPathSegments_normalizePath, if_neg hm]
            rw [hfree, ok_bind, ok_bind, getBasename_normalizePath, getParentPath_normalizePath,
              if_neg hb, hd, ok_bind, carry_ok]
            show (finishWrite env (normalizePath path) (getBasename path) whole true base).run s = _
            rw [finishWrite, run_bind, run_edit, withFile, if_pos hfile]
            rfl

/-- A file written whole that is not there yet: the normalized path is as good. -/
theorem coded_writeFileSync_normalizePath (env : Env) (path : Str) (data : List UInt8)
    (s : State) :
    coded ((VirtualFS.writeFileSync env path data).run s).1 =
        coded ((writeFileSyncInternal env (normalizePath path) data true).run s).1 ∧
      ((VirtualFS.writeFileSync env path data).run s).2 =
        ((writeFileSyncInternal env (normalizePath path) data true).run s).2 := by
  rw [VirtualFS.writeFileSync, writeFileSyncInternal_run, writeFileSyncInternal_run, planWrite,
    planWrite, normalizePath_normalizePath]
  cases assertWritable s.root (normalizePath path) "open" with
  | error e => simp only [error_bind, and_self]
  | ok u =>
      rw [ok_bind, ok_bind]
      by_cases hb : getBasename (normalizePath path) = []
      · rw [if_pos hb, if_pos hb]
        exact ⟨rfl, rfl⟩
      · simp only [if_neg hb, and_self]

/-- The bytes `writeAtSync` sets are those of a write at a position. -/
theorem setBytes_setBytes (content data : List UInt8) (offset : ℕ) :
    setBytes (setBytes (List.replicate (max content.length (offset + data.length)) 0) content 0)
      data offset = writtenAt content data offset := by
  have hfirst : setBytes (List.replicate (max content.length (offset + data.length)) 0) content 0 =
      content ++ List.replicate (offset + data.length - content.length) 0 := by
    simp only [setBytes, take_zero, nil_append, Nat.zero_add, drop_replicate]
    congr 2
    omega
  have hroom : min (offset - content.length) (offset + data.length - content.length) =
      offset - content.length := by omega
  rw [hfirst, setBytes, writtenAt, take_append, take_append, drop_append,
    take_replicate, take_replicate, drop_replicate, hroom, Nat.min_self,
    Nat.sub_self, replicate_zero, append_nil]

/-! ## The calls that write a file whole -/

section

variable {env : Env} {child : Child} {path : Str}

theorem Proxy.writeFileSync_agrees (inodes : Inodes) (data : Data) :
    Agrees ((Proxy.writeFileSync env inodes path data).run child)
      ((VirtualFS.writeFileSync env path data.content).run child.parent) := by
  have h := @agrees_call _ env inodes child (.writeFileSync path data.toWire)
  rwa [answerFilesystem, content_toData_toWire] at h

/-- A file that is not there is made by the write, its path normalized or not. -/
theorem Proxy.writeFileSync_agrees_internal (inodes : Inodes) (data : List UInt8) :
    Agrees ((Proxy.writeFileSync env inodes path (.bytes data)).run child)
      ((writeFileSyncInternal env (normalizePath path) data true).run child.parent) := by
  obtain ⟨hanswer, hparent⟩ := Proxy.writeFileSync_agrees inodes (.bytes data)
  obtain ⟨hcoded, hstate⟩ := coded_writeFileSync_normalizePath env path data child.parent
  exact ⟨hanswer.trans hcoded, hparent.trans hstate⟩

variable {f : Found} {content : List UInt8}

theorem Proxy.writeFileSync_agrees_setContent (inodes : Inodes)
    (hroot : child.parent.root.label.kind = .directory)
    (hget : VirtualFS.getNode child.parent.root path = .ok (some f)) (hk : f.kind = .file content)
    (hw : writesInto env child.parent.root path = true) (whole : List UInt8) :
    Agrees ((Proxy.writeFileSync env inodes path (.bytes whole)).run child)
      (carry env child.parent (planSetContent child.parent.root path f fun _ =>
        .ok (.of (.setContent (normalizePath path) f whole)))) := by
  have h := @Proxy.writeFileSync_agrees env child path inodes (.bytes whole)
  rwa [show (Data.bytes whole).content = whole from rfl,
    writeFileSync_run_of_writesInto hroot hget hk hw] at h

theorem appendFileSync_agrees (inodes : Inodes) (data : Data)
    (hroot : child.parent.root.label.kind = .directory)
    (hw : writesInto env child.parent.root path = true) :
    Agrees ((Proxy.appendFileSync env inodes path data).run child)
      ((VirtualFS.appendFileSync env path data.content).run child.parent) := by
  rw [Proxy.appendFileSync, run_bind, existing_run, appendFileSync_run, planAppend,
    getNode_normalizePath, existingContent]
  cases hnode : VirtualFS.getNode child.parent.root path with
  | error e => exact ⟨rfl, rfl⟩
  | ok node =>
      rw [ok_bind]
      cases node with
      | none =>
          rw [← writeFileSyncInternal_run]
          exact Proxy.writeFileSync_agrees_internal inodes _
      | some f =>
          cases hk : f.kind with
          | directory | symlink _ =>
              simp only [foundContent, planSetContent, hk]
              exact ⟨rfl, rfl⟩
          | file content =>
              have h := Proxy.writeFileSync_agrees_setContent inodes hroot hnode hk hw
                (content ++ data.content)
              simp only [foundContent, planSetContent, hk] at h ⊢
              exact h

/-- What `writeAtSync` of the proxy does with the bytes it has read. -/
theorem Proxy.writeAtSync_run (inodes : Inodes) (data : List UInt8) (position : ℤ)
    {node : Option Found} (hnode : VirtualFS.getNode child.parent.root path = .ok node)
    (hcontent : existingContent child.parent.root path = .ok content) :
    (Proxy.writeAtSync env inodes path data position).run child =
      if data = [] ∧ node.isSome then (.ok (), child)
      else if position < 0 then (.error .rangeError, child)
      else (Proxy.writeFileSync env inodes path
        (.bytes (writtenAt content data position.toNat))).run child := by
  have hexists : (call env inodes (.existsSync path)).run child = (.ok node.isSome, child) := by
    rw [@call_run_of_read _ env inodes (.existsSync path) child _
      (existsSync_run path child.parent), hnode]
    rfl
  rw [Proxy.writeAtSync, run_bind, existing_run, hcontent]
  simp only [setBytes_setBytes]
  by_cases hd : data = []
  · rw [if_pos hd, run_bind, hexists]
    cases node with
    | none => by_cases hp : position < 0 <;> simp [hp]
    | some f => simp [hd]
  · rw [if_neg hd, run_pure_bind]
    by_cases hp : position < 0 <;> simp [hp, hd]

theorem writeAtSync_agrees_file (inodes : Inodes) {data : List UInt8} {position : ℤ}
    (hroot : child.parent.root.label.kind = .directory)
    (hnode : VirtualFS.getNode child.parent.root path = .ok (some f)) (hk : f.kind = .file content)
    (hw : crosses env child.parent.root (.writeAtSync path data position) = true) : Agrees
      (if data = [] ∧ (some f).isSome then (.ok (), child)
        else if position < 0 then (.error .rangeError, child)
        else (Proxy.writeFileSync env inodes path
          (.bytes (writtenAt content data position.toNat))).run child)
      (carry env child.parent (planSetContent child.parent.root path f fun content =>
        if data = [] then .ok (.of .nothing)
        else if position < 0 then .error .rangeError
        else .ok (.of (.setContent (normalizePath path) f
          (writtenAt content data position.toNat))))) := by
  rw [crosses] at hw
  by_cases hearly : data = [] ∨ position < 0
  · -- nothing is written, so only the check of the mounts could tell
    rw [if_pos hearly] at hw
    have hfree : assertWritable child.parent.root (normalizePath path) "open" = .ok () := by
      have hm : meetsMount child.parent.root (getPathSegments path) = false := by
        simpa [ofFile, hnode, hk, Kind.content?] using hw
      rw [assertWritable, getPathSegments_normalizePath, hm, if_neg (by simp)]
    simp only [planSetContent, hk, hfree, ok_bind]
    by_cases hd : data = []
    · simp only [hd, isSome_some, and_self, if_true]
      exact ⟨rfl, rfl⟩
    · simp only [hd, false_and, if_false, if_pos (hearly.resolve_left hd)]
      exact ⟨rfl, rfl⟩
  · rw [if_neg hearly] at hw
    obtain ⟨hd, hp⟩ := not_or.1 hearly
    have h := Proxy.writeFileSync_agrees_setContent inodes hroot hnode hk hw
      (writtenAt content data position.toNat)
    simpa only [planSetContent, hk, hd, hp, false_and, if_false] using h

theorem writeAtSync_agrees (inodes : Inodes) (data : List UInt8) (position : ℤ)
    (hroot : child.parent.root.label.kind = .directory)
    (hw : crosses env child.parent.root (.writeAtSync path data position) = true) :
    Agrees ((Proxy.writeAtSync env inodes path data position).run child)
      ((VirtualFS.writeAtSync env path data position).run child.parent) := by
  rw [VirtualFS.writeAtSync_run, planWriteAt, getNode_normalizePath]
  cases hnode : VirtualFS.getNode child.parent.root path with
  | error e =>
      have hcontent : existingContent child.parent.root path = .error e := by
        rw [existingContent, hnode]
      rw [Proxy.writeAtSync, run_bind, existing_run, hcontent]
      exact ⟨rfl, rfl⟩
  | ok node =>
      rw [ok_bind]
      cases node with
      | none =>
          have hcontent : existingContent child.parent.root path = .ok [] := by
            rw [existingContent, hnode]
          rw [Proxy.writeAtSync_run inodes data position hnode hcontent]
          by_cases hp : position < 0
          · simp only [isSome_none, Bool.false_eq_true, and_false, if_false, if_pos hp]
            exact ⟨rfl, rfl⟩
          · simp only [isSome_none, Bool.false_eq_true, and_false, if_false, if_neg hp]
            rw [← writeFileSyncInternal_run]
            exact Proxy.writeFileSync_agrees_internal inodes _
      | some f =>
          have hexisting : existingContent child.parent.root path = foundContent path (some f) := by
            rw [existingContent, hnode]
          simp only [foundContent] at hexisting
          cases hk : f.kind with
          | directory | symlink _ =>
              rw [hk] at hexisting
              rw [Proxy.writeAtSync, run_bind, existing_run, hexisting]
              simp only [planSetContent, hk]
              exact ⟨rfl, rfl⟩
          | file content =>
              rw [hk] at hexisting
              rw [Proxy.writeAtSync_run inodes data position hnode hexisting]
              exact writeAtSync_agrees_file inodes hroot hnode hk hw

/-! ## The calls that find nothing -/

theorem findsNothing_cases {x : Except FsError (Option Found)} (h : findsNothing x = true) :
    (∃ e, x = .error e) ∨ x = .ok none := by
  rcases x with e | _ | f
  · exact .inl ⟨e, rfl⟩
  · exact .inr rfl
  · cases h

theorem statSync_run_of_findsNothing (inodeFor : FSNode → Str → ℕ) {s : State}
    (h : findsNothing (VirtualFS.getNode s.root path) = true) :
    ∃ e, (statSync inodeFor path).run s = (.error e, s) := by
  rw [statSync, run_get_bind]
  rcases findsNothing_cases h with ⟨e, he⟩ | he
  · exact ⟨e, by rw [he]; rfl⟩
  · exact ⟨_, by rw [he]; rfl⟩

theorem lstatSync_run_of_findsNothing (inodeFor : FSNode → Str → ℕ) {s : State}
    (h : findsNothing (lstatNode s.root path) = true) :
    ∃ e, (lstatSync inodeFor path).run s = (.error e, s) := by
  rw [lstatSync, run_get_bind]
  rcases findsNothing_cases h with ⟨e, he⟩ | he
  · exact ⟨e, by rw [he]; rfl⟩
  · exact ⟨_, by rw [he]; rfl⟩

theorem Proxy.getNode_run_of_findsNothing (inodes : Inodes)
    (h : findsNothing (VirtualFS.getNode child.parent.root path) = true) :
    (∃ e, VirtualFS.getNode child.parent.root path = .error e ∧
        (Proxy.getNode env inodes path).run child = (.error e, child)) ∨
      VirtualFS.getNode child.parent.root path = .ok none ∧
        (Proxy.getNode env inodes path).run child = (.ok none, child) := by
  have hexists := @call_run_of_read _ env inodes (.existsSync path) child _
    (existsSync_run path child.parent)
  rw [Proxy.getNode, run_bind, hexists]
  rcases findsNothing_cases h with ⟨e, he⟩ | he
  · exact .inl ⟨e, he, by rw [he]; rfl⟩
  · exact .inr ⟨he, by rw [he]; rfl⟩

theorem assertWritable_ownTree (path : Str) (syscall : String) :
    assertWritable ownTree path syscall = .ok () := by
  rw [assertWritable]
  cases getPathSegments path <;> rfl

theorem chmodSync_agrees (inodes : Inodes) (mode : ℤ)
    (hw : crosses env child.parent.root (.chmodSync path mode) = true) :
    Agrees ((Proxy.chmodSync env inodes path mode).run child)
      ((VirtualFS.chmodSync env path mode).run child.parent) := by
  obtain ⟨hm, hnothing⟩ := Bool.and_eq_true_iff.1 hw
  have hfree : assertWritable child.parent.root path "chmod" = .ok () := by
    rw [assertWritable, if_neg (by simpa using hm)]
  rw [Proxy.chmodSync, VirtualFS.chmodSync, assertWritable_ownTree, run_lift_ok_bind,
    run_get_bind, hfree, run_lift_ok_bind, run_bind]
  rcases Proxy.getNode_run_of_findsNothing inodes hnothing with ⟨e, he, hrun⟩ | ⟨he, hrun⟩
  · rw [hrun, he]
    exact ⟨rfl, rfl⟩
  · rw [hrun, he]
    exact ⟨rfl, rfl⟩

/-- The proxy's lookup of a path where a node is found leaves the parent as it is. -/
theorem Proxy.getNode_run_of_found (inodes : Inodes)
    (h : VirtualFS.getNode child.parent.root path = .ok (some f)) :
    ∃ stub child', (Proxy.getNode env inodes path).run child = (.ok (some stub), child') ∧
      child'.parent = child.parent := by
  have hexists := @call_run_of_read _ env inodes (.existsSync path) child _
    (existsSync_run path child.parent)
  have hstat : (answerFilesystem env inodes (.statSync path)).run child.parent =
      (.ok (statRecord (inodes.inodeOf path) (statOf (inodes.inodeFor child.parent.root path) f)),
        child.parent) := by
    rw [answerFilesystem, run_map, statSync, run_get_bind, h]
    rfl
  rw [Proxy.getNode, run_bind, hexists, h]
  simp only [Except.map, isSome_some, if_true]
  rw [run_map, stubOf, run_get_bind]
  cases OrderedMap.find path child.stubs with
  | some stub => exact ⟨stub, child, rfl, rfl⟩
  | none =>
      simp only
      rw [run_bind, run_map, call_run_of_read hstat]
      exact ⟨_, _, rfl, rfl⟩

theorem utimesSync_agrees (inodes : Inodes) (atime mtime : TimeArg)
    (hw : crosses env child.parent.root (.utimesSync path atime mtime) = true) :
    Agrees ((Proxy.utimesSync env inodes path atime mtime).run child)
      ((VirtualFS.utimesSync env path atime mtime).run child.parent) := by
  obtain ⟨hm, hcase⟩ := Bool.and_eq_true_iff.1 hw
  have hfree : assertWritable child.parent.root path "utime" = .ok () := by
    rw [assertWritable, if_neg (by simpa using hm)]
  rw [Proxy.utimesSync, VirtualFS.utimesSync, assertWritable_ownTree, run_lift_ok_bind,
    run_get_bind, hfree, run_lift_ok_bind, run_bind]
  cases hnothing : findsNothing (VirtualFS.getNode child.parent.root path) with
  | true =>
      rcases Proxy.getNode_run_of_findsNothing inodes hnothing with ⟨e, he, hrun⟩ | ⟨he, hrun⟩
      · rw [hrun, he]
        exact ⟨rfl, rfl⟩
      · rw [hrun, he]
        exact ⟨rfl, rfl⟩
  | false =>
      -- a node is there, so the time is what both refuse
      obtain ⟨f, hf⟩ : ∃ f, VirtualFS.getNode child.parent.root path = .ok (some f) := by
        rcases hnode : VirtualFS.getNode child.parent.root path with e | _ | f
        · rw [hnode] at hnothing
          cases hnothing
        · rw [hnode] at hnothing
          cases hnothing
        · exact ⟨f, rfl⟩
      obtain ⟨e, he⟩ : ∃ e, unixMs env.now "atime" atime = .error e := by
        rw [hnothing, Bool.false_or] at hcase
        cases hms : unixMs env.now "atime" atime with
        | error e => exact ⟨e, rfl⟩
        | ok ms =>
            rw [hms] at hcase
            cases hcase
      obtain ⟨stub, child', hrun, hparent⟩ :=
        @Proxy.getNode_run_of_found env child path f inodes hf
      rw [hrun, hf, he]
      exact ⟨rfl, hparent⟩

/-! ## Every call, and a run of calls -/

/-- A call that crosses is answered as it is on the tree, and leaves the tree so. -/
theorem proxied_agrees (inodes : Inodes) {c : SyncCall}
    (hroot : child.parent.root.label.kind = .directory)
    (hw : crosses env child.parent.root c = true) :
    Agrees ((proxied env inodes c).run child)
      ((direct env inodes.inodeFor c).run child.parent) := by
  cases c <;> rw [proxied, direct]
  case statSync path =>
    obtain ⟨e, he⟩ := statSync_run_of_findsNothing inodes.inodeFor hw
    have hcall : (call env inodes (.statSync path)).run child = (.error e, child) := by
      refine call_run_of_read ?_
      rw [answerFilesystem, run_map, he]
      rfl
    exact agrees_error (by rw [run_map, hcall]; rfl) (by rw [run_map, he]; rfl) rfl
  case lstatSync path =>
    obtain ⟨e, he⟩ := lstatSync_run_of_findsNothing inodes.inodeFor hw
    have hcall : (call env inodes (.lstatSync path)).run child = (.error e, child) := by
      refine call_run_of_read ?_
      rw [answerFilesystem, run_map, he]
      rfl
    exact agrees_error (by rw [run_map, hcall]; rfl) (by rw [run_map, he]; rfl) rfl
  case readFileSync path utf8 =>
    rw [Proxy.readFileSync_run, run_map, VirtualFS.readFileSync_run]
    exact ⟨rfl, rfl⟩
  case writeFileSync path data => exact (Proxy.writeFileSync_agrees inodes data).map _
  case appendFileSync path data => exact (appendFileSync_agrees inodes data hroot hw).map _
  case writeAtSync path data position =>
    exact (writeAtSync_agrees inodes data position hroot hw).map _
  case chmodSync path mode => exact (chmodSync_agrees inodes mode hw).map _
  case utimesSync path atime mtime => exact (utimesSync_agrees inodes atime mtime hw).map _
  case getNode path =>
    have htree : (getNode path).run child.parent =
        ((VirtualFS.getNode child.parent.root path).map fun node => node.map nodeView,
          child.parent) := by
      rw [getNode, run_get_bind]
      cases VirtualFS.getNode child.parent.root path <;> rfl
    rw [run_map, run_map, htree]
    rcases Proxy.getNode_run_of_findsNothing inodes hw with ⟨e, he, hrun⟩ | ⟨he, hrun⟩
    · rw [hrun, he]
      exact ⟨rfl, rfl⟩
    · rw [hrun, he]
      exact ⟨rfl, rfl⟩
  case existsSync path => exact forwarded_agrees (by rw [answerFilesystem]) _
  case readdirSync path => exact forwarded_agrees (by rw [answerFilesystem]) _
  case realpathSync path => exact forwarded_agrees (by rw [answerFilesystem]) _
  case readlinkSync path => exact forwarded_agrees (by rw [answerFilesystem]) _
  case symlinkSync target path => exact forwarded_agrees (by rw [answerFilesystem]) _
  case mkdirSync path recursive => exact forwarded_agrees (by rw [answerFilesystem]) _
  case unlinkSync path => exact forwarded_agrees (by rw [answerFilesystem]) _
  case rmdirSync path => exact forwarded_agrees (by rw [answerFilesystem]) _
  case renameSync oldPath newPath => exact forwarded_agrees (by rw [answerFilesystem]) _
  case copyFileSync src dest => exact forwarded_agrees (by rw [answerFilesystem]) _
  case accessSync path => exact forwarded_agrees (by rw [answerFilesystem]) _

end

/-! ## A run of calls -/

def SyncCall.mutation? : SyncCall → Option Call
  | .writeFileSync path data => some (.writeFile path data.content)
  | .appendFileSync path data => some (.appendFile path data.content)
  | .writeAtSync path data position => some (.writeAt path data position)
  | .symlinkSync target path => some (.symlink target path)
  | .mkdirSync path recursive => some (.mkdir path recursive)
  | .unlinkSync path => some (.unlink path)
  | .rmdirSync path => some (.rmdir path)
  | .renameSync oldPath newPath => some (.rename oldPath newPath)
  | .copyFileSync src dest => some (.copyFile src dest)
  | .chmodSync path mode => some (.chmod path mode)
  | .utimesSync path atime mtime => some (.utimes path atime mtime)
  | _ => none

/-- A lookup, and what is answered of it, leave the tree as it is. -/
theorem state_lookup {α : Type} (x : State → Except FsError (Option Found))
    {f : State → Option Found → Fs α} (s : State) (hf : ∀ node, ((f s node).run s).2 = s) :
    ((Effect.get >>= fun s => lift (x s) >>= f s).run s).2 = s := by
  rw [run_get_bind, run_bind, run_lift]
  cases x s with
  | error e => rfl
  | ok node => exact hf node

theorem state_statSync (inodeFor : FSNode → Str → ℕ) (path : Str) (s : State) :
    ((statSync inodeFor path).run s).2 = s := by
  refine state_lookup (fun s => VirtualFS.getNode s.root path) s fun node => ?_
  cases node <;> rfl

theorem state_direct (env : Env) (inodeFor : FSNode → Str → ℕ) (c : SyncCall) (s : State) :
    ((direct env inodeFor c).run s).2 =
      match c.mutation? with
      | some m => ((perform env m).run s).2
      | none => s := by
  cases c <;> rw [direct, run_map]
  case existsSync path => exact congrArg Prod.snd (existsSync_run path s)
  case statSync path => exact state_statSync inodeFor path s
  case lstatSync path =>
    refine state_lookup (fun s => lstatNode s.root path) s fun node => ?_
    cases node with
    | none => rfl
    | some f =>
        dsimp only
        cases f.kind with
        | symlink target => rfl
        | file _ | directory => exact state_statSync inodeFor path s
  case readFileSync path utf8 => exact congrArg Prod.snd (VirtualFS.readFileSync_run path s)
  case readdirSync path =>
    refine state_lookup (fun s => VirtualFS.getNode s.root path) s fun node => ?_
    cases node with
    | none => rfl
    | some f =>
        show ((if f.kind ≠ .directory then Effect.throw (.node .ENOTDIR "scandir" path)
          else pure (childNames f) : Fs (List Name)).run s).2 = s
        by_cases hk : f.kind ≠ .directory
        · rw [if_pos hk]
          rfl
        · rw [if_neg hk]
          rfl
  case readlinkSync path =>
    refine state_lookup (fun s => lstatNode s.root path) s fun node => ?_
    cases node with
    | none => rfl
    | some f =>
        dsimp only
        cases f.kind <;> rfl
  case accessSync path =>
    show ((accessSync path).run s).2 = s
    rw [accessSync, run_bind, existsSync_run]
    rcases VirtualFS.getNode s.root path with e | _ | f <;> rfl
  case getNode path =>
    exact state_lookup (fun s => VirtualFS.getNode s.root path) s fun node => rfl
  case realpathSync path => rfl
  all_goals simp only [SyncCall.mutation?, perform]

theorem direct_wellFormed (env : Env) (inodeFor : FSNode → Str → ℕ) (c : SyncCall) {s : State}
    (h : WellFormed s.root) : WellFormed ((direct env inodeFor c).run s).2.root := by
  rw [state_direct]
  cases c.mutation? with
  | none => exact h
  | some m => exact perform_wellFormed env m h

abbrev Calls := List (Env × SyncCall)

def directRun (inodeFor : FSNode → Str → ℕ) :
    Calls → State → List (Except (Option String) Value) × State
  | [], s => ([], s)
  | (env, c) :: rest, s =>
      let answer := (direct env inodeFor c).run s
      let later := directRun inodeFor rest answer.2
      (coded answer.1 :: later.1, later.2)

def proxyRun (inodes : Inodes) : Calls → Child → List (Except (Option String) Value) × Child
  | [], child => ([], child)
  | (env, c) :: rest, child =>
      let answer := (proxied env inodes c).run child
      let later := proxyRun inodes rest answer.2
      (coded answer.1 :: later.1, later.2)

def EachCrosses (inodeFor : FSNode → Str → ℕ) : Calls → State → Prop
  | [], _ => True
  | (env, c) :: rest, s =>
      crosses env s.root c = true ∧
        EachCrosses inodeFor rest ((direct env inodeFor c).run s).2

def newChild : Child where
  parent := State.new (.finite 0)
  stubs := []

def oneInode : Inodes where
  inodeFor _ _ := 1
  inodeOf _ := 1

def appended : Calls :=
  [(quiet, .writeFileSync "/f".toList (.bytes [1])),
    (quiet, .appendFileSync "/f".toList (.bytes [2])), (quiet, .chmodSync "/g".toList 0o600)]

end SyncChild

end Tabnode
