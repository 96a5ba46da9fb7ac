import Tabnode.VirtualFS.Calls
import Tabnode.VirtualFS.Resolve

/-!
# What a plan finds

`Planned` lists what a call can go on to do once its checks have passed, with all
that they found; `plan_cases` says that there is nothing else. What a call goes on
to do fits the tree it was planned in (`plan_fits`): the nodes it names are nodes
of the tree, and the directories it makes are missing.
-/

namespace Tabnode

namespace VirtualFS

def Writable (root : FSNode) (path : Str) : Prop :=
  meetsMount root (getPathSegments path) = false

/-- The calls that write a whole file at a path. -/
inductive Call.Writes (path : Str) : Call → Prop where
  | writeFile (data : List UInt8) : Call.Writes path (.writeFile path data)
  | appendFile (bytes : List UInt8) : Call.Writes path (.appendFile path bytes)
  | writeAt (data : List UInt8) (position : ℤ) :
      Call.Writes path (.writeAt path data position)
  | copyFile (src : Str) : Call.Writes path (.copyFile src path)

/-- The calls that change the bytes of a file that is there. -/
inductive Call.Updates (path : Str) : Call → Prop where
  | appendFile (bytes : List UInt8) : Call.Updates path (.appendFile path bytes)
  | writeAt (data : List UInt8) (position : ℤ) :
      Call.Updates path (.writeAt path data position)

/-- The calls that put a new entry at a path, and what they put there. -/
inductive Call.Adds (now : JsNumber) (path : Str) : Call → FSNode → Prop where
  | mkdir : Call.Adds now path (.mkdir path false) (newDirectory now)
  | symlink (target : Str) :
      Call.Adds now path (.symlink target path) (newSymlink target now)

/-- The calls that remove the entry at a path, and what they remove. -/
inductive Call.Drops (path : Str) (node : FSNode) : Call → Prop where
  | unlink (h : node.label.kind ≠ .directory) : Call.Drops path node (.unlink path)
  | rmdir (h : node.label.kind = .directory) (hc : node.children = []) :
      Call.Drops path node (.rmdir path)

/-- What a call goes on to do, and what its checks have found. -/
inductive Planned (env : Env) (root : FSNode) : Call → Act → Prop where
  | nothing {c : Call} (h : ∀ o n, c ≠ .rename o n) : Planned env root c (.of .nothing)
  | directories {path : Str} {base : Place} {missing : List Name}
      (hw : Writable root path)
      (hd : destination root env.stack (normalizePath path) = .ok (base, missing)) :
      Planned env root (.mkdir path true) ⟨base, missing, .nothing⟩
  | write {c : Call} {path : Str} {data : List UInt8} {base : Place}
      {missing : List Name} (hc : c.Writes path) (hw : Writable root path)
      (hb : getBasename path ≠ [])
      (hd : destination root env.stack (getParentPath path) = .ok (base, missing)) :
      Planned env root c ⟨base, missing, .write (normalizePath path) (getBasename path) data⟩
  | setContent {c : Call} {path : Str} {f : Found} {content data : List UInt8}
      (hc : c.Updates path) (hw : Writable root path)
      (hget : getNode root path = .ok (some f)) (hk : f.kind = .file content) :
      Planned env root c (.of (.setContent (normalizePath path) f data))
  | add {c : Call} {path : Str} {parent : Found} {node : FSNode}
      (hc : c.Adds env.now path node) (hw : Writable root path)
      (hget : getNode root (getParentPath path) = .ok (some parent))
      (hk : parent.kind = .directory) (hfree : parent.child? (getBasename path) = none) :
      Planned env root c (.of (.add (normalizePath path) parent (getBasename path) node))
  | drop {c : Call} {path : Str} {parent : Found} {node : FSNode}
      (hc : c.Drops path node) (hw : Writable root path)
      (hget : getNode root (getParentPath path) = .ok (some parent))
      (hk : parent.kind = .directory) (hchild : parent.child? (getBasename path) = some node) :
      Planned env root c (.of (.drop (normalizePath path) parent (getBasename path)))
  | move {oldPath newPath : Str} {source : Found} {node : FSNode} {base : Place}
      {missing : List Name} (hold : Writable root oldPath) (hnew : Writable root newPath)
      (hget : getNode root (getParentPath oldPath) = .ok (some source))
      (hk : source.kind = .directory)
      (hchild : source.child? (getBasename oldPath) = some node)
      (hd : destination root env.stack (getParentPath newPath) = .ok (base, missing)) :
      Planned env root (.rename oldPath newPath)
        ⟨base, missing, .move (normalizePath oldPath) (normalizePath newPath) source
          (getBasename oldPath) node (getBasename newPath)⟩
  | setMode {path : Str} {mode : ℤ} {f : Found} (hw : Writable root path)
      (hget : getNode root path = .ok (some f)) :
      Planned env root (.chmod path mode)
        (.of (.setMode (normalizePath path) f (mode % 4096).toNat))
  | setTimes {path : Str} {atime mtime : TimeArg} {f : Found} {atimeMs : JsNumber}
      (hw : Writable root path) (hget : getNode root path = .ok (some f))
      (ha : unixMs env.now "atime" atime = .ok atimeMs) :
      Planned env root (.utimes path atime mtime)
        (.of (.setTimes (normalizePath path) f atimeMs (unixMs env.now "mtime" mtime)))
  | mount {path : Str} {tree : MountedTree} {base : Place} {missing : List Name}
      (hb : getBasename path ≠ [])
      (hd : destination root env.stack (getParentPath path) = .ok (base, missing))
      (hr : ¬ mountRefused (root.get? (base ++ missing ++ [getBasename path]))) :
      Planned env root (.mount path tree) ⟨base, missing, .mount (getBasename path) tree⟩
  | unmount {parent : Place} {name : Name} {e : Entry}
      (he : root.label? (parent ++ [name]) = some e) (hm : e.mount.isSome) :
      Planned env root (.unmount parent name) (.of (.unmount parent name))

/-! ## There is nothing else -/

variable {root : FSNode} {path : Str}

theorem assertWritable_ok {syscall : String} {u : Unit}
    (h : assertWritable root path syscall = .ok u) : Writable root path := by
  rw [assertWritable] at h
  split at h
  · cases h
  · next hm => exact eq_false_of_ne_true hm

theorem Writable.of_normalizePath
    (h : Writable root (normalizePath path)) : Writable root path := by
  rwa [Writable, getPathSegments_normalizePath] at h

theorem getNode_normalizePath (root : FSNode) (path : Str) :
    getNode root (normalizePath path) = getNode root path := by
  rw [getNode, getNode, linkBound, substrateNode, substrateNode,
    getPathSegments_normalizePath]

variable {missing : FsError}

theorem parentDirectory_ok {notDirectory : FsError} {parent : Found}
    (h : parentDirectory root path missing notDirectory = .ok parent) :
    getNode root path = .ok (some parent) ∧ parent.kind = Kind.directory := by
  obtain ⟨node, hnode, h⟩ := bind_eq_ok h
  cases node with
  | none => cases h
  | some f =>
      simp only at h
      split at h
      · cases h
      · next hk =>
          cases h
          exact ⟨hnode, not_not.1 hk⟩

variable {env : Env} {c : Call} {a : Act}

theorem planWrite_cases {data : List UInt8} (hc : c.Writes path)
    (h : planWrite root env.stack path data = .ok a ∨
      planWrite root env.stack (normalizePath path) data = .ok a) : Planned env root c a := by
  have hcases : ∀ p, normalizePath p = normalizePath path →
      planWrite root env.stack p data = .ok a → Planned env root c a := by
    intro p hp h
    obtain ⟨u, hw, h⟩ := bind_eq_ok h
    rw [hp] at hw h
    split at h
    · cases h
    · next hb =>
        obtain ⟨d, hd, h⟩ := bind_eq_ok h
        cases h
        rw [getBasename_normalizePath] at hb ⊢
        rw [getParentPath_normalizePath] at hd
        exact .write hc (assertWritable_ok hw).of_normalizePath hb hd
  rcases h with h | h
  · exact hcases path rfl h
  · exact hcases _ (normalizePath_normalizePath path) h

theorem planSetContent_cases {f : Found} {written : List UInt8 → Except FsError Act}
    (h : planSetContent root path f written = .ok a) :
    ∃ content, f.kind = .file content ∧ Writable root path ∧ written content = .ok a := by
  rw [planSetContent] at h
  split at h
  · next content hk =>
      obtain ⟨u, hw, h⟩ := bind_eq_ok h
      exact ⟨content, hk, (assertWritable_ok hw).of_normalizePath, h⟩
  · cases h

variable {node : FSNode}

theorem planAdd_cases {notDirectory present : FsError} (hc : c.Adds env.now path node)
    (hw : Writable root path)
    (h : planAdd root (normalizePath path) node missing notDirectory present = .ok a) :
    Planned env root c a := by
  obtain ⟨parent, hp, h⟩ := bind_eq_ok h
  rw [getBasename_normalizePath] at h
  rw [getParentPath_normalizePath] at hp
  split at h
  · cases h
  · next hfree =>
      cases h
      obtain ⟨hget, hk⟩ := parentDirectory_ok hp
      exact .add hc hw hget hk (by simpa using hfree)

theorem planDrop_cases {refused : FSNode → Option FsError}
    (hc : ∀ node, refused node = none → c.Drops path node) (hw : Writable root path)
    (h : planDrop root (normalizePath path) missing refused = .ok a) : Planned env root c a := by
  obtain ⟨parent, hp, h⟩ := bind_eq_ok h
  rw [getBasename_normalizePath] at h
  rw [getParentPath_normalizePath] at hp
  obtain ⟨hget, hk⟩ := parentDirectory_ok hp
  cases hchild : parent.child? (getBasename path) with
  | none => simp [hchild] at h
  | some node =>
      simp only [hchild] at h
      cases hr : refused node with
      | some e => simp [hr] at h
      | none =>
          simp only [hr] at h
          cases h
          exact .drop (hc node hr) hw hget hk hchild

theorem unlinkRefused_eq_none
    (h : unlinkRefused path node = none) : (Call.unlink path).Drops path node := by
  rw [unlinkRefused] at h
  split at h
  · cases h
  · next hk => exact .unlink hk

theorem rmdirRefused_eq_none
    (h : rmdirRefused path node = none) : (Call.rmdir path).Drops path node := by
  rw [rmdirRefused] at h
  split at h
  · cases h
  · next hk =>
      split at h
      · cases h
      · next hc => exact .rmdir (not_not.1 hk) (not_not.1 hc)

theorem plan_cases (h : plan env root c = .ok a) : Planned env root c a := by
  cases c with
  | writeFile path data => exact planWrite_cases (.writeFile data) (.inl h)
  | appendFile path bytes =>
      obtain ⟨node, hnode, h⟩ := bind_eq_ok h
      rw [getNode_normalizePath] at hnode
      cases node with
      | none => exact planWrite_cases (.appendFile bytes) (.inr h)
      | some f =>
          obtain ⟨content, hk, hw, h⟩ := planSetContent_cases h
          cases h
          exact .setContent (.appendFile bytes) hw hnode hk
  | writeAt path data position =>
      obtain ⟨node, hnode, h⟩ := bind_eq_ok h
      rw [getNode_normalizePath] at hnode
      cases node with
      | none =>
          simp only at h
          split at h
          · cases h
          · exact planWrite_cases (.writeAt data position) (.inr h)
      | some f =>
          obtain ⟨content, hk, hw, h⟩ := planSetContent_cases h
          split at h
          · cases h
            exact .nothing (by simp)
          · split at h
            · cases h
            · cases h
              exact .setContent (.writeAt data position) hw hnode hk
  | copyFile src dest =>
      obtain ⟨content, -, h⟩ := bind_eq_ok h
      exact planWrite_cases (.copyFile src) (.inl h)
  | mkdir path recursive =>
      cases recursive with
      | true =>
          obtain ⟨node, -, h⟩ := bind_eq_ok h
          split at h
          · cases h
            exact .nothing (by simp)
          · obtain ⟨u, hw, h⟩ := bind_eq_ok h
            obtain ⟨d, hd, h⟩ := bind_eq_ok h
            cases h
            exact .directories (assertWritable_ok hw).of_normalizePath hd
      | false =>
          obtain ⟨u, hw, h⟩ := bind_eq_ok h
          split at h
          · cases h
            exact .nothing (by simp)
          · exact planAdd_cases .mkdir (assertWritable_ok hw).of_normalizePath h
  | symlink target path =>
      obtain ⟨u, hw, h⟩ := bind_eq_ok h
      exact planAdd_cases (.symlink target) (assertWritable_ok hw).of_normalizePath h
  | unlink path =>
      obtain ⟨u, hw, h⟩ := bind_eq_ok h
      exact planDrop_cases (fun _ => unlinkRefused_eq_none)
        (assertWritable_ok hw).of_normalizePath h
  | rmdir path =>
      obtain ⟨u, hw, h⟩ := bind_eq_ok h
      split at h
      · cases h
      · exact planDrop_cases (fun _ => rmdirRefused_eq_none)
          (assertWritable_ok hw).of_normalizePath h
  | rename oldPath newPath =>
      obtain ⟨u, hold, h⟩ := bind_eq_ok h
      obtain ⟨u, hnew, h⟩ := bind_eq_ok h
      obtain ⟨source, hs, h⟩ := bind_eq_ok h
      rw [getParentPath_normalizePath] at hs
      rw [getBasename_normalizePath, getBasename_normalizePath,
        getParentPath_normalizePath] at h
      obtain ⟨hget, hk⟩ := parentDirectory_ok hs
      cases hchild : source.child? (getBasename oldPath) with
      | none => simp [hchild] at h
      | some node =>
          simp only [hchild] at h
          obtain ⟨d, hd, h⟩ := bind_eq_ok h
          cases h
          exact .move (assertWritable_ok hold).of_normalizePath
            (assertWritable_ok hnew).of_normalizePath hget hk hchild hd
  | chmod path mode =>
      obtain ⟨u, hw, h⟩ := bind_eq_ok h
      obtain ⟨node, hnode, h⟩ := bind_eq_ok h
      cases node with
      | none => cases h
      | some f =>
          cases h
          exact .setMode (assertWritable_ok hw) hnode
  | utimes path atime mtime =>
      obtain ⟨u, hw, h⟩ := bind_eq_ok h
      obtain ⟨node, hnode, h⟩ := bind_eq_ok h
      cases node with
      | none => cases h
      | some f =>
          obtain ⟨atimeMs, ha, h⟩ := bind_eq_ok h
          cases h
          exact .setTimes (assertWritable_ok hw) hnode ha
  | mount path tree =>
      rw [plan, planMount, getBasename_normalizePath, getParentPath_normalizePath] at h
      split at h
      · cases h
      · next hb =>
          obtain ⟨d, hd, h⟩ := bind_eq_ok h
          split at h
          · cases h
          · next hr =>
              cases h
              exact .mount hb hd hr
  | unmount parent name =>
      cases h
      rw [planUnmount]
      split
      · next hm =>
          rw [Option.any_eq_true] at hm
          obtain ⟨e, he, hm⟩ := hm
          exact .unmount he hm
      · exact .nothing (by simp)

/-! ## It fits the tree -/

/-- A name an entry can be given: the empty one included, which the root's path
has. -/
def EntryName (n : Name) : Prop := '/' ∉ n ∧ n ≠ ['.'] ∧ n ≠ ['.', '.']

theorem ValidName.entryName {n : Name} (h : ValidName n) : EntryName n := h.2

theorem entryName_getBasename (path : Str) : EntryName (getBasename path) := by
  rw [getBasename_eq]
  have hvalid := valid_getPathSegments path
  rcases List.eq_nil_or_concat (getPathSegments path) with hs | ⟨init, b, hs⟩
  · rw [hs]
    exact ⟨by simp, by simp, by simp⟩
  · rw [hs] at hvalid ⊢
    have hb := hvalid b (by simp)
    simpa using ⟨hb.2.1, hb.2.2.1, hb.2.2.2⟩

theorem validName_getBasename (h : getBasename path ≠ []) : ValidName (getBasename path) :=
  ⟨h, entryName_getBasename path⟩

def Edit.Fits (root : FSNode) (dir : Place) : Edit → Prop
  | .nothing => True
  | .write _ name _ => ValidName name
  | .setContent _ f _ => f.In root ∧ ∃ content, f.kind = .file content
  | .add _ f name node => f.In root ∧ f.kind = .directory ∧ f.child? name = none ∧
      EntryName name ∧ node.children = [] ∧ node.label.mount = none
  | .drop _ f _ => f.In root ∧ f.kind = .directory
  | .move _ _ source oldName node newName => source.In root ∧ source.kind = .directory ∧
      source.child? oldName = some node ∧ EntryName newName
  | .setMode _ f _ => f.In root
  | .setTimes _ f _ _ => f.In root
  | .mount name _ => ValidName name ∧ ¬ mountRefused (root.get? (dir ++ [name]))
  | .unmount place name => ∃ e, root.label? (place ++ [name]) = some e ∧ e.mount.isSome

def Act.dir (a : Act) : Place := a.base ++ a.missing

def Edit.InDirectory : Edit → Prop
  | .nothing | .write _ _ _ | .move _ _ _ _ _ _ | .mount _ _ => True
  | _ => False

/-- What an action needs of the tree. -/
structure Act.Fits (root : FSNode) (a : Act) : Prop where
  destination : IsDestination root a.base a.missing
  edit : a.edit.Fits root a.dir
  made : a.edit.InDirectory ∨ a.missing = []

theorem isDestination_root (hroot : root.label.kind = Kind.directory) : IsDestination root [] [] :=
  ⟨⟨root, rfl, hroot, by simp⟩, by simp⟩

theorem Act.Fits.of (hroot : root.label.kind = Kind.directory) {e : Edit}
    (h : e.Fits root []) : (Act.of e).Fits root :=
  ⟨isDestination_root hroot, h, .inr rfl⟩

theorem Planned.fits (hroot : root.label.kind = Kind.directory)
    (h : Planned env root c a) : a.Fits root := by
  cases h with
  | nothing => exact .of hroot trivial
  | directories hw hd => exact ⟨destination_spec hroot hd, trivial, .inl trivial⟩
  | write hc hw hb hd =>
      exact ⟨destination_spec hroot hd, validName_getBasename hb, .inl trivial⟩
  | setContent hc hw hget hk => exact .of hroot ⟨getNode_in hget, _, hk⟩
  | add hc hw hget hk hfree =>
      refine .of hroot ⟨getNode_in hget, hk, hfree, entryName_getBasename _, ?_⟩
      cases hc <;> exact ⟨rfl, rfl⟩
  | drop hc hw hget hk hchild => exact .of hroot ⟨getNode_in hget, hk⟩
  | move hold hnew hget hk hchild hd =>
      exact ⟨destination_spec hroot hd,
        ⟨getNode_in hget, hk, hchild, entryName_getBasename _⟩, .inl trivial⟩
  | setMode hw hget => exact .of hroot (getNode_in hget)
  | setTimes hw hget ha => exact .of hroot (getNode_in hget)
  | mount hb hd hr =>
      exact ⟨destination_spec hroot hd, ⟨validName_getBasename hb, hr⟩, .inl trivial⟩
  | unmount he hm => exact .of hroot ⟨_, he, hm⟩

theorem plan_fits (hroot : root.label.kind = Kind.directory)
    (h : plan env root c = .ok a) : a.Fits root :=
  (plan_cases h).fits hroot

end VirtualFS

end Tabnode
