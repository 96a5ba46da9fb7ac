import Tabnode.VirtualFS.Lookup
import Tabnode.VirtualFS.Visible

/-!
# Which calls lose a file

A call keeps a file that can be reached in its place, or moves it with what it
renames; the bytes of the file it writes, and a file a rename replaces, are its
own to change (`FileKept`). `Act.Drops` says when the code does otherwise: it
writes a file over a directory, moves an entry over a directory that holds
something or into itself, or moves files to where no reader finds them.
-/

namespace Tabnode

namespace VirtualFS

open Effect LabelTree List Option

/-! ## What a call writes and moves -/

def Edit.written (dir : Place) : Edit → Option Place
  | .write _ name _ => some (dir ++ [name])
  | .setContent _ (.here place _) _ => some place
  | _ => none

/-- What may become of a file: it stays, it is the one that is written, it goes
with what is moved, or it is replaced by what is moved to its very place. -/
inductive FileKept (root' : FSNode) (a : Act) (p : Place) (content : List UInt8) :
    Prop where
  | inPlace (h : FileAt root' p content)
  | written (h : a.edit.written a.dir = some p) (data : List UInt8)
      (h' : FileAt root' p data)
  | moved (O N r : Place) (h : a.edit.moved a.dir = some (some O, N)) (hp : p = O ++ r)
      (h' : FileAt root' (N ++ r) content)
  | replaced (O : Option Place) (h : a.edit.moved a.dir = some (O, p))

def Occupied (node : FSNode) : Prop :=
  node.label.kind = .directory ∧ (node.children ≠ [] ∨ node.label.mount.isSome)

def Act.OverDirectory (root : FSNode) (a : Act) : Prop :=
  (∃ path name data e, a.edit = .write path name data ∧
      root.label? (a.dir ++ [name]) = some e ∧ e.kind = .directory) ∨
    ∃ O N node, a.edit.moved a.dir = some (O, N) ∧ O ≠ some N ∧ root.get? N = some node ∧
      Occupied node

def Act.OutOfSight (env : Env) (root : FSNode) (a : Act) : Prop :=
  ¬ Unreported env root a.base a.missing ∧ ∃ O N r content,
    a.edit.moved a.dir = some (some O, N) ∧ ¬ Hidden root O ∧
      (¬ (∀ n ∈ N, ValidName n) ∨ Hidden root N) ∧
      FileAt root (O ++ r) content ∧ ¬ FileAt root (N ++ r) content

def Act.Drops (env : Env) (root : FSNode) (a : Act) : Prop :=
  a.OverDirectory root ∨ a.IntoItself ∨ a.OutOfSight env root

def Refuses (env : Env) (s : State) (c : Call) : Prop :=
  ∀ env' : Env, env'.now = env.now → env'.stack = env.stack →
    ∃ e, (perform env' c).run s = (.error e, s)

/-- No file is lost by a call: every file that could be reached is kept, and a
call onto a directory or into itself is refused. -/
structure LosesNoFile (env : Env) (s : State) (c : Call) : Prop where
  kept : ∀ p content, FileAt s.root p content →
    FileAt ((perform env c).run s).2.root p content ∨
      ∃ a, plan env s.root c = .ok a ∧
        FileKept ((perform env c).run s).2.root a p content
  refused : ∀ a, plan env s.root c = .ok a → a.OverDirectory s.root ∨ a.IntoItself →
    Refuses env s c

/-- The calls that remove an entry. -/
inductive Call.Removes : Call → Prop where
  | unlink (path : Str) : Call.Removes (.unlink path)
  | rmdir (path : Str) : Call.Removes (.rmdir path)
  | unmount (parent : Place) (name : Name) : Call.Removes (.unmount parent name)

/-! ## Edits beside the way to a file -/

def OffWay (root : FSNode) (p N : Place) : Prop := ¬ Hidden root N → ¬ N <+: p

variable {root : FSNode} {p : Place} {content : List UInt8}

/-- What is not a directory that holds something is on the way to itself only. -/
theorem offWay_of_not_occupied (hs : Sound root) {N : Place} (hf : FileAt root p content)
    (hne : N ≠ []) (hp : N ≠ p)
    (hN : ∀ node, root.get? N = some node → ¬ Occupied node) : OffWay root p N := by
  intro hhid hpre
  obtain ⟨d, hd, ht, hvis⟩ := hf.on_way hpre hhid
  have hrest : p.drop N.length ≠ [] := by
    intro h
    rw [drop_eq_nil_iff] at h
    exact hp (hpre.eq_of_length_le h)
  cases hk : d.label.kind with
  | symlink target =>
      have := ht hne
      rw [hk] at this
      cases this
  | directory =>
      have hnot : ¬ (d.children ≠ [] ∨ d.label.mount.isSome) := fun h => hN d hd ⟨hk, h⟩
      rw [not_or, not_not, not_isSome_iff_eq_none] at hnot
      exact hf.not_below_empty hpre hhid hd hk hnot.1 hnot.2
  | file data =>
      have hm : d.label.mount = none := by
        rw [← not_isSome_iff_eq_none]
        intro hm
        rw [(hs N d hd).2 hm] at hk
        cases hk
      cases hr : p.drop N.length with
      | nil => exact hrest hr
      | cons n rest =>
          rw [hr, visible_cons hm] at hvis
          cases hc : d.child? n with
          | none => simp [hc] at hvis
          | some child =>
              rw [hs.directory_of_child hd hc] at hk
              cases hk

variable {node : FSNode} {dir : Place} {name : Name}

theorem FileAt.put (hf : FileAt root p content)
    (hoff : OffWay root p (dir ++ [name])) : FileAt (root.put dir name node) p content := by
  refine hf.congr fun q hq hhid => ?_
  cases hd : root.get? dir with
  | none => rw [label?_put_of_absent hd]
  | some d =>
      rw [label?_put hd, if_neg]
      intro hN
      exact hoff (fun h => hhid (h.of_isPrefix hN)) (hN.trans hq)

theorem FileAt.assign {g : Attrs → Attrs} (hf : FileAt root p content)
    (hg : ∀ a, (g a).kind = a.kind) (place : Place) : FileAt (assign place g root) p content := by
  refine hf.congr fun q _ _ => ?_
  rw [VirtualFS.assign, label?_relabel]
  split
  · cases root.label? q with
    | none => rfl
    | some e => simp [Entry.shape, hg]
  · rfl

theorem FileAt.foundAssign {g : Attrs → Attrs} (hf : FileAt root p content)
    (hg : ∀ a, (g a).kind = a.kind) (f : Found) : FileAt (f.assign g root) p content := by
  cases f with
  | here place node => exact hf.assign hg place
  | mounted place below answer => exact hf

variable {place : Place}

/-- Writing the bytes of a file keeps every other file, and the file with its new
bytes. -/
theorem FileAt.assign_file {e : Entry} (hf : FileAt root p content) (h : WellFormed root)
    (data : List UInt8) (now : JsNumber) (he : root.label? place = some e) (hfile : e.isFile) :
    FileAt (VirtualFS.assign place (fun a => { a with kind := .file data, mtime := now }) root)
        p content ∨
      place = p ∧ FileAt (VirtualFS.assign place
        (fun a => { a with kind := .file data, mtime := now }) root) p data := by
  obtain ⟨d, hd, rfl⟩ := label?_eq_some_iff.1 he
  obtain ⟨old, hk⟩ := Entry.isFile_iff.1 hfile
  have hsame : ∀ q, place ≠ q → (VirtualFS.assign place
      (fun a => { a with kind := .file data, mtime := now }) root).label? q =
      root.label? q := by
    intro q hq
    rw [VirtualFS.assign, label?_relabel, if_neg hq]
  by_cases hp : place = p ∧ ¬ Hidden root p
  · right
    obtain ⟨rfl, hhid⟩ := hp
    refine ⟨rfl, hf.1, ?_⟩
    have hm : d.label.mount = none := by
      rw [← not_isSome_iff_eq_none]
      intro hm
      rw [(h.sound place d hd).2 hm] at hk
      cases hk
    have hwf := h.assign (p := place) (g := fun a => { a with kind := .file data, mtime := now })
      fun e he' hdir => by
        rw [he, some_inj] at he'
        rw [← he', hk] at hdir
        cases hdir
    refine visible_of_label? hwf.sound (e := { d.label with
        toAttrs := { d.label.toAttrs with kind := .file data, mtime := now } }) ?_ ?_ hm rfl
    · rw [VirtualFS.assign, label?_relabel, if_pos rfl, he]
      rfl
    · exact fun hh => hhid ((hidden_congr fun q _ hne => by rw [hsame q hne.symm]).1 hh)
  · left
    have hoff : OffWay root p place := by
      by_cases hpp : place = p
      · intro hhid
        exact absurd ⟨hpp, hpp ▸ hhid⟩ hp
      · have hne : place ≠ [] := by
          rintro rfl
          cases hd
          rw [h.directory] at hk
          cases hk
        refine offWay_of_not_occupied h.sound hf hne hpp fun node hn hocc => ?_
        rw [hd] at hn
        cases hn
        rw [hocc.1] at hk
        cases hk
    refine hf.congr fun q hq hhid => ?_
    rw [hsame]
    rintro rfl
    exact hoff hhid hq

/-! ## Each edit -/

/-- A write keeps the files it does not write, where its name holds no directory. -/
theorem FileAt.withFile (hf : FileAt root p content) (h : WellFormed root) (data : List UInt8)
    (now : JsNumber) (hdir : ∀ e, root.label? (dir ++ [name]) = some e → e.kind ≠ .directory) :
    FileAt (withFile now root dir name data) p content ∨
      dir ++ [name] = p ∧ FileAt (withFile now root dir name data) p data := by
  rw [VirtualFS.withFile]
  split
  · next hfile =>
      rw [Option.any_eq_true] at hfile
      obtain ⟨e, he, hfile⟩ := hfile
      exact hf.assign_file h data now he hfile
  · next hfile =>
      left
      refine hf.put fun hhid hpre => ?_
      -- what stands there is no file and no directory, so it is a link
      obtain ⟨d, hd, ht, -⟩ := hf.on_way hpre hhid
      have hl := label?_of_get? hd
      have hk := hdir d.label hl
      rw [hl, any_some, Entry.isFile_iff] at hfile
      have htarget := ht (by simp)
      cases hkind : d.label.kind with
      | file data => exact hfile ⟨data, hkind⟩
      | directory => exact hk hkind
      | symlink target =>
          rw [hkind] at htarget
          cases htarget

variable {root' : FSNode} {oldName newName : Name}

/-- A move keeps the files it does not take, where it replaces no directory that
holds something. -/
theorem FileAt.move_beside (hs : Sound root) (hf : FileAt root p content)
    (hsub : Extends root root') (hd : ∃ d, root'.get? dir = some d)
    (hdir : ¬ place ++ [oldName] <+: dir)
    (hO : Hidden root (place ++ [oldName]) ∨ ¬ place ++ [oldName] <+: p)
    (hN : ∀ old, root.get? (dir ++ [newName]) = some old → ¬ Occupied old)
    (hne : dir ++ [newName] ≠ p) :
    FileAt ((root'.remove place oldName).put dir newName node) p content := by
  obtain ⟨d, hd⟩ := hd
  obtain ⟨d', hd'⟩ := get?_remove_isSome hd hdir
  have hoff : OffWay root p (dir ++ [newName]) :=
    offWay_of_not_occupied hs hf (by simp) hne hN
  refine hf.congr fun q hq hhid => ?_
  have hOq : ¬ place ++ [oldName] <+: q := by
    intro h
    rcases hO with hO | hO
    · exact hhid (hO.of_isPrefix h)
    · exact hO (h.trans hq)
  have hNq : ¬ dir ++ [newName] <+: q :=
    fun h => hoff (fun hh => hhid (hh.of_isPrefix h)) (h.trans hq)
  rw [label?_move hd' hOq hNq]
  obtain ⟨c, hc, -⟩ := hf.on_way hq hhid
  have hl := label?_of_get? hc
  rw [hsub q _ hl, hl]

variable {r : Place}

/-- A move takes the files below the moved entry with it, where its new place can
be reached. -/
theorem FileAt.move_with (hwf : WellFormed ((root'.remove place oldName).put dir newName node))
    (hf : FileAt root (place ++ [oldName] ++ r) content)
    (hnode : root.get? (place ++ [oldName]) = some node)
    (hvisible : ¬ Hidden root (place ++ [oldName]))
    (hmounts : ∀ q e, root'.label? q = some e → e.mount.isSome → root.label? q = some e)
    (hd : ∃ d, root'.get? dir = some d) (hdir : ¬ place ++ [oldName] <+: dir)
    (hvalid : ∀ n ∈ dir ++ [newName], ValidName n) (hhid : ¬ Hidden root (dir ++ [newName])) :
    FileAt ((root'.remove place oldName).put dir newName node)
      (dir ++ [newName] ++ r) content := by
  obtain ⟨d, hd⟩ := hd
  obtain ⟨d', hd'⟩ := get?_remove_isSome hd hdir
  obtain ⟨c, hc, ht, hvis⟩ := hf.on_way (prefix_append _ r) hvisible
  rw [hnode] at hc
  cases hc
  rw [drop_left] at hvis
  have hput : ((root'.remove place oldName).put dir newName node).get? (dir ++ [newName]) =
      some node := get?_put_append hd' newName node []
  have hhid' : ¬ Hidden ((root'.remove place oldName).put dir newName node)
      (dir ++ [newName]) := by
    rintro ⟨q, e, hq, hne, he, hm⟩
    have hqdir : q <+: dir := by
      rcases prefix_concat_iff.1 hq with h | h
      · exact absurd h hne
      · exact h
    have hN : ¬ dir ++ [newName] <+: q := by
      intro h
      have hlen := (h.trans hqdir).length_le
      simp at hlen
    rw [label?_move hd' (fun h => hdir (h.trans hqdir)) hN] at he
    exact hhid ⟨q, e, hq, hne, hmounts q e he hm, hm⟩
  refine ⟨fun n hn => ?_, ?_⟩
  · rcases mem_append.1 hn with hn | hn
    · exact hvalid n hn
    · exact hf.1 n (mem_append_right _ hn)
  · rw [visible_append hwf.sound hput hhid' fun _ => ht (by simp)]
    exact hvis

theorem visible_move_hidden (now : JsNumber) {base : Place} {missing : List Name}
    (hdest : IsDestination root base missing) (hdir : ¬ place ++ [oldName] <+: base ++ missing)
    (hN : Hidden root (base ++ missing ++ [newName])) :
    visible (((withDirectories now root base missing).remove place oldName).put
        (base ++ missing) newName node) (base ++ missing ++ [newName] ++ r) =
      visible root (base ++ missing ++ [newName] ++ r) := by
  obtain ⟨d, hd, -⟩ := directory_withDirectories now hdest
  obtain ⟨d', hd'⟩ := get?_remove_isSome hd hdir
  refine visible_congr fun q hq hhid => ?_
  have hNq : ¬ base ++ missing ++ [newName] <+: q := fun h => hhid (hN.of_isPrefix h)
  have hqN : q <+: base ++ missing := by
    rcases prefix_or_prefix_of_prefix hq (prefix_append _ r) with h | h
    · rcases prefix_concat_iff.1 h with h | h
      · exact absurd (h ▸ prefix_refl _) hNq
      · exact h
    · exact absurd h hNq
  have hOq : ¬ place ++ [oldName] <+: q := fun h => hdir (h.trans hqN)
  rw [label?_move hd' hOq hNq]
  -- the mount stands above the place, and the way to it is in the tree
  obtain ⟨m, e, hm, hmne, he, hmount⟩ := hN
  have hmdir : m <+: base ++ missing := by
    rcases prefix_concat_iff.1 hm with h | h
    · exact absurd h hmne
    · exact h
  have hqm : q <+: m := by
    rcases prefix_or_prefix_of_prefix hqN hmdir with h | h
    · exact h
    · by_cases heq : m = q
      · rw [heq]
      · exact absurd ⟨m, e, h, heq, he, hmount⟩ hhid
  obtain ⟨c, hc, -⟩ := label?_eq_some_iff.1 he
  obtain ⟨c', hc'⟩ := get?_isSome_of_isPrefix hqm hc
  have hl := label?_of_get? hc'
  rw [extends_withDirectories now hdest q _ hl, hl]

/-! ## What is kept -/

theorem mount_withDirectories (now : JsNumber) {base : Place} {missing : List Name}
    (h : IsDestination root base missing) (q : Place) (e : Entry)
    (he : (withDirectories now root base missing).label? q = some e) (hm : e.mount.isSome) :
    root.label? q = some e := by
  obtain ⟨d, hd, -, hmissing⟩ := h.directory
  rw [label?_withDirectories now hd hmissing] at he
  split at he
  · cases he
    cases hm
  · exact he

variable {env : Env} {s : State} {a : Act}

/-- A move of an entry of the tree keeps every file, where it replaces no
directory that holds something and does not go into itself. -/
theorem fileKept_move {oldPath newPath : Str} {parent : FSNode} (h : WellFormed s.root)
    (hfit : a.Fits s.root)
    (hedit : a.edit = .move oldPath newPath (.here place parent) oldName node newName)
    (hrep : ¬ Unreported env s.root a.base a.missing) (hdrops : ¬ a.Drops env s.root)
    (hf : FileAt s.root p content)
    (hwf : WellFormed (((withDirectories env.now s.root a.base a.missing).remove place
      oldName).put a.dir newName node)) :
    FileKept (((withDirectories env.now s.root a.base a.missing).remove place oldName).put
      a.dir newName node) a p content := by
  have hmoved : a.edit.moved a.dir =
      some (some (place ++ [oldName]), a.dir ++ [newName]) := by
    rw [hedit]
    rfl
  have hfits := hfit.edit
  rw [hedit] at hfits
  obtain ⟨hin, -, hchild, -⟩ := hfits
  have hnode : s.root.get? (place ++ [oldName]) = some node := by
    rw [get?_append_singleton, hin.1]
    exact hchild
  obtain ⟨d, hd, -⟩ := directory_withDirectories env.now hfit.destination
  by_cases hON : place ++ [oldName] = a.dir ++ [newName]
  · -- the entry is put where it was
    have hnil : a.missing = [] := by
      have hthere : s.root.get? (a.base ++ a.missing ++ [newName]) = some node := by
        rw [← hnode, hON]
        rfl
      exact hfit.destination.missing_eq_nil hthere
    obtain ⟨hdir, hname⟩ := append_inj' hON rfl
    cases hname
    refine .inPlace (hf.congr fun q _ _ => ?_)
    rw [hnil, withDirectories, ← hdir, label?_move_same hin.1 hnode]
  · have hocc : ∀ old, s.root.get? (a.dir ++ [newName]) = some old → ¬ Occupied old := by
      intro old hold hocc
      refine hdrops (.inl (.inr ⟨_, _, old, hmoved, ?_, hold, hocc⟩))
      simpa using hON
    have hdir : ¬ place ++ [oldName] <+: a.dir :=
      fun hpre => hdrops (.inr (.inl ⟨_, _, hmoved, hpre⟩))
    by_cases hNp : a.dir ++ [newName] = p
    · exact .replaced _ (hNp ▸ hmoved)
    by_cases hO : Hidden s.root (place ++ [oldName]) ∨ ¬ place ++ [oldName] <+: p
    · exact .inPlace (hf.move_beside h.sound
        (extends_withDirectories env.now hfit.destination) ⟨d, hd⟩ hdir hO hocc hNp)
    · rw [not_or, not_not] at hO
      obtain ⟨hvisible, r, rfl⟩ := hO
      refine .moved _ _ r hmoved rfl ?_
      by_cases hseen : (∀ n ∈ a.dir ++ [newName], ValidName n) ∧
          ¬ Hidden s.root (a.dir ++ [newName])
      · exact hf.move_with hwf hnode hvisible
          (mount_withDirectories env.now hfit.destination) ⟨d, hd⟩ hdir hseen.1 hseen.2
      · -- the mounted tree shows the file there already
        have hthere : FileAt s.root (a.dir ++ [newName] ++ r) content := by
          by_contra hno
          refine hdrops (.inr (.inr ⟨hrep, _, _, r, content, hmoved, hvisible, ?_, hf, hno⟩))
          by_cases hv : ∀ n ∈ a.dir ++ [newName], ValidName n
          · exact .inr (by_contra fun hhid => hseen ⟨hv, hhid⟩)
          · exact .inl hv
        have hhid : Hidden s.root (a.dir ++ [newName]) := by
          by_contra hno
          exact hseen ⟨fun n hn => hthere.1 n (mem_append_left _ hn), hno⟩
        refine ⟨hthere.1, ?_⟩
        rw [← hthere.2]
        exact visible_move_hidden env.now hfit.destination hdir hhid

theorem FileAt.put_mountPoint (hf : FileAt root p content)
    (hr : ¬ mountRefused (root.get? (dir ++ [name]))) :
    FileAt (root.put dir name node) p content := by
  have hempty : ∀ old, root.get? (dir ++ [name]) = some old →
      old.label.kind = .directory ∧ old.label.mount = none ∧ old.children = [] := by
    intro old hold
    have h : ¬ (old.label.kind ≠ .directory ∨ old.label.mount.isSome ∨ old.children ≠ []) :=
      fun h => hr ⟨old, hold, h⟩
    rw [not_or, not_or, not_not, not_not, not_isSome_iff_eq_none] at h
    exact h
  refine hf.put fun hhid hpre => ?_
  obtain ⟨d, hd, -⟩ := hf.on_way hpre hhid
  obtain ⟨hk, hm, hc⟩ := hempty d hd
  exact hf.not_below_empty hpre hhid hd hk hc hm

/-- A move of an entry a mounted tree answered leaves that tree as it is. -/
theorem fileKept_move_mounted (hs : Sound root) (hf : FileAt root p content)
    (hsub : Extends root root') (hd : ∃ d, root'.get? dir = some d)
    (hN : ∀ old, root.get? (dir ++ [newName]) = some old → ¬ Occupied old)
    (hp : dir ++ [newName] ≠ p) : FileAt (root'.put dir newName node) p content := by
  obtain ⟨d, hd⟩ := hd
  have hoff : OffWay root p (dir ++ [newName]) :=
    offWay_of_not_occupied hs hf (by simp) hp hN
  refine hf.congr fun q hq hhid => ?_
  have hNq : ¬ dir ++ [newName] <+: q :=
    fun h => hoff (fun hh => hhid (hh.of_isPrefix h)) (h.trans hq)
  rw [label?_put hd, if_neg hNq]
  obtain ⟨c, hc, -⟩ := hf.on_way hq hhid
  have hl := label?_of_get? hc
  rw [hsub q _ hl, hl]

def Edit.Removes : Edit → Prop
  | .drop _ _ _ | .unmount _ _ => True
  | _ => False

variable {c : Call}

theorem Planned.not_removes (h : Planned env root c a) (hc : ¬ c.Removes) : ¬ a.edit.Removes := by
  intro hr
  cases h with
  | drop hdrop hw hget hk hchild =>
      cases hdrop with
      | unlink hk => exact hc (.unlink _)
      | rmdir hk hch => exact hc (.rmdir _)
  | unmount he hm => exact hc (.unmount _ _)
  | _ => exact hr

theorem fileKept_act (h : WellFormed s.root) (hfit : a.Fits s.root) (hrem : ¬ a.edit.Removes)
    (hdrops : ¬ a.Drops env s.root) (hf : FileAt s.root p content) :
    FileKept ((act env a).run s).2.root a p content := by
  have hdest := hfit.destination
  by_cases hrep : Unreported env s.root a.base a.missing
  · obtain ⟨e, s', k, hrun, -, hs'⟩ := act_of_unreported hdest hrep
    rw [hrun]
    refine .inPlace ?_
    simp only [hs']
    exact hf.of_extends (extends_withDirectories env.now (hdest.take (k + 1)))
  · have hwf := act_wellFormed env h hfit
    obtain ⟨s', hmade, hrun⟩ := act_of_reported hdest hrep
    rw [hrun, root_finish, hmade.root] at hwf ⊢
    have hsub := extends_withDirectories env.now hdest
    have hf1 := hf.of_extends hsub
    have hwf1 := h.withDirectories env.now hdest
    have hbelow := get?_below_withDirectories env.now hdest
    have hfits := hfit.edit
    cases he : a.edit with
    | nothing => exact .inPlace hf1
    | write path name data =>
        have hdir : ∀ e, (withDirectories env.now s.root a.base a.missing).label?
            (a.dir ++ [name]) = some e → e.kind ≠ .directory := by
          intro e hl hk
          rw [label?, Act.dir, hbelow] at hl
          exact hdrops (.inl (.inl ⟨path, name, data, e, he, hl, hk⟩))
        rcases hf1.withFile hwf1 data env.now hdir with hkept | ⟨hp, hkept⟩
        · exact .inPlace hkept
        · exact .written (by rw [he, ← hp]; rfl) data hkept
    | setContent path f data =>
        rw [he] at hfits
        obtain ⟨hin, old, hk⟩ := hfits
        cases f with
        | mounted place below answer => exact .inPlace hf1
        | here place node =>
            have hl := hsub _ _ (label?_of_get? hin.1)
            rcases hf1.assign_file hwf1 data env.now hl
                (Entry.isFile_iff.2 ⟨old, hk⟩) with hkept | ⟨hp, hkept⟩
            · exact .inPlace hkept
            · exact .written (by rw [he, ← hp]; rfl) data hkept
    | add path f name node =>
        rw [he] at hfits
        obtain ⟨hin, hk, hfree, -⟩ := hfits
        have hnil : a.missing = [] := by
          have hmade := hfit.made
          rw [he] at hmade
          exact hmade.resolve_left id
        rw [hnil]
        refine .inPlace ?_
        cases f with
        | mounted place below answer => exact hf
        | here place parent =>
            refine hf.put fun hhid hpre => ?_
            obtain ⟨d, hd, -⟩ := hf.on_way hpre hhid
            rw [get?_append_singleton, hin.1, bind_some] at hd
            rw [show parent.child? name = none from hfree] at hd
            cases hd
    | drop path f name =>
        rw [he] at hrem
        exact absurd trivial hrem
    | move oldPath newPath source oldName node newName =>
        rw [he] at hwf
        cases source with
        | here place parent => exact fileKept_move h hfit he hrep hdrops hf hwf
        | mounted place below answer =>
            have hmoved : a.edit.moved a.dir = some (none, a.dir ++ [newName]) := by
              rw [he]
              rfl
            obtain ⟨d, hd, -⟩ := directory_withDirectories env.now hdest
            by_cases hp : a.dir ++ [newName] = p
            · exact .replaced none (by rw [← hp]; exact hmoved)
            · refine .inPlace (fileKept_move_mounted h.sound hf hsub ⟨d, hd⟩
                (fun old hold hocc => ?_) hp)
              exact hdrops (.inl (.inr ⟨_, _, old, hmoved, by simp, hold, hocc⟩))
    | setMode path f mode =>
        exact .inPlace (hf1.foundAssign (g := fun a => { a with mode := some mode })
          (fun _ => rfl) f)
    | setTimes path f atime mtime =>
        have hatime := hf1.foundAssign (g := fun a => { a with atime := some atime })
          (fun _ => rfl) f
        cases mtime with
        | error e => exact .inPlace hatime
        | ok mtime =>
            exact .inPlace (hatime.foundAssign (g := fun a => { a with mtime := mtime })
              (fun _ => rfl) f)
    | mount name tree =>
        rw [he] at hfits
        refine .inPlace (hf1.put_mountPoint ?_)
        rw [Act.dir, hbelow]
        exact hfits.2
    | unmount place name =>
        rw [he] at hrem
        exact absurd trivial hrem

/-! ## What is lost -/

theorem run_announce_unheard (hc : env.changeListened = false) (hd : env.deleteListened = false)
    (oldPath newPath : Str) (node : FSNode) (replaced : Option FSNode) (s : State) :
    (renameSync.announce env oldPath newPath node replaced).run s = (.ok (), s) := by
  have hgone : ∀ l : List Str,
      (forEach (fun p => emit env (.delete p)) l).run s = (.ok (), s) := by
    intro l
    induction l with
    | nil => rfl
    | cons p l ih =>
        rw [forEach, run_bind, run_emit]
        simp only [Env.hears, hd, Bool.false_eq_true, if_false]
        exact ih
  have hmade : ∀ l : List Str, (forEach (emitChanged env) l).run s = (.ok (), s) := by
    intro l
    induction l with
    | nil => rfl
    | cons p l ih =>
        rw [forEach, run_bind, run_emitChanged]
        simp only [hc, Bool.false_eq_true, if_false]
        exact ih
  rw [renameSync.announce, run_bind, hgone]
  exact hmade _

def Env.unheard (env : Env) : Env :=
  { env with changeListened := false, deleteListened := false }

/-- A planned action that no directory or listener stops ends in its edit. -/
theorem perform_unheard (h : WellFormed s.root) (hplan : plan env s.root c = .ok a) :
    ∃ s', s'.root = withDirectories env.now s.root a.base a.missing ∧
      (perform env.unheard c).run s = (finish env.unheard a.edit a.dir).run s' := by
  have hplan' : plan env.unheard s.root c = .ok a := by
    rw [← hplan]
    cases c with
    | mkdir path recursive => cases recursive <;> rfl
    | _ => rfl
  have hfit := plan_fits h.directory hplan
  have hrep : ¬ Unreported env.unheard s.root a.base a.missing :=
    not_unreported_of_unheard rfl _ _ _
  obtain ⟨s', hmade, hrun⟩ := act_of_reported hfit.destination hrep
  refine ⟨s', hmade.root, ?_⟩
  rw [perform_run _ _ _ h.directory, hplan', carry_ok, hrun]

theorem not_refuses (h : WellFormed s.root) (hplan : plan env s.root c = .ok a)
    (hdue : a.OverDirectory s.root ∨ a.IntoItself) : ¬ Refuses env s c := by
  intro href
  obtain ⟨e, href⟩ := href env.unheard rfl rfl
  obtain ⟨s', hs', hrun⟩ := perform_unheard h hplan
  rw [href] at hrun
  have hfits := (plan_fits h.directory hplan).edit
  -- only a write and a move are concerned
  have hedit : (∃ path name data, a.edit = .write path name data) ∨
      ∃ o n source oldName node newName, a.edit = .move o n source oldName node newName := by
    cases he : a.edit with
    | write path name data => exact .inl ⟨_, _, _, rfl⟩
    | move o n source oldName node newName => exact .inr ⟨_, _, _, _, _, _, rfl⟩
    | _ =>
        rcases hdue with (⟨_, _, _, _, hw, -⟩ | ⟨_, _, _, hm, -⟩) | ⟨_, _, hm, -⟩
        · rw [he] at hw
          cases hw
        · rw [he] at hm
          cases hm
        · rw [he] at hm
          cases hm
  rcases hedit with ⟨path, name, data, he⟩ | ⟨o, n, source, oldName, node, newName, he⟩
  · rw [he, finish, finishWrite, run_bind, run_edit] at hrun
    simp only [if_true, run_emit, Prod.mk.injEq] at hrun
    cases hrun.1
  · rw [he] at hrun hfits
    rw [finish, finishMove, run_get_bind, run_bind, run_edit] at hrun
    cases source with
    | mounted place below answer =>
        simp only [Found.childPlace] at hrun
        rw [run_announce_unheard rfl rfl] at hrun
        cases hrun
    | here place parent =>
        simp only [Found.childPlace] at hrun
        by_cases hpre : place ++ [oldName] <+: a.dir
        · -- the entry is gone from the tree that is left
          rw [if_pos hpre] at hrun
          have hroot : s.root = ((s'.root).remove place oldName).put a.dir newName node :=
            congrArg (fun r => r.2.root) hrun
          have hgone : (((s'.root).remove place oldName).put a.dir newName node).label?
              (place ++ [oldName]) = none := label?_intoItself hpre
          rw [← hroot, label?_eq_none_iff, get?_append_singleton,
            hfits.1.1] at hgone
          rw [bind_some, show parent.child? oldName = some node from hfits.2.2.1] at hgone
          cases hgone
        · rw [if_neg hpre, run_announce_unheard rfl rfl] at hrun
          cases hrun

/-- What was at the old place of a move is not reached there afterwards. -/
theorem not_fileAt_moved {content' : List UInt8}
    (hf : FileAt root (place ++ [oldName] ++ r) content) (hO : ¬ Hidden root (place ++ [oldName]))
    (hsub : Extends root root') (hd : ∃ d, root'.get? dir = some d)
    (hdir : ¬ place ++ [oldName] <+: dir) (hne : ¬ dir ++ [newName] <+: place ++ [oldName]) :
    ¬ FileAt ((root'.remove place oldName).put dir newName node)
      (place ++ [oldName] ++ r) content' := by
  intro hf'
  obtain ⟨d, hd⟩ := hd
  obtain ⟨d', hd'⟩ := get?_remove_isSome hd hdir
  have hlabels : ∀ q, q <+: place ++ [oldName] → q ≠ place ++ [oldName] →
      ((root'.remove place oldName).put dir newName node).label? q = root.label? q := by
    intro q hq hqne
    have hOq : ¬ place ++ [oldName] <+: q :=
      fun h => hqne (hq.eq_of_length_le h.length_le)
    rw [label?_move hd' hOq fun h => hne (h.trans hq)]
    obtain ⟨c, hc, -⟩ := hf.on_way (hq.trans (prefix_append _ r))
      fun hh => hO (hh.of_isPrefix hq)
    have hl := label?_of_get? hc
    rw [hsub q _ hl, hl]
  have hO' : ¬ Hidden ((root'.remove place oldName).put dir newName node)
      (place ++ [oldName]) :=
    fun hh => hO ((hidden_congr fun q hq hqne => by rw [hlabels q hq hqne]).1 hh)
  obtain ⟨c, hc, -⟩ := hf'.on_way (prefix_append _ r) hO'
  have hl := label?_of_get? hc
  rw [label?_put hd', if_neg hne, label?_remove,
    if_pos (prefix_refl _)] at hl
  cases hl

theorem not_kept_of_outOfSight (h : WellFormed s.root) (hplan : plan env s.root c = .ok a)
    (hinto : ¬ a.IntoItself) (hout : a.OutOfSight env s.root) :
    ¬ ∀ p content, FileAt s.root p content →
      FileAt ((perform env c).run s).2.root p content ∨
        ∃ a, plan env s.root c = .ok a ∧
          FileKept ((perform env c).run s).2.root a p content := by
  intro hkept
  obtain ⟨hrep, O, N, r, content, hmoved, hO, hN, hf, hno⟩ := hout
  have hfit := plan_fits h.directory hplan
  have hdest := hfit.destination
  have hsub := extends_withDirectories env.now hdest
  obtain ⟨d, hd, -⟩ := directory_withDirectories env.now hdest
  obtain ⟨s', hmade, hrun⟩ := act_of_reported hdest hrep
  cases he : a.edit with
  | move oldPath newPath source oldName node newName =>
      cases source with
      | mounted place below answer =>
          rw [he] at hmoved
          cases hmoved
      | here place parent =>
          rw [he] at hmoved
          simp only [Edit.moved, Found.childPlace, some_inj, Prod.mk.injEq] at hmoved
          obtain ⟨rfl, rfl⟩ := hmoved
          have hroot : ((perform env c).run s).2.root =
              ((withDirectories env.now s.root a.base a.missing).remove place oldName).put
                a.dir newName node := by
            rw [perform_run _ _ _ h.directory, hplan, carry_ok, hrun, root_finish,
              hmade.root, he]
            rfl
          have hdir : ¬ place ++ [oldName] <+: a.dir :=
            fun hpre => hinto ⟨_, _, by rw [he]; rfl, hpre⟩
          have hne : ¬ a.dir ++ [newName] <+: place ++ [oldName] := by
            intro hpre
            rcases hN with hN | hN
            · -- a place that cannot be named is not on the way to a file
              exact hN fun n hn => hf.1 n (mem_append_left _ (hpre.subset hn))
            · exact hO (hN.of_isPrefix hpre)
          rw [hroot] at hkept
          have hout : ∀ data, ¬ FileAt
              (((withDirectories env.now s.root a.base a.missing).remove place oldName).put
                a.dir newName node) (place ++ [oldName] ++ r) data :=
            fun data => not_fileAt_moved hf hO hsub ⟨d, hd⟩ hdir hne
          rcases hkept _ _ hf with hin | ⟨a', hplan', hkept⟩
          · exact hout _ hin
          · rw [hplan] at hplan'
            cases hplan'
            cases hkept with
            | inPlace hin => exact hout _ hin
            | written hw data hin => exact hout _ hin
            | moved O' N' r' hm hp hin =>
                rw [he] at hm
                simp only [Edit.moved, Found.childPlace, some_inj, Prod.mk.injEq] at hm
                obtain ⟨rfl, rfl⟩ := hm
                rw [append_cancel_left_eq] at hp
                subst hp
                rcases hN with hN | hN
                · exact hN fun n hn => hin.1 n (mem_append_left _ hn)
                · refine hno ⟨hin.1, ?_⟩
                  rw [← hin.2]
                  exact (visible_move_hidden env.now hdest hdir hN).symm
            | replaced O' hm =>
                -- the file stands at the new place, so below itself
                rw [he] at hm
                simp only [Edit.moved, Found.childPlace, some_inj, Prod.mk.injEq] at hm
                have hpre : place ++ [oldName] <+: a.dir ++ [newName] :=
                  hm.2 ▸ prefix_append _ r
                rcases prefix_concat_iff.1 hpre with heq | hpre
                · exact hne (heq ▸ prefix_refl _)
                · exact hdir hpre
  | _ =>
      rw [he] at hmoved
      cases hmoved

/-- A new filesystem with a file `/d/f`. -/
def nestedFile : State :=
  ((perform quiet (.writeFile "/d/f".toList [1])).run (State.new (.finite 0))).2

theorem reachable_nestedFile : Reachable nestedFile := .step (.new _) _ _

end VirtualFS

end Tabnode
