import Tabnode.OpenFiles.Posix

/-!
# Descriptors share their files

The binding is followed beside the reference: the trees are one tree, and every open file
is paired with the description of the file its path leads to. An open file that is not
for `O_APPEND` has the description's offset as its position.
-/

namespace Tabnode

namespace OpenFiles

open Function VirtualFS Option

variable {Path : Type}

namespace Tree

/-! ## What paths lead to -/

variable {tree : Tree Path} {path : Path}

theorem Own.lead (h : tree.Own path) : tree.lead linkBound path = some path := by
  have hbound : linkBound = 40 + 1 := rfl
  rw [hbound, Tree.lead]
  split
  · next target htarget => exact absurd htarget (h target)
  · rfl

variable {place : Path} {content : List UInt8}

theorem own_of_fileAt (h : tree.fileAt place = some content) : tree.Own place := by
  intro target htarget
  simp [fileAt, htarget] at h

theorem apply_of_fileAt
    (h : tree.fileAt place = some content) : tree place = some (.file content) := by
  unfold fileAt at h
  split at h
  · next hplace => rw [hplace, Option.some.inj h]
  · cases h

theorem getNode_of_lead (h : tree.lead linkBound path = some place) :
    tree.getNode path = .ok ((tree.fileAt place).map fun content => (place, content)) := by
  rw [getNode, h]

theorem getNode_eq_some : tree.getNode path = .ok (some (place, content)) ↔
      tree.lead linkBound path = some place ∧ tree.fileAt place = some content := by
  constructor
  · intro h
    cases hlead : tree.lead linkBound path with
    | none => simp [getNode, hlead] at h
    | some target =>
        rw [getNode_of_lead hlead, Except.ok.injEq, map_eq_some_iff] at h
        obtain ⟨bytes, hfile, hpair⟩ := h
        obtain ⟨rfl, rfl⟩ := Prod.mk.inj hpair
        exact ⟨rfl, hfile⟩
  · rintro ⟨hlead, hfile⟩
    rw [getNode_of_lead hlead, hfile]
    rfl

theorem readFileSync_of_getNode (h : tree.getNode path = .ok (some (place, content))) :
    tree.readFileSync path = .ok content := by
  rw [readFileSync, h]

def Extends (tree tree' : Tree Path) : Prop :=
  ∀ path file content, tree.getNode path = .ok (some (file, content)) →
    ∃ content', tree'.getNode path = .ok (some (file, content'))

theorem Extends.refl (tree : Tree Path) : tree.Extends tree :=
  fun _ _ content h => ⟨content, h⟩

/-! ## A file with other bytes -/

variable [DecidableEq Path]

theorem lead_update (hown : tree.Own place) (content : List UInt8) : ∀ (left : ℕ) (path : Path),
      Tree.lead (update tree place (some (.file content))) left path =
        tree.lead left path
  | 0, _ => rfl
  | left + 1, path => by
      by_cases hpath : path = place
      · subst hpath
        unfold Tree.lead
        rw [update_self]
        split
        · next h => cases h
        · split
          · next h => exact absurd h (hown _)
          · rfl
      · unfold Tree.lead
        rw [update_of_ne hpath]
        split
        · exact lead_update hown content left _
        · rfl

theorem fileAt_update_self (tree : Tree Path) (place : Path) (content : List UInt8) :
    fileAt (update tree place (some (.file content))) place = some content := by
  rw [fileAt, update_self]

theorem fileAt_update_of_ne {other : Path} (h : other ≠ place) (tree : Tree Path)
    (content : List UInt8) :
    fileAt (update tree place (some (.file content))) other = tree.fileAt other := by
  rw [fileAt, update_of_ne h, fileAt]

theorem update_eq_self (h : tree.fileAt place = some content) :
    Function.update tree place (some (.file content)) = tree := by
  rw [← apply_of_fileAt h, Function.update_eq_self]

theorem extends_update (hown : tree.Own place) (content : List UInt8) :
    tree.Extends (update tree place (some (.file content))) := by
  intro path file bytes h
  obtain ⟨hlead, hfile⟩ := getNode_eq_some.1 h
  have hlead' := (lead_update hown content linkBound path).trans hlead
  by_cases hplace : file = place
  · subst hplace
    exact ⟨content, getNode_eq_some.2 ⟨hlead', fileAt_update_self tree file content⟩⟩
  · refine ⟨bytes, getNode_eq_some.2 ⟨hlead', ?_⟩⟩
    rw [fileAt_update_of_ne hplace, hfile]

end Tree

/-! ## An open file and its description -/

/-- An open file and the description of the file its path leads to. -/
structure Opened (tree : Tree Path) (file : OpenFile Path) (d : Description Path) : Prop where
  flags : file.flags = d.flags
  leads : ∃ content, tree.getNode file.path = .ok (some (d.file, content))
  offset : file.flags.append = false → file.position = d.offset

/-- What two tables hold for a descriptor. -/
inductive Paired (tree : Tree Path) : Option (OpenFile Path) → Option (Description Path) → Prop
  | none : Paired tree none none
  | some {file : OpenFile Path} {d : Description Path} (h : Opened tree file d) :
      Paired tree (some file) (some d)

/-- The binding and the reference are in step. -/
structure Agrees (s : Engine Path) (n : Posix Path) : Prop where
  tree : s.tree = n.tree
  nextFd : s.nextFd = n.nextFd
  paired : ∀ fd, Paired s.tree (s.openFiles fd) (n.descriptions fd)

/-- Two results are alike: what they answer, but for which error, and that they leave
the two in step. -/
def Alike {α : Type} (r : Except Code α × Engine Path) (q : Except Code α × Posix Path) : Prop :=
  r.1.toOption = q.1.toOption ∧ Agrees r.2 q.2

theorem Alike.map {α β : Type} {r : Except Code α × Engine Path} {q : Except Code α × Posix Path}
    (h : Alike r q) (f : α → β) : Alike (r.1.map f, r.2) (q.1.map f, q.2) := by
  obtain ⟨hanswer, hagrees⟩ := h
  refine ⟨?_, hagrees⟩
  obtain ⟨r1, r2⟩ := r
  obtain ⟨q1, q2⟩ := q
  cases r1 with
  | error e =>
      cases q1 with
      | error e' => rfl
      | ok b => cases hanswer
  | ok a =>
      cases q1 with
      | error e' => cases hanswer
      | ok b => exact congrArg (Option.map f) hanswer

variable {s : Engine Path} {n : Posix Path}

theorem Agrees.failed {α : Type} (h : Agrees s n) (e e' : Code) :
    Alike (Except.error e, s) ((Except.error e', n) : Except Code α × Posix Path) :=
  ⟨rfl, h⟩

theorem Agrees.with_tree (h : Agrees s n) : { n with tree := s.tree } = n := by
  rw [h.tree]

theorem Agrees.open_or_not (h : Agrees s n) (fd : ℕ) :
    s.openFiles fd = none ∧ n.descriptions fd = none ∨
      ∃ file d, s.openFiles fd = some file ∧ n.descriptions fd = some d ∧
        Opened s.tree file d := by
  have hpaired := h.paired fd
  generalize s.openFiles fd = o at hpaired
  generalize n.descriptions fd = o' at hpaired
  cases hpaired with
  | none => exact .inl ⟨rfl, rfl⟩
  | some ho => exact .inr ⟨_, _, rfl, rfl, ho⟩

variable {file : OpenFile Path} {d : Description Path}

theorem Agrees.content (h : Agrees s n) (ho : Opened s.tree file d) :
    s.tree.getNode file.path = .ok (some (d.file, n.content d)) ∧
      s.tree.fileAt d.file = some (n.content d) := by
  obtain ⟨content, hget⟩ := ho.leads
  have hfile := (Tree.getNode_eq_some.1 hget).2
  have hcontent : n.content d = content := by
    rw [Posix.content, ← h.tree, hfile]
    rfl
  rw [hcontent]
  exact ⟨hget, hfile⟩

variable {tree : Tree Path}

theorem Opened.extends {tree' : Tree Path} (h : Opened tree file d)
    (he : tree.Extends tree') : Opened tree' file d := by
  obtain ⟨content, hget⟩ := h.leads
  exact ⟨h.flags, he _ _ _ hget, h.offset⟩

theorem Paired.extends {tree' : Tree Path} {o : Option (OpenFile Path)}
    {o' : Option (Description Path)} (h : Paired tree o o') (he : tree.Extends tree') :
    Paired tree' o o' := by
  cases h with
  | none => exact .none
  | some h => exact .some (h.extends he)

theorem Agrees.set (h : Agrees s n) (he : s.tree.Extends tree) (fd : ℕ) (ho : Opened tree file d) :
    Agrees ({ s with tree := tree }.setFile fd file)
      ({ n with tree := tree }.setDescription fd d) := by
  refine ⟨rfl, h.nextFd, ?_⟩
  intro other
  by_cases hfd : other = fd
  · subst hfd
    simp only [Engine.setFile, Posix.setDescription, update_self]
    exact .some ho
  · simp only [Engine.setFile, Posix.setDescription, update_of_ne hfd]
    exact (h.paired other).extends he

theorem Agrees.put (h : Agrees s n) (fd : ℕ) (ho : Opened s.tree file d) :
    Agrees (s.setFile fd file) (n.setDescription fd d) := by
  have hset := h.set (Tree.Extends.refl s.tree) fd ho
  rwa [h.with_tree] at hset

variable {path : Path} {content : List UInt8} {flags : Flags}

theorem Agrees.allocate (h : Agrees s n) (he : s.tree.Extends tree) {file : Path}
    (hget : tree.getNode path = .ok (some (file, content))) {position : ℕ}
    (hposition : flags.append = false → position = 0) :
    Alike (s.allocate tree path flags position) ({ n with tree := tree }.allocate file flags) := by
  refine ⟨by rw [Engine.allocate, Posix.allocate, h.nextFd], rfl, congrArg (· + 1) h.nextFd, ?_⟩
  intro fd
  simp only [Engine.allocate, Posix.allocate, h.nextFd]
  by_cases hfd : fd = n.nextFd
  · subst hfd
    simp only [update_self]
    exact .some ⟨rfl, ⟨content, hget⟩, hposition⟩
  · simp only [update_of_ne hfd]
    exact (h.paired fd).extends he

/-! ## The calls -/

variable [DecidableEq Path]

theorem Agrees.openFile (h : Agrees s n) (parent : Path → Option Code)
    (hsuits : OpenSuits s.tree path flags) :
    Alike (s.openFile parent path flags) (n.openFile parent path flags) := by
  have made (hown : s.tree.Own path) :
      Alike (s.allocate (s.tree.writeFileSync path []) path flags 0)
        ((n.setContent path []).allocate path flags) := by
    have hget : Tree.getNode (s.tree.writeFileSync path []) path = .ok (some (path, [])) :=
      Tree.getNode_eq_some.2 ⟨(Tree.lead_update hown [] _ path).trans hown.lead,
        Tree.fileAt_update_self _ _ _⟩
    rw [Posix.setContent, ← h.tree]
    exact h.allocate (Tree.extends_update hown []) hget fun _ => rfl
  cases hlead : s.tree.lead linkBound path with
  | none =>
      have hget : s.tree.getNode path = .error .ELOOP := by rw [Tree.getNode, hlead]
      rw [Engine.openFile, hget, Posix.openFile, ← h.tree, hlead]
      exact h.failed _ _
  | some place =>
      have hget := Tree.getNode_of_lead hlead
      have here (hown : s.tree.Own path) : place = path :=
        Option.some.inj (hlead.symm.trans hown.lead)
      cases hfile : s.tree.fileAt place with
      | none =>
          rw [hfile, map_none] at hget
          simp only [Engine.openFile, hget, Posix.openFile, ← h.tree, hlead, hfile]
          split
          · next hcreate =>
              cases parent path with
              | some e => exact h.failed _ _
              | none =>
                  have hown := hsuits (.inl ⟨hcreate, hget⟩)
                  rw [here hown]
                  exact made hown
          · exact h.failed _ _
      | some content =>
          rw [hfile, map_some] at hget
          simp only [Engine.openFile, hget, Posix.openFile, ← h.tree, hlead, hfile]
          split
          · exact h.failed _ _
          · split
            · next htruncate =>
                have hown := hsuits (.inr htruncate)
                rw [here hown]
                exact made hown
            · have hposition : flags.append = false →
                  (if flags.append then content.length else 0) = 0 := by
                intro happend
                rw [happend]
                rfl
              have hallocate := h.allocate (Tree.Extends.refl _) hget hposition
              rwa [h.with_tree] at hallocate

omit [DecidableEq Path] in
theorem Agrees.close (h : Agrees s n) (fd : ℕ) : Alike (s.close fd) (n.close fd) := by
  obtain ⟨hfile, hd⟩ | ⟨file, d, hfile, hd, -⟩ := h.open_or_not fd
  · rw [Engine.close, Posix.close, hfile, hd]
    exact h.failed _ _
  · rw [Engine.close, Posix.close, hfile, hd]
    refine ⟨rfl, h.tree, h.nextFd, ?_⟩
    intro other
    by_cases hfd : other = fd
    · subst hfd
      simp only [update_self]
      exact .none
    · simp only [update_of_ne hfd]
      exact h.paired other

omit [DecidableEq Path] in
theorem held_of_current (hcurrent : Current s.tree file)
    (hread : s.tree.readFileSync file.path = .ok content) : s.held file = .ok content := by
  unfold Engine.held
  cases hcached : file.cached with
  | none => exact hread
  | some bytes => exact (hcurrent bytes hcached).symm.trans hread

omit [DecidableEq Path] in
theorem Agrees.read (h : Agrees s n) (fd length : ℕ) (position : Option ℕ)
    (hsuits : ReadSuits s n fd position) :
    Alike (s.read fd length position) (n.read fd length position) := by
  obtain ⟨hfile, hd⟩ | ⟨file, d, hfile, hd, ho⟩ := h.open_or_not fd
  · rw [Engine.read, Posix.read, hfile, hd]
    exact h.failed _ _
  · simp only [Engine.read, Posix.read, hfile, hd, ho.flags]
    by_cases haccess : d.flags.access = 1
    · simp only [haccess, if_true]
      exact h.failed _ _
    · obtain ⟨hcurrent, hposition⟩ := hsuits file d hfile hd (by rwa [ho.flags])
      obtain ⟨hget, -⟩ := h.content ho
      have hheld := held_of_current hcurrent (Tree.readFileSync_of_getNode hget)
      have hstart : position.getD file.position = position.getD d.offset := by
        cases position with
        | none => exact hposition rfl
        | some p => rfl
      simp only [if_neg haccess, hheld, hstart]
      refine ⟨rfl, h.put fd ⟨rfl, ho.leads, ?_⟩⟩
      intro happend
      rw [ho.offset (by rwa [ho.flags])]

omit [DecidableEq Path] in
theorem Agrees.fstat (h : Agrees s n) (fd : ℕ) : (s.fstat fd).toOption = (n.fstat fd).toOption := by
  obtain ⟨hfile, hd⟩ | ⟨file, d, hfile, hd, ho⟩ := h.open_or_not fd
  · rw [Engine.fstat, Posix.fstat, hfile, hd]
  · simp only [Engine.fstat, Posix.fstat, hfile, hd,
      Tree.readFileSync_of_getNode (h.content ho).1]
    rfl

omit [DecidableEq Path] in
theorem Agrees.readFileUtf8 (h : Agrees s n) (fd : ℕ)
    (hsuits : ReadSuits s n fd none) : Alike (s.readFileUtf8 fd) (n.readFileUtf8 fd) := by
  have hsize := h.fstat fd
  rw [Engine.readFileUtf8, Posix.readFileUtf8]
  cases hs : s.fstat fd with
  | error e =>
      cases hn : n.fstat fd with
      | error e' => exact h.failed _ _
      | ok size => rw [hs, hn] at hsize; cases hsize
  | ok size =>
      cases hn : n.fstat fd with
      | error e' => rw [hs, hn] at hsize; cases hsize
      | ok size' =>
          rw [hs, hn] at hsize
          obtain rfl := Option.some.inj hsize
          exact h.read fd size none hsuits

/-! ## Writes -/

theorem writtenAt_length (content bytes : List UInt8) :
    writtenAt content bytes content.length = content ++ bytes := by
  simp [writtenAt]

def Tree.written (tree : Tree Path) (place : Path) (content bytes : List UInt8) (start : ℕ) :
    Tree Path :=
  if bytes = [] then tree
  else update tree place (some (.file (writtenAt content bytes start)))

variable {place : Path}

theorem Tree.extends_written (hfile : tree.fileAt place = some content) (bytes : List UInt8)
    (start : ℕ) : tree.Extends (tree.written place content bytes start) := by
  unfold Tree.written
  split
  · exact Tree.Extends.refl tree
  · exact Tree.extends_update (Tree.own_of_fileAt hfile) _

theorem Tree.appendFileSync_eq (hget : tree.getNode path = .ok (some (place, content)))
    (bytes : List UInt8) :
    tree.appendFileSync path bytes = .ok (tree.written place content bytes content.length) := by
  simp only [Tree.appendFileSync, hget, Tree.written, writtenAt_length]
  split
  · next hbytes =>
      rw [hbytes, List.append_nil, Tree.update_eq_self (Tree.getNode_eq_some.1 hget).2]
  · rfl

theorem Tree.writeAtSync_eq (hget : tree.getNode path = .ok (some (place, content)))
    (bytes : List UInt8) (start : ℕ) :
    tree.writeAtSync path bytes start = .ok (tree.written place content bytes start) := by
  simp only [Tree.writeAtSync, hget, Tree.written]
  split <;> rfl

theorem Agrees.with_written (h : Agrees s n) (d : Description Path) (bytes : List UInt8)
    (start : ℕ) : (if bytes = [] then n
      else n.setContent d.file (writtenAt (n.content d) bytes start)) =
      { n with tree := s.tree.written d.file (n.content d) bytes start } := by
  rw [Tree.written, h.tree]
  split <;> rfl

omit [DecidableEq Path] in
/-- The length a descriptor takes its file to have: its copy's, or the file's. -/
theorem Agrees.heldLength (h : Agrees s n) (ho : Opened s.tree file d) :
    ∃ length, s.heldLength file = .ok length ∧
      ((∃ bytes, file.cached = some bytes ∧ length = bytes.length) ∨
        length = (n.content d).length) := by
  obtain ⟨hget, -⟩ := h.content ho
  cases hcached : file.cached with
  | some bytes => exact ⟨bytes.length, by rw [Engine.heldLength, hcached], .inl ⟨bytes, rfl, rfl⟩⟩
  | none => exact ⟨_, by rw [Engine.heldLength, hcached, hget]; rfl, .inr rfl⟩

theorem Agrees.write (h : Agrees s n) (fd : ℕ) (bytes : List UInt8) (position : Option ℕ)
    (hsuits : WriteSuits s fd position) :
    Alike (s.write fd bytes position) (n.write fd bytes position) := by
  obtain ⟨hfile, hd⟩ | ⟨file, d, hfile, hd, ho⟩ := h.open_or_not fd
  · rw [Engine.write, Posix.write, hfile, hd]
    exact h.failed _ _
  · simp only [Engine.write, Posix.write, hfile, hd]
    rw [ho.flags]
    by_cases haccess : d.flags.access = 0
    · simp only [haccess, if_true]
      exact h.failed _ _
    · obtain ⟨hget, hcontent⟩ := h.content ho
      obtain ⟨length, hlength, hwhich⟩ := h.heldLength ho
      simp only [if_neg haccess, hlength, h.with_written]
      have hextends (start : ℕ) := Tree.extends_written hcontent bytes start
      have hleads (start : ℕ) := hextends start _ _ _ hget
      cases happend : d.flags.append with
      | true =>
          simp only [Bool.true_or, if_true, Tree.appendFileSync_eq hget]
          refine ⟨rfl, h.set (hextends _) fd ⟨rfl, hleads _, ?_⟩⟩
          intro hnot
          cases happend.symm.trans hnot
      | false =>
          have hoffset : file.position = d.offset := ho.offset (by rw [ho.flags, happend])
          rw [hoffset]
          by_cases hend : position.getD d.offset = length
          · have hlast : length = (n.content d).length := by
              obtain ⟨cached, hcached, hlen⟩ | hlen := hwhich
              · have hread := Tree.readFileSync_of_getNode hget
                have hsame := hsuits file cached _ hfile (by rwa [ho.flags])
                  (by rw [ho.flags, happend]) hcached hread
                  (by rw [hoffset, hend, hlen])
                rw [hlen, hsame]
              · exact hlen
            simp only [hend, hlast, beq_self_eq_true, Bool.or_true, if_true,
              Tree.appendFileSync_eq hget]
            exact ⟨rfl, h.set (hextends _) fd ⟨rfl, hleads _, fun _ => rfl⟩⟩
          · simp only [beq_eq_false_iff_ne.2 hend, Bool.or_self, Bool.false_eq_true, if_false,
              Tree.writeAtSync_eq hget]
            exact ⟨rfl, h.set (hextends _) fd ⟨rfl, hleads _, fun _ => rfl⟩⟩

theorem Agrees.ftruncate (h : Agrees s n) (fd length : ℕ)
    (hsuits : TruncateSuits s fd) : Alike (s.ftruncate fd length) (n.ftruncate fd length) := by
  obtain ⟨hfile, hd⟩ | ⟨file, d, hfile, hd, ho⟩ := h.open_or_not fd
  · rw [Engine.ftruncate, Posix.ftruncate, hfile, hd]
    exact h.failed _ _
  · simp only [Engine.ftruncate, Posix.ftruncate, hfile, hd]
    rw [ho.flags]
    by_cases haccess : d.flags.access = 0
    · simp only [haccess, if_true]
      exact h.failed _ _
    · obtain ⟨hcurrent, hown⟩ := hsuits file hfile (by rwa [ho.flags])
      obtain ⟨hget, hcontent⟩ := h.content ho
      have hheld := held_of_current hcurrent (Tree.readFileSync_of_getNode hget)
      have hplace : d.file = file.path :=
        Option.some.inj ((Tree.getNode_eq_some.1 hget).1.symm.trans hown.lead)
      simp only [if_neg haccess, hheld]
      have hextends := Tree.extends_update hown (Engine.resized (n.content d) length)
      have hset := h.set hextends fd
        (⟨ho.flags, hextends _ _ _ hget, ho.offset⟩ : Opened _ { file with
          cached := some (Engine.resized (n.content d) length) } d)
      have hsame : update n.descriptions fd (some d) = n.descriptions := by
        rw [← hd, update_eq_self]
      refine ⟨rfl, ?_⟩
      rw [Posix.setContent, ← h.tree, hplace]
      rw [Posix.setDescription, hsame] at hset
      rw [← ho.flags]
      exact hset

variable {fd : ℕ}

omit [DecidableEq Path] in
/-- A file that was just opened has no copy yet, and is at the beginning or, for
`O_APPEND`, at the end. -/
theorem openFiles_of_allocate {position : ℕ} {s' : Engine Path}
    (h : s.allocate tree path flags position = (.ok fd, s')) :
    s'.openFiles fd = some { path := path, flags := flags, position := position } := by
  obtain ⟨hfd, rfl⟩ := Prod.mk.inj h
  obtain rfl := Except.ok.inj hfd
  exact update_self _ _ _

theorem openFiles_of_openFile {parent : Path → Option Code} {s' : Engine Path}
    (h : s.openFile parent path flags = (.ok fd, s')) :
    ∃ position, s'.openFiles fd = some { path := path, flags := flags, position := position } ∧
      (StartSuits s.tree path flags → position = 0) := by
  unfold Engine.openFile at h
  split at h
  · cases h
  · split at h
    · split at h
      · cases h
      · exact ⟨0, openFiles_of_allocate h, fun _ => rfl⟩
    · cases h
  · next place content hget =>
      split at h
      · cases h
      · split at h
        · exact ⟨0, openFiles_of_allocate h, fun _ => rfl⟩
        · next htruncate =>
            refine ⟨_, openFiles_of_allocate h, ?_⟩
            intro hstart
            split
            · next happend =>
                rw [hstart happend (by simpa using htruncate) content
                  (Tree.readFileSync_of_getNode hget), List.length_nil]
            · rfl

omit [DecidableEq Path] in
theorem descriptions_of_allocate {file : Path} {n' : Posix Path}
    (h : n.allocate file flags = (.ok fd, n')) :
    n'.descriptions fd = some { file := file, flags := flags, offset := 0 } := by
  obtain ⟨hfd, rfl⟩ := Prod.mk.inj h
  obtain rfl := Except.ok.inj hfd
  exact update_self _ _ _

theorem descriptions_of_openFile {parent : Path → Option Code} {n' : Posix Path}
    (h : n.openFile parent path flags = (.ok fd, n')) :
    ∃ file, n'.descriptions fd = some { file := file, flags := flags, offset := 0 } := by
  unfold Posix.openFile at h
  split at h
  · cases h
  · split at h
    · split at h
      · split at h
        · cases h
        · exact ⟨_, descriptions_of_allocate h⟩
      · cases h
    · split at h
      · cases h
      · split at h
        · exact ⟨_, descriptions_of_allocate h⟩
        · exact ⟨_, descriptions_of_allocate h⟩

omit [DecidableEq Path] in
theorem Alike.failed_or_opened {r : Except Code ℕ × Engine Path}
    {q : Except Code ℕ × Posix Path} (h : Alike r q) :
    (∃ e e' s n, r = (.error e, s) ∧ q = (.error e', n) ∧ Agrees s n) ∨
      ∃ fd s n, r = (.ok fd, s) ∧ q = (.ok fd, n) ∧ Agrees s n := by
  obtain ⟨hanswer, hagrees⟩ := h
  obtain ⟨r1, s⟩ := r
  obtain ⟨q1, n⟩ := q
  cases r1 with
  | error e =>
      cases q1 with
      | error e' => exact .inl ⟨e, e', s, n, rfl, rfl, hagrees⟩
      | ok fd => cases hanswer
  | ok fd =>
      cases q1 with
      | error e' => cases hanswer
      | ok fd' =>
          obtain rfl := Option.some.inj hanswer
          exact .inr ⟨fd, s, n, rfl, rfl, hagrees⟩

theorem Agrees.readPathUtf8 (h : Agrees s n) (parent : Path → Option Code)
    (hopen : OpenSuits s.tree path flags) (hstart : StartSuits s.tree path flags) :
    Alike (s.readPathUtf8 parent path flags) (n.readPathUtf8 parent path flags) := by
  obtain ⟨e, e', s', n', hs, hn, hagrees⟩ | ⟨fd, s', n', hs, hn, hagrees⟩ :=
    (h.openFile parent hopen).failed_or_opened
  · rw [Engine.readPathUtf8, Posix.readPathUtf8, hs, hn]
    exact hagrees.failed _ _
  · have hsuits : ReadSuits s' n' fd none := by
      intro file d hfile hd _
      obtain ⟨position, hopened, hposition⟩ := openFiles_of_openFile hs
      obtain ⟨place, hdescription⟩ := descriptions_of_openFile hn
      obtain rfl := Option.some.inj (hopened.symm.trans hfile)
      obtain rfl := Option.some.inj (hdescription.symm.trans hd)
      exact ⟨nofun, fun _ => hposition hstart⟩
    obtain ⟨hanswer, hread⟩ := hagrees.readFileUtf8 fd hsuits
    rw [Engine.readPathUtf8, Posix.readPathUtf8, hs, hn]
    exact ⟨hanswer, (hread.close fd).2⟩

theorem Agrees.writePathUtf8 (h : Agrees s n) (parent : Path → Option Code) (bytes : List UInt8)
    (hopen : OpenSuits s.tree path flags) :
    Alike (s.writePathUtf8 parent path flags bytes) (n.writePathUtf8 parent path flags bytes) := by
  obtain ⟨e, e', s', n', hs, hn, hagrees⟩ | ⟨fd, s', n', hs, hn, hagrees⟩ :=
    (h.openFile parent hopen).failed_or_opened
  · rw [Engine.writePathUtf8, Posix.writePathUtf8, hs, hn]
    exact hagrees.failed _ _
  · have hsuits : WriteSuits s' fd none := by
      intro file cached content hfile _ _ hcached
      obtain ⟨position, hopened, -⟩ := openFiles_of_openFile hs
      obtain rfl := Option.some.inj (hopened.symm.trans hfile)
      cases hcached
    obtain ⟨hanswer, hwrite⟩ := hagrees.write fd bytes none hsuits
    rw [Engine.writePathUtf8, Posix.writePathUtf8, hs, hn]
    exact ⟨hanswer, (hwrite.close fd).2⟩

theorem Agrees.setContent (h : Agrees s n) (hown : s.tree.Own place) (content : List UInt8) :
    Agrees { s with tree := update s.tree place (some (.file content)) }
      (n.setContent place content) := by
  refine ⟨by rw [Posix.setContent, h.tree], h.nextFd, ?_⟩
  intro fd
  exact (h.paired fd).extends (Tree.extends_update hown content)

theorem Agrees.writeFileSync (h : Agrees s n) (hown : s.tree.Own path) (data : List UInt8) :
    Alike ((.ok (), { s with tree := s.tree.writeFileSync path data }) :
      Except Code Unit × Engine Path) (n.update path fun _ => data) := by
  rw [Posix.update, ← h.tree, hown.lead]
  exact ⟨rfl, h.setContent hown data⟩

theorem Agrees.appendFileSync (h : Agrees s n)
    (hsuits : s.tree.getNode path = .ok none → s.tree.Own path) (data : List UInt8) : Alike
      (match s.tree.appendFileSync path data with
        | .error e => (.error e, s)
        | .ok tree => (.ok (), { s with tree := tree }))
      (n.update path fun content => content ++ data) := by
  cases hlead : s.tree.lead linkBound path with
  | none =>
      have hget : s.tree.getNode path = .error .ELOOP := by rw [Tree.getNode, hlead]
      rw [Posix.update, ← h.tree, hlead, Tree.appendFileSync, hget]
      exact h.failed _ _
  | some place =>
      have hget := Tree.getNode_of_lead hlead
      cases hfile : s.tree.fileAt place with
      | none =>
          rw [hfile, map_none] at hget
          have hown := hsuits hget
          obtain rfl : place = path := Option.some.inj (hlead.symm.trans hown.lead)
          simp only [Posix.update, ← h.tree, hlead, Tree.appendFileSync, hget, hfile,
            Tree.writeFileSync, getD_none, List.nil_append]
          exact ⟨rfl, h.setContent hown data⟩
      | some content =>
          rw [hfile, map_some] at hget
          simp only [Posix.update, ← h.tree, hlead, Tree.appendFileSync, hget, hfile,
            getD_some]
          exact ⟨rfl, h.setContent (Tree.own_of_fileAt hfile) _⟩

/-- A call that suits answers what the reference answers, and leaves the two in step. -/
theorem Agrees.perform (h : Agrees s n) (parent : Path → Option Code) {op : Op Path}
    (hsuits : Suits s n op) : Alike (s.perform parent op) (n.perform parent op) := by
  cases op with
  | «open» path flags => exact (h.openFile parent hsuits).map _
  | close fd => exact (h.close fd).map _
  | read fd length position => exact (h.read fd length position hsuits).map _
  | write fd bytes position => exact (h.write fd bytes position hsuits).map _
  | ftruncate fd length => exact (h.ftruncate fd length hsuits).map _
  | fstat fd =>
      have hfstat : Alike (s.fstat fd, s) (n.fstat fd, n) := ⟨h.fstat fd, h⟩
      exact hfstat.map _
  | readFileUtf8 fd => exact (h.readFileUtf8 fd hsuits).map _
  | readPathUtf8 path flags => exact (h.readPathUtf8 parent hsuits.1 hsuits.2).map _
  | writeFileUtf8 fd bytes => exact (h.write fd bytes none hsuits).map _
  | writePathUtf8 path flags bytes => exact (h.writePathUtf8 parent bytes hsuits).map _
  | writeFileSync path data => exact (h.writeFileSync hsuits data).map fun _ => Answer.done
  | appendFileSync path data =>
      have happend := (h.appendFileSync hsuits data).map fun _ => Answer.done
      rw [Engine.perform]
      cases hresult : s.tree.appendFileSync path data with
      | error _ | ok _ => rwa [hresult] at happend

/-- Calls that suit are answered alike, and leave the two in step. -/
theorem Agrees.performAll (parent : Path → Option Code) :
    ∀ {ops : List (Op Path)} {s : Engine Path} {n : Posix Path}, Agrees s n →
      AllSuit parent s n ops →
        (s.performAll parent ops).1.map Except.toOption =
            (n.performAll parent ops).1.map Except.toOption ∧
          Agrees (s.performAll parent ops).2 (n.performAll parent ops).2
  | [], _, _, h, _ => ⟨rfl, h⟩
  | op :: ops, s, n, h, ⟨hsuits, hrest⟩ => by
      obtain ⟨hanswer, hagrees⟩ := h.perform parent hsuits
      obtain ⟨hanswers, hlast⟩ := Agrees.performAll parent hagrees hrest
      refine ⟨?_, hlast⟩
      rw [Engine.performAll, Posix.performAll, List.map_cons, List.map_cons, hanswer, hanswers]

omit [DecidableEq Path] in
theorem agrees_new (tree : Tree Path) (nextFd : ℕ) :
    Agrees (Engine.new tree nextFd) (Posix.new tree nextFd) :=
  ⟨rfl, rfl, fun _ => .none⟩

/-! ## Every interleaving -/

end OpenFiles

end Tabnode
