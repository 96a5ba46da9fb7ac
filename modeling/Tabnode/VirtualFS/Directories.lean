import Tabnode.VirtualFS.Operations

/-!
# Where `ensureDirectory` ends, and what it makes

`destination` is the walk of `ensureDirectory` without its edits: the directory
it ends below and the names still missing there. Once a name is missing, every
later one is, so the method first walks and then makes (`ensureDirectory_run`).
`withDirectories` is the tree it makes.
-/

namespace Tabnode

namespace VirtualFS

/-- The loop of `ensureDirectory`, stopped where it would make a directory. -/
def destinationFrom (root : FSNode) (path : Str)
    (again : Str → Except FsError (Place × List Name)) :
    List Name → List Name → Except FsError (Place × List Name)
  | names, [] => .ok (names, [])
  | names, segment :: rest =>
      match root.get? (names ++ [segment]) with
      | none => .ok (names, segment :: rest)
      | some child =>
          match child.label.kind with
          | .symlink target =>
              again (afterLink
                (substrateLinkTarget (absolute (names ++ [segment])) target) rest)
          | .file _ => .error (.plain "ENOTDIR: not a directory" path)
          | .directory => destinationFrom root path again (names ++ [segment]) rest

/-- The directory `ensureDirectory` ends below, and the names it makes there. -/
def destination (root : FSNode) : ℕ → Str → Except FsError (Place × List Name)
  | 0, _ => .error .rangeError
  | stack + 1, path =>
      destinationFrom root path (destination root stack) [] (getPathSegments path)

def makeDirectories (env : Env) : Place → List Name → Fs Place
  | base, [] => pure base
  | base, name :: rest => do
      edit fun root => root.put base name (newDirectory env.now)
      emitChanged env (absolute (base ++ [name]))
      makeDirectories env (base ++ [name]) rest

def withDirectories (now : JsNumber) (root : FSNode) : Place → List Name → FSNode
  | _, [] => root
  | base, name :: rest =>
      withDirectories now (root.put base name (newDirectory now)) (base ++ [name]) rest

/-! ## The walk and the making -/

@[simp] theorem run_edit (f : FSNode → FSNode) (s : State) :
    (edit f).run s = (.ok (), { s with root := f s.root }) := rfl

/-- An emitted event leaves the tree as it is and throws nothing. -/
theorem run_emit (env : Env) (event : Event) (s : State) :
    (emit env event).run s =
      (.ok (), { s with
        events := if env.hears event then s.events ++ [event] else s.events }) := by
  rw [emit]
  split <;> rfl

def changeEvent (root : FSNode) (path : Str) : Except FsError Event :=
  match lstatNode root path with
  | .ok node => .ok (.change path ((node.bind fun n => n.kind.content?).getD []))
  | .error e => .error e

theorem run_emitChanged (env : Env) (path : Str) (s : State) :
    (emitChanged env path).run s =
      if env.changeListened then
        match changeEvent s.root path with
        | .ok event => (.ok (), { s with events := s.events ++ [event] })
        | .error e => (.error e, s)
      else (.ok (), s) := by
  rw [emitChanged]
  split
  · next h =>
      rw [Effect.run_get_bind, changeEvent]
      cases lstatNode s.root path with
      | error e => rfl
      | ok node =>
          rw [Effect.run_lift_ok_bind, run_emit]
          simp [Env.hears, h]
  · rfl

@[simp] theorem root_emitChanged (env : Env) (path : Str) (s : State) :
    ((emitChanged env path).run s).2.root = s.root := by
  rw [run_emitChanged]
  split
  · cases changeEvent s.root path <;> rfl
  · rfl

variable {names rest : List Name} {d : FSNode}

theorem ensureFrom_eq_makeDirectories (env : Env) (path : Str) (again : Str → Fs Place) {s : State}
    (hd : s.root.get? names = some d) (hrest : ∀ name ∈ rest.head?, d.child? name = none) :
    (ensureFrom env path again names rest).run s =
      (makeDirectories env names rest).run s := by
  induction rest generalizing names s d with
  | nil => rfl
  | cons name rest ih =>
      have hnone : s.root.get? (names ++ [name]) = none := by
        rw [LabelTree.get?_append_singleton, hd]
        exact hrest name rfl
      rw [ensureFrom, makeDirectories, Effect.run_get_bind, hnone]
      simp only [Effect.run_bind, run_edit]
      cases he : (emitChanged env (absolute (names ++ [name]))).run
          { s with root := s.root.put names name (newDirectory env.now) } with
      | mk r s' =>
          have hroot : s'.root = s.root.put names name (newDirectory env.now) := by
            have h := root_emitChanged env (absolute (names ++ [name]))
              { s with root := s.root.put names name (newDirectory env.now) }
            rw [he] at h
            exact h
          cases r with
          | error e => rfl
          | ok u =>
              have hget : s'.root.get? (names ++ [name]) = some (newDirectory env.now) := by
                rw [hroot]
                exact LabelTree.get?_put_append hd name _ []
              exact ih hget fun _ _ => rfl

/-- The loop first walks to its destination and then makes what is missing. -/
theorem ensureFrom_run (env : Env) (path : Str) {again : Str → Fs Place}
    {again' : Str → Except FsError (Place × List Name)} {s : State} (hagain : ∀ p, (again p).run s =
      match again' p with
      | .ok (base, missing) => (makeDirectories env base missing).run s
      | .error e => (.error e, s)) (hd : s.root.get? names = some d) :
    (ensureFrom env path again names rest).run s =
      match destinationFrom s.root path again' names rest with
      | .ok (base, missing) => (makeDirectories env base missing).run s
      | .error e => (.error e, s) := by
  induction rest generalizing names d with
  | nil => rfl
  | cons name rest ih =>
      cases hc : s.root.get? (names ++ [name]) with
      | none =>
          have hnone : ∀ n ∈ (name :: rest).head?, d.child? n = none := by
            intro n hn
            cases hn
            rw [LabelTree.get?_append_singleton, hd] at hc
            exact hc
          rw [ensureFrom_eq_makeDirectories env path again hd hnone,
            destinationFrom, hc]
      | some child =>
          rw [ensureFrom, destinationFrom, Effect.run_get_bind, hc]
          cases hk : child.label.kind with
          | symlink target =>
              simp only [hk]
              exact hagain _
          | file content => simp only [hk, Effect.run_throw]
          | directory =>
              simp only [hk]
              exact ih hc

/-- `ensureDirectory` first walks to its destination, following links, and then
makes what is missing there. -/
theorem ensureDirectory_run (env : Env) (stack : ℕ) (path : Str) (s : State) :
    (ensureDirectory env stack path).run s =
      match destination s.root stack path with
      | .ok (base, missing) => (makeDirectories env base missing).run s
      | .error e => (.error e, s) := by
  induction stack generalizing path with
  | zero => rfl
  | succ stack ih => exact ensureFrom_run env path ih (LabelTree.get?_nil s.root)

/-! ## What the destination is -/

/-- A directory of the tree and names still to make in it. -/
structure IsDestination (root : FSNode) (base : Place) (missing : List Name) : Prop where
  directory : ∃ d, root.get? base = some d ∧ d.label.kind = Kind.directory ∧
    ∀ name ∈ missing.head?, d.child? name = none
  valid : ∀ name ∈ base ++ missing, ValidName name

variable {root : FSNode} {base : Place} {missing : List Name}

theorem destinationFrom_spec {path : Str} {again : Str → Except FsError (Place × List Name)}
    (hagain : ∀ p base missing, again p = .ok (base, missing) →
      IsDestination root base missing) (hd : root.get? names = some d)
    (hk : d.label.kind = Kind.directory) (hv : ∀ name ∈ names ++ rest, ValidName name)
    (h : destinationFrom root path again names rest = .ok (base, missing)) :
    IsDestination root base missing := by
  induction rest generalizing names d with
  | nil =>
      cases h
      exact ⟨⟨d, hd, hk, by simp⟩, hv⟩
  | cons name rest ih =>
      rw [destinationFrom] at h
      cases hc : root.get? (names ++ [name]) with
      | none =>
          rw [hc] at h
          cases h
          refine ⟨⟨d, hd, hk, ?_⟩, hv⟩
          intro n hn
          cases hn
          rw [LabelTree.get?_append_singleton, hd] at hc
          exact hc
      | some child =>
          rw [hc] at h
          cases hck : child.label.kind with
          | symlink target =>
              simp only [hck] at h
              exact hagain _ _ _ h
          | file content =>
              simp only [hck] at h
              cases h
          | directory =>
              simp only [hck] at h
              exact ih hc hck (by simpa using hv) h

theorem destination_spec (hroot : root.label.kind = Kind.directory) {stack : ℕ} {path : Str}
    (h : destination root stack path = .ok (base, missing)) : IsDestination root base missing := by
  induction stack generalizing path base missing with
  | zero => cases h
  | succ stack ih =>
      exact destinationFrom_spec (fun _ _ _ hp => ih hp) (LabelTree.get?_nil root)
        hroot (by simpa using valid_getPathSegments path) h

/-! ## The tree that is made -/

/-- A made directory stands at each new name, and elsewhere the old nodes. -/
theorem label?_withDirectories (now : JsNumber) (hd : root.get? base = some d)
    (hmissing : ∀ name ∈ missing.head?, d.child? name = none) (q : Place) :
    (withDirectories now root base missing).label? q =
      if base <+: q ∧ q <+: base ++ missing ∧ q ≠ base then
        some (newDirectory now).label
      else root.label? q := by
  induction missing generalizing root d base with
  | nil =>
      have hno : ¬ (base <+: q ∧ q <+: base ++ [] ∧ q ≠ base) := by
        rintro ⟨h1, h2, h3⟩
        rw [List.append_nil] at h2
        exact h3 (List.IsPrefix.eq_of_length_le h1 h2.length_le).symm
      rw [if_neg hno, withDirectories]
  | cons name rest ih =>
      have hget : (root.put base name (newDirectory now)).get? (base ++ [name]) =
          some (newDirectory now) := LabelTree.get?_put_append hd name _ []
      have hnone : root.get? (base ++ [name]) = none := by
        rw [LabelTree.get?_append_singleton, hd]
        exact hmissing name rfl
      have hassoc : (base ++ [name]) ++ rest = base ++ name :: rest := by simp
      rw [withDirectories, ih hget fun _ _ => rfl, LabelTree.label?_put hd, hassoc]
      by_cases hq : base ++ [name] <+: q
      · -- at or below the first new name
        have hbq : base <+: q := (List.prefix_append base [name]).trans hq
        have hne : q ≠ base := by
          rintro rfl
          have hlen := hq.length_le
          simp at hlen
        by_cases hqn : q = base ++ [name]
        · have hpre : q <+: base ++ name :: rest := by
            rw [hqn, ← hassoc]
            exact List.prefix_append _ _
          rw [if_neg fun h => h.2.2 hqn, if_pos hq, if_pos ⟨hbq, hpre, hne⟩, hqn]
          simp [newDirectory]
        · by_cases hpre : q <+: base ++ name :: rest
          · rw [if_pos ⟨hq, hpre, hqn⟩, if_pos ⟨hbq, hpre, hne⟩]
          · have hno : ∀ P : Prop, ¬ (P ∧ q <+: base ++ name :: rest ∧ q ≠ base) :=
              fun _ h => hpre h.2.1
            have hno' : ¬ (base ++ [name] <+: q ∧ q <+: base ++ name :: rest ∧
                q ≠ base ++ [name]) := fun h => hpre h.2.1
            rw [if_neg hno', if_neg (hno (base <+: q)), if_pos hq,
              LabelTree.label?_eq_none_iff.2 (LabelTree.get?_eq_none_of_isPrefix hq hnone)]
            obtain ⟨r, rfl⟩ := hq
            cases r with
            | nil => exact absurd (List.append_nil _) hqn
            | cons n r => simp [newDirectory, LabelTree.label?, LabelTree.get?,
                LabelTree.child?]
      · -- beside it
        have hno : ¬ (base <+: q ∧ q <+: base ++ name :: rest ∧ q ≠ base) := by
          rintro ⟨⟨r, rfl⟩, h2, h3⟩
          cases r with
          | nil => exact h3 (List.append_nil base)
          | cons n r =>
              rw [List.prefix_append_right_inj, List.cons_prefix_cons] at h2
              exact hq ⟨r, by simp [h2.1]⟩
        have hno' : ¬ (base ++ [name] <+: q ∧ q <+: base ++ name :: rest ∧
            q ≠ base ++ [name]) := fun h => hq h.1
        rw [if_neg hno', if_neg hq, if_neg hno]

end VirtualFS

end Tabnode

/-!
## Where a path leads

`Leads` follows the names of a path through the tree, a link restarting it on the
path the link makes, and says at which place it comes out, be anything there or
not. The walk that makes directories comes out where its names lead
(`leads_of_destination`), whatever depth of links its call stack allows.
-/

namespace Tabnode

namespace VirtualFS

/-- From a directory reached by some names, the names that are left lead to a place. -/
inductive Leads (root : FSNode) : List Name → List Name → Place → Prop where
  | nil {names : List Name} : Leads root names [] names
  | absent {names rest : List Name} {segment : Name}
      (h : root.label? (names ++ [segment]) = none) :
      Leads root names (segment :: rest) (names ++ segment :: rest)
  | file {names : List Name} {segment : Name} {e : Entry} {content : List UInt8}
      (h : root.label? (names ++ [segment]) = some e) (hk : e.kind = .file content) :
      Leads root names [segment] (names ++ [segment])
  | directory {names rest : List Name} {segment : Name} {e : Entry} {place : Place}
      (h : root.label? (names ++ [segment]) = some e) (hk : e.kind = .directory)
      (hrest : Leads root (names ++ [segment]) rest place) :
      Leads root names (segment :: rest) place
  | link {names rest : List Name} {segment : Name} {e : Entry} {target : Str} {place : Place}
      (h : root.label? (names ++ [segment]) = some e) (hk : e.kind = .symlink target)
      (hrest : Leads root []
        (linkSegments (absolute (names ++ [segment])) target ++ rest) place) :
      Leads root names (segment :: rest) place

variable {root : FSNode} {names rest : List Name}

theorem leads_of_destinationFrom {path : Str} {again : Str → Except FsError (Place × List Name)}
    (hagain : ∀ p base missing, again p = .ok (base, missing) →
      Leads root [] (getPathSegments p) (base ++ missing)) (hv : ∀ n ∈ rest, ValidName n)
    {base : Place} {missing : List Name}
    (h : destinationFrom root path again names rest = .ok (base, missing)) :
    Leads root names rest (base ++ missing) := by
  induction rest generalizing names with
  | nil =>
      cases h
      rw [List.append_nil]
      exact .nil
  | cons segment rest ih =>
      have hrest : ∀ n ∈ rest, ValidName n := fun n hn => hv n (List.mem_cons_of_mem _ hn)
      rw [destinationFrom] at h
      cases hc : root.get? (names ++ [segment]) with
      | none =>
          rw [hc] at h
          cases h
          exact .absent (LabelTree.label?_eq_none_iff.2 hc)
      | some child =>
          rw [hc] at h
          have hlabel := LabelTree.label?_of_get? hc
          cases hk : child.label.kind with
          | file content =>
              simp only [hk] at h
              cases h
          | directory =>
              simp only [hk] at h
              exact .directory hlabel hk (ih hrest h)
          | symlink target =>
              simp only [hk] at h
              have hleads := hagain _ _ _ h
              rw [getPathSegments_afterLink hrest] at hleads
              exact .link hlabel hk hleads

theorem leads_of_destination {stack : ℕ} {path : Str} {base : Place} {missing : List Name}
    (h : destination root stack path = .ok (base, missing)) :
    Leads root [] (getPathSegments path) (base ++ missing) := by
  induction stack generalizing path base missing with
  | zero => cases h
  | succ stack ih =>
      exact leads_of_destinationFrom (fun _ _ _ hp => ih hp) (valid_getPathSegments path) h

/-! ### By what stands at the next name -/

variable {segment : Name} {place : Place}

theorem Leads.of_absent (h : Leads root names (segment :: rest) place)
    (hlabel : root.label? (names ++ [segment]) = none) : place = names ++ segment :: rest := by
  cases h with
  | absent => rfl
  | file h => simp [hlabel] at h
  | directory h => simp [hlabel] at h
  | link h => simp [hlabel] at h

variable {e : Entry}

theorem Leads.of_file {content : List UInt8} (h : Leads root names (segment :: rest) place)
    (hlabel : root.label? (names ++ [segment]) = some e) (hk : e.kind = .file content) :
    rest = [] ∧ place = names ++ [segment] := by
  cases h with
  | absent h => simp [hlabel] at h
  | file => exact ⟨rfl, rfl⟩
  | directory h hk' =>
      rw [hlabel, Option.some_inj] at h
      simp [← h, hk] at hk'
  | link h hk' =>
      rw [hlabel, Option.some_inj] at h
      simp [← h, hk] at hk'

theorem Leads.of_directory (h : Leads root names (segment :: rest) place)
    (hlabel : root.label? (names ++ [segment]) = some e) (hk : e.kind = .directory) :
    Leads root (names ++ [segment]) rest place := by
  cases h with
  | absent h => simp [hlabel] at h
  | file h hk' =>
      rw [hlabel, Option.some_inj] at h
      simp [← h, hk] at hk'
  | directory _ _ hrest => exact hrest
  | link h hk' =>
      rw [hlabel, Option.some_inj] at h
      simp [← h, hk] at hk'

theorem Leads.of_link {target : Str} (h : Leads root names (segment :: rest) place)
    (hlabel : root.label? (names ++ [segment]) = some e) (hk : e.kind = .symlink target) :
    Leads root [] (linkSegments (absolute (names ++ [segment])) target ++ rest) place := by
  cases h with
  | absent h => simp [hlabel] at h
  | file h hk' =>
      rw [hlabel, Option.some_inj] at h
      simp [← h, hk] at hk'
  | directory h hk' =>
      rw [hlabel, Option.some_inj] at h
      simp [← h, hk] at hk'
  | link h hk' hrest =>
      rw [hlabel, Option.some_inj] at h
      rw [← h, hk, Kind.symlink.injEq] at hk'
      rwa [hk']

theorem Leads.unique {place' : Place} (h : Leads root names rest place)
    (h' : Leads root names rest place') : place' = place := by
  induction h with
  | nil =>
      cases h'
      rfl
  | absent hlabel => exact h'.of_absent hlabel
  | file hlabel hk => exact (h'.of_file hlabel hk).2
  | directory hlabel hk _ ih => exact ih (h'.of_directory hlabel hk)
  | link hlabel hk _ ih => exact ih (h'.of_link hlabel hk)

/-! ### Names one after another -/

theorem Leads.after {first second : List Name} {above : Place} (h : Leads root names first above)
    (hsecond : second ≠ [])
    (hall : Leads root names (first ++ second) place) : Leads root above second place := by
  induction h with
  | nil => exact hall
  | @absent names rest segment hnone =>
      obtain ⟨c, second, rfl⟩ := List.exists_cons_of_ne_nil hsecond
      have hplace := hall.of_absent hnone
      have hassoc : names ++ segment :: (rest ++ c :: second) =
          (names ++ segment :: rest) ++ c :: second := by simp
      rw [hplace, List.append_eq, hassoc]
      refine .absent (LabelTree.label?_eq_none_iff.2 ?_)
      exact LabelTree.get?_eq_none_of_isPrefix ⟨rest ++ [c], by simp⟩
        (LabelTree.label?_eq_none_iff.1 hnone)
  | file hlabel hk => exact absurd (hall.of_file hlabel hk).1 hsecond
  | directory hlabel hk hrest ih => exact ih (hall.of_directory hlabel hk)
  | link hlabel hk hrest ih =>
      refine ih ?_
      rw [List.append_assoc]
      exact hall.of_link hlabel hk

theorem Leads.first {all : List Name} (h : Leads root names all place) {first second : List Name}
    (hall : all = first ++ second) : ∃ above, Leads root names first above := by
  induction h generalizing first with
  | @nil names =>
      obtain ⟨rfl, -⟩ := List.append_eq_nil_iff.1 hall.symm
      exact ⟨names, .nil⟩
  | @absent names rest segment hnone =>
      cases first with
      | nil => exact ⟨names, .nil⟩
      | cons c first =>
          cases hall
          exact ⟨_, .absent hnone⟩
  | @file names segment e content hlabel hk =>
      cases first with
      | nil => exact ⟨names, .nil⟩
      | cons c first =>
          obtain ⟨rfl, hnil⟩ := List.cons.inj hall
          obtain ⟨rfl, -⟩ := List.append_eq_nil_iff.1 hnil.symm
          exact ⟨_, .file hlabel hk⟩
  | @directory names rest segment e place hlabel hk hrest ih =>
      cases first with
      | nil => exact ⟨names, .nil⟩
      | cons c first =>
          obtain ⟨rfl, hrest⟩ := List.cons.inj hall
          obtain ⟨above, habove⟩ := ih hrest
          exact ⟨above, .directory hlabel hk habove⟩
  | @link names rest segment e target place hlabel hk hrest ih =>
      cases first with
      | nil => exact ⟨names, .nil⟩
      | cons c first =>
          obtain ⟨rfl, hrest⟩ := List.cons.inj hall
          obtain ⟨above, habove⟩ :=
            @ih (linkSegments (absolute (names ++ [segment])) target ++ first)
              (by rw [hrest, List.append_assoc, List.append_eq])
          exact ⟨above, .link hlabel hk habove⟩

theorem Leads.eq_append (h : Leads root names rest place)
    (hlinks : ∀ q e, names <+: q → root.label? q = some e → e.kind.target? = none) :
    place = names ++ rest := by
  induction h with
  | nil => rw [List.append_nil]
  | absent => rfl
  | file => rfl
  | @directory names rest segment e place hlabel hk hrest ih =>
      rw [ih fun q e hq => hlinks q e ((List.prefix_append names [segment]).trans hq)]
      simp
  | @link names rest segment e target place hlabel hk hrest ih =>
      have hnone := hlinks _ e (List.prefix_append names [segment]) hlabel
      rw [hk] at hnone
      cases hnone

end VirtualFS

end Tabnode
