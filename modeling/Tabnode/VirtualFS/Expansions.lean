import Tabnode.VirtualFS.Invariant
import Tabnode.VirtualFS.Lookup

/-!
# Links followed on the way to a directory

A lookup gives up after forty links. `ensureDirectory` starts again at each link with no
count of its own, so only the call stack ends a cycle of them, and where the links come to
an end it goes on past the limit a lookup has. `Comes` counts the links on the way, and
`bounded_iff` says that an overlong way is all that sets the two apart.
-/

namespace Tabnode

namespace VirtualFS

/-- From a directory reached by some names, the names that are left come to an end after a
number of links: at a directory, with the names that are missing there. -/
inductive Comes (root : FSNode) : ℕ → List Name → List Name → Place → List Name → Prop where
  | nil {names : List Name} : Comes root 0 names [] names []
  | absent {names rest : List Name} {segment : Name}
      (h : root.label? (names ++ [segment]) = none) :
      Comes root 0 names (segment :: rest) names (segment :: rest)
  | directory {n : ℕ} {names rest missing : List Name} {segment : Name} {e : Entry}
      {base : Place} (h : root.label? (names ++ [segment]) = some e)
      (hk : e.kind = .directory) (hrest : Comes root n (names ++ [segment]) rest base missing) :
      Comes root n names (segment :: rest) base missing
  | link {n : ℕ} {names rest missing : List Name} {segment : Name} {e : Entry} {target : Str}
      {base : Place} (h : root.label? (names ++ [segment]) = some e)
      (hk : e.kind = .symlink target)
      (hrest : Comes root n []
        (linkSegments (absolute (names ++ [segment])) target ++ rest) base missing) :
      Comes root (n + 1) names (segment :: rest) base missing

/-- The links the loop of `ensureDirectory` follows: none, or one and those on the path
that it makes. -/
def followedFrom (root : FSNode) (again : Str → ℕ) : List Name → List Name → ℕ
  | _, [] => 0
  | names, segment :: rest =>
      match root.get? (names ++ [segment]) with
      | none => 0
      | some child =>
          match child.label.kind with
          | .symlink target =>
              again (afterLink (substrateLinkTarget (absolute (names ++ [segment])) target) rest) + 1
          | .file _ => 0
          | .directory => followedFrom root again (names ++ [segment]) rest

/-- The links `ensureDirectory` follows, with so many calls of it on the stack. -/
def followed (root : FSNode) : ℕ → Str → ℕ
  | 0, _ => 0
  | stack + 1, path => followedFrom root (followed root stack) [] (getPathSegments path)

/-- The methods that make the directories of a path, as `ensureDirectory` does. -/
inductive Call.Ensures (path : Str) : Call → Prop where
  | writeFile {p : Str} (hp : getParentPath (normalizePath p) = path) (data : List UInt8) :
      Call.Ensures path (.writeFile p data)
  | mkdir {p : Str} (hp : normalizePath p = path) : Call.Ensures path (.mkdir p true)
  | rename (oldPath : Str) {p : Str} (hp : getParentPath (normalizePath p) = path) :
      Call.Ensures path (.rename oldPath p)
  | mount {p : Str} (hp : getParentPath (normalizePath p) = path) (tree : MountedTree) :
      Call.Ensures path (.mount p tree)

/-- What is promised of directory creation at a path: it ends, with a directory or an
error, after no more links than the stack has calls for; and where a lookup of the path
answers ELOOP, it throws, and so does each method that makes the path's directories. -/
structure Bounded (env : Env) (path : Str) (s : State) : Prop where
  links : followed s.root env.stack path ≤ env.stack
  answered : (∃ place s', (ensureDirectory env env.stack path).run s = (.ok place, s') ∧
      ∃ d, s'.root.get? place = some d ∧ d.label.kind = .directory) ∨
    ∃ e s', (ensureDirectory env env.stack path).run s = (.error e, s')
  refused : Throws (getNode s.root path) .ELOOP →
    ∃ e s', (ensureDirectory env env.stack path).run s = (.error e, s')
  writes : Throws (getNode s.root path) .ELOOP → ∀ c, Call.Ensures path c →
    ∃ e s', (perform env c).run s = (.error e, s')

/-- A lookup of the path answers ELOOP, but its links come to an end while there is stack
for them, and the directories that are missing there can be made and reported. -/
def Overlong (env : Env) (path : Str) (root : FSNode) : Prop :=
  Throws (getNode root path) .ELOOP ∧ ∃ n base missing, n < env.stack ∧
    Comes root n [] (getPathSegments path) base missing ∧ ¬ Unreported env root base missing

/-! ## Links are followed one call deeper each -/

variable {root : FSNode}

theorem followedFrom_le {again : Str → ℕ} {bound : ℕ} (hagain : ∀ p, again p ≤ bound)
    (names rest : List Name) : followedFrom root again names rest ≤ bound + 1 := by
  induction rest generalizing names with
  | nil => exact Nat.zero_le _
  | cons segment rest ih =>
      rw [followedFrom]
      split
      · exact Nat.zero_le _
      · split
        · exact Nat.succ_le_succ (hagain _)
        · exact Nat.zero_le _
        · exact ih _

theorem followed_le (root : FSNode) (stack : ℕ) (path : Str) :
    followed root stack path ≤ stack := by
  induction stack generalizing path with
  | zero => exact Nat.le_refl _
  | succ stack ih => exact followedFrom_le ih [] (getPathSegments path)

/-! ## Where the links end -/

variable {path : Str} {stack : ℕ} {base : Place} {missing : List Name}

theorem comes_of_destinationFrom {again : Str → Except FsError (Place × List Name)}
    (hagain : ∀ p base missing, again p = .ok (base, missing) →
      ∃ n, n < stack ∧ Comes root n [] (getPathSegments p) base missing) {names rest : List Name}
    (hv : ∀ n ∈ rest, ValidName n)
    (h : destinationFrom root path again names rest = .ok (base, missing)) :
    ∃ n, n < stack + 1 ∧ Comes root n names rest base missing := by
  induction rest generalizing names with
  | nil =>
      cases h
      exact ⟨0, Nat.succ_pos _, .nil⟩
  | cons segment rest ih =>
      have hrest : ∀ n ∈ rest, ValidName n := fun n hn => hv n (List.mem_cons_of_mem _ hn)
      rw [destinationFrom] at h
      cases hc : root.get? (names ++ [segment]) with
      | none =>
          rw [hc] at h
          cases h
          exact ⟨0, Nat.succ_pos _, .absent (LabelTree.label?_eq_none_iff.2 hc)⟩
      | some child =>
          rw [hc] at h
          have hlabel := LabelTree.label?_of_get? hc
          cases hk : child.label.kind with
          | file content =>
              simp only [hk] at h
              cases h
          | directory =>
              simp only [hk] at h
              obtain ⟨n, hn, hcomes⟩ := ih hrest h
              exact ⟨n, hn, .directory hlabel hk hcomes⟩
          | symlink target =>
              simp only [hk] at h
              obtain ⟨n, hn, hcomes⟩ := hagain _ _ _ h
              rw [getPathSegments_afterLink hrest] at hcomes
              exact ⟨n + 1, Nat.succ_lt_succ hn, .link hlabel hk hcomes⟩

/-- The walk of `ensureDirectory` that finds its directory has followed fewer links than
the stack has calls for. -/
theorem comes_of_destination (h : destination root stack path = .ok (base, missing)) :
    ∃ n, n < stack ∧ Comes root n [] (getPathSegments path) base missing := by
  induction stack generalizing path base missing with
  | zero => cases h
  | succ stack ih =>
      exact comes_of_destinationFrom (fun _ _ _ hp => ih hp) (valid_getPathSegments path) h

theorem Comes.destinationFrom {n : ℕ} {again : Str → Except FsError (Place × List Name)}
    {names rest : List Name} (h : Comes root n names rest base missing)
    (hv : ∀ n ∈ rest, ValidName n)
    (hagain : ∀ p m base missing, m + 1 = n → Comes root m [] (getPathSegments p) base missing →
      again p = .ok (base, missing)) :
    destinationFrom root path again names rest = .ok (base, missing) := by
  induction h with
  | nil => rfl
  | absent h =>
      rw [VirtualFS.destinationFrom, LabelTree.label?_eq_none_iff.1 h]
  | @directory n names rest missing segment e base h hk hrest ih =>
      have hrestv : ∀ n ∈ rest, ValidName n := fun n hn => hv n (List.mem_cons_of_mem _ hn)
      obtain ⟨child, hc, rfl⟩ := LabelTree.label?_eq_some_iff.1 h
      rw [VirtualFS.destinationFrom, hc]
      simp only [hk]
      exact ih hrestv hagain
  | @link n names rest missing segment e target base h hk hrest ih =>
      have hrestv : ∀ n ∈ rest, ValidName n := fun n hn => hv n (List.mem_cons_of_mem _ hn)
      obtain ⟨child, hc, rfl⟩ := LabelTree.label?_eq_some_iff.1 h
      rw [VirtualFS.destinationFrom, hc]
      simp only [hk]
      refine hagain _ n base missing rfl ?_
      rw [getPathSegments_afterLink hrestv]
      exact hrest

theorem Comes.destination {n : ℕ} (h : Comes root n [] (getPathSegments path) base missing)
    (hn : n < stack) : destination root stack path = .ok (base, missing) := by
  induction stack generalizing n path base missing with
  | zero => exact absurd hn (Nat.not_lt_zero n)
  | succ stack ih =>
      rw [VirtualFS.destination]
      refine h.destinationFrom (valid_getPathSegments path) fun p m base missing hm hcomes => ?_
      exact ih hcomes (by omega)

/-! ## The methods that make directories -/

/-- A method that goes on past a path whose lookup fails goes where its links end. -/
theorem plan_ensures {env : Env} {c : Call} {a : Act} {e : FsError} (hc : Call.Ensures path c)
    (hget : getNode root path = .error e) (h : plan env root c = .ok a) :
    VirtualFS.destination root env.stack path = .ok (a.base, a.missing) := by
  cases hc with
  | writeFile hp data =>
      subst hp
      obtain ⟨u, -, h⟩ := bind_eq_ok h
      split at h
      · cases h
      · obtain ⟨d, hd, h⟩ := bind_eq_ok h
        cases h
        exact hd
  | mkdir hp =>
      subst hp
      obtain ⟨node, hnode, -⟩ := bind_eq_ok h
      rw [hget] at hnode
      cases hnode
  | rename oldPath hp =>
      subst hp
      obtain ⟨u, -, h⟩ := bind_eq_ok h
      obtain ⟨u, -, h⟩ := bind_eq_ok h
      obtain ⟨source, -, h⟩ := bind_eq_ok h
      split at h
      · cases h
      · obtain ⟨d, hd, h⟩ := bind_eq_ok h
        cases h
        exact hd
  | mount hp tree =>
      subst hp
      rw [plan, planMount] at h
      split at h
      · cases h
      · obtain ⟨d, hd, h⟩ := bind_eq_ok h
        split at h
        · cases h
        · cases h
          exact hd

/-- Directory creation keeps its promise but on a way that is overlong. -/
theorem bounded_iff {s : State} (hs : Reachable s) (env : Env) (path : Str) :
    Bounded env path s ↔ ¬ Overlong env path s.root := by
  have hroot : s.root.label.kind = Kind.directory := hs.wellFormed.directory
  constructor
  · rintro h ⟨hloop, n, base, missing, hn, hcomes, hrep⟩
    have hd : VirtualFS.destination s.root env.stack path = .ok (base, missing) :=
      hcomes.destination hn
    obtain ⟨s', hr, -⟩ := makeDirectories_of_reported (destination_spec hroot hd) hrep
    obtain ⟨e, s'', herror⟩ := h.refused hloop
    rw [ensureDirectory_run, hd] at herror
    simp only [hr] at herror
    cases herror
  · intro hnot
    have hunreported : Throws (getNode s.root path) .ELOOP → ∀ base missing,
        VirtualFS.destination s.root env.stack path = .ok (base, missing) →
          Unreported env s.root base missing := by
      intro hloop base missing hd
      obtain ⟨n, hn, hcomes⟩ := comes_of_destination hd
      by_contra hrep
      exact hnot ⟨hloop, n, base, missing, hn, hcomes, hrep⟩
    refine ⟨followed_le _ _ _, ?_, ?_, ?_⟩
    · rw [ensureDirectory_run]
      cases hd : VirtualFS.destination s.root env.stack path with
      | error e => exact .inr ⟨e, s, rfl⟩
      | ok d =>
          have hdest := destination_spec hroot hd
          rcases makeDirectories_outcome env d.1 d.2 s with ⟨s', hr, hmade⟩ | ⟨e, s', -, hr, -⟩
          · refine .inl ⟨_, s', hr, ?_⟩
            rw [hmade.root]
            exact directory_withDirectories env.now hdest
          · exact .inr ⟨e, s', hr⟩
    · intro hloop
      rw [ensureDirectory_run]
      cases hd : VirtualFS.destination s.root env.stack path with
      | error e => exact ⟨e, s, rfl⟩
      | ok d =>
          obtain ⟨e, s', -, hr, -⟩ := makeDirectories_of_unreported
            (destination_spec hroot hd) (hunreported hloop _ _ hd)
          exact ⟨e, s', hr⟩
    · intro hloop c hc
      rw [perform_run env c s hroot]
      cases hplan : plan env s.root c with
      | error e => exact ⟨e, s, rfl⟩
      | ok a =>
          obtain ⟨syscall, p, hget⟩ := hloop
          have hd := plan_ensures hc hget hplan
          obtain ⟨e, s', -, hr, -⟩ := act_of_unreported (destination_spec hroot hd)
            (hunreported ⟨syscall, p, hget⟩ _ _ hd)
          exact ⟨e, s', hr⟩

/-- Directories of a new filesystem are made as promised. -/
theorem bounded_new : Bounded quiet "/a/b".toList (State.new (.finite 0)) := by
  refine (bounded_iff (.new _) quiet _).2 ?_
  rintro ⟨⟨syscall, path, hget⟩, -⟩
  have hmissing : getNode (State.new (.finite 0)).root "/a/b".toList = .ok none := rfl
  rw [hmissing] at hget
  cases hget

/-- A tree with one entry, a link `/l` to the root. -/
def rootLinked : State :=
  ((perform quiet (.symlink "/".toList "/l".toList)).run (State.new (.finite 0))).2

def rounds : Str := (List.replicate 41 "/l".toList).flatten

def roomy : Env := { quiet with stack := 64 }

/-- A lookup gives up on the way around, and a write goes on. -/
theorem not_bounded_rounds : Reachable rootLinked ∧
    getNode rootLinked.root rounds = .error (.node .ELOOP "stat" "/".toList) ∧
    ((perform roomy (.writeFile (rounds ++ "/f".toList) [])).run rootLinked).1 = .ok () ∧
    ¬ Bounded roomy rounds rootLinked := by
  have hget : getNode rootLinked.root rounds = .error (.node .ELOOP "stat" "/".toList) := by
    rfl
  have hwrite : ((perform roomy (.writeFile (rounds ++ "/f".toList) [])).run rootLinked).1 =
      .ok () := rfl
  refine ⟨.step (.new _) _ _, hget, hwrite, fun h => ?_⟩
  have hparent : getParentPath (normalizePath (rounds ++ "/f".toList)) = rounds := by
    decide +kernel
  have hensures : Call.Ensures rounds (.writeFile (rounds ++ "/f".toList) []) :=
    .writeFile hparent []
  obtain ⟨e, s', herror⟩ := h.writes ⟨_, _, hget⟩ _ hensures
  rw [herror] at hwrite
  cases hwrite

end VirtualFS

end Tabnode
