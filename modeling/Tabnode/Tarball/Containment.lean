import Tabnode.Tarball.Archive
import Tabnode.Tarball.NodePath
import Tabnode.VirtualFS.Confined
import Tabnode.VirtualFS.Invariant
import Tabnode.VirtualFS.Operations

/-!
# Extraction of a tarball

`extractTarball` on the bytes of the archive, decompressed. Each entry is its own
few calls on the filesystem; the first of them that throws ends the extraction.
-/

namespace Tabnode

namespace Tarball

open VirtualFS

/-- What a caller of `extractTarball` chooses. -/
structure ExtractOptions where
  stripComponents : ℕ := 1
  filter : Option (Str → Bool) := none

def strippedPath (stripComponents : ℕ) (name : Str) : Option Str :=
  if 0 < stripComponents then
    let parts := splitSegments name
    if parts.length ≤ stripComponents then none
    else some (joinSlash (parts.drop stripComponents))
  else some name

def ExtractOptions.entryPath (options : ExtractOptions) (entry : TarEntry) : Option Str :=
  if entry.type ≠ .file ∧ entry.type ≠ .directory then none
  else (strippedPath options.stripComponents entry.name).filter fun path =>
    options.filter.all fun keep => keep path

/-- `(mode | bits) & ~0o022`, on 32 bits. -/
def unmasked (mode : ℤ) (bits : BitVec 32) : ℤ :=
  ((BitVec.ofInt 32 mode ||| bits) &&& ~~~(0o022 : BitVec 32)).toInt

/-- The calls an entry is extracted by, at its full path; whether it is a file that
was written. -/
def extractAt (env : Env) (entry : TarEntry) (fullPath : Str) : Fs Bool :=
  if entry.type = .directory then do
    mkdirSync env fullPath true
    chmodSync env fullPath (unmasked entry.mode 0o777)
    pure false
  else
    match entry.content with
    | some content => do
        mkdirSync env (NodePath.dirname fullPath) true
        writeFileSync env fullPath content
        chmodSync env fullPath (unmasked entry.mode 0o666)
        pure true
    | none => pure false

/-- The loop of `extractTarball` over the entries, with the files written so far. -/
def extractEntries (env : Env) (destPath : Str) (options : ExtractOptions) :
    List TarEntry → List Str → Fs (List Str)
  | [], extractedFiles => pure extractedFiles
  | entry :: entries, extractedFiles =>
      match options.entryPath entry with
      | none => extractEntries env destPath options entries extractedFiles
      | some entryPath => do
          let fullPath := NodePath.join [destPath, entryPath]
          let written ← extractAt env entry fullPath
          extractEntries env destPath options entries
            (if written then extractedFiles ++ [fullPath] else extractedFiles)

def extractTarball (env : Env) (tarData : List UInt8) (destPath : Str)
    (options : ExtractOptions) : Fs (List Str) :=
  extractEntries env destPath options (parseTar tarData) []

end Tarball

end Tabnode

/-!
## An extraction stays in its directory

An extraction is a list of calls (`extractTarball_calls`), and where no entry's path
climbs out of the destination each is `At` it. Such a call is confined to the
destination's place (`Confined.perform`), so by induction all of them are. What is
left of the tree is every entry that no path at or below the destination names, but
for the missing directories above it, which `mkdir -p` makes.
-/

namespace Tabnode

namespace Tarball

open VirtualFS

/-! ### The calls of an extraction -/

def entryCalls (entry : TarEntry) (fullPath : Str) : List Call :=
  if entry.type = .directory then
    [.mkdir fullPath true, .chmod fullPath (unmasked entry.mode 0o777)]
  else
    match entry.content with
    | some content =>
        [.mkdir (NodePath.dirname fullPath) true, .writeFile fullPath content,
          .chmod fullPath (unmasked entry.mode 0o666)]
    | none => []

def calls (destPath : Str) (options : ExtractOptions) (entries : List TarEntry) : List Call :=
  entries.flatMap fun entry =>
    match options.entryPath entry with
    | none => []
    | some entryPath => entryCalls entry (NodePath.join [destPath, entryPath])

theorem extractAt_eq (env : Env) (entry : TarEntry) (fullPath : Str) :
    ∃ written, extractAt env entry fullPath =
      Effect.forEach (perform env) (entryCalls entry fullPath) >>= fun _ => pure written := by
  rw [extractAt, entryCalls]
  split
  · exact ⟨false, by simp [Effect.forEach, perform]⟩
  · cases entry.content with
    | none => exact ⟨false, rfl⟩
    | some content => exact ⟨true, by simp [Effect.forEach, perform]⟩

theorem extractEntries_calls (env : Env) (destPath : Str) (options : ExtractOptions)
    (entries : List TarEntry) (files : List Str) (s : State) :
    ((extractEntries env destPath options entries files).run s).2 =
      ((Effect.forEach (perform env) (calls destPath options entries)).run s).2 := by
  induction entries generalizing files s with
  | nil => rfl
  | cons entry entries ih =>
      rw [extractEntries, calls, List.flatMap_cons]
      cases hpath : options.entryPath entry with
      | none => exact ih files s
      | some entryPath =>
          obtain ⟨written, heq⟩ := extractAt_eq env entry (NodePath.join [destPath, entryPath])
          simp only [Effect.run_forEach_append, heq, bind_assoc, pure_bind]
          rw [Effect.run_bind, Effect.run_bind]
          rcases (Effect.forEach (perform env)
            (entryCalls entry (NodePath.join [destPath, entryPath]))).run s with ⟨_ | _, s'⟩
          · rfl
          · exact ih _ s'

/-! ### Where they are made -/

/-- What is left of a path whose leading components are stripped does not end in a
slash. -/
theorem strippedPath_last {stripComponents : ℕ} (hstrip : 0 < stripComponents) {name path : Str}
    (h : strippedPath stripComponents name = some path) :
    path ≠ [] ∧ path.getLast? ≠ some '/' := by
  simp only [strippedPath, if_pos hstrip] at h
  split at h
  · cases h
  · next hlong =>
      cases h
      have hne : (splitSegments name).drop stripComponents ≠ [] := by
        rw [Ne, List.drop_eq_nil_iff]
        exact hlong
      obtain ⟨init, b, hconcat⟩ : ∃ init b, (splitSegments name).drop stripComponents = init ++ [b] :=
        ⟨_, _, (List.dropLast_append_getLast hne).symm⟩
      have hb : b ≠ [] ∧ '/' ∉ b := by
        refine @mem_splitSegments name b (@List.mem_of_mem_drop _ b stripComponents _ ?_)
        rw [hconcat]
        simp
      have hends : ∃ front, joinSlash (init ++ [b]) = front ++ b := by
        rw [joinSlash_append_singleton]
        split
        · exact ⟨[], rfl⟩
        · exact ⟨joinSlash init ++ ['/'], by simp⟩
      obtain ⟨front, hfront⟩ := hends
      rw [hconcat, hfront]
      refine ⟨by simp [hb.1], ?_⟩
      rw [List.getLast?_append_of_ne_nil _ hb.1]
      exact fun hlast => hb.2 (List.mem_of_getLast? hlast)

/-- The path of an entry, normalized below the destination, does not climb out of it. -/
def Stays (destPath : Str) (options : ExtractOptions) (entry : TarEntry) : Prop :=
  ∀ path, options.entryPath entry = some path →
    getPathSegments destPath <+: (splitSegments path).foldl resolvePart (getPathSegments destPath)

/-- The calls of an entry that stays are made at the destination. -/
theorem at_of_stays {destPath : Str} {options : ExtractOptions} {entry : TarEntry}
    (hstrip : 0 < options.stripComponents) (h : Stays destPath options entry) {path : Str}
    (hpath : options.entryPath entry = some path) :
    ∀ c ∈ entryCalls entry (NodePath.join [destPath, path]), c.At destPath := by
  have hlast : path ≠ [] ∧ path.getLast? ≠ some '/' := by
    rw [ExtractOptions.entryPath] at hpath
    split at hpath
    · cases hpath
    · exact strippedPath_last hstrip (Option.filter_eq_some_iff.1 hpath).1
  have hfull : getPathSegments destPath <+: getPathSegments (NodePath.join [destPath, path]) := by
    rw [NodePath.getPathSegments_join destPath hlast.1 hlast.2]
    exact h path hpath
  have hdir : getPathSegments destPath <+:
        getPathSegments (NodePath.dirname (NodePath.join [destPath, path])) ∨
      getPathSegments (NodePath.dirname (NodePath.join [destPath, path])) =
        (getPathSegments destPath).dropLast := by
    rw [NodePath.getPathSegments_dirname_join destPath hlast.1 hlast.2]
    obtain ⟨rest, hrest⟩ := hfull
    rw [← hrest]
    by_cases hnil : rest = []
    · exact .inr (by rw [hnil, List.append_nil])
    · rw [List.dropLast_append_of_ne_nil hnil]
      exact .inl (List.prefix_append _ _)
  intro c hc
  rw [entryCalls] at hc
  split at hc
  · rcases List.mem_pair.1 hc with rfl | rfl
    · exact .mkdir (.inl hfull)
    · exact .chmod hfull
  · cases hcontent : entry.content with
    | none => simp [hcontent] at hc
    | some content =>
        simp only [hcontent, List.mem_cons, List.not_mem_nil, or_false] at hc
        rcases hc with rfl | rfl | rfl
        · exact .mkdir hdir
        · exact .writeFile hfull
        · exact .chmod hfull

/-- An entry at or below a path: at or below where the path's directory leads and its
name, or one a lookup of a path at or below it comes to. -/
def Below (root : FSNode) (path : Str) (q : Place) : Prop :=
  getPathSegments path = [] ∨
    (∃ above, Leads root [] (getPathSegments path).dropLast above ∧
      above ++ [getBasename path] <+: q) ∨
    LookedUp root path q

def NoLinkBelow (root : FSNode) (path : Str) : Prop :=
  ∀ above, Leads root [] (getPathSegments path).dropLast above →
    NoLinks root (Region.of above (getBasename path)).inside

def MissingAbove (root : FSNode) (path : Str) (q : Place) : Prop :=
  ∃ above, Leads root [] (getPathSegments path).dropLast above ∧ q <+: above ∧
    root.label? q = none

/-- An extraction of entries that stay makes, writes and changes the mode of what is at
or below the destination only, and of the rest of the tree it keeps every entry, but for
the missing directories above the destination, which it makes. -/
theorem extractTarball_contained (env : Env) (tarData : List UInt8) (destPath : Str)
    (options : ExtractOptions) (s : State) (hroot : s.root.label.kind = .directory)
    (hlinks : NoLinkBelow s.root destPath) (hstrip : 0 < options.stripComponents)
    (hstays : ∀ entry ∈ parseTar tarData, Stays destPath options entry) :
    (∀ c ∈ calls destPath options (parseTar tarData), c.At destPath) ∧
    ((extractTarball env tarData destPath options).run s).2 =
      ((Effect.forEach (perform env) (calls destPath options (parseTar tarData))).run s).2 ∧
    ∀ q, ¬ Below s.root destPath q →
      ((extractTarball env tarData destPath options).run s).2.root.label? q = s.root.label? q ∨
      MissingAbove s.root destPath q ∧ ∃ e,
        ((extractTarball env tarData destPath options).run s).2.root.label? q = some e ∧
          e.kind = .directory := by
  have hat : ∀ c ∈ calls destPath options (parseTar tarData), c.At destPath := by
    intro c hc
    obtain ⟨entry, hentry, hc⟩ := List.mem_flatMap.1 hc
    cases hpath : options.entryPath entry with
    | none => simp [hpath] at hc
    | some path =>
        rw [hpath] at hc
        exact at_of_stays hstrip (hstays entry hentry) hpath c hc
  have hrun := extractEntries_calls env destPath options (parseTar tarData) [] s
  refine ⟨hat, hrun, fun q hq => ?_⟩
  rw [Below, not_or, not_or] at hq
  obtain ⟨hne, hplace, hlooked⟩ := hq
  have hpath : getPathSegments destPath =
      (getPathSegments destPath).dropLast ++ [getBasename destPath] := by
    rw [getBasename_eq, List.getLast?_eq_getLast_of_ne_nil hne, Option.getD_some,
      List.dropLast_concat_getLast]
  rw [extractTarball, hrun]
  by_cases hleads : ∃ above, Leads s.root [] (getPathSegments destPath).dropLast above
  · obtain ⟨above, habove⟩ := hleads
    have hconfined := (Confined.refl (LookedUp s.root destPath) (hlinks above habove)).forEach
      hpath (.leads habove) (hlinks above habove) hroot hat env
    rcases hconfined.outside q fun hin => hplace ⟨above, habove, hin⟩ with
      hsame | ⟨hbeside, -⟩ | ⟨hway, hnone, e, he, hk, -⟩
    · exact .inl hsame
    · exact absurd hbeside hlooked
    · exact .inr ⟨⟨above, habove, hway, hnone⟩, e, he, hk⟩
  · have hnolinks : NoLinks s.root Region.none.inside := fun _ _ hin => absurd hin id
    have hconfined := (Confined.refl (LookedUp s.root destPath) hnolinks).forEach
      hpath (.nowhere (not_exists.1 hleads)) hnolinks hroot hat env
    rcases hconfined.outside q id with hsame | ⟨hbeside, -⟩ | ⟨hway, -⟩
    · exact .inl hsame
    · exact absurd hbeside hlooked
    · exact absurd hway id

/-! ### Archives of one empty file -/

def archiveOf (name : List UInt8) : List UInt8 :=
  name ++ List.replicate (100 - name.length) 0 ++ [0x36, 0x34, 0x34] ++ List.replicate 53 0 ++
    [0x30] ++ List.replicate 356 0

/-- The bytes of `package/a`, and those of `package/../x`. -/
def insideName : List UInt8 := [0x70, 0x61, 0x63, 0x6B, 0x61, 0x67, 0x65, 0x2F, 0x61]

def climbingName : List UInt8 :=
  [0x70, 0x61, 0x63, 0x6B, 0x61, 0x67, 0x65, 0x2F, 0x2E, 0x2E, 0x2F, 0x78]

def quiet : Env := ⟨.finite 0, 100, false, false⟩

def fresh : State := State.new (.finite 0)

theorem fresh_label?_cons (name : Name) (rest : List Name) :
    fresh.root.label? (name :: rest) = none := rfl

theorem fresh_leads {names : List Name} {above : Place} (h : Leads fresh.root [] names above) :
    above = names := by
  cases names with
  | nil =>
      cases h
      rfl
  | cons name rest => exact h.of_absent (fresh_label?_cons name [])

theorem fresh_noLinkBelow {path : Str} : NoLinkBelow fresh.root path := by
  intro above _ q e hq he
  obtain ⟨rest, rfl⟩ := hq
  rcases List.eq_nil_or_concat above with rfl | ⟨init, b, rfl⟩
  · cases he
  · cases init <;> cases he

theorem parseTar_insideName : parseTar (archiveOf insideName) =
    [⟨['p', 'a', 'c', 'k', 'a', 'g', 'e', '/', 'a'], .file, 0, 420, some [], none⟩] := by
  decide +kernel

theorem extractTarball_contained_insideName :
    (∀ c ∈ calls ['/', 'p'] {} (parseTar (archiveOf insideName)), c.At ['/', 'p']) ∧
    ((extractTarball quiet (archiveOf insideName) ['/', 'p'] {}).run fresh).2 =
      ((Effect.forEach (perform quiet)
        (calls ['/', 'p'] {} (parseTar (archiveOf insideName)))).run fresh).2 ∧
    ∀ q, ¬ Below fresh.root ['/', 'p'] q →
      ((extractTarball quiet (archiveOf insideName) ['/', 'p'] {}).run fresh).2.root.label? q =
        fresh.root.label? q ∨
      MissingAbove fresh.root ['/', 'p'] q ∧ ∃ e,
        ((extractTarball quiet (archiveOf insideName) ['/', 'p'] {}).run fresh).2.root.label? q =
          some e ∧ e.kind = .directory := by
  refine extractTarball_contained quiet _ ['/', 'p'] {} fresh rfl fresh_noLinkBelow (by decide) ?_
  rw [parseTar_insideName]
  intro entry hentry path hpath
  rw [List.mem_singleton.1 hentry] at hpath
  have hname : path = ['a'] := by
    rw [show ExtractOptions.entryPath {} ⟨['p', 'a', 'c', 'k', 'a', 'g', 'e', '/', 'a'], .file, 0,
      420, some [], none⟩ = some ['a'] by decide, Option.some_inj] at hpath
    exact hpath.symm
  rw [hname]
  decide

theorem fresh_not_below {path : Str} {name : Name} {rest : List Name} {q : Place}
    (hpath : getPathSegments path = name :: rest)
    (hq : ¬ getPathSegments path <+: q) : ¬ Below fresh.root path q := by
  have hsplit : (getPathSegments path).dropLast ++ [getBasename path] = getPathSegments path := by
    have hne : getPathSegments path ≠ [] := by simp [hpath]
    rw [getBasename_eq, List.getLast?_eq_getLast_of_ne_nil hne, Option.getD_some,
      List.dropLast_concat_getLast]
  rintro (hnil | ⟨above, hleads, hin⟩ | ⟨entry, node, hentry, hget⟩)
  · simp [hpath] at hnil
  · rw [fresh_leads hleads, hsplit] at hin
    exact hq hin
  · obtain ⟨more, hmore⟩ := hentry
    rw [hpath, List.cons_append] at hmore
    rw [getNode, linkBound, substrateNode, ← hmore] at hget
    cases hget

/-- An extraction to a directory whose own directory is missing makes that, and an entry
whose path climbs is written beside the destination. -/
theorem not_extractTarball_contained :
    (NoLinkBelow fresh.root ['/', 'm', '/', 'p'] ∧ ¬ Below fresh.root ['/', 'm', '/', 'p'] [['m']] ∧
      ((extractTarball quiet (archiveOf insideName) ['/', 'm', '/', 'p'] {}).run
        fresh).2.root.label? [['m']] ≠ fresh.root.label? [['m']]) ∧
    NoLinkBelow fresh.root ['/', 'p'] ∧ ¬ Below fresh.root ['/', 'p'] [['x']] ∧
      ((extractTarball quiet (archiveOf climbingName) ['/', 'p'] {}).run
        fresh).2.root.label? [['x']] ≠ fresh.root.label? [['x']] := by
  have hmade : (((extractTarball quiet (archiveOf insideName) ['/', 'm', '/', 'p'] {}).run
      fresh).2.root.label? [['m']]).isSome = true := by decide +kernel
  have hwritten : (((extractTarball quiet (archiveOf climbingName) ['/', 'p'] {}).run
      fresh).2.root.label? [['x']]).isSome = true := by decide +kernel
  have hinside : ¬ Below fresh.root ['/', 'm', '/', 'p'] [['m']] :=
    @fresh_not_below _ ['m'] [['p']] _ (by decide) (by decide)
  have houtside : ¬ Below fresh.root ['/', 'p'] [['x']] :=
    @fresh_not_below _ ['p'] [] _ (by decide) (by decide)
  refine ⟨⟨fresh_noLinkBelow, hinside, ?_⟩, fresh_noLinkBelow, houtside, ?_⟩
  · intro heq
    rw [heq] at hmade
    cases hmade
  · intro heq
    rw [heq] at hwritten
    cases hwritten

end Tarball

end Tabnode
