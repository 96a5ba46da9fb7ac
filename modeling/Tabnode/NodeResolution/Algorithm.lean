import Tabnode.Data.Effect
import Tabnode.NodeResolution.Interface

/-!
# Node's algorithm

LOAD_AS_FILE, LOAD_INDEX, LOAD_AS_DIRECTORY, LOAD_NODE_MODULES, package exports, imports and
self-reference, over what a resolution asks of the tree: the kind of a path, the manifest
of a directory, whether a file is a throwing stub. A resolution asks through its caches
and a reader may ask the filesystem itself, so the algorithm is in any monad.
-/

namespace Tabnode

namespace NodeResolution

open VirtualFS

/-- What a resolution asks of the tree, and how it refuses. -/
structure Tree (m : Type → Type) where
  kind : Str → m Kind
  manifest : Str → m (Option Json)
  throwingStub : Str → m Bool
  refuse : Refusal → m (Option Str)

variable {m : Type → Type} [Monad m] {Digest : Type}

section

variable (fs : ResolutionFs Digest) (options : NodeResolverOptions) (tree : Tree m)

def isFile (path : Str) : m Bool := do return (← tree.kind path) = .file

def isDirectory (path : Str) : m Bool := do return (← tree.kind path) = .directory

/-- `if (isFile(path)) return path`, for each path in turn. -/
def firstFile : List Str → m (Option Str) :=
  firstOf fun path => do
    if ← isFile tree path then pure (some path) else pure none

def extensionOf (path : Str) : Option (Str × Str) :=
  match lastIndexOf '.' path with
  | none => none
  | some dot =>
      match lastIndexOf '/' path with
      | none => some (path.take dot, path.drop dot)
      | some slash => if slash < dot then some (path.take dot, path.drop dot) else none

/-- The TypeScript source beside a path, where its extension is one that is tried. -/
def siblings (path : Str) : List Str :=
  match extensionOf path with
  | none => []
  | some (stem, extension) =>
      match typescriptSibling extension with
      | none => []
      | some sibling => if sibling ∈ options.extensions then [stem ++ sibling] else []

def loadAsFile (path : Str) : m (Option Str) :=
  firstFile tree (path :: options.extensions.map (path ++ ·) ++ siblings options path)

def loadIndex (path : Str) : m (Option Str) :=
  firstFile tree (options.extensions.map fun extension => path ++ "/index".toList ++ extension)

def realRoot (root : Str) : Str :=
  match fs.realpathSync with
  | none => root
  | some realpath => (realpath root).getD root

/-- The source files that an entry of a workspace member may have been built from. -/
def sources (root real declared : Str) : List Str :=
  let parts := splitSegments (without slashAtStart (without dotSlash declared))
  let inner :=
    match parts with
    | [] => "index".toList
    | [part] => part
    | _ :: parts => joinSlash parts
  let stem := without sourceExtension inner
  (if real = root then [root] else [root, real]).flatMap fun base =>
    [base ++ "/src/".toList, base ++ ['/']].flatMap fun start =>
      (options.sourceExtensions.getD options.extensions).flatMap fun extension =>
        [start ++ stem ++ extension, start ++ stem ++ "/index".toList ++ extension]

def workspaceSource (packageRoot declared : Str) : m (Option Str) :=
  let bare := without slashesAtEnd packageRoot
  let root := if bare = [] then ['/'] else bare
  let real := realRoot fs root
  if root ∉ options.workspaceMembers ∧ real ∉ options.workspaceMembers then pure none
  else firstFile tree (sources options root real declared)

def loadMain (path : Str) (pkg : Json) (field : String) : m (Option Str) :=
  match (pkg.field? field).bind Json.string? with
  | none | some [] => pure none
  | some value =>
      let target := join path value
      orElse (loadAsFile options tree target) <|
        orElse (loadIndex options tree target) (workspaceSource fs options tree path value)

def loadAsDirectory (path : Str) : m (Option Str) := do
  if ← isDirectory tree path then
    let pkg ← tree.manifest path
    orElse
      (if pkg.any Json.truthy then
        firstOf (loadMain fs options tree path (pkg.getD .null)) options.mainFields
      else pure none)
      (loadIndex options tree path)
  else pure none

def unlessStub (found : Str) : m (Option Str) := do
  if options.skipThrowingCjs && ".cjs".toList.isSuffixOf found then
    if ← tree.throwingStub found then pure none else pure (some found)
  else pure (some found)

def loadTarget (packageRoot target : Str) : m (Option Str) := do
  match ← orElse (loadAsFile options tree (join packageRoot target))
      (workspaceSource fs options tree packageRoot target) with
  | none => pure none
  | some found => unlessStub options tree found

/-- `specifier === packageName ? "." : "." + specifier.slice(packageName.length)`. -/
def subpathOf (specifier packageName : Str) : Str :=
  if specifier = packageName then ['.'] else '.' :: specifier.drop packageName.length

def conditionSetsOf (packageName : Str) : List (List Str) :=
  (options.conditionSetsFor packageName).getD options.conditionSets

def targetsOf (pkg : Json) (subpath : Str) (conditions : List Str) : List Str :=
  (options.exports.resolve pkg subpath conditions).getD []

def notExportedMessage (packageRoot subpath : Str) : Str :=
  let path := packageRoot ++ "/package.json".toList
  if subpath = ['.'] then "No \"exports\" main defined in ".toList ++ path
  else "Package subpath '".toList ++ subpath ++ "' is not defined by \"exports\" in ".toList ++ path

def loadPackageExports (packageRoot : Str) (pkg : Json) (specifier packageName : Str)
    (refuse : Bool) : m (Option Str) := do
  let subpath := subpathOf specifier packageName
  let sets := conditionSetsOf options packageName
  match ← firstOf (fun conditions =>
      firstOf (loadTarget fs options tree packageRoot) (targetsOf options pkg subpath conditions))
      sets with
  | some found => pure (some found)
  | none =>
      -- the map names the subpath under some condition set, if only a missing file
      let named := sets.any fun conditions => targetsOf options pkg subpath conditions ≠ []
      if refuse && !named then
        tree.refuse (.notExported (notExportedMessage packageRoot subpath))
      else pure none

def exportingManifest (packageRoot : Str) (rooted : Bool) : m (Option Json) :=
  if rooted then
    (Option.filter fun pkg => (pkg.field? "exports").isSome) <$> tree.manifest packageRoot
  else pure none

def loadFromNodeModules (nodeModules specifier : Str) : m (Option Str) := do
  let packageName := packageNameOf specifier
  let packageRoot := nodeModules ++ '/' :: packageName
  let rooted ← isDirectory tree packageRoot
  if !rooted && specifier ≠ packageName then pure none
  else
    match ← exportingManifest tree packageRoot rooted with
    | some pkg =>
        loadPackageExports fs options tree packageRoot pkg specifier packageName
          options.throwNotExported
    | none =>
        let path := nodeModules ++ '/' :: specifier
        orElse (loadAsFile options tree path) (loadAsDirectory fs options tree path)

def nearestManifest : List Str → m (Option (Str × Json)) :=
  firstOf fun directory => do
    let pkg ← tree.manifest directory
    pure ((pkg.filter Json.truthy).map (directory, ·))

def loadPackageSelf (specifier fromDir : Str) : m (Option Str) := do
  let packageName := packageNameOf specifier
  match ← nearestManifest tree (scopes fromDir) with
  | none => pure none
  | some (directory, pkg) =>
      if (pkg.field? "name").bind Json.string? = some packageName
          ∧ (pkg.field? "exports").isSome then
        loadPackageExports fs options tree directory pkg specifier packageName
          options.throwNotExported
      else pure none

def loadImport (resolveCached : Str → Str → m (Option Str)) (directory target : Str) :
    m (Option Str) :=
  if ['.'].isPrefixOf target || ['/'].isPrefixOf target then
    loadAsFile options tree (join directory target)
  else resolveCached target directory

def loadPackageImports (resolveCached : Str → Str → m (Option Str)) (specifier fromDir : Str) :
    m (Option Str) := do
  match ← nearestManifest tree (scopes fromDir) with
  | none => pure none
  | some (directory, pkg) =>
      if (pkg.field? "imports").any Json.truthy then
        firstOf (fun conditions =>
          firstOf (loadImport options tree resolveCached directory)
            ((options.exports.imports pkg specifier conditions).getD []))
          options.conditionSets
      else pure none

def loadFromLevel (specifier directory : Str) : m (Option Str) := do
  if isNodeModules directory then pure none
  else
    let nodeModules := inDirectory directory "node_modules"
    if ← isDirectory tree nodeModules then loadFromNodeModules fs options tree nodeModules specifier
    else pure none

def loadFromRoot (specifier root : Str) : m (Option Str) := do
  if ← isDirectory tree root then loadFromNodeModules fs options tree root specifier
  else pure none

def loadBare (specifier fromDir : Str) : m (Option Str) :=
  orElse (loadPackageSelf fs options tree specifier fromDir) <|
    orElse (firstOf (loadFromLevel fs options tree specifier) (ancestors fromDir))
      (firstOf (loadFromRoot fs options tree specifier) options.globalRoots)

def isPath (specifier : Str) : Bool :=
  "./".toList.isPrefixOf specifier || "../".toList.isPrefixOf specifier ||
    ['/'].isPrefixOf specifier || specifier = ['.'] || specifier = ['.', '.']

/-- `resolveCached`; an imports map may name another specifier as often as the stack
allows. -/
def resolveCached : ℕ → Str → Str → m (Option Str)
  | stack, specifier, fromDir =>
      if ['#'].isPrefixOf specifier then
        match stack with
        | 0 => tree.refuse .stackOverflow
        | stack + 1 => loadPackageImports options tree (resolveCached stack) specifier fromDir
      else if isPath specifier then
        orElse (loadAsFile options tree (join fromDir specifier))
          (loadAsDirectory fs options tree (join fromDir specifier))
      else loadBare fs options tree specifier fromDir

end

end NodeResolution

end Tabnode

/-!
## One algorithm, two readers

Where what a resolution is answered through its caches is what the filesystem answers, the
whole algorithm comes to the same through both, part by part.
-/

namespace Tabnode

namespace NodeResolution

open VirtualFS Effect

variable {σ : Type} {Digest : Type}

/-- Under an invariant of the caches, a tree answers through them what another answers. Of
stubs only those are asked that the options have skipped. -/
structure TreeRealizes (options : NodeResolverOptions) (I : σ → Prop)
    (t : Tree (Effect σ Refusal)) (u : Tree (Except Refusal)) : Prop where
  kind : ∀ path, Realizes I (t.kind path) (u.kind path)
  manifest : ∀ directory, Realizes I (t.manifest directory) (u.manifest directory)
  throwingStub : ∀ found, options.skipThrowingCjs = true →
    ".cjs".toList.isSuffixOf found = true → Realizes I (t.throwingStub found) (u.throwingStub found)
  refuse : ∀ refusal, Realizes I (t.refuse refusal) (u.refuse refusal)

namespace TreeRealizes

variable {options : NodeResolverOptions} {I : σ → Prop} {t : Tree (Effect σ Refusal)}
  {u : Tree (Except Refusal)} (h : TreeRealizes options I t u) (fs : ResolutionFs Digest)

include h

theorem isFile (path : Str) : Realizes I (isFile t path) (isFile u path) :=
  (h.kind path).bind fun _ => .pure _

theorem isDirectory (path : Str) : Realizes I (isDirectory t path) (isDirectory u path) :=
  (h.kind path).bind fun _ => .pure _

theorem firstFile (paths : List Str) : Realizes I (firstFile t paths) (firstFile u paths) :=
  .firstOf (fun path => (h.isFile path).bind fun _ =>
    .ite (fun _ => .pure _) fun _ => .pure _) paths

theorem loadAsFile (path : Str) :
    Realizes I (loadAsFile options t path) (loadAsFile options u path) :=
  h.firstFile _

theorem loadIndex (path : Str) :
    Realizes I (loadIndex options t path) (loadIndex options u path) :=
  h.firstFile _

theorem workspaceSource (packageRoot declared : Str) :
    Realizes I (workspaceSource fs options t packageRoot declared)
      (workspaceSource fs options u packageRoot declared) :=
  .ite (fun _ => .pure _) fun _ => h.firstFile _

theorem loadMain (path : Str) (pkg : Json) (field : String) :
    Realizes I (loadMain fs options t path pkg field) (loadMain fs options u path pkg field) := by
  unfold NodeResolution.loadMain
  split
  · exact .pure _
  · exact .pure _
  · exact .orElse (h.loadAsFile _) (.orElse (h.loadIndex _) (h.workspaceSource fs _ _))

theorem loadAsDirectory (path : Str) :
    Realizes I (loadAsDirectory fs options t path) (loadAsDirectory fs options u path) :=
  (h.isDirectory path).bind fun _ => .ite
    (fun _ => (h.manifest path).bind fun pkg => .orElse
      (.ite (fun _ => .firstOf (fun field => h.loadMain fs path (pkg.getD .null) field) _)
        fun _ => .pure _)
      (h.loadIndex path))
    fun _ => .pure _

theorem unlessStub (found : Str) :
    Realizes I (unlessStub options t found) (unlessStub options u found) := by
  refine .ite (fun hasked => ?_) fun _ => .pure _
  obtain ⟨hskip, hsuffix⟩ := Bool.and_eq_true_iff.1 hasked
  exact (h.throwingStub found hskip hsuffix).bind fun _ =>
    .ite (fun _ => .pure _) fun _ => .pure _

theorem loadTarget (packageRoot target : Str) :
    Realizes I (loadTarget fs options t packageRoot target)
      (loadTarget fs options u packageRoot target) := by
  refine (Realizes.orElse (h.loadAsFile _) (h.workspaceSource fs _ _)).bind fun found => ?_
  cases found with
  | none => exact .pure _
  | some found => exact h.unlessStub found

theorem loadPackageExports (packageRoot : Str) (pkg : Json) (specifier packageName : Str)
    (refuse : Bool) :
    Realizes I (loadPackageExports fs options t packageRoot pkg specifier packageName refuse)
      (loadPackageExports fs options u packageRoot pkg specifier packageName refuse) := by
  refine (Realizes.firstOf (fun conditions =>
    .firstOf (fun target => h.loadTarget fs packageRoot target) _) _).bind fun found => ?_
  cases found with
  | some found => exact .pure _
  | none => exact .ite (fun _ => h.refuse _) fun _ => .pure _

theorem exportingManifest (packageRoot : Str) (rooted : Bool) :
    Realizes I (exportingManifest t packageRoot rooted) (exportingManifest u packageRoot rooted) :=
  .ite (fun _ => (h.manifest packageRoot).map _) fun _ => .pure _

theorem loadFromNodeModules (nodeModules specifier : Str) :
    Realizes I (loadFromNodeModules fs options t nodeModules specifier)
      (loadFromNodeModules fs options u nodeModules specifier) := by
  refine (h.isDirectory _).bind fun rooted => .ite (fun _ => .pure _) fun _ => ?_
  refine (h.exportingManifest _ _).bind fun pkg => ?_
  cases pkg with
  | some pkg => exact h.loadPackageExports fs _ _ _ _ _
  | none => exact .orElse (h.loadAsFile _) (h.loadAsDirectory fs _)

theorem nearestManifest (directories : List Str) :
    Realizes I (nearestManifest t directories) (nearestManifest u directories) :=
  .firstOf (fun directory => (h.manifest directory).bind fun _ => .pure _) directories

theorem loadPackageSelf (specifier fromDir : Str) :
    Realizes I (loadPackageSelf fs options t specifier fromDir)
      (loadPackageSelf fs options u specifier fromDir) := by
  refine (h.nearestManifest _).bind fun nearest => ?_
  cases nearest with
  | none => exact .pure _
  | some nearest => exact .ite (fun _ => h.loadPackageExports fs _ _ _ _ _) fun _ => .pure _

theorem loadPackageImports {f : Str → Str → Effect σ Refusal (Option Str)}
    {g : Str → Str → Except Refusal (Option Str)}
    (hf : ∀ specifier fromDir, Realizes I (f specifier fromDir) (g specifier fromDir))
    (specifier fromDir : Str) :
    Realizes I (loadPackageImports options t f specifier fromDir)
      (loadPackageImports options u g specifier fromDir) := by
  refine (h.nearestManifest _).bind fun nearest => ?_
  cases nearest with
  | none => exact .pure _
  | some nearest =>
    refine .ite (fun _ => .firstOf (fun conditions => .firstOf (fun target => ?_) _) _)
      fun _ => .pure _
    exact .ite (fun _ => h.loadAsFile _) fun _ => hf _ _

theorem loadFromLevel (specifier directory : Str) :
    Realizes I (loadFromLevel fs options t specifier directory)
      (loadFromLevel fs options u specifier directory) :=
  .ite (fun _ => .pure _) fun _ => (h.isDirectory _).bind fun _ =>
    .ite (fun _ => h.loadFromNodeModules fs _ _) fun _ => .pure _

theorem loadFromRoot (specifier root : Str) :
    Realizes I (loadFromRoot fs options t specifier root)
      (loadFromRoot fs options u specifier root) :=
  (h.isDirectory _).bind fun _ =>
    .ite (fun _ => h.loadFromNodeModules fs _ _) fun _ => .pure _

theorem loadBare (specifier fromDir : Str) :
    Realizes I (loadBare fs options t specifier fromDir)
      (loadBare fs options u specifier fromDir) :=
  .orElse (h.loadPackageSelf fs _ _) <|
    .orElse (.firstOf (fun directory => h.loadFromLevel fs specifier directory) _)
      (.firstOf (fun root => h.loadFromRoot fs specifier root) _)

theorem resolveCached (stack : ℕ) (specifier fromDir : Str) :
    Realizes I (resolveCached fs options t stack specifier fromDir)
      (resolveCached fs options u stack specifier fromDir) := by
  induction stack generalizing specifier fromDir with
  | zero =>
    exact .ite (fun _ => h.refuse _) fun _ => .ite
      (fun _ => .orElse (h.loadAsFile _) (h.loadAsDirectory fs _)) fun _ => h.loadBare fs _ _
  | succ stack ih =>
    exact .ite (fun _ => h.loadPackageImports ih _ _) fun _ => .ite
      (fun _ => .orElse (h.loadAsFile _) (h.loadAsDirectory fs _)) fun _ => h.loadBare fs _ _

end TreeRealizes

end NodeResolution

end Tabnode
