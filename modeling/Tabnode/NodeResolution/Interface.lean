import Mathlib.Data.Rat.Defs
import Tabnode.Data.OrderedMap
import Tabnode.Data.Regex
import Tabnode.VirtualFS.Path

/-!
# What the resolver is given and what it keeps

The filesystem, the exports maps and the options that a node resolver is made with; the
store a process keeps between its resolutions; and paths as the resolver writes them. The
filesystem does not change, so it is its answers. `JSON.parse` and the functions of
`resolve.exports` are the platform's and the package's.
-/

namespace Tabnode

namespace NodeResolution

open VirtualFS

/-- A value of JSON. -/
inductive Json
  | null
  | bool (b : Bool)
  | number (value : ℚ)
  | string (s : Str)
  | array (items : List Json)
  | object (fields : List (Str × Json))

def Json.truthy : Json → Bool
  | null => false
  | bool b => b
  | number value => value ≠ 0
  | string s => s ≠ []
  | array _ | object _ => true

/-- `typeof value === "object"`, of a truthy value. -/
def Json.isObject : Json → Bool
  | array _ | object _ => true
  | _ => false

def Json.field? (value : Json) (name : String) : Option Json :=
  match value with
  | object fields =>
      match OrderedMap.find name.toList fields with
      | some null => none
      | found => found
  | _ => none

def Json.string? : Json → Option Str
  | string s => some s
  | _ => none

/-- What a probe is answered: 0, 1, -1 or -2. -/
inductive Kind
  | file
  | directory
  | absent
  | other
  deriving DecidableEq

/-- What a stat carries. -/
structure Stat (Digest : Type) where
  isFile : Bool
  isDirectory : Bool
  contentDigest : Option Digest

/-- What a read answers: a string, or bytes with the text they decode to. -/
inductive Content
  | text (s : Str)
  | bytes (decoded : Str)

/-- The filesystem of a resolver. A read or a stat that throws has an error's code; a
`kindSync` or `contentDigest` that the filesystem lacks, or that throws, answers nothing. -/
structure ResolutionFs (Digest : Type) where
  kindSync : Str → Option Kind
  statSync : Str → Except Str (Option (Stat Digest))
  readFileSync : Str → Except Str Content
  realpathSync : Option (Str → Option Str)
  contentDigest : Str → Option Digest

/-- The functions of `resolve.exports`: the targets that a map names for an entry under some
conditions, or nothing where they throw. -/
structure ExportsResolver where
  resolve : Json → Str → List Str → Option (List Str)
  imports : Json → Str → List Str → Option (List Str)

/-- The options of a resolver. -/
structure NodeResolverOptions where
  exports : ExportsResolver
  conditionSets : List (List Str)
  conditionSetsFor : Str → Option (List (List Str))
  extensions : List Str
  mainFields : List String
  globalRoots : List Str
  workspaceMembers : List Str
  sourceExtensions : Option (List Str)
  skipThrowingCjs : Bool
  throwNotExported : Bool

/-- What is kept while a stat window stands: the stats, and the stubs found in it. -/
structure Window where
  stats : List (Str × Kind)
  stubs : List (Str × Bool)

/-- `ResolutionKept`: what one process keeps between its resolutions of one filesystem. -/
structure ResolutionKept (Digest : Type) where
  manifests : List (Str × Json)
  missingManifests : List Str
  realPaths : List (Str × Str)
  window : Option Window
  carried : Option (Str × Digest)
  throwingStubs : List (Digest × Bool)

def ResolutionKept.empty {Digest : Type} : ResolutionKept Digest := ⟨[], [], [], none, none, []⟩

/-- What a resolution throws. -/
inductive Refusal
  | notExported (message : Str)
  | stackOverflow
  deriving DecidableEq

/-! ## Paths -/

def normalize (path : Str) : Str := absolute ((splitSegments path).foldl resolvePart [])

def join (base relative : Str) : Str :=
  normalize (if ['/'].isPrefixOf relative then relative else base ++ '/' :: relative)

def parent (path : Str) : Str :=
  match lastIndexOf '/' path with
  | none | some 0 => ['/']
  | some (index + 1) => path.take (index + 1)

/-- The directories from a path up to the root; `climbs` bounds how many there are. -/
def ancestorsWithin : ℕ → Str → List Str
  | 0, _ => [['/']]
  | climbs + 1, path =>
      if path = ['/'] then [['/']] else path :: ancestorsWithin climbs (parent path)

def ancestors (path : Str) : List Str := ancestorsWithin (path.length + 1) path

/-- `directory.endsWith("/node_modules")`. -/
def isNodeModules (directory : Str) : Bool := "/node_modules".toList.isSuffixOf directory

def scopes (fromDir : Str) : List Str :=
  (ancestors fromDir).takeWhile fun directory => directory ≠ ['/'] && !isNodeModules directory

/-- `${directory === "/" ? "" : directory}/name`. -/
def inDirectory (directory : Str) (name : String) : Str :=
  (if directory = ['/'] then [] else directory) ++ '/' :: name.toList

def packageNameOf (specifier : Str) : Str :=
  match specifier.splitOn '/' with
  | scope :: name :: _ => if ['@'].isPrefixOf scope then scope ++ '/' :: name else scope
  | [name] => name
  | [] => []

def typescriptSibling (extension : Str) : Option Str :=
  match String.ofList extension with
  | ".js" => some ".ts".toList
  | ".mjs" => some ".mts".toList
  | ".cjs" => some ".cts".toList
  | ".jsx" => some ".tsx".toList
  | _ => none

/-- `/\/+$/`. -/
def slashesAtEnd : Regex := .row [.more fun c => c == '/', .stop]

/-- `/^\.\//`. -/
def dotSlash : Regex := .row [.start, .char '.', .char '/']

/-- `/^\//`. -/
def slashAtStart : Regex := .row [.start, .char '/']

/-- `/\.(?:m|c)?[jt]sx?$/`. -/
def sourceExtension : Regex :=
  .row [.char '.', .opt (.choice [.char 'm', .char 'c']), .one fun c => c == 'j' || c == 't',
    .char 's', .opt (.char 'x'), .stop]

def without (r : Regex) (text : Str) : Str := r.replace (fun _ => []) text

end NodeResolution

end Tabnode
