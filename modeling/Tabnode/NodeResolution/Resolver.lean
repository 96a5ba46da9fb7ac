import Tabnode.Data.JsString
import Tabnode.NodeResolution.Algorithm

/-!
# The resolver and its caches

A resolution asks each path once and parses each manifest once. What a process keeps
outlives its resolutions: manifests and their absence, real paths, stats while a window
stands, and which files are throwing stubs, by their digest and in a window by their path.
-/

namespace Tabnode

namespace NodeResolution

open VirtualFS OrderedMap

variable {Digest : Type} [DecidableEq Digest]

/-- `missingConfigError`, of an error's code. -/
def missingConfigError (code : Str) : Bool :=
  code ∈ ["ENOENT".toList, "ENOTDIR".toList, "EISDIR".toList]

/-! ## The filesystem itself -/

namespace ResolutionFs

variable (fs : ResolutionFs Digest)

def statKind : Except Str (Option (Stat Digest)) → Kind
  | .error code => if missingConfigError code then .absent else .other
  | .ok none => .absent
  | .ok (some stat) =>
      if stat.isFile then .file else if stat.isDirectory then .directory else .other

def kind (path : Str) : Kind := (fs.kindSync path).getD (statKind (fs.statSync path))

def text : Content → Str
  | .text s => s
  | .bytes decoded => decoded

def readManifest (parse : Str → Option Json) (path : Str) (kind : Kind) : Option Json × Bool :=
  if kind = .file then
    match fs.readFileSync path with
    | .ok content => (parse (text content), false)
    | .error code => (none, missingConfigError code)
  else (none, kind = .directory || kind = .absent)

def manifestAt (parse : Str → Option Json) (path : Str) : Option Json :=
  (fs.readManifest parse path (fs.kind path)).1

/-- `String(text).trimStart().startsWith("throw ")`, of a file that can be read; bytes are
a list of numbers. -/
def isThrowingStub (found : Str) : Bool :=
  match fs.readFileSync found with
  | .ok (.text s) => "throw ".toList.isPrefixOf (JsString.trimStart s)
  | _ => false

def tree (parse : Str → Option Json) : Tree (Except Refusal) where
  kind path := .ok (fs.kind path)
  manifest directory := .ok (fs.manifestAt parse (inDirectory directory "package.json"))
  throwingStub found := .ok (fs.isThrowingStub found)
  refuse refusal := .error refusal

end ResolutionFs

/-! ## A resolution -/

/-- What a resolution holds: the store of its process, and what it was answered. -/
structure Session (Digest : Type) where
  kept : Option (ResolutionKept Digest)
  manifests : List (Str × Option Json)
  asked : List (Str × Kind)
  digests : List (Str × Digest)
  undigested : List Str

namespace Session

variable (fs : ResolutionFs Digest)

def keep (f : ResolutionKept Digest → ResolutionKept Digest) (s : Session Digest) :
    Session Digest :=
  { s with kept := s.kept.map f }

def window (s : Session Digest) : Option Window := s.kept.bind ResolutionKept.window

/-- The rest of `ask`, where no window holds the stat: `kindSync`, else `statSync`. -/
def probe (path : Str) (s : Session Digest) : Kind × Session Digest :=
  match fs.kindSync path with
  | some found =>
      (found, if found = .file then { s with undigested := path :: s.undigested } else s)
  | none =>
      let stat := fs.statSync path
      let found := ResolutionFs.statKind stat
      match stat with
      | .ok (some ⟨true, _, some digest⟩) =>
          (found, { s with digests := OrderedMap.set path digest s.digests })
      | _ => (found, s)

/-- `kept?.stats?.set(path, found)`, of a file or a directory. -/
def holdStat (path : Str) (found : Kind) (s : Session Digest) : Session Digest :=
  if found = .file ∨ found = .directory then
    s.keep fun kept => { kept with
      window := kept.window.map fun window =>
        { window with stats := OrderedMap.set path found window.stats } }
  else s

def ask (path : Str) (s : Session Digest) : Kind × Session Digest :=
  match s.window.bind fun window => find path window.stats with
  | some held => (held, s)
  | none =>
      let (found, s) := s.probe fs path
      (found, s.holdStat path found)

def kind (path : Str) (s : Session Digest) : Kind × Session Digest :=
  match find path s.asked with
  | some again => (again, s)
  | none =>
      let (answer, s) := s.ask fs path
      (answer, { s with asked := OrderedMap.set path answer s.asked })

/-- What the store of the process holds of a manifest: that it is missing, or itself. -/
def heldManifest (path : Str) (s : Session Digest) : Option (Option Json) :=
  match s.kept with
  | none => none
  | some kept =>
      if path ∈ kept.missingManifests then some none
      else (find path kept.manifests).map some

def holdManifest (path : Str) (read : Option Json × Bool) (s : Session Digest) :
    Session Digest :=
  let s := if read.2 then
    s.keep fun kept => { kept with missingManifests := path :: kept.missingManifests } else s
  let s := { s with manifests := OrderedMap.set path read.1 s.manifests }
  match read.1 with
  | some pkg =>
      if pkg.isObject then
        s.keep fun kept => { kept with manifests := OrderedMap.set path pkg kept.manifests }
      else s
  | none => s

def manifest (parse : Str → Option Json) (directory : Str) (s : Session Digest) :
    Option Json × Session Digest :=
  let path := inDirectory directory "package.json"
  match (s.heldManifest path).or (find path s.manifests) with
  | some held => (held, s)
  | none =>
      let (kind, s) := s.kind fs path
      let read := fs.readManifest parse path kind
      (read.1, s.holdManifest path read)

def digestOf (path : Str) (s : Session Digest) : Option Digest × Session Digest :=
  match find path s.digests with
  | some digest => (some digest, s)
  | none =>
      if path ∈ s.undigested then
        let s := { s with undigested := s.undigested.filter (· ≠ path) }
        match fs.contentDigest path with
        | some digest => (some digest, { s with digests := OrderedMap.set path digest s.digests })
        | none => (none, s)
      else (none, s)

def knownStub (found : Str) (digest : Option Digest) (s : Session Digest) : Option Bool :=
  (s.window.bind fun window => find found window.stubs).or <|
    digest.bind fun digest => s.kept.bind fun kept => find digest kept.throwingStubs

def holdStub (found : Str) (digest : Option Digest) (throwing : Bool) (s : Session Digest) :
    Session Digest :=
  s.keep fun kept => { kept with
    throwingStubs :=
      match digest with
      | some digest => OrderedMap.set digest throwing kept.throwingStubs
      | none => kept.throwingStubs
    window := kept.window.map fun window =>
      { window with stubs := OrderedMap.set found throwing window.stubs } }

def throwingStub (found : Str) (s : Session Digest) : Bool × Session Digest :=
  let (digest, s) := s.digestOf fs found
  match s.knownStub found digest with
  | some known => (known, s)
  | none => (fs.isThrowingStub found, s.holdStub found digest (fs.isThrowingStub found))

def answer {α : Type} (f : Session Digest → α × Session Digest) :
    Effect (Session Digest) Refusal α := fun s => (.ok (f s).1, (f s).2)

def tree (parse : Str → Option Json) : Tree (Effect (Session Digest) Refusal) where
  kind path := answer (kind fs path)
  manifest directory := answer (manifest fs parse directory)
  throwingStub found := answer (throwingStub fs found)
  refuse refusal := Effect.throw refusal

def start (kept : Option (ResolutionKept Digest)) : Session Digest :=
  ⟨kept.map fun kept => { kept with carried := none }, [], [], [], []⟩

def carry (path : Str) (digest : Option Digest) (s : Session Digest) : Session Digest :=
  match digest with
  | some digest => s.keep fun kept => { kept with carried := some (path, digest) }
  | none => s

def realPath (found : Str) (s : Session Digest) : Str × Session Digest :=
  match fs.realpathSync with
  | none => (found, s)
  | some realpathSync =>
      match s.kept.bind fun kept => find found kept.realPaths with
      | some held => (held, s)
      | none =>
          match realpathSync found with
          | some real =>
              (real, s.keep fun kept =>
                { kept with realPaths := OrderedMap.set found real kept.realPaths })
          | none => (found, s)

def finish (found : Str) (s : Session Digest) : Str × Session Digest :=
  let (digest, s) := s.digestOf fs found
  let (real, s) := s.realPath fs found
  (real, s.carry real digest)

end Session

variable (fs : ResolutionFs Digest) (parse : Str → Option Json) (options : NodeResolverOptions)

/-- `resolve`, with as much stack as there is: the file a specifier names, or what is thrown,
and the store of the process after it. -/
def resolve (stack : ℕ) (specifier fromDir : Str) (kept : Option (ResolutionKept Digest)) :
    Except Refusal (Option Str) × Option (ResolutionKept Digest) :=
  let run := (resolveCached fs options (Session.tree fs parse) stack specifier fromDir).run
    (Session.start kept)
  match run.1 with
  | .ok (some found) =>
      let (real, s) := run.2.finish fs found
      (.ok (some real), s.kept)
  | result => (result, run.2.kept)

end NodeResolution

end Tabnode
