import Tabnode.NodeResolution.Algorithm
import Tabnode.NodeResolution.Resolver

/-!
# Caches that do not show

Everything that a resolution and its process keep is what the filesystem answers
(`Session.Sound`), as long as files of one digest are all throwing stubs or none is
(`Verdicts`). So a resolution comes to the same with a store as without, after any run of
resolutions and windows (`resolve_eq_of_run`). An unreadable file is taken as no stub and
this is kept by its digest: the digest of a stub, if it is a copy of one.
-/

namespace Tabnode

namespace NodeResolution

open VirtualFS Effect OrderedMap Option

variable {Digest : Type} [DecidableEq Digest] (fs : ResolutionFs Digest)
  (parse : Str → Option Json) (options : NodeResolverOptions)

def ResolutionFs.IsDigest (path : Str) (digest : Digest) : Prop :=
  (∃ stat, fs.statSync path = .ok (some stat) ∧ stat.contentDigest = some digest) ∨
    fs.contentDigest path = some digest

def MayBeStub (path : Str) : Prop :=
  options.skipThrowingCjs = true ∧ ".cjs".toList.isSuffixOf path = true

def Verdicts : Prop :=
  ∀ {p q : Str} {digest : Digest}, MayBeStub options p → MayBeStub options q →
    fs.IsDigest p digest → fs.IsDigest q digest → fs.isThrowingStub p = fs.isThrowingStub q

/-- What a process keeps is what the filesystem answers. -/
structure ResolutionKept.Holds (kept : ResolutionKept Digest) : Prop where
  manifests : ∀ {path pkg}, find path kept.manifests = some pkg →
    fs.manifestAt parse path = some pkg
  missing : ∀ path ∈ kept.missingManifests, fs.manifestAt parse path = none
  realPaths : ∀ {realpath found real}, fs.realpathSync = some realpath →
    find found kept.realPaths = some real → realpath found = some real
  stats : ∀ {window path kind}, kept.window = some window →
    find path window.stats = some kind → fs.kind path = kind
  stubs : ∀ {window path throwing}, kept.window = some window →
    find path window.stubs = some throwing → fs.isThrowingStub path = throwing
  verdicts : ∀ {digest throwing path}, find digest kept.throwingStubs = some throwing →
    MayBeStub options path → fs.IsDigest path digest → fs.isThrowingStub path = throwing

/-- What a resolution holds is what the filesystem answers. -/
structure Session.Sound (s : Session Digest) : Prop where
  kept : ∀ {kept}, s.kept = some kept → kept.Holds fs parse options
  verdicts : s.kept ≠ none → Verdicts fs options
  manifests : ∀ {path pkg}, find path s.manifests = some pkg →
    fs.manifestAt parse path = pkg
  asked : ∀ {path kind}, find path s.asked = some kind → fs.kind path = kind
  digests : ∀ {path digest}, find path s.digests = some digest →
    fs.IsDigest path digest

/-- What is found after an entry is set is the entry or was found before. -/
theorem find_set_cases {κ ν : Type} [DecidableEq κ] {P : κ → ν → Prop} {entries : List (κ × ν)}
    (h : ∀ {k v}, find k entries = some v → P k v) {k : κ} {v : ν} (hkv : P k v)
    {k' : κ} {v' : ν} (hfind : find k' (OrderedMap.set k v entries) = some v') :
    P k' v' := by
  rw [find_set] at hfind
  split at hfind
  · next heq =>
    cases hfind
    exact heq ▸ hkv
  · exact h hfind

namespace Session

variable {fs parse options} {s : Session Digest}

theorem Sound.of_keep (h : s.Sound fs parse options)
    {f : ResolutionKept Digest → ResolutionKept Digest}
    (hf : ∀ kept, s.kept = some kept → (f kept).Holds fs parse options) :
    (s.keep f).Sound fs parse options where
  __ := h
  kept hkept := by
    obtain ⟨kept, hk, rfl⟩ := map_eq_some_iff.1 hkept
    exact hf kept hk
  verdicts hne := h.verdicts fun hnone => hne (by rw [keep, hnone]; rfl)

/-! ## Kinds -/

theorem Sound.probe (h : s.Sound fs parse options) (path : Str) :
    (s.probe fs path).1 = fs.kind path ∧ (s.probe fs path).2.Sound fs parse options := by
  unfold Session.probe ResolutionFs.kind
  cases hkind : fs.kindSync path with
  | some found =>
    refine ⟨rfl, ?_⟩
    dsimp only
    split
    · exact ⟨h.kept, h.verdicts, h.manifests, h.asked, h.digests⟩
    · exact h
  | none =>
    dsimp only
    split
    · next isDirectory digest hstat =>
      refine ⟨by rw [hstat]; rfl, h.kept, h.verdicts, h.manifests, h.asked, fun hfind => ?_⟩
      exact find_set_cases h.digests (.inl ⟨_, hstat, rfl⟩) hfind
    · exact ⟨rfl, h⟩

theorem Sound.holdStat (h : s.Sound fs parse options) (path : Str) :
    (s.holdStat path (fs.kind path)).Sound fs parse options := by
  unfold Session.holdStat
  split
  · refine h.of_keep fun kept hkept => ?_
    have hold := h.kept hkept
    refine ⟨hold.manifests, hold.missing, hold.realPaths, fun hwindow hfind => ?_,
      fun hwindow hfind => ?_, hold.verdicts⟩
    · obtain ⟨window, hw, rfl⟩ := map_eq_some_iff.1 hwindow
      exact find_set_cases (P := fun path kind => fs.kind path = kind) (hold.stats hw) rfl hfind
    · obtain ⟨window, hw, rfl⟩ := map_eq_some_iff.1 hwindow
      exact hold.stubs hw hfind
  · exact h

theorem Sound.window (h : s.Sound fs parse options) {window : Window}
    (hwindow : s.window = some window) :
    ∃ kept, s.kept = some kept ∧ kept.window = some window ∧ kept.Holds fs parse options := by
  obtain ⟨kept, hkept, hw⟩ := bind_eq_some_iff.1 hwindow
  exact ⟨kept, hkept, hw, h.kept hkept⟩

theorem Sound.ask (h : s.Sound fs parse options) (path : Str) :
    (s.ask fs path).1 = fs.kind path ∧ (s.ask fs path).2.Sound fs parse options := by
  unfold Session.ask
  split
  · next held hheld =>
    obtain ⟨window, hwindow, hfind⟩ := bind_eq_some_iff.1 hheld
    obtain ⟨kept, -, hw, hold⟩ := h.window hwindow
    exact ⟨(hold.stats hw hfind).symm, h⟩
  · obtain ⟨hfound, hprobe⟩ := h.probe path
    refine ⟨hfound, ?_⟩
    dsimp only
    rw [hfound]
    exact hprobe.holdStat path

theorem Sound.kind (h : s.Sound fs parse options) (path : Str) :
    (s.kind fs path).1 = fs.kind path ∧ (s.kind fs path).2.Sound fs parse options := by
  unfold Session.kind
  split
  · next again hfind => exact ⟨(h.asked hfind).symm, h⟩
  · obtain ⟨hfound, hask⟩ := h.ask path
    refine ⟨hfound, hask.kept, hask.verdicts, hask.manifests, fun hfind => ?_, hask.digests⟩
    exact find_set_cases (P := fun path kind => fs.kind path = kind) hask.asked hfound.symm hfind

/-! ## Manifests -/

theorem Sound.heldManifest (h : s.Sound fs parse options) {path : Str} {held : Option Json}
    (hheld : s.heldManifest path = some held) : fs.manifestAt parse path = held := by
  unfold Session.heldManifest at hheld
  split at hheld
  · cases hheld
  · next kept hkept =>
    have hold := h.kept hkept
    split at hheld
    · next hmissing =>
      cases hheld
      exact hold.missing path hmissing
    · obtain ⟨pkg, hfind, rfl⟩ := map_eq_some_iff.1 hheld
      exact hold.manifests hfind

omit [DecidableEq Digest] in
theorem readManifest_missing {path : Str} {kind : Kind}
    (h : (fs.readManifest parse path kind).2 = true) :
    (fs.readManifest parse path kind).1 = none := by
  unfold ResolutionFs.readManifest at h ⊢
  split at h
  · next hfile =>
    rw [if_pos hfile]
    split at h
    · cases h
    · rfl
  · next hfile => rw [if_neg hfile]

theorem Sound.holdManifest (h : s.Sound fs parse options) (path : Str) :
    (s.holdManifest path (fs.readManifest parse path (fs.kind path))).Sound fs parse options := by
  have hmissing : (if (fs.readManifest parse path (fs.kind path)).2 then
      s.keep fun kept => { kept with missingManifests := path :: kept.missingManifests }
      else s).Sound fs parse options := by
    split
    · next hread =>
      refine h.of_keep fun kept hkept => ?_
      have hold := h.kept hkept
      refine ⟨hold.manifests, fun p hp => ?_, hold.realPaths, hold.stats, hold.stubs,
        hold.verdicts⟩
      rcases List.mem_cons.1 hp with rfl | hp
      · exact readManifest_missing hread
      · exact hold.missing p hp
    · exact h
  unfold Session.holdManifest
  dsimp only
  generalize (if (fs.readManifest parse path (fs.kind path)).2 = true then
    s.keep fun kept => { kept with missingManifests := path :: kept.missingManifests }
    else s) = t at hmissing ⊢
  have hset : Session.Sound fs parse options { t with
      manifests := OrderedMap.set path (fs.readManifest parse path (fs.kind path)).1
        t.manifests } :=
    ⟨hmissing.kept, hmissing.verdicts, fun hfind =>
      find_set_cases (P := fun path pkg => fs.manifestAt parse path = pkg) hmissing.manifests rfl
        hfind, hmissing.asked, hmissing.digests⟩
  split
  · next pkg hpkg =>
    split
    · refine hset.of_keep fun kept hkept => ?_
      have hold := hset.kept hkept
      exact ⟨fun hfind => find_set_cases
        (P := fun path pkg => fs.manifestAt parse path = some pkg) hold.manifests hpkg hfind,
        hold.missing, hold.realPaths, hold.stats, hold.stubs, hold.verdicts⟩
    · exact hset
  · exact hset

theorem Sound.manifest (h : s.Sound fs parse options) (directory : Str) :
    (s.manifest fs parse directory).1 =
        fs.manifestAt parse (inDirectory directory "package.json") ∧
      (s.manifest fs parse directory).2.Sound fs parse options := by
  unfold Session.manifest
  dsimp only
  split
  · next held hheld =>
    refine ⟨?_, h⟩
    rcases or_eq_some_iff.1 hheld with hkept | ⟨-, hfind⟩
    · exact (h.heldManifest hkept).symm
    · exact (h.manifests hfind).symm
  · obtain ⟨hkind, hsound⟩ := h.kind (inDirectory directory "package.json")
    dsimp only
    rw [hkind]
    exact ⟨rfl, hsound.holdManifest _⟩

/-! ## Throwing stubs -/

theorem Sound.digestOf (h : s.Sound fs parse options) (path : Str) :
    (∀ digest, (s.digestOf fs path).1 = some digest → fs.IsDigest path digest) ∧
      (s.digestOf fs path).2.Sound fs parse options := by
  unfold Session.digestOf
  split
  · next digest hfind =>
    refine ⟨fun _ heq => ?_, h⟩
    cases heq
    exact h.digests hfind
  · split
    · dsimp only
      split
      · next digest hdigest =>
        refine ⟨fun _ heq => ?_, h.kept, h.verdicts, h.manifests, h.asked, fun hfind =>
          find_set_cases h.digests (.inr hdigest) hfind⟩
        cases heq
        exact .inr hdigest
      · exact ⟨(fun _ heq => nomatch heq), h.kept, h.verdicts, h.manifests, h.asked, h.digests⟩
    · exact ⟨(fun _ heq => nomatch heq), h⟩

theorem Sound.knownStub (h : s.Sound fs parse options) {found : Str} {digest : Option Digest}
    {known : Bool} (hask : MayBeStub options found)
    (hdigest : ∀ d, digest = some d → fs.IsDigest found d)
    (hknown : s.knownStub found digest = some known) : fs.isThrowingStub found = known := by
  rcases or_eq_some_iff.1 hknown with hwindow | ⟨-, hverdict⟩
  · obtain ⟨window, hwindow, hfind⟩ := bind_eq_some_iff.1 hwindow
    obtain ⟨kept, -, hw, hold⟩ := h.window hwindow
    exact hold.stubs hw hfind
  · obtain ⟨d, hd, hkept⟩ := bind_eq_some_iff.1 hverdict
    obtain ⟨kept, hkept, hfind⟩ := bind_eq_some_iff.1 hkept
    exact (h.kept hkept).verdicts hfind hask (hdigest d hd)

theorem Sound.holdStub (h : s.Sound fs parse options) {found : Str} {digest : Option Digest}
    (hask : MayBeStub options found) (hdigest : ∀ d, digest = some d → fs.IsDigest found d) :
    (s.holdStub found digest (fs.isThrowingStub found)).Sound fs parse options := by
  refine h.of_keep fun kept hkept => ?_
  have hold := h.kept hkept
  have hverdicts : Verdicts fs options := h.verdicts (by rw [hkept]; exact some_ne_none _)
  refine ⟨hold.manifests, hold.missing, hold.realPaths, fun hwindow hfind => ?_,
    fun hwindow hfind => ?_, fun hfind hpath hd => ?_⟩
  · obtain ⟨window, hw, rfl⟩ := map_eq_some_iff.1 hwindow
    exact hold.stats hw hfind
  · obtain ⟨window, hw, rfl⟩ := map_eq_some_iff.1 hwindow
    exact find_set_cases (P := fun path throwing => fs.isThrowingStub path = throwing)
      (hold.stubs hw) rfl hfind
  · cases digest with
    | none => exact hold.verdicts hfind hpath hd
    | some digest =>
      refine find_set_cases (P := fun d throwing => ∀ path, MayBeStub options path →
        fs.IsDigest path d → fs.isThrowingStub path = throwing)
        (fun hfind path hpath hd => hold.verdicts hfind hpath hd) (fun path hpath hd => ?_)
        hfind _ hpath hd
      exact hverdicts hpath hask hd (hdigest digest rfl)

theorem Sound.throwingStub (h : s.Sound fs parse options) {found : Str}
    (hask : MayBeStub options found) :
    (s.throwingStub fs found).1 = fs.isThrowingStub found ∧
      (s.throwingStub fs found).2.Sound fs parse options := by
  obtain ⟨hdigest, hsound⟩ := h.digestOf found
  unfold Session.throwingStub
  dsimp only
  split
  · next known hknown => exact ⟨(hsound.knownStub hask hdigest hknown).symm, hsound⟩
  · exact ⟨rfl, hsound.holdStub hask hdigest⟩

/-! ## A resolution -/

theorem realizes_tree : TreeRealizes options (Session.Sound fs parse options)
    (Session.tree fs parse) (fs.tree parse) where
  kind path _ h := ⟨congrArg Except.ok (h.kind path).1, (h.kind path).2⟩
  manifest directory _ h := ⟨congrArg Except.ok (h.manifest directory).1, (h.manifest directory).2⟩
  throwingStub _ hskip hsuffix _ h :=
    ⟨congrArg Except.ok (h.throwingStub ⟨hskip, hsuffix⟩).1, (h.throwingStub ⟨hskip, hsuffix⟩).2⟩
  refuse refusal := .throw refusal

theorem sound_start {kept : Option (ResolutionKept Digest)}
    (hkept : ∀ k, kept = some k → k.Holds fs parse options)
    (hverdicts : kept ≠ none → Verdicts fs options) :
    (Session.start kept).Sound fs parse options where
  kept hmap := by
    obtain ⟨k, hk, rfl⟩ := map_eq_some_iff.1 hmap
    have hold := hkept k hk
    exact ⟨hold.manifests, hold.missing, hold.realPaths, hold.stats, hold.stubs, hold.verdicts⟩
  verdicts hne := hverdicts fun hnone => hne (by rw [start, hnone]; rfl)
  manifests hfind := by cases hfind
  asked hfind := by cases hfind
  digests hfind := by cases hfind

theorem Sound.realPath (h : s.Sound fs parse options) (found : Str) :
    (s.realPath fs found).1 = realRoot fs found ∧
      (s.realPath fs found).2.Sound fs parse options := by
  unfold Session.realPath realRoot
  cases hrealpath : fs.realpathSync with
  | none => exact ⟨rfl, h⟩
  | some realpath =>
    dsimp only
    split
    · next held hheld =>
      obtain ⟨kept, hkept, hfind⟩ := bind_eq_some_iff.1 hheld
      rw [(h.kept hkept).realPaths hrealpath hfind]
      exact ⟨rfl, h⟩
    · cases hreal : realpath found with
      | none => exact ⟨rfl, h⟩
      | some real =>
        refine ⟨rfl, h.of_keep fun kept hkept => ?_⟩
        have hold := h.kept hkept
        refine ⟨hold.manifests, hold.missing, fun hrealpath' hfind => ?_, hold.stats, hold.stubs,
          hold.verdicts⟩
        cases hrealpath.symm.trans hrealpath'
        exact find_set_cases (P := fun found real => realpath found = some real)
          (hold.realPaths hrealpath) hreal hfind

theorem Sound.carry (h : s.Sound fs parse options) (path : Str) (digest : Option Digest) :
    (s.carry path digest).Sound fs parse options := by
  unfold Session.carry
  split
  · refine h.of_keep fun kept hkept => ?_
    have hold := h.kept hkept
    exact ⟨hold.manifests, hold.missing, hold.realPaths, hold.stats, hold.stubs, hold.verdicts⟩
  · exact h

theorem Sound.finish (h : s.Sound fs parse options) (found : Str) :
    (s.finish fs found).1 = realRoot fs found ∧ (s.finish fs found).2.Sound fs parse options := by
  obtain ⟨-, hdigest⟩ := h.digestOf found
  obtain ⟨hreal, hsound⟩ := hdigest.realPath found
  exact ⟨hreal, hsound.carry _ _⟩

end Session

def ResolutionFs.resolve (stack : ℕ) (specifier fromDir : Str) : Except Refusal (Option Str) :=
  Option.map (realRoot fs) <$>
    resolveCached fs options (fs.tree parse) stack specifier fromDir

variable {fs parse options}

/-- A resolution answers what the filesystem does, and leaves a store that holds what the
filesystem answers. -/
theorem resolve_spec (kept : Option (ResolutionKept Digest))
    (hkept : ∀ k, kept = some k → k.Holds fs parse options)
    (hverdicts : kept ≠ none → Verdicts fs options) (stack : ℕ) (specifier fromDir : Str) :
    (resolve fs parse options stack specifier fromDir kept).1 =
        fs.resolve parse options stack specifier fromDir ∧
      ∀ k, (resolve fs parse options stack specifier fromDir kept).2 = some k →
        k.Holds fs parse options := by
  obtain ⟨hanswer, hsound⟩ := Session.realizes_tree.resolveCached fs stack specifier fromDir _
    (Session.sound_start hkept hverdicts)
  unfold resolve ResolutionFs.resolve
  rw [← hanswer]
  dsimp only
  split
  · next found hfound =>
    obtain ⟨hreal, hfinish⟩ := hsound.finish found
    rw [hfound, hreal]
    exact ⟨rfl, fun k hk => hfinish.kept hk⟩
  · next hnot =>
    refine ⟨?_, fun k hk => hsound.kept hk⟩
    cases hrun : ((resolveCached fs options (Session.tree fs parse) stack specifier fromDir).run
        (Session.start kept)).1 with
    | error refusal => rfl
    | ok found => cases found with
      | none => rfl
      | some found => exact absurd hrun (hnot found)

/-! ## Runs -/

/-- What a process does with its resolver. -/
inductive Action
  | resolve (specifier fromDir : Str)
  | openWindow
  | closeWindow

def ResolutionKept.after (fs : ResolutionFs Digest) (parse : Str → Option Json)
    (options : NodeResolverOptions) (stack : ℕ) (kept : ResolutionKept Digest) :
    Action → ResolutionKept Digest
  | .resolve specifier fromDir =>
      (NodeResolution.resolve fs parse options stack specifier fromDir (some kept)).2.getD kept
  | .openWindow => { kept with window := some ⟨[], []⟩ }
  | .closeWindow => { kept with window := none }

def ResolutionKept.run (fs : ResolutionFs Digest) (parse : Str → Option Json)
    (options : NodeResolverOptions) (stack : ℕ) (actions : List Action) : ResolutionKept Digest :=
  actions.foldl (ResolutionKept.after fs parse options stack) .empty

theorem holds_after (hverdicts : Verdicts fs options) {stack : ℕ} {kept : ResolutionKept Digest}
    (h : kept.Holds fs parse options) (action : Action) :
    (kept.after fs parse options stack action).Holds fs parse options := by
  cases action with
  | resolve specifier fromDir =>
    have hspec := (resolve_spec (some kept) (fun k hk => Option.some.inj hk ▸ h)
      (fun _ => hverdicts) stack specifier fromDir).2
    change ((resolve fs parse options stack specifier fromDir (some kept)).2.getD kept).Holds
      fs parse options
    cases hafter : (resolve fs parse options stack specifier fromDir (some kept)).2 with
    | none => exact h
    | some k => exact hspec k hafter
  | openWindow =>
    exact ⟨h.manifests, h.missing, h.realPaths,
      (fun hw hfind => by cases hw; cases hfind), (fun hw hfind => by cases hw; cases hfind),
      h.verdicts⟩
  | closeWindow =>
    exact ⟨h.manifests, h.missing, h.realPaths, (fun hw => nomatch hw), (fun hw => nomatch hw),
      h.verdicts⟩

theorem holds_run (hverdicts : Verdicts fs options) (stack : ℕ) (actions : List Action) :
    (ResolutionKept.run fs parse options stack actions).Holds fs parse options := by
  have hempty : (ResolutionKept.empty : ResolutionKept Digest).Holds fs parse options :=
    ⟨(fun hfind => nomatch hfind), (fun _ hmem => nomatch hmem), (fun _ hfind => nomatch hfind),
      (fun hw => nomatch hw), (fun hw => nomatch hw), (fun hfind => nomatch hfind)⟩
  have hfold (kept : ResolutionKept Digest) (h : kept.Holds fs parse options) :
      (actions.foldl (ResolutionKept.after fs parse options stack) kept).Holds fs parse
        options := by
    induction actions generalizing kept with
    | nil => exact h
    | cons action actions ih => exact ih _ (holds_after hverdicts h action)
  exact hfold _ hempty

/-- After any run of resolutions and windows, a resolution comes to the same with the store
of its process as without one. -/
theorem resolve_eq_of_run (hverdicts : Verdicts fs options) (stack : ℕ) (actions : List Action)
    (specifier fromDir : Str) :
    (resolve fs parse options stack specifier fromDir
        (some (ResolutionKept.run fs parse options stack actions))).1 =
      (resolve fs parse options stack specifier fromDir none).1 := by
  have hwith := (resolve_spec (some (ResolutionKept.run fs parse options stack actions))
    (fun k hk => Option.some.inj hk ▸ holds_run hverdicts stack actions) (fun _ => hverdicts)
    stack specifier fromDir).1
  have hwithout : (resolve fs parse options stack specifier fromDir none).1 =
      fs.resolve parse options stack specifier fromDir :=
    (resolve_spec none (fun k hk => nomatch hk) (fun hne => absurd rfl hne) stack specifier
      fromDir).1
  rw [hwith, hwithout]

def twoStubs : ResolutionFs ℕ where
  kindSync _ := none
  statSync path :=
    if path ∈ ["/node_modules".toList, "/node_modules/a".toList, "/node_modules/b".toList] then
      .ok (some ⟨false, true, none⟩)
    else if path ∈ ["/node_modules/a/x.cjs".toList, "/node_modules/b/x.cjs".toList] then
      .ok (some ⟨true, false, some 0⟩)
    else if path ∈ ["/node_modules/a/package.json".toList, "/node_modules/b/package.json".toList,
        "/node_modules/a/x.mjs".toList, "/node_modules/b/x.mjs".toList] then
      .ok (some ⟨true, false, none⟩)
    else .ok none
  readFileSync path :=
    if path = "/node_modules/a/x.cjs".toList then .error "EACCES".toList
    else if path = "/node_modules/b/x.cjs".toList then .ok (.text "throw new Error()".toList)
    else .ok (.text [])
  realpathSync := none
  contentDigest _ := none

/-- Manifests with an exports map for `require` and `import`. -/
def dualManifest (_ : Str) : Option Json :=
  some (.object [("exports".toList, .object [("require".toList, .string "./x.cjs".toList),
    ("import".toList, .string "./x.mjs".toList)])])

def dualExports : ExportsResolver where
  resolve _ entry conditions :=
    if entry ≠ ['.'] then none
    else if "require".toList ∈ conditions then some ["./x.cjs".toList]
    else if "import".toList ∈ conditions then some ["./x.mjs".toList]
    else none
  imports _ _ _ := none

def runtimeOptions (exports : ExportsResolver) : NodeResolverOptions where
  exports := exports
  conditionSets := [["require".toList, "node".toList, "default".toList],
    ["import".toList, "node".toList, "default".toList]]
  conditionSetsFor _ := none
  extensions := [".js".toList, ".json".toList, ".node".toList, ".cjs".toList, ".mjs".toList,
    ".ts".toList, ".mts".toList, ".cts".toList]
  mainFields := ["main", "module"]
  globalRoots := ["/node_modules".toList]
  workspaceMembers := []
  sourceExtensions := some [".js".toList, ".mjs".toList, ".cjs".toList]
  skipThrowingCjs := true
  throwNotExported := true

/-- The stub of `b` is skipped without a store, and taken where `a` was resolved before. -/
theorem resolve_ne_of_unreadable :
    ¬ (resolve twoStubs dualManifest (runtimeOptions dualExports) 0 ['b'] ['/']
        (some (ResolutionKept.run twoStubs dualManifest (runtimeOptions dualExports) 0
          [.resolve ['a'] ['/']]))).1 =
      (resolve twoStubs dualManifest (runtimeOptions dualExports) 0 ['b'] ['/'] none).1 := by
  decide +kernel

/-- Without stubs to skip the digests do not matter. -/
theorem resolve_eq_of_run_noStubs :
    (resolve twoStubs dualManifest { runtimeOptions dualExports with skipThrowingCjs := false } 0
        ['b'] ['/'] (some (ResolutionKept.run twoStubs dualManifest
          { runtimeOptions dualExports with skipThrowingCjs := false } 0
          [.openWindow, .resolve ['a'] ['/'], .closeWindow]))).1 =
      (resolve twoStubs dualManifest { runtimeOptions dualExports with skipThrowingCjs := false } 0
        ['b'] ['/'] none).1 :=
  resolve_eq_of_run (fun hp => absurd hp.1 Bool.false_ne_true) 0 _ _ _

end NodeResolution

end Tabnode
