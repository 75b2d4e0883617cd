import Zl.Pkg.LockFile

namespace zl.pkg

/-- A commit is named by 4 to 64 lower-case hex digits. -/
def isPinnedSha (sha : Bytes) : Bool :=
  4 ≤ sha.length && sha.length ≤ 64 &&
    sha.all fun c => ('0'.toUInt8 ≤ c && c ≤ '9'.toUInt8) || ('a'.toUInt8 ≤ c && c ≤ 'f'.toUInt8)

abbrev Commit := { sha : Bytes // isPinnedSha sha = true }

/-- The file system with the git cache, and what git does. A command that fails has no output. -/
structure Environment extends FileSystem where
  exists_of_read : ∀ {p : Path} {file : Bytes}, read p = some file → exists' p = true
  /-- The commit that a source and a ref resolve to, where they are allowed and git can fetch it. -/
  commitOf : Bytes → Bytes → Option Commit

structure GitFetchResult where
  resolvedSha : Commit
  dir : Path

def cacheDir (cacheRoot : Path) (name sha : Bytes) : Path := (cacheRoot.join name).join sha

def manifestFile : Bytes := ascii ['z', 'l', 'p', 'k', 'g', '.', 't', 'o', 'm', 'l']

def cacheName : Bytes := ascii ['.', 'z', 'l', 'p', 'k', 'g']

def localRef : Bytes := ascii ['l', 'o', 'c', 'a', 'l']

section
variable (env : Environment)

/-- The commit, checked out where the cache has it. -/
def fetchGit (url ref : Bytes) (cacheRoot : Path) (depName : Bytes) : Option GitFetchResult :=
  (env.commitOf url ref).map fun sha => { resolvedSha := sha, dir := cacheDir cacheRoot depName sha }

/-- The manifest of the package in a directory. -/
def packageAt (dir : Path) : Except ManifestError Manifest :=
  loadManifest env.toFileSystem (dir.join manifestFile)

end

/-- What a dependency is, whatever its name. -/
inductive Identity where
  | path (dir : Path)
  | git (source sha : Bytes)
  deriving DecidableEq

structure QueueItem where
  dep : Dependency
  requesterDir : Path
  requesterLabel : Bytes

structure Track where
  identity : Identity
  requesterLabel : Bytes

inductive ResolveError where
  | pathMissing (name requester source : Bytes)
  | git (name requester : Bytes)
  | conflict (name first second : Bytes)
  | versionPin (name requested declared : Bytes)
  | manifestMissing (name : Bytes) (manifestPath : Path)
  | badManifest (name : Bytes) (error : ManifestError)
  | wrongName (name declared : Bytes)

/-- The state of `resolveAll`. The results stand beside their tracks, and `indexByName` is the position
    of a name among them. -/
structure Resolver where
  queue : List QueueItem
  results : List (ResolvedDependency × Track) := []
  descended : List Identity := []
  fetchMemo : List ((Bytes × Bytes) × GitFetchResult) := []
  versionByIdentity : List (Identity × Bytes) := []

section
variable (env : Environment) (cacheRoot : Path)

/-- Where a dependency is, and its identity. -/
def locate (memo : List ((Bytes × Bytes) × GitFetchResult)) (item : QueueItem) :
    Except ResolveError (ResolvedDependency × Identity × List ((Bytes × Bytes) × GitFetchResult)) :=
  let dep := item.dep
  let rd : ResolvedDependency :=
    { name := dep.name, kind := dep.kind, source := dep.source, declaredRef := dep.ref }
  match dep.kind with
  | .path =>
    match env.weaklyCanonical (item.requesterDir.join dep.source) with
    | none => .error (.pathMissing dep.name item.requesterLabel dep.source)
    | some absDir =>
      if env.exists' absDir then .ok ({ rd with dir := absDir, resolvedRef := localRef },
        .path absDir, memo)
      else .error (.pathMissing dep.name item.requesterLabel dep.source)
  | .git =>
    match memo.lookup (dep.source, dep.ref) with
    | some fetched =>
      .ok ({ rd with dir := fetched.dir, resolvedRef := fetched.resolvedSha },
        .git dep.source fetched.resolvedSha, memo)
    | none =>
      match fetchGit env dep.source dep.ref cacheRoot dep.name with
      | none => .error (.git dep.name item.requesterLabel)
      | some fetched =>
        .ok ({ rd with dir := fetched.dir, resolvedRef := fetched.resolvedSha },
          .git dep.source fetched.resolvedSha, ((dep.source, dep.ref), fetched) :: memo)

/-- A name that was resolved before. -/
def resolveAgain (item : QueueItem) (identity : Identity) (track : Track) (s : Resolver) :
    Except ResolveError Resolver :=
  if track.identity ≠ identity then .error
    (.conflict item.dep.name track.requesterLabel item.requesterLabel)
  else
    let actualVersion := (s.versionByIdentity.lookup track.identity).getD []
    if item.dep.version ≠ [] ∧ actualVersion ≠ item.dep.version then
      .error (.versionPin item.dep.name item.dep.version actualVersion)
    else .ok s

/-- The dependencies of a package are queued. -/
def subItems (name : Bytes) (manifest : Manifest) : List QueueItem :=
  manifest.dependencies.map fun dep =>
    { dep := dep, requesterDir := manifest.manifestDir, requesterLabel := name }

/-- A name that is new. -/
def resolveNew (item : QueueItem) (rd : ResolvedDependency) (identity : Identity) (s : Resolver) :
    Except ResolveError Resolver :=
  let dep := item.dep
  if env.exists' (rd.dir.join manifestFile) then
    match packageAt env rd.dir with
    | .error e => .error (.badManifest dep.name e)
    | .ok manifest =>
      if manifest.name ≠ dep.name then .error (.wrongName dep.name manifest.name)
      else if dep.version ≠ [] ∧ manifest.version ≠ dep.version then .error
        (.versionPin dep.name dep.version manifest.version)
      else
        .ok { s with
          queue := if identity ∈ s.descended then s.queue else s.queue ++ subItems dep.name manifest
          results := s.results ++
            [({ rd with packageVersion := manifest.version, depsFingerprint := lockDepsFingerprint manifest },
              { identity := identity, requesterLabel := item.requesterLabel })]
          descended := if identity ∈ s.descended then s.descended else identity :: s.descended
          versionByIdentity := (identity, manifest.version) :: s.versionByIdentity }
  else .error (.manifestMissing dep.name (rd.dir.join manifestFile))

def resolveItem (item : QueueItem) (s : Resolver) : Except ResolveError Resolver :=
  match locate env cacheRoot s.fetchMemo item with
  | .error e => .error e
  | .ok (rd, identity, memo) =>
    let s := { s with fetchMemo := memo }
    match s.results.find? fun result => result.1.name = item.dep.name with
    | some result => resolveAgain item identity result.2 s
    | none => resolveNew env item rd identity s

/-- The loop of `resolveAll`, cut off after `fuel` rounds. -/
def resolveQueue : Nat → Resolver → Option (Except ResolveError (List ResolvedDependency))
  | 0, _ => none
  | fuel + 1, s =>
    match s.queue with
    | [] => some (.ok (s.results.map Prod.fst))
    | item :: queue =>
      match resolveItem env cacheRoot item { s with queue := queue } with
      | .error e => some (.error e)
      | .ok s => resolveQueue fuel s

end

def rootLabel : Bytes :=
  ascii ['<', 'p', 'r', 'o', 'j', 'e', 'c', 't', ' ', 'r', 'o', 'o', 't', '>']

def cacheRootOf (manifest : Manifest) : Path := manifest.manifestDir.join cacheName

/-- `resolveAll` comes to an end, with these results. -/
def ResolvesTo (env : Environment) (manifest : Manifest) (results : List ResolvedDependency) : Prop :=
  ∃ fuel, resolveQueue env (cacheRootOf manifest) fuel { queue := subItems rootLabel manifest } =
    some (.ok results)

section
variable (env : Environment) (cacheRoot : Path)

/-- A declared dependency is the package in a directory, with an identity. -/
def LeadsTo (requesterDir : Path) (dep : Dependency) (identity : Identity) (dir : Path) : Prop :=
  match dep.kind with
  | .path =>
    env.weaklyCanonical (requesterDir.join dep.source) = some dir ∧ env.exists' dir = true ∧
      identity = .path dir
  | .git =>
    ∃ sha, env.commitOf dep.source dep.ref = some sha ∧ dir = cacheDir cacheRoot dep.name sha ∧
      identity = .git dep.source sha

/-- A declared dependency was resolved. -/
def Done (s : Resolver) (requesterDir : Path) (dep : Dependency) : Prop :=
  ∃ r ∈ s.results, r.1.name = dep.name ∧ r.1.kind = dep.kind ∧
    LeadsTo env cacheRoot requesterDir dep r.2.identity r.1.dir ∧
    (dep.version ≠ [] → r.1.packageVersion = dep.version)

end

section
variable {env : Environment} {cacheRoot : Path}
variable {item : QueueItem} {identity : Identity} {s s' : Resolver}

theorem locate_ok {memo memo' : List ((Bytes × Bytes) × GitFetchResult)} {rd : ResolvedDependency}
    (h : locate env cacheRoot memo item = .ok (rd, identity, memo')) :
    (rd.name = item.dep.name ∧ rd.kind = item.dep.kind ∧ rd.source = item.dep.source ∧
      rd.declaredRef = item.dep.ref) ∧
      ((item.dep.kind = .path ∧ memo' = memo ∧ rd.resolvedRef = localRef ∧
      LeadsTo env cacheRoot item.requesterDir item.dep identity rd.dir) ∨
      (item.dep.kind = .git ∧ ∃ fetched, rd.dir = fetched.dir ∧
      rd.resolvedRef = fetched.resolvedSha.val ∧
      identity = .git item.dep.source fetched.resolvedSha ∧
      ((memo' = memo ∧ ((item.dep.source, item.dep.ref), fetched) ∈ memo) ∨
      (memo' = ((item.dep.source, item.dep.ref), fetched) :: memo ∧
      env.commitOf item.dep.source item.dep.ref = some fetched.resolvedSha ∧
      fetched.dir = cacheDir cacheRoot item.dep.name fetched.resolvedSha)))) := by
  unfold locate at h
  dsimp only at h
  split at h
  · next hkind =>
    split at h
    · nomatch h
    · next absDir habs =>
      split at h
      · next hexists =>
        cases Except.ok.inj h
        refine ⟨⟨rfl, rfl, rfl, rfl⟩, .inl ⟨hkind, rfl, rfl, ?_⟩⟩
        rw [LeadsTo, hkind]
        exact ⟨habs, hexists, rfl⟩
      · nomatch h
  · next hkind =>
    split at h
    · next fetched hlookup =>
      cases Except.ok.inj h
      obtain ⟨before, after, heq, -⟩ := List.lookup_eq_some_iff.mp hlookup
      refine ⟨⟨rfl, rfl, rfl, rfl⟩, .inr ⟨hkind, fetched, rfl, rfl, rfl, .inl ⟨rfl, ?_⟩⟩⟩
      rw [heq]
      exact List.mem_append_right _ List.mem_cons_self
    · split at h
      · nomatch h
      · next fetched hfetch =>
        cases Except.ok.inj h
        obtain ⟨sha, hsha, hfetched⟩ := Option.map_eq_some_iff.mp hfetch
        subst hfetched
        exact ⟨⟨rfl, rfl, rfl, rfl⟩, .inr ⟨hkind, _, rfl, rfl, rfl, .inr ⟨rfl, hsha, rfl⟩⟩⟩

theorem resolveAgain_ok {track : Track} (h : resolveAgain item identity track s = .ok s') :
    s' = s ∧ track.identity = identity ∧
      (item.dep.version ≠ [] → (s.versionByIdentity.lookup identity).getD [] = item.dep.version) := by
  unfold resolveAgain at h
  split at h
  · nomatch h
  · next hidentity =>
    have heq := not_not.mp hidentity
    dsimp only at h
    split at h
    · nomatch h
    · next hpin =>
      refine ⟨(Except.ok.inj h).symm, heq, fun hversion => ?_⟩
      rw [← heq]
      by_contra hne
      exact hpin ⟨hversion, hne⟩

/-- What a package adds to the state. -/
def Resolver.add (s : Resolver) (item : QueueItem) (rd : ResolvedDependency) (identity : Identity)
    (m : Manifest) : Resolver :=
  { s with
    queue := if identity ∈ s.descended then s.queue else s.queue ++ subItems item.dep.name m
    results := s.results ++
      [({ rd with packageVersion := m.version, depsFingerprint := lockDepsFingerprint m },
        { identity := identity, requesterLabel := item.requesterLabel })]
    descended := if identity ∈ s.descended then s.descended else identity :: s.descended
    versionByIdentity := (identity, m.version) :: s.versionByIdentity }

theorem resolveNew_ok {rd : ResolvedDependency} (h : resolveNew env item rd identity s = .ok s') :
    ∃ m, packageAt env rd.dir = .ok m ∧ m.name = item.dep.name ∧
      (item.dep.version ≠ [] → m.version = item.dep.version) ∧ s' = s.add item rd identity m := by
  unfold resolveNew at h
  dsimp only at h
  split at h
  · split at h
    · nomatch h
    · next m hm =>
      split at h
      · nomatch h
      · next hname =>
        split at h
        · nomatch h
        · next hpin =>
          refine ⟨m, hm, not_not.mp hname, fun hversion => ?_, (Except.ok.inj h).symm⟩
          by_contra hne
          exact hpin ⟨hversion, hne⟩
  · nomatch h

theorem resolveItem_ok (h : resolveItem env cacheRoot item s = .ok s') :
    ∃ rd identity memo, locate env cacheRoot s.fetchMemo item = .ok (rd, identity, memo) ∧
      ((∃ r ∈ s.results, r.1.name = item.dep.name ∧ r.2.identity = identity ∧
          (item.dep.version ≠ [] → (s.versionByIdentity.lookup identity).getD [] = item.dep.version) ∧
          s' = { s with fetchMemo := memo }) ∨
        ((∀ r ∈ s.results, r.1.name ≠ item.dep.name) ∧ ∃ m, packageAt env rd.dir = .ok m ∧
          m.name = item.dep.name ∧ (item.dep.version ≠ [] → m.version = item.dep.version) ∧
          s' = { s with fetchMemo := memo }.add item rd identity m)) := by
  unfold resolveItem at h
  split at h
  · nomatch h
  · next rd identity memo hlocate =>
    refine ⟨rd, identity, memo, hlocate, ?_⟩
    dsimp only at h
    split at h
    · next r hfind =>
      obtain ⟨rfl, hidentity, hpin⟩ := resolveAgain_ok h
      have hname : r.1.name = item.dep.name := by simpa using List.find?_some hfind
      exact .inl ⟨r, List.mem_of_find?_eq_some hfind, hname, hidentity, hpin, rfl⟩
    · next hfind =>
      refine .inr ⟨fun r hr hname => ?_, resolveNew_ok h⟩
      exact absurd (decide_eq_true hname) (List.find?_eq_none.mp hfind r hr)

end

end zl.pkg
