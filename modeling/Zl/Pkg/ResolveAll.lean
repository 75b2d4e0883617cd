import Mathlib
import Zl.Pkg.Resolver

namespace zl.pkg

section
variable (env : Environment) (root : Manifest)

/-- The declarations that the root manifest leads to, each with the directory it is relative to. -/
inductive Reaches : Path → Dependency → Prop
  | root {dep : Dependency} (hdep : dep ∈ root.dependencies) : Reaches root.manifestDir dep
  | step {requesterDir dir : Path} {dep dep' : Dependency} {identity : Identity} {m : Manifest}
      (hreaches : Reaches requesterDir dep)
      (hleads : LeadsTo env (cacheRootOf root) requesterDir dep identity dir)
      (hpackage : packageAt env dir = .ok m) (hdep : dep' ∈ m.dependencies) : Reaches m.manifestDir dep'

/-- The package of a declaration, with the name and the version that it asks for. -/
structure Finds (requesterDir : Path) (dep : Dependency) (identity : Identity) (dir : Path)
    (m : Manifest) :
    Prop where
  leads : LeadsTo env (cacheRootOf root) requesterDir dep identity dir
  package : packageAt env dir = .ok m
  name : m.name = dep.name
  pin : dep.version ≠ [] → m.version = dep.version

/-- A package graph without a fault. -/
structure Sound : Prop where
  finds : ∀ requesterDir dep, Reaches env root requesterDir dep →
    ∃ identity dir m, Finds env root requesterDir dep identity dir m
  agrees : ∀ requesterDir dep requesterDir' dep' identity dir identity' dir',
    Reaches env root requesterDir dep → Reaches env root requesterDir' dep' → dep.name = dep'.name →
    LeadsTo env (cacheRootOf root) requesterDir dep identity dir →
    LeadsTo env (cacheRootOf root) requesterDir' dep' identity' dir' → identity = identity'

/-- Checkouts of one commit hold packages of one name. -/
def GitIsFunction : Prop :=
  ∀ url ref sha name name' m m', env.commitOf url ref = some sha →
    packageAt env (cacheDir (cacheRootOf root) name sha) = .ok m →
    packageAt env (cacheDir (cacheRootOf root) name' sha) = .ok m' → m.name = m'.name

/-- The declarations have finitely many names. -/
def FiniteGraph : Prop :=
  ∃ names : Finset Bytes, ∀ requesterDir dep, Reaches env root requesterDir dep → dep.name ∈ names

end

def refOf : Identity → Bytes
  | .path _ => localRef
  | .git _ sha => sha

section
variable {env : Environment} {cacheRoot requesterDir requesterDir' dir dir' : Path}
  {dep dep' : Dependency}
  {identity identity' : Identity}

theorem LeadsTo.unique (h : LeadsTo env cacheRoot requesterDir dep identity dir)
    (h' : LeadsTo env cacheRoot requesterDir dep identity' dir') : identity = identity' ∧ dir = dir' := by
  unfold LeadsTo at h h'
  split at h
  next hkind =>
    rw [hkind] at h'
    obtain ⟨hdir, -, rfl⟩ := h
    obtain ⟨hdir', -, rfl⟩ := h'
    obtain rfl := Option.some.inj (hdir.symm.trans hdir')
    exact ⟨rfl, rfl⟩
  next hkind =>
    rw [hkind] at h'
    obtain ⟨sha, hsha, rfl, rfl⟩ := h
    obtain ⟨sha', hsha', rfl, rfl⟩ := h'
    obtain rfl := Option.some.inj (hsha.symm.trans hsha')
    exact ⟨rfl, rfl⟩

theorem LeadsTo.dir_eq (h : LeadsTo env cacheRoot requesterDir dep identity dir)
    (h' : LeadsTo env cacheRoot requesterDir' dep' identity dir') (hname : dep.name = dep'.name) :
    dir = dir' ∧ dep.kind = dep'.kind := by
  unfold LeadsTo at h h'
  cases hkind : dep.kind with
  | path =>
    rw [hkind] at h
    obtain ⟨-, -, rfl⟩ := h
    cases hkind' : dep'.kind with
    | path =>
      rw [hkind'] at h'
      exact ⟨Identity.path.inj h'.2.2, rfl⟩
    | git =>
      rw [hkind'] at h'
      obtain ⟨_, _, _, heq⟩ := h'
      cases heq
  | git =>
    rw [hkind] at h
    obtain ⟨sha, -, rfl, rfl⟩ := h
    cases hkind' : dep'.kind with
    | path =>
      rw [hkind'] at h'
      cases h'.2.2
    | git =>
      rw [hkind'] at h'
      obtain ⟨sha', -, rfl, heq⟩ := h'
      rw [hname, (Identity.git.inj heq).2]
      exact ⟨rfl, rfl⟩

theorem LeadsTo.git {url sha : Bytes} (h : LeadsTo env cacheRoot requesterDir dep (.git url sha) dir) :
    (∃ ref commit, env.commitOf url ref = some commit ∧ commit.val = sha) ∧
      dir = cacheDir cacheRoot dep.name sha := by
  unfold LeadsTo at h
  split at h
  · cases h.2.2
  · obtain ⟨commit, hcommit, rfl, heq⟩ := h
    obtain ⟨rfl, rfl⟩ := Identity.git.inj heq
    exact ⟨⟨_, commit, hcommit, rfl⟩, rfl⟩

theorem LeadsTo.path (h : LeadsTo env cacheRoot requesterDir dep (.path dir') dir) : dir = dir' := by
  unfold LeadsTo at h
  split at h
  · exact (Identity.path.inj h.2.2).symm
  · obtain ⟨_, _, _, heq⟩ := h
    cases heq

end

section
variable (env : Environment) (root : Manifest)

/-- A declaration is still in the queue, or it was resolved. -/
def Pending (s : Resolver) (requesterDir : Path) (dep : Dependency) : Prop :=
  (∃ item ∈ s.queue, item.requesterDir = requesterDir ∧ item.dep = dep) ∨
    Done env (cacheRootOf root) s requesterDir dep

/-- A result is a package that was reached, and its declarations are pending. -/
def ResultOk (s : Resolver) (r : ResolvedDependency × Track) : Prop :=
  ∃ requesterDir dep m, Reaches env root requesterDir dep ∧
    Finds env root requesterDir dep r.2.identity r.1.dir m ∧ r.1.name = dep.name ∧ r.1.kind = dep.kind ∧
    r.1.resolvedRef = refOf r.2.identity ∧ r.1.packageVersion = m.version ∧
    ∀ d ∈ m.dependencies, Pending env root s m.manifestDir d

structure Consistent (s : Resolver) : Prop where
  queue : ∀ item ∈ s.queue, Reaches env root item.requesterDir item.dep
  names_nodup : (s.results.map fun r => r.1.name).Nodup
  results : ∀ r ∈ s.results, ResultOk env root s r
  roots : ∀ dep ∈ root.dependencies, Pending env root s root.manifestDir dep
  memo : ∀ entry ∈ s.fetchMemo, env.commitOf entry.1.1 entry.1.2 = some entry.2.resolvedSha ∧
    ∃ r ∈ s.results, r.1.dir = entry.2.dir ∧ r.2.identity = .git entry.1.1 entry.2.resolvedSha
  versions : ∀ r ∈ s.results, s.versionByIdentity.lookup r.2.identity = some r.1.packageVersion
  descended : ∀ identity ∈ s.descended, ∃ r ∈ s.results, r.2.identity = identity

end

section
variable {env : Environment} {root : Manifest} {requesterDir requesterDir' dir dir' : Path}
  {dep dep' : Dependency} {identity : Identity} {m m' : Manifest} {s s' : Resolver} {item : QueueItem}
  {queue : List QueueItem}

theorem Finds.name_eq (hgit : GitIsFunction env root) (h : Finds env root requesterDir dep identity dir m)
    (h' : Finds env root requesterDir' dep' identity dir' m') : dep.name = dep'.name := by
  cases identity with
  | path absDir =>
    have hpackage := h.package
    rw [h.leads.path, ← h'.leads.path, h'.package] at hpackage
    obtain rfl := Except.ok.inj hpackage
    exact h.name.symm.trans h'.name
  | git url sha =>
    obtain ⟨⟨ref, commit, hcommit, hsha⟩, hdir⟩ := h.leads.git
    obtain ⟨-, hdir'⟩ := h'.leads.git
    have hpackage := h.package
    have hpackage' := h'.package
    rw [hdir, ← hsha] at hpackage
    rw [hdir', ← hsha] at hpackage'
    rw [← h.name, ← h'.name]
    exact hgit url ref commit _ _ m m' hcommit hpackage hpackage'

theorem eq_of_name (hnodup : (s.results.map fun r => r.1.name).Nodup) {r r' : ResolvedDependency × Track}
    (hr : r ∈ s.results) (hr' : r' ∈ s.results) (hname : r.1.name = r'.1.name) : r = r' :=
  List.inj_on_of_nodup_map hnodup hr hr' hname

/-- Where an item of the queue leads to. A fetch of before may be in the directory of a result. -/
theorem locate_leads (hs : Consistent env root s) {memo : List ((Bytes × Bytes) × GitFetchResult)}
    {rd : ResolvedDependency}
    (h : locate env (cacheRootOf root) s.fetchMemo item = .ok (rd, identity, memo)) :
    (rd.name = item.dep.name ∧ rd.kind = item.dep.kind ∧ rd.resolvedRef = refOf identity) ∧
      ∃ dir, LeadsTo env (cacheRootOf root) item.requesterDir item.dep identity dir ∧
        (rd.dir = dir ∨ ∃ r ∈ s.results, r.1.dir = rd.dir ∧ r.2.identity = identity) ∧
        ∀ entry ∈ memo, entry ∈ s.fetchMemo ∨
          env.commitOf entry.1.1 entry.1.2 = some entry.2.resolvedSha ∧ entry.2.dir = dir ∧ rd.dir = dir ∧
            identity = .git entry.1.1 entry.2.resolvedSha := by
  obtain ⟨⟨hname, hkind, hsource, href⟩, hpath | hfetched⟩ := locate_ok h
  · obtain ⟨hdep, rfl, hresolved, hleads⟩ := hpath
    refine ⟨⟨hname, hkind, ?_⟩, rd.dir, hleads, .inl rfl, fun entry hentry => .inl hentry⟩
    rw [hresolved]
    rw [LeadsTo, hdep] at hleads
    rw [hleads.2.2]
    rfl
  · obtain ⟨hdep, fetched, hdir, hresolved, rfl, ⟨rfl, hmem⟩ | ⟨rfl, hcommit, hcache⟩⟩ := hfetched
    · obtain ⟨hcommit, r, hr, hrdir, hridentity⟩ := hs.memo _ hmem
      refine ⟨⟨hname, hkind, hresolved⟩,
        cacheDir (cacheRootOf root) item.dep.name fetched.resolvedSha, ?_,
        .inr ⟨r, hr, hrdir.trans hdir.symm, hridentity⟩, fun entry hentry => .inl hentry⟩
      rw [LeadsTo, hdep]
      exact ⟨fetched.resolvedSha, hcommit, rfl, rfl⟩
    · refine ⟨⟨hname, hkind, hresolved⟩, fetched.dir, ?_, .inl hdir, fun entry hentry => ?_⟩
      · rw [LeadsTo, hdep]
        exact ⟨fetched.resolvedSha, hcommit, hcache, rfl⟩
      · cases List.mem_cons.mp hentry with
        | inl heq =>
          subst heq
          exact .inr ⟨hcommit, rfl, hdir, rfl⟩
        | inr hold => exact .inl hold

theorem Done.mono (hresults : ∀ r ∈ s.results, r ∈ s'.results)
    (h : Done env (cacheRootOf root) s requesterDir dep) :
    Done env (cacheRootOf root) s' requesterDir dep := by
  obtain ⟨r, hr, hdone⟩ := h
  exact ⟨r, hresults r hr, hdone⟩

theorem Pending.step (hqueue : s.queue = item :: queue) (hresults : ∀ r ∈ s.results, r ∈ s'.results)
    (hkept : ∀ i ∈ queue, i ∈ s'.queue) (hdone : Done env (cacheRootOf root) s' item.requesterDir item.dep)
    (h : Pending env root s requesterDir dep) : Pending env root s' requesterDir dep := by
  cases h with
  | inl hwaits =>
    obtain ⟨i, hi, rfl, rfl⟩ := hwaits
    rw [hqueue] at hi
    cases List.mem_cons.mp hi with
    | inl heq => exact .inr (heq ▸ hdone)
    | inr hi => exact .inl ⟨i, hkept i hi, rfl, rfl⟩
  | inr hdone => exact .inr (hdone.mono hresults)

theorem ResultOk.step {r : ResolvedDependency × Track}
    (hpending : ∀ requesterDir dep, Pending env root s requesterDir dep →
      Pending env root s' requesterDir dep)
    (h : ResultOk env root s r) : ResultOk env root s' r := by
  obtain ⟨requesterDir, dep, m, hreaches, hfinds, hname, hkind, href, hversion, hdeps⟩ := h
  exact ⟨requesterDir, dep, m, hreaches, hfinds, hname, hkind, href, hversion,
    fun d hd => hpending _ _ (hdeps d hd)⟩

theorem Consistent.again (hs : Consistent env root s) (hqueue : s.queue = item :: queue)
    {memo : List ((Bytes × Bytes) × GitFetchResult)} {rd : ResolvedDependency}
    (hlocate : locate env (cacheRootOf root) s.fetchMemo item = .ok (rd, identity, memo))
    {r : ResolvedDependency × Track} (hr : r ∈ s.results) (hname : r.1.name = item.dep.name)
    (hidentity : r.2.identity = identity)
    (hpin : item.dep.version ≠ [] → (s.versionByIdentity.lookup identity).getD [] = item.dep.version) :
    Consistent env root { s with queue := queue, fetchMemo := memo } := by
  obtain ⟨-, dir, hleads, hdir, hmemo⟩ := locate_leads hs hlocate
  obtain ⟨requesterDir, dep, m, -, hfinds, hname', hkind, -, hversion, -⟩ := hs.results r hr
  subst hidentity
  obtain ⟨hsame, hkind'⟩ := hleads.dir_eq hfinds.leads (hname.symm.trans hname')
  have hdone : Done env (cacheRootOf root) { s with queue := queue, fetchMemo := memo } item.requesterDir
      item.dep := by
    refine ⟨r, hr, hname, hkind.trans hkind'.symm, hsame ▸ hleads, fun hpinned => ?_⟩
    rw [← hpin hpinned, hs.versions r hr, Option.getD_some]
  have hpending (requesterDir : Path) (dep : Dependency) (h : Pending env root s requesterDir dep) :
      Pending env root { s with queue := queue, fetchMemo := memo } requesterDir dep :=
    h.step hqueue (fun _ hr => hr) (fun _ hi => hi) hdone
  exact {
    queue := fun i hi => hs.queue i (hqueue ▸ List.mem_cons_of_mem _ hi)
    names_nodup := hs.names_nodup
    results := fun r hr => (hs.results r hr).step hpending
    roots := fun dep hdep => hpending _ _ (hs.roots dep hdep)
    memo := fun entry hentry => by
      rcases hmemo entry hentry with hold | ⟨hcommit, hcache, -, heq⟩
      · exact hs.memo entry hold
      · exact ⟨hcommit, r, hr, hsame.symm.trans hcache.symm, heq⟩
    versions := hs.versions
    descended := hs.descended }

theorem Consistent.add (hgit : GitIsFunction env root) (hs : Consistent env root s)
    (hqueue : s.queue = item :: queue) {memo : List ((Bytes × Bytes) × GitFetchResult)}
    {rd : ResolvedDependency}
    (hlocate : locate env (cacheRootOf root) s.fetchMemo item = .ok (rd, identity, memo))
    (hnew : ∀ r ∈ s.results, r.1.name ≠ item.dep.name) (hm : packageAt env rd.dir = .ok m)
    (hname : m.name = item.dep.name) (hpin : item.dep.version ≠ [] → m.version = item.dep.version) :
    Consistent env root (({ s with queue := queue, fetchMemo := memo } : Resolver).add item rd
      identity m) := by
  obtain ⟨⟨hrdname, hrdkind, hrdref⟩, dir, hleads, hdir, hmemo⟩ := locate_leads hs hlocate
  -- A fetch of before is in the directory of a package of another name.
  obtain rfl : rd.dir = dir := by
    refine hdir.resolve_right ?_
    rintro ⟨r, hr, hrdir, -⟩
    obtain ⟨_, dep, m', -, hfinds, hname', -⟩ := hs.results r hr
    have hpackage := hfinds.package
    rw [hrdir, hm] at hpackage
    obtain rfl := Except.ok.inj hpackage
    exact hnew r hr (hname'.trans (hfinds.name.symm.trans hname))
  have hreaches : Reaches env root item.requesterDir item.dep :=
    hs.queue item (hqueue ▸ List.mem_cons_self)
  have hfinds : Finds env root item.requesterDir item.dep identity rd.dir m := ⟨hleads, hm, hname, hpin⟩
  have hother {r : ResolvedDependency × Track} (hr : r ∈ s.results) : r.2.identity ≠ identity := by
    rintro rfl
    obtain ⟨_, dep, m', -, hfinds', hname', -⟩ := hs.results r hr
    exact hnew r hr (hname'.trans (hfinds'.name_eq hgit hfinds))
  have hfresh : identity ∉ s.descended := fun hmem => by
    obtain ⟨r, hr, heq⟩ := hs.descended identity hmem
    exact hother hr heq
  have hadd : ({ s with queue := queue, fetchMemo := memo } : Resolver).add item rd identity m =
      { s with
        queue := queue ++ subItems item.dep.name m, fetchMemo := memo
        results := s.results ++
          [({ rd with packageVersion := m.version, depsFingerprint := lockDepsFingerprint m },
            { identity := identity, requesterLabel := item.requesterLabel })]
        descended := identity :: s.descended
        versionByIdentity := (identity, m.version) :: s.versionByIdentity } := by
    simp only [Resolver.add, if_neg hfresh]
  rw [hadd]
  generalize hr₀ : (({ rd with packageVersion := m.version, depsFingerprint := lockDepsFingerprint m },
    { identity := identity, requesterLabel := item.requesterLabel }) : ResolvedDependency × Track) = r₀
  have hresults (r : ResolvedDependency × Track) (hr : r ∈ s.results) : r ∈ s.results ++ [r₀] :=
    List.mem_append_left _ hr
  have hlast : r₀ ∈ s.results ++ [r₀] := List.mem_append_right _ List.mem_cons_self
  have hname₀ : r₀.1.name = item.dep.name := hr₀ ▸ hrdname
  have hidentity₀ : r₀.2.identity = identity := hr₀ ▸ rfl
  have hdir₀ : r₀.1.dir = rd.dir := hr₀ ▸ rfl
  have hversion₀ : r₀.1.packageVersion = m.version := hr₀ ▸ rfl
  have hkind₀ : r₀.1.kind = item.dep.kind := hr₀ ▸ hrdkind
  have href₀ : r₀.1.resolvedRef = refOf identity := hr₀ ▸ hrdref
  generalize hs' : ({ s with
    queue := queue ++ subItems item.dep.name m, fetchMemo := memo, results := s.results ++ [r₀]
    descended := identity :: s.descended
    versionByIdentity := (identity, m.version) :: s.versionByIdentity } : Resolver) = s'
  have hdone : Done env (cacheRootOf root) s' item.requesterDir item.dep := by
    subst hs'
    refine ⟨r₀, hlast, hname₀, hkind₀, ?_, fun hpinned => hversion₀.trans (hpin hpinned)⟩
    rw [hidentity₀, hdir₀]
    exact hleads
  have hpending (requesterDir : Path) (dep : Dependency) (h : Pending env root s requesterDir dep) :
      Pending env root s' requesterDir dep :=
    h.step hqueue (hs' ▸ hresults) (fun i hi => hs' ▸ List.mem_append_left _ hi) hdone
  have hdeps (d : Dependency) (hd : d ∈ m.dependencies) : Pending env root s' m.manifestDir d := by
    subst hs'
    exact .inl ⟨_, List.mem_append_right _ (List.mem_map_of_mem hd), rfl, rfl⟩
  have hok₀ : ResultOk env root s' r₀ := by
    refine ⟨item.requesterDir, item.dep, m, hreaches, ?_, hname₀, hkind₀, href₀.trans (hidentity₀ ▸ rfl),
      hversion₀, hdeps⟩
    rw [hidentity₀, hdir₀]
    exact hfinds
  subst hs'
  constructor
  · intro i hi
    cases List.mem_append.mp hi with
    | inl hi => exact hs.queue i (hqueue ▸ List.mem_cons_of_mem _ hi)
    | inr hi =>
      obtain ⟨d, hd, rfl⟩ := List.mem_map.mp hi
      exact .step hreaches hleads hm hd
  · dsimp only
    rw [List.map_append, List.map_singleton, hname₀]
    refine List.nodup_append.mpr ⟨hs.names_nodup, List.nodup_singleton _, fun name hmem name' hmem' => ?_⟩
    obtain ⟨r, hr, rfl⟩ := List.mem_map.mp hmem
    rw [List.mem_singleton.mp hmem']
    exact hnew r hr
  · intro r hr
    cases List.mem_append.mp hr with
    | inl hr => exact (hs.results r hr).step hpending
    | inr hr => exact List.mem_singleton.mp hr ▸ hok₀
  · exact fun dep hdep => hpending _ _ (hs.roots dep hdep)
  · intro entry hentry
    rcases hmemo entry hentry with hold | ⟨hcommit, hcache, hrd, heq⟩
    · obtain ⟨hcommit, r, hr, hentry⟩ := hs.memo entry hold
      exact ⟨hcommit, r, hresults r hr, hentry⟩
    · exact ⟨hcommit, r₀, hlast, hdir₀.trans hcache.symm, hidentity₀.trans heq⟩
  · intro r hr
    cases List.mem_append.mp hr with
    | inl hr =>
      have hne : (r.2.identity == identity) = false := beq_false_of_ne (hother hr)
      rw [List.lookup_cons, hne]
      exact hs.versions r hr
    | inr hr => rw [List.mem_singleton.mp hr, hidentity₀, List.lookup_cons_self, hversion₀]
  · intro i hi
    cases List.mem_cons.mp hi with
    | inl heq => exact ⟨r₀, hlast, hidentity₀.trans heq.symm⟩
    | inr hi =>
      obtain ⟨r, hr, heq⟩ := hs.descended i hi
      exact ⟨r, hresults r hr, heq⟩

/-- An item keeps what every run keeps. It adds at most one result. -/
theorem Consistent.resolveItem (hgit : GitIsFunction env root) (hs : Consistent env root s)
    (hqueue : s.queue = item :: queue)
    (h : resolveItem env (cacheRootOf root) item { s with queue := queue } = .ok s') :
    Consistent env root s' ∧ (s'.results = s.results ∧ s'.queue = queue ∨
      s'.results.length = s.results.length + 1) := by
  obtain ⟨rd, identity, memo, hlocate, hagain | hnew⟩ := resolveItem_ok h
  · obtain ⟨r, hr, hname, hidentity, hpin, rfl⟩ := hagain
    exact ⟨hs.again hqueue hlocate hr hname hidentity hpin, .inl ⟨rfl, rfl⟩⟩
  · obtain ⟨hnew, m, hm, hname, hpin, rfl⟩ := hnew
    exact ⟨hs.add hgit hqueue hlocate hnew hm hname hpin, .inr List.length_append⟩

theorem Pending.done (hqueue : s.queue = []) (h : Pending env root s requesterDir dep) :
    Done env (cacheRootOf root) s requesterDir dep := by
  cases h with
  | inl hwaits =>
    obtain ⟨i, hi, -⟩ := hwaits
    rw [hqueue] at hi
    cases hi
  | inr hdone => exact hdone

theorem Consistent.done (hs : Consistent env root s) (hqueue : s.queue = [])
    (h : Reaches env root requesterDir dep) : Done env (cacheRootOf root) s requesterDir dep := by
  induction h with
  | root hdep => exact (hs.roots _ hdep).done hqueue
  | step _ hleads hpackage hdep ih =>
    obtain ⟨r, hr, -, -, hleads', -⟩ := ih
    obtain ⟨-, hdir⟩ := hleads.unique hleads'
    obtain ⟨_, _, m', -, hfinds, -, -, -, -, hdeps⟩ := hs.results r hr
    rw [hdir, hfinds.package] at hpackage
    obtain rfl := Except.ok.inj hpackage
    exact (hdeps _ hdep).done hqueue

theorem Done.finds (hs : Consistent env root s) {r : ResolvedDependency × Track} (hr : r ∈ s.results)
    (hname : r.1.name = dep.name)
    (hleads : LeadsTo env (cacheRootOf root) requesterDir dep r.2.identity r.1.dir)
    (hpin : dep.version ≠ [] → r.1.packageVersion = dep.version) :
    ∃ m, Finds env root requesterDir dep r.2.identity r.1.dir m ∧ r.1.packageVersion = m.version := by
  obtain ⟨_, dep', m, -, hfinds, hname', -, -, hversion, -⟩ := hs.results r hr
  refine ⟨m, ⟨hleads, hfinds.package, ?_, fun hpinned => hversion.symm.trans (hpin hpinned)⟩, hversion⟩
  rw [hfinds.name, ← hname', hname]

theorem Consistent.sound (hs : Consistent env root s) (hqueue : s.queue = []) : Sound env root where
  finds := fun requesterDir dep h => by
    obtain ⟨r, hr, hname, -, hleads, hpin⟩ := hs.done hqueue h
    obtain ⟨m, hfinds, -⟩ := Done.finds hs hr hname hleads hpin
    exact ⟨_, _, m, hfinds⟩
  agrees :=
    fun requesterDir dep requesterDir' dep' identity dir identity' dir' h h' hname hleads hleads' => by
    obtain ⟨r, hr, hrname, -, hrleads, -⟩ := hs.done hqueue h
    obtain ⟨r', hr', hrname', -, hrleads', -⟩ := hs.done hqueue h'
    obtain rfl := eq_of_name hs.names_nodup hr hr' (hrname.trans (hname.trans hrname'.symm))
    exact (hleads.unique hrleads).1.trans (hleads'.unique hrleads').1.symm

theorem locate_of_leads (hs : Consistent env root s) {dir : Path}
    (hleads : LeadsTo env (cacheRootOf root) item.requesterDir item.dep identity dir) :
    ∃ rd memo, locate env (cacheRootOf root) s.fetchMemo item = .ok (rd, identity, memo) := by
  unfold locate
  dsimp only
  unfold LeadsTo at hleads
  cases hkind : item.dep.kind with
  | path =>
    rw [hkind] at hleads
    obtain ⟨hdir, hexists, rfl⟩ := hleads
    dsimp only
    rw [hdir]
    dsimp only
    rw [if_pos hexists]
    exact ⟨_, _, rfl⟩
  | git =>
    rw [hkind] at hleads
    obtain ⟨sha, hsha, -, rfl⟩ := hleads
    dsimp only
    cases hlookup : s.fetchMemo.lookup (item.dep.source, item.dep.ref) with
    | some fetched =>
      obtain ⟨before, after, heq, -⟩ := List.lookup_eq_some_iff.mp hlookup
      obtain ⟨hcommit, -⟩ := hs.memo ((item.dep.source, item.dep.ref), fetched)
        (heq ▸ List.mem_append_right _ List.mem_cons_self)
      obtain rfl := Option.some.inj (hcommit.symm.trans hsha)
      exact ⟨_, _, rfl⟩
    | none =>
      dsimp only
      rw [fetchGit, hsha]
      exact ⟨_, _, rfl⟩

theorem exists_of_packageAt (h : packageAt env dir = .ok m) :
    env.exists' (dir.join manifestFile) = true := by
  unfold packageAt loadManifest at h
  split at h
  · nomatch h
  next hread => exact env.exists_of_read hread

theorem Sound.resolveItem (hgit : GitIsFunction env root) (hsound : Sound env root)
    (hs : Consistent env root s) (hqueue : s.queue = item :: queue) :
    ∃ s', resolveItem env (cacheRootOf root) item { s with queue := queue } = .ok s' := by
  have hreaches : Reaches env root item.requesterDir item.dep :=
    hs.queue item (hqueue ▸ List.mem_cons_self)
  obtain ⟨identity, dir, m, hfinds⟩ := hsound.finds _ _ hreaches
  obtain ⟨rd, memo, hlocate⟩ := locate_of_leads hs hfinds.leads
  obtain ⟨-, dir', hleads, hdir, -⟩ := locate_leads hs hlocate
  obtain ⟨-, rfl⟩ := hfinds.leads.unique hleads
  unfold zl.pkg.resolveItem
  dsimp only
  rw [hlocate]
  dsimp only
  split
  next r hfind =>
    have hr : r ∈ s.results := List.mem_of_find?_eq_some hfind
    have hname : r.1.name = item.dep.name := by simpa using List.find?_some hfind
    obtain ⟨_, dep, m', hreaches', hfinds', hname', -, -, hversion, -⟩ := hs.results r hr
    have hidentity : r.2.identity = identity :=
      hsound.agrees _ _ _ _ _ _ _ _ hreaches' hreaches (hname'.symm.trans hname) hfinds'.leads
        hfinds.leads
    unfold resolveAgain
    rw [if_neg (not_not.mpr hidentity)]
    dsimp only
    rw [if_neg]
    · exact ⟨_, rfl⟩
    rintro ⟨hpinned, hne⟩
    apply hne
    rw [hs.versions r hr, Option.getD_some, hversion, ← hfinds.pin hpinned]
    obtain ⟨hsame, -⟩ := hleads.dir_eq (hidentity ▸ hfinds'.leads) (hname.symm.trans hname')
    have hpackage := hfinds'.package
    rw [← hsame, hfinds.package] at hpackage
    rw [Except.ok.inj hpackage]
  next hfind =>
    have hnew (r : ResolvedDependency × Track) (hr : r ∈ s.results) : r.1.name ≠ item.dep.name :=
      fun hname => absurd (decide_eq_true hname) (List.find?_eq_none.mp hfind r hr)
    obtain rfl : rd.dir = dir := by
      refine hdir.resolve_right ?_
      rintro ⟨r, hr, -, hidentity⟩
      obtain ⟨_, dep, m', -, hfinds', hname', -⟩ := hs.results r hr
      rw [hidentity] at hfinds'
      exact hnew r hr (hname'.trans (hfinds'.name_eq hgit hfinds))
    unfold resolveNew
    dsimp only
    rw [if_pos (exists_of_packageAt hfinds.package), hfinds.package]
    dsimp only
    rw [if_neg (not_not.mpr hfinds.name), if_neg fun h => h.2 (hfinds.pin h.1)]
    exact ⟨_, rfl⟩

theorem Consistent.length_le (hs : Consistent env root s) {names : Finset Bytes}
    (hnames : ∀ requesterDir dep, Reaches env root requesterDir dep → dep.name ∈ names) :
    s.results.length ≤ names.card := by
  rw [← List.length_map (fun r : ResolvedDependency × Track => r.1.name),
    ← List.toFinset_card_of_nodup hs.names_nodup]
  refine Finset.card_le_card fun name hname => ?_
  obtain ⟨r, hr, rfl⟩ := List.mem_map.mp (List.mem_toFinset.mp hname)
  obtain ⟨_, dep, _, hreaches, -, hname', -⟩ := hs.results r hr
  exact hname' ▸ hnames _ dep hreaches

/-- The results of a run that is through. -/
def Final (env : Environment) (root : Manifest) (results : List ResolvedDependency) : Prop :=
  ∃ s, Consistent env root s ∧ s.queue = [] ∧ results = s.results.map Prod.fst

theorem resolveQueue_spec (hgit : GitIsFunction env root) (hfinite : FiniteGraph env root)
    (hs : Consistent env root s) :
    ∃ fuel outcome, resolveQueue env (cacheRootOf root) fuel s = some outcome ∧
      ((∃ results, outcome = .ok results) ↔ Sound env root) ∧
      ∀ results, outcome = .ok results → Final env root results := by
  obtain ⟨names, hnames⟩ := hfinite
  generalize hroom : names.card - s.results.length = room
  induction room using Nat.strong_induction_on generalizing s with
  | _ room ihroom =>
    generalize hqueue : s.queue = queue
    induction queue generalizing s with
    | nil =>
      refine ⟨1, .ok (s.results.map Prod.fst), ?_, iff_of_true ⟨_, rfl⟩ (hs.sound hqueue),
        fun results h => ?_⟩
      · rw [resolveQueue, hqueue]
      · exact ⟨s, hs, hqueue, (Except.ok.inj h).symm⟩
    | cons item queue ihqueue =>
      cases hitem : resolveItem env (cacheRootOf root) item { s with queue := queue } with
      | error e =>
        refine ⟨1, .error e, ?_, iff_of_false (fun ⟨_, h⟩ => by cases h) fun hsound => ?_,
          fun _ h => by cases h⟩
        · rw [resolveQueue, hqueue]
          dsimp only
          rw [hitem]
        · obtain ⟨s', hs'⟩ := hsound.resolveItem hgit hs hqueue
          rw [hs'] at hitem
          cases hitem
      | ok s' =>
        obtain ⟨hconsistent, hgrows⟩ := hs.resolveItem hgit hqueue hitem
        obtain ⟨fuel, outcome, hruns, hspec⟩ : ∃ fuel outcome,
            resolveQueue env (cacheRootOf root) fuel s' = some outcome ∧
            ((∃ results, outcome = .ok results) ↔ Sound env root) ∧
            ∀ results, outcome = .ok results → Final env root results := by
          rcases hgrows with ⟨hsame, hrest⟩ | hmore
          · exact ihqueue hconsistent (hsame ▸ hroom) hrest
          · have hle := hconsistent.length_le hnames
            exact ihroom (names.card - s'.results.length) (by omega) hconsistent rfl
        refine ⟨fuel + 1, outcome, ?_, hspec⟩
        rw [resolveQueue, hqueue]
        dsimp only
        rw [hitem]
        exact hruns

theorem consistent_start : Consistent env root { queue := subItems rootLabel root } where
  queue := fun i hi => by
    obtain ⟨d, hd, rfl⟩ := List.mem_map.mp hi
    exact .root hd
  names_nodup := List.nodup_nil
  results := fun r hr => absurd hr List.not_mem_nil
  roots := fun d hd => .inl ⟨_, List.mem_map_of_mem hd, rfl, rfl⟩
  memo := fun entry hentry => absurd hentry List.not_mem_nil
  versions := fun r hr => absurd hr List.not_mem_nil
  descended := fun i hi => absurd hi List.not_mem_nil

/-- What a result says of its package, apart from how its first requester spells the source, and from
    the fingerprint of its declarations. -/
def packageOf (r : ResolvedDependency) : Bytes × DependencyKind × Path × Bytes × Bytes :=
  (r.name, r.kind, r.dir, r.resolvedRef, r.packageVersion)

/-- The packages that are reached. -/
def ReachedPackage (env : Environment) (root : Manifest)
    (p : Bytes × DependencyKind × Path × Bytes × Bytes) : Prop :=
  ∃ requesterDir dep identity dir m, Reaches env root requesterDir dep ∧
    Finds env root requesterDir dep identity dir m ∧
    p = (dep.name, dep.kind, dir, refOf identity, m.version)

theorem Final.packages {results : List ResolvedDependency} (h : Final env root results) :
    (results.map ResolvedDependency.name).Nodup ∧
      ∀ p, p ∈ results.map packageOf ↔ ReachedPackage env root p := by
  obtain ⟨s, hs, hqueue, rfl⟩ := h
  refine ⟨by rw [List.map_map]; exact hs.names_nodup, fun p => ?_⟩
  rw [List.map_map, List.mem_map]
  constructor
  · rintro ⟨r, hr, rfl⟩
    obtain ⟨requesterDir, dep, m, hreaches, hfinds, hname, hkind, href, hversion, -⟩ := hs.results r hr
    refine ⟨requesterDir, dep, _, _, m, hreaches, hfinds, ?_⟩
    rw [Function.comp_apply, packageOf, hname, hkind, href, hversion]
  · rintro ⟨requesterDir, dep, identity, dir, m, hreaches, hfinds, rfl⟩
    obtain ⟨r, hr, hname, hkind, hleads, hpin⟩ := hs.done hqueue hreaches
    obtain ⟨hidentity, hdir⟩ := hfinds.leads.unique hleads
    obtain ⟨_, _, m', -, hfinds', -, -, href, hversion, -⟩ := hs.results r hr
    have hpackage := hfinds'.package
    rw [← hdir, hfinds.package] at hpackage
    refine ⟨r, hr, ?_⟩
    rw [Function.comp_apply, packageOf, hname, hkind, ← hdir, href, ← hidentity, hversion,
      Except.ok.inj hpackage]

end

/-- Two manifests that list the same dependencies. -/
structure SameManifest (m m' : Manifest) : Prop where
  name : m.name = m'.name
  version : m.version = m'.version
  dependencies : m.dependencies.Perm m'.dependencies
  manifestDir : m.manifestDir = m'.manifestDir

/-- Two package graphs that differ in the order of the declarations. -/
structure SameGraph (env : Environment) (root : Manifest) (env' : Environment) (root' : Manifest) :
    Prop where
  weaklyCanonical : env.weaklyCanonical = env'.weaklyCanonical
  exists' : env.exists' = env'.exists'
  commitOf : env.commitOf = env'.commitOf
  root : SameManifest root root'
  packages : ∀ dir m, packageAt env dir = .ok m → ∃ m', packageAt env' dir = .ok m' ∧ SameManifest m m'
  packages' : ∀ dir m', packageAt env' dir = .ok m' → ∃ m, packageAt env dir = .ok m ∧ SameManifest m' m

section
variable {env env' : Environment} {root root' : Manifest} {requesterDir dir : Path} {dep : Dependency}
  {identity : Identity} {m m' : Manifest}

theorem SameManifest.symm (h : SameManifest m m') : SameManifest m' m :=
  ⟨h.name.symm, h.version.symm, h.dependencies.symm, h.manifestDir.symm⟩

theorem SameGraph.symm (h : SameGraph env root env' root') : SameGraph env' root' env root :=
  ⟨h.weaklyCanonical.symm, h.exists'.symm, h.commitOf.symm, h.root.symm, h.packages', h.packages⟩

theorem SameGraph.cacheRoot (h : SameGraph env root env' root') :
    cacheRootOf root = cacheRootOf root' := by
  rw [cacheRootOf, cacheRootOf, h.root.manifestDir]

theorem SameGraph.leads (h : SameGraph env root env' root')
    (hleads : LeadsTo env (cacheRootOf root) requesterDir dep identity dir) :
    LeadsTo env' (cacheRootOf root') requesterDir dep identity dir := by
  unfold LeadsTo at *
  rw [← h.weaklyCanonical, ← h.exists', ← h.commitOf, ← h.cacheRoot]
  exact hleads

theorem SameGraph.reaches (h : SameGraph env root env' root')
    (hreaches : Reaches env root requesterDir dep) :
    Reaches env' root' requesterDir dep := by
  induction hreaches with
  | root hdep =>
    rw [h.root.manifestDir]
    exact .root (h.root.dependencies.subset hdep)
  | step _ hleads hpackage hdep ih =>
    obtain ⟨m', hpackage', hsame⟩ := h.packages _ _ hpackage
    rw [hsame.manifestDir]
    exact .step ih (h.leads hleads) hpackage' (hsame.dependencies.subset hdep)

theorem SameGraph.finds (h : SameGraph env root env' root')
    (hfinds : Finds env root requesterDir dep identity dir m) :
    ∃ m', Finds env' root' requesterDir dep identity dir m' ∧ m.version = m'.version := by
  obtain ⟨m', hpackage', hsame⟩ := h.packages _ _ hfinds.package
  exact ⟨m', ⟨h.leads hfinds.leads, hpackage', hsame.name.symm.trans hfinds.name,
    fun hpinned => hsame.version.symm.trans (hfinds.pin hpinned)⟩, hsame.version⟩

theorem SameGraph.sound (h : SameGraph env root env' root') (hsound : Sound env root) :
    Sound env' root' where
  finds := fun requesterDir dep hreaches => by
    obtain ⟨identity, dir, m, hfinds⟩ := hsound.finds _ _ (h.symm.reaches hreaches)
    obtain ⟨m', hfinds', -⟩ := h.finds hfinds
    exact ⟨identity, dir, m', hfinds'⟩
  agrees := fun _ _ _ _ _ _ _ _ hreaches hreaches' hname hleads hleads' =>
    hsound.agrees _ _ _ _ _ _ _ _ (h.symm.reaches hreaches) (h.symm.reaches hreaches') hname
      (h.symm.leads hleads) (h.symm.leads hleads')

theorem SameGraph.reachedPackage (h : SameGraph env root env' root')
    {p : Bytes × DependencyKind × Path × Bytes × Bytes} (hp : ReachedPackage env root p) :
    ReachedPackage env' root' p := by
  obtain ⟨requesterDir, dep, identity, dir, m, hreaches, hfinds, rfl⟩ := hp
  obtain ⟨m', hfinds', hversion⟩ := h.finds hfinds
  exact ⟨requesterDir, dep, identity, dir, m', h.reaches hreaches, hfinds', by rw [hversion]⟩

theorem SameGraph.gitIsFunction (h : SameGraph env root env' root') (hgit : GitIsFunction env root) :
    GitIsFunction env' root' := by
  intro url ref sha name name' m m' hcommit hm hm'
  rw [← h.cacheRoot] at hm hm'
  obtain ⟨m₁, hm₁, hsame⟩ := h.packages' _ _ hm
  obtain ⟨m₂, hm₂, hsame'⟩ := h.packages' _ _ hm'
  rw [hsame.name, hsame'.name]
  exact hgit url ref sha name name' m₁ m₂ (h.commitOf ▸ hcommit) hm₁ hm₂

theorem SameGraph.finiteGraph (h : SameGraph env root env' root') (hfinite : FiniteGraph env root) :
    FiniteGraph env' root' := by
  obtain ⟨names, hnames⟩ := hfinite
  exact ⟨names, fun requesterDir dep hreaches => hnames _ _ (h.symm.reaches hreaches)⟩

/-- The loop comes to an end. It succeeds exactly on a package graph without a fault, then lists each
    package that is reached once, and both do not depend on the order of the declarations. -/
theorem resolveAll_closure (hgit : GitIsFunction env root) (hfinite : FiniteGraph env root)
    (hsame : SameGraph env root env' root') :
    ∃ fuel outcome fuel' outcome',
      resolveQueue env (cacheRootOf root) fuel { queue := subItems rootLabel root } = some outcome ∧
      resolveQueue env' (cacheRootOf root') fuel' { queue := subItems rootLabel root' } = some outcome' ∧
      ((∃ results, outcome = .ok results) ↔ Sound env root) ∧
      ((∃ results, outcome = .ok results) ↔ ∃ results', outcome' = .ok results') ∧
      (∀ results, outcome = .ok results → (results.map ResolvedDependency.name).Nodup ∧
        ∀ p, p ∈ results.map packageOf ↔ ReachedPackage env root p) ∧
      ∀ results results', outcome = .ok results → outcome' = .ok results' →
        (results.map packageOf).Perm (results'.map packageOf) := by
  obtain ⟨fuel, outcome, hruns, hsound, hfinal⟩ := resolveQueue_spec hgit hfinite consistent_start
  obtain ⟨fuel', outcome', hruns', hsound', hfinal'⟩ := resolveQueue_spec (hsame.gitIsFunction hgit)
    (hsame.finiteGraph hfinite) consistent_start
  refine ⟨fuel, outcome, fuel', outcome', hruns, hruns', hsound, ?_,
    fun results h => (hfinal results h).packages, fun results results' h h' => ?_⟩
  · rw [hsound, hsound']
    exact ⟨hsame.sound, hsame.symm.sound⟩
  · obtain ⟨hnodup, hpackages⟩ := (hfinal results h).packages
    obtain ⟨hnodup', hpackages'⟩ := (hfinal' results' h').packages
    refine (List.perm_ext_iff_of_nodup ?_ ?_).mpr fun p => ?_
    · exact .of_map Prod.fst (by rw [List.map_map]; exact hnodup)
    · exact .of_map Prod.fst (by rw [List.map_map]; exact hnodup')
    · rw [hpackages, hpackages']
      exact ⟨hsame.reachedPackage, hsame.symm.reachedPackage⟩

end

/-- A manifest of a package without dependencies, or with one. -/
def manifestText (name : Char) (dependencies : Bytes) : Bytes :=
  ascii ['[', 'p', 'a', 'c', 'k', 'a', 'g', 'e', ']', '\n', 'n', 'a', 'm', 'e', '=', '"'] ++
    ascii [name] ++ ascii ['"', '\n', 'v', 'e', 'r', 's', 'i', 'o', 'n', '=', '"', '1', '"',
    '\n'] ++ dependencies

/-- The section that declares one dependency by one field. -/
def declares (name : Char) (field : List Char) (source : Bytes) : Bytes :=
  ascii ['[', 'd', 'e', 'p', 'e', 'n', 'd', 'e', 'n', 'c', 'i', 'e', 's', ']', '\n', name, '=', '\x7b'] ++
    ascii field ++ ascii ['=', '"'] ++ source ++ ascii ['"', '\x7d']

def declaresA : Bytes → Bytes := declares 'a' ['p', 'a', 't', 'h']

def upOnce : Bytes := ascii ['.', '.', '/', 'a']

def upTwice : Bytes := ascii ['.', '.', '/', '.', '.', '/', 'a']

def dirA : Path := ascii ['/', 'a']

def dirB : Path := ascii ['/', 'b']

def dirC : Path := ascii ['/', 'x', '/', 'c']

def sourceG : Bytes := ascii ['h', '/', 'g']

def commitG : Commit := ⟨ascii ['b', 'e', 'e', 'f'], by decide⟩

/-- Where the root in the top directory has the package `g`. -/
def dirG : Path := cacheDir (Path.join [slash] cacheName) (ascii ['g']) commitG

def diamondFiles : List (Path × Bytes) :=
  [(dirA.join manifestFile, manifestText 'a' (declares 'g' ['g', 'i', 't'] sourceG)),
    (dirB.join manifestFile, manifestText 'b' (declaresA upOnce)),
    (dirC.join manifestFile, manifestText 'c' (declaresA upTwice)),
    (dirG.join manifestFile, manifestText 'g' [])]

/-- Packages `a`, `b` and `c`, where `b` and `c` depend on `a`, and `a` on `g`, which comes from git. -/
def diamond : Environment where
  read p := diamondFiles.lookup p
  exists' p := [dirA, dirB, dirC].contains p || (diamondFiles.map Prod.fst).contains p
  weaklyCanonical p :=
    [(dirB, dirB), (dirC, dirC), (dirB.join upOnce, dirA), (dirC.join upTwice, dirA)].lookup p
  absolute p := p
  exists_of_read h := by
    obtain ⟨before, after, heq, -⟩ := List.lookup_eq_some_iff.mp h
    refine Bool.or_eq_true_iff.mpr (.inr (List.contains_iff_mem.mpr ?_))
    rw [heq]
    simp
  commitOf source _ := if source = sourceG then some commitG else none

def dependsOn (name source : Bytes) : Dependency := { name := name, kind := .path, source := source }

def nameA : Bytes := ascii ['a']

def nameB : Bytes := ascii ['b']

def nameC : Bytes := ascii ['c']

def nameG : Bytes := ascii ['g']

/-- The root is in the top directory. -/
def rootOf (first second : Dependency) (hnodup : [first.name, second.name].Nodup)
    (hvalid : ∀ d ∈ [first, second], isValidPackageName d.name = true) : Manifest :=
  { name := ascii ['r'], version := ascii ['1'], dependencies := [first, second], manifestDir := [slash]
    names_nodup := hnodup, names_valid := hvalid }

def rootBC : Manifest := rootOf (dependsOn nameB dirB) (dependsOn nameC dirC) (by decide) (by decide)

def rootCB : Manifest := rootOf (dependsOn nameC dirC) (dependsOn nameB dirB) (by decide) (by decide)

def namesIn (package : Except ManifestError Manifest) : Option (Bytes × List Bytes) :=
  match package with
  | .ok m => some (m.name, m.dependencies.map Dependency.name)
  | .error _ => none

theorem diamond_package {dir : Path} {m : Manifest} (h : packageAt diamond dir = .ok m) :
    ∃ entry ∈ diamondFiles, entry.1 = dir.join manifestFile ∧
      namesIn (loadManifest diamond.toFileSystem entry.1) =
        some (m.name, m.dependencies.map Dependency.name) := by
  have hload : loadManifest diamond.toFileSystem (dir.join manifestFile) = .ok m := h
  cases hread : diamond.read (dir.join manifestFile) with
  | none =>
    rw [loadManifest, hread] at hload
    cases hload
  | some file =>
    obtain ⟨before, after, heq, -⟩ := List.lookup_eq_some_iff.mp hread
    refine ⟨_, heq ▸ List.mem_append_right _ List.mem_cons_self, rfl, ?_⟩
    rw [hload]
    rfl

theorem diamond_declares {dir : Path} {m : Manifest} (h : packageAt diamond dir = .ok m) :
    ∀ d ∈ m.dependencies, d.name ∈ [nameA, nameG] := by
  have hfiles : ∀ entry ∈ diamondFiles,
      ∀ p ∈ namesIn (loadManifest diamond.toFileSystem entry.1), ∀ name ∈ p.2,
        name ∈ [nameA, nameG] := by decide
  obtain ⟨entry, hentry, -, hnames⟩ := diamond_package h
  intro d hd
  exact hfiles entry hentry _ hnames d.name (List.mem_map_of_mem hd)

theorem suffix_join (p q : Path) : q <:+ p.join q := by
  unfold Path.join
  split_ifs
  · exact List.suffix_rfl
  · exact List.suffix_append p q
  · exact ⟨p ++ [slash], by simp⟩

/-- The only file in a directory of that commit is the manifest of `g`. -/
theorem diamond_checkout {dir : Path} {m : Manifest}
    (h : packageAt diamond (dir.join commitG) = .ok m) : m.name = nameG := by
  have hfiles : ∀ entry ∈ diamondFiles, commitG.val ++ slash :: manifestFile <:+ entry.1 →
      ∀ p ∈ namesIn (loadManifest diamond.toFileSystem entry.1), p.1 = nameG := by decide
  obtain ⟨entry, hentry, hpath, hnames⟩ := diamond_package h
  refine hfiles entry hentry ?_ _ hnames
  obtain ⟨before, hbefore⟩ := suffix_join dir commitG
  have hlast : (dir.join commitG).getLast? = some 'f'.toUInt8 := by
    rw [← hbefore, List.getLast?_append]
    rfl
  rw [hpath, Path.join, if_neg, if_neg]
  · exact ⟨before, by rw [← hbefore, List.append_assoc]⟩
  · rw [hlast]
    decide
  · rintro (hslash | hnil)
    · exact absurd hslash (by decide)
    · rw [hnil] at hlast
      cases hlast

theorem diamond_gitIsFunction : GitIsFunction diamond rootBC := by
  intro url ref sha name name' m m' hcommit hm hm'
  obtain ⟨-, hsha⟩ := Option.ite_none_right_eq_some.mp hcommit
  obtain rfl := Option.some.inj hsha
  rw [diamond_checkout hm, diamond_checkout hm']

theorem diamond_finiteGraph : FiniteGraph diamond rootBC := by
  refine ⟨{nameA, nameB, nameC, nameG}, fun requesterDir dep hreaches => ?_⟩
  cases hreaches with
  | root hdep =>
    have hroots : ∀ d ∈ rootBC.dependencies,
        d.name ∈ ({nameA, nameB, nameC, nameG} : Finset Bytes) := by decide
    exact hroots dep hdep
  | step _ _ hpackage hdep =>
    have hname := diamond_declares hpackage _ hdep
    simp only [List.mem_cons, List.not_mem_nil, or_false] at hname
    simp only [Finset.mem_insert, Finset.mem_singleton]
    exact hname.imp_right fun h => .inr (.inr h)

theorem diamond_sameGraph : SameGraph diamond rootBC diamond rootCB where
  weaklyCanonical := rfl
  exists' := rfl
  commitOf := rfl
  root := ⟨rfl, rfl, List.Perm.swap .., rfl⟩
  packages := fun _ m h => ⟨m, h, rfl, rfl, .refl _, rfl⟩
  packages' := fun _ m h => ⟨m, h, rfl, rfl, .refl _, rfl⟩

theorem diamond_resolved :
    ∃ fuel outcome fuel' outcome',
      resolveQueue diamond (cacheRootOf rootBC) fuel { queue := subItems rootLabel rootBC } =
      some outcome ∧ resolveQueue diamond (cacheRootOf rootCB) fuel'
      { queue := subItems rootLabel rootCB } = some outcome' ∧
      ((∃ results, outcome = .ok results) ↔ Sound diamond rootBC) ∧
      ((∃ results, outcome = .ok results) ↔ ∃ results', outcome' = .ok results') ∧
      (∀ results, outcome = .ok results → (results.map ResolvedDependency.name).Nodup ∧ ∀ p,
        p ∈ results.map packageOf ↔ ReachedPackage diamond rootBC p) ∧ ∀ results results',
        outcome = .ok results → outcome' = .ok results' →
        (results.map packageOf).Perm (results'.map packageOf) :=
  resolveAll_closure diamond_gitIsFunction diamond_finiteGraph diamond_sameGraph

/-- The names and the sources of a run that succeeds. -/
def sourcesOf (outcome : Option (Except ResolveError (List ResolvedDependency))) :
    Option (List (Bytes × Bytes)) :=
  match outcome with
  | some (.ok results) => some (results.map fun r => (r.name, r.source))
  | _ => none

theorem resolvesTo_of_sourcesOf {env : Environment} {root : Manifest} {fuel : ℕ}
    {sources : List (Bytes × Bytes)}
    (h : sourcesOf (resolveQueue env (cacheRootOf root) fuel { queue := subItems rootLabel root }) =
      some sources) :
    ∃ results, ResolvesTo env root results ∧ results.map (fun r => (r.name, r.source)) = sources := by
  generalize hruns : resolveQueue env (cacheRootOf root) fuel { queue := subItems rootLabel root } =
    outcome at h
  unfold sourcesOf at h
  split at h
  next results => exact ⟨results, ⟨fuel, hruns⟩, Option.some.inj h⟩
  next => cases h

/-- How the source of `a` is spelled depends on which of its requesters comes first. -/
theorem source_of_first_requester :
    ∃ results results', ResolvesTo diamond rootBC results ∧ ResolvesTo diamond rootCB results' ∧
      ¬∀ r, r ∈ results ↔ r ∈ results' := by
  obtain ⟨results, hresults, hsources⟩ := resolvesTo_of_sourcesOf (by decide :
    sourcesOf (resolveQueue diamond (cacheRootOf rootBC) 7 { queue := subItems rootLabel rootBC }) =
      some [(nameB, dirB), (nameC, dirC), (nameA, upOnce), (nameG, sourceG)])
  obtain ⟨results', hresults', hsources'⟩ := resolvesTo_of_sourcesOf (by decide :
    sourcesOf (resolveQueue diamond (cacheRootOf rootCB) 7 { queue := subItems rootLabel rootCB }) =
      some [(nameC, dirC), (nameB, dirB), (nameA, upTwice), (nameG, sourceG)])
  refine ⟨results, results', hresults, hresults', fun hsame => ?_⟩
  have hfirst : (nameA, upOnce) ∈ results.map fun r => (r.name, r.source) := by
    rw [hsources]
    decide
  obtain ⟨r, hr, heq⟩ := List.mem_map.mp hfirst
  have hsecond :=
    List.mem_map_of_mem (f := fun r : ResolvedDependency => (r.name, r.source)) ((hsame r).mp hr)
  rw [hsources', heq] at hsecond
  exact absurd hsecond (by decide)

end zl.pkg
