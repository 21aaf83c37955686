import Npnpm.PackageManager.GenerateInstallable
import Npnpm.PackageManager.OfflineRun
import Npnpm.PackageManager.StoreAddReach

/-!
# An offline install after packages are added

A lockfile that is generated for the packages that were added has their versions only,
so the store has the tarball of each of its packages and an offline install finds them.

## Implementation notes

Versions that differ in build metadata only have different store names, and all of
them are stored; the lockfile has one key for them.
-/

namespace Npnpm

section Filled

variable {V I B : Type} [NodeSemver V] [SemverRange V] [TarballLibs I B]

/-- Different versions have different tarballs. -/
def Registry.TarballsDistinct (registry : Registry V I) : Prop :=
  ∀ p ∈ registry.versions, ∀ q ∈ registry.versions, p.dist.tarball = q.dist.tarball → p = q

omit [NodeSemver V] [SemverRange V] in
/-- The store answers the call for the tarball of the version. -/
def PackageVersion.StoredIn (config : Npmrc) (p : PackageVersion V I) (store : StoreFiles B) :
    Prop :=
  ∃ integrity, p.dist.integrity = some integrity ∧ (p.tarballCall config integrity).Answered store

/-- The cache and the store after the tarball steps of some versions. -/
structure Filled (config : Npmrc) (packages : List (PackageVersion V I)) (s : TarballState B) :
    Prop where
  cached : ∀ url, s.memCache url ≠ none → ∃ p ∈ packages, p.dist.tarball = url
  stored : ∀ p ∈ packages, p.StoredIn config s.store

variable {adder : StoreAdder V I B} {packages : List (PackageVersion V I)}
  {package : PackageVersion V I} {s s' : TarballState B}

omit [NodeSemver V] [SemverRange V] in
/-- A tarball step with a URL that was not asked for leaves its tarball in the store. -/
theorem Filled.downloadTarball (laws : DigestLaws I B) (h : Filled adder.config packages s)
    (hnew : ∀ q ∈ packages, q.dist.tarball ≠ package.dist.tarball)
    (hok : adder.downloadTarball s package = .ok s') :
    Filled adder.config (packages ++ [package]) s' := by
  obtain ⟨integrity, casPaths, hintegrity, hrun⟩ := StoreAdder.downloadTarball_ok hok
  obtain ⟨hcached, -⟩ | ⟨-, store, hobtain, rfl⟩ :=
    DownloadTarballToStore.runWithMemCache_ok hrun
  · obtain ⟨q, hq, hurl⟩ := h.cached package.dist.tarball (by
      change s.memCache package.dist.tarball = some casPaths at hcached
      rw [hcached]
      simp)
    exact absurd hurl (hnew q hq)
  obtain ⟨hkept, hanswered⟩ := DownloadTarballToStore.obtain_answered laws hobtain
  constructor
  · intro url hurl
    by_cases hsame : url = package.dist.tarball
    · exact ⟨package, by simp, hsame.symm⟩
    · have hold : s.memCache url ≠ none := by
        simpa [Function.update_of_ne, PackageVersion.tarballCall, hsame] using hurl
      obtain ⟨q, hq, hqurl⟩ := h.cached url hold
      exact ⟨q, List.mem_append_left _ hq, hqurl⟩
  · intro p hp
    rcases List.mem_append.mp hp with hp | hp
    · obtain ⟨pIntegrity, hp, hpanswered⟩ := h.stored p hp
      exact ⟨pIntegrity, hp, hpanswered.of_kept hkept⟩
    · obtain rfl := List.mem_singleton.mp hp
      exact ⟨integrity, hintegrity, hanswered⟩

variable {add : StoreAdd V I B} {store : StoreFiles B} {t : StoreAddState V I B} {fuel : Nat}

/-- The store has the tarballs of all versions that were stored. -/
theorem StoreAdd.runWith_filled (laws : DigestLaws I B) (hurls : add.registry.TarballsDistinct)
    (h : add.runWith fuel store = .ok t) : Filled add.config t.stored t.tarballs := by
  have hinv : Filled add.config t.stored t.tarballs ∧ ∀ p ∈ t.stored,
      p ∈ add.registry.versions ∧ p.toVirtualStoreName ∈ t.resolvedPackages := by
    refine StoreAdd.runWith_invariant (fun t => Filled add.config t.stored t.tarballs ∧
      ∀ p ∈ t.stored, p ∈ add.registry.versions ∧ p.toVirtualStoreName ∈ t.resolvedPackages)
      ?_ h ⟨⟨fun _ hurl => absurd rfl hurl, fun _ hp => by cases hp⟩, fun _ hp => by cases hp⟩
    rintro s package tarballs ⟨hfilled, hmarked⟩ hknown hnew hdownload
    constructor
    · have hfilled' : Filled add.adder.config s.stored s.tarballs := hfilled
      refine hfilled'.downloadTarball laws (fun q hq hurl => hnew ?_) hdownload
      obtain ⟨hqknown, hqmarked⟩ := hmarked q hq
      rwa [← hurls q hqknown package hknown hurl]
    · intro p hp
      rcases List.mem_append.mp hp with hp | hp
      · obtain ⟨hpknown, hpmarked⟩ := hmarked p hp
        exact ⟨hpknown, List.mem_cons_of_mem _ hpmarked⟩
      · obtain rfl := List.mem_singleton.mp hp
        exact ⟨hknown, List.mem_cons_self⟩
  exact hinv.1

/-- The calls of the tarball steps, one after the other, are a run of the shared cache. -/
theorem StoreAdd.runWith_calls (h : add.runWith fuel store = .ok t) :
    ∃ calls : List (DownloadTarballToStore I),
      List.Forall₂ (fun p call => ∃ integrity, p.dist.integrity = some integrity ∧
        call = p.tarballCall add.config integrity) t.stored calls ∧
      ∀ shard, ∃ events c, CacheRun calls shard store events c ∧ .external ∉ events ∧
        BetweenCalls calls.length t.tarballs c := by
  have hfold : ∃ calls : List (DownloadTarballToStore I),
      List.Forall₂ (fun p call => ∃ integrity, p.dist.integrity = some integrity ∧
        call = p.tarballCall add.config integrity) t.stored calls ∧
      calls.foldlM (fun s call => (call.runWithMemCache add.network s).map Prod.snd)
        ⟨fun _ => none, store⟩ = .ok t.tarballs := by
    refine StoreAdd.runWith_invariant (fun t => ∃ calls : List (DownloadTarballToStore I),
      List.Forall₂ (fun p call => ∃ integrity, p.dist.integrity = some integrity ∧
        call = p.tarballCall add.config integrity) t.stored calls ∧
      calls.foldlM (fun s call => (call.runWithMemCache add.network s).map Prod.snd)
        ⟨fun _ => none, store⟩ = .ok t.tarballs) ?_ h ⟨[], .nil, rfl⟩
    rintro s package tarballs ⟨calls, hcalls, hok⟩ - - hdownload
    obtain ⟨integrity, casPaths, hintegrity, hrun⟩ := StoreAdder.downloadTarball_ok hdownload
    refine ⟨calls ++ [package.tarballCall add.config integrity], ?_, ?_⟩
    · exact List.rel_append hcalls (.cons ⟨integrity, hintegrity, rfl⟩ .nil)
    · rw [List.foldlM_append, hok]
      change ((package.tarballCall add.config integrity).runWithMemCache add.network
        s.tarballs).map Prod.snd >>= pure = _
      have hcall : (package.tarballCall add.config integrity).runWithMemCache add.network
          s.tarballs = .ok (casPaths, tarballs) := hrun
      rw [hcall]
      rfl
  obtain ⟨calls, hcalls, hok⟩ := hfold
  have hinitial : BetweenCalls ([] : List (DownloadTarballToStore I)).length
      ⟨fun _ => none, store⟩ (CacheState.initial store) := .initial store
  exact ⟨calls, hcalls, fun shard => hinitial.exists_runs shard hok⟩

end Filled

section Resolved

variable {V I : Type} [NodeSemver V] [SemverRange V] [BEq V]

/-- Every package of the map is resolved from one of the versions. -/
def LockfileBuilder.ResolvedFrom (builder : LockfileBuilder V I)
    (versions : PackageVersion V I → Prop) (packages : SnapshotMap V I) : Prop :=
  ∀ e ∈ packages.entries, ∃ p, versions p ∧ builder.resolution p = .ok e.2.resolution

variable {builder : LockfileBuilder V I} {versions : PackageVersion V I → Prop}
  {packages packages' : SnapshotMap V I} {fuel : Nat}

omit [NodeSemver V] [SemverRange V] in
theorem LockfileBuilder.ResolvedFrom.modify (h : builder.ResolvedFrom versions packages)
    {f : PackageSnapshot V I → PackageSnapshot V I}
    (hf : ∀ snapshot, (f snapshot).resolution = snapshot.resolution) (key : DependencyPath V) :
    builder.ResolvedFrom versions (packages.modify key f) := by
  intro e he
  obtain ⟨e₀, he₀, rfl⟩ := List.mem_map.mp he
  obtain ⟨p, hp, hresolution⟩ := h e₀ he₀
  refine ⟨p, hp, ?_⟩
  split
  · rw [hf]
    exact hresolution
  · exact hresolution

omit [NodeSemver V] [SemverRange V] in
theorem LockfileBuilder.ResolvedFrom.insert (h : builder.ResolvedFrom versions packages)
    {p : PackageVersion V I} (hp : versions p) {resolution : LockfileResolution I}
    (hresolution : builder.resolution p = .ok resolution) {key : DependencyPath V}
    (hnone : packages.get key = none) (dev optional : Bool) :
    builder.ResolvedFrom versions (packages.insert key (placeholder resolution dev optional)) := by
  intro e he
  rw [KeyedMap.entries_insert_of_none hnone] at he
  rcases List.mem_append.mp he with he | he
  · exact h e he
  · obtain rfl := List.mem_singleton.mp he
    exact ⟨p, hp, hresolution⟩

/-- A build below one of the versions, which are closed under dependencies. -/
theorem LockfileBuilder.buildPackageSnapshot_resolvedFrom
    (hclosed : ∀ p name versionRange q, versions p →
      (name, versionRange) ∈ p.dependenciesWith builder.config.autoInstallPeers →
      builder.registry.resolve name versionRange = .ok q → versions q)
    {package : PackageVersion V I} {dev optional : Bool}
    (h : builder.buildPackageSnapshot fuel packages package dev optional = .ok packages')
    (hpackage : versions package) (hpackages : builder.ResolvedFrom versions packages) :
    builder.ResolvedFrom versions packages' := by
  induction fuel generalizing packages packages' package dev optional with
  | zero => cases h
  | succ fuel ih =>
      obtain ⟨key, -, ⟨-, rfl⟩ | ⟨hnone, resolution, below, dependencies, hresolution, hbelow,
        rfl⟩⟩ := LockfileBuilder.buildPackageSnapshot_ok h
      · have hmerge : ∀ snapshot : PackageSnapshot V I,
            (mergePackageFlags dev optional snapshot).resolution = snapshot.resolution :=
          fun _ => rfl
        exact hpackages.modify hmerge key
      · have hfold : builder.ResolvedFrom versions below :=
          Results.foldlM_invariant (fun s => builder.ResolvedFrom versions s.1) hbelow
            (hpackages.insert hpackage hresolution hnone dev optional) fun d hd s s' hs hround => by
              obtain ⟨child, -, -, hchild, -, -, hbuild, -⟩ :=
                LockfileBuilder.buildDependency_ok hround
              exact ih hbuild (hclosed package d.1 d.2 child hpackage hd
                (Results.mapError_ok hchild)) hs
        have hcomplete : ∀ snapshot : PackageSnapshot V I,
            (completeSnapshot dependencies dev optional snapshot).resolution =
              snapshot.resolution := fun _ => rfl
        exact hfold.modify hcomplete key

theorem LockfileBuilder.buildRootGroup_resolvedFrom
    (hclosed : ∀ p name versionRange q, versions p →
      (name, versionRange) ∈ p.dependenciesWith builder.config.autoInstallPeers →
      builder.registry.resolve name versionRange = .ok q → versions q)
    {manifest : PackageManifest} {enabledGroups : List DependencyGroup} {group : DependencyGroup}
    (hroots : group ∈ enabledGroups → ∀ name specifier p,
      (name, specifier) ∈ manifest.groupDependencies group →
      builder.registry.resolve name specifier = .ok p → versions p)
    {dependencies : Option (ResolvedDependencyMap V)}
    (h : builder.buildRootGroup fuel manifest enabledGroups group packages =
      .ok (packages', dependencies)) (hpackages : builder.ResolvedFrom versions packages) :
    builder.ResolvedFrom versions packages' := by
  obtain ⟨-, rfl, -⟩ | ⟨hgroup, resolved, hfold, -⟩ := LockfileBuilder.buildRootGroup_ok h
  · exact hpackages
  · refine Results.foldlM_invariant (fun s => builder.ResolvedFrom versions s.1) hfold hpackages
      fun d hd s s' hs hround => ?_
    obtain ⟨p, -, -, hp, -, -, hbuild, -⟩ := LockfileBuilder.buildRoot_ok hround
    have hentry : (d.1, d.2) ∈ manifest.groupDependencies group := by
      simpa [PackageManifest.dependencies] using hd
    exact LockfileBuilder.buildPackageSnapshot_resolvedFrom hclosed hbuild
      (hroots hgroup d.1 d.2 p hentry (Results.mapError_ok hp)) hs

/-- Each package of a generated lockfile is resolved from a version that is reached. -/
theorem GenerateLockfile.exists_reachable_of_mem {generate : GenerateLockfile V I}
    {lockfile : Lockfile V I} (h : generate.run = .ok lockfile)
    {e : DependencyPath V × PackageSnapshot V I} (he : e ∈ lockfile.packageEntries) :
    ∃ p, generate.Reachable p ∧ generate.builder.resolution p = .ok e.2.resolution := by
  obtain ⟨_, _, packages, _, _, _, h₁, h₂, h₃, -, hpackages⟩ := GenerateLockfile.runWith_ok h
  have hclosed : ∀ p name versionRange q, generate.Reachable p →
      (name, versionRange) ∈ p.dependenciesWith generate.builder.config.autoInstallPeers →
      generate.builder.registry.resolve name versionRange = .ok q → generate.Reachable q :=
    fun p name versionRange q hp hentry hresolve => .dependency hp hentry trivial hresolve
  have hroots : ∀ group, group ≠ .peer → group ∈ generate.dependencyGroups →
      ∀ name specifier p, (name, specifier) ∈ generate.manifest.groupDependencies group →
      generate.builder.registry.resolve name specifier = .ok p → generate.Reachable p :=
    fun group hpeer hgroup name specifier p hentry hresolve =>
      .root hgroup hpeer hentry hresolve
  have hstart : generate.builder.ResolvedFrom generate.Reachable KeyedMap.empty :=
    fun _ he => by cases he
  have hall := LockfileBuilder.buildRootGroup_resolvedFrom hclosed (hroots .dev (by simp)) h₃
    (LockfileBuilder.buildRootGroup_resolvedFrom hclosed (hroots .optional (by simp)) h₂
      (LockfileBuilder.buildRootGroup_resolvedFrom hclosed (hroots .prod (by simp)) h₁ hstart))
  apply hall e
  unfold Lockfile.packageEntries at he
  split at he
  · rename_i packages' hrecorded
    rw [hpackages] at hrecorded
    rwa [← of_recorded_eq_some hrecorded]
  · cases he

end Resolved

section Offline

variable {V I B : Type} [NodeSemver V] [SemverRange V]

/-- The selected groups of the manifest have the names and specifiers of the packages. -/
def GenerateLockfile.Lists (generate : GenerateLockfile V I) (packages : List Text) : Prop :=
  ∀ name specifier, (∃ group ∈ generate.dependencyGroups, group ≠ .peer ∧
      (name, specifier) ∈ generate.manifest.groupDependencies group) ↔
    ∃ package ∈ packages, requestedEntry package = (name, specifier)

omit [NodeSemver V] [SemverRange V] in
theorem GenerateLockfile.lists_of_eq {generate : GenerateLockfile V I} {packages : List Text}
    (h : (generate.dependencyGroups.filter (· ≠ .peer)).flatMap
      generate.manifest.groupDependencies = packages.map requestedEntry) :
    generate.Lists packages := by
  intro name specifier
  have hmem : (name, specifier) ∈ (generate.dependencyGroups.filter (· ≠ .peer)).flatMap
      generate.manifest.groupDependencies ↔ (name, specifier) ∈ packages.map requestedEntry := by
    rw [h]
  simpa only [List.mem_flatMap, List.mem_filter, List.mem_map, decide_eq_true_eq, and_assoc]
    using hmem

/-- The manifest leads to the versions that the packages lead to. -/
theorem StoreAdd.reachable_iff_generate {add : StoreAdd V I B} {generate : GenerateLockfile V I}
    (hregistry : generate.registry = add.registry) (hconfig : generate.config = add.config)
    (hlists : generate.Lists add.packages) (p : PackageVersion V I) :
    generate.Reachable p ↔ add.Reachable p := by
  constructor
  · intro h
    induction h with
    | @root group name specifier p hgroup hpeer hentry hresolve =>
        obtain ⟨package, hpackage, heq⟩ :=
          (hlists name specifier).mp ⟨group, hgroup, hpeer, hentry⟩
        rw [hregistry] at hresolve
        exact .requested hpackage (heq ▸ hresolve)
    | dependency _ hentry _ hresolve ih =>
        rw [hconfig] at hentry
        rw [hregistry] at hresolve
        exact .dependency ih hentry hresolve
  · intro h
    induction h with
    | @requested package p hpackage hresolve =>
        have hlisted := hlists (requestedEntry package).1 (requestedEntry package).2
        obtain ⟨group, hgroup, hpeer, hentry⟩ := hlisted.mpr ⟨package, hpackage, rfl⟩
        rw [← hregistry] at hresolve
        exact .root hgroup hpeer hentry hresolve
    | dependency _ hentry hresolve ih =>
        rw [← hconfig] at hentry
        rw [← hregistry] at hresolve
        exact .dependency ih hentry trivial hresolve

variable [BEq V] [TarballLibs I B]

/-- An offline install of the lockfile finds every package in the store. -/
structure Lockfile.FoundOffline (config : Npmrc) (lockfile : Lockfile V I) (store : StoreFiles B) :
    Prop where
  requested : ∀ e ∈ lockfile.packageEntries,
    ∃ request, InstallPackageBySnapshot.request config e.1 e.2 = .ok request
  answered : ∀ call ∈ lockfile.downloadCalls config .offline, call.Answered store
  /-- no call fails, in whichever order they are run -/
  returned : ∀ shard events c, .external ∉ events →
    CacheRun (lockfile.downloadCalls config .offline) shard store events c →
    ∀ i result, c.phases i = .returned result → ∃ casPaths, result = .ok casPaths

omit [NodeSemver V] [SemverRange V] [BEq V] in
theorem LockfileBuilder.integrity_of_resolution {builder : LockfileBuilder V I}
    {p : PackageVersion V I} {resolution : LockfileResolution I}
    (h : builder.resolution p = .ok resolution) : resolution.integrity = p.dist.integrity := by
  unfold LockfileBuilder.resolution at h
  split at h
  · cases h
  · rename_i integrity hintegrity
    rw [hintegrity]
    split at h
    · cases h
      rfl
    · cases h
      rfl

omit [SemverRange V] in
/-- Packages that are resolved from stored versions are found. -/
theorem Lockfile.foundOffline_of_stored {config : Npmrc} {builder : LockfileBuilder V I}
    {lockfile : Lockfile V I} {store : StoreFiles B}
    (h : ∀ e ∈ lockfile.packageEntries, ∃ p : PackageVersion V I, p.StoredIn config store ∧
      builder.resolution p = .ok e.2.resolution) : lockfile.FoundOffline config store := by
  have hanswered : ∀ call ∈ lockfile.downloadCalls config .offline, call.Answered store := by
    intro call hcall
    obtain ⟨e, he, hcall⟩ := List.mem_filterMap.mp hcall
    obtain ⟨request, hrequest, rfl⟩ := Option.map_eq_some_iff.mp hcall
    obtain ⟨p, ⟨integrity, hintegrity, hstored⟩, hresolution⟩ := h e he
    refine hstored.congr rfl ?_
    have hsame := (InstallPackageBySnapshot.integrity_of_request
      (Results.toOption_eq_some hrequest)).symm.trans
      ((LockfileBuilder.integrity_of_resolution hresolution).trans hintegrity)
    exact Option.some.inj hsame
  refine ⟨fun e he => ?_, hanswered, fun shard events c hown hrun => ?_⟩
  · obtain ⟨p, -, hresolution⟩ := h e he
    exact (InstallPackageBySnapshot.exists_request_iff config e.1 e.2).mpr
      (LockfileBuilder.downloadable_of_resolution hresolution)
  · exact (Warm.run hanswered hown hrun).answers

end Offline

section Main

variable {V I B : Type} [NodeSemver V] [SemverRange V] [TarballLibs I B]

/-- Each version that the packages lead to has been stored, by one call each. -/
structure StoreAdd.Stores (add : StoreAdd V I B) (store : StoreFiles B)
    (s : StoreAddState V I B) : Prop where
  once : (s.stored.map fun p => (p.name, NodeSemver.display p.version)).Nodup
  reached : ∀ p, p ∈ s.stored ↔ add.Reachable p
  calls : ∃ calls : List (DownloadTarballToStore I),
    List.Forall₂ (fun p call => ∃ integrity, p.dist.integrity = some integrity ∧
      call = p.tarballCall add.config integrity) s.stored calls ∧
    ∀ shard, ∃ events c, CacheRun calls shard store events c ∧ .external ∉ events ∧
      BetweenCalls calls.length s.tarballs c

variable [BEq V]

/-- The lockfile has keys of stored versions only, of all of them where keys are
distinct, and can be installed offline. -/
structure StoreAdd.Locks (add : StoreAdd V I B) (s : StoreAddState V I B)
    (lockfile : Lockfile V I) : Prop where
  keys : ∀ path, (lockfile.snapshotAt path).isSome → ∃ p ∈ s.stored, p.HasPath path
  packages : add.registry.KeysDistinct → ∀ p ∈ s.stored, ∀ path, p.HasPath path →
    (lockfile.snapshotAt path).isSome
  offline : ∀ later : StoreFiles B,
    (∀ p x, s.tarballs.store.files p = some x → later.files p = some x) →
    lockfile.FoundOffline add.config later

variable [EquivBEq V]

/-- A run that adds packages ends. It stores what the packages lead to, once each, and
a lockfile that is generated for them can be installed offline afterwards. -/
theorem StoreAdd.run_stores (laws : DigestLaws I B) (add : StoreAdd V I B)
    (hnames : add.registry.NpmNames) (hversions : add.registry.VersionsDistinct)
    (hurls : add.registry.TarballsDistinct) (store : StoreFiles B) :
    (∀ fuel, add.registry.versions.length < fuel →
      add.runWith fuel store = add.run store ∧ add.run store ≠ .error .outOfFuel) ∧
    ∀ s, add.run store = .ok s → add.Stores store s ∧
      ∀ (generate : GenerateLockfile V I) (lockfile : Lockfile V I),
        generate.registry = add.registry → generate.config = add.config →
        generate.Lists add.packages → generate.run = .ok lockfile → add.Locks s lockfile := by
  refine ⟨fun fuel hfuel => ⟨add.runWith_eq_run store hfuel, ?_⟩, fun s h => ?_⟩
  · exact add.runWith_ne store (Nat.lt_succ_self _)
  have hreached := StoreAdd.mem_stored_iff hnames hversions h
  have hfilled := StoreAdd.runWith_filled laws hurls h
  refine ⟨⟨StoreAdd.stored_nodup h, hreached, StoreAdd.runWith_calls h⟩, ?_⟩
  intro generate lockfile hregistry hconfig hlists hgenerate
  have hsame : ∀ p, generate.Reachable p ↔ p ∈ s.stored := fun p =>
    (StoreAdd.reachable_iff_generate hregistry hconfig hlists p).trans (hreached p).symm
  constructor
  · intro path hsome
    obtain ⟨visits, found, hrecords⟩ := GenerateLockfile.runWith_walk hgenerate
    obtain ⟨⟨flags, p⟩, hfound, hpath⟩ := (hrecords.keys path).mp hsome
    have hway := hrecords.walk.way_of_visit (fun _ ha => .start ha)
      (hrecords.walk.found_subset hfound)
    exact ⟨p, (hsame p).mp ((GenerateLockfile.reachable_iff_way p).mpr ⟨flags, hway⟩), hpath⟩
  · intro hdistinct p hp path hpath
    rw [← hregistry] at hdistinct
    have hkeys := ((GenerateLockfile.run_packages generate).2 lockfile hgenerate).1 hdistinct path
    exact hkeys.mpr ⟨p, (hsame p).mpr hp, hpath⟩
  · intro later hkept
    apply Lockfile.foundOffline_of_stored
    intro e he
    obtain ⟨p, hp, hresolution⟩ := GenerateLockfile.exists_reachable_of_mem hgenerate he
    obtain ⟨integrity, hintegrity, hanswered⟩ := hfilled.stored p ((hsame p).mp hp)
    exact ⟨p, ⟨integrity, hintegrity, hanswered.of_kept hkept⟩, hresolution⟩

end Main

section Samples

variable {V : Type} [NodeSemver V]

/-- A version with a tarball of its own. -/
def storedVersion (name : Text) (version : V) (dependencies : List (Text × Text)) :
    PackageVersion V HashIntegrity :=
  { releasedVersion name version dependencies [] with
    dist := ⟨some (sampleCall "package/index.js".toList).packageIntegrity,
      name ++ '-' :: NodeSemver.display version, none⟩ }

/-- All tarballs are the same sample archive. -/
def sampleNetwork : TarballNetwork SampleBytes :=
  ⟨fun _ => .ok (.gz "package/index.js".toList), fun _ => none⟩

/-- `a`, which depends on `b`, which depends on `a`. -/
def cycleAdd : StoreAdd CoreVersion HashIntegrity SampleBytes where
  config := defaultNpmrc
  registry := releases
    [("a".toList, [storedVersion "a".toList firstVersion [("b".toList, "^1.0.0".toList)]]),
    ("b".toList, [storedVersion "b".toList firstVersion [("a".toList, "*".toList)]])]
  network := sampleNetwork
  packages := ["a@1.0.0".toList]

def cycleAdded : GenerateLockfile CoreVersion HashIntegrity where
  config := defaultNpmrc
  manifest := manifestOf [(.prod, [("a".toList, "1.0.0".toList)])]
  dependencyGroups := [.prod, .dev, .optional]
  registry := cycleAdd.registry

/-- `b` depends on the second of two versions of `a` that differ in build metadata
only, and this one on `c`. -/
def twinsAdd : StoreAdd BuildVersion HashIntegrity SampleBytes where
  config := defaultNpmrc
  registry := releases
    [("a".toList, [storedVersion "a".toList ⟨firstVersion, ['x']⟩ [],
      storedVersion "a".toList ⟨firstVersion, ['y']⟩ [("c".toList, "*".toList)]]),
    ("b".toList, [storedVersion "b".toList ⟨firstVersion, []⟩
      [("a".toList, "1.0.0+y".toList)]]),
    ("c".toList, [storedVersion "c".toList ⟨firstVersion, []⟩ []])]
  network := sampleNetwork
  packages := ["a@1.0.0+x".toList, "b@1.0.0".toList]

def twinsAdded : GenerateLockfile BuildVersion HashIntegrity where
  config := defaultNpmrc
  manifest := manifestOf
    [(.prod, [("a".toList, "1.0.0+x".toList), ("b".toList, "1.0.0".toList)])]
  dependencyGroups := [.prod, .dev, .optional]
  registry := twinsAdd.registry

theorem npmValid_letter {c : Char} (h : c = 'a' ∨ c = 'b' ∨ c = 'c') :
    PkgName.NpmValid ⟨none, [c]⟩ := by
  rcases h with rfl | rfl | rfl
  all_goals exact ⟨by decide, ⟨by decide, fun _ h => by cases h⟩, by decide, fun _ h => by cases h⟩

omit [NodeSemver V] in
theorem npmNames_of_letters {registry : Registry V HashIntegrity}
    (h : ∀ p ∈ registry.versions, p.name = ['a'] ∨ p.name = ['b'] ∨ p.name = ['c']) :
    registry.NpmNames := by
  intro p hp
  rcases h p hp with hname | hname | hname
  · exact ⟨⟨none, ['a']⟩, npmValid_letter (Or.inl rfl), hname⟩
  · exact ⟨⟨none, ['b']⟩, npmValid_letter (Or.inr (Or.inl rfl)), hname⟩
  · exact ⟨⟨none, ['c']⟩, npmValid_letter (Or.inr (Or.inr rfl)), hname⟩

theorem versionsDistinct_of_nodup {registry : Registry V HashIntegrity}
    (h : (registry.versions.map fun p => (p.name, NodeSemver.display p.version)).Nodup) :
    registry.VersionsDistinct :=
  fun _ hp _ hq hname hversion => List.inj_on_of_nodup_map h hp hq (Prod.ext hname hversion)

omit [NodeSemver V] in
theorem tarballsDistinct_of_nodup {registry : Registry V HashIntegrity}
    (h : (registry.versions.map fun p => p.dist.tarball).Nodup) : registry.TarballsDistinct :=
  fun _ hp _ hq hurl => List.inj_on_of_nodup_map h hp hq hurl

theorem StoreAdd.run_stores_cycle :
    ∃ s lockfile, cycleAdd.run emptyStore = .ok s ∧ cycleAdded.run = .ok lockfile ∧
      cycleAdd.Stores emptyStore s ∧ cycleAdd.registry.KeysDistinct ∧
      cycleAdd.Locks s lockfile := by
  have hrun : (cycleAdd.run emptyStore).toOption.map (fun _ => true) = some true := by
    decide +kernel
  have hgenerate : cycleAdded.run.toOption.map (fun _ => true) = some true := by decide +kernel
  obtain ⟨s, hs, -⟩ := Results.exists_of_toOption_map hrun
  obtain ⟨lockfile, hlockfile, -⟩ := Results.exists_of_toOption_map hgenerate
  have hnames : cycleAdd.registry.NpmNames := npmNames_of_letters (by decide +kernel)
  have hversions : cycleAdd.registry.VersionsDistinct :=
    versionsDistinct_of_nodup (by decide +kernel)
  have hurls : cycleAdd.registry.TarballsDistinct := tarballsDistinct_of_nodup (by decide +kernel)
  have hlists : cycleAdded.Lists cycleAdd.packages :=
    GenerateLockfile.lists_of_eq (by decide +kernel)
  obtain ⟨hstores, hlocks⟩ := (StoreAdd.run_stores sampleDigestLaws cycleAdd hnames hversions hurls
    emptyStore).2 s hs
  refine ⟨s, lockfile, hs, hlockfile, hstores, ?_,
    hlocks cycleAdded lockfile rfl rfl hlists hlockfile⟩
  exact keysDistinct_of_pairwise (List.pairwise_pair.mpr (by decide +kernel))

/-- `c` is stored, and the lockfile has no key for it. -/
theorem StoreAdd.not_run_stores_twins :
    twinsAdd.registry.NpmNames ∧ twinsAdd.registry.NamedAsFetched ∧
      twinsAdd.registry.VersionsDistinct ∧ twinsAdd.registry.TarballsDistinct ∧
      twinsAdded.Lists twinsAdd.packages ∧
      ∃ s lockfile, twinsAdd.run emptyStore = .ok s ∧ twinsAdded.run = .ok lockfile ∧
        ∃ p ∈ s.stored, ∃ path, p.HasPath path ∧ lockfile.snapshotAt path = none := by
  have hrun : (twinsAdd.run emptyStore).toOption.map (fun s =>
      s.stored.map fun p => (p.name, p.version.core, p.version.build)) =
        some [(['a'], firstVersion, ['x']), (['b'], firstVersion, []), (['a'], firstVersion, ['y']),
          (['c'], firstVersion, [])] := by
    decide +kernel
  have hgenerate : twinsAdded.run.toOption.map (fun lockfile =>
      (lockfile.snapshotAt ⟨none, ⟨⟨none, ['c']⟩, ⟨⟨firstVersion, []⟩, []⟩⟩⟩).isNone) =
        some true := by decide +kernel
  obtain ⟨s, hs, hstored⟩ := Results.exists_of_toOption_map hrun
  obtain ⟨lockfile, hlockfile, hnone⟩ := Results.exists_of_toOption_map hgenerate
  refine ⟨npmNames_of_letters (by decide +kernel), by decide +kernel,
    versionsDistinct_of_nodup (by decide +kernel), tarballsDistinct_of_nodup (by decide +kernel),
    GenerateLockfile.lists_of_eq (by decide +kernel), s, lockfile, hs, hlockfile, ?_⟩
  have hmem : ((['c'], firstVersion, []) : Text × CoreVersion × Text) ∈
      s.stored.map fun p => (p.name, p.version.core, p.version.build) := by
    rw [hstored]
    simp
  obtain ⟨p, hp, heq⟩ := List.mem_map.mp hmem
  obtain ⟨hname, hcore, hbuild⟩ : p.name = ['c'] ∧ p.version.core = firstVersion ∧
    p.version.build = [] := by simpa using heq
  refine ⟨p, hp, _, ⟨⟨none, ⟨⟨none, ['c']⟩, ⟨⟨firstVersion, []⟩, []⟩⟩⟩, ?_, BEq.refl _⟩,
    Option.isNone_iff_eq_none.mp hnone⟩
  have hversion : p.version = ⟨firstVersion, []⟩ := by
    rw [← hcore, ← hbuild]
  rw [dependencyPath, packageSpecifier, hname, hversion]
  rfl

end Samples

end Npnpm
