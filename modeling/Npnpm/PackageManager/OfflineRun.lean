import Npnpm.PackageManager.FrozenRun
import Npnpm.Tarball.MemCacheInvariant

/-!
# Requests of an install

Where an install may ask the network: for the metadata of a name that it resolves,
and for a tarball that neither the cache nor the store holds. An offline install
refuses to resolve anything, and its downloads answer from the store or fail.

## Implementation notes

A request is counted when some run comes to it, whether or not that run finishes:
a run may stop after any number of steps. Everything that a run finds at its
start is arbitrary.
-/

namespace Npnpm

open Npnpm.FileTree

inductive HttpRequest
  | metadata (name : Text)
  | tarball (url : Text)

/-- The names whose metadata is in the cache of the program or on disk. -/
structure MetadataCache where
  loaded : Text → Bool
  onDisk : Text → Bool

/-- `fetch_package_metadata` asks the registry. -/
def MetadataCache.Misses (cache : MetadataCache) (mode : RegistryMetadataMode) (name : Text) :
    Prop :=
  cache.loaded name = false ∧ (mode = .preferOffline → cache.onDisk name = false)

section Downloads

variable {I B : Type}

/-- A cache with some contents, before any call has begun. -/
def CacheState.idle (entries : Text → Option Nat) (cells : Nat → Cell) (store : StoreFiles B) :
    CacheState B where
  phases _ := .start
  entries := entries
  cells := cells
  store := store
  blocked := none

variable [TarballLibs I B]

/-- Some run of the calls downloads the URL. -/
def Downloads (calls : List (DownloadTarballToStore I)) (start : CacheState B) (url : Text) :
    Prop :=
  ∃ shard events s i call, Run (CacheStep calls shard) start events s ∧ calls[i]? = some call ∧
    s.phases i = .fetching ∧ call.packageUrl = url

theorem lookupPhase_ne_fetching {call : DownloadTarballToStore I} {store : StoreFiles B}
    {next : Phase} (hoffline : call.networkMode = .offline)
    (h : lookupPhase call store = some next) : next ≠ .fetching := by
  rintro rfl
  unfold lookupPhase at h
  split at h
  · cases h
  · rw [hoffline] at h
    cases h
  · cases h
  · cases h

/-- No step of offline calls begins a download. -/
theorem CacheStep.not_fetching {calls : List (DownloadTarballToStore I)} {shard : Text → Nat}
    (hoffline : ∀ call ∈ calls, call.networkMode = .offline) {s s' : CacheState B}
    {e : CacheEvent B} (h : CacheStep calls shard s e s') (hs : ∀ i, s.phases i ≠ .fetching) :
    ∀ i, s'.phases i ≠ .fetching := by
  cases h with
  | hit => exact fun i hi => hs i (fetching_of_setPhase (by simp) hi)
  | miss hcall _ _ _ _ hnext =>
      have hne := lookupPhase_ne_fetching (hoffline _ (List.mem_of_getElem? hcall)) hnext
      exact fun i hi => hs i (fetching_of_setPhase hne hi)
  | block => exact hs
  | fetched _ _ hphase _ => exact absurd hphase (hs _)
  | lock => exact fun i hi => hs i (fetching_of_setPhase (lockedPhase_ne_fetching _ _) hi)
  | wake => exact fun i hi => hs i (fetching_of_setPhase (by simp) hi)
  | reread => exact fun i hi => hs i (fetching_of_setPhase (by simp) hi)
  | publish => exact fun i hi => hs i (fetching_of_setPhase (by simp) hi)
  | external => exact hs

/-- Offline calls download nothing, whatever the cache and the store hold. -/
theorem not_downloads_offline {calls : List (DownloadTarballToStore I)}
    (hoffline : ∀ call ∈ calls, call.networkMode = .offline) (entries : Text → Option Nat)
    (cells : Nat → Cell) (store : StoreFiles B) (url : Text) :
    ¬ Downloads calls (CacheState.idle entries cells store) url := by
  rintro ⟨shard, events, s, i, call, hrun, -, hphase, -⟩
  have hstart : ∀ i, (CacheState.idle entries cells store).phases i ≠ .fetching := by
    simp [CacheState.idle]
  exact hrun.invariant (fun s => ∀ i, s.phases i ≠ .fetching) hstart
    (fun _ _ _ hs hstep => hstep.not_fetching hoffline hs) i hphase

end Downloads

section Requests

variable {V I B : Type} [NodeSemver V] [SemverRange V]

/-- The names that the generation of a lockfile may look up: those in the selected
groups, and the dependencies of the versions it comes to. -/
def GenerateLockfile.LooksUp (generate : GenerateLockfile V I) (name : Text) : Prop :=
  (∃ group ∈ generate.dependencyGroups, ∃ specifier,
      (name, specifier) ∈ generate.manifest.groupDependencies group) ∨
    ∃ p versionRange, generate.Reachable p ∧
      (name, versionRange) ∈ p.dependenciesWith generate.config.autoInstallPeers

/-- A task that some run of the install without a lockfile comes to. -/
def InstallWithoutLockfile.Starts (install : InstallWithoutLockfile V I) (task : RegistryTask) :
    Prop :=
  ∃ download t installed s, Run (install.Step download) (install.start t) installed s ∧
    task ∈ s.tasks

/-- The call for the tarball of a version. -/
def InstallWithoutLockfile.Calls (install : InstallWithoutLockfile V I)
    (call : DownloadTarballToStore I) : Prop :=
  ∃ task package, install.Starts task ∧
    install.registry.resolve task.name task.versionRange = .ok package ∧
    package.dist.integrity = some call.packageIntegrity ∧
    call.packageUrl = package.dist.tarball ∧ call.storeDir = install.config.storeDir ∧
    call.networkMode = .online

omit [SemverRange V] in
/-- The calls for the tarballs of a lockfile. -/
def Lockfile.downloadCalls [BEq V] (config : Npmrc) (lockfile : Lockfile V I)
    (networkMode : NetworkMode) : List (DownloadTarballToStore I) :=
  lockfile.packageEntries.filterMap fun e =>
    (InstallPackageBySnapshot.request config e.1 e.2).toOption.map fun request =>
      ⟨config.storeDir, request.packageIntegrity, none, request.packageUrl, networkMode⟩

variable [BEq V] [TarballLibs I B]

/-- The requests that some run of the install issues. -/
inductive Install.Issues (install : Install V I) (metadata : MetadataCache)
    (start : CacheState B) : HttpRequest → Prop
  | resolveLockfile {mode name}
      (haction : install.action = .generate mode ∨ install.action = .generateAndInstall mode)
      (hname : install.generateLockfile.LooksUp name) (hmiss : metadata.Misses mode name) :
      Issues install metadata start (.metadata name)
  | resolveTask {mode task} (haction : install.action = .withoutLockfile mode)
      (htask : install.installWithoutLockfile.Starts task)
      (hmiss : metadata.Misses mode task.name) :
      Issues install metadata start (.metadata task.name)
  | downloadLocked {lockfile networkMode url}
      (haction : install.action = .fromLockfile lockfile networkMode)
      (hdownload : Downloads (lockfile.downloadCalls install.config networkMode) start url) :
      Issues install metadata start (.tarball url)
  | downloadGenerated {mode lockfile url} (haction : install.action = .generateAndInstall mode)
      (hgenerate : install.generateLockfile.run = .ok lockfile)
      (hdownload : Downloads (lockfile.downloadCalls install.config .online) start url) :
      Issues install metadata start (.tarball url)
  | downloadTask {mode calls url} (haction : install.action = .withoutLockfile mode)
      (hcalls : ∀ call ∈ calls, install.installWithoutLockfile.Calls call)
      (hdownload : Downloads calls start url) : Issues install metadata start (.tarball url)

omit [SemverRange V] [TarballLibs I B] in
theorem Lockfile.networkMode_of_mem {config : Npmrc} {lockfile : Lockfile V I}
    {networkMode : NetworkMode} {call : DownloadTarballToStore I}
    (h : call ∈ lockfile.downloadCalls config networkMode) : call.networkMode = networkMode := by
  obtain ⟨e, -, hcall⟩ := List.mem_filterMap.mp h
  obtain ⟨request, -, rfl⟩ := Option.map_eq_some_iff.mp hcall
  rfl

/-- An offline install issues no request, whatever it finds at its start. -/
theorem Install.not_issues_offline {install : Install V I} (hoffline : install.offline = true)
    (metadata : MetadataCache) (entries : Text → Option Nat) (cells : Nat → Cell)
    (store : StoreFiles B) (request : HttpRequest) :
    ¬ install.Issues metadata (CacheState.idle entries cells store) request := by
  intro h
  have haction : ∀ action, install.action = action →
      (∃ message, action = .panic message) ∨
        ∃ lockfile, action = .fromLockfile lockfile .offline := by
    rintro action rfl
    exact (Install.action_offline hoffline).imp_right fun ⟨lockfile, _, h⟩ => ⟨lockfile, h⟩
  cases h with
  | resolveLockfile haction' _ _ => rcases haction' with h | h <;> simpa using haction _ h
  | resolveTask h _ _ => simpa using haction _ h
  | downloadLocked h hdownload =>
      obtain ⟨message, hpanic⟩ | ⟨lockfile, hlocked⟩ := haction _ h
      · cases hpanic
      · cases hlocked
        exact not_downloads_offline (fun _ => Lockfile.networkMode_of_mem) entries cells store _
          hdownload
  | downloadGenerated h _ _ => simpa using haction _ h
  | downloadTask h _ _ => simpa using haction _ h

end Requests

section Samples

/-- Nothing is in any cache. -/
def noMetadata : MetadataCache := ⟨fun _ => false, fun _ => false⟩

def emptyCache : CacheState SampleBytes :=
  CacheState.idle (fun _ => none) (fun _ => ⟨.inProgress, 0⟩) emptyStore

/-- The call for `a@1.0.0` of an install with an empty cache. -/
def lockedCall : DownloadTarballToStore HashIntegrity where
  storeDir := "/store".toList
  packageIntegrity := ⟨"sha512".toList, "YQ==".toList⟩
  packageUnpackedSize := none
  packageUrl := "https://registry.npmjs.com/a/-/a-1.0.0.tgz".toList
  networkMode := .online

theorem lockedCall_supported : lockedCall.Supported SampleBytes := by
  have hok : (indexFilePath SampleBytes "/store".toList lockedCall.packageIntegrity).toOption.map
      (fun _ => true) = some true := by decide +kernel
  obtain ⟨path, hpath, -⟩ := Results.exists_of_toOption_map hok
  exact ⟨path, hpath⟩

/-- A frozen install with an empty cache downloads its package, and none of it when
it is offline. -/
theorem Install.not_issues_offline_locked :
    (∃ request, (frozenInstall false "1.0.0".toList).Issues noMetadata emptyCache request) ∧
      ∀ request, ¬ (frozenInstall true "1.0.0".toList).Issues noMetadata emptyCache request := by
  refine ⟨⟨.tarball lockedCall.packageUrl, ?_⟩,
    Install.not_issues_offline rfl noMetadata _ _ emptyStore⟩
  have hnext : lookupPhase lockedCall emptyStore = some .fetching :=
    lookupPhase_of_supported lockedCall_supported _
  have hfree : ¬ ShardHeld [lockedCall] (fun _ => 0) emptyCache 0 := by
    rintro ⟨i, call, -, hborrow, -⟩
    cases hborrow
  have hrun : Run (CacheStep [lockedCall] fun _ => 0) emptyCache
      [.miss 0 emptyStore .fetching] _ := Run.nil.snoc (.miss (i := 0) rfl rfl rfl rfl hfree hnext)
  exact .downloadLocked rfl ⟨_, _, _, 0, lockedCall, hrun, rfl, rfl, rfl⟩

end Samples

end Npnpm
