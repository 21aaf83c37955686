import Npnpm.Library.Results
import Npnpm.Lockfile.Snapshot

/-!
# Installing one package of a lockfile

The tarball that is asked for and the integrity it is checked against, as the
resolution of the package snapshot has them. A frozen install asks for every
package of the lockfile.
-/

namespace Npnpm

/-- How a file gets from the store into a package. -/
inductive PackageImportMethod
  | auto
  | hardlink
  | copy
  | clone
  | cloneOrCopy
deriving DecidableEq

/-- The settings the package manager reads. -/
structure Npmrc where
  registry : Text
  storeDir : Text
  modulesDir : Text
  virtualStoreDir : Text
  packageImportMethod : PackageImportMethod
  lockfile : Bool
  preferFrozenLockfile : Bool
  lockfileIncludeTarballUrl : Bool
  autoInstallPeers : Bool

def defaultNpmrc : Npmrc where
  registry := "https://registry.npmjs.com/".toList
  storeDir := "/store".toList
  modulesDir := "/project/node_modules".toList
  virtualStoreDir := "/project/node_modules/.pnpm".toList
  packageImportMethod := .auto
  lockfile := false
  preferFrozenLockfile := true
  lockfileIncludeTarballUrl := false
  autoInstallPeers := true

/-- What `DownloadTarballToStore` is called with. -/
structure TarballRequest (I : Type) where
  packageUrl : Text
  packageIntegrity : I
deriving DecidableEq

/-- The calls of `panic!` and `todo!` on the way to a download. -/
inductive InstallPanic
  | missingIntegrity (dependencyPath : Text)
  | unsupportedResolution (dependencyPath : Text)
  | missingPackages
deriving DecidableEq

section Request

variable {V I : Type} [NodeSemver V]

/-- `strip_suffix('/')` -/
def stripSlash (registry : Text) : Text :=
  if registry.getLast? = some '/' then registry.dropLast else registry

def registryTarballUrl (config : Npmrc) (path : DependencyPath V) : Text :=
  let registry := stripSlash (path.customRegistry.getD config.registry)
  let name := path.packageSpecifier.name
  registry ++ '/' :: name.display ++ "/-/".toList ++ name.bare ++
    '-' :: NodeSemver.display path.packageSpecifier.suffix.version ++ ".tgz".toList

def InstallPackageBySnapshot.request (config : Npmrc) (path : DependencyPath V)
    (snapshot : PackageSnapshot V I) : Except InstallPanic (TarballRequest I) :=
  match snapshot.resolution with
  | .tarball resolution =>
      match resolution.integrity with
      | some integrity => .ok ⟨resolution.tarball, integrity⟩
      | none => .error (.missingIntegrity path.display)
  | .registry resolution => .ok ⟨registryTarballUrl config path, resolution.integrity⟩
  | .directory _ => .error (.unsupportedResolution path.display)
  | .git _ => .error (.unsupportedResolution path.display)

/-- Resolutions from which a package can be downloaded and checked. -/
def LockfileResolution.Downloadable : LockfileResolution I → Prop
  | .tarball resolution => resolution.integrity.isSome
  | .registry _ => True
  | .directory _ => False
  | .git _ => False

theorem InstallPackageBySnapshot.exists_request_iff (config : Npmrc) (path : DependencyPath V)
    (snapshot : PackageSnapshot V I) :
    (∃ request, InstallPackageBySnapshot.request config path snapshot = .ok request) ↔
      snapshot.resolution.Downloadable := by
  cases hres : snapshot.resolution with
  | tarball resolution =>
      cases hint : resolution.integrity <;>
        simp [request, hres, hint, LockfileResolution.Downloadable]
  | registry resolution => simp [request, hres, LockfileResolution.Downloadable]
  | directory resolution => simp [request, hres, LockfileResolution.Downloadable]
  | git resolution => simp [request, hres, LockfileResolution.Downloadable]

theorem InstallPackageBySnapshot.integrity_of_request {config : Npmrc}
    {path : DependencyPath V} {snapshot : PackageSnapshot V I} {request : TarballRequest I}
    (h : InstallPackageBySnapshot.request config path snapshot = .ok request) :
    snapshot.resolution.integrity = some request.packageIntegrity := by
  unfold InstallPackageBySnapshot.request at h
  cases hres : snapshot.resolution with
  | tarball resolution =>
      cases hint : resolution.integrity with
      | none => simp [hres, hint] at h
      | some integrity =>
          simp only [hres, hint, Except.ok.injEq] at h
          subst h
          exact hint
  | registry resolution =>
      simp only [hres, Except.ok.injEq] at h
      subst h
      rfl
  | directory resolution => simp [hres] at h
  | git resolution => simp [hres] at h

end Request

section VirtualStore

variable {V I : Type} [NodeSemver V] [BEq V]

/-- The installs of `CreateVirtualStore`: one for each package, in map order. -/
def CreateVirtualStore.requests (config : Npmrc)
    (packages : Option (KeyedMap (DependencyPath V) (PackageSnapshot V I))) :
    Except InstallPanic (List (DependencyPath V × TarballRequest I)) :=
  match packages with
  | none => .error .missingPackages
  | some packages =>
      packages.entries.mapM fun e =>
        (InstallPackageBySnapshot.request config e.1 e.2).map fun request => (e.1, request)

/-- What is asked for one package is the request of its entry. -/
theorem CreateVirtualStore.request_of_mem {config : Npmrc}
    {packages : KeyedMap (DependencyPath V) (PackageSnapshot V I)}
    {requests : List (DependencyPath V × TarballRequest I)}
    (h : CreateVirtualStore.requests config (some packages) = .ok requests)
    {r : DependencyPath V × TarballRequest I} (hr : r ∈ requests) :
    ∃ snapshot, (r.1, snapshot) ∈ packages.entries ∧
      InstallPackageBySnapshot.request config r.1 snapshot = .ok r.2 := by
  obtain ⟨e, he, hreq⟩ := Results.exists_of_mem_mapM h hr
  obtain ⟨request, hrequest, rfl⟩ := Results.map_ok hreq
  exact ⟨e.2, he, hrequest⟩

/-- The paths asked for are the keys of the lockfile. -/
theorem CreateVirtualStore.requests_paths {config : Npmrc}
    {packages : KeyedMap (DependencyPath V) (PackageSnapshot V I)}
    {requests : List (DependencyPath V × TarballRequest I)}
    (h : CreateVirtualStore.requests config (some packages) = .ok requests) :
    requests.map Prod.fst = packages.keys := by
  refine Results.map_eq_of_mapM (fun e r he => ?_) h
  obtain ⟨request, -, rfl⟩ := Results.map_ok he
  rfl

/-- Nothing panics exactly when every package can be downloaded. -/
theorem CreateVirtualStore.exists_requests_iff (config : Npmrc)
    (packages : KeyedMap (DependencyPath V) (PackageSnapshot V I)) :
    (∃ requests, CreateVirtualStore.requests config (some packages) = .ok requests) ↔
      ∀ e ∈ packages.entries, e.2.resolution.Downloadable := by
  unfold CreateVirtualStore.requests
  rw [Results.exists_mapM_ok_iff]
  refine forall₂_congr fun e _ => ?_
  rw [← InstallPackageBySnapshot.exists_request_iff config e.1 e.2]
  constructor
  · rintro ⟨b, hb⟩
    obtain ⟨request, hreq, -⟩ := Results.map_ok hb
    exact ⟨request, hreq⟩
  · rintro ⟨request, hreq⟩
    exact ⟨(e.1, request), by rw [hreq]; rfl⟩

end VirtualStore

end Npnpm
