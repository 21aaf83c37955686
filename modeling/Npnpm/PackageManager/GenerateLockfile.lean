import Npnpm.PackageManager.InstallPackageBySnapshot
import Npnpm.PackageManifest.Dependencies
import Npnpm.Registry.Package

/-!
# Generating a lockfile

`GenerateLockfile` resolves the groups of a manifest one after the other. The
snapshot of a package is built by resolving its dependencies and building their
snapshots first; a placeholder in the shared map cuts cycles.

## Implementation notes

`build_package_snapshot` is a recursion without a bound of its own, so it is given
fuel, and running out of fuel is an error that the source does not have. The
fuel of `run` always suffices.
-/

namespace Npnpm

/-- The ways in which the generation ends without a lockfile. -/
inductive GenerateStop
  | registry (stop : RegistryStop)
  | invalidName (name : Text)
  | invalidVersion (version : Text)
  | missingIntegrity (name : Text)
  | outOfFuel
deriving DecidableEq

abbrev SnapshotMap (V I : Type) [BEq V] := KeyedMap (DependencyPath V) (PackageSnapshot V I)

/-- The settings and the registry that the builder works with. -/
structure LockfileBuilder (V I : Type) where
  config : Npmrc
  registry : Registry V I

section Builder

variable {V I : Type} [NodeSemver V]

def parseName (name : Text) : Except GenerateStop PkgName :=
  (PkgName.parse name).mapError fun _ => .invalidName name

/-- The specifier of a resolved version, under the version's own name. -/
def packageSpecifier (package : PackageVersion V I) : Except GenerateStop (PkgNameVerPeer V) := do
  let name ← parseName package.name
  let version ← (PkgVerPeer.fromStr (NodeSemver.display package.version)).mapError
    fun _ => .invalidVersion (NodeSemver.display package.version)
  .ok ⟨name, version⟩

def dependencyPath (package : PackageVersion V I) : Except GenerateStop (DependencyPath V) := do
  let specifier ← packageSpecifier package
  .ok ⟨none, specifier⟩

def LockfileBuilder.resolution (builder : LockfileBuilder V I) (package : PackageVersion V I) :
    Except GenerateStop (LockfileResolution I) :=
  match package.dist.integrity with
  | none => .error (.missingIntegrity package.name)
  | some integrity =>
      if builder.config.lockfileIncludeTarballUrl then
        .ok (.tarball ⟨package.dist.tarball, some integrity⟩)
      else .ok (.registry ⟨integrity⟩)

def mergePackageFlags (dev optional : Bool) (snapshot : PackageSnapshot V I) :
    PackageSnapshot V I :=
  { snapshot with
    dev := some (snapshot.dev.getD true && dev)
    optional := some (snapshot.optional.getD true && optional) }

/-- What is inserted before the dependencies of a package are resolved. -/
def placeholder (resolution : LockfileResolution I) (dev optional : Bool) :
    PackageSnapshot V I :=
  { PackageSnapshot.plain resolution none none with dev := some dev, optional := some optional }

/-- The dependencies that a snapshot records, none for the empty map. -/
def recorded {K W : Type} [BEq K] (dependencies : KeyedMap K W) : Option (KeyedMap K W) :=
  if dependencies.isEmpty then none else some dependencies

/-- What is done with the placeholder when the dependencies are built. -/
def completeSnapshot (dependencies : KeyedMap PkgName (PackageSnapshotDependency V))
    (dev optional : Bool) (snapshot : PackageSnapshot V I) : PackageSnapshot V I :=
  mergePackageFlags dev optional { snapshot with dependencies := recorded dependencies }

variable [BEq V] [SemverRange V]

def LockfileBuilder.resolvePackageVersion (builder : LockfileBuilder V I)
    (name versionRange : Text) : Except GenerateStop (PackageVersion V I) :=
  (builder.registry.resolve name versionRange).mapError .registry

/-- What builds the snapshot of a resolved version into the map. -/
abbrev BuildSnapshot (V I : Type) [BEq V] :=
  SnapshotMap V I → PackageVersion V I → Bool → Bool → Except GenerateStop (SnapshotMap V I)

/-- One round of the loop over the dependencies of a package. -/
def LockfileBuilder.buildDependency (builder : LockfileBuilder V I) (build : BuildSnapshot V I)
    (package : PackageVersion V I) (dev optional : Bool)
    (state : SnapshotMap V I × KeyedMap PkgName (PackageSnapshotDependency V))
    (dependency : Text × Text) :
    Except GenerateStop (SnapshotMap V I × KeyedMap PkgName (PackageSnapshotDependency V)) := do
  let child ← builder.resolvePackageVersion dependency.1 dependency.2
  let childOptional := optional || package.isOptional dependency.1
  let name ← parseName dependency.1
  let specifier ← packageSpecifier child
  let packages ← build state.1 child dev childOptional
  .ok (packages, state.2.insert name (.pkgVerPeer specifier.suffix))

def LockfileBuilder.buildPackageSnapshot (builder : LockfileBuilder V I) :
    Nat → BuildSnapshot V I
  | 0, _, _, _, _ => .error .outOfFuel
  | fuel + 1, packages, package, dev, optional => do
      let path ← dependencyPath package
      if (packages.get path).isSome then
        .ok (packages.modify path (mergePackageFlags dev optional))
      else do
        let resolution ← builder.resolution package
        let (packages, dependencies) ←
          (package.dependenciesWith builder.config.autoInstallPeers).foldlM
            (builder.buildDependency (builder.buildPackageSnapshot fuel) package dev optional)
            (packages.insert path (placeholder resolution dev optional), KeyedMap.empty)
        .ok (packages.modify path (completeSnapshot dependencies dev optional))

/-- One round of the loop over the dependencies of the manifest. -/
def LockfileBuilder.buildRoot (builder : LockfileBuilder V I) (build : BuildSnapshot V I)
    (group : DependencyGroup) (state : SnapshotMap V I × ResolvedDependencyMap V)
    (dependency : Text × Text) :
    Except GenerateStop (SnapshotMap V I × ResolvedDependencyMap V) := do
  let package ← builder.resolvePackageVersion dependency.1 dependency.2
  let resolved ← packageSpecifier package
  let name ← parseName dependency.1
  let packages ← build state.1 package (group = .dev) (group = .optional)
  .ok (packages, state.2.insert name ⟨dependency.2, resolved.suffix⟩)

def LockfileBuilder.buildRootGroup (builder : LockfileBuilder V I) (fuel : Nat)
    (manifest : PackageManifest) (enabledGroups : List DependencyGroup) (group : DependencyGroup)
    (packages : SnapshotMap V I) :
    Except GenerateStop (SnapshotMap V I × Option (ResolvedDependencyMap V)) :=
  if group ∈ enabledGroups then do
    let (packages, dependencies) ← (manifest.dependencies [group]).foldlM
      (builder.buildRoot (builder.buildPackageSnapshot fuel) group) (packages, KeyedMap.empty)
    .ok (packages, recorded dependencies)
  else .ok (packages, none)

/-- `GenerateLockfile` -/
structure GenerateLockfile (V I : Type) where
  config : Npmrc
  manifest : PackageManifest
  dependencyGroups : List DependencyGroup
  registry : Registry V I

def GenerateLockfile.builder (generate : GenerateLockfile V I) : LockfileBuilder V I :=
  ⟨generate.config, generate.registry⟩

def GenerateLockfile.runWith (generate : GenerateLockfile V I) (fuel : Nat) :
    Except GenerateStop (Lockfile V I) := do
  let group := generate.builder.buildRootGroup fuel generate.manifest generate.dependencyGroups
  let (packages, dependencies) ← group .prod .empty
  let (packages, optionalDependencies) ← group .optional packages
  let (packages, devDependencies) ← group .dev packages
  .ok {
    lockfileVersion := sixZero
    settings := some ⟨generate.config.autoInstallPeers, false⟩
    neverBuiltDependencies := none
    overrides := none
    projectSnapshot := .single
      ⟨none, dependencies, optionalDependencies, devDependencies, none, none⟩
    packages := recorded packages }

/-- The recursion is never deeper than there are versions. -/
def GenerateLockfile.run (generate : GenerateLockfile V I) : Except GenerateStop (Lockfile V I) :=
  generate.runWith (generate.registry.versions.length + 1)

end Builder

end Npnpm
