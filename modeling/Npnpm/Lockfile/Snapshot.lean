import Npnpm.Library.Serde
import Npnpm.Lockfile.Names

/-!
# The lockfile

The values a `pnpm-lock.yaml` holds: the snapshot of the project or of its
importers, and the snapshot of every package under its dependency path. Version
and integrity values stay parameters.
-/

namespace Npnpm

/-- The groups of a `package.json`. -/
inductive DependencyGroup
  | prod
  | dev
  | optional
  | peer
deriving DecidableEq

section Resolution

variable (I : Type)

structure TarballResolution where
  tarball : Text
  integrity : Option I

structure RegistryResolution where
  integrity : I

structure DirectoryResolution where
  directory : Text

structure GitResolution where
  repo : Text
  commit : Text

/-- Where the files of a package come from. -/
inductive LockfileResolution
  | tarball (resolution : TarballResolution I)
  | registry (resolution : RegistryResolution I)
  | directory (resolution : DirectoryResolution)
  | git (resolution : GitResolution)

variable {I} in
def LockfileResolution.integrity : LockfileResolution I → Option I
  | .tarball resolution => resolution.integrity
  | .registry resolution => some resolution.integrity
  | .directory _ => none
  | .git _ => none

end Resolution

section Project

variable (V : Type)

structure ResolvedDependencySpec where
  specifier : Text
  version : PkgVerPeer V

abbrev ResolvedDependencyMap := KeyedMap PkgName (ResolvedDependencySpec V)

/-- Snapshot of a single project. -/
structure ProjectSnapshot where
  specifiers : Option (KeyedMap Text Text)
  dependencies : Option (ResolvedDependencyMap V)
  optionalDependencies : Option (ResolvedDependencyMap V)
  devDependencies : Option (ResolvedDependencyMap V)
  dependenciesMeta : Option Serde.Document
  publishDirectory : Option Text

/-- Snapshot of a monorepo: one project for each importer path. -/
structure MultiProjectSnapshot where
  importers : KeyedMap Text (ProjectSnapshot V)

inductive RootProjectSnapshot
  | multi (snapshot : MultiProjectSnapshot V)
  | single (snapshot : ProjectSnapshot V)

variable {V}

def ProjectSnapshot.getMapByGroup (project : ProjectSnapshot V) :
    DependencyGroup → Option (ResolvedDependencyMap V)
  | .prod => project.dependencies
  | .optional => project.optionalDependencies
  | .dev => project.devDependencies
  | .peer => none

/-- The entries of the selected groups, group by group. -/
def ProjectSnapshot.dependenciesByGroups (project : ProjectSnapshot V)
    (groups : List DependencyGroup) : List (PkgName × ResolvedDependencySpec V) :=
  groups.flatMap fun group =>
    match project.getMapByGroup group with
    | some dependencies => dependencies.entries
    | none => []

end Project

section Package

variable (V I : Type)

/-- Value of a snapshot's `dependencies`: a version of the package named by the
key, or a path to any package. -/
inductive PackageSnapshotDependency
  | pkgVerPeer (verPeer : PkgVerPeer V)
  | dependencyPath (path : DependencyPath V)
deriving DecidableEq

structure LockfilePeerDependencyMetaValue where
  optional : Bool

structure PackageSnapshot where
  resolution : LockfileResolution I
  id : Option Text
  name : Option Text
  version : Option Text
  engines : Option (KeyedMap Text Text)
  cpu : Option (List Text)
  os : Option (List Text)
  libc : Option (List Text)
  deprecated : Option Text
  hasBin : Option Bool
  prepare : Option Bool
  requiresBuild : Option Bool
  bundledDependencies : Option (List Text)
  peerDependencies : Option (KeyedMap Text Text)
  peerDependenciesMeta : Option (KeyedMap Text LockfilePeerDependencyMetaValue)
  dependencies : Option (KeyedMap PkgName (PackageSnapshotDependency V))
  optionalDependencies : Option (KeyedMap Text Text)
  transitivePeerDependencies : Option (List Text)
  dev : Option Bool
  optional : Option Bool

/-- A package snapshot of which only the resolution and the edges are set. -/
def PackageSnapshot.plain {V I : Type} (resolution : LockfileResolution I)
    (dependencies : Option (KeyedMap PkgName (PackageSnapshotDependency V)))
    (optionalDependencies : Option (KeyedMap Text Text)) : PackageSnapshot V I where
  resolution := resolution
  id := none
  name := none
  version := none
  engines := none
  cpu := none
  os := none
  libc := none
  deprecated := none
  hasBin := none
  prepare := none
  requiresBuild := none
  bundledDependencies := none
  peerDependencies := none
  peerDependenciesMeta := none
  dependencies := dependencies
  optionalDependencies := optionalDependencies
  transitivePeerDependencies := none
  dev := none
  optional := none

end Package

section Lockfile

variable (V I : Type) [BEq V]

/-- Major and minor number of `lockfileVersion`. -/
structure ComVer where
  major : Nat
  minor : Nat
deriving DecidableEq

/-- A version that was checked against the supported major number. -/
structure LockfileVersion (major : Nat) where
  comver : ComVer
  compatible : comver.major = major

/-- The version of the lockfile format. -/
def sixZero : LockfileVersion 6 := ⟨⟨6, 0⟩, rfl⟩

structure LockfileSettings where
  autoInstallPeers : Bool
  excludeLinksFromLockfile : Bool

structure Lockfile where
  lockfileVersion : LockfileVersion 6
  settings : Option LockfileSettings
  neverBuiltDependencies : Option (List Text)
  overrides : Option (KeyedMap Text Text)
  projectSnapshot : RootProjectSnapshot V
  packages : Option (KeyedMap (DependencyPath V) (PackageSnapshot V I))

variable {V I}

/-- The packages of a lockfile, none when the section is missing. -/
def Lockfile.packageEntries (lockfile : Lockfile V I) :
    List (DependencyPath V × PackageSnapshot V I) :=
  match lockfile.packages with
  | some packages => packages.entries
  | none => []

end Lockfile

end Npnpm
