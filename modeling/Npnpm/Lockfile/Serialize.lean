import Npnpm.Library.SerdeRoundTrip
import Npnpm.Lockfile.Deserialize

/-!
# Writing a lockfile

Each encoder follows the `serde` attributes of its type: `into = "String"`,
`skip_serializing_if`, untagged and internally tagged enumerations, and the
flattened project snapshot, whose fields stand among those of the lockfile.

## Implementation notes

The tree is what `serde_yaml::to_string` is given to write. Its strings are taken
to stand in the text as they are, so that they can be borrowed again.
-/

namespace Npnpm

open Npnpm.Serde

/-- What the lockfile uses of `ssri::Integrity`: writing it. -/
class SsriDisplay (I : Type) where
  display : I → Text

section Scalars

def ComVer.display (version : ComVer) : Text :=
  Nat.toDigits 10 version.major ++ '.' :: Nat.toDigits 10 version.minor

def LockfileVersion.encode (major : Nat) : Encoder (LockfileVersion major) := fun version =>
  .str version.comver.display

end Scalars

section Resolution

variable {I : Type} [SsriDisplay I]

def encodeIntegrity : Encoder I := fun integrity => .str (SsriDisplay.display integrity)

def TarballResolution.toFields (resolution : TarballResolution I) :
    List (Text × Option Document) :=
  [("tarball".toList, some (.str resolution.tarball)),
    ("integrity".toList, resolution.integrity.map encodeIntegrity)]

def RegistryResolution.toFields (resolution : RegistryResolution I) :
    List (Text × Option Document) :=
  [("integrity".toList, some (encodeIntegrity resolution.integrity))]

def DirectoryResolution.toFields (resolution : DirectoryResolution) :
    List (Text × Option Document) :=
  [("directory".toList, some (.str resolution.directory))]

def GitResolution.toFields (resolution : GitResolution) : List (Text × Option Document) :=
  [("repo".toList, some (.str resolution.repo)),
    ("commit".toList, some (.str resolution.commit))]

/-- The tag comes before the fields of the variant. -/
def encodeTagged (tag : Text) (fields : List (Text × Option Document)) : Document :=
  encodeFields (("type".toList, some (.str tag)) :: fields)

def LockfileResolution.encode : Encoder (LockfileResolution I)
  | .tarball resolution => encodeFields resolution.toFields
  | .registry resolution => encodeFields resolution.toFields
  | .directory resolution => encodeTagged "directory".toList resolution.toFields
  | .git resolution => encodeTagged "git".toList resolution.toFields

end Resolution

section Names

variable {V : Type} [NodeSemver V]

def PkgName.encode : Encoder PkgName := fun name => .str name.display

def PkgVerPeer.encode : Encoder (PkgVerPeer V) := fun version => .str version.display

def DependencyPath.encode : Encoder (DependencyPath V) := fun path => .str path.display

def PackageSnapshotDependency.encode : Encoder (PackageSnapshotDependency V)
  | .pkgVerPeer version => version.encode
  | .dependencyPath path => path.encode

end Names

section Project

variable {V : Type} [NodeSemver V]

def ResolvedDependencySpec.toFields (spec : ResolvedDependencySpec V) :
    List (Text × Option Document) :=
  [("specifier".toList, some (.str spec.specifier)),
    ("version".toList, some spec.version.encode)]

def ResolvedDependencySpec.encode : Encoder (ResolvedDependencySpec V) := fun spec =>
  encodeFields spec.toFields

def ResolvedDependencyMap.encode : Encoder (ResolvedDependencyMap V) :=
  encodeMap PkgName.encode ResolvedDependencySpec.encode

def ProjectSnapshot.toFields (project : ProjectSnapshot V) : List (Text × Option Document) :=
  [("specifiers".toList, project.specifiers.map (encodeMap Document.str Document.str)),
    ("dependencies".toList, project.dependencies.map ResolvedDependencyMap.encode),
    ("optionalDependencies".toList,
      project.optionalDependencies.map ResolvedDependencyMap.encode),
    ("devDependencies".toList, project.devDependencies.map ResolvedDependencyMap.encode),
    ("dependenciesMeta".toList, project.dependenciesMeta.map id),
    ("publishDirectory".toList, project.publishDirectory.map Document.str)]

def ProjectSnapshot.encode : Encoder (ProjectSnapshot V) := fun project =>
  encodeFields project.toFields

def MultiProjectSnapshot.toFields (snapshot : MultiProjectSnapshot V) :
    List (Text × Option Document) :=
  [(importersField, some (encodeMap Document.str ProjectSnapshot.encode snapshot.importers))]

/-- The fields that the root snapshot adds to those of the lockfile. -/
def RootProjectSnapshot.toFields : RootProjectSnapshot V → List (Text × Option Document)
  | .multi snapshot => snapshot.toFields
  | .single snapshot => snapshot.toFields

end Project

section Package

variable {V I : Type} [NodeSemver V] [SsriDisplay I]

def LockfilePeerDependencyMetaValue.toFields (peer : LockfilePeerDependencyMetaValue) :
    List (Text × Option Document) :=
  [("optional".toList, some (encodeBoolean peer.optional))]

def LockfilePeerDependencyMetaValue.encode : Encoder LockfilePeerDependencyMetaValue :=
  fun peer => encodeFields peer.toFields

/-- All fields but the last three are skipped when they are `none`. -/
def PackageSnapshot.toFields (snapshot : PackageSnapshot V I) : List (Text × Option Document) :=
  [("resolution".toList, some snapshot.resolution.encode),
    ("id".toList, snapshot.id.map Document.str),
    ("name".toList, snapshot.name.map Document.str),
    ("version".toList, snapshot.version.map Document.str),
    ("engines".toList, snapshot.engines.map (encodeMap Document.str Document.str)),
    ("cpu".toList, snapshot.cpu.map (encodeList Document.str)),
    ("os".toList, snapshot.os.map (encodeList Document.str)),
    ("libc".toList, snapshot.libc.map (encodeList Document.str)),
    ("deprecated".toList, snapshot.deprecated.map Document.str),
    ("hasBin".toList, snapshot.hasBin.map encodeBoolean),
    ("prepare".toList, snapshot.prepare.map encodeBoolean),
    ("requiresBuild".toList, snapshot.requiresBuild.map encodeBoolean),
    ("bundledDependencies".toList, snapshot.bundledDependencies.map (encodeList Document.str)),
    ("peerDependencies".toList,
      snapshot.peerDependencies.map (encodeMap Document.str Document.str)),
    ("peerDependenciesMeta".toList,
      snapshot.peerDependenciesMeta.map
        (encodeMap Document.str LockfilePeerDependencyMetaValue.encode)),
    ("dependencies".toList,
      snapshot.dependencies.map (encodeMap PkgName.encode PackageSnapshotDependency.encode)),
    ("optionalDependencies".toList,
      snapshot.optionalDependencies.map (encodeMap Document.str Document.str)),
    ("transitivePeerDependencies".toList,
      some (encodeOption (encodeList Document.str) snapshot.transitivePeerDependencies)),
    ("dev".toList, some (encodeOption encodeBoolean snapshot.dev)),
    ("optional".toList, some (encodeOption encodeBoolean snapshot.optional))]

def PackageSnapshot.encode : Encoder (PackageSnapshot V I) := fun snapshot =>
  encodeFields snapshot.toFields

end Package

section Lockfile

variable {V I : Type} [NodeSemver V] [BEq V] [SsriDisplay I]

def LockfileSettings.toFields (settings : LockfileSettings) : List (Text × Option Document) :=
  [("autoInstallPeers".toList, some (encodeBoolean settings.autoInstallPeers)),
    ("excludeLinksFromLockfile".toList, some (encodeBoolean settings.excludeLinksFromLockfile))]

def LockfileSettings.encode : Encoder LockfileSettings := fun settings =>
  encodeFields settings.toFields

/-- The fields before the flattened one. -/
def Lockfile.leadingFields (lockfile : Lockfile V I) : List (Text × Option Document) :=
  [("lockfileVersion".toList, some (LockfileVersion.encode 6 lockfile.lockfileVersion)),
    ("settings".toList, lockfile.settings.map LockfileSettings.encode),
    ("neverBuiltDependencies".toList,
      lockfile.neverBuiltDependencies.map (encodeList Document.str)),
    ("overrides".toList, lockfile.overrides.map (encodeMap Document.str Document.str))]

/-- The field after the flattened one. -/
def Lockfile.packagesFields (lockfile : Lockfile V I) : List (Text × Option Document) :=
  [("packages".toList,
    lockfile.packages.map (encodeMap DependencyPath.encode PackageSnapshot.encode))]

def Lockfile.toFields (lockfile : Lockfile V I) : List (Text × Option Document) :=
  lockfile.leadingFields ++ lockfile.projectSnapshot.toFields ++ lockfile.packagesFields

/-- What `Lockfile::save_to_dir` writes. -/
def Lockfile.serialize (lockfile : Lockfile V I) : Document := encodeFields lockfile.toFields

end Lockfile

end Npnpm
