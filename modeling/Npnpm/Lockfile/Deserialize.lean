import Npnpm.Lockfile.Snapshot
import Npnpm.Lockfile.VirtualStoreName

/-!
# Reading a lockfile

Each decoder follows the `serde` attributes of its type: renamed fields,
`deny_unknown_fields`, `try_from`, untagged and internally tagged enumerations,
and the flattened project snapshot of the lockfile itself.

## Implementation notes

The flattened snapshot is read from the keys that no other field of the lockfile
claims. The monorepo variant denies unknown fields and the single-project
variant ignores them, so a document with importers that the first variant
rejects is still accepted by the second. `MultiProjectSnapshot.decode_eq_some_iff`
and `Lockfile.deserialize_importers_iff` say which documents these are.
-/

namespace Npnpm

open Npnpm.Serde

/-- What the lockfile uses of `ssri::Integrity`: reading it. -/
class SsriParse (I : Type) where
  parse : Text → Except Text I

section Scalars

/-- `str::parse::<u16>` -/
def parseU16 (s : Text) : Option Nat :=
  let digits := match s with
    | '+' :: rest => rest
    | s => s
  if digits ≠ [] ∧ digits.all Char.isDigit then
    let n := digits.foldl (fun n c => n * 10 + (c.toNat - '0'.toNat)) 0
    if n < 2 ^ 16 then some n else none
  else none

inductive ParseComVerError
  | missingDot
  | invalidMajor
  | invalidMinor
deriving DecidableEq

def ComVer.fromStr (s : Text) : Except ParseComVerError ComVer :=
  match Text.splitOnce '.' s with
  | none => .error .missingDot
  | some (major, minor) =>
      match parseU16 major with
      | none => .error .invalidMajor
      | some major =>
          match parseU16 minor with
          | none => .error .invalidMinor
          | some minor => .ok ⟨major, minor⟩

def LockfileVersion.tryFrom (major : Nat) (comver : ComVer) : Option (LockfileVersion major) :=
  if h : comver.major = major then some ⟨comver, h⟩ else none

def LockfileVersion.decode (major : Nat) : Decoder (LockfileVersion major) := fun reading d =>
  (tryFromStr ComVer.fromStr reading d).bind (LockfileVersion.tryFrom major)

end Scalars

section Resolution

variable {I : Type} [SsriParse I]

def decodeIntegrity : Decoder I := fun reading d =>
  (string reading d).bind fun text => (SsriParse.parse text).toOption

def TarballResolution.decode : Decoder (TarballResolution I) := fun reading d => do
  let known ← fields ["tarball".toList, "integrity".toList] true reading d
  let tarball ← requiredField string reading known "tarball".toList
  let integrity ← optionalField decodeIntegrity reading known "integrity".toList
  return ⟨tarball, integrity⟩

def RegistryResolution.decode : Decoder (RegistryResolution I) := fun reading d => do
  let known ← fields ["integrity".toList] true reading d
  let integrity ← requiredField decodeIntegrity reading known "integrity".toList
  return ⟨integrity⟩

def DirectoryResolution.decode : Decoder DirectoryResolution := fun reading d => do
  let known ← fields ["directory".toList] true reading d
  let directory ← requiredField string reading known "directory".toList
  return ⟨directory⟩

def GitResolution.decode : Decoder GitResolution := fun reading d => do
  let known ← fields ["repo".toList, "commit".toList] true reading d
  let repo ← requiredField string reading known "repo".toList
  let commit ← requiredField string reading known "commit".toList
  return ⟨repo, commit⟩

/-- `TaggedResolution`: the tag names the variant, the rest is its structure. -/
def LockfileResolution.decodeTagged : Decoder (LockfileResolution I) := fun reading d => do
  let (tag, rest) ← splitTag "type".toList d
  match ← identify ["directory".toList, "git".toList] reading tag with
  | some name =>
      if name = "directory".toList then (DirectoryResolution.decode reading rest).map .directory
      else (GitResolution.decode reading rest).map .git
  | none => none

def LockfileResolution.decode : Decoder (LockfileResolution I) :=
  untagged [
    fun reading d => (TarballResolution.decode reading d).map .tarball,
    fun reading d => (RegistryResolution.decode reading d).map .registry,
    LockfileResolution.decodeTagged]

end Resolution

section Names

variable {V : Type} [NodeSemver V]

def PkgName.decode : Decoder PkgName := tryFromStr PkgName.parse

def PkgVerPeer.decode : Decoder (PkgVerPeer V) := tryFromStr PkgVerPeer.fromStr

def DependencyPath.decode : Decoder (DependencyPath V) := tryFromStr DependencyPath.fromStr

def PackageSnapshotDependency.decode : Decoder (PackageSnapshotDependency V) :=
  untagged [
    fun reading d => (PkgVerPeer.decode reading d).map .pkgVerPeer,
    fun reading d => (DependencyPath.decode reading d).map .dependencyPath]

end Names

section Project

variable {V : Type} [NodeSemver V]

def ResolvedDependencySpec.decode : Decoder (ResolvedDependencySpec V) := fun reading d => do
  let known ← fields ["specifier".toList, "version".toList] true reading d
  let specifier ← requiredField string reading known "specifier".toList
  let version ← requiredField PkgVerPeer.decode reading known "version".toList
  return ⟨specifier, version⟩

def ResolvedDependencyMap.decode : Decoder (ResolvedDependencyMap V) :=
  hashMap PkgName.decode ResolvedDependencySpec.decode

def projectFields : List Text :=
  ["specifiers".toList, "dependencies".toList, "optionalDependencies".toList,
    "devDependencies".toList, "dependenciesMeta".toList, "publishDirectory".toList]

/-- Unknown fields of a project are ignored. -/
def ProjectSnapshot.decode : Decoder (ProjectSnapshot V) := fun reading d => do
  let known ← fields projectFields false reading d
  let specifiers ← optionalField (hashMap string string) reading known "specifiers".toList
  let dependencies ←
    optionalField ResolvedDependencyMap.decode reading known "dependencies".toList
  let optionalDependencies ←
    optionalField ResolvedDependencyMap.decode reading known "optionalDependencies".toList
  let devDependencies ←
    optionalField ResolvedDependencyMap.decode reading known "devDependencies".toList
  let dependenciesMeta ← optionalField value reading known "dependenciesMeta".toList
  let publishDirectory ← optionalField string reading known "publishDirectory".toList
  return ⟨specifiers, dependencies, optionalDependencies, devDependencies, dependenciesMeta,
    publishDirectory⟩

def importersField : Text := "importers".toList

/-- Unknown fields beside the importers are denied. -/
def MultiProjectSnapshot.decode : Decoder (MultiProjectSnapshot V) := fun reading d => do
  let known ← fields [importersField] true reading d
  let importers ←
    requiredField (hashMap string ProjectSnapshot.decode) reading known importersField
  return ⟨importers⟩

def RootProjectSnapshot.decode : Decoder (RootProjectSnapshot V) :=
  untagged [
    fun reading d => (MultiProjectSnapshot.decode reading d).map .multi,
    fun reading d => (ProjectSnapshot.decode reading d).map .single]

end Project

section Package

variable {V I : Type} [NodeSemver V] [SsriParse I]

def LockfilePeerDependencyMetaValue.decode : Decoder LockfilePeerDependencyMetaValue :=
  fun reading d => do
    let known ← fields ["optional".toList] false reading d
    let optional ← requiredField boolean reading known "optional".toList
    return ⟨optional⟩

def packageFields : List Text :=
  ["resolution".toList, "id".toList, "name".toList, "version".toList, "engines".toList,
    "cpu".toList, "os".toList, "libc".toList, "deprecated".toList, "hasBin".toList,
    "prepare".toList, "requiresBuild".toList, "bundledDependencies".toList,
    "peerDependencies".toList, "peerDependenciesMeta".toList, "dependencies".toList,
    "optionalDependencies".toList, "transitivePeerDependencies".toList, "dev".toList,
    "optional".toList]

def PackageSnapshot.decode : Decoder (PackageSnapshot V I) := fun reading d => do
  let known ← fields packageFields false reading d
  let resolution ← requiredField LockfileResolution.decode reading known "resolution".toList
  let id ← optionalField string reading known "id".toList
  let name ← optionalField string reading known "name".toList
  let version ← optionalField string reading known "version".toList
  let engines ← optionalField (hashMap string string) reading known "engines".toList
  let cpu ← optionalField (list string) reading known "cpu".toList
  let os ← optionalField (list string) reading known "os".toList
  let libc ← optionalField (list string) reading known "libc".toList
  let deprecated ← optionalField string reading known "deprecated".toList
  let hasBin ← optionalField boolean reading known "hasBin".toList
  let prepare ← optionalField boolean reading known "prepare".toList
  let requiresBuild ← optionalField boolean reading known "requiresBuild".toList
  let bundledDependencies ←
    optionalField (list string) reading known "bundledDependencies".toList
  let peerDependencies ←
    optionalField (hashMap string string) reading known "peerDependencies".toList
  let peerDependenciesMeta ←
    optionalField (hashMap string LockfilePeerDependencyMetaValue.decode) reading known
      "peerDependenciesMeta".toList
  let dependencies ←
    optionalField (hashMap PkgName.decode PackageSnapshotDependency.decode) reading known
      "dependencies".toList
  let optionalDependencies ←
    optionalField (hashMap string string) reading known "optionalDependencies".toList
  let transitivePeerDependencies ←
    optionalField (list string) reading known "transitivePeerDependencies".toList
  let dev ← optionalField boolean reading known "dev".toList
  let optional ← optionalField boolean reading known "optional".toList
  return ⟨resolution, id, name, version, engines, cpu, os, libc, deprecated, hasBin, prepare,
    requiresBuild, bundledDependencies, peerDependencies, peerDependenciesMeta, dependencies,
    optionalDependencies, transitivePeerDependencies, dev, optional⟩

end Package

section Lockfile

variable {V I : Type} [NodeSemver V] [BEq V] [SsriParse I]

def LockfileSettings.decode : Decoder LockfileSettings := fun reading d => do
  let known ← fields ["autoInstallPeers".toList, "excludeLinksFromLockfile".toList] false
    reading d
  let autoInstallPeers ← requiredField boolean reading known "autoInstallPeers".toList
  let excludeLinksFromLockfile ←
    requiredField boolean reading known "excludeLinksFromLockfile".toList
  return ⟨autoInstallPeers, excludeLinksFromLockfile⟩

/-- The top-level keys that a field of `Lockfile` claims. -/
def claimedFields : List Text :=
  ["lockfileVersion".toList, "settings".toList, "neverBuiltDependencies".toList,
    "overrides".toList, "packages".toList]

/-- The claimed fields alone; what remains goes to the flattened snapshot. -/
structure ClaimedFields (V I : Type) [BEq V] where
  lockfileVersion : LockfileVersion 6
  settings : Option LockfileSettings
  neverBuiltDependencies : Option (List Text)
  overrides : Option (KeyedMap Text Text)
  packages : Option (KeyedMap (DependencyPath V) (PackageSnapshot V I))

def ClaimedFields.decode (top : List (Document × Document)) : Option (ClaimedFields V I) := do
  let known ← mapFields claimedFields false .direct top
  let lockfileVersion ←
    requiredField (LockfileVersion.decode 6) .direct known "lockfileVersion".toList
  let settings ← optionalField LockfileSettings.decode .direct known "settings".toList
  let neverBuiltDependencies ←
    optionalField (list string) .direct known "neverBuiltDependencies".toList
  let overrides ← optionalField (hashMap string string) .direct known "overrides".toList
  let packages ←
    optionalField (hashMap DependencyPath.decode PackageSnapshot.decode) .direct known
      "packages".toList
  return ⟨lockfileVersion, settings, neverBuiltDependencies, overrides, packages⟩

/-- Deserialising a document as `Lockfile`. -/
def Lockfile.deserialize : Document → Option (Lockfile V I)
  | .map top =>
      (ClaimedFields.decode top).bind fun fields =>
        (RootProjectSnapshot.decode .buffered (.map (otherEntries claimedFields top))).map
          fun projectSnapshot =>
            ⟨fields.lockfileVersion, fields.settings, fields.neverBuiltDependencies,
              fields.overrides, projectSnapshot, fields.packages⟩
  | _ => none

/-- `Lockfile::load_from_dir` on the content of a lockfile that exists. -/
def Lockfile.load (content : Document) : Option (Option (Lockfile V I)) :=
  option (fun _ d => Lockfile.deserialize d) .direct content

end Lockfile

end Npnpm
