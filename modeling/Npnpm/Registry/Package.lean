import Npnpm.Library.KeyedMap
import Npnpm.Library.Results
import Npnpm.Lockfile.Names

/-!
# Packages of the registry

The metadata that the registry serves for a name: the tags and the versions of a
package, and what each version depends on. A specifier is a tag, a version, or a
range that the greatest version in it satisfies.

## Implementation notes

`fetch_package_metadata` asks the network or the metadata cache once for a name
and answers the same for the rest of the run, so a registry is the map of its
answers. The calls of `unwrap` and `expect` are the panics of `RegistryStop`.
-/

namespace Npnpm

/-- What the registry uses of `node_semver`: reading a range, whether a version
satisfies it, and the order of versions. -/
class SemverRange (V : Type) where
  range : Text → Option (V → Bool)
  compare : V → V → Ordering

structure PackageDistribution (I : Type) where
  integrity : Option I
  tarball : Text
  unpackedSize : Option Nat

structure PackageVersion (V I : Type) where
  name : Text
  version : V
  dist : PackageDistribution I
  dependencies : Option (KeyedMap Text Text)
  optionalDependencies : Option (KeyedMap Text Text)
  peerDependencies : Option (KeyedMap Text Text)

structure Package (V I : Type) where
  name : Text
  distTags : KeyedMap Text Text
  versions : KeyedMap Text (PackageVersion V I)

inductive RegistryError
  | missingLatestTag (name : Text)
  | missingVersionRelease (version name : Text)
  | network (name : Text)
deriving DecidableEq

/-- The ways in which the resolution of a version ends without one. -/
inductive RegistryStop
  | error (error : RegistryError)
  | invalidRange (range : Text)
deriving DecidableEq

section PackageVersion

variable {V I : Type}

def mapEntries (dependencies : Option (KeyedMap Text Text)) : List (Text × Text) :=
  dependencies.elim [] KeyedMap.entries

/-- The three maps one after the other, each in the order it iterates. -/
def PackageVersion.dependenciesWith (package : PackageVersion V I)
    (withPeerDependencies : Bool) : List (Text × Text) :=
  mapEntries package.dependencies ++ mapEntries package.optionalDependencies ++
    if withPeerDependencies then mapEntries package.peerDependencies else []

/-- Whether the name is one of `optional_dependencies`. -/
def PackageVersion.isOptional (package : PackageVersion V I) (name : Text) : Bool :=
  match package.optionalDependencies with
  | some optionalDependencies => (optionalDependencies.get name).isSome
  | none => false

variable [NodeSemver V]

/-- `name.replace('/', "+")` and the version. -/
def PackageVersion.toVirtualStoreName (package : PackageVersion V I) : Text :=
  (package.name.map fun c => if c = '/' then '+' else c) ++
    '@' :: NodeSemver.display package.version

def PackageVersion.serialize (package : PackageVersion V I) (saveExact : Bool) : Text :=
  (if saveExact then [] else ['^']) ++ NodeSemver.display package.version

end PackageVersion

section Tag

variable {V I : Type} [NodeSemver V]

inductive PackageTag (V : Type)
  | latest
  | version (version : V)

def PackageTag.fromStr (value : Text) : Except Text (PackageTag V) :=
  if value = "latest".toList then .ok .latest
  else (NodeSemver.parse value).map .version

def Package.versionByTag (package : Package V I) (tag : PackageTag V) :
    Except RegistryStop (PackageVersion V I) :=
  let release (version : Text) : Except RegistryStop (PackageVersion V I) :=
    match package.versions.get version with
    | some p => .ok p
    | none => .error (.error (.missingVersionRelease version package.name))
  match tag with
  | .latest =>
      match package.distTags.get "latest".toList with
      | some version => release version
      | none => .error (.error (.missingLatestTag package.name))
  | .version version => release (NodeSemver.display version)

theorem Package.versionByTag_mem {package : Package V I} {tag : PackageTag V}
    {p : PackageVersion V I} (h : package.versionByTag tag = .ok p) :
    ∃ key, (key, p) ∈ package.versions.entries := by
  have hrelease : ∀ version, (match package.versions.get version with
      | some p => (.ok p : Except RegistryStop (PackageVersion V I))
      | none => .error (.error (.missingVersionRelease version package.name))) = .ok p →
      ∃ key, (key, p) ∈ package.versions.entries := by
    intro version hversion
    split at hversion
    · rename_i found hfound
      cases hversion
      exact ⟨version, KeyedMap.get_eq_some_iff.mp hfound⟩
    · cases hversion
  unfold Package.versionByTag at h
  cases tag with
  | latest =>
      simp only at h
      split at h
      · exact hrelease _ h
      · cases h
  | version version => exact hrelease _ h

end Tag

section Range

variable {V I : Type} [SemverRange V]

/-- `max_by`: of equal elements the last one. -/
def maxBy {α : Type} (compare : α → α → Ordering) : List α → Option α
  | [] => none
  | a :: rest => some (rest.foldl (fun m b => if compare m b = .gt then m else b) a)

theorem maxBy_mem {α : Type} {compare : α → α → Ordering} {l : List α} {a : α}
    (h : maxBy compare l = some a) : a ∈ l := by
  cases l with
  | nil => cases h
  | cons b rest =>
      have hfold : ∀ (l : List α) (m : α),
          l.foldl (fun m b => if compare m b = .gt then m else b) m ∈ m :: l := by
        intro l
        induction l with
        | nil => simp
        | cons c l ih =>
            intro m
            rw [List.foldl_cons]
            split
            · have hmem := ih m
              simp only [List.mem_cons] at hmem ⊢
              tauto
            · exact List.mem_cons_of_mem _ (ih c)
      rw [← Option.some.inj h]
      exact hfold rest b

def Package.pinnedVersion (package : Package V I) (versionRange : Text) :
    Except RegistryStop (Option (PackageVersion V I)) :=
  match SemverRange.range versionRange with
  | none => .error (.invalidRange versionRange)
  | some satisfies =>
      .ok (maxBy (fun left right => SemverRange.compare left.version right.version)
        ((package.versions.entries.map Prod.snd).filter fun p => satisfies p.version))

end Range

section Resolve

variable {V I : Type}

/-- What `fetch_package_metadata` answers in a run. -/
abbrev Registry (V I : Type) := KeyedMap Text (Package V I)

def Registry.fetchPackageMetadata (registry : Registry V I) (name : Text) :
    Except RegistryStop (Package V I) :=
  match registry.get name with
  | some package => .ok package
  | none => .error (.error (.network name))

/-- All versions of all packages. -/
def Registry.versions (registry : Registry V I) : List (PackageVersion V I) :=
  registry.entries.flatMap fun e => e.2.versions.entries.map Prod.snd

variable [NodeSemver V] [SemverRange V]

def Package.versionBySpecifier (package : Package V I) (versionRange : Text) :
    Except RegistryStop (PackageVersion V I) :=
  match (PackageTag.fromStr versionRange : Except Text (PackageTag V)) with
  | .ok tag => package.versionByTag tag
  | .error _ => do
      let pinned ← package.pinnedVersion versionRange
      match pinned with
      | some p => .ok p
      | none => .error (.error (.missingVersionRelease versionRange package.name))

/-- `fetch_package_metadata`, then `version_by_specifier`. -/
def Registry.resolve (registry : Registry V I) (name versionRange : Text) :
    Except RegistryStop (PackageVersion V I) := do
  let package ← registry.fetchPackageMetadata name
  package.versionBySpecifier versionRange

/-- A specifier is resolved to one of the versions of the package. -/
theorem Package.versionBySpecifier_mem {package : Package V I} {versionRange : Text}
    {p : PackageVersion V I} (h : package.versionBySpecifier versionRange = .ok p) :
    ∃ key, (key, p) ∈ package.versions.entries := by
  unfold Package.versionBySpecifier at h
  split at h
  · exact versionByTag_mem h
  · obtain ⟨pinned, hpinned, h⟩ := Results.bind_ok h
    split at h
    · cases h
      unfold Package.pinnedVersion at hpinned
      split at hpinned
      · cases hpinned
      · have hmem := List.mem_of_mem_filter (maxBy_mem (Except.ok.inj hpinned))
        obtain ⟨e, he, rfl⟩ := List.mem_map.mp hmem
        exact ⟨e.1, he⟩
    · cases h

/-- What is resolved under a name is a version of the package of that name. -/
theorem Registry.resolve_mem {registry : Registry V I} {name versionRange : Text}
    {p : PackageVersion V I} (h : registry.resolve name versionRange = .ok p) :
    ∃ package, registry.get name = some package ∧
      ∃ key, (key, p) ∈ package.versions.entries := by
  obtain ⟨package, hpackage, h⟩ := Results.bind_ok h
  unfold Registry.fetchPackageMetadata at hpackage
  split at hpackage
  · rename_i hfound
    cases hpackage
    exact ⟨package, hfound, Package.versionBySpecifier_mem h⟩
  · cases hpackage

theorem Registry.resolve_mem_versions {registry : Registry V I} {name versionRange : Text}
    {p : PackageVersion V I} (h : registry.resolve name versionRange = .ok p) :
    p ∈ registry.versions := by
  obtain ⟨package, hpackage, key, hkey⟩ := Registry.resolve_mem h
  refine List.mem_flatMap.mpr ⟨(name, package), KeyedMap.get_eq_some_iff.mp hpackage, ?_⟩
  exact List.mem_map.mpr ⟨_, hkey, rfl⟩

end Resolve

end Npnpm
