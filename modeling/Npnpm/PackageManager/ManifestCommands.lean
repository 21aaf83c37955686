import Npnpm.PackageManager.Install
import Npnpm.PackageManifest.Edits

/-!
# The commands that edit the manifest

`Add`, `Remove` and `Update` edit the manifest in memory, install for the edited
manifest, and save it. Here are the edits and the installs; in which order the files
are written is the subject of another module.

## Implementation notes

The versions are resolved by the registry as in an install. The caches are left out.
-/

namespace Npnpm

structure ParsedPackageSpec where
  name : Text
  specifier : Option Text
deriving DecidableEq

/-- The last `@` that is not the first character, unless nothing follows it. -/
def ParsedPackageSpec.parse (input : Text) : ParsedPackageSpec :=
  match input with
  | [] => ⟨[], none⟩
  | c :: rest =>
      match Text.splitOnce '@' rest.reverse with
      | some (d :: after, before) => ⟨c :: before.reverse, some (d :: after).reverse⟩
      | _ => ⟨input, none⟩

example : ParsedPackageSpec.parse "@types/node@20".toList =
    ⟨"@types/node".toList, some "20".toList⟩ := by decide

section Commands

variable {V I : Type} [BEq V]

structure Add (V I : Type) [BEq V] where
  config : Npmrc
  manifest : PackageManifest
  lockfile : Option (Lockfile V I)
  dependencyGroups : List DependencyGroup
  packages : List Text
  saveExact : Bool
  registry : Registry V I
  resolvedPackages : List Text

structure Remove (V I : Type) where
  config : Npmrc
  manifest : PackageManifest
  dependencyGroups : List DependencyGroup
  packages : List Text
  registry : Registry V I
  resolvedPackages : List Text

structure Update (V I : Type) where
  config : Npmrc
  manifest : PackageManifest
  dependencyGroups : List DependencyGroup
  packages : List Text
  latest : Bool
  registry : Registry V I
  resolvedPackages : List Text

inductive AddError
  | addDependencyToManifest (error : PackageManifestError)
  | fetchFromRegistry (error : RegistryStop)

inductive RemoveError
  | removeDependencyFromManifest (error : PackageManifestError)

inductive UpdateError
  | fetchFromRegistry (error : RegistryStop)
  | missingPackage (name : Text)
  | updateDependencyInManifest (error : PackageManifestError)

variable [NodeSemver V] [SemverRange V]

/-- A specifier that is given is taken as it is. -/
def Add.resolveSpec (add : Add V I) (package : Text) : Except AddError (Text × Text) :=
  let spec := ParsedPackageSpec.parse package
  match spec.specifier with
  | some specifier => .ok (spec.name, specifier)
  | none =>
      ((add.registry.resolve spec.name "latest".toList).mapError .fetchFromRegistry).map
        fun version => (spec.name, version.serialize add.saveExact)

theorem Add.resolveSpec_name {add : Add V I} {package : Text} {spec : Text × Text}
    (h : add.resolveSpec package = .ok spec) :
    spec.1 = (ParsedPackageSpec.parse package).name := by
  unfold Add.resolveSpec at h
  simp only at h
  split at h
  · cases h
    rfl
  · obtain ⟨version, -, rfl⟩ := Results.map_ok h
    rfl

def Add.edit (add : Add V I) : Except AddError PackageManifest := do
  let resolvedSpecs ← add.packages.mapM add.resolveSpec
  resolvedSpecs.foldlM (fun manifest spec =>
    add.dependencyGroups.foldlM (fun manifest group =>
      (manifest.addDependency spec.1 spec.2 group).mapError .addDependencyToManifest) manifest)
    add.manifest

omit [NodeSemver V] [SemverRange V] [BEq V] in
def Remove.edit (remove : Remove V I) : Except RemoveError PackageManifest :=
  remove.packages.foldlM (fun manifest package =>
    remove.dependencyGroups.foldlM (fun manifest group =>
      ((manifest.removeDependency package group).map Prod.fst).mapError
        .removeDependencyFromManifest) manifest) remove.manifest

/-- The specifier is a version and no range. -/
def isExactVersion (V : Type) [NodeSemver V] (specifier : Text) : Bool :=
  (NodeSemver.parse (V := V) specifier).isOk

def collectTargetEntries (manifest : PackageManifest) (groups : List DependencyGroup)
    (packages : List Text) : Except UpdateError (List (DependencyGroup × Text × Text)) := do
  let targets ← packages.mapM fun package =>
    let name := (ParsedPackageSpec.parse package).name
    let found := groups.filterMap fun group =>
      (manifest.dependencyVersion name group).map fun specifier => (group, name, specifier)
    if found.isEmpty then .error (.missingPackage name) else .ok found
  return targets.flatten

def ensureTargetPackagesExist (manifest : PackageManifest) (groups : List DependencyGroup)
    (packages : List Text) : Except UpdateError Unit :=
  packages.forM fun package =>
    let name := (ParsedPackageSpec.parse package).name
    if groups.all fun group => (manifest.dependencyVersion name group).isNone then
      .error (.missingPackage name)
    else .ok ()

/-- The name, the specifier it has and the one it gets. -/
def Update.resolveTarget (update : Update V I) (target : DependencyGroup × Text × Text) :
    Except UpdateError (Text × Text × Text) :=
  ((update.registry.resolve target.2.1 "latest".toList).mapError .fetchFromRegistry).map
    fun version =>
      (target.2.1, target.2.2, version.serialize (isExactVersion V target.2.2))

def Update.editLatest (update : Update V I) : Except UpdateError PackageManifest := do
  let targets ←
    if update.packages.isEmpty then
      .ok (update.manifest.dependencyEntries update.dependencyGroups)
    else collectTargetEntries update.manifest update.dependencyGroups update.packages
  let updates ← targets.mapM update.resolveTarget
  updates.foldlM (fun manifest e =>
    update.dependencyGroups.foldlM (fun manifest group =>
      if manifest.dependencyVersion e.1 group = some e.2.1 then
        (manifest.addDependency e.1 e.2.2 group).mapError .updateDependencyInManifest
      else .ok manifest) manifest) update.manifest

/-- The specifier of one package, in every group that has the package. -/
def updatePackage (groups : List DependencyGroup) (manifest : PackageManifest) (package : Text) :
    Except UpdateError PackageManifest :=
  let spec := ParsedPackageSpec.parse package
  match spec.specifier with
  | none => .ok manifest
  | some specifier => do
      let (manifest, updated) ← groups.foldlM (fun (manifest, updated) group =>
        if (manifest.dependencyVersion spec.name group).isNone then .ok (manifest, updated)
        else ((manifest.addDependency spec.name specifier group).map fun m => (m, true)).mapError
          .updateDependencyInManifest) (manifest, false)
      if updated then .ok manifest else .error (.missingPackage spec.name)

def Update.edit (update : Update V I) : Except UpdateError PackageManifest :=
  if update.latest then update.editLatest
  else if update.packages.isEmpty then .ok update.manifest
  else do
    ensureTargetPackagesExist update.manifest update.dependencyGroups update.packages
    update.packages.foldlM (updatePackage update.dependencyGroups) update.manifest

inductive ManifestCommand (V I : Type) [BEq V]
  | add (add : Add V I)
  | remove (remove : Remove V I)
  | update (update : Update V I)

/-- The manifest as it was read from the file. -/
def ManifestCommand.manifest : ManifestCommand V I → PackageManifest
  | .add call => call.manifest
  | .remove call => call.manifest
  | .update call => call.manifest

/-- The edited manifest, when the edits succeed. -/
def ManifestCommand.edited : ManifestCommand V I → Option PackageManifest
  | .add call => call.edit.toOption
  | .remove call => call.edit.toOption
  | .update call => call.edit.toOption

/-- The install for an edited manifest. -/
def ManifestCommand.install (command : ManifestCommand V I) (manifest : PackageManifest) :
    Install V I :=
  match command with
  | .add call =>
      ⟨call.config, manifest, call.lockfile, call.dependencyGroups, false, false, false, false,
        false, call.registry, call.resolvedPackages⟩
  | .remove call =>
      ⟨call.config, manifest, none, [.prod, .dev, .optional], false, false, false, false,
        false, call.registry, call.resolvedPackages⟩
  | .update call =>
      ⟨call.config, manifest, none, call.dependencyGroups, false, false, false, false,
        false, call.registry, call.resolvedPackages⟩

omit [NodeSemver V] [SemverRange V] in
@[simp] theorem ManifestCommand.install_manifest (command : ManifestCommand V I)
    (manifest : PackageManifest) : (command.install manifest).manifest = manifest := by
  cases command <;> rfl

/-- The groups that are installed, which do not depend on the edits. -/
def ManifestCommand.groups : ManifestCommand V I → List DependencyGroup
  | .add call => call.dependencyGroups
  | .remove _ => [.prod, .dev, .optional]
  | .update call => call.dependencyGroups

omit [NodeSemver V] [SemverRange V] in
@[simp] theorem ManifestCommand.install_groups (command : ManifestCommand V I)
    (manifest : PackageManifest) :
    (command.install manifest).dependencyGroups = command.groups := by
  cases command <;> rfl

end Commands

end Npnpm
