import Npnpm.PackageManager.CreateBins
import Npnpm.PackageManager.GenerateReach
import Npnpm.PackageManager.InstallWithoutLockfile

/-!
# The install command

`Install::run` decides from its flags, the settings, the lockfile and the manifest
which of the ways to install it takes, and ends with the links of the bins.

## Implementation notes

The decision reads only the inputs, so it is a function of its own; a call of
`panic!` in it is one of its answers. The lockfile that is written is a value
beside the file tree. An install that finishes is a relation, because the order
in which downloads complete is open.
-/

namespace Npnpm

open Npnpm.Path Npnpm.FileTree DepthFirst

inductive RegistryMetadataMode
  | online
  | preferOffline
deriving DecidableEq

/-- The flags that select the groups to install. -/
structure InstallDependencyOptions where
  prod : Bool
  dev : Bool
  noOptional : Bool

def InstallDependencyOptions.dependencyGroups (options : InstallDependencyOptions) :
    List DependencyGroup :=
  let hasBoth := options.prod == options.dev
  let hasProd := hasBoth || options.prod
  let hasDev := hasBoth || options.dev
  let hasOptional := !options.noOptional
  (if hasProd then [.prod] else []) ++ (if hasDev then [.dev] else []) ++
    if hasOptional then [.optional] else []

structure Install (V I : Type) [BEq V] where
  config : Npmrc
  manifest : PackageManifest
  lockfile : Option (Lockfile V I)
  dependencyGroups : List DependencyGroup
  frozenLockfile : Bool
  offline : Bool
  preferOffline : Bool
  lockfileOnly : Bool
  resolutionOnly : Bool
  registry : Registry V I
  resolvedPackages : List Text

section Decision

variable {V I : Type} [BEq V]

/-- The entries of a group of the snapshot, from names to specifiers. -/
def ProjectSnapshot.specifiersOf (project : ProjectSnapshot V) (group : DependencyGroup) :
    KeyedMap Text Text :=
  match project.getMapByGroup group with
  | some dependencies =>
      .ofList (dependencies.entries.map fun d => (d.1.display, d.2.specifier))
  | none => .empty

def lockfileMatchesManifest (manifest : PackageManifest) (lockfile : Lockfile V I)
    (dependencyGroups : List DependencyGroup) : Bool :=
  match lockfile.projectSnapshot with
  | .multi _ => false
  | .single project =>
      dependencyGroups.all fun group =>
        let manifestDependencies : KeyedMap Text Text := .ofList (manifest.dependencies [group])
        let snapshotDependencies := project.specifiersOf group
        manifestDependencies.entries.length == snapshotDependencies.entries.length &&
          manifestDependencies.entries.all fun e => snapshotDependencies.get e.1 == some e.2

/-- The ways to install, and the refusals. -/
inductive InstallAction (V I : Type) [BEq V]
  | panic (message : Text)
  | upToDate
  | generate (mode : RegistryMetadataMode)
  | fromLockfile (lockfile : Lockfile V I) (networkMode : NetworkMode)
  | withoutLockfile (mode : RegistryMetadataMode)
  | generateAndInstall (mode : RegistryMetadataMode)

def Install.inSync (install : Install V I) (lockfile : Lockfile V I) : Bool :=
  lockfileMatchesManifest install.manifest lockfile install.dependencyGroups

def Install.metadataMode (install : Install V I) : RegistryMetadataMode :=
  if install.preferOffline then .preferOffline else .online

/-- The branch that `run` takes. -/
def Install.action (install : Install V I) : InstallAction V I :=
  if install.lockfileOnly || install.resolutionOnly then
    if install.frozenLockfile then
      .panic "--lockfile-only and --resolution-only cannot be used with --frozen-lockfile".toList
    else if install.offline then
      .panic "--lockfile-only and --resolution-only cannot be used with --offline".toList
    else if install.lockfileOnly && !install.resolutionOnly &&
        install.lockfile.any install.inSync then .upToDate
    else .generate install.metadataMode
  else
    match install.offline, install.config.lockfile, install.frozenLockfile, install.lockfile with
    | true, _, _, none => .panic "--offline requires an existing pnpm-lock.yaml".toList
    | true, _, frozenLockfile, some lockfile =>
        if frozenLockfile || install.inSync lockfile then .fromLockfile lockfile .offline
        else
          .panic "--offline requires pnpm-lock.yaml to be in sync with package.json".toList
    | false, false, _, _ => .withoutLockfile install.metadataMode
    | false, true, true, none =>
        .panic "--frozen-lockfile requires an existing pnpm-lock.yaml".toList
    | false, true, true, some lockfile =>
        if install.inSync lockfile then .fromLockfile lockfile .online
        else .panic
          "--frozen-lockfile requires pnpm-lock.yaml to be in sync with package.json".toList
    | false, true, false, some lockfile =>
        if install.config.preferFrozenLockfile && install.inSync lockfile then
          .fromLockfile lockfile .online
        else .generateAndInstall install.metadataMode
    | false, true, false, none => .generateAndInstall install.metadataMode

/-- What each branch that is no refusal requires. -/
inductive Install.Chooses (install : Install V I) : InstallAction V I → Prop
  | panic (message) : Chooses install (.panic message)
  | upToDate (hfrozen : install.frozenLockfile = false) (hoffline : install.offline = false) :
      Chooses install .upToDate
  | generate (hfrozen : install.frozenLockfile = false) (hoffline : install.offline = false) :
      Chooses install (.generate install.metadataMode)
  | fromLockfileOffline {lockfile} (hlockfile : install.lockfile = some lockfile)
      (hoffline : install.offline = true)
      (hchecked : install.frozenLockfile = true ∨ install.inSync lockfile = true) :
      Chooses install (.fromLockfile lockfile .offline)
  | fromLockfile {lockfile} (hlockfile : install.lockfile = some lockfile)
      (hoffline : install.offline = false) (hconfig : install.config.lockfile = true)
      (hsync : install.inSync lockfile = true) : Chooses install (.fromLockfile lockfile .online)
  | withoutLockfile (hoffline : install.offline = false)
      (hconfig : install.config.lockfile = false) :
      Chooses install (.withoutLockfile install.metadataMode)
  | generateAndInstall (hoffline : install.offline = false)
      (hconfig : install.config.lockfile = true) (hfrozen : install.frozenLockfile = false) :
      Chooses install (.generateAndInstall install.metadataMode)

theorem Install.chooses_action (install : Install V I) : install.Chooses install.action := by
  unfold Install.action
  split
  · split
    · exact .panic _
    · rename_i hfrozen
      rw [Bool.not_eq_true] at hfrozen
      split
      · exact .panic _
      · rename_i hoffline
        rw [Bool.not_eq_true] at hoffline
        split
        · exact .upToDate hfrozen hoffline
        · exact .generate hfrozen hoffline
  · split
    · exact .panic _
    · rename_i hoffline hlockfile
      split
      · rename_i hchecked
        exact .fromLockfileOffline hlockfile hoffline (by simpa using hchecked)
      · exact .panic _
    · rename_i hoffline hconfig
      exact .withoutLockfile hoffline hconfig
    · exact .panic _
    · rename_i hoffline hconfig hfrozen hlockfile
      split
      · rename_i hsync
        exact .fromLockfile hlockfile hoffline hconfig hsync
      · exact .panic _
    · rename_i hoffline hconfig hfrozen hlockfile
      split
      · rename_i hsync
        exact .fromLockfile hlockfile hoffline hconfig (Bool.and_eq_true_iff.mp hsync).2
      · exact .generateAndInstall hoffline hconfig hfrozen
    · rename_i hoffline hconfig hfrozen _
      exact .generateAndInstall hoffline hconfig hfrozen

/-- An offline install refuses, or installs the lockfile it was given offline. -/
theorem Install.action_offline {install : Install V I} (hoffline : install.offline = true) :
    (∃ message, install.action = .panic message) ∨
      ∃ lockfile, install.lockfile = some lockfile ∧
        install.action = .fromLockfile lockfile .offline := by
  have hchooses := install.chooses_action
  generalize install.action = action at hchooses
  cases hchooses with
  | panic message => exact Or.inl ⟨message, rfl⟩
  | fromLockfileOffline hlockfile _ _ => exact Or.inr ⟨_, hlockfile, rfl⟩
  | upToDate _ honline => simp [hoffline] at honline
  | generate _ honline => simp [hoffline] at honline
  | fromLockfile _ honline _ _ => simp [hoffline] at honline
  | withoutLockfile honline _ => simp [hoffline] at honline
  | generateAndInstall honline _ _ => simp [hoffline] at honline

def Install.generateLockfile (install : Install V I) : GenerateLockfile V I :=
  ⟨install.config, install.manifest, install.dependencyGroups, install.registry⟩

def Install.installWithoutLockfile (install : Install V I) : InstallWithoutLockfile V I :=
  ⟨install.config, install.manifest, install.dependencyGroups, install.registry,
    install.resolvedPackages⟩

variable [NodeSemver V] [SemverRange V]

/-- The lockfile is generated and saved over `pnpm-lock.yaml`. -/
def Install.Writes (install : Install V I) (lockfile : Lockfile V I) : Prop :=
  (∃ mode, install.action = .generate mode ∨ install.action = .generateAndInstall mode) ∧
    install.generateLockfile.run = .ok lockfile

/-- The versions that the generation of a lockfile resolves. -/
def GenerateLockfile.Resolves (generate : GenerateLockfile V I) (p : PackageVersion V I) : Prop :=
  ∃ visits found flags,
    Walk generate.builder.graph [] generate.roots visits found ∧ (flags, p) ∈ visits

/-- A package that an install imports: an entry of a lockfile, or a version that
was resolved from the registry. -/
inductive Imported (V I : Type)
  | snapshot (path : DependencyPath V) (snapshot : PackageSnapshot V I)
  | version (package : PackageVersion V I)

/-- What an install that finished has resolved from the registry, saved, and
imported. -/
structure InstallReport (V I : Type) [BEq V] where
  resolved : PackageVersion V I → Prop
  saved : Option (Lockfile V I)
  imported : Imported V I → Prop

def Lockfile.Imports (lockfile : Lockfile V I) (imported : Imported V I) : Prop :=
  ∃ e ∈ lockfile.packageEntries, imported = .snapshot e.1 e.2

/-- An install that finishes, from one file tree to another. -/
inductive Install.Completes (install : Install V I) (binEntries : BinEntries) :
    Tree → InstallReport V I → Tree → Prop
  | upToDate {t} (haction : install.action = .upToDate) :
      Completes install binEntries t ⟨fun _ => False, none, fun _ => False⟩ t
  | generate {t mode lockfile} (haction : install.action = .generate mode)
      (hgenerate : install.generateLockfile.run = .ok lockfile) :
      Completes install binEntries t
        ⟨install.generateLockfile.Resolves, some lockfile, fun _ => False⟩ t
  | fromLockfile {t s t' lockfile mode schedule}
      (haction : install.action = .fromLockfile lockfile mode)
      (hinstall : Install.installFromLockfile install.config lockfile install.dependencyGroups
        schedule t = .ok s)
      (hbins : CreateBins.run binEntries install.config.modulesDir install.config.virtualStoreDir
        s = .ok t') :
      Completes install binEntries t ⟨fun _ => False, none, lockfile.Imports⟩ t'
  | withoutLockfile {t s t' mode download installed state}
      (haction : install.action = .withoutLockfile mode)
      (hinstall : install.installWithoutLockfile.Completes download t installed state s)
      (hbins : CreateBins.run binEntries install.config.modulesDir install.config.virtualStoreDir
        s = .ok t') :
      Completes install binEntries t
        ⟨fun p => ∃ e ∈ installed, e.package = p, none,
          fun imported => ∃ e ∈ installed, imported = .version e.package⟩ t'
  | generateAndInstall {t s t' mode lockfile schedule}
      (haction : install.action = .generateAndInstall mode)
      (hgenerate : install.generateLockfile.run = .ok lockfile)
      (hinstall : Install.installFromLockfile install.config lockfile install.dependencyGroups
        schedule t = .ok s)
      (hbins : CreateBins.run binEntries install.config.modulesDir install.config.virtualStoreDir
        s = .ok t') :
      Completes install binEntries t
        ⟨install.generateLockfile.Resolves, some lockfile, lockfile.Imports⟩ t'

end Decision

end Npnpm
