import Npnpm.Library.Run
import Npnpm.PackageManager.InstallFrozenLockfile
import Npnpm.PackageManifest.Dependencies
import Npnpm.Registry.Package

/-!
# The install without a lockfile

`InstallWithoutLockfile` resolves the dependencies of the manifest and installs
each version it comes to: its files are imported, it is linked for the package
that asked for it, and its own dependencies are installed in turn unless another
task has begun with them.

## Implementation notes

Each dependency is a task of its own, and the tasks run on one thread and give
way to each other while they wait for metadata or a tarball. What a task does
after its tarball has arrived, up to the start of the tasks of its dependencies,
runs without interruption and is one step. Any task may be next. An error of a
task ends the program and is no step.
-/

namespace Npnpm

open Npnpm.Path Npnpm.FileTree

section Package

variable {V I : Type} [NodeSemver V]

/-- The directory that a version is imported into. -/
def PackageVersion.savePath (config : Npmrc) (package : PackageVersion V I) : Text :=
  join (nodeModulesOf config.virtualStoreDir package.toVirtualStoreName) package.name

/-- What `install_package_version` does once the tarball has arrived. -/
def InstallPackageFromRegistry.installPackageVersion (config : Npmrc) (t : Tree)
    (nodeModulesDir : Text) (package : PackageVersion V I) (casPaths : CasPaths) :
    Except InstallError Tree := do
  let savePath := package.savePath config
  let t ← (createCasFiles config.packageImportMethod t savePath casPaths).mapError .createCasFiles
  (symlinkPackage t savePath (join nodeModulesDir package.name)).mapError .symlinkPackage

/-- The writes of `install_package_version`. -/
def registrySteps (config : Npmrc) (nodeModulesDir : Text) (package : PackageVersion V I)
    (casPaths : CasPaths) : List InstallStep :=
  [.importFiles (package.savePath config) casPaths,
    .linkPackage (package.savePath config) (join nodeModulesDir package.name)]

theorem registrySteps_of_install {config : Npmrc} {t t' : Tree} {nodeModulesDir : Text}
    {package : PackageVersion V I} {casPaths : CasPaths}
    (h : InstallPackageFromRegistry.installPackageVersion config t nodeModulesDir package
      casPaths = .ok t') :
    runSteps config.packageImportMethod (registrySteps config nodeModulesDir package casPaths) t =
      .ok t' := by
  obtain ⟨s, himport, hlink⟩ := Results.bind_ok h
  exact runSteps_cons_of_ok himport (runSteps_cons_of_ok hlink rfl)

end Package

/-- A call of `InstallPackageFromRegistry` that has not finished. -/
structure RegistryTask where
  nodeModulesDir : Text
  name : Text
  versionRange : Text
deriving DecidableEq

structure RegistryInstallState where
  tree : Tree
  resolvedPackages : List Text
  tasks : List RegistryTask

/-- A task that finished: the version it resolved and the files of its tarball. -/
structure RegistryInstalled (V I : Type) where
  task : RegistryTask
  package : PackageVersion V I
  casPaths : CasPaths

structure InstallWithoutLockfile (V I : Type) where
  config : Npmrc
  manifest : PackageManifest
  dependencyGroups : List DependencyGroup
  registry : Registry V I
  resolvedPackages : List Text

/-- What the download of a task returns. -/
abbrev RegistryDownload (I : Type) := RegistryTask → TarballRequest I → Except TarballError CasPaths

section Run

variable {V I : Type} [NodeSemver V]

/-- The tasks for the dependencies of a version. -/
def PackageVersion.tasks (config : Npmrc) (package : PackageVersion V I) : List RegistryTask :=
  (package.dependenciesWith config.autoInstallPeers).map fun dependency =>
    ⟨nodeModulesOf config.virtualStoreDir package.toVirtualStoreName, dependency.1, dependency.2⟩

/-- The beginning of `install_dependencies_from_registry`. -/
def RegistryInstallState.installDependencies (config : Npmrc) (s : RegistryInstallState)
    (package : PackageVersion V I) : RegistryInstallState :=
  if package.toVirtualStoreName ∈ s.resolvedPackages then s
  else { s with
    resolvedPackages := package.toVirtualStoreName :: s.resolvedPackages
    tasks := s.tasks ++ package.tasks config }

variable [SemverRange V]

/-- One task finishes and starts the tasks of its dependencies. -/
inductive InstallWithoutLockfile.Step (install : InstallWithoutLockfile V I)
    (download : RegistryDownload I) :
    RegistryInstallState → RegistryInstalled V I → RegistryInstallState → Prop
  | task {s before task after package integrity casPaths t}
      (htasks : s.tasks = before ++ task :: after)
      (hresolve : install.registry.resolve task.name task.versionRange = .ok package)
      (hintegrity : package.dist.integrity = some integrity)
      (hdownload : download task ⟨package.dist.tarball, integrity⟩ = .ok casPaths)
      (hinstall : InstallPackageFromRegistry.installPackageVersion install.config s.tree
        task.nodeModulesDir package casPaths = .ok t) :
      Step install download s ⟨task, package, casPaths⟩
        (RegistryInstallState.installDependencies install.config
          ⟨t, s.resolvedPackages, before ++ after⟩ package)

omit [NodeSemver V] [SemverRange V] in
/-- The tasks for the dependencies of the manifest. -/
def InstallWithoutLockfile.start (install : InstallWithoutLockfile V I) (t : Tree) :
    RegistryInstallState where
  tree := t
  resolvedPackages := install.resolvedPackages
  tasks := (install.manifest.dependencies install.dependencyGroups).map fun dependency =>
    ⟨install.config.modulesDir, dependency.1, dependency.2⟩

/-- An install that finishes: all tasks are done, and the direct links are
synchronised with the names in the manifest. -/
structure InstallWithoutLockfile.Completes (install : InstallWithoutLockfile V I)
    (download : RegistryDownload I) (t : Tree) (installed : List (RegistryInstalled V I))
    (s : RegistryInstallState) (t' : Tree) : Prop where
  run : Run (install.Step download) (install.start t) installed s
  done : s.tasks = []
  sync : syncDirectDependencyLinks s.tree install.config.modulesDir
    ((install.manifest.dependencies install.dependencyGroups).map Prod.fst) = .ok t'

/-- Every task that has finished was open, and every open task finishes. -/
theorem InstallWithoutLockfile.Completes.exists_installed {install : InstallWithoutLockfile V I}
    {download : RegistryDownload I} {t t' : Tree} {installed : List (RegistryInstalled V I)}
    {s : RegistryInstallState} (h : install.Completes download t installed s t')
    {dependency : Text × Text}
    (hmem : dependency ∈ install.manifest.dependencies install.dependencyGroups) :
    ∃ e ∈ installed, e.task = ⟨install.config.modulesDir, dependency.1, dependency.2⟩ := by
  have hopen : ∀ task ∈ (install.start t).tasks,
      task ∈ s.tasks ∨ ∃ e ∈ installed, e.task = task := by
    refine h.run.invariant_with_events (fun events s => ∀ task ∈ (install.start t).tasks,
      task ∈ s.tasks ∨ ∃ e ∈ events, e.task = task) (fun _ htask => Or.inl htask) ?_
    rintro events s e s' hinv hstep task htask
    cases hstep with
    | @task before current after package integrity casPaths t htasks =>
        rcases hinv task htask with hin | ⟨e, he, heq⟩
        · rw [htasks] at hin
          by_cases hcurrent : task = current
          · exact Or.inr ⟨_, List.mem_append_right _ (List.mem_singleton_self _), hcurrent.symm⟩
          · apply Or.inl
            have hrest : task ∈ before ++ after := by
              simpa [hcurrent] using hin
            unfold RegistryInstallState.installDependencies
            split
            · exact hrest
            · exact List.mem_append_left _ hrest
        · exact Or.inr ⟨e, List.mem_append_left _ he, heq⟩
  rcases hopen _ (List.mem_map.mpr ⟨dependency, hmem, rfl⟩) with hin | hdone
  · rw [h.done] at hin
    cases hin
  · exact hdone

end Run

end Npnpm
