import Npnpm.PackageManager.LinkPackages

/-!
# The frozen install

`InstallFrozenLockfile` downloads every package, imports its files into the
virtual store, links its dependencies beside them, and links the direct
dependencies of the project. What it does to the file tree is a list of steps.

## Implementation notes

All downloads are awaited together, and the part of a package that writes to the
file tree runs without interruption when its download is complete. The order of
completion and the files of each package are the `Schedule`. An error of any part
stops the install, so a state is only given for installs that finish.
-/

namespace Npnpm

open Npnpm.Path Npnpm.FileTree

inductive InstallError
  | panic (panic : InstallPanic)
  | downloadTarball (error : TarballError)
  | createNodeModulesDir (dir : Text) (error : IoError)
  | createCasFiles (error : CreateCasFilesError)
  | symlinkPackage (error : SymlinkPackageError)
  | syncLinks (error : SyncDirectDependencyLinksError)
  | monorepo
deriving DecidableEq

section Paths

variable {V : Type} [NodeSemver V]

/-- The virtual store name that a dependency is looked up under. -/
def dependencyStoreName (name : PkgName) : PackageSnapshotDependency V → Text
  | .pkgVerPeer verPeer => PkgNameVerPeer.toVirtualStoreNameFromParts name verPeer
  | .dependencyPath path => path.packageSpecifier.toVirtualStoreName

/-- `{virtual store}/{store name}/node_modules` -/
def nodeModulesOf (virtualStoreDir storeName : Text) : Text :=
  join (join virtualStoreDir storeName) "node_modules".toList

/-- The directory whose entries a package resolves its dependencies in. -/
def virtualNodeModulesDir (config : Npmrc) (path : DependencyPath V) : Text :=
  nodeModulesOf config.virtualStoreDir path.packageSpecifier.toVirtualStoreName

/-- The directory that a package is imported into. -/
def savePath (config : Npmrc) (path : DependencyPath V) : Text :=
  join (virtualNodeModulesDir config path) path.packageSpecifier.name.display

/-- Where the link of a dependency points to. -/
def linkTarget (virtualRoot : Text) (name : PkgName) (spec : PackageSnapshotDependency V) :
    Text :=
  join (nodeModulesOf virtualRoot (dependencyStoreName name spec)) name.display

end Paths

section Install

variable {V I : Type} [NodeSemver V] [BEq V]

def createSymlinkLayout (t : Tree)
    (dependencies : KeyedMap PkgName (PackageSnapshotDependency V))
    (virtualRoot virtualNodeModulesDir : Text) : Except SymlinkPackageError Tree :=
  dependencies.entries.foldlM
    (fun t e => symlinkPackage t (linkTarget virtualRoot e.1 e.2)
      (join virtualNodeModulesDir e.1.display)) t

def CreateVirtualDirBySnapshot.run (config : Npmrc) (t : Tree) (casPaths : CasPaths)
    (path : DependencyPath V) (snapshot : PackageSnapshot V I) : Except InstallError Tree := do
  let nodeModulesDir := virtualNodeModulesDir config path
  let t ← (createDirAll t (components nodeModulesDir)).mapError
    (.createNodeModulesDir nodeModulesDir)
  let t ← (createCasFiles config.packageImportMethod t (savePath config path) casPaths).mapError
    .createCasFiles
  match snapshot.dependencies with
  | some dependencies =>
      (createSymlinkLayout t dependencies config.virtualStoreDir nodeModulesDir).mapError
        .symlinkPackage
  | none => .ok t

/-- What a run depends on besides its inputs: the order in which the downloads
complete, and what each of them returns. -/
structure Schedule (V I : Type) where
  order : List (DependencyPath V × PackageSnapshot V I) →
    List (DependencyPath V × PackageSnapshot V I)
  perm : ∀ packages, (order packages).Perm packages
  download : DependencyPath V → TarballRequest I → Except TarballError CasPaths

def InstallPackageBySnapshot.run (config : Npmrc) (schedule : Schedule V I) (t : Tree)
    (e : DependencyPath V × PackageSnapshot V I) : Except InstallError Tree := do
  let request ← (InstallPackageBySnapshot.request config e.1 e.2).mapError .panic
  let casPaths ← (schedule.download e.1 request).mapError .downloadTarball
  CreateVirtualDirBySnapshot.run config t casPaths e.1 e.2

def CreateVirtualStore.run (config : Npmrc) (packages : Option (Packages V I))
    (schedule : Schedule V I) (t : Tree) : Except InstallError Tree :=
  match packages with
  | none => .error (.panic .missingPackages)
  | some packages =>
      (schedule.order packages.entries).foldlM (InstallPackageBySnapshot.run config schedule) t

def SymlinkDirectDependencies.run (config : Npmrc) (projectSnapshot : RootProjectSnapshot V)
    (dependencyGroups : List DependencyGroup) (t : Tree) : Except InstallError Tree :=
  match projectSnapshot with
  | .multi _ => .error .monorepo
  | .single projectSnapshot => do
      let directDependencies := projectSnapshot.dependenciesByGroups dependencyGroups
      let t ← (syncDirectDependencyLinks t config.modulesDir
        (directDependencies.map fun d => d.1.display)).mapError .syncLinks
      directDependencies.foldlM
        (fun t d => (symlinkPackage t
          (linkTarget config.virtualStoreDir d.1 (.pkgVerPeer d.2.version))
          (join config.modulesDir d.1.display)).mapError .symlinkPackage) t

structure InstallFrozenLockfile (V I : Type) [BEq V] where
  config : Npmrc
  projectSnapshot : RootProjectSnapshot V
  packages : Option (Packages V I)
  dependencyGroups : List DependencyGroup

def InstallFrozenLockfile.run (install : InstallFrozenLockfile V I) (schedule : Schedule V I)
    (t : Tree) : Except InstallError Tree := do
  let t ← CreateVirtualStore.run install.config install.packages schedule t
  SymlinkDirectDependencies.run install.config install.projectSnapshot
    install.dependencyGroups t

def Install.installFromLockfile (config : Npmrc) (lockfile : Lockfile V I)
    (dependencyGroups : List DependencyGroup) (schedule : Schedule V I) (t : Tree) :
    Except InstallError Tree :=
  InstallFrozenLockfile.run
    ⟨config, lockfile.projectSnapshot, lockfile.packages, dependencyGroups⟩ schedule t

end Install

section Steps

/-- One write to the file tree, as a whole. -/
inductive InstallStep
  | nodeModules (dir : Text)
  | importFiles (savePath : Text) (casPaths : CasPaths)
  | linkPackage (symlinkTarget symlinkPath : Text)
  | syncLinks (modulesDir : Text) (desiredPackages : List Text)

def InstallStep.exec (importMethod : PackageImportMethod) (t : Tree) :
    InstallStep → Except InstallError Tree
  | .nodeModules dir => (createDirAll t (components dir)).mapError (.createNodeModulesDir dir)
  | .importFiles savePath casPaths =>
      (createCasFiles importMethod t savePath casPaths).mapError .createCasFiles
  | .linkPackage symlinkTarget symlinkPath =>
      (symlinkPackage t symlinkTarget symlinkPath).mapError .symlinkPackage
  | .syncLinks modulesDir desiredPackages =>
      (syncDirectDependencyLinks t modulesDir desiredPackages).mapError .syncLinks

def runSteps (importMethod : PackageImportMethod) (steps : List InstallStep) (t : Tree) :
    Except InstallError Tree :=
  steps.foldlM (InstallStep.exec importMethod) t

variable {V I : Type} [NodeSemver V] [BEq V]

/-- The dependencies that are linked for a package. -/
def linkedDependencies (snapshot : PackageSnapshot V I) :
    List (PkgName × PackageSnapshotDependency V) :=
  snapshot.dependencies.elim [] KeyedMap.entries

/-- The link of one dependency of a package. -/
def dependencyLink (config : Npmrc) (path : DependencyPath V)
    (d : PkgName × PackageSnapshotDependency V) : InstallStep :=
  .linkPackage (linkTarget config.virtualStoreDir d.1 d.2)
    (join (virtualNodeModulesDir config path) d.1.display)

/-- The import of one package. -/
def packageImport (config : Npmrc) (casPaths : CasPaths) (path : DependencyPath V) :
    InstallStep :=
  .importFiles (savePath config path) casPaths

/-- The files of a package that the schedule downloads. -/
def Schedule.casPaths (schedule : Schedule V I) (config : Npmrc)
    (e : DependencyPath V × PackageSnapshot V I) : CasPaths :=
  match InstallPackageBySnapshot.request config e.1 e.2 with
  | .error _ => .empty
  | .ok request =>
      match schedule.download e.1 request with
      | .error _ => .empty
      | .ok casPaths => casPaths

def packageSteps (config : Npmrc) (schedule : Schedule V I)
    (e : DependencyPath V × PackageSnapshot V I) : List InstallStep :=
  .nodeModules (virtualNodeModulesDir config e.1) ::
    packageImport config (schedule.casPaths config e) e.1 ::
      (linkedDependencies e.2).map (dependencyLink config e.1)

def storeSteps (config : Npmrc) (entries : List (DependencyPath V × PackageSnapshot V I))
    (schedule : Schedule V I) : List InstallStep :=
  (schedule.order entries).flatMap (packageSteps config schedule)

/-- The link of one direct dependency. -/
def directLink (config : Npmrc) (d : PkgName × ResolvedDependencySpec V) : InstallStep :=
  .linkPackage (linkTarget config.virtualStoreDir d.1 (.pkgVerPeer d.2.version))
    (join config.modulesDir d.1.display)

def directSteps (config : Npmrc) (direct : List (PkgName × ResolvedDependencySpec V)) :
    List InstallStep :=
  .syncLinks config.modulesDir (direct.map fun d => d.1.display) ::
    direct.map (directLink config)

/-- The steps of the whole install. -/
def installSteps (config : Npmrc) (entries : List (DependencyPath V × PackageSnapshot V I))
    (direct : List (PkgName × ResolvedDependencySpec V)) (schedule : Schedule V I) :
    List InstallStep :=
  storeSteps config entries schedule ++ directSteps config direct

/-- The direct dependencies that are linked for a project. -/
def Lockfile.directDependencies (lockfile : Lockfile V I) (groups : List DependencyGroup) :
    List (PkgName × ResolvedDependencySpec V) :=
  match lockfile.projectSnapshot with
  | .single project => project.dependenciesByGroups groups
  | .multi _ => []

theorem runSteps_append (importMethod : PackageImportMethod) (before after : List InstallStep)
    (t : Tree) :
    runSteps importMethod (before ++ after) t =
      runSteps importMethod before t >>= runSteps importMethod after :=
  List.foldlM_append ..

theorem runSteps_append_ok {importMethod : PackageImportMethod}
    {before after : List InstallStep} {t t' : Tree}
    (h : runSteps importMethod (before ++ after) t = .ok t') :
    ∃ s, runSteps importMethod before t = .ok s ∧ runSteps importMethod after s = .ok t' := by
  rw [runSteps_append] at h
  exact Results.bind_ok h

theorem runSteps_append_of_ok {importMethod : PackageImportMethod}
    {before after : List InstallStep} {t s t' : Tree}
    (h : runSteps importMethod before t = .ok s) (h' : runSteps importMethod after s = .ok t') :
    runSteps importMethod (before ++ after) t = .ok t' := by
  rw [runSteps_append, h]
  exact h'

theorem runSteps_cons_ok {importMethod : PackageImportMethod} {step : InstallStep}
    {after : List InstallStep} {t t' : Tree}
    (h : runSteps importMethod (step :: after) t = .ok t') :
    ∃ s, step.exec importMethod t = .ok s ∧ runSteps importMethod after s = .ok t' :=
  Results.bind_ok h

theorem runSteps_cons_of_ok {importMethod : PackageImportMethod} {step : InstallStep}
    {after : List InstallStep} {t s t' : Tree} (h : step.exec importMethod t = .ok s)
    (h' : runSteps importMethod after s = .ok t') :
    runSteps importMethod (step :: after) t = .ok t' := by
  change (step.exec importMethod t >>= fun s => runSteps importMethod after s) = .ok t'
  rw [h]
  exact h'

theorem runSteps_map {α ε : Type} {importMethod : PackageImportMethod} {l : List α}
    {step : α → InstallStep} {f : Tree → α → Except ε Tree} {t t' : Tree}
    (hf : ∀ a t t', f t a = .ok t' → (step a).exec importMethod t = .ok t')
    (h : l.foldlM f t = .ok t') : runSteps importMethod (l.map step) t = .ok t' := by
  induction l generalizing t with
  | nil =>
      cases h
      rfl
  | cons a rest ih =>
      obtain ⟨s, hs, hrest⟩ := Results.bind_ok h
      exact runSteps_cons_of_ok (hf a t s hs) (ih hrest)

omit [BEq V] in
/-- A package that is installed takes its steps. -/
theorem packageSteps_of_run {config : Npmrc} {schedule : Schedule V I} {t t' : Tree}
    {e : DependencyPath V × PackageSnapshot V I}
    (h : InstallPackageBySnapshot.run config schedule t e = .ok t') :
    runSteps config.packageImportMethod (packageSteps config schedule e) t = .ok t' := by
  obtain ⟨request, hrequest, h⟩ := Results.bind_ok h
  obtain ⟨casPaths, hcas, h⟩ := Results.bind_ok h
  obtain ⟨s₁, h₁, h⟩ := Results.bind_ok h
  obtain ⟨s₂, h₂, h₃⟩ := Results.bind_ok h
  have hfiles : schedule.casPaths config e = casPaths := by
    simp only [Schedule.casPaths, Results.mapError_ok hrequest, Results.mapError_ok hcas]
  have himport : (packageImport config (schedule.casPaths config e) e.1).exec
      config.packageImportMethod s₁ = .ok s₂ := by
    rw [packageImport, InstallStep.exec, hfiles]
    exact h₂
  have hlinks : runSteps config.packageImportMethod
      ((linkedDependencies e.2).map (dependencyLink config e.1)) s₂ = .ok t' := by
    unfold linkedDependencies
    split at h₃
    · rename_i dependencies hdeps
      rw [hdeps]
      refine runSteps_map (fun d s s' hs => ?_) (Results.mapError_ok h₃)
      rw [dependencyLink, InstallStep.exec, hs]
      rfl
    · rename_i hdeps
      cases h₃
      rw [hdeps]
      rfl
  exact runSteps_cons_of_ok h₁ (runSteps_cons_of_ok himport hlinks)

theorem runSteps_flatMap {α ε : Type} {importMethod : PackageImportMethod} {l : List α}
    {steps : α → List InstallStep} {f : Tree → α → Except ε Tree} {t t' : Tree}
    (hf : ∀ a t t', f t a = .ok t' → runSteps importMethod (steps a) t = .ok t')
    (h : l.foldlM f t = .ok t') : runSteps importMethod (l.flatMap steps) t = .ok t' := by
  induction l generalizing t with
  | nil =>
      cases h
      rfl
  | cons a rest ih =>
      obtain ⟨s, hs, hrest⟩ := Results.bind_ok h
      exact runSteps_append_of_ok (hf a t s hs) (ih hrest)

/-- A frozen install that finishes has taken the steps of its packages and then
those of the project. -/
theorem Install.steps_of_run {config : Npmrc} {lockfile : Lockfile V I}
    {groups : List DependencyGroup} {schedule : Schedule V I} {t t' : Tree}
    (h : Install.installFromLockfile config lockfile groups schedule t = .ok t') :
    runSteps config.packageImportMethod
      (installSteps config lockfile.packageEntries (lockfile.directDependencies groups) schedule)
      t = .ok t' := by
  obtain ⟨s, hs, h⟩ := Results.bind_ok h
  unfold CreateVirtualStore.run at hs
  unfold SymlinkDirectDependencies.run at h
  simp only at hs h
  unfold Lockfile.packageEntries Lockfile.directDependencies
  split at hs
  · cases hs
  · rename_i packages hpackages
    split at h
    · cases h
    · rename_i project hproject
      have hstore := runSteps_flatMap (fun _ _ _ hrun => packageSteps_of_run hrun) hs
      obtain ⟨s', hs', hlinks⟩ := Results.bind_ok h
      rw [hpackages, hproject]
      exact runSteps_append_of_ok hstore
        (runSteps_cons_of_ok hs' (runSteps_map (fun _ _ _ hd => hd) hlinks))

end Steps

end Npnpm
