import Npnpm.PackageManager.GenerateEntries

/-!
# Installing a generated lockfile

The installer gives up on lockfiles without a `packages` section, with several
importers, or with resolutions that it cannot download. What the generation
returns has one importer and downloadable packages, and a `packages` section
unless there was nothing to resolve.
-/

namespace Npnpm

open FileTree

/-- The error is one of the aborts on an input that the installer does not support. -/
def InstallError.Unsupported : InstallError → Prop
  | .panic _ => True
  | .monorepo => True
  | _ => False

section Installable

variable {V I : Type} [NodeSemver V] [BEq V] [SemverRange V]

/-- No install of the lockfile gives up on it, whatever the order of the packages,
the downloads and the file tree are. -/
def Lockfile.Installable (lockfile : Lockfile V I) (config : Npmrc)
    (groups : List DependencyGroup) : Prop :=
  ∀ (schedule : Schedule V I) (t : Tree) (error : InstallError),
    Install.installFromLockfile config lockfile groups schedule t = .error error →
      ¬ error.Unsupported

omit [BEq V] [SemverRange V] in
/-- A package that can be downloaded is installed, or its install fails otherwise. -/
theorem InstallPackageBySnapshot.run_ne_unsupported {config : Npmrc} {schedule : Schedule V I}
    {e : DependencyPath V × PackageSnapshot V I} (hresolution : e.2.resolution.Downloadable)
    {error : InstallError} (herror : error.Unsupported) (t : Tree) :
    InstallPackageBySnapshot.run config schedule t e ≠ .error error := by
  obtain ⟨request, hrequest⟩ := (InstallPackageBySnapshot.exists_request_iff config e.1 e.2).mpr
    hresolution
  unfold InstallPackageBySnapshot.run CreateVirtualDirBySnapshot.run
  rw [hrequest]
  refine Results.bind_ne (fun h => nomatch h) fun request _ => ?_
  refine Results.bind_ne (Results.mapError_ne ?_) fun casPaths _ => ?_
  · rintro e rfl
    exact herror
  refine Results.bind_ne (Results.mapError_ne ?_) fun s _ => ?_
  · rintro e rfl
    exact herror
  refine Results.bind_ne (Results.mapError_ne ?_) fun s _ => ?_
  · rintro e rfl
    exact herror
  split
  · apply Results.mapError_ne
    rintro e rfl
    exact herror
  · exact fun h => nomatch h

omit [SemverRange V] in
/-- A lockfile of one importer and downloadable packages is installed, or its install
fails otherwise. -/
theorem Lockfile.installable_of_packages {lockfile : Lockfile V I} {packages : Packages V I}
    (hpackages : lockfile.packages = some packages) {project : ProjectSnapshot V}
    (hproject : lockfile.projectSnapshot = .single project)
    (hresolutions : ∀ e ∈ packages.entries, e.2.resolution.Downloadable) (config : Npmrc)
    (groups : List DependencyGroup) : lockfile.Installable config groups := by
  intro schedule t error herror hunsupported
  have hne : Install.installFromLockfile config lockfile groups schedule t ≠ .error error := by
    unfold Install.installFromLockfile InstallFrozenLockfile.run CreateVirtualStore.run
      SymlinkDirectDependencies.run
    simp only [hpackages, hproject]
    refine Results.bind_ne ?_ fun s _ => Results.bind_ne (Results.mapError_ne ?_) fun s' _ => ?_
    · refine Results.foldlM_ne (fun _ => True) trivial (fun e he s _ => ?_)
        fun _ _ _ _ _ _ => trivial
      have hmem := (schedule.perm packages.entries).mem_iff.mp he
      exact InstallPackageBySnapshot.run_ne_unsupported (hresolutions e hmem) hunsupported s
    · rintro e rfl
      exact hunsupported
    · refine Results.foldlM_ne (fun _ => True) trivial (fun d _ s _ => Results.mapError_ne ?_)
        fun _ _ _ _ _ _ => trivial
      rintro e rfl
      exact hunsupported
  exact hne herror

omit [SemverRange V] in
/-- A lockfile without packages is not installed. -/
theorem Lockfile.not_installable_of_none {lockfile : Lockfile V I}
    (hpackages : lockfile.packages = none) (config : Npmrc) (groups : List DependencyGroup) :
    ¬ lockfile.Installable config groups := by
  intro hinstallable
  let schedule : Schedule V I :=
    ⟨id, fun _ => .refl _, fun _ _ => .ok .empty⟩
  refine hinstallable schedule .empty (.panic .missingPackages) ?_ trivial
  unfold Install.installFromLockfile InstallFrozenLockfile.run CreateVirtualStore.run
  simp only [hpackages]
  rfl

variable {builder : LockfileBuilder V I}

omit [NodeSemver V] [BEq V] [SemverRange V] in
theorem LockfileBuilder.downloadable_of_resolution {package : PackageVersion V I}
    {resolution : LockfileResolution I} (h : builder.resolution package = .ok resolution) :
    resolution.Downloadable := by
  unfold LockfileBuilder.resolution at h
  split at h
  · cases h
  · split at h
    · cases h
      exact rfl
    · cases h
      trivial

/-- A selected group that lists something leaves a package in the map. -/
theorem LockfileBuilder.buildRootGroup_isSome [EquivBEq V] {fuel : Nat}
    {manifest : PackageManifest} {enabledGroups : List DependencyGroup} {group : DependencyGroup}
    {packages packages' : SnapshotMap V I} {dependencies : Option (ResolvedDependencyMap V)}
    (h : builder.buildRootGroup fuel manifest enabledGroups group packages =
      .ok (packages', dependencies)) (hgroup : group ∈ enabledGroups)
    (hlisted : manifest.groupDependencies group ≠ []) :
    ∃ path, (packages'.get path).isSome := by
  obtain ⟨hnot, -, -⟩ | ⟨-, resolved, hfold, -⟩ := LockfileBuilder.buildRootGroup_ok h
  · exact absurd hgroup hnot
  · rw [PackageManifest.dependencies_singleton] at hfold
    obtain ⟨d, hd⟩ := List.exists_mem_of_ne_nil _ hlisted
    obtain ⟨before, after, s₁, s₂, -, -, hround, hafter⟩ := Results.foldlM_at hfold hd
    obtain ⟨package, name, specifier, -, -, hspecifier, hbuild, -⟩ :=
      LockfileBuilder.buildRoot_ok hround
    have hpath : dependencyPath package = .ok ⟨none, specifier⟩ := by
      rw [dependencyPath, hspecifier]
      rfl
    refine ⟨_, Results.foldlM_invariant
      (fun s : SnapshotMap V I × ResolvedDependencyMap V => KeepsKeys s₂.1 s.1) hafter
      (fun _ hsome => hsome) (fun d _ s s' hs hround path hsome => ?_) _
      (LockfileBuilder.buildPackageSnapshot_isSome hpath hbuild)⟩
    obtain ⟨_, _, _, -, -, -, hbuild', -⟩ := LockfileBuilder.buildRoot_ok hround
    exact LockfileBuilder.buildPackageSnapshot_keepsKeys hbuild' path (hs path hsome)

/-- A group that is not selected, or lists nothing, leaves the map as it is. -/
theorem LockfileBuilder.buildRootGroup_eq {fuel : Nat} {manifest : PackageManifest}
    {enabledGroups : List DependencyGroup} {group : DependencyGroup}
    {packages packages' : SnapshotMap V I} {dependencies : Option (ResolvedDependencyMap V)}
    (h : builder.buildRootGroup fuel manifest enabledGroups group packages =
      .ok (packages', dependencies))
    (hnone : group ∈ enabledGroups → manifest.groupDependencies group = []) :
    packages' = packages := by
  obtain ⟨-, rfl, -⟩ | ⟨hgroup, resolved, hfold, -⟩ := LockfileBuilder.buildRootGroup_ok h
  · rfl
  · rw [PackageManifest.dependencies_singleton, hnone hgroup] at hfold
    cases hfold
    rfl

/-- The manifest lists something in a selected group other than `peerDependencies`. -/
def GenerateLockfile.ListsSomething (generate : GenerateLockfile V I) : Prop :=
  ∃ group ∈ generate.dependencyGroups, group ≠ .peer ∧
    generate.manifest.groupDependencies group ≠ []

theorem GenerateLockfile.run_packages_ne_none_iff [EquivBEq V] {generate : GenerateLockfile V I}
    {lockfile : Lockfile V I} (h : generate.run = .ok lockfile) :
    lockfile.packages ≠ none ↔ generate.ListsSomething := by
  obtain ⟨packages₁, packages₂, packages, _, _, _, h₁, h₂, h₃, -, hpackages⟩ :=
    GenerateLockfile.runWith_ok h
  constructor
  · intro hsome
    by_contra hnothing
    have hnone : ∀ group, group ≠ .peer → group ∈ generate.dependencyGroups →
        generate.manifest.groupDependencies group = [] := by
      intro group hpeer hgroup
      by_contra hlisted
      exact hnothing ⟨group, hgroup, hpeer, hlisted⟩
    rw [hpackages, LockfileBuilder.buildRootGroup_eq h₃ (hnone .dev (by simp)),
      LockfileBuilder.buildRootGroup_eq h₂ (hnone .optional (by simp)),
      LockfileBuilder.buildRootGroup_eq h₁ (hnone .prod (by simp))] at hsome
    exact hsome rfl
  · rintro ⟨group, hgroup, hpeer, hlisted⟩
    have hkept₂ := (LockfileBuilder.buildRootGroup_builds h₂).kept
    have hkept₃ := (LockfileBuilder.buildRootGroup_builds h₃).kept
    obtain ⟨path, hpath⟩ : ∃ path, (packages.get path).isSome := by
      cases group with
      | prod =>
          obtain ⟨path, hpath⟩ := LockfileBuilder.buildRootGroup_isSome h₁ hgroup hlisted
          exact ⟨path, hkept₃ path (hkept₂ path hpath)⟩
      | optional =>
          obtain ⟨path, hpath⟩ := LockfileBuilder.buildRootGroup_isSome h₂ hgroup hlisted
          exact ⟨path, hkept₃ path hpath⟩
      | dev => exact LockfileBuilder.buildRootGroup_isSome h₃ hgroup hlisted
      | peer => exact absurd rfl hpeer
    rw [hpackages, recorded]
    split
    · rename_i hempty
      rw [KeyedMap.isEmpty, List.isEmpty_iff] at hempty
      simp [KeyedMap.get, hempty] at hpath
    · simp

/-- The installer supports a generated lockfile exactly when there was something to
resolve. -/
theorem GenerateLockfile.installable_iff [EquivBEq V] {generate : GenerateLockfile V I}
    {lockfile : Lockfile V I} (h : generate.run = .ok lockfile) (groups : List DependencyGroup) :
    lockfile.Installable generate.config groups ↔ generate.ListsSomething := by
  rw [← GenerateLockfile.run_packages_ne_none_iff h]
  obtain ⟨project, hproject, -⟩ := GenerateLockfile.run_groups h
  cases hpackages : lockfile.packages with
  | none =>
      apply iff_of_false (Lockfile.not_installable_of_none hpackages _ _)
      simp
  | some packages =>
      refine iff_of_true (Lockfile.installable_of_packages hpackages hproject ?_ _ _) (by simp)
      intro e he
      have hmem : e ∈ lockfile.packageEntries := by
        rw [Lockfile.packageEntries, hpackages]
        exact he
      obtain ⟨p, -, hrecords⟩ := GenerateLockfile.run_entries h hmem
      exact LockfileBuilder.downloadable_of_resolution hrecords.resolution

theorem GenerateLockfile.installable_iff_cycle :
    ∃ lockfile, cycleGenerate.run = .ok lockfile ∧
      (lockfile.Installable cycleGenerate.config cycleGenerate.dependencyGroups ↔
        cycleGenerate.ListsSomething) := by
  have hrun : cycleGenerate.run.toOption.map (fun _ => true) = some true := by decide +kernel
  obtain ⟨lockfile, hlockfile, -⟩ := Results.exists_of_toOption_map hrun
  exact ⟨lockfile, hlockfile, GenerateLockfile.installable_iff hlockfile _⟩

/-- A project without dependencies. -/
def bareGenerate : GenerateLockfile CoreVersion HashIntegrity where
  config := defaultNpmrc
  manifest := manifestOf [(.prod, [])]
  dependencyGroups := [.prod, .dev, .optional]
  registry := .empty

/-- The lockfile of a project without dependencies is not installed. -/
theorem GenerateLockfile.not_installable_bare :
    ∃ lockfile, bareGenerate.run = .ok lockfile ∧
      ¬ lockfile.Installable bareGenerate.config bareGenerate.dependencyGroups := by
  have hrun : bareGenerate.run.toOption.map (fun lockfile => lockfile.packages.isNone) =
      some true := by decide +kernel
  obtain ⟨lockfile, hlockfile, hnone⟩ := Results.exists_of_toOption_map hrun
  have hpackages := Option.isNone_iff_eq_none.mp hnone
  exact ⟨lockfile, hlockfile, Lockfile.not_installable_of_none hpackages _ _⟩

end Installable

end Npnpm
