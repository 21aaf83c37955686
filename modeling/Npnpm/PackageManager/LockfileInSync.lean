import Npnpm.PackageManager.Install

/-!
# A lockfile in sync with the manifest

A lockfile matches the manifest when each group has the same names with the same
specifiers in both. A generated lockfile records the groups it was generated for
as the manifest has them, and no other group.
-/

namespace Npnpm

section Match

variable {V I : Type}

/-- The names and specifiers of a group are the same in both. -/
def ProjectSnapshot.MatchesGroup (project : ProjectSnapshot V) (manifest : PackageManifest)
    (group : DependencyGroup) : Prop :=
  (manifest.groupDependencies group).length = (project.specifiersOf group).entries.length ∧
    ∀ e ∈ manifest.groupDependencies group, (project.specifiersOf group).get e.1 = some e.2

theorem PackageManifest.entries_ofList_dependencies (manifest : PackageManifest)
    (group : DependencyGroup) :
    (KeyedMap.ofList (manifest.dependencies [group])).entries =
      manifest.groupDependencies group := by
  have hgroup : manifest.dependencies [group] = manifest.groupDependencies group := by
    simp [PackageManifest.dependencies]
  rw [hgroup]
  refine KeyedMap.entries_ofList ((List.pairwise_map.mp
    (manifest.groupDependencies_nodup group)).imp fun hne => ?_)
  simpa using hne

theorem lockfileMatchesManifest_iff [BEq V] {manifest : PackageManifest} {lockfile : Lockfile V I}
    {groups : List DependencyGroup} :
    lockfileMatchesManifest manifest lockfile groups = true ↔
      ∃ project, lockfile.projectSnapshot = .single project ∧
        ∀ group ∈ groups, project.MatchesGroup manifest group := by
  unfold lockfileMatchesManifest
  cases lockfile.projectSnapshot with
  | multi snapshot => simp
  | single project =>
      simp only [RootProjectSnapshot.single.injEq, exists_eq_left', List.all_eq_true,
        Bool.and_eq_true, beq_iff_eq, PackageManifest.entries_ofList_dependencies,
        ProjectSnapshot.MatchesGroup]

/-- A group that is recorded as the manifest lists it matches. -/
theorem ProjectSnapshot.matchesGroup_of_entries {project : ProjectSnapshot V}
    {manifest : PackageManifest} {group : DependencyGroup}
    (h : (project.specifiersOf group).entries = manifest.groupDependencies group) :
    project.MatchesGroup manifest group := by
  refine ⟨by rw [h], fun e he => KeyedMap.get_of_mem ?_⟩
  rwa [h]

/-- A group that is not recorded matches exactly when the manifest lists nothing in it. -/
theorem ProjectSnapshot.matchesGroup_of_none {project : ProjectSnapshot V}
    {manifest : PackageManifest} {group : DependencyGroup}
    (h : project.getMapByGroup group = none) :
    project.MatchesGroup manifest group ↔ manifest.groupDependencies group = [] := by
  have hentries : (project.specifiersOf group).entries = [] := by
    rw [ProjectSnapshot.specifiersOf, h]
    rfl
  constructor
  · rintro ⟨hlength, -⟩
    rw [hentries] at hlength
    exact List.length_eq_zero_iff.mp hlength
  · intro hnil
    exact matchesGroup_of_entries (hentries.trans hnil.symm)

end Match

section Recorded

variable {V I : Type} [NodeSemver V] [SemverRange V] [BEq V] {builder : LockfileBuilder V I}

/-- What is recorded for an entry of the manifest. -/
def LockfileBuilder.Records (builder : LockfileBuilder V I) (dependency : Text × Text)
    (e : PkgName × ResolvedDependencySpec V) : Prop :=
  PkgName.parse dependency.1 = .ok e.1 ∧ e.2.specifier = dependency.2 ∧
    ∃ package resolved, builder.registry.resolve dependency.1 dependency.2 = .ok package ∧
      packageSpecifier package = .ok resolved ∧ e.2.version = resolved.suffix

theorem PackageManifest.dependencies_singleton (manifest : PackageManifest)
    (group : DependencyGroup) :
    manifest.dependencies [group] = manifest.groupDependencies group := by
  simp [PackageManifest.dependencies]

omit [BEq V] in
/-- The recorded names have the texts of the manifest. -/
theorem LockfileBuilder.display_of_records {dependencies : List (Text × Text)}
    {pairs : List (PkgName × ResolvedDependencySpec V)}
    (h : List.Forall₂ builder.Records dependencies pairs) :
    pairs.map (fun e => (e.1.display, e.2.specifier)) = dependencies := by
  rw [Results.map_eq_of_forall₂ (f := id) h, List.map_id]
  rintro a b ⟨hname, hspecifier, -⟩
  exact Prod.ext ((PkgName.parse_eq_ok_iff _ _).mp hname).2 hspecifier

/-- The entries of a selected group are those of the manifest, one by one. -/
theorem LockfileBuilder.buildRootGroup_records {fuel : Nat} {manifest : PackageManifest}
    {enabledGroups : List DependencyGroup} {group : DependencyGroup}
    {packages packages' : SnapshotMap V I} {dependencies : Option (ResolvedDependencyMap V)}
    (h : builder.buildRootGroup fuel manifest enabledGroups group packages =
      .ok (packages', dependencies)) (hgroup : group ∈ enabledGroups) :
    ∃ resolved : ResolvedDependencyMap V, dependencies = recorded resolved ∧
      List.Forall₂ builder.Records (manifest.groupDependencies group) resolved.entries := by
  obtain ⟨hnot, -, -⟩ | ⟨-, resolved, hfold, rfl⟩ := LockfileBuilder.buildRootGroup_ok h
  · exact absurd hgroup hnot
  · obtain ⟨pairs, hpairs, hview⟩ := Results.foldlM_view Prod.snd
      (fun m e => KeyedMap.insert m e.1 e.2) builder.Records hfold fun dependency s s' hround => by
        obtain ⟨package, name, specifier, hresolve, hname, hspecifier, -, hrecorded⟩ :=
          LockfileBuilder.buildRoot_ok hround
        exact ⟨(name, ⟨dependency.2, specifier.suffix⟩),
          ⟨Results.mapError_ok hname, rfl, package, specifier, Results.mapError_ok hresolve,
            hspecifier, rfl⟩, hrecorded⟩
    rw [PackageManifest.dependencies_singleton] at hpairs
    have hnames : ((pairs.map fun e => (e.1.display, e.2.specifier)).map Prod.fst).Nodup := by
      rw [LockfileBuilder.display_of_records hpairs]
      exact manifest.groupDependencies_nodup group
    have hdistinct : pairs.Pairwise fun a b => (a.1 == b.1) = false := by
      rw [List.map_map] at hnames
      refine (List.pairwise_map.mp hnames).imp fun hne => ?_
      rw [beq_eq_false_iff_ne]
      rintro heq
      exact hne (by simp [heq])
    have hentries : resolved.entries = pairs :=
      (congrArg KeyedMap.entries hview).trans (KeyedMap.entries_ofList hdistinct)
    exact ⟨resolved, rfl, hentries ▸ hpairs⟩

omit [BEq V] in
/-- A group recorded from the manifest is read back as the manifest has it. -/
theorem ProjectSnapshot.specifiersOf_of_records {project : ProjectSnapshot V}
    {group : DependencyGroup} {dependencies : List (Text × Text)}
    {resolved : ResolvedDependencyMap V} (hgroup : project.getMapByGroup group = recorded resolved)
    (hdistinct : (dependencies.map Prod.fst).Nodup)
    (h : List.Forall₂ builder.Records dependencies resolved.entries) :
    (project.specifiersOf group).entries = dependencies := by
  have hdisplay := LockfileBuilder.display_of_records h
  unfold ProjectSnapshot.specifiersOf
  rw [hgroup]
  unfold recorded
  split
  · rename_i hsome
    split at hsome
    · cases hsome
    · cases hsome
      rw [hdisplay]
      exact KeyedMap.entries_ofList
        ((List.pairwise_map.mp hdistinct).imp fun hne => by simpa using hne)
  · rename_i hnone
    split at hnone
    · rename_i hempty
      rw [← hdisplay, List.isEmpty_iff.mp hempty]
      rfl
    · cases hnone

variable {generate : GenerateLockfile V I} {lockfile : Lockfile V I}

/-- The project of a generated lockfile: what is recorded for the selected groups,
and nothing for the others. -/
theorem GenerateLockfile.run_groups (h : generate.run = .ok lockfile) :
    ∃ project, lockfile.projectSnapshot = .single project ∧ ∀ group, group ≠ .peer →
      (group ∉ generate.dependencyGroups → project.getMapByGroup group = none) ∧
      (group ∈ generate.dependencyGroups → ∃ resolved : ResolvedDependencyMap V,
        project.getMapByGroup group = recorded resolved ∧
        List.Forall₂ generate.builder.Records (generate.manifest.groupDependencies group)
          resolved.entries) := by
  obtain ⟨_, _, _, dependencies, optionalDependencies, devDependencies, h₁, h₂, h₃, hproject, -⟩ :=
    GenerateLockfile.runWith_ok h
  have hnone : ∀ {group packages packages' dependencies},
      generate.builder.buildRootGroup (generate.registry.versions.length + 1) generate.manifest
        generate.dependencyGroups group packages = .ok (packages', dependencies) →
      group ∉ generate.dependencyGroups → dependencies = none := by
    intro group packages packages' dependencies hrun hnot
    obtain ⟨-, -, hnone⟩ | ⟨hgroup, -⟩ := LockfileBuilder.buildRootGroup_ok hrun
    · exact hnone
    · exact absurd hgroup hnot
  refine ⟨_, hproject, fun group hpeer => ?_⟩
  cases group with
  | prod => exact ⟨hnone h₁, LockfileBuilder.buildRootGroup_records h₁⟩
  | optional => exact ⟨hnone h₂, LockfileBuilder.buildRootGroup_records h₂⟩
  | dev => exact ⟨hnone h₃, LockfileBuilder.buildRootGroup_records h₃⟩
  | peer => exact absurd rfl hpeer

/-- A generated lockfile matches the manifest for the groups it was generated for. -/
theorem GenerateLockfile.run_matches (h : generate.run = .ok lockfile)
    (hpeer : DependencyGroup.peer ∉ generate.dependencyGroups) :
    lockfileMatchesManifest generate.manifest lockfile generate.dependencyGroups = true := by
  obtain ⟨project, hproject, hgroups⟩ := GenerateLockfile.run_groups h
  refine lockfileMatchesManifest_iff.mpr ⟨project, hproject, fun group hgroup => ?_⟩
  have hne : group ≠ .peer := fun heq => hpeer (heq ▸ hgroup)
  obtain ⟨resolved, hrecorded, hentries⟩ := (hgroups group hne).2 hgroup
  exact ProjectSnapshot.matchesGroup_of_entries (ProjectSnapshot.specifiersOf_of_records hrecorded
    (generate.manifest.groupDependencies_nodup group) hentries)

end Recorded

section Selections

variable {V I : Type} [BEq V]

/-- The lockfile matches the manifest for all groups, and for every selection of
groups that the flags can make. -/
def InSyncForAll (manifest : PackageManifest) (lockfile : Lockfile V I) : Prop :=
  lockfileMatchesManifest manifest lockfile [.prod, .dev, .optional] = true ∧
    ∀ options : InstallDependencyOptions,
      lockfileMatchesManifest manifest lockfile options.dependencyGroups = true

theorem InstallDependencyOptions.ne_peer {options : InstallDependencyOptions}
    {group : DependencyGroup} (h : group ∈ options.dependencyGroups) : group ≠ .peer := by
  rintro rfl
  obtain ⟨prod, dev, noOptional⟩ := options
  revert h
  cases prod <;> cases dev <;> cases noOptional <;> decide

variable [NodeSemver V] [SemverRange V]

/-- The lockfile that an install writes is in sync for all groups exactly when the
manifest lists nothing in the groups that were not selected. -/
theorem Install.inSyncForAll_iff {install : Install V I} {options : InstallDependencyOptions}
    (hgroups : install.dependencyGroups = options.dependencyGroups) {lockfile : Lockfile V I}
    (hwrites : install.Writes lockfile) :
    InSyncForAll install.manifest lockfile ↔
      ∀ group ∈ [DependencyGroup.prod, .dev, .optional], group ∉ options.dependencyGroups →
        install.manifest.groupDependencies group = [] := by
  obtain ⟨project, hproject, hrecorded⟩ := GenerateLockfile.run_groups hwrites.2
  have hsame : install.generateLockfile.dependencyGroups = options.dependencyGroups := hgroups
  rw [hsame] at hrecorded
  have hpeer : ∀ group ∈ [DependencyGroup.prod, .dev, .optional], group ≠ .peer := by
    rintro group hgroup rfl
    revert hgroup
    decide
  have hselected : ∀ group ∈ options.dependencyGroups,
      project.MatchesGroup install.manifest group := by
    intro group hgroup
    obtain ⟨resolved, hmap, hentries⟩ :=
      (hrecorded group (InstallDependencyOptions.ne_peer hgroup)).2 hgroup
    exact ProjectSnapshot.matchesGroup_of_entries (ProjectSnapshot.specifiersOf_of_records hmap
      (install.manifest.groupDependencies_nodup group) hentries)
  have hother : ∀ group, group ≠ .peer → group ∉ options.dependencyGroups →
      (project.MatchesGroup install.manifest group ↔
        install.manifest.groupDependencies group = []) := fun group hne hgroup =>
    ProjectSnapshot.matchesGroup_of_none ((hrecorded group hne).1 hgroup)
  constructor
  · rintro ⟨hall, -⟩ group hgroup hnot
    obtain ⟨project', hproject', hmatches⟩ := lockfileMatchesManifest_iff.mp hall
    rw [hproject] at hproject'
    cases hproject'
    exact (hother group (hpeer group hgroup) hnot).mp (hmatches group hgroup)
  · intro hempty
    have hmatch : ∀ group, group ≠ .peer → project.MatchesGroup install.manifest group := by
      intro group hne
      by_cases hgroup : group ∈ options.dependencyGroups
      · exact hselected group hgroup
      · refine (hother group hne hgroup).mpr (hempty group ?_ hgroup)
        cases group with
        | peer => exact absurd rfl hne
        | _ => decide
    exact ⟨lockfileMatchesManifest_iff.mpr ⟨project, hproject, fun group hgroup =>
        hmatch group (hpeer group hgroup)⟩,
      fun options => lockfileMatchesManifest_iff.mpr ⟨project, hproject, fun group hgroup =>
        hmatch group (InstallDependencyOptions.ne_peer hgroup)⟩⟩

end Selections

section Samples

theorem GenerateLockfile.run_matches_cycle :
    ∃ lockfile, cycleGenerate.run = .ok lockfile ∧
      lockfileMatchesManifest cycleGenerate.manifest lockfile cycleGenerate.dependencyGroups =
        true := by
  have hrun : cycleGenerate.run.toOption.map (fun _ => true) = some true := by decide +kernel
  obtain ⟨lockfile, hlockfile, -⟩ := Results.exists_of_toOption_map hrun
  exact ⟨lockfile, hlockfile, GenerateLockfile.run_matches hlockfile (by decide)⟩

/-- An install with lockfiles enabled of a project with the regular dependency `a`
and the development dependency `b`. -/
def devInstall (options : InstallDependencyOptions) : Install CoreVersion HashIntegrity where
  config := { defaultNpmrc with lockfile := true }
  manifest := manifestOf [(.prod, [("a".toList, "1.0.0".toList)]),
    (.dev, [("b".toList, "1.0.0".toList)])]
  lockfile := none
  dependencyGroups := options.dependencyGroups
  frozenLockfile := false
  offline := false
  preferOffline := false
  lockfileOnly := false
  resolutionOnly := false
  registry := releases [("a".toList, [releasedVersion "a".toList firstVersion [] []]),
    ("b".toList, [releasedVersion "b".toList firstVersion [] []])]
  resolvedPackages := []

theorem devInstall_writes {options : InstallDependencyOptions}
    (h : ((devInstall options).generateLockfile.run.toOption.map fun _ => true) = some true) :
    ∃ lockfile, (devInstall options).Writes lockfile := by
  obtain ⟨lockfile, hlockfile, -⟩ := Results.exists_of_toOption_map h
  exact ⟨lockfile, ⟨.online, Or.inr rfl⟩, hlockfile⟩

theorem Install.inSyncForAll_iff_noOptional :
    ∃ lockfile, (devInstall ⟨false, false, true⟩).Writes lockfile ∧
      (InSyncForAll (devInstall ⟨false, false, true⟩).manifest lockfile ↔
        ∀ group ∈ [DependencyGroup.prod, .dev, .optional],
          group ∉ (InstallDependencyOptions.mk false false true).dependencyGroups →
            (devInstall ⟨false, false, true⟩).manifest.groupDependencies group = []) := by
  obtain ⟨lockfile, hwrites⟩ := @devInstall_writes ⟨false, false, true⟩ (by decide +kernel)
  exact ⟨lockfile, hwrites, Install.inSyncForAll_iff rfl hwrites⟩

/-- An install with `--prod` writes a lockfile that a frozen install of the same
manifest without flags rejects. -/
theorem Install.not_inSyncForAll_prod :
    ∃ lockfile, (devInstall ⟨true, false, false⟩).Writes lockfile ∧
      lockfileMatchesManifest (devInstall ⟨true, false, false⟩).manifest lockfile
        (InstallDependencyOptions.mk false false false).dependencyGroups = false ∧
      ¬ InSyncForAll (devInstall ⟨true, false, false⟩).manifest lockfile := by
  have hrun : (devInstall ⟨true, false, false⟩).generateLockfile.run.toOption.map
      (fun lockfile => lockfileMatchesManifest (devInstall ⟨true, false, false⟩).manifest lockfile
        (InstallDependencyOptions.mk false false false).dependencyGroups) = some false := by
    decide +kernel
  obtain ⟨lockfile, hlockfile, hfalse⟩ := Results.exists_of_toOption_map hrun
  refine ⟨lockfile, ⟨⟨.online, Or.inr rfl⟩, hlockfile⟩, hfalse, fun hsync => ?_⟩
  rw [hsync.2] at hfalse
  cases hfalse

end Samples

end Npnpm
