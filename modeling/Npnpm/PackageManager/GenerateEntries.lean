import Npnpm.PackageManager.LockfileInSync

/-!
# The entries of a generated lockfile

Every entry of a generated lockfile is the record of one version of the registry:
its path, its resolution, and what its dependencies resolve to.
-/

namespace Npnpm

section Records

variable {V I : Type} [NodeSemver V] [SemverRange V] {builder : LockfileBuilder V I}

/-- What is recorded for a dependency of a version. -/
def LockfileBuilder.RecordsDependency (builder : LockfileBuilder V I) (dependency : Text × Text)
    (d : PkgName × PackageSnapshotDependency V) : Prop :=
  PkgName.parse dependency.1 = .ok d.1 ∧
    ∃ child specifier, builder.registry.resolve dependency.1 dependency.2 = .ok child ∧
      packageSpecifier child = .ok specifier ∧ d.2 = .pkgVerPeer specifier.suffix

/-- The entry is the record of the version. -/
structure LockfileBuilder.RecordsVersion (builder : LockfileBuilder V I) (p : PackageVersion V I)
    (e : DependencyPath V × PackageSnapshot V I) : Prop where
  path : dependencyPath p = .ok e.1
  resolution : builder.resolution p = .ok e.2.resolution
  dependencies : ∃ pairs, List.Forall₂ builder.RecordsDependency
      (p.dependenciesWith builder.config.autoInstallPeers) pairs ∧
    e.2.dependencies = recorded (KeyedMap.ofList pairs)

/-- The entries have one path, and record the same up to their flags. -/
structure SameRecord (e e' : DependencyPath V × PackageSnapshot V I) : Prop where
  path : e'.1 = e.1
  resolution : e'.2.resolution = e.2.resolution
  dependencies : e'.2.dependencies = e.2.dependencies

omit [NodeSemver V] [SemverRange V] in
theorem SameRecord.refl (e : DependencyPath V × PackageSnapshot V I) : SameRecord e e :=
  ⟨rfl, rfl, rfl⟩

theorem LockfileBuilder.RecordsVersion.of_same {p : PackageVersion V I}
    {e e' : DependencyPath V × PackageSnapshot V I} (h : builder.RecordsVersion p e)
    (hsame : SameRecord e e') : builder.RecordsVersion p e' := by
  obtain ⟨hpath, hresolution, hdependencies⟩ := hsame
  refine ⟨hpath ▸ h.path, hresolution ▸ h.resolution, ?_⟩
  rw [hdependencies]
  exact h.dependencies

variable [BEq V]

/-- The entries are those there were, up to their flags, and records of versions
under new keys. -/
structure Builds (builder : LockfileBuilder V I) (packages packages' : SnapshotMap V I) :
    Prop where
  kept : KeepsKeys packages packages'
  entries : ∀ e ∈ packages'.entries, (∃ e₀ ∈ packages.entries, SameRecord e₀ e) ∨
    packages.get e.1 = none ∧ ∃ p ∈ builder.registry.versions, builder.RecordsVersion p e

theorem Builds.refl (packages : SnapshotMap V I) : Builds builder packages packages :=
  ⟨fun _ hpath => hpath, fun e he => Or.inl ⟨e, he, .refl e⟩⟩

theorem Builds.trans {packages packages₁ packages₂ : SnapshotMap V I}
    (h : Builds builder packages packages₁) (h' : Builds builder packages₁ packages₂) :
    Builds builder packages packages₂ := by
  refine ⟨fun path hpath => h'.kept path (h.kept path hpath), fun e he => ?_⟩
  rcases h'.entries e he with ⟨e₁, he₁, hsame⟩ | ⟨hnone, hrecords⟩
  · rcases h.entries e₁ he₁ with ⟨e₀, he₀, hsame₀⟩ | ⟨hnone, p, hp, hrecords⟩
    · exact Or.inl ⟨e₀, he₀, hsame.path.trans hsame₀.path, hsame.resolution.trans hsame₀.resolution,
        hsame.dependencies.trans hsame₀.dependencies⟩
    · exact Or.inr ⟨hsame.path ▸ hnone, p, hp, hrecords.of_same hsame⟩
  · refine Or.inr ⟨?_, hrecords⟩
    cases hget : packages.get e.1 with
    | none => rfl
    | some snapshot =>
        have hsome := h.kept e.1 (by rw [hget]; rfl)
        rw [hnone] at hsome
        cases hsome

variable [EquivBEq V]

theorem builds_merge (packages : SnapshotMap V I) (key : DependencyPath V) (dev optional : Bool) :
    Builds builder packages (packages.modify key (mergePackageFlags dev optional)) := by
  refine ⟨keepsKeys_modify packages key _, fun e he => Or.inl ?_⟩
  obtain ⟨e₀, he₀, rfl⟩ := List.mem_map.mp he
  refine ⟨e₀, he₀, ?_⟩
  split
  · exact ⟨rfl, rfl, rfl⟩
  · exact .refl e₀

/-- The placeholder of a version, filled in after its dependencies are built, is the
record of the version. -/
theorem builds_complete {packages below : SnapshotMap V I} {package : PackageVersion V I}
    {key : DependencyPath V} {resolution : LockfileResolution I} {dev optional : Bool}
    {pairs : List (PkgName × PackageSnapshotDependency V)}
    (hknown : package ∈ builder.registry.versions) (hkey : dependencyPath package = .ok key)
    (hnone : packages.get key = none) (hresolution : builder.resolution package = .ok resolution)
    (hpairs : List.Forall₂ builder.RecordsDependency
      (package.dependenciesWith builder.config.autoInstallPeers) pairs)
    (hbelow : Builds builder (packages.insert key (placeholder resolution dev optional)) below) :
    Builds builder packages
      (below.modify key (completeSnapshot (.ofList pairs) dev optional)) := by
  have hkeeps := keepsKeys_insert packages key (placeholder resolution dev optional)
  refine ⟨fun path hpath => keepsKeys_modify below key _ path (hbelow.kept path
    (hkeeps path hpath)), fun e he => ?_⟩
  obtain ⟨e₁, he₁, rfl⟩ := List.mem_map.mp he
  -- a key of another entry is not `==` to the key of the placeholder
  have hother : packages.get e₁.1 ≠ none ∨ (packages.insert key
      (placeholder resolution dev optional)).get e₁.1 = none → (e₁.1 == key) = false := by
    rintro (hsome | hfree)
    · refine Bool.eq_false_iff.mpr fun heq => hsome ?_
      rw [KeyedMap.get_congr packages heq, hnone]
    · refine Bool.eq_false_iff.mpr fun heq => ?_
      rw [KeyedMap.get_insert, if_pos (BEq.symm heq)] at hfree
      cases hfree
  rcases hbelow.entries e₁ he₁ with ⟨e₀, he₀, hsame⟩ | ⟨hfree, p, hp, hrecords⟩
  · rw [KeyedMap.entries_insert_of_none hnone, List.mem_append, List.mem_singleton] at he₀
    rcases he₀ with hold | rfl
    · have hsome : packages.get e₁.1 ≠ none := by
        rw [hsame.path, KeyedMap.get_of_mem (v := e₀.2) hold]
        simp
      rw [if_neg (by simp [hother (Or.inl hsome)])]
      exact Or.inl ⟨e₀, hold, hsame⟩
    · have hpath : e₁.1 = key := hsame.path
      rw [if_pos (by simp [hpath])]
      refine Or.inr ⟨?_, package, hknown, ?_, ?_, pairs, hpairs, rfl⟩
      · rw [hpath, hnone]
      · rw [hkey, hpath]
      · rw [hresolution]
        exact congrArg Except.ok hsame.resolution.symm
  · rw [if_neg (by simp [hother (Or.inr hfree)])]
    refine Or.inr ⟨?_, p, hp, hrecords⟩
    cases hget : packages.get e₁.1 with
    | none => rfl
    | some snapshot =>
        have hsome := hkeeps e₁.1 (by rw [hget]; rfl)
        rw [hfree] at hsome
        cases hsome

/-- Building the snapshot of a version adds records of versions. -/
theorem LockfileBuilder.buildPackageSnapshot_builds {fuel : Nat}
    {packages packages' : SnapshotMap V I} {package : PackageVersion V I} {dev optional : Bool}
    (hknown : package ∈ builder.registry.versions)
    (h : builder.buildPackageSnapshot fuel packages package dev optional = .ok packages') :
    Builds builder packages packages' := by
  induction fuel generalizing packages packages' package dev optional with
  | zero => cases h
  | succ fuel ih =>
      obtain ⟨key, hkey, ⟨-, rfl⟩ | ⟨hnone, resolution, below, dependencies, hresolution, hbelow,
        rfl⟩⟩ := LockfileBuilder.buildPackageSnapshot_ok h
      · exact builds_merge packages key dev optional
      · have hbuilds : Builds builder (packages.insert key (placeholder resolution dev optional))
            below :=
          Results.foldlM_invariant
            (fun s : SnapshotMap V I × KeyedMap PkgName (PackageSnapshotDependency V) =>
              Builds builder (packages.insert key (placeholder resolution dev optional)) s.1)
            hbelow (.refl _) fun d _ s s' hs hround => by
              obtain ⟨child, name, specifier, hchild, -, -, hbuild, -⟩ :=
                LockfileBuilder.buildDependency_ok hround
              exact hs.trans (ih (LockfileBuilder.resolvePackageVersion_mem hchild) hbuild)
        obtain ⟨pairs, hpairs, hview⟩ := Results.foldlM_view Prod.snd
          (fun m e => KeyedMap.insert m e.1 e.2) builder.RecordsDependency hbelow
          fun d s s' hround => by
            obtain ⟨child, name, specifier, hchild, hname, hspecifier, -, hrecorded⟩ :=
              LockfileBuilder.buildDependency_ok hround
            exact ⟨(name, .pkgVerPeer specifier.suffix),
              ⟨Results.mapError_ok hname, child, specifier, Results.mapError_ok hchild, hspecifier,
                rfl⟩, hrecorded⟩
        have hdependencies : dependencies = .ofList pairs := hview
        rw [hdependencies]
        exact builds_complete hknown hkey hnone hresolution hpairs hbuilds

theorem LockfileBuilder.buildRootGroup_builds {fuel : Nat} {manifest : PackageManifest}
    {enabledGroups : List DependencyGroup} {group : DependencyGroup}
    {packages packages' : SnapshotMap V I} {dependencies : Option (ResolvedDependencyMap V)}
    (h : builder.buildRootGroup fuel manifest enabledGroups group packages =
      .ok (packages', dependencies)) : Builds builder packages packages' := by
  obtain ⟨-, rfl, -⟩ | ⟨-, resolved, hfold, -⟩ := LockfileBuilder.buildRootGroup_ok h
  · exact .refl packages'
  · refine Results.foldlM_invariant (fun s : SnapshotMap V I × ResolvedDependencyMap V =>
      Builds builder packages s.1) hfold (.refl packages) fun d _ s s' hs hround => ?_
    obtain ⟨package, -, -, hpackage, -, -, hbuild, -⟩ := LockfileBuilder.buildRoot_ok hround
    exact hs.trans (LockfileBuilder.buildPackageSnapshot_builds
      (LockfileBuilder.resolvePackageVersion_mem hpackage) hbuild)

/-- Every entry of a generated lockfile is the record of a version. -/
theorem GenerateLockfile.run_entries {generate : GenerateLockfile V I} {lockfile : Lockfile V I}
    (h : generate.run = .ok lockfile) {e : DependencyPath V × PackageSnapshot V I}
    (he : e ∈ lockfile.packageEntries) :
    ∃ p ∈ generate.registry.versions, generate.builder.RecordsVersion p e := by
  obtain ⟨_, _, packages, _, _, _, h₁, h₂, h₃, -, hpackages⟩ := GenerateLockfile.runWith_ok h
  have hbuilds := ((LockfileBuilder.buildRootGroup_builds h₁).trans
    (LockfileBuilder.buildRootGroup_builds h₂)).trans (LockfileBuilder.buildRootGroup_builds h₃)
  have hmem : e ∈ packages.entries := by
    unfold Lockfile.packageEntries at he
    split at he
    · rename_i packages' hrecorded
      rw [hpackages] at hrecorded
      rwa [← of_recorded_eq_some hrecorded]
    · cases he
  rcases hbuilds.entries e hmem with ⟨e₀, he₀, -⟩ | ⟨-, hrecords⟩
  · cases he₀
  · exact hrecords

end Records

end Npnpm
