import Npnpm.PackageManager.GenerateGraph

/-!
# Generating a lockfile ends

A snapshot is built below the placeholders of the packages above it, and each of
these has a key of its own. The recursion is therefore never deeper than there
are versions in the registry, also where dependencies form cycles.
-/

namespace Npnpm

section Errors

variable {V I : Type}

/-- An error about the name, the version or the integrity of one package. -/
def GenerateStop.AboutPackage : GenerateStop → Prop
  | .registry _ => False
  | .outOfFuel => False
  | .invalidName _ => True
  | .invalidVersion _ => True
  | .missingIntegrity _ => True

variable {stop : GenerateStop} (hstop : ¬ stop.AboutPackage)
include hstop

theorem parseName_ne (name : Text) : parseName name ≠ .error stop := by
  apply Results.mapError_ne
  rintro _ rfl
  exact hstop trivial

theorem LockfileBuilder.resolution_ne (builder : LockfileBuilder V I)
    (package : PackageVersion V I) : builder.resolution package ≠ .error stop := by
  unfold LockfileBuilder.resolution
  split
  · intro h
    cases h
    exact hstop trivial
  · split <;> simp

variable [NodeSemver V]

theorem packageSpecifier_ne (package : PackageVersion V I) :
    packageSpecifier package ≠ .error stop := by
  apply Results.bind_ne (parseName_ne hstop _)
  intro _ _
  refine Results.bind_ne (Results.mapError_ne ?_) fun _ _ => nofun
  rintro _ rfl
  exact hstop trivial

theorem dependencyPath_ne (package : PackageVersion V I) :
    dependencyPath package ≠ .error stop :=
  Results.bind_ne (packageSpecifier_ne hstop package) fun _ _ => nofun

variable [BEq V] [SemverRange V] {builder : LockfileBuilder V I}

/-- A build avoids an error that the versions of its dependencies and the builds below it
avoid. The map is followed by an invariant of the builds. -/
theorem LockfileBuilder.buildPackageSnapshot_succ_ne {fuel : Nat} {packages : SnapshotMap V I}
    {package : PackageVersion V I} {dev optional : Bool} (inv : SnapshotMap V I → Prop)
    (hstart : ∀ key, dependencyPath package = .ok key → packages.get key = none →
      ∀ resolution, inv (packages.insert key (placeholder resolution dev optional)))
    (hbuild : ∀ below below' child dev optional, inv below →
      builder.buildPackageSnapshot fuel below child dev optional = .ok below' → inv below')
    (hresolve : ∀ d ∈ package.dependenciesWith builder.config.autoInstallPeers,
      builder.resolvePackageVersion d.1 d.2 ≠ .error stop)
    (hchild : ∀ d ∈ package.dependenciesWith builder.config.autoInstallPeers, ∀ child,
      builder.resolvePackageVersion d.1 d.2 = .ok child → ∀ below, inv below →
        ∀ dev optional, builder.buildPackageSnapshot fuel below child dev optional ≠
          .error stop) :
    builder.buildPackageSnapshot (fuel + 1) packages package dev optional ≠ .error stop := by
  refine Results.bind_ne (dependencyPath_ne hstop package) fun key hkey => ?_
  split
  · exact nofun
  · rename_i hnone
    refine Results.bind_ne (builder.resolution_ne hstop package) fun resolution _ => ?_
    refine Results.bind_ne ?_ fun _ _ => nofun
    refine Results.foldlM_ne (fun s => inv s.1)
      (hstart key hkey (by simpa using hnone) resolution) ?_ ?_
    · intro d hd s hs
      refine Results.bind_ne (hresolve d hd) fun child hresolved => ?_
      refine Results.bind_ne (parseName_ne hstop _) fun _ _ => ?_
      refine Results.bind_ne (packageSpecifier_ne hstop _) fun _ _ => ?_
      exact Results.bind_ne (hchild d hd child hresolved _ hs _ _) fun _ _ => nofun
    · intro d _ s s' hs hround
      obtain ⟨_, _, _, -, -, -, hbuilt, -⟩ := LockfileBuilder.buildDependency_ok hround
      exact hbuild _ _ _ _ _ hs hbuilt

/-- A group avoids an error that the versions of its entries and the builds avoid. -/
theorem LockfileBuilder.buildRootGroup_ne {fuel : Nat} {manifest : PackageManifest}
    {enabledGroups : List DependencyGroup} {group : DependencyGroup} {packages : SnapshotMap V I}
    (hresolve : group ∈ enabledGroups → ∀ d ∈ manifest.dependencies [group],
      builder.resolvePackageVersion d.1 d.2 ≠ .error stop)
    (hbuild : group ∈ enabledGroups → ∀ d ∈ manifest.dependencies [group], ∀ package,
      builder.resolvePackageVersion d.1 d.2 = .ok package → ∀ below dev optional,
        builder.buildPackageSnapshot fuel below package dev optional ≠ .error stop) :
    builder.buildRootGroup fuel manifest enabledGroups group packages ≠ .error stop := by
  unfold LockfileBuilder.buildRootGroup
  split
  · rename_i hgroup
    refine Results.bind_ne ?_ fun _ _ => nofun
    refine Results.foldlM_ne (fun _ => True) trivial (fun d hd s _ => ?_) fun _ _ _ _ _ _ => trivial
    refine Results.bind_ne (hresolve hgroup d hd) fun package hpackage => ?_
    refine Results.bind_ne (packageSpecifier_ne hstop _) fun _ _ => ?_
    refine Results.bind_ne (parseName_ne hstop _) fun _ _ => ?_
    exact Results.bind_ne (hbuild hgroup d hd package hpackage _ _ _) fun _ _ => nofun
  · exact nofun

end Errors

section Growth

variable {V I : Type} [BEq V]

/-- No key is lost. -/
def KeepsKeys (packages packages' : SnapshotMap V I) : Prop :=
  ∀ path, (packages.get path).isSome → (packages'.get path).isSome

theorem keepsKeys_modify [EquivBEq V] (packages : SnapshotMap V I) (key : DependencyPath V)
    (f : PackageSnapshot V I → PackageSnapshot V I) :
    KeepsKeys packages (packages.modify key f) := by
  intro path h
  rw [KeyedMap.get_modify]
  split <;> simpa using h

theorem keepsKeys_insert [EquivBEq V] (packages : SnapshotMap V I) (key : DependencyPath V)
    (snapshot : PackageSnapshot V I) : KeepsKeys packages (packages.insert key snapshot) := by
  intro path h
  rw [KeyedMap.get_insert]
  split
  · rfl
  · exact h

variable [NodeSemver V]

/-- The version has a key that is not in the map. -/
def isMissing (packages : SnapshotMap V I) (package : PackageVersion V I) : Bool :=
  match dependencyPath package with
  | .ok key => (packages.get key).isNone
  | .error _ => false

theorem isMissing_iff {packages : SnapshotMap V I} {package : PackageVersion V I}
    {key : DependencyPath V} (hkey : dependencyPath package = .ok key) :
    isMissing packages package = true ↔ packages.get key = none := by
  simp [isMissing, hkey]

theorem KeepsKeys.isMissing {packages packages' : SnapshotMap V I}
    (h : KeepsKeys packages packages') {package : PackageVersion V I}
    (hmissing : isMissing packages' package = true) : isMissing packages package = true := by
  cases hkey : dependencyPath package with
  | error e => simp [Npnpm.isMissing, hkey] at hmissing
  | ok key =>
      rw [isMissing_iff hkey] at hmissing ⊢
      by_contra hsome
      have := h key (Option.isSome_iff_ne_none.mpr hsome)
      simp [hmissing] at this

/-- The number of versions whose keys are missing. -/
def Registry.missing (registry : Registry V I) (packages : SnapshotMap V I) : Nat :=
  registry.versions.countP (isMissing packages)

theorem KeepsKeys.missing_le {registry : Registry V I} {packages packages' : SnapshotMap V I}
    (h : KeepsKeys packages packages') : registry.missing packages' ≤ registry.missing packages :=
  List.countP_mono_left fun _ _ => h.isMissing

/-- A new key leaves fewer missing ones. -/
theorem Registry.missing_lt [EquivBEq V] {registry : Registry V I} {packages : SnapshotMap V I}
    {package : PackageVersion V I} {key : DependencyPath V}
    (hkey : dependencyPath package = .ok key) (hnone : packages.get key = none)
    (hknown : package ∈ registry.versions) (snapshot : PackageSnapshot V I) :
    registry.missing (packages.insert key snapshot) < registry.missing packages := by
  have hsub : ∀ p, isMissing (packages.insert key snapshot) p = true →
      isMissing packages p = true := fun _ => (keepsKeys_insert packages key snapshot).isMissing
  have hhere : isMissing packages package = true := (isMissing_iff hkey).mpr hnone
  have hgone : isMissing (packages.insert key snapshot) package = false := by
    simp [isMissing, hkey, KeyedMap.get_insert]
  exact DepthFirst.countP_lt_countP hsub hknown hhere hgone

end Growth

section Fuel

variable {V I : Type} [NodeSemver V] [BEq V] [SemverRange V] {builder : LockfileBuilder V I}

/-- The loop over dependencies loses no key where a build loses none. -/
theorem LockfileBuilder.buildDependencies_keepsKeys {build : BuildSnapshot V I}
    (hbuild : ∀ {packages packages' package dev optional},
      build packages package dev optional = .ok packages' → KeepsKeys packages packages')
    {package : PackageVersion V I} {dev optional : Bool} {entries : List (Text × Text)}
    {packages below : SnapshotMap V I}
    {dependencies dependencies' : KeyedMap PkgName (PackageSnapshotDependency V)}
    (h : entries.foldlM (builder.buildDependency build package dev optional)
      (packages, dependencies) = .ok (below, dependencies')) : KeepsKeys packages below :=
  Results.foldlM_invariant (fun s => KeepsKeys packages s.1) h (fun _ hpath => hpath)
    fun d _ s s' hs hround => by
      obtain ⟨_, _, _, -, -, -, hchild, -⟩ := LockfileBuilder.buildDependency_ok hround
      exact fun path hpath => hbuild hchild path (hs path hpath)

theorem LockfileBuilder.buildPackageSnapshot_keepsKeys [EquivBEq V] {fuel : Nat}
    {packages packages' : SnapshotMap V I} {package : PackageVersion V I} {dev optional : Bool}
    (h : builder.buildPackageSnapshot fuel packages package dev optional = .ok packages') :
    KeepsKeys packages packages' := by
  induction fuel generalizing packages packages' package dev optional with
  | zero => cases h
  | succ fuel ih =>
      obtain ⟨key, -, ⟨-, rfl⟩ | ⟨-, resolution, below, dependencies, -, hbelow, rfl⟩⟩ :=
        LockfileBuilder.buildPackageSnapshot_ok h
      · exact keepsKeys_modify packages key _
      · intro path hpath
        exact keepsKeys_modify below key _ path
          (LockfileBuilder.buildDependencies_keepsKeys ih hbelow path
            (keepsKeys_insert packages key _ path hpath))

omit [BEq V] in
theorem LockfileBuilder.resolvePackageVersion_ne (name versionRange : Text) :
    builder.resolvePackageVersion name versionRange ≠ .error .outOfFuel :=
  Results.mapError_ne nofun

/-- Fuel for every missing version is enough. -/
theorem LockfileBuilder.buildPackageSnapshot_ne [EquivBEq V] {fuel : Nat}
    {packages : SnapshotMap V I} {package : PackageVersion V I} {dev optional : Bool}
    (hfuel : builder.registry.missing packages < fuel)
    (hknown : package ∈ builder.registry.versions) :
    builder.buildPackageSnapshot fuel packages package dev optional ≠ .error .outOfFuel := by
  induction fuel generalizing packages package dev optional with
  | zero => exact absurd hfuel (Nat.not_lt_zero _)
  | succ fuel ih =>
      apply LockfileBuilder.buildPackageSnapshot_succ_ne id
        (fun below => builder.registry.missing below < fuel)
      · intro key hkey hnone resolution
        exact Nat.lt_of_lt_of_le (Registry.missing_lt hkey hnone hknown _)
          (Nat.le_of_lt_succ hfuel)
      · intro below below' child dev optional hbelow hbuilt
        exact Nat.lt_of_le_of_lt
          (LockfileBuilder.buildPackageSnapshot_keepsKeys hbuilt).missing_le hbelow
      · exact fun d _ => resolvePackageVersion_ne d.1 d.2
      · exact fun d _ child hresolved below hbelow _ _ =>
          ih hbelow (LockfileBuilder.resolvePackageVersion_mem hresolved)

theorem LockfileBuilder.buildRootGroup_ne_outOfFuel [EquivBEq V] {fuel : Nat}
    {manifest : PackageManifest} {enabledGroups : List DependencyGroup} {group : DependencyGroup}
    {packages : SnapshotMap V I} (hfuel : builder.registry.versions.length < fuel) :
    builder.buildRootGroup fuel manifest enabledGroups group packages ≠ .error .outOfFuel := by
  have henough : ∀ packages : SnapshotMap V I, builder.registry.missing packages < fuel :=
    fun packages => Nat.lt_of_le_of_lt List.countP_le_length hfuel
  apply LockfileBuilder.buildRootGroup_ne id
  · exact fun _ d _ => resolvePackageVersion_ne d.1 d.2
  · exact fun _ d _ package hpackage below _ _ =>
      buildPackageSnapshot_ne (henough below) (resolvePackageVersion_mem hpackage)

theorem GenerateLockfile.runWith_ne [EquivBEq V] (generate : GenerateLockfile V I) {fuel : Nat}
    (hfuel : generate.registry.versions.length < fuel) :
    generate.runWith fuel ≠ .error .outOfFuel := by
  refine Results.bind_ne (LockfileBuilder.buildRootGroup_ne_outOfFuel hfuel) fun _ _ => ?_
  refine Results.bind_ne (LockfileBuilder.buildRootGroup_ne_outOfFuel hfuel) fun _ _ => ?_
  exact Results.bind_ne (LockfileBuilder.buildRootGroup_ne_outOfFuel hfuel) fun _ _ => nofun

/-- More fuel changes no answer. -/
theorem LockfileBuilder.buildPackageSnapshot_extends (builder : LockfileBuilder V I) (fuel : Nat)
    (packages : SnapshotMap V I) (package : PackageVersion V I) (dev optional : Bool) :
    Results.Extends .outOfFuel (builder.buildPackageSnapshot fuel packages package dev optional)
      (builder.buildPackageSnapshot (fuel + 1) packages package dev optional) := by
  induction fuel generalizing packages package dev optional with
  | zero => exact fun h => absurd rfl h
  | succ fuel ih =>
      refine Results.Extends.bind (fun _ => rfl) fun key => ?_
      split
      · exact fun _ => rfl
      · refine Results.Extends.bind (fun _ => rfl) fun resolution => ?_
        refine Results.Extends.bind (Results.Extends.foldlM (fun s d => ?_) _ _) fun _ _ => rfl
        refine Results.Extends.bind (fun _ => rfl) fun child => ?_
        refine Results.Extends.bind (fun _ => rfl) fun _ => ?_
        refine Results.Extends.bind (fun _ => rfl) fun _ => ?_
        exact Results.Extends.bind (ih _ _ _ _) fun _ _ => rfl

theorem LockfileBuilder.buildRootGroup_extends (builder : LockfileBuilder V I) (fuel : Nat)
    (manifest : PackageManifest) (enabledGroups : List DependencyGroup) (group : DependencyGroup)
    (packages : SnapshotMap V I) :
    Results.Extends .outOfFuel
      (builder.buildRootGroup fuel manifest enabledGroups group packages)
      (builder.buildRootGroup (fuel + 1) manifest enabledGroups group packages) := by
  unfold LockfileBuilder.buildRootGroup
  split
  · refine Results.Extends.bind (Results.Extends.foldlM (fun s d => ?_) _ _) fun _ _ => rfl
    refine Results.Extends.bind (fun _ => rfl) fun package => ?_
    refine Results.Extends.bind (fun _ => rfl) fun _ => ?_
    refine Results.Extends.bind (fun _ => rfl) fun _ => ?_
    exact Results.Extends.bind (builder.buildPackageSnapshot_extends _ _ _ _ _) fun _ _ => rfl
  · exact fun _ => rfl

theorem GenerateLockfile.runWith_extends (generate : GenerateLockfile V I) (fuel : Nat) :
    Results.Extends .outOfFuel (generate.runWith fuel) (generate.runWith (fuel + 1)) := by
  refine Results.Extends.bind (LockfileBuilder.buildRootGroup_extends _ _ _ _ _ _) fun _ => ?_
  refine Results.Extends.bind (LockfileBuilder.buildRootGroup_extends _ _ _ _ _ _) fun _ => ?_
  exact Results.Extends.bind (LockfileBuilder.buildRootGroup_extends _ _ _ _ _ _) fun _ _ => rfl

/-- The fuel of `run` is enough, and any more gives the same. -/
theorem GenerateLockfile.runWith_eq_run [EquivBEq V] (generate : GenerateLockfile V I)
    {fuel : Nat} (hfuel : generate.registry.versions.length < fuel) :
    generate.runWith fuel = generate.run := by
  obtain ⟨more, rfl⟩ := Nat.exists_eq_add_of_le (Nat.succ_le_of_lt hfuel)
  clear hfuel
  induction more with
  | zero => rfl
  | succ more ih =>
      have hless : generate.registry.versions.length <
          generate.registry.versions.length.succ + more := by omega
      rw [← ih, ← Nat.add_assoc]
      exact generate.runWith_extends _ (generate.runWith_ne hless)

end Fuel

end Npnpm
