import Npnpm.Lockfile.Determinism
import Npnpm.PackageManager.GenerateFaults
import Npnpm.Registry.Reordered

/-!
# Generating from metadata in another order

The maps that the registry serves are iterated in the order of a hash map, which decides in
which order packages are found. What is recorded does not depend on it, but for the flag
`optional`, which depends on what a package is found as.
-/

namespace Npnpm

open DepthFirst

section Reordered

variable {V I : Type}

/-- The same generation, with all maps of the metadata in another order. -/
structure GenerateLockfile.Reordered (generate generate' : GenerateLockfile V I) : Prop where
  config : generate'.config = generate.config
  manifest : generate'.manifest = generate.manifest
  dependencyGroups : generate'.dependencyGroups = generate.dependencyGroups
  registry : generate.registry.Reordered generate'.registry

theorem GenerateLockfile.Reordered.symm {generate generate' : GenerateLockfile V I}
    (h : generate.Reordered generate') : generate'.Reordered generate :=
  ⟨h.config.symm, h.manifest.symm, h.dependencyGroups.symm, h.registry.symm⟩

variable [NodeSemver V] {p q : PackageVersion V I}

theorem PackageVersion.Reordered.packageSpecifier_eq (h : p.Reordered q) :
    packageSpecifier q = packageSpecifier p := by
  unfold packageSpecifier
  rw [h.name, h.version]

theorem PackageVersion.Reordered.dependencyPath_eq (h : p.Reordered q) :
    dependencyPath q = dependencyPath p := by
  unfold dependencyPath
  rw [h.packageSpecifier_eq]

theorem PackageVersion.Reordered.hasPath_iff [BEq V] (h : p.Reordered q)
    {path : DependencyPath V} : q.HasPath path ↔ p.HasPath path := by
  unfold PackageVersion.HasPath
  rw [h.dependencyPath_eq]

omit [NodeSemver V] in
theorem GenerateLockfile.Reordered.resolution_eq {generate generate' : GenerateLockfile V I}
    (h : generate.Reordered generate') (hpq : p.Reordered q) :
    generate'.builder.resolution q = generate.builder.resolution p := by
  simp only [LockfileBuilder.resolution, GenerateLockfile.builder, h.config, hpq.dist, hpq.name]
  rfl

variable [SemverRange V] {generate generate' : GenerateLockfile V I}
  (htrans : Std.TransCmp (SemverRange.compare (V := V)))
  (hdistinct : ∀ e ∈ generate.registry.entries, e.2.PrecedenceDistinct)
  (h : generate.Reordered generate')
include htrans hdistinct h

omit [NodeSemver V] in
theorem GenerateLockfile.Reordered.precedenceDistinct :
    ∀ e ∈ generate'.registry.entries, e.2.PrecedenceDistinct := by
  intro e' he'
  obtain ⟨e, he, -, hpackage⟩ := KeyedMap.Same.exists_partner h.registry he'
  exact (hdistinct e he).of_reordered htrans hpackage

/-- What leads to a version leads to it in another order. -/
theorem GenerateLockfile.Reordered.reaches {rootOf : DependencyGroup → Prop}
    {edgeOf : Bool → Prop} (hp : generate.Reaches rootOf edgeOf p) :
    ∃ q, p.Reordered q ∧ generate'.Reaches rootOf edgeOf q := by
  have hresolved := Registry.resolve_reordered htrans hdistinct h.registry
  induction hp with
  | root hgroup hroot hentry hresolve =>
      obtain ⟨q, hq, hpq⟩ := (hresolved _ _).exists_ok hresolve
      refine ⟨q, hpq, .root ?_ hroot ?_ hq⟩
      · rwa [h.dependencyGroups]
      · rwa [h.manifest]
  | @dependency p name versionRange child hp hentry hedge hresolve ih =>
      obtain ⟨q, hpq, hq⟩ := ih
      obtain ⟨child', hchild', hreordered⟩ := (hresolved _ _).exists_ok hresolve
      refine ⟨child', hreordered, .dependency hq ?_ ?_ hchild'⟩
      · rw [h.config]
        exact hpq.mem_dependenciesWith_iff.mpr hentry
      · rwa [hpq.isOptional_eq]

theorem GenerateLockfile.Reordered.unrecordable {d : Text × Text} {stop : GenerateStop}
    (hstop : generate.builder.Unrecordable d stop) : generate'.builder.Unrecordable d stop := by
  have hresolved : Results.Rel PackageVersion.Reordered
      (generate.builder.resolvePackageVersion d.1 d.2)
      (generate'.builder.resolvePackageVersion d.1 d.2) := by
    have hrel := Registry.resolve_reordered htrans hdistinct h.registry d.1 d.2
    simp only [LockfileBuilder.resolvePackageVersion, GenerateLockfile.builder]
    generalize generate.registry.resolve d.1 d.2 = x, generate'.registry.resolve d.1 d.2 = y at hrel
    cases hrel with
    | error e => exact .error _
    | ok hpq => exact .ok hpq
  cases hstop with
  | resolve hresolve => exact .resolve (hresolved.of_error hresolve)
  | name hname => exact .name hname
  | specifier hresolve hspecifier =>
      obtain ⟨child', hchild', hpq⟩ := hresolved.exists_ok hresolve
      refine .specifier hchild' ?_
      rwa [hpq.packageSpecifier_eq]

/-- A fault is one in another order. -/
theorem GenerateLockfile.Reordered.fault {stop : GenerateStop} (hstop : generate.Fault stop) :
    generate'.Fault stop := by
  have hrecordable : ∀ {d stop}, generate.builder.Unrecordable d stop →
      generate'.builder.Unrecordable d stop :=
    fun hstop => GenerateLockfile.Reordered.unrecordable htrans hdistinct h hstop
  cases hstop with
  | entry hgroup hpeer hentry hstop =>
      refine .entry ?_ hpeer ?_ (hrecordable hstop)
      · rwa [h.dependencyGroups]
      · rwa [h.manifest]
  | integrity hp hstop =>
      obtain ⟨q, hpq, hq⟩ := GenerateLockfile.Reordered.reaches htrans hdistinct h hp
      refine .integrity hq ?_
      rwa [h.resolution_eq hpq]
  | dependency hp hentry hstop =>
      obtain ⟨q, hpq, hq⟩ := GenerateLockfile.Reordered.reaches htrans hdistinct h hp
      refine .dependency hq ?_ (hrecordable hstop)
      rw [h.config]
      exact hpq.mem_dependenciesWith_iff.mpr hentry

end Reordered

section EdgesOnly

variable {V I : Type}

/-- Only the resolution, the dependencies and the flags are set. -/
def PackageSnapshot.EdgesOnly (snapshot : PackageSnapshot V I) : Prop :=
  ∃ resolution dependencies dev optional, snapshot =
    { PackageSnapshot.plain resolution dependencies none with dev := dev, optional := optional }

theorem PackageSnapshot.EdgesOnly.merge {snapshot : PackageSnapshot V I}
    (h : snapshot.EdgesOnly) (dev optional : Bool) :
    (mergePackageFlags dev optional snapshot).EdgesOnly := by
  obtain ⟨_, _, _, _, rfl⟩ := h
  exact ⟨_, _, _, _, rfl⟩

theorem PackageSnapshot.EdgesOnly.complete {snapshot : PackageSnapshot V I}
    (h : snapshot.EdgesOnly) (dependencies : KeyedMap PkgName (PackageSnapshotDependency V))
    (dev optional : Bool) : (completeSnapshot dependencies dev optional snapshot).EdgesOnly := by
  obtain ⟨_, _, _, _, rfl⟩ := h
  exact ⟨_, _, _, _, rfl⟩

variable [NodeSemver V] [BEq V] [SemverRange V] {builder : LockfileBuilder V I}

theorem LockfileBuilder.buildPackageSnapshot_edgesOnly {fuel : Nat}
    {packages packages' : SnapshotMap V I} {package : PackageVersion V I} {dev optional : Bool}
    (h : builder.buildPackageSnapshot fuel packages package dev optional = .ok packages')
    (hin : packages.Forall (fun _ => True) PackageSnapshot.EdgesOnly) :
    packages'.Forall (fun _ => True) PackageSnapshot.EdgesOnly := by
  induction fuel generalizing packages packages' package dev optional with
  | zero => cases h
  | succ fuel ih =>
      obtain ⟨path, -, ⟨-, rfl⟩ | ⟨-, resolution, below, dependencies, -, hbelow, rfl⟩⟩ :=
        LockfileBuilder.buildPackageSnapshot_ok h
      · exact hin.modify path fun _ hs => hs.merge dev optional
      · have hstart : KeyedMap.Forall (fun _ => True) PackageSnapshot.EdgesOnly
            (packages.insert path (placeholder resolution dev optional)) :=
          hin.insert trivial ⟨_, _, _, _, rfl⟩
        have hfold : below.Forall (fun _ => True) PackageSnapshot.EdgesOnly :=
          Results.foldlM_invariant
            (fun s : SnapshotMap V I × KeyedMap PkgName (PackageSnapshotDependency V) =>
              s.1.Forall (fun _ => True) PackageSnapshot.EdgesOnly) hbelow hstart
            fun d _ s s' hs hround => by
              obtain ⟨_, _, _, -, -, -, hchild, -⟩ := LockfileBuilder.buildDependency_ok hround
              exact ih hchild hs
        exact hfold.modify path fun _ hs => hs.complete dependencies dev optional

theorem LockfileBuilder.buildRootGroup_edgesOnly {fuel : Nat} {manifest : PackageManifest}
    {enabledGroups : List DependencyGroup} {group : DependencyGroup}
    {packages packages' : SnapshotMap V I} {dependencies : Option (ResolvedDependencyMap V)}
    (h : builder.buildRootGroup fuel manifest enabledGroups group packages =
      .ok (packages', dependencies))
    (hin : packages.Forall (fun _ => True) PackageSnapshot.EdgesOnly) :
    packages'.Forall (fun _ => True) PackageSnapshot.EdgesOnly := by
  obtain ⟨-, rfl, -⟩ | ⟨-, resolved, hfold, -⟩ := LockfileBuilder.buildRootGroup_ok h
  · exact hin
  · refine Results.foldlM_invariant (fun s : SnapshotMap V I × ResolvedDependencyMap V =>
      s.1.Forall (fun _ => True) PackageSnapshot.EdgesOnly) hfold hin fun d _ s s' hs hround => ?_
    obtain ⟨_, _, _, -, -, -, hbuild, -⟩ := LockfileBuilder.buildRoot_ok hround
    exact LockfileBuilder.buildPackageSnapshot_edgesOnly hbuild hs

theorem GenerateLockfile.run_edgesOnly {generate : GenerateLockfile V I}
    {lockfile : Lockfile V I} (h : generate.run = .ok lockfile) :
    ∀ e ∈ lockfile.packageEntries, e.2.EdgesOnly := by
  obtain ⟨_, _, packages, _, _, _, h₁, h₂, h₃, -, hpackages⟩ := GenerateLockfile.runWith_ok h
  have hin := LockfileBuilder.buildRootGroup_edgesOnly h₃ (LockfileBuilder.buildRootGroup_edgesOnly
    h₂ (LockfileBuilder.buildRootGroup_edgesOnly h₁ KeyedMap.forall_empty))
  intro e he
  unfold Lockfile.packageEntries at he
  cases hrecorded : lockfile.packages with
  | none =>
      rw [hrecorded] at he
      cases he
  | some packages' =>
      rw [hrecorded] at he
      rw [hpackages] at hrecorded
      rw [of_recorded_eq_some hrecorded] at he
      exact (hin e he).2

end EdgesOnly

end Npnpm
