import Npnpm.Lockfile.RoundTrip
import Npnpm.PackageManager.GenerateReach

/-!
# Loading a lockfile that was saved

A lockfile that was loaded once is loaded again as it was saved. For a generated
lockfile this depends on the names of its packages: they come from the registry,
which has no syntax of keys to respect.
-/

namespace Npnpm

open Npnpm.Serde

section Sound

variable {V I : Type} [NodeSemver V] [BEq V] [SsriParse I] [SsriDisplay I]

/-- Each integrity that the registry serves was parsed from a text. -/
def Registry.IntegritiesParsed (registry : Registry V I) : Prop :=
  ∀ p ∈ registry.versions, ∀ integrity, p.dist.integrity = some integrity →
    ∃ s, SsriParse.parse s = .ok integrity

def SnapshotMap.Sound (packages : SnapshotMap V I) : Prop :=
  packages.Forall DependencyPath.Parsed PackageSnapshot.Sound

omit [BEq V] [SsriParse I] [SsriDisplay I] in
theorem packageSpecifier_suffix {package : PackageVersion V I} {specifier : PkgNameVerPeer V}
    (h : packageSpecifier package = .ok specifier) :
    specifier.name.WellFormed ∧ ∃ s, PkgVerPeer.fromStr s = .ok specifier.suffix := by
  obtain ⟨name, hname, h⟩ := Results.bind_ok h
  obtain ⟨version, hversion, h⟩ := Results.bind_ok h
  cases h
  exact ⟨((PkgName.parse_eq_ok_iff _ _).mp (Results.mapError_ok hname)).1, _,
    Results.mapError_ok hversion⟩

omit [BEq V] [SsriParse I] [SsriDisplay I] in
theorem dependencyPath_parsed {package : PackageVersion V I} {path : DependencyPath V}
    (h : dependencyPath package = .ok path) : path.Parsed := by
  obtain ⟨specifier, hspecifier, h⟩ := Results.bind_ok h
  cases h
  obtain ⟨hw, hsuffix⟩ := packageSpecifier_suffix hspecifier
  exact ⟨by simp, hw, hsuffix⟩

variable [RoundTripSsri I]

omit [NodeSemver V] [BEq V] in
theorem LockfileBuilder.resolution_sound {builder : LockfileBuilder V I}
    (hregistry : builder.registry.IntegritiesParsed) {package : PackageVersion V I}
    (hpackage : package ∈ builder.registry.versions) {resolution : LockfileResolution I}
    (h : builder.resolution package = .ok resolution) : resolution.Sound := by
  unfold LockfileBuilder.resolution at h
  cases hintegrity : package.dist.integrity with
  | none => simp [hintegrity] at h
  | some integrity =>
      obtain ⟨s, hs⟩ := hregistry package hpackage integrity hintegrity
      have hread := readsBack_integrity hs
      simp only [hintegrity] at h
      split at h
      · cases h
        rintro _ ⟨⟩
        exact hread
      · cases h
        rintro _ ⟨⟩
        exact hread

variable [SemverRange V] [PlainSemver V] [RoundTripSemver V] {builder : LockfileBuilder V I}

/-- The build adds the paths of versions, with resolutions of the registry and the
versions that were resolved. -/
theorem LockfileBuilder.buildPackageSnapshot_sound
    (hregistry : builder.registry.IntegritiesParsed) {fuel : Nat}
    {packages packages' : SnapshotMap V I} {package : PackageVersion V I} {dev optional : Bool}
    (hpackage : package ∈ builder.registry.versions)
    (h : builder.buildPackageSnapshot fuel packages package dev optional = .ok packages')
    (hsound : packages.Sound) : packages'.Sound := by
  induction fuel generalizing packages packages' package dev optional with
  | zero => cases h
  | succ fuel ih =>
      obtain ⟨path, hpath, ⟨-, rfl⟩ | ⟨-, resolution, below, dependencies, hresolution, hbelow,
        rfl⟩⟩ := LockfileBuilder.buildPackageSnapshot_ok h
      · exact hsound.modify path fun _ hs => ⟨hs.resolution, hs.dependencies⟩
      · have hstart : SnapshotMap.Sound
            (packages.insert path (placeholder resolution dev optional)) :=
          hsound.insert (dependencyPath_parsed hpath)
            ⟨LockfileBuilder.resolution_sound hregistry hpackage hresolution,
              fun _ hnone => by cases hnone⟩
        have hfold : SnapshotMap.Sound below ∧
            dependencies.Forall (ReadsBack PkgName.decode PkgName.encode)
              (ReadsBack PackageSnapshotDependency.decode PackageSnapshotDependency.encode) :=
          Results.foldlM_invariant
            (fun s : SnapshotMap V I × KeyedMap PkgName (PackageSnapshotDependency V) =>
              SnapshotMap.Sound s.1 ∧ s.2.Forall (ReadsBack PkgName.decode PkgName.encode)
                (ReadsBack PackageSnapshotDependency.decode PackageSnapshotDependency.encode))
            hbelow ⟨hstart, KeyedMap.forall_empty⟩
            fun d _ s s' hs hround => by
              obtain ⟨child, name, specifier, hresolve, hname, hspecifier, hchild, hrecorded⟩ :=
                LockfileBuilder.buildDependency_ok hround
              obtain ⟨-, _, hsuffix⟩ := packageSpecifier_suffix hspecifier
              rw [hrecorded]
              exact ⟨ih (LockfileBuilder.resolvePackageVersion_mem hresolve) hchild hs.1,
                hs.2.insert (PkgName.readsBack (Results.mapError_ok hname))
                  (PackageSnapshotDependency.readsBack_pkgVerPeer hsuffix)⟩
        refine hfold.1.modify path fun snapshot hs => ⟨hs.resolution, fun m hm => ?_⟩
        rw [of_recorded_eq_some hm]
        exact hfold.2

theorem LockfileBuilder.buildRootGroup_sound (hregistry : builder.registry.IntegritiesParsed)
    {fuel : Nat} {manifest : PackageManifest} {enabledGroups : List DependencyGroup}
    {group : DependencyGroup} {packages packages' : SnapshotMap V I}
    {dependencies : Option (ResolvedDependencyMap V)}
    (h : builder.buildRootGroup fuel manifest enabledGroups group packages =
      .ok (packages', dependencies)) (hsound : packages.Sound) :
    packages'.Sound ∧ ∀ m, dependencies = some m → ResolvedDependencyMap.Sound m := by
  obtain ⟨-, rfl, rfl⟩ | ⟨-, resolved, hfold, rfl⟩ := LockfileBuilder.buildRootGroup_ok h
  · exact ⟨hsound, fun _ hnone => by cases hnone⟩
  · have hinvariant : SnapshotMap.Sound packages' ∧ ResolvedDependencyMap.Sound resolved :=
      Results.foldlM_invariant
        (fun s : SnapshotMap V I × ResolvedDependencyMap V =>
          SnapshotMap.Sound s.1 ∧ ResolvedDependencyMap.Sound s.2) hfold
        ⟨hsound, KeyedMap.forall_empty⟩ fun d _ s s' hs hround => by
          obtain ⟨package, name, specifier, hresolve, hname, hspecifier, hbuild, hrecorded⟩ :=
            LockfileBuilder.buildRoot_ok hround
          obtain ⟨-, _, hsuffix⟩ := packageSpecifier_suffix hspecifier
          rw [hrecorded]
          exact ⟨LockfileBuilder.buildPackageSnapshot_sound hregistry
              (LockfileBuilder.resolvePackageVersion_mem hresolve) hbuild hs.1,
            KeyedMap.Forall.insert hs.2 (PkgName.readsBack (Results.mapError_ok hname))
              (ResolvedDependencySpec.readsBack (PkgVerPeer.readsBack hsuffix))⟩
    refine ⟨hinvariant.1, fun m hm => ?_⟩
    rw [of_recorded_eq_some hm]
    exact hinvariant.2

omit [BEq V] [SsriParse I] [SsriDisplay I] [RoundTripSsri I] [PlainSemver V]
  [RoundTripSemver V] in
theorem GenerateLockfile.runWith_lockfileVersion [BEq V] {generate : GenerateLockfile V I}
    {fuel : Nat} {lockfile : Lockfile V I} (h : generate.runWith fuel = .ok lockfile) :
    lockfile.lockfileVersion = sixZero := by
  obtain ⟨_, -, h⟩ := Results.bind_ok h
  obtain ⟨_, -, h⟩ := Results.bind_ok h
  obtain ⟨_, -, h⟩ := Results.bind_ok h
  cases h
  rfl

theorem GenerateLockfile.run_sound {generate : GenerateLockfile V I}
    (hregistry : generate.registry.IntegritiesParsed) {lockfile : Lockfile V I}
    (h : generate.run = .ok lockfile) : lockfile.Sound := by
  obtain ⟨packages₁, packages₂, packages, dependencies, optionalDependencies, devDependencies,
    h₁, h₂, h₃, hproject, hpackages⟩ := GenerateLockfile.runWith_ok h
  obtain ⟨hsound₁, hprod⟩ :=
    LockfileBuilder.buildRootGroup_sound hregistry h₁ KeyedMap.forall_empty
  obtain ⟨hsound₂, hoptional⟩ := LockfileBuilder.buildRootGroup_sound hregistry h₂ hsound₁
  obtain ⟨hsound₃, hdev⟩ := LockfileBuilder.buildRootGroup_sound hregistry h₃ hsound₂
  refine ⟨?_, ?_, ?_⟩
  · rw [GenerateLockfile.runWith_lockfileVersion h]
    decide
  · rw [hproject]
    refine ⟨fun group m hm => ?_, fun _ hnone => by cases hnone⟩
    cases group with
    | prod => exact hprod m hm
    | dev => exact hdev m hm
    | optional => exact hoptional m hm
    | peer => cases hm
  · intro m hm
    rw [hpackages] at hm
    rw [of_recorded_eq_some hm]
    exact hsound₃

/-- A lockfile that a generation from a registry returns. -/
def Lockfile.Generated (lockfile : Lockfile V I) : Prop :=
  ∃ generate : GenerateLockfile V I, generate.registry.IntegritiesParsed ∧
    generate.run = .ok lockfile

/-- A loaded lockfile is loaded again as it is saved. A generated one is exactly
when each name in its keys could be read from a key. -/
theorem Lockfile.load_serialize_iff (lockfile : Lockfile V I) :
    (lockfile.Loaded → Lockfile.load lockfile.serialize = some (some lockfile)) ∧
      (lockfile.Generated → (Lockfile.load lockfile.serialize = some (some lockfile) ↔
        ∀ e ∈ lockfile.packageEntries, e.1.packageSpecifier.name.Specifiable)) := by
  constructor
  · intro hloaded
    obtain ⟨content, hread⟩ := hloaded.exists_deserialize
    exact (Lockfile.load_serialize_eq_iff (Lockfile.sound_of_deserialize hread)).mpr
      (Lockfile.specifiable_of_deserialize hread)
  · rintro ⟨generate, hregistry, hrun⟩
    exact Lockfile.load_serialize_eq_iff (GenerateLockfile.run_sound hregistry hrun)

end Sound

section Samples

instance : RoundTripSemver CoreVersion where
  parse_display s v h := by
    unfold NodeSemver.parse instNodeSemverCoreVersion at h ⊢
    dsimp only at h ⊢
    split at h
    · rename_i hcore
      cases h
      exact dif_pos hcore
    · cases h
  ne_nil s v h := by
    rintro rfl
    cases h
  no_slash s v h := by
    unfold NodeSemver.parse instNodeSemverCoreVersion at h
    dsimp only at h
    split at h
    · rename_i hcore
      exact fun hslash => absurd (isCore_plain hcore '/' hslash) (by decide)
    · cases h

instance : RoundTripSsri HashIntegrity where
  parse_display s integrity h := by
    unfold SsriParse.parse instSsriParseHashIntegrity at h ⊢
    dsimp only at h ⊢
    split at h
    · cases h
    · rename_i algorithm digest hsplit
      split at h
      · rename_i hknown
        cases h
        obtain ⟨hdash, rfl⟩ := (Text.splitOnce_eq_some_iff '-' s algorithm digest).mp hsplit
        simp only [SsriDisplay.display, hsplit, if_pos hknown]
      · cases h

/-- Every version of the sample registries has one integrity. -/
theorem integritiesParsed_of_versions {registry : Registry CoreVersion HashIntegrity}
    (h : ∀ p ∈ registry.versions,
      p.dist.integrity = some ⟨"sha512".toList, "YQ==".toList⟩) : registry.IntegritiesParsed := by
  intro p hp integrity hintegrity
  rw [h p hp] at hintegrity
  cases hintegrity
  exact ⟨"sha512-YQ==".toList, by decide⟩

theorem Lockfile.load_serialize_iff_cycle :
    ∃ lockfile, cycleGenerate.run = .ok lockfile ∧
      Lockfile.load lockfile.serialize = some (some lockfile) := by
  have hrun : cycleGenerate.run.toOption.map (fun lockfile =>
      lockfile.packageEntries.all fun e => e.1.packageSpecifier.name.Specifiable) =
        some true := by decide +kernel
  obtain ⟨lockfile, hlockfile, hnames⟩ := Results.exists_of_toOption_map hrun
  have hregistry : cycleGenerate.registry.IntegritiesParsed :=
    integritiesParsed_of_versions (by decide +kernel)
  have hload := ((Lockfile.load_serialize_iff lockfile).2
    ⟨cycleGenerate, hregistry, hlockfile⟩).mpr (by simpa using hnames)
  exact ⟨lockfile, hlockfile, (Lockfile.load_serialize_iff lockfile).1 ⟨_, hload⟩⟩

/-- The registry serves a package whose name has an `@` inside. -/
def atGenerate : GenerateLockfile CoreVersion HashIntegrity where
  config := defaultNpmrc
  manifest := manifestOf [(.prod, [("a@b".toList, "1.0.0".toList)])]
  dependencyGroups := [.prod]
  registry := releases [("a@b".toList, [releasedVersion "a@b".toList firstVersion [] []])]

/-- The key `/a@b@1.0.0` does not parse. -/
theorem Lockfile.not_load_serialize_at :
    ∃ lockfile : Lockfile CoreVersion HashIntegrity, lockfile.Generated ∧
      Lockfile.load lockfile.serialize ≠ some (some lockfile) := by
  have hrun : atGenerate.run.toOption.map (fun lockfile =>
      lockfile.packageEntries.all fun e => e.1.packageSpecifier.name.Specifiable) =
        some false := by decide +kernel
  obtain ⟨lockfile, hlockfile, hnames⟩ := Results.exists_of_toOption_map hrun
  refine ⟨lockfile, ⟨atGenerate, integritiesParsed_of_versions (by decide +kernel), hlockfile⟩,
    fun hload => ?_⟩
  obtain ⟨_, hread, heq⟩ := Option.map_eq_some_iff.mp hload
  cases heq
  have hspecifiable := Lockfile.specifiable_of_deserialize hread
  rw [List.all_eq_true.mpr fun e he => decide_eq_true (hspecifiable e he)] at hnames
  cases hnames

end Samples

end Npnpm
