import Npnpm.PackageManager.GenerateReach
import Npnpm.PackageManager.StoreAddReach
import Npnpm.PackageManager.UpdateInPlace
import Npnpm.Registry.Specifiers

/-!
# Specifiers that stop a command

A specifier that cannot be read makes `version_by_specifier` panic, and with it the
command that asks for it. `GenerateLockfile` and `StoreAdd` pass on whatever the manifest,
the command line and the metadata of the packages they come to have. `Update` asks for
`latest` only.
-/

namespace Npnpm

section Generate

variable {V I : Type} [NodeSemver V] [SemverRange V]

/-- Whatever the generation of a lockfile may ask for can be read. -/
structure GenerateLockfile.AsksReadable (generate : GenerateLockfile V I) : Prop where
  entries : ∀ group ∈ generate.dependencyGroups, group ≠ .peer →
    ∀ d ∈ generate.manifest.groupDependencies group, ReadableSpecifier V d.2
  dependencies : ∀ p, generate.Reachable p →
    ∀ d ∈ p.dependenciesWith generate.config.autoInstallPeers, ReadableSpecifier V d.2

theorem LockfileBuilder.resolvePackageVersion_ne_invalidRange {builder : LockfileBuilder V I}
    {versionRange : Text} (h : ReadableSpecifier V versionRange) (name text : Text) :
    builder.resolvePackageVersion name versionRange ≠
      .error (.registry (.invalidRange text)) := by
  unfold LockfileBuilder.resolvePackageVersion
  cases hresolve : builder.registry.resolve name versionRange with
  | ok p => simp [Except.mapError]
  | error stop =>
      intro heq
      have hstop : stop = .invalidRange text := by simpa [Except.mapError] using heq
      rw [hstop] at hresolve
      exact Registry.resolve_ne h text hresolve

variable [BEq V] {generate : GenerateLockfile V I}

theorem GenerateLockfile.buildPackageSnapshot_ne_invalidRange (h : generate.AsksReadable)
    (text : Text) {fuel : Nat} {package : PackageVersion V I}
    (hpackage : generate.Reachable package) (packages : SnapshotMap V I) (dev optional : Bool) :
    generate.builder.buildPackageSnapshot fuel packages package dev optional ≠
      .error (.registry (.invalidRange text)) := by
  induction fuel generalizing packages package dev optional with
  | zero => simp [LockfileBuilder.buildPackageSnapshot]
  | succ fuel ih =>
      apply LockfileBuilder.buildPackageSnapshot_succ_ne id (fun _ => True)
      · exact fun _ _ _ _ => trivial
      · exact fun _ _ _ _ _ _ _ => trivial
      · exact fun d hd => LockfileBuilder.resolvePackageVersion_ne_invalidRange
          (h.dependencies package hpackage d hd) d.1 text
      · intro d hd child hresolved below _ dev optional
        exact ih (hpackage.dependency hd trivial (Results.mapError_ok hresolved)) below dev optional

theorem GenerateLockfile.run_ne_invalidRange (h : generate.AsksReadable) (text : Text) :
    generate.run ≠ .error (.registry (.invalidRange text)) := by
  have hgroup : ∀ group, group ≠ .peer → ∀ packages,
      generate.builder.buildRootGroup (generate.registry.versions.length + 1) generate.manifest
        generate.dependencyGroups group packages ≠ .error (.registry (.invalidRange text)) := by
    intro group hpeer packages
    have hentries : ∀ d ∈ generate.manifest.dependencies [group],
        d ∈ generate.manifest.groupDependencies group := by
      simp [PackageManifest.dependencies]
    apply LockfileBuilder.buildRootGroup_ne id
    · exact fun hselected d hd => LockfileBuilder.resolvePackageVersion_ne_invalidRange
        (h.entries group hselected hpeer d (hentries d hd)) d.1 text
    · intro hselected d hd package hresolved below dev optional
      have hreached : generate.Reachable package :=
        .root hselected hpeer (hentries d hd) (Results.mapError_ok hresolved)
      exact buildPackageSnapshot_ne_invalidRange h text hreached below dev optional
  apply Results.bind_ne (hgroup .prod (by simp) _)
  intro _ _
  apply Results.bind_ne (hgroup .optional (by simp) _)
  intro _ _
  apply Results.bind_ne (hgroup .dev (by simp) _)
  intro _ _ hok
  cases hok

end Generate

section Store

variable {V I B : Type} [NodeSemver V] [SemverRange V]

/-- Whatever the packages that are added lead to can be read. -/
structure StoreAdd.AsksReadable (add : StoreAdd V I B) : Prop where
  requested : ∀ package ∈ add.packages, ReadableSpecifier V (requestedEntry package).2
  dependencies : ∀ p, add.Reachable p →
    ∀ d ∈ p.dependenciesWith add.config.autoInstallPeers, ReadableSpecifier V d.2

theorem StoreAdder.resolveAll_ne_invalidRange {adder : StoreAdder V I B}
    {entries : List (Text × Text)} (h : ∀ d ∈ entries, ReadableSpecifier V d.2) (text : Text) :
    adder.resolveAll entries ≠ .error (.fetchFromRegistry (.invalidRange text)) := by
  apply Results.mapM_ne
  intro d hd heq
  cases hresolve : adder.registry.resolve d.1 d.2 with
  | ok p =>
      rw [hresolve] at heq
      cases heq
  | error stop =>
      rw [hresolve] at heq
      cases heq
      exact Registry.resolve_ne (h d hd) text hresolve

variable [TarballLibs I B] {add : StoreAdd V I B}

theorem StoreAdd.storePackageAndDependencies_ne_invalidRange (h : add.AsksReadable) (text : Text)
    {fuel : Nat} {package : PackageVersion V I} (hpackage : add.Reachable package)
    (s : StoreAddState V I B) :
    add.adder.storePackageAndDependencies fuel s package ≠
      .error (.fetchFromRegistry (.invalidRange text)) := by
  induction fuel generalizing s package with
  | zero => simp [StoreAdder.storePackageAndDependencies]
  | succ fuel ih =>
      unfold StoreAdder.storePackageAndDependencies
      split
      · simp
      · apply Results.bind_ne
        · unfold StoreAdder.downloadTarball
          split
          · simp
          · exact Results.mapError_ne fun abort => by simp
        · intro tarballs _
          apply Results.bind_ne
          · exact StoreAdder.resolveAll_ne_invalidRange (h.dependencies package hpackage) text
          · intro dependencies hresolve
            refine Results.foldlM_ne (fun _ => True) trivial ?_ fun _ _ _ _ _ _ => trivial
            intro child hchild s _
            obtain ⟨d, hd, hresolved⟩ := Results.exists_of_mem_mapM hresolve hchild
            exact ih (hpackage.dependency hd (Results.mapError_ok hresolved)) s

theorem StoreAdd.run_ne_invalidRange (h : add.AsksReadable) (store : StoreFiles B) (text : Text) :
    add.run store ≠ .error (.fetchFromRegistry (.invalidRange text)) := by
  apply Results.bind_ne
  · apply StoreAdder.resolveAll_ne_invalidRange
    intro d hd
    obtain ⟨package, hpackage, rfl⟩ := List.mem_map.mp hd
    exact h.requested package hpackage
  · intro roots hroots
    refine Results.foldlM_ne (fun _ => True) trivial ?_ fun _ _ _ _ _ _ => trivial
    intro p hp s _
    obtain ⟨d, hd, hresolved⟩ := Results.exists_of_mem_mapM hroots hp
    obtain ⟨package, hpackage, rfl⟩ := List.mem_map.mp hd
    have hreached : add.Reachable p := .requested hpackage (Results.mapError_ok hresolved)
    exact storePackageAndDependencies_ne_invalidRange h text hreached s

end Store

section Update

variable {V I : Type} [NodeSemver V] [SemverRange V]

/-- The error is that a package is not in the manifest. -/
def UpdateError.IsMissingPackage : UpdateError → Prop
  | .missingPackage _ => True
  | .fetchFromRegistry _ => False
  | .updateDependencyInManifest _ => False

theorem collectTargetEntries_ne {manifest : PackageManifest} {groups : List DependencyGroup}
    {packages : List Text} {error : UpdateError} (herror : ¬ error.IsMissingPackage) :
    collectTargetEntries manifest groups packages ≠ .error error := by
  apply Results.bind_ne
  · apply Results.mapM_ne
    intro package _ heq
    simp only at heq
    split at heq
    · cases heq
      exact herror trivial
    · cases heq
  · intro targets _ hok
    cases hok

theorem ensureTargetPackagesExist_ne {manifest : PackageManifest} {groups : List DependencyGroup}
    {packages : List Text} {error : UpdateError} (herror : ¬ error.IsMissingPackage) :
    ensureTargetPackagesExist manifest groups packages ≠ .error error := by
  induction packages with
  | nil =>
      intro heq
      cases heq
  | cons package rest ih =>
      refine Results.bind_ne ?_ fun _ _ => ih
      intro heq
      simp only at heq
      split at heq
      · cases heq
        exact herror trivial
      · cases heq

/-- An update asks for `latest` only. -/
theorem Update.edit_ne_invalidRange (update : Update V I) (text : Text) :
    update.edit ≠ .error (.fetchFromRegistry (.invalidRange text)) := by
  unfold Update.edit
  split
  · rw [Update.editLatest_eq]
    apply Results.bind_ne
    · unfold Update.targets
      split
      · simp
      · exact collectTargetEntries_ne id
    · intro targets _
      apply Results.bind_ne
      · apply Results.mapM_ne
        intro target _ heq
        unfold Update.resolveTarget at heq
        cases hresolve : update.registry.resolve target.2.1 "latest".toList with
        | ok p =>
            rw [hresolve] at heq
            cases heq
        | error stop =>
            rw [hresolve] at heq
            cases heq
            exact Registry.resolve_ne readableSpecifier_latest text hresolve
      · intro updates _ heq
        obtain ⟨manifest', hedit, -⟩ :=
          applyUpdates_ok update.dependencyGroups update.manifest updates
        rw [hedit] at heq
        cases heq
  · split
    · simp
    · apply Results.bind_ne (ensureTargetPackagesExist_ne id)
      intro _ hensure heq
      obtain ⟨manifest', hedit, -⟩ := updatePackages_ok (ensureTargetPackagesExist_ok hensure)
      rw [hedit] at heq
      cases heq

end Update

section Commands

variable (V I B : Type) [NodeSemver V] [SemverRange V] [BEq V] [TarballLibs I B]

/-- `version_by_specifier` answers exactly where the specifier can be read. A command that
comes to such specifiers only does not panic over one, and `Update` never does. -/
theorem answers_iff_readable :
    (∀ (package : Package V I) (specifier : Text),
      package.Answers specifier ↔ ReadableSpecifier V specifier) ∧
    (∀ generate : GenerateLockfile V I, generate.AsksReadable → ∀ text,
      generate.run ≠ .error (.registry (.invalidRange text))) ∧
    (∀ (add : StoreAdd V I B) (store : StoreFiles B), add.AsksReadable → ∀ text,
      add.run store ≠ .error (.fetchFromRegistry (.invalidRange text))) ∧
    ∀ (update : Update V I) (text : Text),
      update.edit ≠ .error (.fetchFromRegistry (.invalidRange text)) := by
  refine ⟨Package.answers_iff, ?_, ?_, ?_⟩
  · exact fun generate h text => GenerateLockfile.run_ne_invalidRange h text
  · exact fun add store h text => StoreAdd.run_ne_invalidRange h store text
  · exact fun update text => update.edit_ne_invalidRange text

end Commands

section Samples

/-- A package with the tags `latest` and `next`. -/
def taggedPackage : Package CoreVersion HashIntegrity where
  name := "a".toList
  distTags := .ofList [("latest".toList, "1.0.0".toList), ("next".toList, "2.0.0".toList)]
  versions := .ofList
    [("1.0.0".toList, releasedVersion "a".toList firstVersion [] []),
    ("2.0.0".toList, releasedVersion "a".toList otherVersion [] [])]

/-- A project with one dependency of that package. -/
def taggedGenerate (specifier : Text) : GenerateLockfile CoreVersion HashIntegrity where
  config := defaultNpmrc
  manifest := manifestOf [(.prod, [("a".toList, specifier)])]
  dependencyGroups := [.prod]
  registry := .ofList [("a".toList, taggedPackage)]

theorem taggedPackage_dependencies (p : PackageVersion CoreVersion HashIntegrity)
    (specifier : Text) (h : p ∈ (taggedGenerate specifier).registry.versions) :
    p.dependenciesWith defaultNpmrc.autoInstallPeers = [] := by
  have hversions : (taggedGenerate specifier).registry.versions =
      [releasedVersion "a".toList firstVersion [] [],
        releasedVersion "a".toList otherVersion [] []] := rfl
  rw [hversions, List.mem_pair] at h
  obtain rfl | rfl := h
  · rfl
  · rfl

theorem answers_iff_readable_exact :
    taggedPackage.Answers "2.0.0".toList ∧ ∀ text, (taggedGenerate "2.0.0".toList).run ≠
      .error (.registry (.invalidRange text)) := by
  have hreadable : ReadableSpecifier CoreVersion "2.0.0".toList := Or.inl rfl
  obtain ⟨hanswers, hgenerate, -, -⟩ :=
    answers_iff_readable CoreVersion HashIntegrity SampleBytes
  refine ⟨(hanswers _ _).mpr hreadable, hgenerate _ ⟨?_, ?_⟩⟩
  · intro group hgroup _ d hd
    obtain rfl := List.mem_singleton.mp hgroup
    obtain rfl := List.mem_singleton.mp hd
    exact hreadable
  · intro p hreached d hd
    have hknown : p ∈ (taggedGenerate "2.0.0".toList).registry.versions := by
      cases hreached with
      | root _ _ _ hresolve => exact Registry.resolve_mem_versions hresolve
      | dependency _ _ _ hresolve => exact Registry.resolve_mem_versions hresolve
    have hnone : d ∈ ([] : List (Text × Text)) :=
      taggedPackage_dependencies p _ hknown ▸ hd
    cases hnone

/-- The tag `next` is one of the package, and the generation of a lockfile panics. -/
theorem not_answers_next :
    (taggedPackage.distTags.get "next".toList).isSome = true ∧
      ¬ taggedPackage.Answers "next".toList ∧
      (taggedGenerate "next".toList).run = .error (.registry (.invalidRange "next".toList)) := by
  refine ⟨rfl, fun h => ?_, rfl⟩
  obtain ⟨p, key, hok, -⟩ | ⟨error, herror⟩ := h
  · cases hok
  · cases herror

end Samples

end Npnpm
