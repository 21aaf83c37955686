import Npnpm.PackageManager.CommandTables
import Npnpm.PackageManager.UpdateLatest

/-!
# The latest version and the specifier that is saved

`Add` without a specifier and `Update` with `latest` save the latest version as a
specifier, which the install after them resolves again. An exact one leads back to the
version; behind a caret, the greatest version of the range is installed.
-/

namespace Npnpm

section Latest

variable {V I : Type} [NodeSemver V] [SemverRange V]

/-- The version is the one that the tag `latest` names. -/
def Registry.IsLatest (registry : Registry V I) (name : Text) (latest : PackageVersion V I) :
    Prop :=
  ∃ package, registry.get name = some package ∧
    package.versionByTag (V := V) .latest = .ok latest

/-- What the specifier that is saved for a version leads to in the metadata of the package. -/
def Registry.LeadsBack (registry : Registry V I) (name : Text) (version : PackageVersion V I)
    (exact : Bool) (found : PackageVersion V I) : Prop :=
  ∃ package, registry.get name = some package ∧ package.LeadsBack version exact found

theorem Registry.resolve_eq {registry : Registry V I} {name : Text} {package : Package V I}
    (h : registry.get name = some package) (versionRange : Text) :
    registry.resolve name versionRange = package.versionBySpecifier versionRange := by
  rw [resolve, fetchPackageMetadata, h]
  rfl

theorem Registry.isLatest_of_resolve {registry : Registry V I} {name : Text}
    {latest : PackageVersion V I} (h : registry.resolve name "latest".toList = .ok latest) :
    registry.IsLatest name latest := by
  obtain ⟨package, hpackage, -⟩ := Registry.resolve_mem h
  refine ⟨package, hpackage, ?_⟩
  rw [Registry.resolve_eq hpackage] at h
  exact h

theorem Registry.resolve_serialize_iff [CaretSemver V] {registry : Registry V I} {name : Text}
    {latest : PackageVersion V I} (h : registry.IsLatest name latest) (exact : Bool)
    (found : PackageVersion V I) :
    registry.resolve name (latest.serialize exact) = .ok found ↔
      registry.LeadsBack name latest exact found := by
  obtain ⟨package, hpackage, -⟩ := h
  rw [Registry.resolve_eq hpackage, Package.versionBySpecifier_serialize_iff]
  constructor
  · exact fun hleads => ⟨package, hpackage, hleads⟩
  · rintro ⟨package', hpackage', hleads⟩
    rw [hpackage] at hpackage'
    cases hpackage'
    exact hleads

/-- What is saved for the latest version is in the manifest after the edits, and resolves to what
the saved specifier leads to. So it resolves to the latest version exactly when an exact
specifier is its key in the metadata, or no other version that the caret admits comes after it. -/
theorem latest_resolves_iff (V I : Type) [BEq V] [NodeSemver V] [SemverRange V]
    [CaretSemver V] :
    (∀ (add : Add V I) (package name versionRange : Text),
      (ParsedPackageSpec.parse package).specifier = none →
      add.resolveSpec package = .ok (name, versionRange) →
      ∃ latest, add.registry.IsLatest name latest ∧
        versionRange = latest.serialize add.saveExact ∧
        (∀ found, add.registry.resolve name versionRange = .ok found ↔
          add.registry.LeadsBack name latest add.saveExact found) ∧
        ∀ edited before after, add.edit = .ok edited →
          add.packages = before ++ package :: after →
          (∀ other ∈ after, (ParsedPackageSpec.parse other).name ≠ name) →
          ∀ group ∈ add.dependencyGroups,
            edited.dependencyVersion name group = some versionRange) ∧
    ∀ (update : Update V I) (group : DependencyGroup) (name specifier : Text)
      (new : Text × Text × Text), update.resolveTarget (group, name, specifier) = .ok new →
      ∃ latest, update.registry.IsLatest name latest ∧
        new = (name, specifier, latest.serialize (isExactVersion V specifier)) ∧
        (∀ found, update.registry.resolve name new.2.2 = .ok found ↔
          update.registry.LeadsBack name latest (isExactVersion V specifier) found) ∧
        ∀ edited, update.latest = true → update.edit = .ok edited →
          update.TargetsName name → group ∈ update.dependencyGroups →
          update.manifest.dependencyVersion name group = some specifier →
          edited.dependencyVersion name group = some new.2.2 := by
  constructor
  · intro add package name versionRange hnone h
    have hspec := h
    rw [Add.resolveSpec, hnone] at h
    obtain ⟨latest, hresolve, heq⟩ := Results.map_ok h
    obtain ⟨rfl, rfl⟩ := Prod.mk.inj heq
    have hlatest := Registry.isLatest_of_resolve (Results.mapError_ok hresolve)
    refine ⟨latest, hlatest, rfl, Registry.resolve_serialize_iff hlatest add.saveExact, ?_⟩
    intro edited before after hedit hpackages hlast group hgroup
    rw [PackageManifest.dependencyVersion_eq_some_iff]
    exact Add.edit_entry hedit hpackages hspec hlast hgroup
  · intro update group name specifier new h
    obtain ⟨latest, hresolve, rfl⟩ := Update.resolveTarget_ok h
    have hlatest := Registry.isLatest_of_resolve hresolve
    refine ⟨latest, hlatest, rfl, Registry.resolve_serialize_iff hlatest _, ?_⟩
    intro edited hupdate hedit hname hgroup hspecifier
    obtain ⟨latest', hresolve', hentry⟩ :=
      Update.edit_latest_entry hupdate hedit hname hgroup hspecifier
    obtain rfl : latest = latest' := Except.ok.inj (hresolve.symm.trans hresolve')
    exact PackageManifest.dependencyVersion_eq_some_iff.mpr hentry

/-- A package is added without a specifier. -/
def demoAdd (saveExact : Bool) : Add FullVersion Unit where
  config := defaultNpmrc
  manifest := ⟨.object .empty⟩
  lockfile := none
  dependencyGroups := [.prod]
  packages := ["demo".toList]
  saveExact := saveExact
  registry := demoRegistry
  resolvedPackages := []

/-- The exact specifier leads back to the latest version, and the one behind a caret to the
version above it. -/
theorem latest_resolves_iff_demo :
    demoRegistry.resolve "demo".toList "1.0.0".toList =
      .ok (demoVersion "1.0.0".toList rfl) ∧
    demoRegistry.resolve "demo".toList "^1.0.0".toList =
      .ok (demoVersion "1.1.0".toList rfl) ∧
    ∃ edited, (demoAdd false).edit = .ok edited ∧
      edited.dependencyVersion "demo".toList .prod = some "^1.0.0".toList := by
  have hlatest : ∀ latest, demoRegistry.IsLatest "demo".toList latest →
      latest = demoVersion "1.0.0".toList rfl := by
    rintro latest ⟨package, hpackage, htag⟩
    cases hpackage
    cases htag
    rfl
  obtain ⟨exact, hexact, -, hexactly, -⟩ := (latest_resolves_iff FullVersion Unit).1
    (demoAdd true) "demo".toList "demo".toList "1.0.0".toList rfl rfl
  obtain ⟨latest, hnamed, -, hresolves, hsaved⟩ := (latest_resolves_iff FullVersion Unit).1
    (demoAdd false) "demo".toList "demo".toList "^1.0.0".toList rfl rfl
  cases hlatest exact hexact
  cases hlatest latest hnamed
  obtain ⟨edited, hedited⟩ : ∃ edited, (demoAdd false).edit = .ok edited := ⟨_, rfl⟩
  refine ⟨(hexactly _).mpr ⟨_, rfl, rfl⟩, (hresolves _).mpr ⟨_, rfl, ?_⟩, edited, hedited,
    hsaved edited [] [] hedited rfl (by simp) .prod (List.mem_singleton_self _)⟩
  intro satisfies hrange
  cases hrange
  exact ⟨[demoVersion "1.0.0".toList rfl], [], rfl,
    fun b hb => by rw [List.mem_singleton.mp hb]; rfl, by simp⟩

/-- Behind a caret, the version above the latest one is installed. -/
theorem not_latest_resolves_caret : (demoAdd false).resolveSpec "demo".toList =
      .ok ("demo".toList, "^1.0.0".toList) ∧
    demoRegistry.IsLatest "demo".toList (demoVersion "1.0.0".toList rfl) ∧
    demoRegistry.resolve "demo".toList "^1.0.0".toList =
      .ok (demoVersion "1.1.0".toList rfl) ∧
    demoVersion "1.1.0".toList rfl ≠ demoVersion "1.0.0".toList rfl := by
  refine ⟨rfl, ⟨_, rfl, rfl⟩, rfl, fun h => ?_⟩
  have htext := congrArg (fun p : PackageVersion FullVersion Unit => p.version.text) h
  exact absurd htext (by decide)

end Latest

end Npnpm
