import Npnpm.PackageManager.Fetch

/-!
# Fetch and the frozen install

`fetch` prepares a store for `install --offline` with the same dependency
groups. The two agree on a lockfile exactly when the groups reach every package
it lists.
-/

namespace Npnpm

open Npnpm.Worklist

section Fetch

variable {V I : Type} [NodeSemver V] [BEq V]

/-- The packages that `Fetch` installs. -/
def Fetch.selected (lockfile : Lockfile V I) (groups : List DependencyGroup) :
    Option (Except FetchError (List (DependencyPath V))) :=
  match lockfile.packages with
  | none => some (.error .missingPackageSnapshots)
  | some packages =>
      collectSelectedPackages lockfile.projectSnapshot packages (.new packages) groups

/-- The frozen install takes the packages of the list and no others, and each
integrity it asks the store for is that of a package of the list. -/
def InstallMatches (config : Npmrc) (packages : Packages V I)
    (selected : List (DependencyPath V)) : Prop :=
  ∃ requests, CreateVirtualStore.requests config (some packages) = .ok requests ∧
    (∀ path, (∃ r ∈ requests, (r.1 == path) = true) ↔ ∃ p ∈ selected, (p == path) = true) ∧
    ∀ r ∈ requests, ∃ path ∈ selected, ∃ snapshot fetched,
      packages.get path = some snapshot ∧
      InstallPackageBySnapshot.request config path snapshot = .ok fetched ∧
      fetched.packageIntegrity = r.2.packageIntegrity

omit [NodeSemver V] in
theorem isSelected_of_downloadable {packages : Packages V I} {path : DependencyPath V}
    {snapshot : PackageSnapshot V I} (hget : packages.get path = some snapshot)
    (h : snapshot.resolution.Downloadable) : isSelected packages path = true := by
  unfold isSelected
  rw [hget]
  cases hres : snapshot.resolution with
  | tarball resolution => simp only [hres]
  | registry resolution => simp only [hres]
  | directory resolution => simp [hres, LockfileResolution.Downloadable] at h
  | git resolution => simp [hres, LockfileResolution.Downloadable] at h

/-- The install matches what was fetched exactly when the groups reach every
package of the lockfile. -/
theorem Fetch.installMatches_iff [EquivBEq V] (config : Npmrc) {lockfile : Lockfile V I}
    {packages : Packages V I} (hp : lockfile.packages = some packages)
    {groups : List DependencyGroup} {selected : List (DependencyPath V)}
    (hfetch : Fetch.selected lockfile groups = some (.ok selected))
    (hres : ∀ path snapshot, Wanted lockfile.projectSnapshot packages groups path →
      packages.get path = some snapshot → snapshot.resolution.Downloadable) :
    InstallMatches config packages selected ↔
      ∀ key ∈ packages.keys, ∃ path,
        Wanted lockfile.projectSnapshot packages groups path ∧ (path == key) = true := by
  simp only [Fetch.selected, hp] at hfetch
  obtain ⟨hsound, hcomplete⟩ := collectSelectedPackages_spec hfetch
  constructor
  · rintro ⟨requests, hreq, hsame, -⟩ key hkey
    rw [← CreateVirtualStore.requests_paths hreq, List.mem_map] at hkey
    obtain ⟨r, hr, rfl⟩ := hkey
    obtain ⟨p, hsel, hpk⟩ := (hsame r.1).mp ⟨r, hr, BEq.rfl⟩
    exact ⟨p, (hsound p hsel).1, hpk⟩
  · intro hall
    -- every key stands for a wanted package, so it is downloadable and was fetched
    have hfetched : ∀ e ∈ packages.entries, e.2.resolution.Downloadable ∧
        ∃ p ∈ selected, (p == e.1) = true := by
      intro e he
      obtain ⟨path, hwanted, hpath⟩ := hall e.1 (KeyedMap.mem_keys.mpr ⟨e.2, he⟩)
      have hget : packages.get path = some e.2 := by
        rw [packages.get_congr hpath]
        exact KeyedMap.get_of_mem he
      have hdown := hres path e.2 hwanted hget
      obtain ⟨v, hv, -, hsel⟩ := hcomplete path hwanted
      exact ⟨hdown, v, hsel (isSelected_of_downloadable hget hdown), BEq.trans hv hpath⟩
    obtain ⟨requests, hreq⟩ := (CreateVirtualStore.exists_requests_iff config packages).mpr
      fun e he => (hfetched e he).1
    have hpaths := CreateVirtualStore.requests_paths hreq
    refine ⟨requests, hreq, fun path => ⟨?_, ?_⟩, ?_⟩
    · rintro ⟨r, hr, hrp⟩
      have hkey : r.1 ∈ packages.keys := by
        rw [← hpaths]
        exact List.mem_map.mpr ⟨r, hr, rfl⟩
      obtain ⟨snapshot, hs⟩ := KeyedMap.mem_keys.mp hkey
      obtain ⟨-, p, hp, hpk⟩ := hfetched _ hs
      exact ⟨p, hp, BEq.trans hpk hrp⟩
    · rintro ⟨p, hsel, hpp⟩
      obtain ⟨-, hsel'⟩ := hsound p hsel
      unfold isSelected at hsel'
      cases hget : packages.get p with
      | none => simp [hget] at hsel'
      | some snapshot =>
          obtain ⟨key, hkey, hkp⟩ := KeyedMap.exists_of_get_eq_some hget
          have hmem : key ∈ requests.map Prod.fst := by
            rw [hpaths]
            exact KeyedMap.mem_keys.mpr ⟨snapshot, hkey⟩
          obtain ⟨r, hr, rfl⟩ := List.mem_map.mp hmem
          exact ⟨r, hr, BEq.trans hkp hpp⟩
    · intro r hr
      obtain ⟨snapshot, he, hrequest⟩ := CreateVirtualStore.request_of_mem hreq hr
      obtain ⟨hdown, p, hp, hpk⟩ := hfetched _ he
      have hget : packages.get p = some snapshot := by
        rw [packages.get_congr hpk]
        exact KeyedMap.get_of_mem he
      obtain ⟨fetched, hfetched⟩ :=
        (InstallPackageBySnapshot.exists_request_iff config p snapshot).mpr hdown
      refine ⟨p, hp, snapshot, fetched, hget, hfetched, Option.some.inj ?_⟩
      rw [← InstallPackageBySnapshot.integrity_of_request hfetched,
        InstallPackageBySnapshot.integrity_of_request hrequest]

end Fetch

section Groups

/-- The direct dependency `{name}: 1.0.0`. -/
def directDependency (name : Text) : KeyedMap PkgName (ResolvedDependencySpec CoreVersion) :=
  ⟨[(⟨none, name⟩, ⟨"1.0.0".toList, ⟨firstVersion, []⟩⟩)], by simp⟩

/-- Two packages from the registry. -/
def devPackages : Packages CoreVersion HashIntegrity :=
  ⟨[(⟨none, coreSpecifier "a".toList⟩,
      .plain (.registry ⟨⟨"sha512".toList, "YQ==".toList⟩⟩) none none),
    (⟨none, coreSpecifier "b".toList⟩,
      .plain (.registry ⟨⟨"sha512".toList, "Yg==".toList⟩⟩) none none)],
    by simp; rfl⟩

/-- The first is a regular dependency and the second a development dependency. -/
def devLockfile : Lockfile CoreVersion HashIntegrity where
  lockfileVersion := sixZero
  settings := none
  neverBuiltDependencies := none
  overrides := none
  projectSnapshot := .single ⟨none, some (directDependency "a".toList), none,
    some (directDependency "b".toList), none, none⟩
  packages := some devPackages

theorem devPackages_downloadable (path : DependencyPath CoreVersion)
    (snapshot : PackageSnapshot CoreVersion HashIntegrity)
    (h : devPackages.get path = some snapshot) : snapshot.resolution.Downloadable := by
  obtain ⟨key, hkey, -⟩ := KeyedMap.exists_of_get_eq_some h
  simp only [devPackages, List.mem_cons, List.not_mem_nil, or_false, Prod.mk.injEq] at hkey
  rcases hkey with ⟨-, rfl⟩ | ⟨-, rfl⟩ <;> exact trivial

/-- All groups: what was fetched is what is installed. -/
theorem Fetch.installMatches_all_groups :
    InstallMatches defaultNpmrc devPackages
        [⟨none, coreSpecifier "b".toList⟩, ⟨none, coreSpecifier "a".toList⟩] ↔
      ∀ key ∈ devPackages.keys, ∃ path,
        Wanted devLockfile.projectSnapshot devPackages [.prod, .dev, .optional] path ∧
          (path == key) = true := by
  have hfetch : Fetch.selected devLockfile [.prod, .dev, .optional] =
      some (.ok [⟨none, coreSpecifier "b".toList⟩, ⟨none, coreSpecifier "a".toList⟩]) := rfl
  exact Fetch.installMatches_iff defaultNpmrc rfl hfetch
    fun path snapshot _ h => devPackages_downloadable path snapshot h

/-- Without development dependencies `fetch` leaves a package out that the
install asks for. -/
theorem Fetch.not_installMatches_prod :
    Fetch.selected devLockfile [.prod, .optional] =
        some (.ok [⟨none, coreSpecifier "a".toList⟩]) ∧
      (∀ path snapshot, devPackages.get path = some snapshot →
        snapshot.resolution.Downloadable) ∧
      ¬ InstallMatches defaultNpmrc devPackages [⟨none, coreSpecifier "a".toList⟩] := by
  refine ⟨rfl, devPackages_downloadable, ?_⟩
  rintro ⟨requests, hreq, hsame, -⟩
  have hb : (⟨none, coreSpecifier "b".toList⟩ : DependencyPath CoreVersion) ∈
      requests.map Prod.fst := by
    rw [CreateVirtualStore.requests_paths hreq]
    exact List.mem_cons_of_mem _ (List.mem_singleton_self _)
  obtain ⟨r, hr, hrb⟩ := List.mem_map.mp hb
  obtain ⟨p, hp, hpb⟩ := (hsame ⟨none, coreSpecifier "b".toList⟩).mp
    ⟨r, hr, by rw [hrb]; exact BEq.rfl⟩
  rw [List.mem_singleton.mp hp] at hpb
  exact absurd hpb (by decide)

end Groups

end Npnpm
