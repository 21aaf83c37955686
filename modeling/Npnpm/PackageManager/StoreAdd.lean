import Npnpm.PackageManager.GenerateTermination
import Npnpm.PackageManager.ManifestCommands
import Npnpm.Tarball.OneCall

/-!
# Adding packages to the store

`StoreAdd` resolves the requested specs and puts each version with its dependencies
into the store, depth first. A version is marked by its virtual store name before its
tarball is downloaded, and a marked one is skipped. There is no `node_modules`.

## Implementation notes

`StoreCommand::Add`, the only caller, starts with empty caches and without marks. The
recursion is given fuel, and running out of it is an error that the source does not
have; the fuel of `run` always suffices. `stored` is not kept by the source: it lists
the versions whose tarball step has been run, in order.
-/

namespace Npnpm

/-- The ways in which packages are not added. -/
inductive StoreAddStop
  | fetchFromRegistry (stop : RegistryStop)
  | downloadTarball (abort : Abort)
  /-- the call of `expect` -/
  | missingIntegrity (name : Text)
  | outOfFuel

structure StoreAdder (V I B : Type) where
  config : Npmrc
  registry : Registry V I
  network : TarballNetwork B

structure StoreAddState (V I B : Type) where
  resolvedPackages : List Text
  tarballs : TarballState B
  stored : List (PackageVersion V I)

/-- `StoreAdd` -/
structure StoreAdd (V I B : Type) where
  config : Npmrc
  registry : Registry V I
  network : TarballNetwork B
  packages : List Text

def StoreAdd.adder {V I B : Type} (add : StoreAdd V I B) : StoreAdder V I B :=
  ⟨add.config, add.registry, add.network⟩

/-- The name and the specifier of a package that is requested. -/
def requestedEntry (package : Text) : Text × Text :=
  let spec := ParsedPackageSpec.parse package
  (spec.name, spec.specifier.getD "latest".toList)

section Model

variable {V I B : Type}

/-- The call for the tarball of a version with an integrity. -/
def PackageVersion.tarballCall (config : Npmrc) (package : PackageVersion V I) (integrity : I) :
    DownloadTarballToStore I where
  storeDir := config.storeDir
  packageIntegrity := integrity
  packageUnpackedSize := package.dist.unpackedSize
  packageUrl := package.dist.tarball
  networkMode := .online

variable [TarballLibs I B]

/-- The tarball step of a version. -/
def StoreAdder.downloadTarball (adder : StoreAdder V I B) (s : TarballState B)
    (package : PackageVersion V I) : Except StoreAddStop (TarballState B) :=
  match package.dist.integrity with
  | none => .error (.missingIntegrity package.name)
  | some integrity =>
      (((package.tarballCall adder.config integrity).runWithMemCache adder.network s).map
        Prod.snd).mapError .downloadTarball

variable [NodeSemver V] [SemverRange V]

omit [TarballLibs I B] in
/-- Metadata is fetched and a version is chosen for each entry. -/
def StoreAdder.resolveAll (adder : StoreAdder V I B) (entries : List (Text × Text)) :
    Except StoreAddStop (List (PackageVersion V I)) :=
  entries.mapM fun d => (adder.registry.resolve d.1 d.2).mapError .fetchFromRegistry

omit [TarballLibs I B] [SemverRange V] in
/-- The state once the tarball step of a version has been run. -/
def StoreAddState.store (s : StoreAddState V I B) (package : PackageVersion V I)
    (tarballs : TarballState B) : StoreAddState V I B :=
  ⟨package.toVirtualStoreName :: s.resolvedPackages, tarballs, s.stored ++ [package]⟩

def StoreAdder.storePackageAndDependencies (adder : StoreAdder V I B) :
    Nat → StoreAddState V I B → PackageVersion V I → Except StoreAddStop (StoreAddState V I B)
  | 0, _, _ => .error .outOfFuel
  | fuel + 1, s, package =>
      if package.toVirtualStoreName ∈ s.resolvedPackages then .ok s
      else do
        let tarballs ← adder.downloadTarball s.tarballs package
        let dependencies ← adder.resolveAll
          (package.dependenciesWith adder.config.autoInstallPeers)
        dependencies.foldlM (adder.storePackageAndDependencies fuel) (s.store package tarballs)

def StoreAdd.runWith (add : StoreAdd V I B) (fuel : Nat) (store : StoreFiles B) :
    Except StoreAddStop (StoreAddState V I B) := do
  let rootPackages ← add.adder.resolveAll (add.packages.map requestedEntry)
  rootPackages.foldlM (add.adder.storePackageAndDependencies fuel) ⟨[], ⟨fun _ => none, store⟩, []⟩

/-- The recursion is never deeper than there are versions. -/
def StoreAdd.run (add : StoreAdd V I B) (store : StoreFiles B) :
    Except StoreAddStop (StoreAddState V I B) :=
  add.runWith (add.registry.versions.length + 1) store

end Model

section Steps

variable {V I B : Type} [TarballLibs I B] {adder : StoreAdder V I B}

theorem StoreAdder.downloadTarball_ok {s s' : TarballState B} {package : PackageVersion V I}
    (h : adder.downloadTarball s package = .ok s') :
    ∃ integrity casPaths, package.dist.integrity = some integrity ∧
      (package.tarballCall adder.config integrity).runWithMemCache adder.network s =
        .ok (casPaths, s') := by
  unfold StoreAdder.downloadTarball at h
  split at h
  · cases h
  · rename_i integrity hintegrity
    obtain ⟨⟨casPaths, s₁⟩, hrun, rfl⟩ := Results.map_ok (Results.mapError_ok h)
    exact ⟨integrity, casPaths, hintegrity, hrun⟩

variable [NodeSemver V] [SemverRange V] {s s' : StoreAddState V I B} {package : PackageVersion V I}
  {fuel : Nat}

omit [TarballLibs I B] in
theorem StoreAdder.mem_of_resolveAll {entries : List (Text × Text)}
    {packages : List (PackageVersion V I)} (h : adder.resolveAll entries = .ok packages)
    (p : PackageVersion V I) (hp : p ∈ packages) : p ∈ adder.registry.versions := by
  obtain ⟨d, -, hd⟩ := Results.exists_of_mem_mapM h hp
  exact Registry.resolve_mem_versions (Results.mapError_ok hd)

/-- A marked version is skipped. Any other is stored, and its dependencies after it. -/
theorem StoreAdder.storePackageAndDependencies_ok
    (h : adder.storePackageAndDependencies (fuel + 1) s package = .ok s') :
    (package.toVirtualStoreName ∈ s.resolvedPackages ∧ s' = s) ∨
      package.toVirtualStoreName ∉ s.resolvedPackages ∧ ∃ tarballs dependencies,
        adder.downloadTarball s.tarballs package = .ok tarballs ∧
        adder.resolveAll (package.dependenciesWith adder.config.autoInstallPeers) =
          .ok dependencies ∧
        dependencies.foldlM (adder.storePackageAndDependencies fuel) (s.store package tarballs) =
          .ok s' := by
  unfold StoreAdder.storePackageAndDependencies at h
  split at h
  · rename_i hmarked
    cases h
    exact Or.inl ⟨hmarked, rfl⟩
  · rename_i hnew
    obtain ⟨tarballs, hdownload, h⟩ := Results.bind_ok h
    obtain ⟨dependencies, hresolve, h⟩ := Results.bind_ok h
    exact Or.inr ⟨hnew, tarballs, dependencies, hdownload, hresolve, h⟩

/-- What each tarball step of an unmarked version preserves, the recursion preserves. -/
theorem StoreAdder.storePackageAndDependencies_invariant (inv : StoreAddState V I B → Prop)
    (hstep : ∀ s package tarballs, inv s → package ∈ adder.registry.versions →
      package.toVirtualStoreName ∉ s.resolvedPackages →
      adder.downloadTarball s.tarballs package = .ok tarballs → inv (s.store package tarballs))
    (h : adder.storePackageAndDependencies fuel s package = .ok s')
    (hknown : package ∈ adder.registry.versions) (hs : inv s) : inv s' := by
  induction fuel generalizing s s' package with
  | zero => cases h
  | succ fuel ih =>
      obtain ⟨-, rfl⟩ | ⟨hnew, tarballs, dependencies, hdownload, hresolve, hbelow⟩ :=
        StoreAdder.storePackageAndDependencies_ok h
      · exact hs
      · have hmarked := hstep s package tarballs hs hknown hnew hdownload
        refine Results.foldlM_invariant inv hbelow hmarked fun p hp s s' hs hround => ?_
        exact ih hround (StoreAdder.mem_of_resolveAll hresolve p hp) hs

theorem StoreAdd.runWith_invariant {add : StoreAdd V I B} {store : StoreFiles B}
    (inv : StoreAddState V I B → Prop)
    (hstep : ∀ s package tarballs, inv s → package ∈ add.registry.versions →
      package.toVirtualStoreName ∉ s.resolvedPackages →
      add.adder.downloadTarball s.tarballs package = .ok tarballs → inv (s.store package tarballs))
    (h : add.runWith fuel store = .ok s') (hstart : inv ⟨[], ⟨fun _ => none, store⟩, []⟩) :
    inv s' := by
  obtain ⟨roots, hroots, h⟩ := Results.bind_ok h
  refine Results.foldlM_invariant inv h hstart fun p hp s s' hs hround => ?_
  exact StoreAdder.storePackageAndDependencies_invariant inv hstep hround
    (StoreAdder.mem_of_resolveAll hroots p hp) hs

end Steps

section Fuel

variable {V I B : Type} [TarballLibs I B] [NodeSemver V] [SemverRange V] {adder : StoreAdder V I B}
  {s s' : StoreAddState V I B} {package : PackageVersion V I} {fuel : Nat}

omit [TarballLibs I B] [SemverRange V] in
/-- The number of versions that are not marked. -/
def StoreAdder.unmarked (adder : StoreAdder V I B) (s : StoreAddState V I B) : Nat :=
  adder.registry.versions.countP fun p => p.toVirtualStoreName ∉ s.resolvedPackages

/-- No mark is lost. -/
theorem StoreAdder.storePackageAndDependencies_marks
    (h : adder.storePackageAndDependencies fuel s package = .ok s')
    (hknown : package ∈ adder.registry.versions) :
    ∀ name ∈ s.resolvedPackages, name ∈ s'.resolvedPackages :=
  StoreAdder.storePackageAndDependencies_invariant
    (fun s' => ∀ name ∈ s.resolvedPackages, name ∈ s'.resolvedPackages)
    (fun _ _ _ hs _ _ _ name hname => List.mem_cons_of_mem _ (hs name hname)) h hknown
    fun _ hname => hname

omit [TarballLibs I B] [SemverRange V] in
theorem StoreAdder.unmarked_le (hmarks : ∀ name ∈ s.resolvedPackages, name ∈ s'.resolvedPackages) :
    adder.unmarked s' ≤ adder.unmarked s := by
  refine List.countP_mono_left fun p _ hp => ?_
  simp only [decide_eq_true_eq] at hp ⊢
  exact fun hname => hp (hmarks _ hname)

omit [TarballLibs I B] [SemverRange V] in
theorem StoreAdder.unmarked_lt (hknown : package ∈ adder.registry.versions)
    (hnew : package.toVirtualStoreName ∉ s.resolvedPackages) (tarballs : TarballState B) :
    adder.unmarked (s.store package tarballs) < adder.unmarked s := by
  refine DepthFirst.countP_lt_countP (fun p hp => ?_) hknown (by simpa using hnew)
    (by simp [StoreAddState.store])
  simp only [StoreAddState.store, List.mem_cons, not_or, decide_eq_true_eq] at hp ⊢
  exact hp.2

omit [NodeSemver V] [SemverRange V] in
theorem StoreAdder.downloadTarball_ne (s : TarballState B) (package : PackageVersion V I) :
    adder.downloadTarball s package ≠ .error .outOfFuel := by
  unfold StoreAdder.downloadTarball
  split
  · intro h
    cases h
  · refine Results.mapError_ne fun abort h => ?_
    cases h

omit [TarballLibs I B] in
theorem StoreAdder.resolveAll_ne (entries : List (Text × Text)) :
    adder.resolveAll entries ≠ .error .outOfFuel := by
  refine Results.mapM_ne fun d _ => Results.mapError_ne fun stop h => ?_
  cases h

/-- Fuel for every unmarked version is enough. -/
theorem StoreAdder.storePackageAndDependencies_ne (hfuel : adder.unmarked s < fuel)
    (hknown : package ∈ adder.registry.versions) :
    adder.storePackageAndDependencies fuel s package ≠ .error .outOfFuel := by
  induction fuel generalizing s package with
  | zero => exact absurd hfuel (Nat.not_lt_zero _)
  | succ fuel ih =>
      unfold StoreAdder.storePackageAndDependencies
      split
      · intro h
        cases h
      · rename_i hnew
        refine Results.bind_ne (StoreAdder.downloadTarball_ne _ _) fun tarballs _ => ?_
        refine Results.bind_ne (StoreAdder.resolveAll_ne _) fun dependencies hresolve => ?_
        have hless : adder.unmarked (s.store package tarballs) < fuel := by
          have hlt := StoreAdder.unmarked_lt hknown hnew tarballs
          omega
        refine Results.foldlM_ne (fun s => adder.unmarked s < fuel) hless ?_ ?_
        · exact fun p hp s hs => ih hs (StoreAdder.mem_of_resolveAll hresolve p hp)
        · intro p hp s s' hs hround
          have hle : adder.unmarked s' ≤ adder.unmarked s :=
            StoreAdder.unmarked_le (StoreAdder.storePackageAndDependencies_marks hround
              (StoreAdder.mem_of_resolveAll hresolve p hp))
          omega

theorem StoreAdd.runWith_ne (add : StoreAdd V I B) (store : StoreFiles B)
    (hfuel : add.registry.versions.length < fuel) :
    add.runWith fuel store ≠ .error .outOfFuel := by
  refine Results.bind_ne (StoreAdder.resolveAll_ne _) fun roots hroots => ?_
  refine Results.foldlM_ne (fun _ => True) trivial (fun p hp s _ => ?_) fun _ _ _ _ _ _ => trivial
  have hunmarked : add.adder.unmarked s ≤ add.registry.versions.length := List.countP_le_length
  exact StoreAdder.storePackageAndDependencies_ne (by omega)
    (StoreAdder.mem_of_resolveAll hroots p hp)

/-- More fuel changes no answer. -/
theorem StoreAdder.storePackageAndDependencies_extends (adder : StoreAdder V I B) (fuel : Nat)
    (s : StoreAddState V I B) (package : PackageVersion V I) :
    Results.Extends .outOfFuel (adder.storePackageAndDependencies fuel s package)
      (adder.storePackageAndDependencies (fuel + 1) s package) := by
  induction fuel generalizing s package with
  | zero => exact fun h => absurd rfl h
  | succ fuel ih =>
      rw [StoreAdder.storePackageAndDependencies, StoreAdder.storePackageAndDependencies]
      split
      · exact fun _ => rfl
      · refine Results.Extends.bind (fun _ => rfl) fun tarballs => ?_
        refine Results.Extends.bind (fun _ => rfl) fun dependencies => ?_
        exact Results.Extends.foldlM ih _ _

theorem StoreAdd.runWith_extends (add : StoreAdd V I B) (fuel : Nat) (store : StoreFiles B) :
    Results.Extends .outOfFuel (add.runWith fuel store) (add.runWith (fuel + 1) store) := by
  refine Results.Extends.bind (fun _ => rfl) fun roots => ?_
  exact Results.Extends.foldlM (add.adder.storePackageAndDependencies_extends fuel) _ _

/-- The fuel of `run` is enough, and any more gives the same. -/
theorem StoreAdd.runWith_eq_run (add : StoreAdd V I B) (store : StoreFiles B)
    (hfuel : add.registry.versions.length < fuel) : add.runWith fuel store = add.run store := by
  obtain ⟨more, rfl⟩ := Nat.exists_eq_add_of_le (Nat.succ_le_of_lt hfuel)
  clear hfuel
  induction more with
  | zero => rfl
  | succ more ih =>
      have hless : add.registry.versions.length <
          add.registry.versions.length.succ + more := by omega
      rw [← ih, ← Nat.add_assoc]
      exact add.runWith_extends _ store (add.runWith_ne store hless)

end Fuel

end Npnpm
