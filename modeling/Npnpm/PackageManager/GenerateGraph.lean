import Npnpm.Library.DepthFirst
import Npnpm.PackageManager.GenerateLockfile

/-!
# The graph behind a generated lockfile

Each version depends on the versions that its dependencies resolve to. Building
the snapshots walks this graph depth first: the keys of the map are those of the
versions found, and the flags under a key are met over all visits to it.

## Implementation notes

Two versions count as one when their dependency paths are `==`. The walk is
derived from a build that succeeds, so no statement here speaks of fuel.
-/

namespace Npnpm

open DepthFirst

/-- The flags that a package is visited with. -/
structure PackageFlags where
  dev : Bool
  optional : Bool
deriving DecidableEq

section Keys

variable {V I : Type} [NodeSemver V] [BEq V]

/-- The version is kept under a key that is `==` to the path. -/
def PackageVersion.HasPath (package : PackageVersion V I) (path : DependencyPath V) : Prop :=
  ∃ key, dependencyPath package = .ok key ∧ (key == path) = true

/-- Versions that are kept under one key are one version. -/
def Registry.KeysDistinct (registry : Registry V I) : Prop :=
  ∀ p ∈ registry.versions, ∀ q ∈ registry.versions, ∀ path,
    p.HasPath path → q.HasPath path → p = q

/-- Each version's own name is the name it is fetched under. -/
def Registry.NamedAsFetched (registry : Registry V I) : Prop :=
  ∀ e ∈ registry.entries, ∀ v ∈ e.2.versions.entries, v.2.name = e.1

instance (registry : Registry V I) : Decidable registry.NamedAsFetched :=
  inferInstanceAs (Decidable
    (∀ e ∈ registry.entries, ∀ v ∈ e.2.versions.entries, v.2.name = e.1))

theorem PackageVersion.hasPath_iff [EquivBEq V] {package : PackageVersion V I}
    {key : DependencyPath V} (hkey : dependencyPath package = .ok key) (path : DependencyPath V) :
    package.HasPath path ↔ (key == path) = true := by
  constructor
  · rintro ⟨key', hkey', hpath⟩
    rw [hkey] at hkey'
    rwa [Except.ok.inj hkey']
  · exact fun hpath => ⟨key, hkey, hpath⟩

end Keys

section Resolve

variable {V I : Type} [NodeSemver V] [SemverRange V]

/-- The dependencies that resolve, each with its version. -/
def LockfileBuilder.resolveAll (builder : LockfileBuilder V I)
    (dependencies : List (Text × Text)) : List (Text × PackageVersion V I) :=
  dependencies.filterMap fun d =>
    (builder.resolvePackageVersion d.1 d.2).toOption.map fun p => (d.1, p)

theorem LockfileBuilder.mem_resolveAll {builder : LockfileBuilder V I}
    {dependencies : List (Text × Text)} {e : Text × PackageVersion V I} :
    e ∈ builder.resolveAll dependencies ↔
      ∃ range, (e.1, range) ∈ dependencies ∧ builder.registry.resolve e.1 range = .ok e.2 := by
  simp only [LockfileBuilder.resolveAll, List.mem_filterMap, Prod.exists]
  constructor
  · rintro ⟨name, range, hmem, hresolve⟩
    obtain ⟨p, hp, rfl⟩ := Results.exists_of_toOption_map hresolve
    exact ⟨range, hmem, Results.mapError_ok hp⟩
  · rintro ⟨range, hmem, hresolve⟩
    refine ⟨e.1, range, hmem, ?_⟩
    rw [LockfileBuilder.resolvePackageVersion, hresolve]
    rfl

theorem LockfileBuilder.resolveAll_cons {builder : LockfileBuilder V I} {d : Text × Text}
    {p : PackageVersion V I} (h : builder.resolvePackageVersion d.1 d.2 = .ok p)
    (rest : List (Text × Text)) :
    builder.resolveAll (d :: rest) = (d.1, p) :: builder.resolveAll rest :=
  List.filterMap_cons_some (by rw [h]; rfl)

theorem LockfileBuilder.resolvePackageVersion_mem {builder : LockfileBuilder V I}
    {name range : Text} {p : PackageVersion V I}
    (h : builder.resolvePackageVersion name range = .ok p) : p ∈ builder.registry.versions :=
  Registry.resolve_mem_versions (Results.mapError_ok h)

end Resolve

section Graph

variable {V I : Type} [NodeSemver V] [BEq V] [SemverRange V]

/-- The edges of a version, labelled with whether they are optional. -/
def LockfileBuilder.graph (builder : LockfileBuilder V I) :
    Graph (PackageVersion V I) PackageFlags Bool where
  edges p := (builder.resolveAll (p.dependenciesWith builder.config.autoInstallPeers)).map
    fun e => (p.isOptional e.1, e.2)
  label flags optional := { flags with optional := flags.optional || optional }
  same p q := p = q ∨ p ∈ builder.registry.versions ∧ q ∈ builder.registry.versions ∧
    ∃ path, p.HasPath path ∧ q.HasPath path

/-- The versions of a group's entries, with the flags they are visited with. -/
def LockfileBuilder.rootGroup (builder : LockfileBuilder V I) (manifest : PackageManifest)
    (enabledGroups : List DependencyGroup) (group : DependencyGroup) :
    List (PackageFlags × PackageVersion V I) :=
  if group ∈ enabledGroups then
    (builder.resolveAll (manifest.dependencies [group])).map
      fun e => (⟨group = .dev, group = .optional⟩, e.2)
  else []

/-- The roots in the order of the three passes. -/
def GenerateLockfile.roots (generate : GenerateLockfile V I) :
    List (PackageFlags × PackageVersion V I) :=
  let group := generate.builder.rootGroup generate.manifest generate.dependencyGroups
  group .prod ++ group .optional ++ group .dev

/-- Where keys are distinct, versions count as one only if they are one. -/
theorem Registry.KeysDistinct.same_iff {builder : LockfileBuilder V I}
    (h : builder.registry.KeysDistinct) (p q : PackageVersion V I) :
    builder.graph.same p q ↔ p = q := by
  refine ⟨?_, Or.inl⟩
  rintro (hpq | ⟨hp, hq, path, hpath, hpath'⟩)
  · exact hpq
  · exact h p hp q hq path hpath hpath'

end Graph

section Steps

variable {V I : Type} [NodeSemver V] [BEq V] [SemverRange V] {builder : LockfileBuilder V I}

theorem LockfileBuilder.buildDependency_ok {build : BuildSnapshot V I}
    {package : PackageVersion V I} {dev optional : Bool}
    {state state' : SnapshotMap V I × KeyedMap PkgName (PackageSnapshotDependency V)}
    {dependency : Text × Text}
    (h : builder.buildDependency build package dev optional state dependency = .ok state') :
    ∃ child name specifier,
      builder.resolvePackageVersion dependency.1 dependency.2 = .ok child ∧
      parseName dependency.1 = .ok name ∧ packageSpecifier child = .ok specifier ∧
      build state.1 child dev (optional || package.isOptional dependency.1) = .ok state'.1 ∧
      state'.2 = state.2.insert name (.pkgVerPeer specifier.suffix) := by
  obtain ⟨child, hchild, h⟩ := Results.bind_ok h
  obtain ⟨name, hname, h⟩ := Results.bind_ok h
  obtain ⟨specifier, hspecifier, h⟩ := Results.bind_ok h
  obtain ⟨packages, hbuild, h⟩ := Results.bind_ok h
  cases h
  exact ⟨child, name, specifier, hchild, hname, hspecifier, hbuild, rfl⟩

/-- A package whose key is in the map has its flags merged. Any other is built
below its placeholder. -/
theorem LockfileBuilder.buildPackageSnapshot_ok {fuel : Nat} {packages packages' : SnapshotMap V I}
    {package : PackageVersion V I} {dev optional : Bool}
    (h : builder.buildPackageSnapshot (fuel + 1) packages package dev optional = .ok packages') :
    ∃ path, dependencyPath package = .ok path ∧
      (((packages.get path).isSome ∧
          packages' = packages.modify path (mergePackageFlags dev optional)) ∨
        (packages.get path = none ∧ ∃ resolution below dependencies,
          builder.resolution package = .ok resolution ∧
          (package.dependenciesWith builder.config.autoInstallPeers).foldlM
            (builder.buildDependency (builder.buildPackageSnapshot fuel) package dev optional)
            (packages.insert path (placeholder resolution dev optional), KeyedMap.empty) =
              .ok (below, dependencies) ∧
          packages' = below.modify path (completeSnapshot dependencies dev optional))) := by
  obtain ⟨path, hpath, h⟩ := Results.bind_ok h
  refine ⟨path, hpath, ?_⟩
  split at h
  · rename_i hsome
    cases h
    exact Or.inl ⟨hsome, rfl⟩
  · rename_i hnone
    obtain ⟨resolution, hresolution, h⟩ := Results.bind_ok h
    obtain ⟨⟨below, dependencies⟩, hbelow, h⟩ := Results.bind_ok h
    cases h
    exact Or.inr ⟨by simpa using hnone, resolution, below, dependencies, hresolution, hbelow, rfl⟩

theorem LockfileBuilder.buildRoot_ok {build : BuildSnapshot V I} {group : DependencyGroup}
    {state state' : SnapshotMap V I × ResolvedDependencyMap V} {dependency : Text × Text}
    (h : builder.buildRoot build group state dependency = .ok state') :
    ∃ package name resolved,
      builder.resolvePackageVersion dependency.1 dependency.2 = .ok package ∧
      parseName dependency.1 = .ok name ∧ packageSpecifier package = .ok resolved ∧
      build state.1 package (group = .dev) (group = .optional) = .ok state'.1 ∧
      state'.2 = state.2.insert name ⟨dependency.2, resolved.suffix⟩ := by
  obtain ⟨package, hpackage, h⟩ := Results.bind_ok h
  obtain ⟨resolved, hresolved, h⟩ := Results.bind_ok h
  obtain ⟨name, hname, h⟩ := Results.bind_ok h
  obtain ⟨packages, hbuild, h⟩ := Results.bind_ok h
  cases h
  exact ⟨package, name, resolved, hpackage, hname, hresolved, hbuild, rfl⟩

theorem LockfileBuilder.buildRootGroup_ok {fuel : Nat} {manifest : PackageManifest}
    {enabledGroups : List DependencyGroup} {group : DependencyGroup}
    {packages packages' : SnapshotMap V I} {dependencies : Option (ResolvedDependencyMap V)}
    (h : builder.buildRootGroup fuel manifest enabledGroups group packages =
      .ok (packages', dependencies)) :
    (group ∉ enabledGroups ∧ packages' = packages ∧ dependencies = none) ∨
      (group ∈ enabledGroups ∧ ∃ resolved,
        (manifest.dependencies [group]).foldlM
          (builder.buildRoot (builder.buildPackageSnapshot fuel) group)
          (packages, KeyedMap.empty) = .ok (packages', resolved) ∧
        dependencies = recorded resolved) := by
  unfold LockfileBuilder.buildRootGroup at h
  split at h
  · rename_i hgroup
    obtain ⟨⟨_, resolved⟩, hfold, h⟩ := Results.bind_ok h
    cases h
    exact Or.inr ⟨hgroup, resolved, hfold, rfl⟩
  · rename_i hgroup
    cases h
    exact Or.inl ⟨hgroup, rfl, rfl⟩

/-- The groups of a run, and what its lockfile holds. -/
theorem GenerateLockfile.runWith_ok {generate : GenerateLockfile V I} {fuel : Nat}
    {lockfile : Lockfile V I} (h : generate.runWith fuel = .ok lockfile) :
    ∃ packages₁ packages₂ packages dependencies optionalDependencies devDependencies,
      let group := generate.builder.buildRootGroup fuel generate.manifest
        generate.dependencyGroups
      group .prod .empty = .ok (packages₁, dependencies) ∧
      group .optional packages₁ = .ok (packages₂, optionalDependencies) ∧
      group .dev packages₂ = .ok (packages, devDependencies) ∧
      lockfile.projectSnapshot =
        .single ⟨none, dependencies, optionalDependencies, devDependencies, none, none⟩ ∧
      lockfile.packages = recorded packages := by
  obtain ⟨⟨packages₁, dependencies⟩, h₁, h⟩ := Results.bind_ok h
  obtain ⟨⟨packages₂, optionalDependencies⟩, h₂, h⟩ := Results.bind_ok h
  obtain ⟨⟨packages, devDependencies⟩, h₃, h⟩ := Results.bind_ok h
  cases h
  exact ⟨_, _, _, _, _, _, h₁, h₂, h₃, rfl, rfl⟩

end Steps

section Flags

variable {V I : Type}

/-- Which of the two flags. -/
inductive PackageFlag
  | dev
  | optional

def PackageFlag.ofFlags (flag : PackageFlag) (flags : PackageFlags) : Bool :=
  match flag with
  | .dev => flags.dev
  | .optional => flags.optional

def PackageFlag.ofSnapshot (flag : PackageFlag) (snapshot : PackageSnapshot V I) : Option Bool :=
  match flag with
  | .dev => snapshot.dev
  | .optional => snapshot.optional

/-- Both flags are met with the given ones. -/
def MergesFlags (flags : PackageFlags) (f : PackageSnapshot V I → PackageSnapshot V I) : Prop :=
  ∀ flag snapshot, PackageFlag.ofSnapshot flag (f snapshot) =
    some ((flag.ofSnapshot snapshot).getD true && flag.ofFlags flags)

theorem mergesFlags_mergePackageFlags (dev optional : Bool) :
    MergesFlags ⟨dev, optional⟩ (mergePackageFlags (V := V) (I := I) dev optional) := by
  intro flag snapshot
  cases flag <;> rfl

theorem mergesFlags_completeSnapshot
    (dependencies : KeyedMap PkgName (PackageSnapshotDependency V)) (dev optional : Bool) :
    MergesFlags ⟨dev, optional⟩
      (completeSnapshot (V := V) (I := I) dependencies dev optional) := by
  intro flag snapshot
  cases flag <;> rfl

variable [BEq V]

/-- The flag under a key; true where there is no package yet. -/
def flagAt (flag : PackageFlag) (packages : SnapshotMap V I) (path : DependencyPath V) : Bool :=
  ((packages.get path).bind flag.ofSnapshot).getD true

variable [NodeSemver V]

/-- The flags after some visits are the flags before, met with those of the visits. -/
def MetOver (packages : SnapshotMap V I) (visits : List (PackageFlags × PackageVersion V I))
    (packages' : SnapshotMap V I) : Prop :=
  ∀ flag path, flagAt flag packages' path = true ↔
    flagAt flag packages path = true ∧
      ∀ v ∈ visits, v.2.HasPath path → flag.ofFlags v.1 = true

theorem MetOver.refl (packages : SnapshotMap V I) : MetOver packages [] packages := by
  intro flag path
  simp

theorem MetOver.trans {packages packages₁ packages₂ : SnapshotMap V I}
    {visits₁ visits₂ : List (PackageFlags × PackageVersion V I)}
    (h₁ : MetOver packages visits₁ packages₁) (h₂ : MetOver packages₁ visits₂ packages₂) :
    MetOver packages (visits₁ ++ visits₂) packages₂ := by
  intro flag path
  rw [h₂, h₁, and_assoc]
  simp only [List.mem_append, or_imp, forall_and]

theorem MetOver.congr {packages packages' : SnapshotMap V I}
    {visits visits' : List (PackageFlags × PackageVersion V I)}
    (h : MetOver packages visits packages') (hvisits : ∀ v, v ∈ visits ↔ v ∈ visits') :
    MetOver packages visits' packages' := by
  intro flag path
  simp only [h flag path, hvisits]

theorem metOver_insert [EquivBEq V] {packages : SnapshotMap V I} {package : PackageVersion V I}
    {key : DependencyPath V} (hkey : dependencyPath package = .ok key)
    (hnone : packages.get key = none) (resolution : LockfileResolution I) (dev optional : Bool) :
    MetOver packages [(⟨dev, optional⟩, package)]
      (packages.insert key (placeholder resolution dev optional)) := by
  intro flag path
  simp only [List.mem_singleton, forall_eq, PackageVersion.hasPath_iff hkey, flagAt,
    KeyedMap.get_insert]
  by_cases hpath : (key == path) = true
  · rw [← KeyedMap.get_congr packages hpath, hnone, if_pos hpath]
    cases flag <;> simp [hpath, placeholder, PackageFlag.ofSnapshot, PackageFlag.ofFlags]
  · simp [hpath]

theorem metOver_modify [EquivBEq V] {packages : SnapshotMap V I} {package : PackageVersion V I}
    {flags : PackageFlags} {key : DependencyPath V} {f : PackageSnapshot V I → PackageSnapshot V I}
    (hkey : dependencyPath package = .ok key) (hsome : (packages.get key).isSome)
    (hf : MergesFlags flags f) : MetOver packages [(flags, package)] (packages.modify key f) := by
  intro flag path
  simp only [List.mem_singleton, forall_eq, PackageVersion.hasPath_iff hkey, flagAt,
    KeyedMap.get_modify]
  by_cases hpath : (key == path) = true
  · obtain ⟨snapshot, hsnapshot⟩ := Option.isSome_iff_exists.mp hsome
    rw [← KeyedMap.get_congr packages hpath, hsnapshot, if_pos (BEq.symm hpath)]
    simp [hf flag snapshot, hpath]
  · have hpath' : ¬ (path == key) = true := fun h => hpath (BEq.symm h)
    simp [hpath, hpath']

end Flags

section Walk

variable {V I : Type} [NodeSemver V] [BEq V] {builder : LockfileBuilder V I}

/-- The keys of the map are those of the seen versions. -/
structure Represents (builder : LockfileBuilder V I) (packages : SnapshotMap V I)
    (seen : List (PackageVersion V I)) : Prop where
  keys : ∀ path, (packages.get path).isSome ↔ ∃ p ∈ seen, p.HasPath path
  known : ∀ p ∈ seen, p ∈ builder.registry.versions
  marked : ∀ path snapshot, packages.get path = some snapshot →
    ∀ flag, (PackageFlag.ofSnapshot flag snapshot).isSome

theorem represents_empty : Represents builder KeyedMap.empty [] where
  keys path := by simp [KeyedMap.get]
  known p hp := by cases hp
  marked path snapshot h := by simp [KeyedMap.get] at h

theorem Represents.congr {packages : SnapshotMap V I} {seen seen' : List (PackageVersion V I)}
    (h : Represents builder packages seen) (hseen : ∀ p, p ∈ seen ↔ p ∈ seen') :
    Represents builder packages seen' where
  keys path := by simp only [h.keys, hseen]
  known p hp := h.known p ((hseen p).mpr hp)
  marked := h.marked

/-- Merging flags under a key keeps what is represented. -/
theorem Represents.modify [EquivBEq V] {packages : SnapshotMap V I}
    {seen : List (PackageVersion V I)} (h : Represents builder packages seen)
    {flags : PackageFlags} {f : PackageSnapshot V I → PackageSnapshot V I}
    (hf : MergesFlags flags f) (key : DependencyPath V) :
    Represents builder (packages.modify key f) seen where
  keys path := by
    rw [← h.keys, KeyedMap.get_modify]
    split <;> simp
  known := h.known
  marked path snapshot hsnapshot flag := by
    rw [KeyedMap.get_modify] at hsnapshot
    split at hsnapshot
    · obtain ⟨before, -, rfl⟩ := Option.map_eq_some_iff.mp hsnapshot
      rw [hf flag before]
      rfl
    · exact h.marked path snapshot hsnapshot flag

theorem Represents.insert [EquivBEq V] {packages : SnapshotMap V I}
    {seen : List (PackageVersion V I)} (h : Represents builder packages seen)
    {package : PackageVersion V I} {key : DependencyPath V}
    (hkey : dependencyPath package = .ok key) (hknown : package ∈ builder.registry.versions)
    (resolution : LockfileResolution I) (dev optional : Bool) :
    Represents builder (packages.insert key (placeholder resolution dev optional))
      (package :: seen) where
  keys path := by
    rw [KeyedMap.get_insert]
    simp only [List.mem_cons, exists_eq_or_imp, PackageVersion.hasPath_iff hkey, ← h.keys]
    split <;> simp_all
  known p hp := by
    rcases List.mem_cons.mp hp with rfl | hp
    · exact hknown
    · exact h.known p hp
  marked path snapshot hsnapshot flag := by
    rw [KeyedMap.get_insert] at hsnapshot
    split at hsnapshot
    · cases hsnapshot
      cases flag <;> rfl
    · exact h.marked path snapshot hsnapshot flag

variable [SemverRange V]

/-- The key of a version is in the map exactly when the version counts as a seen one. -/
theorem Represents.exists_same_iff [EquivBEq V] {packages : SnapshotMap V I}
    {seen : List (PackageVersion V I)} (h : Represents builder packages seen)
    {package : PackageVersion V I} {key : DependencyPath V}
    (hkey : dependencyPath package = .ok key) (hknown : package ∈ builder.registry.versions) :
    (∃ s ∈ seen, builder.graph.same s package) ↔ (packages.get key).isSome := by
  have hself : package.HasPath key := ⟨key, hkey, BEq.refl key⟩
  rw [h.keys]
  constructor
  · rintro ⟨s, hs, rfl | ⟨-, -, path, hpath, hpath'⟩⟩
    · exact ⟨s, hs, hself⟩
    · obtain ⟨k, hk, hkpath⟩ := hpath
      rw [PackageVersion.hasPath_iff hkey] at hpath'
      exact ⟨s, hs, k, hk, BEq.trans hkpath (BEq.symm hpath')⟩
  · rintro ⟨s, hs, hpath⟩
    exact ⟨s, hs, Or.inr ⟨h.known s hs, hknown, key, hpath, hself⟩⟩

/-- A build of the given depth that succeeds is a walk. -/
def BuildWalks (builder : LockfileBuilder V I) (build : BuildSnapshot V I) : Prop :=
  ∀ {packages packages' : SnapshotMap V I} {package : PackageVersion V I} {dev optional : Bool}
    {seen : List (PackageVersion V I)},
    build packages package dev optional = .ok packages' →
    Represents builder packages seen → package ∈ builder.registry.versions →
    ∃ visits found, Walk builder.graph seen [(⟨dev, optional⟩, package)] visits found ∧
      Represents builder packages' (found.map Prod.snd ++ seen) ∧
      MetOver packages visits packages'

/-- The loop over dependencies walks along the versions they resolve to. -/
theorem BuildWalks.foldlM {build : BuildSnapshot V I} (hbuild : BuildWalks builder build)
    {R : Type}
    {step : SnapshotMap V I × R → Text × Text → Except GenerateStop (SnapshotMap V I × R)}
    (flags : Text → PackageFlags)
    (hstep : ∀ {s s' d}, step s d = .ok s' →
      ∃ p, builder.resolvePackageVersion d.1 d.2 = .ok p ∧
        build s.1 p (flags d.1).dev (flags d.1).optional = .ok s'.1)
    {dependencies : List (Text × Text)} {s s' : SnapshotMap V I × R}
    {seen : List (PackageVersion V I)} (h : dependencies.foldlM step s = .ok s')
    (hs : Represents builder s.1 seen) :
    ∃ visits found,
      Walk builder.graph seen
        ((builder.resolveAll dependencies).map fun e => (flags e.1, e.2)) visits found ∧
      Represents builder s'.1 (found.map Prod.snd ++ seen) ∧ MetOver s.1 visits s'.1 := by
  induction dependencies generalizing s seen with
  | nil =>
      cases h
      exact ⟨[], [], .nil, hs, .refl _⟩
  | cons d rest ih =>
      rw [List.foldlM_cons] at h
      obtain ⟨s₁, h₁, h⟩ := Results.bind_ok h
      obtain ⟨p, hp, hs₁⟩ := hstep h₁
      obtain ⟨v₁, f₁, hwalk₁, hrep₁, hmet₁⟩ :=
        hbuild hs₁ hs (LockfileBuilder.resolvePackageVersion_mem hp)
      obtain ⟨v₂, f₂, hwalk₂, hrep₂, hmet₂⟩ := ih h hrep₁
      refine ⟨v₁ ++ v₂, f₁ ++ f₂, ?_, hrep₂.congr fun q => ?_, hmet₁.trans hmet₂⟩
      · rw [LockfileBuilder.resolveAll_cons hp, List.map_cons]
        exact hwalk₁.append hwalk₂
      · simp only [List.map_append, List.mem_append]
        tauto

theorem buildWalks_buildPackageSnapshot [EquivBEq V] (fuel : Nat) :
    BuildWalks builder (builder.buildPackageSnapshot fuel) := by
  induction fuel with
  | zero => exact fun h => nomatch h
  | succ fuel ih =>
      intro packages packages' package dev optional seen h hrep hknown
      obtain ⟨key, hkey, ⟨hsome, rfl⟩ | ⟨hnone, resolution, below, dependencies, -, hbelow, rfl⟩⟩ :=
        LockfileBuilder.buildPackageSnapshot_ok h
      · have hseen := (hrep.exists_same_iff hkey hknown).mpr hsome
        have hmerge := mergesFlags_mergePackageFlags (V := V) (I := I) dev optional
        exact ⟨_, _, .again hseen .nil, hrep.modify hmerge key, metOver_modify hkey hsome hmerge⟩
      · have hnew : ∀ s ∈ seen, ¬ builder.graph.same s package := by
          intro s hs hsame
          have hsome := (hrep.exists_same_iff hkey hknown).mp ⟨s, hs, hsame⟩
          rw [hnone] at hsome
          cases hsome
        obtain ⟨v, f, hwalk, hrep', hmet⟩ := ih.foldlM
          (fun name => ⟨dev, optional || package.isOptional name⟩)
          (fun hround => by
            obtain ⟨child, -, -, hchild, -, -, hround, -⟩ :=
              LockfileBuilder.buildDependency_ok hround
            exact ⟨child, hchild, hround⟩)
          hbelow (hrep.insert hkey hknown resolution dev optional)
        have hsuccessors : builder.graph.successors (⟨dev, optional⟩, package) =
            (builder.resolveAll (package.dependenciesWith builder.config.autoInstallPeers)).map
              fun e => (⟨dev, optional || package.isOptional e.1⟩, e.2) := by
          simp only [Graph.successors, LockfileBuilder.graph, List.map_map]
          rfl
        have hsome : (below.get key).isSome :=
          (hrep'.keys key).mpr ⟨package, by simp, key, hkey, BEq.refl key⟩
        have hmerge := mergesFlags_completeSnapshot (I := I) dependencies dev optional
        refine ⟨_, _, .fresh hnew (hsuccessors ▸ hwalk) .nil,
          (hrep'.modify hmerge key).congr fun q => ?_, MetOver.congr
            (((metOver_insert hkey hnone resolution dev optional).trans hmet).trans
              (metOver_modify hkey hsome hmerge)) fun x => ?_⟩
        · simp only [List.append_nil, List.map_cons, List.cons_append, List.mem_append,
            List.mem_cons]
          tauto
        · simp only [List.append_nil, List.mem_append, List.mem_cons, List.not_mem_nil]
          tauto

theorem LockfileBuilder.buildRootGroup_walk [EquivBEq V] {fuel : Nat} {manifest : PackageManifest}
    {enabledGroups : List DependencyGroup} {group : DependencyGroup}
    {packages packages' : SnapshotMap V I} {dependencies : Option (ResolvedDependencyMap V)}
    {seen : List (PackageVersion V I)}
    (h : builder.buildRootGroup fuel manifest enabledGroups group packages =
      .ok (packages', dependencies))
    (hrep : Represents builder packages seen) :
    ∃ visits found,
      Walk builder.graph seen (builder.rootGroup manifest enabledGroups group) visits found ∧
      Represents builder packages' (found.map Prod.snd ++ seen) ∧
      MetOver packages visits packages' := by
  obtain ⟨hgroup, rfl, -⟩ | ⟨hgroup, resolved, hfold, -⟩ := LockfileBuilder.buildRootGroup_ok h
  · rw [LockfileBuilder.rootGroup, if_neg hgroup]
    exact ⟨[], [], .nil, hrep, .refl _⟩
  · rw [LockfileBuilder.rootGroup, if_pos hgroup]
    refine BuildWalks.foldlM (buildWalks_buildPackageSnapshot fuel)
      (fun _ => ⟨group = .dev, group = .optional⟩) (fun hround => ?_) hfold hrep
    obtain ⟨package, -, -, hpackage, -, -, hround, -⟩ := LockfileBuilder.buildRoot_ok hround
    exact ⟨package, hpackage, hround⟩

end Walk

section Run

variable {V I : Type} [BEq V]

def Lockfile.snapshotAt (lockfile : Lockfile V I) (path : DependencyPath V) :
    Option (PackageSnapshot V I) :=
  lockfile.packages.bind fun packages => packages.get path

theorem bind_recorded {K W : Type} [BEq K] (m : KeyedMap K W) (k : K) :
    ((recorded m).bind fun m => m.get k) = m.get k := by
  unfold recorded
  split
  · rename_i hempty
    rw [KeyedMap.isEmpty, List.isEmpty_iff] at hempty
    simp [KeyedMap.get, hempty]
  · rfl

theorem Lockfile.snapshotAt_eq {lockfile : Lockfile V I} {packages : SnapshotMap V I}
    (h : lockfile.packages = recorded packages) (path : DependencyPath V) :
    lockfile.snapshotAt path = packages.get path := by
  rw [Lockfile.snapshotAt, h]
  exact bind_recorded packages path

variable [NodeSemver V] [SemverRange V]

/-- The walk that a generated lockfile records. -/
structure RecordsWalk (generate : GenerateLockfile V I) (lockfile : Lockfile V I)
    (visits found : List (PackageFlags × PackageVersion V I)) : Prop where
  walk : Walk generate.builder.graph [] generate.roots visits found
  keys : ∀ path, (lockfile.snapshotAt path).isSome ↔ ∃ v ∈ found, v.2.HasPath path
  flags : ∀ path snapshot, lockfile.snapshotAt path = some snapshot → ∀ flag,
    ∃ b, PackageFlag.ofSnapshot flag snapshot = some b ∧
      (b = true ↔ ∀ v ∈ visits, v.2.HasPath path → flag.ofFlags v.1 = true)

theorem GenerateLockfile.runWith_walk [EquivBEq V] {generate : GenerateLockfile V I} {fuel : Nat}
    {lockfile : Lockfile V I} (h : generate.runWith fuel = .ok lockfile) :
    ∃ visits found, RecordsWalk generate lockfile visits found := by
  obtain ⟨_, _, packages, _, _, _, h₁, h₂, h₃, -, hpackages⟩ := GenerateLockfile.runWith_ok h
  obtain ⟨v₁, f₁, hwalk₁, hrep₁, hmet₁⟩ :=
    LockfileBuilder.buildRootGroup_walk h₁ represents_empty
  obtain ⟨v₂, f₂, hwalk₂, hrep₂, hmet₂⟩ := LockfileBuilder.buildRootGroup_walk h₂ hrep₁
  obtain ⟨v₃, f₃, hwalk₃, hrep₃, hmet₃⟩ := LockfileBuilder.buildRootGroup_walk h₃ hrep₂
  have hat := Lockfile.snapshotAt_eq hpackages
  have hmet := (hmet₁.trans hmet₂).trans hmet₃
  have hrep : Represents generate.builder packages ((f₁ ++ f₂ ++ f₃).map Prod.snd) :=
    hrep₃.congr fun x => by
      simp only [List.append_nil, List.map_append, List.mem_append]
      tauto
  refine ⟨v₁ ++ v₂ ++ v₃, f₁ ++ f₂ ++ f₃, (hwalk₁.append hwalk₂).append ?_, ?_, ?_⟩
  · refine hwalk₃.congr fun x => ?_
    simp only [List.append_nil, List.map_append, List.mem_append]
    exact or_comm
  · intro path
    rw [hat, hrep.keys]
    simp only [List.mem_map, exists_exists_and_eq_and]
  · intro path snapshot hsnapshot flag
    rw [hat] at hsnapshot
    obtain ⟨b, hb⟩ := Option.isSome_iff_exists.mp (hrep₃.marked path snapshot hsnapshot flag)
    have hflag := hmet flag path
    rw [flagAt, hsnapshot, Option.bind_some, hb, Option.getD_some] at hflag
    refine ⟨b, hb, hflag.trans (and_iff_right ?_)⟩
    simp [flagAt, KeyedMap.get]

end Run

end Npnpm
