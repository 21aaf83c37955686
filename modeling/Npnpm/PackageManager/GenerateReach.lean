import Npnpm.PackageManager.GenerateTermination
import Npnpm.Registry.CoreRange

/-!
# What a generated lockfile holds

The packages of a generated lockfile are those that the entries of the selected
groups lead to, and whatever an entry or a dependency names is one of them.

## Implementation notes

Versions that differ in build metadata only are `==` and share a key. The one
found first takes it, and the dependencies of the others are never looked at.
-/

namespace Npnpm

open DepthFirst

section Reaches

variable {V I : Type} [NodeSemver V] [SemverRange V]

/-- A version that the entries of some selected groups lead to along some edges. -/
inductive GenerateLockfile.Reaches (generate : GenerateLockfile V I)
    (rootOf : DependencyGroup → Prop) (edgeOf : Bool → Prop) : PackageVersion V I → Prop
  | root {group name specifier p} (hgroup : group ∈ generate.dependencyGroups)
      (hroot : rootOf group)
      (hentry : (name, specifier) ∈ generate.manifest.groupDependencies group)
      (hresolve : generate.registry.resolve name specifier = .ok p) :
      Reaches generate rootOf edgeOf p
  | dependency {p name versionRange q} (h : Reaches generate rootOf edgeOf p)
      (hentry : (name, versionRange) ∈ p.dependenciesWith generate.config.autoInstallPeers)
      (hedge : edgeOf (p.isOptional name))
      (hresolve : generate.registry.resolve name versionRange = .ok q) :
      Reaches generate rootOf edgeOf q

/-- A version that the entries of the selected groups of a lockfile lead to. -/
def GenerateLockfile.Reachable (generate : GenerateLockfile V I) :
    PackageVersion V I → Prop :=
  generate.Reaches (· ≠ .peer) fun _ => True

theorem LockfileBuilder.mem_rootGroup {builder : LockfileBuilder V I} {manifest : PackageManifest}
    {enabledGroups : List DependencyGroup} {group : DependencyGroup} {flags : PackageFlags}
    {p : PackageVersion V I} :
    (flags, p) ∈ builder.rootGroup manifest enabledGroups group ↔
      group ∈ enabledGroups ∧ flags = ⟨group = .dev, group = .optional⟩ ∧
        ∃ name specifier, (name, specifier) ∈ manifest.groupDependencies group ∧
          builder.registry.resolve name specifier = .ok p := by
  rw [LockfileBuilder.rootGroup]
  split
  · rename_i hgroup
    simp only [List.mem_map, LockfileBuilder.mem_resolveAll, PackageManifest.dependencies,
      List.flatMap_cons, List.flatMap_nil, List.append_nil, Prod.exists, Prod.mk.injEq, hgroup,
      true_and]
    constructor
    · rintro ⟨name, q, ⟨specifier, hmem, hresolve⟩, rfl, rfl⟩
      exact ⟨rfl, name, specifier, hmem, hresolve⟩
    · rintro ⟨rfl, name, specifier, hmem, hresolve⟩
      exact ⟨name, p, ⟨specifier, hmem, hresolve⟩, rfl, rfl⟩
  · rename_i hgroup
    simp [hgroup]

theorem GenerateLockfile.mem_roots {generate : GenerateLockfile V I}
    {a : PackageFlags × PackageVersion V I} :
    a ∈ generate.roots ↔ ∃ group, group ≠ .peer ∧
      a ∈ generate.builder.rootGroup generate.manifest generate.dependencyGroups group := by
  simp only [GenerateLockfile.roots, List.mem_append]
  constructor
  · rintro ((h | h) | h)
    · exact ⟨.prod, by simp, h⟩
    · exact ⟨.optional, by simp, h⟩
    · exact ⟨.dev, by simp, h⟩
  · rintro ⟨group, hpeer, h⟩
    cases group with
    | prod => exact Or.inl (Or.inl h)
    | optional => exact Or.inl (Or.inr h)
    | dev => exact Or.inr h
    | peer => exact absurd rfl hpeer

variable [BEq V]

theorem LockfileBuilder.mem_successors {builder : LockfileBuilder V I}
    {a b : PackageFlags × PackageVersion V I} :
    b ∈ builder.graph.successors a ↔ ∃ name versionRange,
      (name, versionRange) ∈ a.2.dependenciesWith builder.config.autoInstallPeers ∧
      builder.registry.resolve name versionRange = .ok b.2 ∧
      b.1 = builder.graph.label a.1 (a.2.isOptional name) := by
  simp only [Graph.successors, LockfileBuilder.graph, List.mem_map, Prod.exists,
    LockfileBuilder.mem_resolveAll]
  constructor
  · rintro ⟨_, q, ⟨name, _, ⟨versionRange, hentry, hresolve⟩, heq⟩, rfl⟩
    cases heq
    exact ⟨name, versionRange, hentry, hresolve, rfl⟩
  · rintro ⟨name, versionRange, hentry, hresolve, hflags⟩
    exact ⟨_, b.2, ⟨name, b.2, ⟨versionRange, hentry, hresolve⟩, rfl⟩, by rw [← hflags]⟩

/-- What is reached along some edges is at the end of a way with good flags, where
the flags stay good along these edges only. -/
theorem GenerateLockfile.reaches_iff_way {generate : GenerateLockfile V I}
    {rootOf : DependencyGroup → Prop} {edgeOf : Bool → Prop} (good : PackageFlags → Prop)
    (hroot : ∀ group, rootOf group ↔ group ≠ .peer ∧ good ⟨group = .dev, group = .optional⟩)
    (hedge : ∀ flags optional,
      good (generate.builder.graph.label flags optional) ↔ good flags ∧ edgeOf optional)
    (p : PackageVersion V I) :
    generate.Reaches rootOf edgeOf p ↔
      ∃ flags, good flags ∧ Way generate.builder.graph generate.roots (flags, p) := by
  constructor
  · intro h
    induction h with
    | @root group name specifier p hgroup hselected hentry hresolve =>
        obtain ⟨hpeer, hgood⟩ := (hroot group).mp hselected
        refine ⟨_, hgood, .start (GenerateLockfile.mem_roots.mpr ⟨group, hpeer, ?_⟩)⟩
        exact LockfileBuilder.mem_rootGroup.mpr ⟨hgroup, rfl, name, specifier, hentry, hresolve⟩
    | @dependency p name versionRange q _ hentry hoptional hresolve ih =>
        obtain ⟨flags, hgood, hway⟩ := ih
        refine ⟨_, (hedge flags _).mpr ⟨hgood, hoptional⟩, hway.step ?_⟩
        exact LockfileBuilder.mem_successors.mpr ⟨name, versionRange, hentry, hresolve, rfl⟩
  · rintro ⟨flags, hgood, hway⟩
    generalize ha : (flags, p) = a at hway
    induction hway generalizing flags p with
    | start hstart =>
        subst ha
        obtain ⟨group, hpeer, hmem⟩ := GenerateLockfile.mem_roots.mp hstart
        obtain ⟨hgroup, rfl, name, specifier, hentry, hresolve⟩ :=
          LockfileBuilder.mem_rootGroup.mp hmem
        exact .root hgroup ((hroot group).mpr ⟨hpeer, hgood⟩) hentry hresolve
    | @step b c _ hc ih =>
        subst ha
        obtain ⟨name, versionRange, hentry, hresolve, rfl⟩ :=
          LockfileBuilder.mem_successors.mp hc
        obtain ⟨hgood, hoptional⟩ := (hedge b.1 _).mp hgood
        exact .dependency (ih b.2 b.1 hgood rfl) hentry hoptional hresolve

theorem GenerateLockfile.reachable_iff_way {generate : GenerateLockfile V I}
    (p : PackageVersion V I) :
    generate.Reachable p ↔ ∃ flags, Way generate.builder.graph generate.roots (flags, p) := by
  refine (GenerateLockfile.reaches_iff_way (fun _ => True) ?_ ?_ p).trans ?_
  · exact fun group => (and_iff_left trivial).symm
  · exact fun _ _ => (and_iff_left trivial).symm
  · exact exists_congr fun flags => and_iff_right trivial

end Reaches

section Named

variable {V I : Type} [NodeSemver V] [SemverRange V] {builder : LockfileBuilder V I}

/-- What is resolved under a name has the key that the name and its version form. -/
theorem Registry.NamedAsFetched.dependencyPath_eq (h : builder.registry.NamedAsFetched)
    {text versionRange : Text} {p : PackageVersion V I} {name : PkgName}
    {specifier : PkgNameVerPeer V}
    (hresolve : builder.resolvePackageVersion text versionRange = .ok p)
    (hname : parseName text = .ok name) (hspecifier : packageSpecifier p = .ok specifier) :
    dependencyPath p = .ok ⟨none, ⟨name, specifier.suffix⟩⟩ := by
  obtain ⟨package, hpackage, key, hkey⟩ := Registry.resolve_mem (Results.mapError_ok hresolve)
  have hown : p.name = text := h _ (KeyedMap.get_eq_some_iff.mp hpackage) _ hkey
  have hbind := hspecifier
  obtain ⟨own, hparse, hbind⟩ := Results.bind_ok hbind
  obtain ⟨version, -, hbind⟩ := Results.bind_ok hbind
  rw [hown, hname] at hparse
  cases hparse
  cases hbind
  rw [dependencyPath, hspecifier]
  rfl

end Named

section Names

variable {V I : Type} [BEq V]

/-- Every recorded dependency names a key of the map. -/
def NamedIn (packages : SnapshotMap V I)
    (dependencies : KeyedMap PkgName (PackageSnapshotDependency V)) : Prop :=
  ∀ e ∈ dependencies.entries, ∃ version, e.2 = .pkgVerPeer version ∧
    (packages.get ⟨none, ⟨e.1, version⟩⟩).isSome

/-- The snapshots of a map record keys of the map only. -/
def EdgesNamed (packages : SnapshotMap V I) : Prop :=
  ∀ path snapshot dependencies, packages.get path = some snapshot →
    snapshot.dependencies = some dependencies → NamedIn packages dependencies

/-- The entries of the project and the recorded dependencies name packages. -/
structure Lockfile.NamesPackages (lockfile : Lockfile V I) : Prop where
  roots : ∃ project, lockfile.projectSnapshot = .single project ∧
    ∀ e ∈ project.dependenciesByGroups [.prod, .optional, .dev],
      (lockfile.snapshotAt ⟨none, ⟨e.1, e.2.version⟩⟩).isSome
  edges : ∀ path snapshot dependencies, lockfile.snapshotAt path = some snapshot →
    snapshot.dependencies = some dependencies → ∀ e ∈ dependencies.entries,
      ∃ version, e.2 = .pkgVerPeer version ∧
        (lockfile.snapshotAt ⟨none, ⟨e.1, version⟩⟩).isSome

theorem NamedIn.mono {packages packages' : SnapshotMap V I}
    {dependencies : KeyedMap PkgName (PackageSnapshotDependency V)}
    (h : NamedIn packages dependencies) (hkeys : KeepsKeys packages packages') :
    NamedIn packages' dependencies := by
  intro e he
  obtain ⟨version, hversion, hsome⟩ := h e he
  exact ⟨version, hversion, hkeys _ hsome⟩

theorem namedIn_empty (packages : SnapshotMap V I) : NamedIn packages KeyedMap.empty :=
  fun _ he => nomatch he

theorem NamedIn.insert {packages : SnapshotMap V I}
    {dependencies : KeyedMap PkgName (PackageSnapshotDependency V)}
    (h : NamedIn packages dependencies) {name : PkgName} {version : PkgVerPeer V}
    (hsome : (packages.get ⟨none, ⟨name, version⟩⟩).isSome) :
    NamedIn packages (dependencies.insert name (.pkgVerPeer version)) := by
  intro e he
  rcases KeyedMap.mem_entries_insert he with rfl | he
  · exact ⟨version, rfl, hsome⟩
  · exact h e he

theorem of_recorded_eq_some {K W : Type} [BEq K] {m m' : KeyedMap K W}
    (h : recorded m = some m') : m' = m := by
  unfold recorded at h
  split at h
  · cases h
  · exact (Option.some.inj h).symm

theorem edgesNamed_empty : EdgesNamed (KeyedMap.empty : SnapshotMap V I) :=
  fun _ _ _ h => nomatch h

variable [EquivBEq V]

theorem EdgesNamed.modify_merge {packages : SnapshotMap V I} (h : EdgesNamed packages)
    (key : DependencyPath V) (dev optional : Bool) :
    EdgesNamed (packages.modify key (mergePackageFlags dev optional)) := by
  intro path snapshot dependencies hsnapshot hdependencies
  rw [KeyedMap.get_modify] at hsnapshot
  refine NamedIn.mono ?_ (keepsKeys_modify packages key _)
  split at hsnapshot
  · obtain ⟨before, hbefore, rfl⟩ := Option.map_eq_some_iff.mp hsnapshot
    exact h path before dependencies hbefore hdependencies
  · exact h path snapshot dependencies hsnapshot hdependencies

theorem EdgesNamed.insert_placeholder {packages : SnapshotMap V I} (h : EdgesNamed packages)
    (key : DependencyPath V) (resolution : LockfileResolution I) (dev optional : Bool) :
    EdgesNamed (packages.insert key (placeholder resolution dev optional)) := by
  intro path snapshot dependencies hsnapshot hdependencies
  rw [KeyedMap.get_insert] at hsnapshot
  split at hsnapshot
  · cases hsnapshot
    cases hdependencies
  · exact (h path snapshot dependencies hsnapshot hdependencies).mono
      (keepsKeys_insert packages key _)

theorem EdgesNamed.modify_complete {packages : SnapshotMap V I} (h : EdgesNamed packages)
    {dependencies : KeyedMap PkgName (PackageSnapshotDependency V)}
    (hnamed : NamedIn packages dependencies) (key : DependencyPath V) (dev optional : Bool) :
    EdgesNamed (packages.modify key (completeSnapshot dependencies dev optional)) := by
  intro path snapshot dependencies' hsnapshot hdependencies
  rw [KeyedMap.get_modify] at hsnapshot
  refine NamedIn.mono ?_ (keepsKeys_modify packages key _)
  split at hsnapshot
  · obtain ⟨before, -, rfl⟩ := Option.map_eq_some_iff.mp hsnapshot
    rwa [of_recorded_eq_some hdependencies]
  · exact h path snapshot dependencies' hsnapshot hdependencies

variable [NodeSemver V] [SemverRange V] {builder : LockfileBuilder V I}

theorem LockfileBuilder.buildPackageSnapshot_isSome {fuel : Nat}
    {packages packages' : SnapshotMap V I} {package : PackageVersion V I} {dev optional : Bool}
    {path : DependencyPath V} (hpath : dependencyPath package = .ok path)
    (h : builder.buildPackageSnapshot fuel packages package dev optional = .ok packages') :
    (packages'.get path).isSome := by
  cases fuel with
  | zero => cases h
  | succ fuel =>
      obtain ⟨key, hkey, ⟨hsome, rfl⟩ | ⟨-, resolution, below, dependencies, -, hbelow, rfl⟩⟩ :=
        LockfileBuilder.buildPackageSnapshot_ok h
      · rw [hpath] at hkey
        cases hkey
        exact keepsKeys_modify packages path _ path hsome
      · rw [hpath] at hkey
        cases hkey
        refine keepsKeys_modify below path _ path (LockfileBuilder.buildDependencies_keepsKeys
          LockfileBuilder.buildPackageSnapshot_keepsKeys hbelow path ?_)
        rw [KeyedMap.get_insert, if_pos (BEq.refl path)]
        rfl

theorem LockfileBuilder.buildPackageSnapshot_edgesNamed (hnames : builder.registry.NamedAsFetched)
    {fuel : Nat} {packages packages' : SnapshotMap V I} {package : PackageVersion V I}
    {dev optional : Bool}
    (h : builder.buildPackageSnapshot fuel packages package dev optional = .ok packages')
    (hnamed : EdgesNamed packages) : EdgesNamed packages' := by
  induction fuel generalizing packages packages' package dev optional with
  | zero => cases h
  | succ fuel ih =>
      obtain ⟨key, -, ⟨-, rfl⟩ | ⟨-, resolution, below, dependencies, -, hbelow, rfl⟩⟩ :=
        LockfileBuilder.buildPackageSnapshot_ok h
      · exact hnamed.modify_merge key dev optional
      · have hfold : EdgesNamed below ∧ NamedIn below dependencies :=
          Results.foldlM_invariant (fun s => EdgesNamed s.1 ∧ NamedIn s.1 s.2) hbelow
            ⟨hnamed.insert_placeholder key resolution dev optional, namedIn_empty _⟩
            fun d _ s s' hs hround => by
              obtain ⟨child, name, specifier, hresolve, hname, hspecifier, hchild, hrecorded⟩ :=
                LockfileBuilder.buildDependency_ok hround
              have hpath := hnames.dependencyPath_eq hresolve hname hspecifier
              rw [hrecorded]
              exact ⟨ih hchild hs.1,
                (hs.2.mono (LockfileBuilder.buildPackageSnapshot_keepsKeys hchild)).insert
                  (LockfileBuilder.buildPackageSnapshot_isSome hpath hchild)⟩
        exact hfold.1.modify_complete hfold.2 key dev optional

/-- Every entry of the project names a key of the map. -/
def RootsNamed (packages : SnapshotMap V I) (dependencies : ResolvedDependencyMap V) : Prop :=
  ∀ e ∈ dependencies.entries, (packages.get ⟨none, ⟨e.1, e.2.version⟩⟩).isSome

theorem LockfileBuilder.buildRootGroup_named (hnames : builder.registry.NamedAsFetched)
    {fuel : Nat} {manifest : PackageManifest} {enabledGroups : List DependencyGroup}
    {group : DependencyGroup} {packages packages' : SnapshotMap V I}
    {dependencies : Option (ResolvedDependencyMap V)}
    (h : builder.buildRootGroup fuel manifest enabledGroups group packages =
      .ok (packages', dependencies))
    (hnamed : EdgesNamed packages) :
    EdgesNamed packages' ∧ KeepsKeys packages packages' ∧
      ∀ resolved, dependencies = some resolved → RootsNamed packages' resolved := by
  obtain ⟨-, rfl, rfl⟩ | ⟨-, resolved, hfold, rfl⟩ := LockfileBuilder.buildRootGroup_ok h
  · exact ⟨hnamed, fun _ hpath => hpath, nofun⟩
  · have hinv : EdgesNamed packages' ∧ KeepsKeys packages packages' ∧
        RootsNamed packages' resolved :=
      Results.foldlM_invariant
        (fun s => EdgesNamed s.1 ∧ KeepsKeys packages s.1 ∧ RootsNamed s.1 s.2) hfold
        ⟨hnamed, fun _ hpath => hpath, fun _ he => nomatch he⟩ fun d _ s s' hs hround => by
          obtain ⟨package, name, specifier, hresolve, hname, hspecifier, hbuild, hrecorded⟩ :=
            LockfileBuilder.buildRoot_ok hround
          have hkeeps := LockfileBuilder.buildPackageSnapshot_keepsKeys hbuild
          refine ⟨buildPackageSnapshot_edgesNamed hnames hbuild hs.1,
            fun path hpath => hkeeps path (hs.2.1 path hpath), ?_⟩
          rw [hrecorded]
          intro e he
          rcases KeyedMap.mem_entries_insert he with rfl | he
          · exact LockfileBuilder.buildPackageSnapshot_isSome
              (hnames.dependencyPath_eq hresolve hname hspecifier) hbuild
          · exact hkeeps _ (hs.2.2 e he)
    refine ⟨hinv.1, hinv.2.1, fun resolved' hresolved => ?_⟩
    rw [of_recorded_eq_some hresolved]
    exact hinv.2.2

theorem GenerateLockfile.runWith_namesPackages {generate : GenerateLockfile V I}
    (hnames : generate.registry.NamedAsFetched) {fuel : Nat} {lockfile : Lockfile V I}
    (h : generate.runWith fuel = .ok lockfile) : lockfile.NamesPackages := by
  obtain ⟨packages₁, packages₂, packages, dependencies, optionalDependencies, devDependencies,
    h₁, h₂, h₃, hproject, hpackages⟩ := GenerateLockfile.runWith_ok h
  obtain ⟨hedges₁, -, hroots₁⟩ :=
    LockfileBuilder.buildRootGroup_named hnames h₁ edgesNamed_empty
  obtain ⟨hedges₂, hkeeps₂, hroots₂⟩ := LockfileBuilder.buildRootGroup_named hnames h₂ hedges₁
  obtain ⟨hedges₃, hkeeps₃, hroots₃⟩ := LockfileBuilder.buildRootGroup_named hnames h₃ hedges₂
  have hat := Lockfile.snapshotAt_eq hpackages
  constructor
  · refine ⟨_, hproject, fun e he => ?_⟩
    rw [hat]
    simp only [ProjectSnapshot.dependenciesByGroups, ProjectSnapshot.getMapByGroup,
      List.flatMap_cons, List.flatMap_nil, List.append_nil, List.mem_append] at he
    rcases he with he | he | he
    all_goals split at he
    · exact hkeeps₃ _ (hkeeps₂ _ (hroots₁ _ rfl e he))
    · cases he
    · exact hkeeps₃ _ (hroots₂ _ rfl e he)
    · cases he
    · exact hroots₃ _ rfl e he
    · cases he
  · intro path snapshot recordedDependencies hsnapshot hdependencies e he
    simp only [hat] at hsnapshot ⊢
    exact hedges₃ path snapshot recordedDependencies hsnapshot hdependencies e he

end Names

section Packages

variable {V I : Type} [NodeSemver V] [BEq V] [SemverRange V] [EquivBEq V]

/-- The generation ends. The keys of its lockfile are those of the versions that the
selected entries lead to, and all that it records names such a key. -/
theorem GenerateLockfile.run_packages (generate : GenerateLockfile V I) :
    (∀ fuel, generate.registry.versions.length < fuel →
      generate.runWith fuel = generate.run ∧ generate.run ≠ .error .outOfFuel) ∧
    ∀ lockfile, generate.run = .ok lockfile →
      (generate.registry.KeysDistinct → ∀ path, (lockfile.snapshotAt path).isSome ↔
        ∃ p, generate.Reachable p ∧ p.HasPath path) ∧
      (generate.registry.NamedAsFetched → lockfile.NamesPackages) := by
  refine ⟨fun fuel hfuel => ⟨generate.runWith_eq_run hfuel, ?_⟩, fun lockfile h => ⟨?_, ?_⟩⟩
  · exact generate.runWith_ne (Nat.lt_succ_self _)
  · intro hdistinct path
    obtain ⟨visits, found, hrecords⟩ := GenerateLockfile.runWith_walk h
    have hfound := hrecords.walk.found_iff_way hdistinct.same_iff
    rw [hrecords.keys]
    simp only [GenerateLockfile.reachable_iff_way, ← hfound]
    constructor
    · rintro ⟨⟨flags, p⟩, hp, hpath⟩
      exact ⟨p, ⟨flags, hp⟩, hpath⟩
    · rintro ⟨p, ⟨flags, hp⟩, hpath⟩
      exact ⟨(flags, p), hp, hpath⟩
  · exact fun hnames => GenerateLockfile.runWith_namesPackages hnames h

end Packages

section Samples

variable {V : Type} [NodeSemver V]

/-- A version with its `dependencies` and `optionalDependencies`. -/
def releasedVersion (name : Text) (version : V)
    (dependencies optionalDependencies : List (Text × Text)) :
    PackageVersion V HashIntegrity where
  name := name
  version := version
  dist := ⟨some ⟨"sha512".toList, "YQ==".toList⟩, [], none⟩
  dependencies := some (.ofList dependencies)
  optionalDependencies := some (.ofList optionalDependencies)
  peerDependencies := none

/-- A registry with the given versions of each name. -/
def releases (packages : List (Text × List (PackageVersion V HashIntegrity))) :
    Registry V HashIntegrity :=
  .ofList (packages.map fun p => (p.1, {
    name := p.1
    distTags := .empty
    versions := .ofList (p.2.map fun v => (NodeSemver.display v.version, v)) }))

/-- A manifest with the given entries of each group. -/
def manifestOf (groups : List (DependencyGroup × List (Text × Text))) : PackageManifest :=
  ⟨.object (.ofList (groups.map fun g =>
    (g.1.field, .object (.ofList (g.2.map fun d => (d.1, .string d.2))))))⟩

/-- The keys of two versions are `==`. -/
def sameKey [BEq V] {I : Type} (p q : PackageVersion V I) : Bool :=
  match dependencyPath p, dependencyPath q with
  | .ok key, .ok key' => key == key'
  | _, _ => false

theorem sameKey_comm [BEq V] [EquivBEq V] {I : Type} (p q : PackageVersion V I) :
    sameKey p q = sameKey q p := by
  unfold sameKey
  cases dependencyPath p with
  | error e => cases dependencyPath q <;> rfl
  | ok key =>
      cases dependencyPath q with
      | error e => rfl
      | ok key' => exact BEq.comm

theorem sameKey_of_hasPath [BEq V] [EquivBEq V] {I : Type} {p q : PackageVersion V I}
    {path : DependencyPath V} (hp : p.HasPath path) (hq : q.HasPath path) :
    sameKey p q = true := by
  obtain ⟨key, hkey, hpath⟩ := hp
  obtain ⟨key', hkey', hpath'⟩ := hq
  simp only [sameKey, hkey, hkey']
  exact BEq.trans hpath (BEq.symm hpath')

theorem keysDistinct_of_pairwise [BEq V] [EquivBEq V] {I : Type} {registry : Registry V I}
    (h : registry.versions.Pairwise fun p q => sameKey p q = false) : registry.KeysDistinct := by
  intro p hp q hq path hpath hpath'
  have hsymm : Std.Symm fun p q : PackageVersion V I => sameKey p q = false :=
    ⟨fun p q hpq => (sameKey_comm q p).trans hpq⟩
  by_contra hne
  have hfalse := h.forall hp hq hne
  rw [sameKey_of_hasPath hpath hpath'] at hfalse
  cases hfalse

end Samples

section Cycle

/-- `a` and `b` depend on each other. -/
def cycleGenerate : GenerateLockfile CoreVersion HashIntegrity where
  config := defaultNpmrc
  manifest := manifestOf [(.prod, [("a".toList, "1.0.0".toList)])]
  dependencyGroups := [.prod, .dev, .optional]
  registry := releases
    [("a".toList,
      [releasedVersion "a".toList firstVersion [("b".toList, "^1.0.0".toList)] []]),
    ("b".toList, [releasedVersion "b".toList firstVersion [("a".toList, "*".toList)] []])]

theorem GenerateLockfile.run_packages_cycle :
    ∃ lockfile, cycleGenerate.run = .ok lockfile ∧
      (∀ path, (lockfile.snapshotAt path).isSome ↔
        ∃ p, cycleGenerate.Reachable p ∧ p.HasPath path) ∧
      lockfile.NamesPackages := by
  have hrun : cycleGenerate.run.toOption.map (fun _ => true) = some true := by decide
  obtain ⟨lockfile, hlockfile, -⟩ := Results.exists_of_toOption_map hrun
  have hpackages := (GenerateLockfile.run_packages cycleGenerate).2 lockfile hlockfile
  refine ⟨lockfile, hlockfile, hpackages.1 ?_, hpackages.2 ?_⟩
  · exact keysDistinct_of_pairwise (List.pairwise_pair.mpr (by decide))
  · decide

end Cycle

section Twins

/-- `a` has two versions that differ in build metadata only. The second, which
depends on `c`, is a development dependency. -/
def twinsGenerate : GenerateLockfile BuildVersion HashIntegrity where
  config := defaultNpmrc
  manifest := manifestOf [(.prod, [("a".toList, "1.0.0+x".toList)]),
    (.dev, [("a".toList, "1.0.0+y".toList)])]
  dependencyGroups := [.prod, .dev, .optional]
  registry := releases
    [("a".toList, [releasedVersion "a".toList ⟨firstVersion, ['x']⟩ [] [],
      releasedVersion "a".toList ⟨firstVersion, ['y']⟩ [("c".toList, "*".toList)] []]),
    ("c".toList, [releasedVersion "c".toList ⟨firstVersion, []⟩ [] []])]

/-- Only peer dependencies are selected. -/
def peersGenerate : GenerateLockfile CoreVersion HashIntegrity where
  config := defaultNpmrc
  manifest := manifestOf [(.peer, [("c".toList, "1.0.0".toList)])]
  dependencyGroups := [.peer]
  registry := releases [("c".toList, [releasedVersion "c".toList firstVersion [] []])]

/-- The dependency of the second twin and the peer dependency are missing. -/
theorem GenerateLockfile.not_run_packages_twins :
    (twinsGenerate.registry.NamedAsFetched ∧ ∃ lockfile, twinsGenerate.run = .ok lockfile ∧
      ∃ p path, twinsGenerate.Reachable p ∧ p.HasPath path ∧
        lockfile.snapshotAt path = none) ∧
    peersGenerate.registry.NamedAsFetched ∧ ∃ lockfile, peersGenerate.run = .ok lockfile ∧
      ∃ p path, peersGenerate.Reaches (fun _ => True) (fun _ => True) p ∧ p.HasPath path ∧
        lockfile.snapshotAt path = none := by
  have htwins : twinsGenerate.run.toOption.map (fun lockfile =>
      (lockfile.snapshotAt ⟨none, ⟨⟨none, ['c']⟩, ⟨⟨firstVersion, []⟩, []⟩⟩⟩).isNone) =
        some true := by decide
  have hpeers : peersGenerate.run.toOption.map (fun lockfile =>
      (lockfile.snapshotAt ⟨none, ⟨⟨none, ['c']⟩, ⟨firstVersion, []⟩⟩⟩).isNone) =
        some true := by decide
  have hsecondEntry : ("a".toList, "1.0.0+y".toList) ∈
      twinsGenerate.manifest.groupDependencies .dev := by decide
  have hdependency : ("c".toList, "*".toList) ∈
      (releasedVersion "a".toList (⟨firstVersion, ['y']⟩ : BuildVersion)
        [("c".toList, "*".toList)] []).dependenciesWith defaultNpmrc.autoInstallPeers := by
    decide
  have hpeerEntry : ("c".toList, "1.0.0".toList) ∈
      peersGenerate.manifest.groupDependencies .peer := by decide
  obtain ⟨lockfile, hlockfile, hnone⟩ := Results.exists_of_toOption_map htwins
  obtain ⟨lockfile', hlockfile', hnone'⟩ := Results.exists_of_toOption_map hpeers
  refine ⟨⟨by decide, lockfile, hlockfile,
    releasedVersion "c".toList ⟨firstVersion, []⟩ [] [], _, ?_, ⟨_, rfl, by decide⟩,
    Option.isNone_iff_eq_none.mp hnone⟩, by decide, lockfile', hlockfile',
    releasedVersion "c".toList firstVersion [] [], _, ?_, ⟨_, rfl, by decide⟩,
    Option.isNone_iff_eq_none.mp hnone'⟩
  · have hsecond : twinsGenerate.Reachable (releasedVersion "a".toList ⟨firstVersion, ['y']⟩
        [("c".toList, "*".toList)] []) :=
      .root (by decide) (by decide) hsecondEntry rfl
    exact .dependency hsecond hdependency trivial rfl
  · exact .root (by decide) trivial hpeerEntry rfl

end Twins

end Npnpm
