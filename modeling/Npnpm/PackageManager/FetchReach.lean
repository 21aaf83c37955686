import Npnpm.PackageManager.FetchSelection

/-!
# What fetch collects

A package is reached from the direct dependencies of the selected groups through
references that resolve to it. `collect_selected_packages` collects what is reached,
unless some reference on the way cannot be followed or leads to a git package.
-/

namespace Npnpm

open Npnpm.Worklist

section Reach

variable {V I : Type} [NodeSemver V] [BEq V]

/-- The projects of a lockfile. -/
def RootProjectSnapshot.projects : RootProjectSnapshot V → List (ProjectSnapshot V)
  | .single project => [project]
  | .multi projects => projects.importers.entries.map Prod.snd

def dependencyReferences (snapshot : PackageSnapshot V I) :
    List (PkgName × PackageSnapshotDependency V) :=
  snapshot.dependencies.elim [] KeyedMap.entries

def optionalDependencyReferences (snapshot : PackageSnapshot V I) : List (Text × Text) :=
  snapshot.optionalDependencies.elim [] KeyedMap.entries

/-- A package that references lead to, each as the index resolves it. -/
inductive Fetch.Reaches (root : RootProjectSnapshot V) (packages : Packages V I)
    (index : LockfilePackageIndex V) (groups : List DependencyGroup) : DependencyPath V → Prop
  | root {project d path} (hproject : project ∈ root.projects)
      (hd : d ∈ project.dependenciesByGroups groups)
      (h : index.resolveRootDependency d.1 d.2.version = some path) :
      Reaches root packages index groups path
  | dependency {parent snapshot d child} (hparent : Reaches root packages index groups parent)
      (hsnapshot : packages.get parent = some snapshot) (hd : d ∈ dependencyReferences snapshot)
      (h : index.resolveSnapshotDependency parent d.1 d.2 = some child) :
      Reaches root packages index groups child
  | optional {parent snapshot d child} (hparent : Reaches root packages index groups parent)
      (hsnapshot : packages.get parent = some snapshot)
      (hd : d ∈ optionalDependencyReferences snapshot)
      (h : index.resolveOptionalDependency parent d.1 d.2 = .ok (some child)) :
      Reaches root packages index groups child

/-- Every reference on the way resolves to a key of the packages. -/
structure Fetch.Resolves (root : RootProjectSnapshot V) (packages : Packages V I)
    (index : LockfilePackageIndex V) (groups : List DependencyGroup) : Prop where
  roots : ∀ project ∈ root.projects, ∀ d ∈ project.dependenciesByGroups groups,
    ∃ path, index.resolveRootDependency d.1 d.2.version = some path ∧ (packages.get path).isSome
  dependencies : ∀ parent, Fetch.Reaches root packages index groups parent → ∀ snapshot,
    packages.get parent = some snapshot → ∀ d ∈ dependencyReferences snapshot,
      ∃ child, index.resolveSnapshotDependency parent d.1 d.2 = some child ∧
        (packages.get child).isSome
  optional : ∀ parent, Fetch.Reaches root packages index groups parent → ∀ snapshot,
    packages.get parent = some snapshot → ∀ d ∈ optionalDependencyReferences snapshot,
      ∃ child, index.resolveOptionalDependency parent d.1 d.2 = .ok (some child) ∧
        (packages.get child).isSome

/-- No package that is reached is fetched from a git repository. -/
def Fetch.NoGit (root : RootProjectSnapshot V) (packages : Packages V I)
    (index : LockfilePackageIndex V) (groups : List DependencyGroup) : Prop :=
  ∀ path, Fetch.Reaches root packages index groups path → ∀ snapshot,
    packages.get path = some snapshot → ∀ resolution, snapshot.resolution ≠ .git resolution

variable {root : RootProjectSnapshot V} {packages : Packages V I}
  {index : LockfilePackageIndex V} {groups : List DependencyGroup} {path : DependencyPath V}

omit [NodeSemver V] in
theorem resolveRoot_ok_iff {d : PkgName × ResolvedDependencySpec V} :
    (match index.resolveRootDependency d.1 d.2.version with
      | some path => Except.ok path
      | none => Except.error (FetchError.resolvePackage d.1.display)) = Except.ok path ↔
      index.resolveRootDependency d.1 d.2.version = some path := by
  cases index.resolveRootDependency d.1 d.2.version <;> simp

omit [NodeSemver V] in
theorem mem_rootDependencyPaths {project : ProjectSnapshot V} {roots : List (DependencyPath V)}
    (h : rootDependencyPaths project index groups = .ok roots) :
    path ∈ roots ↔ ∃ d ∈ project.dependenciesByGroups groups,
      index.resolveRootDependency d.1 d.2.version = some path := by
  constructor
  · intro hpath
    obtain ⟨d, hd, hresolve⟩ := Results.exists_of_mem_mapM h hpath
    exact ⟨d, hd, resolveRoot_ok_iff.mp hresolve⟩
  · rintro ⟨d, hd, hresolve⟩
    obtain ⟨other, hother, hok⟩ := Results.exists_mem_of_mapM h hd
    rw [resolveRoot_ok_iff.mp hok] at hresolve
    exact Option.some.inj hresolve ▸ hother

omit [NodeSemver V] in
theorem exists_rootDependencyPaths_iff {project : ProjectSnapshot V} :
    (∃ roots, rootDependencyPaths project index groups = .ok roots) ↔
      ∀ d ∈ project.dependenciesByGroups groups, ∃ path,
        index.resolveRootDependency d.1 d.2.version = some path := by
  rw [rootDependencyPaths, Results.exists_mapM_ok_iff]
  exact forall₂_congr fun d _ => exists_congr fun path => resolveRoot_ok_iff

omit [NodeSemver V] in
theorem mem_rootPaths {roots : List (DependencyPath V)}
    (h : rootPaths root index groups = .ok roots) :
    path ∈ roots ↔ ∃ project ∈ root.projects, ∃ d ∈ project.dependenciesByGroups groups,
      index.resolveRootDependency d.1 d.2.version = some path := by
  cases root with
  | single project =>
      rw [mem_rootDependencyPaths h]
      simp [RootProjectSnapshot.projects]
  | multi projects =>
      obtain ⟨lists, hlists, rfl⟩ := Results.map_ok h
      rw [List.mem_flatten]
      constructor
      · rintro ⟨list, hlist, hpath⟩
        obtain ⟨e, he, hok⟩ := Results.exists_of_mem_mapM hlists hlist
        exact ⟨e.2, List.mem_map.mpr ⟨e, he, rfl⟩, (mem_rootDependencyPaths hok).mp hpath⟩
      · rintro ⟨project, hproject, hd⟩
        obtain ⟨e, he, rfl⟩ := List.mem_map.mp hproject
        obtain ⟨list, hlist, hok⟩ := Results.exists_mem_of_mapM hlists he
        exact ⟨list, hlist, (mem_rootDependencyPaths hok).mpr hd⟩

omit [NodeSemver V] in
theorem exists_rootPaths_iff :
    (∃ roots, rootPaths root index groups = .ok roots) ↔
      ∀ project ∈ root.projects, ∀ d ∈ project.dependenciesByGroups groups, ∃ path,
        index.resolveRootDependency d.1 d.2.version = some path := by
  cases root with
  | single project =>
      simp only [rootPaths, exists_rootDependencyPaths_iff, RootProjectSnapshot.projects,
        List.mem_singleton, forall_eq]
  | multi projects =>
      have hmap : (∃ roots, rootPaths (.multi projects) index groups = .ok roots) ↔
          ∃ lists, (projects.importers.entries.mapM fun e =>
            rootDependencyPaths e.2 index groups) = .ok lists := by
        constructor
        · rintro ⟨roots, hroots⟩
          obtain ⟨lists, hlists, -⟩ := Results.map_ok hroots
          exact ⟨lists, hlists⟩
        · rintro ⟨lists, hlists⟩
          exact ⟨lists.flatten, by rw [rootPaths, hlists]; rfl⟩
      rw [hmap, Results.exists_mapM_ok_iff]
      simp only [exists_rootDependencyPaths_iff, RootProjectSnapshot.projects, List.mem_map]
      constructor
      · rintro hall project ⟨e, he, rfl⟩
        exact hall e he
      · exact fun hall e he => hall e.2 ⟨e, he, rfl⟩

omit [NodeSemver V] in
theorem resolveSnapshot_ok_iff {d : PkgName × PackageSnapshotDependency V}
    {parent child : DependencyPath V} :
    (match index.resolveSnapshotDependency parent d.1 d.2 with
      | some child => Except.ok child
      | none => Except.error (FetchError.resolvePackage d.1.display)) = Except.ok child ↔
      index.resolveSnapshotDependency parent d.1 d.2 = some child := by
  cases index.resolveSnapshotDependency parent d.1 d.2 <;> simp

theorem resolveOptional_ok_iff {d : Text × Text} {parent child : DependencyPath V} :
    (index.resolveOptionalDependency parent d.1 d.2 >>= fun resolved =>
      match resolved with
      | some child => Except.ok child
      | none => Except.error (FetchError.resolvePackage d.1)) = Except.ok child ↔
      index.resolveOptionalDependency parent d.1 d.2 = .ok (some child) := by
  cases index.resolveOptionalDependency parent d.1 d.2 with
  | error e => simp [bind, Except.bind]
  | ok resolved => cases resolved <;> simp [bind, Except.bind]

theorem mem_snapshotChildren {parent child : DependencyPath V} {snapshot : PackageSnapshot V I}
    {children : List (DependencyPath V)}
    (h : snapshotChildren index parent snapshot = .ok children) :
    child ∈ children ↔
      (∃ d ∈ dependencyReferences snapshot,
        index.resolveSnapshotDependency parent d.1 d.2 = some child) ∨
      ∃ d ∈ optionalDependencyReferences snapshot,
        index.resolveOptionalDependency parent d.1 d.2 = .ok (some child) := by
  obtain ⟨dependencies, hdependencies, h⟩ := Results.bind_ok h
  obtain ⟨optional, hoptional, h⟩ := Results.bind_ok h
  cases h
  rw [List.mem_append]
  apply or_congr
  · constructor
    · intro hchild
      obtain ⟨d, hd, hok⟩ := Results.exists_of_mem_mapM hdependencies hchild
      exact ⟨d, hd, resolveSnapshot_ok_iff.mp hok⟩
    · rintro ⟨d, hd, hresolve⟩
      obtain ⟨other, hother, hok⟩ := Results.exists_mem_of_mapM hdependencies hd
      rw [resolveSnapshot_ok_iff.mp hok] at hresolve
      exact Option.some.inj hresolve ▸ hother
  · constructor
    · intro hchild
      obtain ⟨d, hd, hok⟩ := Results.exists_of_mem_mapM hoptional hchild
      exact ⟨d, hd, resolveOptional_ok_iff.mp hok⟩
    · rintro ⟨d, hd, hresolve⟩
      obtain ⟨other, hother, hok⟩ := Results.exists_mem_of_mapM hoptional hd
      rw [resolveOptional_ok_iff.mp hok, Except.ok.injEq] at hresolve
      exact Option.some.inj hresolve ▸ hother

theorem exists_snapshotChildren_iff {parent : DependencyPath V} {snapshot : PackageSnapshot V I} :
    (∃ children, snapshotChildren index parent snapshot = .ok children) ↔
      (∀ d ∈ dependencyReferences snapshot, ∃ child,
        index.resolveSnapshotDependency parent d.1 d.2 = some child) ∧
      ∀ d ∈ optionalDependencyReferences snapshot, ∃ child,
        index.resolveOptionalDependency parent d.1 d.2 = .ok (some child) := by
  constructor
  · rintro ⟨children, h⟩
    obtain ⟨dependencies, hdependencies, h⟩ := Results.bind_ok h
    obtain ⟨optional, hoptional, -⟩ := Results.bind_ok h
    refine ⟨fun d hd => ?_, fun d hd => ?_⟩
    · obtain ⟨child, -, hok⟩ := Results.exists_mem_of_mapM hdependencies hd
      exact ⟨child, resolveSnapshot_ok_iff.mp hok⟩
    · obtain ⟨child, -, hok⟩ := Results.exists_mem_of_mapM hoptional hd
      exact ⟨child, resolveOptional_ok_iff.mp hok⟩
  · rintro ⟨hdependencies, hoptional⟩
    obtain ⟨dependencies, hd⟩ := (Results.exists_mapM_ok_iff _ _).mpr fun d hd =>
      (hdependencies d hd).imp fun _ h => resolveSnapshot_ok_iff.mpr h
    obtain ⟨optional, ho⟩ := (Results.exists_mapM_ok_iff _ _).mpr fun d hd =>
      (hoptional d hd).imp fun _ h => resolveOptional_ok_iff.mpr h
    exact ⟨dependencies ++ optional, Results.ok_bind hd (Results.ok_bind ho rfl)⟩

/-- A package can be expanded that is there, is no git package and whose references
resolve. -/
theorem expand_ok_iff {children : List (DependencyPath V)} :
    expand packages index path = .ok children ↔
      ∃ snapshot, packages.get path = some snapshot ∧
        (∀ resolution, snapshot.resolution ≠ .git resolution) ∧
        snapshotChildren index path snapshot = .ok children := by
  unfold expand
  cases packages.get path with
  | none => simp
  | some snapshot => cases hres : snapshot.resolution <;> simp [hres]

/-- What expansions reach is reached through references. -/
theorem Fetch.Reaches.of_reachable {roots : List (DependencyPath V)}
    (hroots : rootPaths root index groups = .ok roots)
    (h : Reachable (expand packages index) roots path) :
    Fetch.Reaches root packages index groups path := by
  induction h with
  | root hmem =>
      obtain ⟨project, hproject, d, hd, hresolve⟩ := (mem_rootPaths hroots).mp hmem
      exact .root hproject hd hresolve
  | child _ hexpand hmem ih =>
      obtain ⟨snapshot, hsnapshot, -, hchildren⟩ := expand_ok_iff.mp hexpand
      rcases (mem_snapshotChildren hchildren).mp hmem with ⟨d, hd, hresolve⟩ | ⟨d, hd, hresolve⟩
      · exact .dependency ih hsnapshot hd hresolve
      · exact .optional ih hsnapshot hd hresolve

/-- Where all that is reached can be expanded, expansions reach it. -/
theorem Fetch.Reaches.reachable {roots : List (DependencyPath V)}
    (hroots : rootPaths root index groups = .ok roots)
    (hexpand : ∀ path, Reachable (expand packages index) roots path →
      ∃ children, expand packages index path = .ok children)
    (h : Fetch.Reaches root packages index groups path) :
    Reachable (expand packages index) roots path := by
  induction h with
  | root hproject hd hresolve =>
      exact .root ((mem_rootPaths hroots).mpr ⟨_, hproject, _, hd, hresolve⟩)
  | dependency _ hsnapshot hd hresolve ih =>
      obtain ⟨children, hchildren⟩ := hexpand _ ih
      obtain ⟨snapshot, hget, -, hrun⟩ := expand_ok_iff.mp hchildren
      rw [hsnapshot] at hget
      cases hget
      exact .child ih hchildren ((mem_snapshotChildren hrun).mpr (Or.inl ⟨_, hd, hresolve⟩))
  | optional _ hsnapshot hd hresolve ih =>
      obtain ⟨children, hchildren⟩ := hexpand _ ih
      obtain ⟨snapshot, hget, -, hrun⟩ := expand_ok_iff.mp hchildren
      rw [hsnapshot] at hget
      cases hget
      exact .child ih hchildren ((mem_snapshotChildren hrun).mpr (Or.inr ⟨_, hd, hresolve⟩))

/-- What is reached is a package, where every reference resolves. -/
theorem Fetch.Resolves.isSome (h : Fetch.Resolves root packages index groups)
    (hpath : Fetch.Reaches root packages index groups path) : (packages.get path).isSome := by
  cases hpath with
  | root hproject hd hresolve =>
      obtain ⟨other, hother, hsome⟩ := h.roots _ hproject _ hd
      rw [hresolve] at hother
      exact Option.some.inj hother ▸ hsome
  | dependency hparent hsnapshot hd hresolve =>
      obtain ⟨other, hother, hsome⟩ := h.dependencies _ hparent _ hsnapshot _ hd
      rw [hresolve] at hother
      exact Option.some.inj hother ▸ hsome
  | optional hparent hsnapshot hd hresolve =>
      obtain ⟨other, hother, hsome⟩ := h.optional _ hparent _ hsnapshot _ hd
      rw [hresolve, Except.ok.injEq] at hother
      exact Option.some.inj hother ▸ hsome

/-- Where every reference resolves and nothing is a git package, all that is reached can
be expanded. -/
theorem Fetch.Resolves.expand (h : Fetch.Resolves root packages index groups)
    (hgit : Fetch.NoGit root packages index groups)
    (hpath : Fetch.Reaches root packages index groups path) :
    ∃ children, Npnpm.expand packages index path = .ok children := by
  obtain ⟨snapshot, hsnapshot⟩ := Option.isSome_iff_exists.mp (h.isSome hpath)
  obtain ⟨children, hchildren⟩ := exists_snapshotChildren_iff.mpr
    ⟨fun d hd => (h.dependencies path hpath snapshot hsnapshot d hd).imp fun _ hc => hc.1,
      fun d hd => (h.optional path hpath snapshot hsnapshot d hd).imp fun _ hc => hc.1⟩
  exact ⟨children, expand_ok_iff.mpr ⟨snapshot, hsnapshot, hgit path hpath snapshot hsnapshot,
    hchildren⟩⟩

/-- Where all that is reached can be expanded, every reference resolves. -/
theorem Fetch.resolves_of_expand {roots : List (DependencyPath V)}
    (hroots : rootPaths root index groups = .ok roots)
    (hexpand : ∀ path, Fetch.Reaches root packages index groups path →
      ∃ children, expand packages index path = .ok children) :
    Fetch.Resolves root packages index groups ∧ Fetch.NoGit root packages index groups := by
  have hsome : ∀ path, Fetch.Reaches root packages index groups path →
      (packages.get path).isSome := by
    intro path hpath
    obtain ⟨children, hchildren⟩ := hexpand path hpath
    obtain ⟨snapshot, hsnapshot, -, -⟩ := expand_ok_iff.mp hchildren
    rw [hsnapshot]
    rfl
  have hchildren : ∀ parent, Fetch.Reaches root packages index groups parent → ∀ snapshot,
      packages.get parent = some snapshot →
        (∀ resolution, snapshot.resolution ≠ .git resolution) ∧
          ∃ children, snapshotChildren index parent snapshot = .ok children := by
    intro parent hparent snapshot hsnapshot
    obtain ⟨children, hchildren⟩ := hexpand parent hparent
    obtain ⟨other, hother, hgit, hrun⟩ := expand_ok_iff.mp hchildren
    rw [hsnapshot] at hother
    cases hother
    exact ⟨hgit, children, hrun⟩
  refine ⟨⟨?_, ?_, ?_⟩, fun parent hparent snapshot hsnapshot =>
    (hchildren parent hparent snapshot hsnapshot).1⟩
  · intro project hproject d hd
    obtain ⟨path, hresolve⟩ := exists_rootPaths_iff.mp ⟨roots, hroots⟩ project hproject d hd
    exact ⟨path, hresolve, hsome path (.root hproject hd hresolve)⟩
  · intro parent hparent snapshot hsnapshot d hd
    have hrun := exists_snapshotChildren_iff.mp (hchildren parent hparent snapshot hsnapshot).2
    obtain ⟨child, hresolve⟩ := hrun.1 d hd
    exact ⟨child, hresolve, hsome child (.dependency hparent hsnapshot hd hresolve)⟩
  · intro parent hparent snapshot hsnapshot d hd
    have hrun := exists_snapshotChildren_iff.mp (hchildren parent hparent snapshot hsnapshot).2
    obtain ⟨child, hresolve⟩ := hrun.2 d hd
    exact ⟨child, hresolve, hsome child (.optional hparent hsnapshot hd hresolve)⟩

end Reach

section Collected

variable {V I : Type} [NodeSemver V] [BEq V] [EquivBEq V] {root : RootProjectSnapshot V}
  {packages : Packages V I} {index : LockfilePackageIndex V} {groups : List DependencyGroup}

/-- A successful walk has expanded everything that is reached. -/
theorem collectSelectedPackages_ok {selected : List (DependencyPath V)}
    (h : collectSelectedPackages root packages index groups = some (.ok selected)) :
    ∃ roots, ∃ visited : List (DependencyPath V), rootPaths root index groups = .ok roots ∧
      visited.filter (isSelected packages) = selected ∧
      (visited.Pairwise fun a b => (a == b) = false) ∧
      (∀ path ∈ visited, Reachable (expand packages index) roots path) ∧
      ∀ path, Reachable (expand packages index) roots path →
        (∃ v ∈ visited, (v == path) = true) ∧
          ∃ children, expand packages index path = .ok children := by
  unfold collectSelectedPackages at h
  split at h
  · cases h
  · rename_i roots hroots
    have heq := collectLoop_eq packages index
      (roots.length + pending (edgeCount packages) packages.keys [] + 1) roots.reverse []
    rw [List.filter_nil, h, eq_comm, Option.map_eq_some_iff] at heq
    obtain ⟨result, hresult, hmap⟩ := heq
    cases result with
    | error e => cases hmap
    | ok visited =>
        refine ⟨roots, visited, hroots, Except.ok.inj hmap,
          pairwise_of_explore hresult List.Pairwise.nil,
          reachable_of_mem_explore hresult (fun n hn => .root (List.mem_reverse.mp hn)) nofun,
          fun path hpath => ?_⟩
        obtain ⟨v, hv, hvp⟩ := seen_iff.mp
          (seen_of_reachable (expand_congr packages index) hresult hpath)
        obtain ⟨-, -, hfrom⟩ := closed_of_explore hresult nofun
        rcases hfrom v hv with hv' | ⟨children, hchildren⟩
        · cases hv'
        · exact ⟨⟨v, hv, hvp⟩, children, expand_congr packages index v path hvp children hchildren⟩

omit [EquivBEq V] in
/-- A walk that fails does so at a direct dependency, or where it cannot expand. -/
theorem collectSelectedPackages_error {e : FetchError}
    (h : collectSelectedPackages root packages index groups = some (.error e)) :
    rootPaths root index groups = .error e ∨ ∃ roots path,
      rootPaths root index groups = .ok roots ∧
      Reachable (expand packages index) roots path ∧ expand packages index path = .error e := by
  unfold collectSelectedPackages at h
  split at h
  · rename_i e' he'
    simp only [Option.some.injEq, Except.error.injEq] at h
    exact Or.inl (by rw [he', h])
  · rename_i roots hroots
    have heq := collectLoop_eq packages index
      (roots.length + pending (edgeCount packages) packages.keys [] + 1) roots.reverse []
    rw [List.filter_nil, h, eq_comm, Option.map_eq_some_iff] at heq
    obtain ⟨result, hresult, hmap⟩ := heq
    cases result with
    | ok visited => cases hmap
    | error e' =>
        cases hmap
        obtain ⟨path, hpath, hexpand⟩ := exists_of_explore_error hresult
          fun n hn => .root (List.mem_reverse.mp hn)
        exact Or.inr ⟨roots, path, hroots, hpath, hexpand⟩

/-- `collect_selected_packages` terminates. It succeeds exactly when every reference on the
way resolves and none leads to a git package, and then it lists, once each, the packages that
are reached and come from the registry or a tarball. -/
theorem collectSelectedPackages_complete (root : RootProjectSnapshot V) (packages : Packages V I)
    (groups : List DependencyGroup) :
    (collectSelectedPackages root packages (.new packages) groups).isSome ∧
    ((∃ selected,
      collectSelectedPackages root packages (.new packages) groups = some (.ok selected)) ↔
        Fetch.Resolves root packages (.new packages) groups ∧
        Fetch.NoGit root packages (.new packages) groups) ∧
    ∀ selected,
      collectSelectedPackages root packages (.new packages) groups = some (.ok selected) →
        (selected.Pairwise fun a b => (a == b) = false) ∧
        (∀ path ∈ selected, Fetch.Reaches root packages (.new packages) groups path ∧
          isSelected packages path = true) ∧
        ∀ path, Fetch.Reaches root packages (.new packages) groups path →
          isSelected packages path = true → ∃ v ∈ selected, (v == path) = true := by
  have hsome := collectSelectedPackages_isSome root packages (.new packages) groups
  refine ⟨hsome, ⟨?_, ?_⟩, ?_⟩
  · rintro ⟨selected, h⟩
    obtain ⟨roots, visited, hroots, -, -, -, hall⟩ := collectSelectedPackages_ok h
    refine Fetch.resolves_of_expand hroots fun path hpath => ?_
    exact (hall path (hpath.reachable hroots fun n hn => (hall n hn).2)).2
  · rintro ⟨hresolves, hgit⟩
    obtain ⟨result, hresult⟩ := Option.isSome_iff_exists.mp hsome
    cases result with
    | ok selected => exact ⟨selected, hresult⟩
    | error e =>
        exfalso
        rcases collectSelectedPackages_error hresult with herror | ⟨roots, path, hroots, hpath, he⟩
        · obtain ⟨roots, hroots⟩ := exists_rootPaths_iff.mpr fun project hproject d hd =>
            (hresolves.roots project hproject d hd).imp fun _ h => h.1
          rw [hroots] at herror
          cases herror
        · obtain ⟨children, hchildren⟩ :=
            hresolves.expand hgit (Fetch.Reaches.of_reachable hroots hpath)
          rw [hchildren] at he
          cases he
  · intro selected h
    obtain ⟨roots, visited, hroots, rfl, hpairwise, hreach, hall⟩ := collectSelectedPackages_ok h
    refine ⟨hpairwise.sublist List.filter_sublist, fun path hpath => ?_, fun path hpath hsel => ?_⟩
    · rw [List.mem_filter] at hpath
      exact ⟨.of_reachable hroots (hreach path hpath.1), hpath.2⟩
    · obtain ⟨v, hv, hvp⟩ := (hall path (hpath.reachable hroots fun n hn => (hall n hn).2)).1
      refine ⟨v, List.mem_filter.mpr ⟨hv, ?_⟩, hvp⟩
      unfold isSelected at hsel ⊢
      rwa [packages.get_congr hvp]

end Collected

/-- Every reference of the lockfile resolves. -/
theorem collectSelectedPackages_complete_dev :
    Fetch.Resolves devLockfile.projectSnapshot devPackages (.new devPackages)
        [.prod, .dev, .optional] ∧
      Fetch.NoGit devLockfile.projectSnapshot devPackages (.new devPackages)
        [.prod, .dev, .optional] :=
  (collectSelectedPackages_complete devLockfile.projectSnapshot devPackages
    [.prod, .dev, .optional]).2.1.mp
      ⟨[⟨none, coreSpecifier "b".toList⟩, ⟨none, coreSpecifier "a".toList⟩], rfl⟩

end Npnpm
