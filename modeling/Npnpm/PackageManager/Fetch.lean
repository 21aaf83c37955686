import Npnpm.Library.Worklist
import Npnpm.Lockfile.StoreNames
import Npnpm.PackageManager.InstallPackageBySnapshot

/-!
# Fetch

`fetch` walks the dependency graph of the lockfile from the direct dependencies
of the selected groups, and installs what it meets. A frozen install takes every
package of the lockfile instead.

## Implementation notes

`collectLoop` is the loop of the source with its stack, its visited set and its
list of selected packages. It is an exploration of the worklist library whose
visited nodes are filtered afterwards.
-/

namespace Npnpm

open Npnpm.Worklist

section Index

variable {V I : Type} [NodeSemver V] [BEq V]

inductive FetchError
  | missingPackageSnapshots
  | resolvePackage (package : Text)
  | missingSnapshot (dependencyPath : Text)
  | parseOptionalDependency (name reference error : Text)
  | unsupportedResolution (dependencyPath : Text)
deriving DecidableEq

def FetchError.display : FetchError → Text
  | .missingPackageSnapshots => "pnpm-lock.yaml does not contain any package snapshots".toList
  | .resolvePackage package =>
      "Failed to resolve ".toList ++ package ++ " from pnpm-lock.yaml".toList
  | .missingSnapshot dependencyPath =>
      "Package snapshot for ".toList ++ dependencyPath ++ " is missing from pnpm-lock.yaml".toList
  | .parseOptionalDependency name reference error =>
      "Failed to parse optional dependency ".toList ++ name ++ '@' :: reference ++ ": ".toList ++
        error
  | .unsupportedResolution dependencyPath =>
      "Lockfile resolution is not supported by fetch yet: ".toList ++ dependencyPath

abbrev Packages (V I : Type) [BEq V] := KeyedMap (DependencyPath V) (PackageSnapshot V I)

/-- The keys of `packages` by their specifier, and by their text. -/
structure LockfilePackageIndex (V : Type) [BEq V] where
  bySpecifier : KeyedMap (PkgNameVerPeer V) (List (DependencyPath V))
  byDependencyPath : KeyedMap Text (DependencyPath V)

def LockfilePackageIndex.new (packages : Packages V I) : LockfilePackageIndex V :=
  packages.keys.foldl
    (fun index path => {
      bySpecifier := index.bySpecifier.insert path.packageSpecifier
        ((index.bySpecifier.get path.packageSpecifier).getD [] ++ [path])
      byDependencyPath := index.byDependencyPath.insert path.display path })
    ⟨.empty, .empty⟩

/-- The candidate of the wanted registry, or else the first one. -/
def LockfilePackageIndex.resolveBySpecifier (index : LockfilePackageIndex V)
    (customRegistry : Option Text) (specifier : PkgNameVerPeer V) : Option (DependencyPath V) :=
  match index.bySpecifier.get specifier with
  | none => none
  | some candidates =>
      (candidates.find? fun candidate => candidate.customRegistry == customRegistry).or
        candidates.head?

def LockfilePackageIndex.resolveRootDependency (index : LockfilePackageIndex V) (name : PkgName)
    (version : PkgVerPeer V) : Option (DependencyPath V) :=
  index.resolveBySpecifier none ⟨name, version⟩

def LockfilePackageIndex.resolveSnapshotDependency (index : LockfilePackageIndex V)
    (parent : DependencyPath V) (name : PkgName) :
    PackageSnapshotDependency V → Option (DependencyPath V)
  | .pkgVerPeer version => index.resolveBySpecifier parent.customRegistry ⟨name, version⟩
  | .dependencyPath path => some path

def LockfilePackageIndex.resolveOptionalDependency (index : LockfilePackageIndex V)
    (parent : DependencyPath V) (name reference : Text) :
    Except FetchError (Option (DependencyPath V)) :=
  if (DependencyPath.fromStr (V := V) reference).isOk then
    .ok (index.byDependencyPath.get reference)
  else
    match PkgVerPeer.fromStr (V := V) reference with
    | .error e => .error (.parseOptionalDependency name reference e.display)
    | .ok version =>
        match PkgName.parse name with
        | .error e => .error (.parseOptionalDependency name reference e.display)
        | .ok packageName =>
            .ok (index.resolveBySpecifier parent.customRegistry ⟨packageName, version⟩)

end Index

section Edges

variable {V I : Type} [NodeSemver V] [BEq V]

/-- The children pushed for one package: its dependencies, then its optional ones. -/
def snapshotChildren (index : LockfilePackageIndex V) (parent : DependencyPath V)
    (snapshot : PackageSnapshot V I) : Except FetchError (List (DependencyPath V)) := do
  let dependencies ← (snapshot.dependencies.elim [] KeyedMap.entries).mapM fun e =>
    match index.resolveSnapshotDependency parent e.1 e.2 with
    | some child => .ok child
    | none => .error (FetchError.resolvePackage e.1.display)
  let optional ← (snapshot.optionalDependencies.elim [] KeyedMap.entries).mapM fun e => do
    match ← index.resolveOptionalDependency parent e.1 e.2 with
    | some child => .ok child
    | none => .error (FetchError.resolvePackage e.1)
  return dependencies ++ optional

def rootDependencyPaths (project : ProjectSnapshot V) (index : LockfilePackageIndex V)
    (groups : List DependencyGroup) : Except FetchError (List (DependencyPath V)) :=
  (project.dependenciesByGroups groups).mapM fun e =>
    match index.resolveRootDependency e.1 e.2.version with
    | some path => .ok path
    | none => .error (.resolvePackage e.1.display)

/-- The initial stack, bottom first. -/
def rootPaths (snapshot : RootProjectSnapshot V) (index : LockfilePackageIndex V)
    (groups : List DependencyGroup) : Except FetchError (List (DependencyPath V)) :=
  match snapshot with
  | .single project => rootDependencyPaths project index groups
  | .multi projects =>
      (projects.importers.entries.mapM fun e => rootDependencyPaths e.2 index groups).map
        List.flatten

end Edges

section Loop

variable {V I : Type} [NodeSemver V] [BEq V]

/-- One pop of the stack in each round; `none` when the fuel runs out. -/
def collectLoop (packages : Packages V I) (index : LockfilePackageIndex V) :
    Nat → List (DependencyPath V) → List (DependencyPath V) → List (DependencyPath V) →
      Option (Except FetchError (List (DependencyPath V)))
  | 0, _, _, _ => none
  | _ + 1, [], _, selected => some (.ok selected)
  | fuel + 1, path :: stack, visited, selected =>
      if seen visited path then collectLoop packages index fuel stack visited selected
      else
        match packages.get path with
        | none => some (.error (.missingSnapshot path.display))
        | some snapshot =>
            match snapshot.resolution with
            | .git _ => some (.error (.unsupportedResolution path.display))
            | resolution =>
                let selected := match resolution with
                  | .registry _ => selected ++ [path]
                  | .tarball _ => selected ++ [path]
                  | _ => selected
                match snapshotChildren index path snapshot with
                | .error e => some (.error e)
                | .ok children =>
                    collectLoop packages index fuel (children.reverse ++ stack)
                      (visited ++ [path]) selected

/-- What a visit of one package does apart from selecting it. -/
def expand (packages : Packages V I) (index : LockfilePackageIndex V) (path : DependencyPath V) :
    Except FetchError (List (DependencyPath V)) :=
  match packages.get path with
  | none => .error (.missingSnapshot path.display)
  | some snapshot =>
      match snapshot.resolution with
      | .git _ => .error (.unsupportedResolution path.display)
      | _ => snapshotChildren index path snapshot

def edgeCount (packages : Packages V I) (path : DependencyPath V) : Nat :=
  match packages.get path with
  | none => 0
  | some snapshot =>
      (snapshot.dependencies.elim [] KeyedMap.entries).length +
        (snapshot.optionalDependencies.elim [] KeyedMap.entries).length

def collectSelectedPackages (snapshot : RootProjectSnapshot V) (packages : Packages V I)
    (index : LockfilePackageIndex V) (groups : List DependencyGroup) :
    Option (Except FetchError (List (DependencyPath V))) :=
  match rootPaths snapshot index groups with
  | .error e => some (.error e)
  | .ok roots =>
      collectLoop packages index (roots.length + pending (edgeCount packages) packages.keys [] + 1)
        roots.reverse [] []

end Loop

section Exploration

variable {V I : Type} [NodeSemver V] [BEq V]

/-- The packages that the loop selects when it visits them. -/
def isSelected (packages : Packages V I) (path : DependencyPath V) : Bool :=
  match packages.get path with
  | none => false
  | some snapshot =>
      match snapshot.resolution with
      | .registry _ => true
      | .tarball _ => true
      | .directory _ => false
      | .git _ => false

/-- The loop is an exploration; what it selects is a part of what it visits. -/
theorem collectLoop_eq (packages : Packages V I) (index : LockfilePackageIndex V) (fuel : Nat)
    (stack visited : List (DependencyPath V)) :
    collectLoop packages index fuel stack visited (visited.filter (isSelected packages)) =
      (explore (expand packages index) fuel stack visited).map fun r =>
        r.map (List.filter (isSelected packages)) := by
  induction fuel generalizing stack visited with
  | zero => rfl
  | succ fuel ih =>
      cases stack with
      | nil => rfl
      | cons path stack =>
          by_cases hseen : seen visited path
          · simp only [collectLoop, explore, if_pos hseen]
            exact ih stack visited
          · simp only [collectLoop, explore, if_neg hseen]
            cases hget : packages.get path with
            | none => simp [expand, hget, Except.map]
            | some snapshot =>
                cases hres : snapshot.resolution with
                | git resolution => simp [expand, hget, hres, Except.map]
                | tarball resolution =>
                    cases hch : snapshotChildren index path snapshot with
                    | error e => simp [expand, hget, hres, hch, Except.map]
                    | ok children =>
                        have h := ih (children.reverse ++ stack) (visited ++ [path])
                        simp only [List.filter_append] at h
                        simpa [expand, hget, hres, hch, isSelected] using h
                | registry resolution =>
                    cases hch : snapshotChildren index path snapshot with
                    | error e => simp [expand, hget, hres, hch, Except.map]
                    | ok children =>
                        have h := ih (children.reverse ++ stack) (visited ++ [path])
                        simp only [List.filter_append] at h
                        simpa [expand, hget, hres, hch, isSelected] using h
                | directory resolution =>
                    cases hch : snapshotChildren index path snapshot with
                    | error e => simp [expand, hget, hres, hch, Except.map]
                    | ok children =>
                        have h := ih (children.reverse ++ stack) (visited ++ [path])
                        simp only [List.filter_append] at h
                        simpa [expand, hget, hres, hch, isSelected] using h

theorem snapshotChildren_congr (index : LockfilePackageIndex V) {a b : DependencyPath V}
    (h : a.customRegistry = b.customRegistry) (snapshot : PackageSnapshot V I) :
    snapshotChildren index a snapshot = snapshotChildren index b snapshot := by
  have hdep : ∀ name dep, index.resolveSnapshotDependency a name dep =
      index.resolveSnapshotDependency b name dep := by
    intro name dep
    cases dep <;> simp [LockfilePackageIndex.resolveSnapshotDependency, h]
  have hopt : ∀ name reference, index.resolveOptionalDependency a name reference =
      index.resolveOptionalDependency b name reference := by
    intro name reference
    simp [LockfilePackageIndex.resolveOptionalDependency, h]
  simp only [snapshotChildren, hdep, hopt]

/-- Equal paths have the same children. -/
theorem expand_congr [EquivBEq V] (packages : Packages V I) (index : LockfilePackageIndex V)
    (a b : DependencyPath V) (h : (a == b) = true) (children : List (DependencyPath V))
    (hexpand : expand packages index a = .ok children) :
    expand packages index b = .ok children := by
  have hget := packages.get_congr h
  have hreg := ((DependencyPath.beq_iff a b).mp h).1
  unfold expand at hexpand ⊢
  rw [← hget]
  cases hs : packages.get a with
  | none => simp [hs] at hexpand
  | some snapshot =>
      simp only [hs] at hexpand ⊢
      rw [snapshotChildren_congr index hreg] at hexpand
      cases hres : snapshot.resolution <;> simp only [hres] at hexpand ⊢
      · exact hexpand
      · exact hexpand
      · exact hexpand
      · cases hexpand

theorem snapshotChildren_length {index : LockfilePackageIndex V} {parent : DependencyPath V}
    {snapshot : PackageSnapshot V I} {children : List (DependencyPath V)}
    (h : snapshotChildren index parent snapshot = .ok children) :
    children.length = (snapshot.dependencies.elim [] KeyedMap.entries).length +
      (snapshot.optionalDependencies.elim [] KeyedMap.entries).length := by
  unfold snapshotChildren at h
  obtain ⟨dependencies, hdep, h⟩ := Results.bind_ok h
  obtain ⟨optional, hopt, h⟩ := Results.bind_ok h
  cases h
  have hd := ((Results.mapM_ok_iff _ _ _).mp hdep).length_eq
  have ho := ((Results.mapM_ok_iff _ _ _).mp hopt).length_eq
  rw [List.length_append, hd, ho]

theorem expand_length [ReflBEq V] {packages : Packages V I} {index : LockfilePackageIndex V}
    {path : DependencyPath V} {children : List (DependencyPath V)}
    (h : expand packages index path = .ok children) :
    ∃ key ∈ packages.keys, (key == path) = true ∧
      children.length ≤ edgeCount packages key := by
  unfold expand at h
  cases hs : packages.get path with
  | none => simp [hs] at h
  | some snapshot =>
      obtain ⟨key, hkey, heq⟩ := KeyedMap.exists_of_get_eq_some hs
      refine ⟨key, KeyedMap.mem_keys.mpr ⟨snapshot, hkey⟩, heq, ?_⟩
      have hch : snapshotChildren index path snapshot = .ok children := by
        cases hres : snapshot.resolution <;> simp only [hs, hres] at h
        · exact h
        · exact h
        · exact h
        · cases h
      simp only [edgeCount, KeyedMap.get_of_mem hkey, snapshotChildren_length hch, le_refl]

/-- The loop of `collect_selected_packages` terminates. -/
theorem collectSelectedPackages_isSome [EquivBEq V] (snapshot : RootProjectSnapshot V)
    (packages : Packages V I) (index : LockfilePackageIndex V) (groups : List DependencyGroup) :
    (collectSelectedPackages snapshot packages index groups).isSome := by
  unfold collectSelectedPackages
  split
  · rfl
  · rename_i roots _
    have h := collectLoop_eq packages index
      (roots.length + pending (edgeCount packages) packages.keys [] + 1) roots.reverse []
    rw [List.filter_nil] at h
    rw [h, Option.isSome_map]
    refine explore_isSome (edgeCount packages) packages.keys
      (fun n children hn => expand_length hn) _ _ _ ?_
    rw [List.length_reverse]
    omega

end Exploration

section Selection

variable {V I : Type} [NodeSemver V] [BEq V]

/-- A package reached from a direct dependency of the groups. -/
def Wanted (lockfile : RootProjectSnapshot V) (packages : Packages V I)
    (groups : List DependencyGroup) (path : DependencyPath V) : Prop :=
  ∃ roots, rootPaths lockfile (.new packages) groups = .ok roots ∧
    Reachable (expand packages (.new packages)) roots path

/-- A successful walk visits what the groups reach, up to `==`, and selects the
visited packages that can be downloaded. -/
theorem collectSelectedPackages_spec [EquivBEq V] {snapshot : RootProjectSnapshot V}
    {packages : Packages V I} {groups : List DependencyGroup}
    {selected : List (DependencyPath V)}
    (h : collectSelectedPackages snapshot packages (.new packages) groups =
      some (.ok selected)) :
    (∀ path ∈ selected, Wanted snapshot packages groups path ∧
      isSelected packages path = true) ∧
    ∀ path, Wanted snapshot packages groups path →
      ∃ v, (v == path) = true ∧ (packages.get path).isSome ∧
        (isSelected packages path = true → v ∈ selected) := by
  unfold collectSelectedPackages at h
  split at h
  · cases h
  · rename_i roots hroots
    have heq := collectLoop_eq packages (.new packages)
      (roots.length + pending (edgeCount packages) packages.keys [] + 1) roots.reverse []
    rw [List.filter_nil, h, eq_comm, Option.map_eq_some_iff] at heq
    obtain ⟨r, hr, hmap⟩ := heq
    cases r with
    | error e => cases hmap
    | ok visited =>
        have hsel : visited.filter (isSelected packages) = selected := Except.ok.inj hmap
        constructor
        · intro path hpath
          rw [← hsel, List.mem_filter] at hpath
          refine ⟨⟨roots, hroots, ?_⟩, hpath.2⟩
          exact reachable_of_mem_explore hr (fun n hn => .root (List.mem_reverse.mp hn))
            (fun n hn => by simp at hn) path hpath.1
        · rintro path ⟨roots', hroots', hreach⟩
          rw [hroots, Except.ok.injEq] at hroots'
          subst hroots'
          obtain ⟨v, hv, hvp⟩ := seen_iff.mp
            (seen_of_reachable (expand_congr packages (.new packages)) hr hreach)
          have hget := packages.get_congr hvp
          obtain ⟨-, -, hfrom⟩ := closed_of_explore hr (fun v hv => by simp at hv)
          refine ⟨v, hvp, ?_, fun hp => ?_⟩
          · rcases hfrom v hv with hv | ⟨children, hexp⟩
            · simp at hv
            · obtain ⟨key, hkey, hkv, -⟩ := expand_length hexp
              obtain ⟨s, hs⟩ := KeyedMap.mem_keys.mp hkey
              rw [← hget, ← packages.get_congr hkv, KeyedMap.get_of_mem hs]
              rfl
          · rw [← hsel, List.mem_filter]
            refine ⟨hv, ?_⟩
            unfold isSelected at hp ⊢
            rwa [hget]

end Selection

end Npnpm
