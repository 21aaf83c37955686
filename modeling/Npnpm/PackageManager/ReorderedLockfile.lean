import Npnpm.PackageManager.GenerateReordered

/-!
# The lockfile does not depend on the order of the metadata

Two lockfiles are compared like the derived `PartialEq` compares them: their maps as maps, in
whatever order they iterate.
-/

namespace Npnpm

open DepthFirst

section Records

variable {V I : Type} [NodeSemver V] [SemverRange V] {builder : LockfileBuilder V I}
  {p : PackageVersion V I} {e : DependencyPath V × PackageSnapshot V I}

/-- The record of a version has what the last range of each name is resolved to. -/
theorem LockfileBuilder.RecordsVersion.get_dependency_iff (h : builder.RecordsVersion p e)
    {package : PkgName} {d : PackageSnapshotDependency V} :
    (e.2.dependencies.bind fun dependencies => dependencies.get package) = some d ↔
      ∃ name range child specifier, PkgName.parse name = .ok package ∧
        p.lastRange builder.config.autoInstallPeers name = some range ∧
        builder.registry.resolve name range = .ok child ∧
        packageSpecifier child = .ok specifier ∧ d = .pkgVerPeer specifier.suffix := by
  constructor
  · intro hget
    obtain ⟨pairs, hpairs, hdependencies⟩ := h.dependencies
    have hpair := hget
    rw [hdependencies, bind_recorded, KeyedMap.get_ofList] at hpair
    obtain ⟨pair, hfound, -⟩ := Option.map_eq_some_iff.mp hpair
    have hkey : pair.1 = package := by simpa using List.find?_some hfound
    obtain ⟨⟨name, range⟩, hlisted, hparse, -⟩ := Results.exists_of_mem_forall₂ hpairs
      (List.mem_reverse.mp (List.mem_of_find?_eq_some hfound))
    have hlast : (p.lastRange builder.config.autoInstallPeers name).isSome := by
      rw [← p.find?_reverse_dependenciesWith, Option.isSome_map, List.find?_isSome]
      exact ⟨(name, range), List.mem_reverse.mpr hlisted, by simp⟩
    obtain ⟨last, hlast⟩ := Option.isSome_iff_exists.mp hlast
    obtain ⟨package', child, specifier, hparse', hchild, hspecifier, hget'⟩ :=
      h.recordsRange hlast
    rw [hparse, hkey] at hparse'
    obtain rfl := Except.ok.inj hparse'
    refine ⟨name, last, child, specifier, hkey ▸ hparse, hlast, hchild, hspecifier, ?_⟩
    exact Option.some.inj (hget.symm.trans hget')
  · rintro ⟨name, range, child, specifier, hparse, hlast, hchild, hspecifier, rfl⟩
    obtain ⟨package', child', specifier', hparse', hchild', hspecifier', hget⟩ :=
      h.recordsRange hlast
    obtain rfl := Except.ok.inj (hparse.symm.trans hparse')
    obtain rfl := Except.ok.inj (hchild.symm.trans hchild')
    obtain rfl := Except.ok.inj (hspecifier.symm.trans hspecifier')
    exact hget

omit [NodeSemver V] [SemverRange V] in
theorem PackageVersion.Reordered.lastRange_eq {q : PackageVersion V I} (h : p.Reordered q)
    (withPeerDependencies : Bool) (name : Text) :
    q.lastRange withPeerDependencies name = p.lastRange withPeerDependencies name := by
  simp only [PackageVersion.lastRange, PackageVersion.peerRange, PackageVersion.declaredRange,
    bind_get_of_same h.dependencies, bind_get_of_same h.optionalDependencies,
    bind_get_of_same h.peerDependencies]

end Records

section Recorded

variable {K W : Type} [BEq K] {same : W → W → Prop}

/-- Equal maps are recorded as equal ones. -/
theorem recorded_same {m n : KeyedMap K W} (h : m.Same same n) :
    Option.Rel (KeyedMap.Same same) (recorded m) (recorded n) := by
  have hempty : n.isEmpty = m.isEmpty := by
    rw [Bool.eq_iff_iff, KeyedMap.isEmpty, KeyedMap.isEmpty, List.isEmpty_iff_length_eq_zero,
      List.isEmpty_iff_length_eq_zero, h.1]
  unfold recorded
  rw [hempty]
  split
  · exact .none
  · exact .some h

end Recorded

section Snapshots

variable {V I : Type} [NodeSemver V] [SemverRange V] [BEq V] [ReflBEq V]
  {generate generate' : GenerateLockfile V I}
  (htrans : Std.TransCmp (SemverRange.compare (V := V)))
  (hdistinct : ∀ e ∈ generate.registry.entries, e.2.PrecedenceDistinct)
  (h : generate.Reordered generate') {p q : PackageVersion V I}
  {e e' : DependencyPath V × PackageSnapshot V I}
include htrans hdistinct h

omit [BEq V] [ReflBEq V] in
theorem GenerateLockfile.Reordered.get_dependency (hpq : p.Reordered q)
    (hp : generate.builder.RecordsVersion p e) (hq : generate'.builder.RecordsVersion q e')
    {package : PkgName} {d : PackageSnapshotDependency V}
    (hget : (e.2.dependencies.bind fun dependencies => dependencies.get package) = some d) :
    (e'.2.dependencies.bind fun dependencies => dependencies.get package) = some d := by
  obtain ⟨name, range, child, specifier, hparse, hlast, hchild, hspecifier, hd⟩ :=
    hp.get_dependency_iff.mp hget
  obtain ⟨child', hchild', hreordered⟩ :=
    (Registry.resolve_reordered htrans hdistinct h.registry name range).exists_ok hchild
  refine hq.get_dependency_iff.mpr ⟨name, range, child', specifier, hparse, ?_, hchild', ?_, hd⟩
  · rw [hpq.lastRange_eq]
    exact (congrArg (fun config => p.lastRange config.autoInstallPeers name) h.config).trans hlast
  · rwa [hreordered.packageSpecifier_eq]

/-- The records of a version name the same dependencies. -/
theorem GenerateLockfile.Reordered.dependencies_same (hpq : p.Reordered q)
    (hp : generate.builder.RecordsVersion p e) (hq : generate'.builder.RecordsVersion q e') :
    Option.Rel (KeyedMap.Same PackageSnapshotDependency.Same) e.2.dependencies
      e'.2.dependencies := by
  have hlookup : ∀ package,
      (e'.2.dependencies.bind fun dependencies => dependencies.get package) =
        e.2.dependencies.bind fun dependencies => dependencies.get package := by
    intro package
    ext d
    constructor
    · exact GenerateLockfile.Reordered.get_dependency htrans
        (GenerateLockfile.Reordered.precedenceDistinct htrans hdistinct h) h.symm hpq.symm hq hp
    · exact GenerateLockfile.Reordered.get_dependency htrans hdistinct h hpq hp hq
  obtain ⟨pairs, -, hpairs⟩ := hp.dependencies
  obtain ⟨pairs', -, hpairs'⟩ := hq.dependencies
  rw [hpairs, hpairs'] at hlookup ⊢
  simp only [bind_recorded] at hlookup
  apply recorded_same
  apply KeyedMap.Same.of_get
  intro package
  rw [hlookup]
  exact optionRel_refl PackageSnapshotDependency.Same.refl _

end Snapshots

section Flags

variable {V I : Type} [NodeSemver V] [SemverRange V] [BEq V]
  {generate generate' : GenerateLockfile V I}

/-- A version is visited for another group than `devDependencies` when an entry of one leads to
it, since the development entries are the last to be walked. -/
theorem GenerateLockfile.exists_prod_visit_iff (hkeys : generate.registry.KeysDistinct)
    {visits found : List (PackageFlags × PackageVersion V I)}
    (h : Walk generate.builder.graph [] generate.roots visits found) (p : PackageVersion V I) :
    (∃ flags, flags.dev = false ∧ (flags, p) ∈ visits) ↔ generate.ReachableProd p := by
  rw [GenerateLockfile.reachableProd_iff_way]
  have hsplit : Walk generate.builder.graph [] (generate.prodRoots ++ generate.builder.rootGroup
      generate.manifest generate.dependencyGroups .dev) visits found := h
  obtain ⟨v₁, f₁, v₂, f₂, hfirst, -, rfl, -⟩ := hsplit.split
  constructor
  · rintro ⟨flags, hflags, hvisit⟩
    exact ⟨flags, hflags, h.way_of_visit (fun a ha => .start ha) hvisit⟩
  · rintro ⟨flags, hflags, hway⟩
    have hprod := (GenerateLockfile.way_prodRoots_iff (flags, p)).mpr ⟨hflags, hway⟩
    obtain ⟨flags', hfound⟩ := (hfirst.found_iff_way hkeys.same_iff p).mpr ⟨flags, hprod⟩
    have hvisit := hfirst.found_subset hfound
    have hway' := hfirst.way_of_visit (fun a ha => .start ha) hvisit
    exact ⟨flags', ((GenerateLockfile.way_prodRoots_iff _).mp hway').1,
      List.mem_append_left _ hvisit⟩

variable [EquivBEq V] {lockfile lockfile' : Lockfile V I}

/-- The flag `dev` of a package is set unless another entry leads to one of its versions. -/
theorem GenerateLockfile.exists_dev_flag (hkeys : generate.registry.KeysDistinct)
    (hrun : generate.run = .ok lockfile) {path : DependencyPath V}
    {snapshot : PackageSnapshot V I} (hsnapshot : lockfile.snapshotAt path = some snapshot) :
    ∃ dev, snapshot.dev = some dev ∧
      (dev = false ↔ ∃ p, generate.ReachableProd p ∧ p.HasPath path) := by
  obtain ⟨visits, found, hrecords⟩ := GenerateLockfile.runWith_walk hrun
  obtain ⟨dev, hdev, hvisits⟩ := hrecords.flags path snapshot hsnapshot .dev
  refine ⟨dev, hdev, ?_⟩
  rw [← Bool.not_eq_true, hvisits]
  simp only [← GenerateLockfile.exists_prod_visit_iff hkeys hrecords.walk, PackageFlag.ofFlags]
  constructor
  · intro hall
    push Not at hall
    obtain ⟨v, hv, hpath, hflags⟩ := hall
    exact ⟨v.2, ⟨v.1, by simpa using hflags, hv⟩, hpath⟩
  · rintro ⟨p, ⟨flags, hflags, hv⟩, hpath⟩ hall
    have htrue := hall (flags, p) hv hpath
    simp [hflags] at htrue

end Flags

section Lockfiles

variable {V I : Type} [NodeSemver V] [SemverRange V] [BEq V] [EquivBEq V]

def PackageSnapshot.withoutOptionalFlag (snapshot : PackageSnapshot V I) : PackageSnapshot V I :=
  { snapshot with optional := none }

/-- The lockfile without the flag `optional` of its packages. -/
def Lockfile.withoutOptionalFlags (lockfile : Lockfile V I) : Lockfile V I :=
  { lockfile with
    packages := lockfile.packages.map (KeyedMap.mapValues PackageSnapshot.withoutOptionalFlag) }

omit [NodeSemver V] [SemverRange V] [EquivBEq V] in
/-- Snapshots of which only the edges are set are equal when their edges and flags are. -/
theorem PackageSnapshot.EdgesOnly.same {a b : PackageSnapshot V I} (ha : a.EdgesOnly)
    (hb : b.EdgesOnly) (hresolution : a.resolution = b.resolution)
    (hdependencies :
      Option.Rel (KeyedMap.Same PackageSnapshotDependency.Same) a.dependencies b.dependencies)
    (hdev : a.dev = b.dev) : a.withoutOptionalFlag.Same b.withoutOptionalFlag := by
  obtain ⟨resolution, dependencies, dev, optional, rfl⟩ := ha
  obtain ⟨resolution', dependencies', dev', optional', rfl⟩ := hb
  obtain rfl : resolution = resolution' := hresolution
  obtain rfl : dev = dev' := hdev
  exact ⟨.none, .none, .none, hdependencies, .none, rfl⟩

variable {generate generate' : GenerateLockfile V I} {lockfile lockfile' : Lockfile V I}
  (htrans : Std.TransCmp (SemverRange.compare (V := V)))
  (hdistinct : ∀ e ∈ generate.registry.entries, e.2.PrecedenceDistinct)
  (hkeys : generate.registry.KeysDistinct) (hkeys' : generate'.registry.KeysDistinct)
  (h : generate.Reordered generate') (hrun : generate.run = .ok lockfile)
  (hrun' : generate'.run = .ok lockfile')
include htrans hdistinct h

omit [EquivBEq V] in
theorem GenerateLockfile.Reordered.exists_reachableProd {path : DependencyPath V}
    (hp : ∃ p, generate.ReachableProd p ∧ p.HasPath path) :
    ∃ q, generate'.ReachableProd q ∧ q.HasPath path := by
  obtain ⟨p, hp, hpath⟩ := hp
  obtain ⟨q, hpq, hq⟩ := GenerateLockfile.Reordered.reaches htrans hdistinct h hp
  exact ⟨q, hq, hpq.hasPath_iff.mpr hpath⟩

include hkeys hkeys' hrun hrun'

theorem GenerateLockfile.Reordered.dev_eq {path : DependencyPath V}
    {snapshot snapshot' : PackageSnapshot V I} (hs : lockfile.snapshotAt path = some snapshot)
    (hs' : lockfile'.snapshotAt path = some snapshot') : snapshot.dev = snapshot'.dev := by
  obtain ⟨dev, hdev, hiff⟩ := GenerateLockfile.exists_dev_flag hkeys hrun hs
  obtain ⟨dev', hdev', hiff'⟩ := GenerateLockfile.exists_dev_flag hkeys' hrun' hs'
  have hsame : dev = false ↔ dev' = false := by
    rw [hiff, hiff']
    constructor
    · exact GenerateLockfile.Reordered.exists_reachableProd htrans hdistinct h
    · exact GenerateLockfile.Reordered.exists_reachableProd htrans
        (GenerateLockfile.Reordered.precedenceDistinct htrans hdistinct h) h.symm
  rw [hdev, hdev']
  cases dev <;> cases dev' <;> simp_all

/-- A package of the one lockfile is one of the other. -/
theorem GenerateLockfile.Reordered.exists_snapshot {path : DependencyPath V}
    {snapshot : PackageSnapshot V I} (hs : lockfile.snapshotAt path = some snapshot) :
    ∃ snapshot', lockfile'.snapshotAt path = some snapshot' ∧
      snapshot.withoutOptionalFlag.Same snapshot'.withoutOptionalFlag := by
  obtain ⟨packages, hpackages, hget⟩ := Option.bind_eq_some_iff.mp hs
  obtain ⟨key, hmem, hkey⟩ := KeyedMap.exists_of_get_eq_some hget
  have he : (key, snapshot) ∈ lockfile.packageEntries := by
    rw [Lockfile.packageEntries, hpackages]
    exact hmem
  obtain ⟨p, hp, -, hrecords⟩ := GenerateLockfile.exists_reachable_of_entry hkeys hrun he
  obtain ⟨q, hpq, hq⟩ := GenerateLockfile.Reordered.reaches htrans hdistinct h hp
  obtain ⟨e', he', hrecords'⟩ := GenerateLockfile.exists_record_of_reachable hkeys' hrun' hq
  have hpath : e'.1 = key := by
    have heq := hrecords'.path
    rw [hpq.dependencyPath_eq, hrecords.path] at heq
    exact (Except.ok.inj heq).symm
  have hs' : lockfile'.snapshotAt path = some e'.2 := by
    have hget' := lockfile'.snapshotAt_of_mem he'
    obtain ⟨packages', hpackages', hget'⟩ := Option.bind_eq_some_iff.mp hget'
    rw [hpath, KeyedMap.get_congr packages' hkey] at hget'
    rw [Lockfile.snapshotAt, hpackages']
    exact hget'
  refine ⟨e'.2, hs', ?_⟩
  apply (GenerateLockfile.run_edgesOnly hrun _ he).same (GenerateLockfile.run_edgesOnly hrun' _ he')
  · have hresolution := hrecords'.resolution
    rw [h.resolution_eq hpq, hrecords.resolution] at hresolution
    exact Except.ok.inj hresolution
  · exact GenerateLockfile.Reordered.dependencies_same htrans hdistinct h hpq hrecords hrecords'
  · exact GenerateLockfile.Reordered.dev_eq htrans hdistinct hkeys hkeys' h hrun hrun' hs hs'

theorem GenerateLockfile.Reordered.packages_same :
    Option.Rel (KeyedMap.Same PackageSnapshot.Same) lockfile.withoutOptionalFlags.packages
      lockfile'.withoutOptionalFlags.packages := by
  obtain ⟨_, _, packages, _, _, _, -, -, -, -, hpackages⟩ := GenerateLockfile.runWith_ok hrun
  obtain ⟨_, _, packages', _, _, _, -, -, -, -, hpackages'⟩ := GenerateLockfile.runWith_ok hrun'
  have hat := Lockfile.snapshotAt_eq hpackages
  have hat' := Lockfile.snapshotAt_eq hpackages'
  have hsame : packages.Same (fun a b => a.withoutOptionalFlag.Same b.withoutOptionalFlag)
      packages' := by
    apply KeyedMap.Same.of_get
    intro path
    rw [← hat, ← hat']
    cases hs : lockfile.snapshotAt path with
    | some snapshot =>
        obtain ⟨snapshot', hs', hsame⟩ := GenerateLockfile.Reordered.exists_snapshot htrans
          hdistinct hkeys hkeys' h hrun hrun' hs
        rw [hs']
        exact .some hsame
    | none =>
        cases hs' : lockfile'.snapshotAt path with
        | none => exact .none
        | some snapshot' =>
            obtain ⟨snapshot, hs'', -⟩ := GenerateLockfile.Reordered.exists_snapshot htrans
              (GenerateLockfile.Reordered.precedenceDistinct htrans hdistinct h) hkeys' hkeys
              h.symm hrun' hrun hs'
            rw [hs] at hs''
            cases hs''
  have hrecorded := recorded_same hsame
  simp only [Lockfile.withoutOptionalFlags, hpackages, hpackages']
  generalize recorded packages = a, recorded packages' = b at hrecorded
  cases hrecorded with
  | none => exact .none
  | some hab => exact .some hab.mapValues

end Lockfiles

section Project

variable {V I : Type} [NodeSemver V] [SemverRange V] [BEq V]

omit [BEq V] in
theorem LockfileBuilder.records_rightUnique (builder : LockfileBuilder V I) :
    Relator.RightUnique builder.Records := by
  rintro d ⟨name, specified⟩ ⟨name', specified'⟩ ⟨hparse, hspecifier, child, specifier, hchild, hof,
    hversion⟩ ⟨hparse', hspecifier', child', specifier', hchild', hof', hversion'⟩
  obtain rfl := Except.ok.inj (hchild.symm.trans hchild')
  obtain rfl := Except.ok.inj (hof.symm.trans hof')
  have hname : name = name' := Except.ok.inj (hparse.symm.trans hparse')
  have hsame : specified = specified' := by
    cases specified
    cases specified'
    simp_all
  rw [hname, hsame]

/-- What `run` writes besides the project and the packages. -/
theorem GenerateLockfile.run_shape {generate : GenerateLockfile V I} {lockfile : Lockfile V I}
    (h : generate.run = .ok lockfile) :
    lockfile = {
      lockfileVersion := sixZero
      settings := some ⟨generate.config.autoInstallPeers, false⟩
      neverBuiltDependencies := none
      overrides := none
      projectSnapshot := lockfile.projectSnapshot
      packages := lockfile.packages } := by
  obtain ⟨_, -, h⟩ := Results.bind_ok h
  obtain ⟨_, -, h⟩ := Results.bind_ok h
  obtain ⟨_, -, h⟩ := Results.bind_ok h
  cases h
  rfl

variable {generate generate' : GenerateLockfile V I} {lockfile lockfile' : Lockfile V I}
  (htrans : Std.TransCmp (SemverRange.compare (V := V)))
  (hdistinct : ∀ e ∈ generate.registry.entries, e.2.PrecedenceDistinct)
  (h : generate.Reordered generate')
include htrans hdistinct h

omit [BEq V] in
theorem GenerateLockfile.Reordered.records {d : Text × Text}
    {e : PkgName × ResolvedDependencySpec V} (hrecords : generate.builder.Records d e) :
    generate'.builder.Records d e := by
  obtain ⟨hparse, hspecifier, child, specifier, hchild, hof, hversion⟩ := hrecords
  obtain ⟨child', hchild', hreordered⟩ :=
    (Registry.resolve_reordered htrans hdistinct h.registry d.1 d.2).exists_ok hchild
  refine ⟨hparse, hspecifier, child', specifier, hchild', ?_, hversion⟩
  rwa [hreordered.packageSpecifier_eq]

/-- The entries of the project are recorded as they are in the other order. -/
theorem GenerateLockfile.Reordered.projectSnapshot_eq (hrun : generate.run = .ok lockfile)
    (hrun' : generate'.run = .ok lockfile') :
    lockfile'.projectSnapshot = lockfile.projectSnapshot := by
  obtain ⟨project, hproject, hgroups⟩ := GenerateLockfile.run_groups hrun
  obtain ⟨project', hproject', hgroups'⟩ := GenerateLockfile.run_groups hrun'
  have hmaps : ∀ group, group ≠ .peer →
      project'.getMapByGroup group = project.getMapByGroup group := by
    intro group hpeer
    by_cases hgroup : group ∈ generate.dependencyGroups
    · have hgroup' : group ∈ generate'.dependencyGroups := by rwa [h.dependencyGroups]
      obtain ⟨⟨entries, _⟩, hmap, hentries⟩ := (hgroups group hpeer).2 hgroup
      obtain ⟨⟨entries', _⟩, hmap', hentries'⟩ := (hgroups' group hpeer).2 hgroup'
      have hrecords : List.Forall₂ generate'.builder.Records
          (generate'.manifest.groupDependencies group) entries := by
        rw [h.manifest]
        exact hentries.imp fun d e => GenerateLockfile.Reordered.records htrans hdistinct h
      obtain rfl : entries' = entries :=
        List.right_unique_forall₂' generate'.builder.records_rightUnique hentries' hrecords
      rw [hmap, hmap']
    · have hgroup' : group ∉ generate'.dependencyGroups := by rwa [h.dependencyGroups]
      rw [(hgroups group hpeer).1 hgroup, (hgroups' group hpeer).1 hgroup']
  obtain ⟨_, _, _, _, _, _, -, -, -, hfields, -⟩ := GenerateLockfile.runWith_ok hrun
  obtain ⟨_, _, _, _, _, _, -, -, -, hfields', -⟩ := GenerateLockfile.runWith_ok hrun'
  rw [hproject] at hfields
  rw [hproject'] at hfields'
  obtain rfl := RootProjectSnapshot.single.inj hfields
  obtain rfl := RootProjectSnapshot.single.inj hfields'
  have hprod := hmaps .prod (by simp)
  have hoptional := hmaps .optional (by simp)
  have hdev := hmaps .dev (by simp)
  simp only [ProjectSnapshot.getMapByGroup] at hprod hoptional hdev
  rw [hproject, hproject', hprod, hoptional, hdev]

variable [EquivBEq V]

/-- In whatever order the maps of the metadata iterate, a lockfile is generated for all of them
or for none, and the lockfiles are equal but for the flag `optional` of their packages. -/
theorem GenerateLockfile.run_reordered (hkeys : generate.registry.KeysDistinct)
    (hkeys' : generate'.registry.KeysDistinct) (valueEq : Serde.Document → Serde.Document → Prop) :
    ((∃ lockfile, generate.run = .ok lockfile) ↔ ∃ lockfile, generate'.run = .ok lockfile) ∧
      ∀ lockfile lockfile', generate.run = .ok lockfile → generate'.run = .ok lockfile' →
        lockfile.withoutOptionalFlags.Same valueEq lockfile'.withoutOptionalFlags := by
  have hdistinct' := GenerateLockfile.Reordered.precedenceDistinct htrans hdistinct h
  refine ⟨⟨?_, ?_⟩, fun lockfile lockfile' hrun hrun' => ?_⟩
  · rintro ⟨lockfile, hrun⟩
    apply GenerateLockfile.exists_run_of_not_fault
    intro stop hstop
    exact GenerateLockfile.not_fault_of_run hkeys hrun stop
      (GenerateLockfile.Reordered.fault htrans hdistinct' h.symm hstop)
  · rintro ⟨lockfile', hrun'⟩
    apply GenerateLockfile.exists_run_of_not_fault
    intro stop hstop
    exact GenerateLockfile.not_fault_of_run hkeys' hrun' stop
      (GenerateLockfile.Reordered.fault htrans hdistinct h hstop)
  · have hshape := GenerateLockfile.run_shape hrun
    have hshape' := GenerateLockfile.run_shape hrun'
    have hproject := GenerateLockfile.Reordered.projectSnapshot_eq htrans hdistinct h hrun hrun'
    obtain ⟨_, _, _, _, _, _, -, -, -, hfields, -⟩ := GenerateLockfile.runWith_ok hrun
    refine ⟨?_, ?_, ?_, ?_⟩
    · rw [hshape, hshape']
      exact .none
    · simp only [Lockfile.withoutOptionalFlags, hproject, hfields]
      refine .single ⟨.none, ?_, ?_, ?_, .none, rfl⟩
      all_goals exact optionRel_refl (KeyedMap.Same.refl ResolvedDependencySpec.Same.refl) _
    · exact GenerateLockfile.Reordered.packages_same htrans hdistinct hkeys hkeys' h hrun hrun'
    · rw [hshape, hshape', h.config]
      rfl

end Project

section Samples

/-- `r` depends on `x` and `y`, in the order given. `c` is an optional dependency of `x` and a
dependency of `y`, and `d` is one of `c`. -/
def diamondGenerate (dependencies : List (Text × Text)) :
    GenerateLockfile CoreVersion HashIntegrity where
  config := defaultNpmrc
  manifest := manifestOf [(.prod, [("r".toList, "*".toList)])]
  dependencyGroups := [.prod, .dev, .optional]
  registry := releases
    [("r".toList, [releasedVersion "r".toList firstVersion dependencies []]),
    ("x".toList, [releasedVersion "x".toList firstVersion [] [("c".toList, "*".toList)]]),
    ("y".toList, [releasedVersion "y".toList firstVersion [("c".toList, "*".toList)] []]),
    ("c".toList, [releasedVersion "c".toList firstVersion [("d".toList, "*".toList)] []]),
    ("d".toList, [releasedVersion "d".toList firstVersion [] []])]

def diamondDependencies : List (Text × Text) := [("x".toList, "*".toList), ("y".toList, "*".toList)]

/-- A registry in which the maps of one version are in another order. -/
theorem releases_reordered {p q : PackageVersion CoreVersion HashIntegrity} (h : p.Reordered q)
    (name : Text) {rest : List (Text × List (PackageVersion CoreVersion HashIntegrity))}
    (hdistinct : ((name, [p]) :: rest).Pairwise fun a b => (a.1 == b.1) = false) :
    (releases ((name, [p]) :: rest)).Reordered (releases ((name, [q]) :: rest)) := by
  have hversions : (KeyedMap.ofList [(NodeSemver.display p.version, p)]).Same
      PackageVersion.Reordered (KeyedMap.ofList [(NodeSemver.display q.version, q)]) := by
    rw [h.version]
    exact .of_first PackageVersion.Reordered.refl rfl rfl h
  refine .of_first Package.Reordered.refl
    (KeyedMap.entries_ofList (List.pairwise_map.mpr hdistinct))
    (KeyedMap.entries_ofList (List.pairwise_map.mpr ?_)) ⟨rfl, .refl (fun _ => rfl) _, hversions⟩
  exact .cons (fun a ha => (List.pairwise_cons.mp hdistinct).1 a ha)
    (List.pairwise_cons.mp hdistinct).2

theorem diamondGenerate_reordered :
    (diamondGenerate diamondDependencies).Reordered
      (diamondGenerate diamondDependencies.reverse) := by
  have hmap : (KeyedMap.ofList diamondDependencies).Same (· = ·)
      (KeyedMap.ofList diamondDependencies.reverse) := by
    refine ⟨rfl, fun e he => ?_⟩
    rcases List.mem_pair.mp he with rfl | rfl
    · exact ⟨_, rfl, rfl⟩
    · exact ⟨_, rfl, rfl⟩
  refine ⟨rfl, rfl, rfl, releases_reordered ?_ _ (by decide)⟩
  exact ⟨rfl, rfl, rfl, .some hmap, optionRel_refl (.refl fun _ => rfl) _, .none⟩

/-- The flag of `d` says which of the two dependencies came first, and nothing else does. -/
theorem GenerateLockfile.run_reordered_diamond :
    ∃ lockfile lockfile', (diamondGenerate diamondDependencies).run = .ok lockfile ∧
      (diamondGenerate diamondDependencies.reverse).run = .ok lockfile' ∧
      lockfile.withoutOptionalFlags.Same (· = ·) lockfile'.withoutOptionalFlags ∧
      ¬ lockfile.Same (· = ·) lockfile' := by
  have hall : ((diamondGenerate diamondDependencies).run.toOption.bind fun lockfile =>
      (diamondGenerate diamondDependencies.reverse).run.toOption.map fun lockfile' =>
        ((lockfile.snapshotAt (firstKey ['d'])).map PackageSnapshot.optional,
          (lockfile'.snapshotAt (firstKey ['d'])).map PackageSnapshot.optional)) =
      some (some (some true), some (some false)) := by
    decide +kernel
  obtain ⟨lockfile, hlockfile, hall⟩ := Option.bind_eq_some_iff.mp hall
  obtain ⟨lockfile', hlockfile', hflags⟩ := Results.exists_of_toOption_map hall
  have hrun := Results.toOption_eq_some hlockfile
  refine ⟨lockfile, lockfile', hrun, hlockfile', ?_, fun hsame => ?_⟩
  · have htrans : Std.TransCmp (SemverRange.compare (V := CoreVersion)) :=
      inferInstanceAs (Std.TransCmp (compareOn CoreVersion.numbers))
    exact (GenerateLockfile.run_reordered htrans (by decide)
      diamondGenerate_reordered (keysDistinct_of_pairwise (by decide))
      (keysDistinct_of_pairwise (by decide)) (· = ·)).2 _ _ hrun hlockfile'
  · obtain ⟨hflag, hflag'⟩ := Prod.mk.inj hflags
    obtain ⟨snapshot, hsnapshot, hoptional⟩ := Option.map_eq_some_iff.mp hflag
    obtain ⟨snapshot', hsnapshot', hoptional'⟩ := Option.map_eq_some_iff.mp hflag'
    obtain ⟨packages, hpackages, hget⟩ := Option.bind_eq_some_iff.mp hsnapshot
    obtain ⟨packages', hpackages', hget'⟩ := Option.bind_eq_some_iff.mp hsnapshot'
    have hrel := hsame.packages
    rw [hpackages, hpackages'] at hrel
    obtain hpackages | hpackages := hrel
    have hrel := hpackages.get (firstKey ['d'])
    rw [hget, hget'] at hrel
    obtain hrel | hrel := hrel
    have hothers := congrArg PackageSnapshot.optional hrel.others
    rw [hoptional, hoptional'] at hothers
    cases hothers

end Samples

end Npnpm
