import Npnpm.PackageManager.GenerateReach

/-!
# The flags of a generated lockfile

A package is a development dependency when no other entry leads to it, since the
development entries are the last to be walked. It is optional when every visit
to it is, and the dependencies of a package are visited only when the package is
found: what a package is found as decides the flags below it.
-/

namespace Npnpm

open DepthFirst

section Dev

variable {V I : Type} [NodeSemver V] [BEq V] [SemverRange V]

/-- A version that an entry of another group than `devDependencies` leads to. -/
def GenerateLockfile.ReachableProd (generate : GenerateLockfile V I) :
    PackageVersion V I → Prop :=
  generate.Reaches (fun group => group = .prod ∨ group = .optional) fun _ => True

/-- The roots of the passes before the last. -/
def GenerateLockfile.prodRoots (generate : GenerateLockfile V I) :
    List (PackageFlags × PackageVersion V I) :=
  let group := generate.builder.rootGroup generate.manifest generate.dependencyGroups
  group .prod ++ group .optional

theorem GenerateLockfile.reachableProd_iff_way {generate : GenerateLockfile V I}
    (p : PackageVersion V I) :
    generate.ReachableProd p ↔
      ∃ flags, flags.dev = false ∧ Way generate.builder.graph generate.roots (flags, p) := by
  refine GenerateLockfile.reaches_iff_way (fun flags => flags.dev = false) (fun group => ?_) ?_ p
  · cases group <;> simp
  · exact fun _ _ => (and_iff_left trivial).symm

/-- The ways on which the flag is unset begin before the last pass. -/
theorem GenerateLockfile.way_prodRoots_iff {generate : GenerateLockfile V I}
    (a : PackageFlags × PackageVersion V I) :
    Way generate.builder.graph generate.prodRoots a ↔
      a.1.dev = false ∧ Way generate.builder.graph generate.roots a := by
  constructor
  · intro h
    induction h with
    | @start b hb =>
        refine ⟨?_, .start (List.mem_append_left _ hb)⟩
        rcases List.mem_append.mp hb with hb | hb <;>
          simp [(LockfileBuilder.mem_rootGroup.mp hb).2.1]
    | step _ hc ih =>
        obtain ⟨name, versionRange, -, -, hflags⟩ := LockfileBuilder.mem_successors.mp hc
        refine ⟨?_, ih.2.step hc⟩
        rw [hflags]
        exact ih.1
  · rintro ⟨hdev, h⟩
    induction h with
    | @start b hb =>
        rcases List.mem_append.mp hb with hb | hb
        · exact .start hb
        · rw [(LockfileBuilder.mem_rootGroup.mp hb).2.1] at hdev
          exact absurd hdev (by simp)
    | step _ hc ih =>
        obtain ⟨name, versionRange, -, -, hflags⟩ := LockfileBuilder.mem_successors.mp hc
        rw [hflags] at hdev
        exact (ih hdev).step hc

/-- A package is marked `dev` exactly when no entry of another group leads to it. -/
theorem GenerateLockfile.dev_iff [EquivBEq V] {generate : GenerateLockfile V I}
    (hdistinct : generate.registry.KeysDistinct) {lockfile : Lockfile V I}
    (h : generate.run = .ok lockfile) {path : DependencyPath V} {snapshot : PackageSnapshot V I}
    (hsnapshot : lockfile.snapshotAt path = some snapshot) :
    ∃ dev, snapshot.dev = some dev ∧
      (dev = true ↔ ¬ ∃ p, generate.ReachableProd p ∧ p.HasPath path) := by
  obtain ⟨visits, found, hrecords⟩ := GenerateLockfile.runWith_walk h
  obtain ⟨dev, hdev, hvisits⟩ := hrecords.flags path snapshot hsnapshot .dev
  refine ⟨dev, hdev, hvisits.trans ?_⟩
  have hwalk : Walk generate.builder.graph [] (generate.prodRoots ++ generate.builder.rootGroup
      generate.manifest generate.dependencyGroups .dev) visits found := hrecords.walk
  obtain ⟨v₁, f₁, v₂, f₂, hwalk₁, -, rfl, -⟩ := hwalk.split
  constructor
  · rintro hall ⟨p, hp, hpath⟩
    obtain ⟨flags, hflags, hway⟩ := (GenerateLockfile.reachableProd_iff_way p).mp hp
    have hprod := (GenerateLockfile.way_prodRoots_iff (flags, p)).mpr ⟨hflags, hway⟩
    obtain ⟨flags', hfound⟩ := (hwalk₁.found_iff_way hdistinct.same_iff p).mpr ⟨flags, hprod⟩
    have hvisit := hwalk₁.found_subset hfound
    have hdev' := ((GenerateLockfile.way_prodRoots_iff _).mp
      (hwalk₁.way_of_visit (fun a ha => .start ha) hvisit)).1
    have htrue := hall (flags', p) (List.mem_append_left _ hvisit) hpath
    exact absurd htrue (by simpa [PackageFlag.ofFlags] using hdev')
  · intro hno v hv hpath
    by_contra hfalse
    have hway := hrecords.walk.way_of_visit (fun a ha => .start ha) hv
    exact hno ⟨v.2, (GenerateLockfile.reachableProd_iff_way v.2).mpr
      ⟨v.1, by simpa [PackageFlag.ofFlags] using hfalse, hway⟩, hpath⟩

/-- The key of `{name}@1.0.0`. -/
def firstKey (name : Text) : DependencyPath CoreVersion :=
  ⟨none, ⟨⟨none, name⟩, ⟨firstVersion, []⟩⟩⟩

theorem cycleGenerate_keysDistinct : cycleGenerate.registry.KeysDistinct :=
  keysDistinct_of_pairwise (List.pairwise_pair.mpr (by decide))

theorem GenerateLockfile.dev_iff_cycle :
    ∃ lockfile snapshot, cycleGenerate.run = .ok lockfile ∧
      lockfile.snapshotAt (firstKey ['b']) = some snapshot ∧
      ∃ dev, snapshot.dev = some dev ∧
        (dev = true ↔ ¬ ∃ p, cycleGenerate.ReachableProd p ∧ p.HasPath (firstKey ['b'])) := by
  have hrun : cycleGenerate.run.toOption.map
      (fun lockfile => (lockfile.snapshotAt (firstKey ['b'])).isSome) = some true := by
    decide
  obtain ⟨lockfile, hlockfile, hsome⟩ := Results.exists_of_toOption_map hrun
  obtain ⟨snapshot, hsnapshot⟩ := Option.isSome_iff_exists.mp hsome
  exact ⟨lockfile, snapshot, hlockfile, hsnapshot,
    GenerateLockfile.dev_iff cycleGenerate_keysDistinct hlockfile hsnapshot⟩

/-- `c` is a development dependency, and a dependency of the second of two versions
that differ in build metadata only. -/
def devTwinsGenerate : GenerateLockfile BuildVersion HashIntegrity :=
  { twinsGenerate with
    manifest := manifestOf [(.prod, [("a".toList, "1.0.0+x".toList)]),
      (.optional, [("a".toList, "1.0.0+y".toList)]), (.dev, [("c".toList, "*".toList)])] }

theorem GenerateLockfile.not_dev_iff_twins :
    ∃ lockfile path snapshot, devTwinsGenerate.run = .ok lockfile ∧
      lockfile.snapshotAt path = some snapshot ∧ snapshot.dev = some true ∧
      ∃ p, devTwinsGenerate.ReachableProd p ∧ p.HasPath path := by
  have hrun : devTwinsGenerate.run.toOption.map (fun lockfile =>
      ((lockfile.snapshotAt ⟨none, ⟨⟨none, ['c']⟩, ⟨⟨firstVersion, []⟩, []⟩⟩⟩).map
        PackageSnapshot.dev)) = some (some (some true)) := by decide
  obtain ⟨lockfile, hlockfile, hdev⟩ := Results.exists_of_toOption_map hrun
  obtain ⟨snapshot, hsnapshot, hdev⟩ := Option.map_eq_some_iff.mp hdev
  have hentry : ("a".toList, "1.0.0+y".toList) ∈
      devTwinsGenerate.manifest.groupDependencies .optional := by decide
  have hdependency : ("c".toList, "*".toList) ∈
      (releasedVersion "a".toList (⟨firstVersion, ['y']⟩ : BuildVersion)
        [("c".toList, "*".toList)] []).dependenciesWith defaultNpmrc.autoInstallPeers := by
    decide
  have hsecond : devTwinsGenerate.ReachableProd (releasedVersion "a".toList ⟨firstVersion, ['y']⟩
      [("c".toList, "*".toList)] []) :=
    .root (by decide) (by decide) hentry rfl
  exact ⟨lockfile, _, snapshot, hlockfile, hsnapshot, hdev,
    releasedVersion "c".toList ⟨firstVersion, []⟩ [] [],
    .dependency hsecond hdependency trivial rfl, _, rfl, by decide⟩

end Dev

section Optional

variable {V I : Type} [NodeSemver V] [BEq V] [SemverRange V]

/-- A version with a way from the selected entries on which nothing is optional. -/
def GenerateLockfile.Required (generate : GenerateLockfile V I) : PackageVersion V I → Prop :=
  generate.Reaches (fun group => group = .prod ∨ group = .dev) (· = false)

/-- A package is optional exactly when every way to it is, and required otherwise. -/
def GenerateLockfile.OptionalRight (generate : GenerateLockfile V I) (lockfile : Lockfile V I) :
    Prop :=
  ∀ path,
    (∀ snapshot, lockfile.snapshotAt path = some snapshot →
      (snapshot.optional = some true ↔ ¬ ∃ p, generate.Required p ∧ p.HasPath path)) ∧
    ((∃ p, generate.Required p ∧ p.HasPath path) →
      ∃ snapshot, lockfile.snapshotAt path = some snapshot ∧ snapshot.optional = some false)

/-- The flags a version is found with when the entries are walked depth first. -/
def GenerateLockfile.FoundAs (generate : GenerateLockfile V I)
    (a : PackageFlags × PackageVersion V I) : Prop :=
  ∃ visits found, Walk generate.builder.graph [] generate.roots visits found ∧ a ∈ found

/-- A required entry, or a required dependency of a version found as required. -/
def GenerateLockfile.RequiredWhenFound (generate : GenerateLockfile V I)
    (p : PackageVersion V I) : Prop :=
  (∃ group ∈ generate.dependencyGroups, (group = .prod ∨ group = .dev) ∧
    ∃ name specifier, (name, specifier) ∈ generate.manifest.groupDependencies group ∧
      generate.registry.resolve name specifier = .ok p) ∨
  ∃ flags q, generate.FoundAs (flags, q) ∧ flags.optional = false ∧
    ∃ name versionRange,
      (name, versionRange) ∈ q.dependenciesWith generate.config.autoInstallPeers ∧
      q.isOptional name = false ∧ generate.registry.resolve name versionRange = .ok p

/-- Every required version shares its key with one that is required when found. -/
def GenerateLockfile.RequiredInTime (generate : GenerateLockfile V I) : Prop :=
  ∀ p path, generate.Required p → p.HasPath path →
    ∃ q, generate.RequiredWhenFound q ∧ q.HasPath path

theorem GenerateLockfile.required_iff_way {generate : GenerateLockfile V I}
    (p : PackageVersion V I) :
    generate.Required p ↔
      ∃ flags, flags.optional = false ∧ Way generate.builder.graph generate.roots (flags, p) := by
  refine GenerateLockfile.reaches_iff_way (fun flags => flags.optional = false)
    (fun group => ?_) ?_ p
  · cases group <;> simp
  · exact fun flags optional => Bool.or_eq_false_iff

/-- The visits that are required are those of versions required when found. -/
theorem GenerateLockfile.exists_required_visit_iff {generate : GenerateLockfile V I}
    {visits found : List (PackageFlags × PackageVersion V I)}
    (h : Walk generate.builder.graph [] generate.roots visits found) (p : PackageVersion V I) :
    (∃ flags, flags.optional = false ∧ (flags, p) ∈ visits) ↔ generate.RequiredWhenFound p := by
  constructor
  · rintro ⟨flags, hflags, hvisit⟩
    rcases (h.mem_visits_iff (flags, p)).mp hvisit with hroot | ⟨b, hb, hsuccessor⟩
    · obtain ⟨group, hpeer, hmem⟩ := GenerateLockfile.mem_roots.mp hroot
      obtain ⟨hgroup, rfl, hentry⟩ := LockfileBuilder.mem_rootGroup.mp hmem
      refine Or.inl ⟨group, hgroup, ?_, hentry⟩
      cases group <;> simp_all
    · obtain ⟨name, versionRange, hentry, hresolve, hlabel⟩ :=
        LockfileBuilder.mem_successors.mp hsuccessor
      simp only at hlabel
      rw [hlabel] at hflags
      obtain ⟨hb', hoptional⟩ := Bool.or_eq_false_iff.mp hflags
      exact Or.inr ⟨b.1, b.2, ⟨visits, found, h, hb⟩, hb', name, versionRange, hentry, hoptional,
        hresolve⟩
  · rintro (⟨group, hgroup, hrequired, hentry⟩ | ⟨flags, q, hfound, hflags, name, versionRange,
      hentry, hoptional, hresolve⟩)
    · have hroot : (⟨⟨group = .dev, group = .optional⟩, p⟩ :
          PackageFlags × PackageVersion V I) ∈ generate.roots :=
        GenerateLockfile.mem_roots.mpr ⟨group, by rcases hrequired with rfl | rfl <;> simp,
          LockfileBuilder.mem_rootGroup.mpr ⟨hgroup, rfl, hentry⟩⟩
      refine ⟨_, ?_, (h.mem_visits_iff _).mpr (Or.inl hroot)⟩
      rcases hrequired with rfl | rfl <;> simp
    · obtain ⟨visits', found', h', hq⟩ := hfound
      obtain ⟨rfl, rfl⟩ := h.functional h'
      refine ⟨generate.builder.graph.label flags (q.isOptional name),
        Bool.or_eq_false_iff.mpr ⟨hflags, hoptional⟩, ?_⟩
      exact (h.mem_visits_iff _).mpr (Or.inr ⟨(flags, q), hq,
        LockfileBuilder.mem_successors.mpr ⟨name, versionRange, hentry, hresolve, rfl⟩⟩)

/-- The key of a visited version is in the lockfile. -/
theorem RecordsWalk.isSome_of_visit [EquivBEq V] {generate : GenerateLockfile V I}
    {lockfile : Lockfile V I} {visits found : List (PackageFlags × PackageVersion V I)}
    (h : RecordsWalk generate lockfile visits found) {v : PackageFlags × PackageVersion V I}
    (hv : v ∈ visits) {path : DependencyPath V} (hpath : v.2.HasPath path) :
    (lockfile.snapshotAt path).isSome := by
  obtain ⟨s, hs, hsame⟩ := h.walk.exists_same hv
  obtain ⟨f, hf, rfl⟩ := List.mem_map.mp (hs.resolve_left (by simp))
  refine (h.keys path).mpr ⟨f, hf, ?_⟩
  rcases hsame with heq | heq | ⟨-, -, path', hpath', hown⟩
  · rwa [heq]
  · rwa [heq]
  · obtain ⟨key, hkey, hkeypath⟩ := hpath
    obtain ⟨key', hkey', hkeypath'⟩ := hpath'
    rw [PackageVersion.hasPath_iff hkey] at hown
    exact ⟨key', hkey', BEq.trans hkeypath' (BEq.trans (BEq.symm hown) hkeypath)⟩

/-- The optional flags are right exactly when required packages are found in time. -/
theorem GenerateLockfile.optional_iff [EquivBEq V] {generate : GenerateLockfile V I}
    {lockfile : Lockfile V I} (h : generate.run = .ok lockfile) :
    generate.OptionalRight lockfile ↔ generate.RequiredInTime := by
  obtain ⟨visits, found, hrecords⟩ := GenerateLockfile.runWith_walk h
  have hrequired := GenerateLockfile.exists_required_visit_iff hrecords.walk
  constructor
  · intro hright p path hp hpath
    obtain ⟨snapshot, hsnapshot, hfalse⟩ := (hright path).2 ⟨p, hp, hpath⟩
    obtain ⟨b, hb, hvisits⟩ := hrecords.flags path snapshot hsnapshot .optional
    rw [PackageFlag.ofSnapshot, hfalse] at hb
    cases hb
    have hsome : ¬ ∀ v ∈ visits, v.2.HasPath path →
        PackageFlag.ofFlags .optional v.1 = true :=
      fun hall => Bool.false_ne_true (hvisits.mpr hall)
    simp only [not_forall] at hsome
    obtain ⟨v, hv, hvpath, hflags⟩ := hsome
    exact ⟨v.2, (hrequired v.2).mp ⟨v.1, by simpa [PackageFlag.ofFlags] using hflags, hv⟩, hvpath⟩
  · intro hintime path
    have hlate : (∃ p, generate.Required p ∧ p.HasPath path) →
        ∃ flags q, flags.optional = false ∧ (flags, q) ∈ visits ∧ q.HasPath path := by
      rintro ⟨p, hp, hpath⟩
      obtain ⟨q, hq, hqpath⟩ := hintime p path hp hpath
      obtain ⟨flags, hflags, hvisit⟩ := (hrequired q).mpr hq
      exact ⟨flags, q, hflags, hvisit, hqpath⟩
    constructor
    · intro snapshot hsnapshot
      obtain ⟨b, hb, hvisits⟩ := hrecords.flags path snapshot hsnapshot .optional
      rw [PackageFlag.ofSnapshot] at hb
      rw [hb, Option.some.injEq, hvisits]
      constructor
      · intro hall hreach
        obtain ⟨flags, q, hflags, hvisit, hqpath⟩ := hlate hreach
        exact absurd (hall (flags, q) hvisit hqpath) (by simp [PackageFlag.ofFlags, hflags])
      · intro hno v hv hpath
        by_contra hfalse
        exact hno ⟨v.2, (GenerateLockfile.required_iff_way v.2).mpr
          ⟨v.1, by simpa [PackageFlag.ofFlags] using hfalse,
            hrecords.walk.way_of_visit (fun a ha => .start ha) hv⟩, hpath⟩
    · intro hreach
      obtain ⟨flags, q, hflags, hvisit, hqpath⟩ := hlate hreach
      obtain ⟨snapshot, hsnapshot⟩ :=
        Option.isSome_iff_exists.mp (hrecords.isSome_of_visit hvisit hqpath)
      obtain ⟨b, hb, hvisits⟩ := hrecords.flags path snapshot hsnapshot .optional
      refine ⟨snapshot, hsnapshot, ?_⟩
      rw [PackageFlag.ofSnapshot] at hb
      rw [hb]
      cases b with
      | false => rfl
      | true =>
          have htrue := hvisits.mp rfl (flags, q) hvisit hqpath
          exact absurd htrue (by simp [PackageFlag.ofFlags, hflags])

theorem GenerateLockfile.optional_iff_cycle :
    ∃ lockfile, cycleGenerate.run = .ok lockfile ∧
      (cycleGenerate.OptionalRight lockfile ↔ cycleGenerate.RequiredInTime) := by
  have hrun : cycleGenerate.run.toOption.map (fun _ => true) = some true := by decide
  obtain ⟨lockfile, hlockfile, -⟩ := Results.exists_of_toOption_map hrun
  exact ⟨lockfile, hlockfile, GenerateLockfile.optional_iff hlockfile⟩

/-- `b` is found as an optional dependency of `a`, and so is `c` below it. Then `d`
requires `b`. -/
def lateGenerate : GenerateLockfile CoreVersion HashIntegrity where
  config := defaultNpmrc
  manifest := manifestOf [(.prod, [("a".toList, "1.0.0".toList), ("d".toList, "1.0.0".toList)])]
  dependencyGroups := [.prod, .dev, .optional]
  registry := releases
    [("a".toList, [releasedVersion "a".toList firstVersion [] [("b".toList, "*".toList)]]),
    ("b".toList, [releasedVersion "b".toList firstVersion [("c".toList, "*".toList)] []]),
    ("c".toList, [releasedVersion "c".toList firstVersion [] []]),
    ("d".toList, [releasedVersion "d".toList firstVersion [("b".toList, "*".toList)] []])]

/-- The required package `c` is marked as optional. -/
theorem GenerateLockfile.not_optionalRight_late :
    ∃ lockfile, lateGenerate.run = .ok lockfile ∧ ¬ lateGenerate.OptionalRight lockfile := by
  have hrun : lateGenerate.run.toOption.map (fun lockfile =>
      (lockfile.snapshotAt (firstKey ['c'])).map PackageSnapshot.optional) =
        some (some (some true)) := by decide
  obtain ⟨lockfile, hlockfile, hoptional⟩ := Results.exists_of_toOption_map hrun
  obtain ⟨snapshot, hsnapshot, hoptional⟩ := Option.map_eq_some_iff.mp hoptional
  have hentry : ("d".toList, "1.0.0".toList) ∈ lateGenerate.manifest.groupDependencies .prod := by
    decide
  have hd : lateGenerate.Required
      (releasedVersion "d".toList firstVersion [("b".toList, "*".toList)] []) :=
    .root (by decide) (by decide) hentry rfl
  have hdb : ("b".toList, "*".toList) ∈
      (releasedVersion "d".toList firstVersion [("b".toList, "*".toList)] []).dependenciesWith
        lateGenerate.config.autoInstallPeers := by decide
  have hb : lateGenerate.Required
      (releasedVersion "b".toList firstVersion [("c".toList, "*".toList)] []) :=
    .dependency hd hdb (by decide) rfl
  have hbc : ("c".toList, "*".toList) ∈
      (releasedVersion "b".toList firstVersion [("c".toList, "*".toList)] []).dependenciesWith
        lateGenerate.config.autoInstallPeers := by decide
  have hc : lateGenerate.Required (releasedVersion "c".toList firstVersion [] []) :=
    .dependency hb hbc (by decide) rfl
  refine ⟨lockfile, hlockfile, fun hright => ?_⟩
  exact ((hright (firstKey ['c'])).1 snapshot hsnapshot).mp hoptional
    ⟨_, hc, _, rfl, by decide⟩

/-- Where keys are distinct, a version is found as the first way to it says. -/
theorem GenerateLockfile.foundAs_iff_firstWay [EquivBEq V] {generate : GenerateLockfile V I}
    (hdistinct : generate.registry.KeysDistinct) {lockfile : Lockfile V I}
    (h : generate.run = .ok lockfile) (a : PackageFlags × PackageVersion V I) :
    generate.FoundAs a ↔ FirstWay generate.builder.graph (fun _ => False) generate.roots a := by
  obtain ⟨visits, found, hrecords⟩ := GenerateLockfile.runWith_walk h
  have hfirst := hrecords.walk.found_iff_firstWay hdistinct.same_iff a
  simp only [List.not_mem_nil] at hfirst
  rw [← hfirst]
  constructor
  · rintro ⟨visits', found', h', ha⟩
    obtain ⟨rfl, rfl⟩ := hrecords.walk.functional h'
    exact ha
  · exact fun ha => ⟨visits, found, hrecords.walk, ha⟩

end Optional

end Npnpm
