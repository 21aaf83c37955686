import Npnpm.PackageManager.GenerateEntries
import Npnpm.PackageManager.GenerateFlags

/-!
# Which range of a name is recorded

The dependencies of a version are its three maps one after the other, and the snapshot
records the last version that a name resolves to. A name in several maps is recorded
for the range of the last of them.
-/

namespace Npnpm

section Ranges

variable {V I : Type}

/-- The range of a regular dependency; that of `optionalDependencies` comes first. -/
def PackageVersion.declaredRange (package : PackageVersion V I) (name : Text) : Option Text :=
  (package.optionalDependencies.bind (·.get name)).or (package.dependencies.bind (·.get name))

def PackageVersion.peerRange (package : PackageVersion V I) (name : Text) : Option Text :=
  package.peerDependencies.bind (·.get name)

/-- The range that comes last in the chain of the maps. -/
def PackageVersion.lastRange (package : PackageVersion V I) (withPeerDependencies : Bool)
    (name : Text) : Option Text :=
  (if withPeerDependencies then package.peerRange name else none).or (package.declaredRange name)

theorem find?_reverse_mapEntries (dependencies : Option (KeyedMap Text Text)) (name : Text) :
    ((mapEntries dependencies).reverse.find? fun e => e.1 == name).map Prod.snd =
      dependencies.bind (·.get name) := by
  cases dependencies with
  | none => rfl
  | some entries => exact KeyedMap.find?_reverse_entries entries name

theorem PackageVersion.find?_reverse_dependenciesWith (package : PackageVersion V I)
    (withPeerDependencies : Bool) (name : Text) :
    ((package.dependenciesWith withPeerDependencies).reverse.find? fun e => e.1 == name).map
        Prod.snd = package.lastRange withPeerDependencies name := by
  have hpeers : ((if withPeerDependencies then mapEntries package.peerDependencies
      else []).reverse.find? fun e => e.1 == name).map Prod.snd =
        if withPeerDependencies then package.peerRange name else none := by
    cases withPeerDependencies with
    | true => exact find?_reverse_mapEntries package.peerDependencies name
    | false => rfl
  rw [dependenciesWith, List.reverse_append, List.reverse_append, List.find?_append,
    List.find?_append, Option.map_or, Option.map_or, hpeers, find?_reverse_mapEntries,
    find?_reverse_mapEntries]
  rfl

variable [NodeSemver V] [SemverRange V]

/-- The snapshot has the version that the range gives. -/
def Registry.RecordsRange (registry : Registry V I) (snapshot : PackageSnapshot V I)
    (name range : Text) : Prop :=
  ∃ package child specifier, PkgName.parse name = .ok package ∧
    registry.resolve name range = .ok child ∧ packageSpecifier child = .ok specifier ∧
    (snapshot.dependencies.bind fun dependencies => dependencies.get package) =
      some (.pkgVerPeer specifier.suffix)

/-- Two ranges of a name give one version. -/
def Registry.SameVersion (registry : Registry V I) (name range range' : Text) : Prop :=
  ∃ child child' specifier specifier', registry.resolve name range = .ok child ∧
    registry.resolve name range' = .ok child' ∧ packageSpecifier child = .ok specifier ∧
    packageSpecifier child' = .ok specifier' ∧ specifier.suffix = specifier'.suffix

variable {builder : LockfileBuilder V I} {p : PackageVersion V I}
  {e : DependencyPath V × PackageSnapshot V I}

/-- The last range of a name is the one that is recorded. -/
theorem LockfileBuilder.RecordsVersion.recordsRange (h : builder.RecordsVersion p e)
    {name range : Text}
    (hrange : p.lastRange builder.config.autoInstallPeers name = some range) :
    builder.registry.RecordsRange e.2 name range := by
  obtain ⟨pairs, hpairs, hdependencies⟩ := h.dependencies
  rw [← p.find?_reverse_dependenciesWith] at hrange
  obtain ⟨⟨name', _⟩, hfound, rfl⟩ := Option.map_eq_some_iff.mp hrange
  obtain rfl : name' = name := by simpa using List.find?_some hfound
  have hmem := List.mem_reverse.mp (List.mem_of_find?_eq_some hfound)
  obtain ⟨⟨package, _⟩, -, hparse, -⟩ := Results.exists_of_mem_forall₂ hpairs.flip hmem
  -- names that are read as one package are one text
  have hsame : ∀ (a : Text × Text) (b : PkgName × PackageSnapshotDependency V),
      builder.RecordsDependency a b → (a.1 == name') = (b.1 == package) := by
    rintro a b ⟨hab, -⟩
    apply Bool.eq_iff_iff.mpr
    rw [beq_iff_eq, beq_iff_eq]
    constructor
    · intro heq
      rw [heq, hparse] at hab
      exact (Except.ok.inj hab).symm
    · intro heq
      rw [heq] at hab
      exact ((PkgName.parse_eq_ok_iff _ _).mp hab).2.symm.trans
        ((PkgName.parse_eq_ok_iff _ _).mp hparse).2
  obtain ⟨⟨package', recordedVersion⟩, hpair, hparse', child, specifier, hchild, hspecifier,
    hversion⟩ := Results.find?_forall₂ (List.rel_reverse hpairs) hsame hfound
  refine ⟨package, child, specifier, hparse, hchild, hspecifier, ?_⟩
  rw [hdependencies, bind_recorded, KeyedMap.get_ofList, hpair, Option.map_some, ← hversion]

/-- A declared range is recorded exactly when the peer dependencies do not come in between:
they are not installed, they do not have the name, or they ask for the same version. -/
theorem LockfileBuilder.RecordsVersion.records_declared_iff (h : builder.RecordsVersion p e)
    {name range : Text} (hrange : p.declaredRange name = some range) :
    builder.registry.RecordsRange e.2 name range ↔
      ∀ peer, builder.config.autoInstallPeers = true → p.peerRange name = some peer →
        builder.registry.SameVersion name range peer := by
  constructor
  · rintro ⟨package, child, specifier, hparse, hchild, hspecifier, hget⟩ peer hauto hpeer
    have hlast : p.lastRange builder.config.autoInstallPeers name = some peer := by
      rw [PackageVersion.lastRange, if_pos hauto, hpeer]
      rfl
    obtain ⟨package', child', specifier', hparse', hchild', hspecifier', hget'⟩ :=
      h.recordsRange hlast
    rw [hparse] at hparse'
    cases hparse'
    rw [hget] at hget'
    exact ⟨child, child', specifier, specifier', hchild, hchild', hspecifier, hspecifier',
      by simpa using hget'⟩
  · intro hpeers
    cases hauto : builder.config.autoInstallPeers with
    | false =>
        apply h.recordsRange
        rw [PackageVersion.lastRange, hauto]
        exact hrange
    | true =>
        cases hpeer : p.peerRange name with
        | none =>
            apply h.recordsRange
            rw [PackageVersion.lastRange, hauto, if_pos rfl, hpeer]
            exact hrange
        | some peer =>
            obtain ⟨child, child', specifier, specifier', hchild, hchild', hspecifier,
              hspecifier', hsuffix⟩ := hpeers peer hauto hpeer
            have hlast : p.lastRange builder.config.autoInstallPeers name = some peer := by
              rw [PackageVersion.lastRange, hauto, if_pos rfl, hpeer]
              rfl
            obtain ⟨package, child'', specifier'', hparse, hchild'', hspecifier'', hget⟩ :=
              h.recordsRange hlast
            rw [hchild'] at hchild''
            cases hchild''
            rw [hspecifier'] at hspecifier''
            cases hspecifier''
            exact ⟨package, child, specifier, hparse, hchild, hspecifier, by rw [hget, hsuffix]⟩

end Ranges

section Generate

variable {V I : Type} [NodeSemver V] [SemverRange V] [BEq V] [EquivBEq V]
  {generate : GenerateLockfile V I} {lockfile : Lockfile V I}

/-- Every package of a generated lockfile is a version of the registry, and for a name of
its dependencies or optional dependencies the version is recorded that the declared range
gives, exactly when the peer dependencies do not ask for another one. -/
theorem GenerateLockfile.recordsRange_iff (h : generate.run = .ok lockfile)
    {e : DependencyPath V × PackageSnapshot V I} (he : e ∈ lockfile.packageEntries) :
    ∃ p ∈ generate.registry.versions, generate.builder.RecordsVersion p e ∧
      ∀ name range, p.declaredRange name = some range →
        (generate.registry.RecordsRange e.2 name range ↔
          ∀ peer, generate.config.autoInstallPeers = true → p.peerRange name = some peer →
            generate.registry.SameVersion name range peer) := by
  obtain ⟨p, hp, hrecords⟩ := GenerateLockfile.run_entries h he
  exact ⟨p, hp, hrecords, fun name range hrange => hrecords.records_declared_iff hrange⟩

/-- A package that has one name as a dependency and, with a range, as a peer dependency. -/
def peerVersion (range : Text) : PackageVersion CoreVersion HashIntegrity :=
  { releasedVersion "a".toList firstVersion [("b".toList, "1.0.0".toList)] [] with
    peerDependencies := some (.ofList [("b".toList, range)]) }

def peerGenerate (range : Text) : GenerateLockfile CoreVersion HashIntegrity where
  config := defaultNpmrc
  manifest := manifestOf [(.prod, [("a".toList, "1.0.0".toList)])]
  dependencyGroups := [.prod]
  registry := releases [("a".toList, [peerVersion range]),
    ("b".toList, [releasedVersion "b".toList firstVersion [] [],
      releasedVersion "b".toList otherVersion [] []])]

/-- The peer dependency asks for the version of the dependency, which is recorded. -/
theorem GenerateLockfile.recordsRange_iff_same :
    ∃ lockfile, (peerGenerate "1.0.0".toList).run = .ok lockfile ∧
      ∃ e ∈ lockfile.packageEntries, e.1.packageSpecifier.name = ⟨none, ['a']⟩ ∧
      ((peerGenerate "1.0.0".toList).registry.RecordsRange e.2 "b".toList "1.0.0".toList ↔
        ∀ peer, (peerGenerate "1.0.0".toList).config.autoInstallPeers = true →
          (peerVersion "1.0.0".toList).peerRange "b".toList = some peer →
          (peerGenerate "1.0.0".toList).registry.SameVersion "b".toList "1.0.0".toList peer) ∧
      (peerGenerate "1.0.0".toList).registry.RecordsRange e.2 "b".toList "1.0.0".toList := by
  have hrun : (peerGenerate "1.0.0".toList).run.toOption.map (fun lockfile =>
      lockfile.packageEntries.any fun e => e.1.packageSpecifier.name = ⟨none, ['a']⟩) =
        some true := by
    decide +kernel
  obtain ⟨lockfile, hlockfile, hkey⟩ := Results.exists_of_toOption_map hrun
  obtain ⟨⟨path, snapshot⟩, he, hname⟩ := List.any_eq_true.mp hkey
  have hname : path.packageSpecifier.name = ⟨none, ['a']⟩ := of_decide_eq_true hname
  obtain ⟨p, hp, hrecords, hiff⟩ := GenerateLockfile.recordsRange_iff hlockfile he
  -- no other version has this name
  obtain rfl : p = peerVersion "1.0.0".toList := by
    have hpath := hrecords.path
    have hversions : (peerGenerate "1.0.0".toList).registry.versions =
        [peerVersion "1.0.0".toList, releasedVersion "b".toList firstVersion [] [],
          releasedVersion "b".toList otherVersion [] []] := rfl
    rw [hversions] at hp
    simp only [List.mem_cons, List.not_mem_nil, or_false] at hp
    rcases hp with rfl | rfl | rfl
    · rfl
    all_goals
      obtain rfl := Except.ok.inj hpath
      exact absurd hname (by decide)
  have hrange := hiff "b".toList "1.0.0".toList (by decide)
  refine ⟨lockfile, hlockfile, _, he, hname, hrange, hrange.mpr fun peer _ hpeer => ?_⟩
  have hasked : (peerVersion "1.0.0".toList).peerRange "b".toList = some "1.0.0".toList := by
    decide
  obtain rfl := Option.some.inj (hasked.symm.trans hpeer)
  exact ⟨releasedVersion "b".toList firstVersion [] [], _, _, _, rfl, rfl, rfl, rfl, rfl⟩

/-- The peer dependency replaces the version of the dependency. -/
theorem GenerateLockfile.not_recordsRange_peer :
    ∃ lockfile snapshot, (peerGenerate "2.0.0".toList).run = .ok lockfile ∧
      lockfile.snapshotAt (firstKey ['a']) = some snapshot ∧
      (peerVersion "2.0.0".toList).declaredRange "b".toList = some "1.0.0".toList ∧
      ¬ (peerGenerate "2.0.0".toList).registry.RecordsRange snapshot "b".toList
        "1.0.0".toList := by
  have hrun : (peerGenerate "2.0.0".toList).run.toOption.map (fun lockfile =>
      (lockfile.snapshotAt (firstKey ['a'])).map fun snapshot =>
        snapshot.dependencies.bind fun dependencies => dependencies.get ⟨none, ['b']⟩) =
      some (some (some (.pkgVerPeer ⟨otherVersion, []⟩))) := by decide +kernel
  obtain ⟨lockfile, hlockfile, hsnapshot⟩ := Results.exists_of_toOption_map hrun
  obtain ⟨snapshot, hsnapshot, hget⟩ := Option.map_eq_some_iff.mp hsnapshot
  refine ⟨lockfile, snapshot, hlockfile, hsnapshot, by decide +kernel, ?_⟩
  rintro ⟨package, child, specifier, hparse, hchild, hspecifier, hrecorded⟩
  have hresolve : (peerGenerate "2.0.0".toList).registry.resolve "b".toList "1.0.0".toList =
      .ok (releasedVersion "b".toList firstVersion [] []) := rfl
  have hname : PkgName.parse "b".toList = .ok ⟨none, ['b']⟩ := rfl
  have hspecified : packageSpecifier (releasedVersion "b".toList firstVersion
      [] []) = .ok ⟨⟨none, ['b']⟩, ⟨firstVersion, []⟩⟩ := rfl
  obtain rfl := Except.ok.inj (hname.symm.trans hparse)
  obtain rfl := Except.ok.inj (hresolve.symm.trans hchild)
  obtain rfl := Except.ok.inj (hspecified.symm.trans hspecifier)
  exact absurd (hget.symm.trans hrecorded) (by decide)

end Generate

end Npnpm
