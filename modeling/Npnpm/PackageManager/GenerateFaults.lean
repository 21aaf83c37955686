import Npnpm.PackageManager.ResolvedTree

/-!
# When a lockfile is generated

The generation follows the entries of the selected groups through the registry, and the first
fault that it meets is its error. A fault is a name that is none, a specifier or a range that
nothing is resolved to, a version without a specifier, or a version without an integrity.
-/

namespace Npnpm

section Faults

variable {V I : Type} [NodeSemver V] [SemverRange V]

/-- Why an entry of a manifest or a dependency of a version cannot be recorded. -/
inductive LockfileBuilder.Unrecordable (builder : LockfileBuilder V I) (d : Text × Text) :
    GenerateStop → Prop
  | resolve {stop} (h : builder.resolvePackageVersion d.1 d.2 = .error stop) :
      Unrecordable builder d stop
  | name {stop} (h : parseName d.1 = .error stop) : Unrecordable builder d stop
  | specifier {stop child} (hresolve : builder.resolvePackageVersion d.1 d.2 = .ok child)
      (h : packageSpecifier child = .error stop) : Unrecordable builder d stop

/-- What is wrong with the entries of the selected groups, or with a version that they lead
to. -/
inductive GenerateLockfile.Fault (generate : GenerateLockfile V I) : GenerateStop → Prop
  | entry {stop group d} (hgroup : group ∈ generate.dependencyGroups) (hpeer : group ≠ .peer)
      (hentry : d ∈ generate.manifest.groupDependencies group)
      (h : generate.builder.Unrecordable d stop) : Fault generate stop
  | integrity {stop p} (hp : generate.Reachable p)
      (h : generate.builder.resolution p = .error stop) : Fault generate stop
  | dependency {stop p d} (hp : generate.Reachable p)
      (hentry : d ∈ p.dependenciesWith generate.config.autoInstallPeers)
      (h : generate.builder.Unrecordable d stop) : Fault generate stop

variable [BEq V] {generate : GenerateLockfile V I} {stop : GenerateStop}

omit [SemverRange V] [BEq V] in
theorem dependencyPath_of_specifier {child : PackageVersion V I}
    (h : packageSpecifier child ≠ .error stop) : dependencyPath child ≠ .error stop :=
  Results.bind_ne h fun _ _ => by simp

/-- A build reports no error but the faults that its version leads to. -/
theorem GenerateLockfile.buildPackageSnapshot_ne_of_not_fault (hfault : ¬ generate.Fault stop)
    (hfuel : stop ≠ .outOfFuel) {fuel : Nat} {packages : SnapshotMap V I}
    {package : PackageVersion V I} {dev optional : Bool} (hp : generate.Reachable package)
    (hpath : dependencyPath package ≠ .error stop) :
    generate.builder.buildPackageSnapshot fuel packages package dev optional ≠ .error stop := by
  induction fuel generalizing packages package dev optional with
  | zero => exact fun h => hfuel (Except.error.inj h).symm
  | succ fuel ih =>
      refine Results.bind_ne hpath fun key _ => ?_
      split
      · simp
      · refine Results.bind_ne (fun h => hfault (.integrity hp h)) fun resolution _ => ?_
        refine Results.bind_ne ?_ fun _ _ => by simp
        refine Results.foldlM_ne (fun _ => True) trivial (fun d hd s _ => ?_)
          fun _ _ _ _ _ _ => trivial
        refine Results.bind_ne (fun h => hfault (.dependency hp hd (.resolve h)))
          fun child hresolve => ?_
        refine Results.bind_ne (fun h => hfault (.dependency hp hd (.name h))) fun _ _ => ?_
        have hspecifier : packageSpecifier child ≠ .error stop :=
          fun h => hfault (.dependency hp hd (.specifier hresolve h))
        refine Results.bind_ne hspecifier fun _ _ => ?_
        refine Results.bind_ne ?_ fun _ _ => by simp
        apply ih _ (dependencyPath_of_specifier hspecifier)
        exact .dependency hp hd trivial (Results.mapError_ok hresolve)

theorem GenerateLockfile.buildRootGroup_ne_of_not_fault (hfault : ¬ generate.Fault stop)
    (hfuel : stop ≠ .outOfFuel) {fuel : Nat} {group : DependencyGroup} (hpeer : group ≠ .peer)
    {packages : SnapshotMap V I} :
    generate.builder.buildRootGroup fuel generate.manifest generate.dependencyGroups group
      packages ≠ .error stop := by
  unfold LockfileBuilder.buildRootGroup
  split
  · rename_i hgroup
    refine Results.bind_ne ?_ fun _ _ => by simp
    refine Results.foldlM_ne (fun _ => True) trivial (fun d hd s _ => ?_) fun _ _ _ _ _ _ => trivial
    have hentry : d ∈ generate.manifest.groupDependencies group := by
      simpa [PackageManifest.dependencies] using hd
    refine Results.bind_ne (fun h => hfault (.entry hgroup hpeer hentry (.resolve h)))
      fun package hresolve => ?_
    have hspecifier : packageSpecifier package ≠ .error stop :=
      fun h => hfault (.entry hgroup hpeer hentry (.specifier hresolve h))
    refine Results.bind_ne hspecifier fun _ _ => ?_
    refine Results.bind_ne (fun h => hfault (.entry hgroup hpeer hentry (.name h))) fun _ _ => ?_
    refine Results.bind_ne ?_ fun _ _ => by simp
    apply buildPackageSnapshot_ne_of_not_fault hfault hfuel _
      (dependencyPath_of_specifier hspecifier)
    exact .root hgroup hpeer hentry (Results.mapError_ok hresolve)
  · simp

/-- Every error of the generation is one of the faults. -/
theorem GenerateLockfile.fault_of_error [EquivBEq V] (h : generate.run = .error stop) :
    generate.Fault stop := by
  by_contra hfault
  have hfuel : stop ≠ .outOfFuel := by
    rintro rfl
    exact generate.runWith_ne (Nat.lt_succ_self _) h
  have hgroup : ∀ group packages, group ≠ .peer → generate.builder.buildRootGroup
      (generate.registry.versions.length + 1) generate.manifest generate.dependencyGroups group
      packages ≠ .error stop :=
    fun group packages hpeer => generate.buildRootGroup_ne_of_not_fault hfault hfuel hpeer
  refine Results.bind_ne (hgroup .prod _ (by simp)) (fun _ _ => ?_) h
  refine Results.bind_ne (hgroup .optional _ (by simp)) fun _ _ => ?_
  exact Results.bind_ne (hgroup .dev _ (by simp)) fun _ _ => by simp

end Faults

section Recorded

variable {V I : Type} [NodeSemver V] [SemverRange V] {builder : LockfileBuilder V I}

/-- What a name is resolved to and recorded under is no fault. -/
theorem LockfileBuilder.not_unrecordable {d : Text × Text} {name : PkgName}
    {child : PackageVersion V I} {specifier : PkgNameVerPeer V}
    (hparse : PkgName.parse d.1 = .ok name) (hchild : builder.registry.resolve d.1 d.2 = .ok child)
    (hspecifier : packageSpecifier child = .ok specifier) (stop : GenerateStop) :
    ¬ builder.Unrecordable d stop := by
  have hname : parseName d.1 = .ok name := Results.mapError_of_ok hparse
  have hresolved : builder.resolvePackageVersion d.1 d.2 = .ok child :=
    Results.mapError_of_ok hchild
  intro h
  cases h with
  | resolve h => simp [hresolved] at h
  | name h => simp [hname] at h
  | specifier hresolve h =>
      obtain rfl := Except.ok.inj (hresolved.symm.trans hresolve)
      simp [hspecifier] at h

variable [BEq V] [EquivBEq V] {generate : GenerateLockfile V I} {lockfile : Lockfile V I}

/-- A version that the selected entries lead to has its key in the lockfile. -/
theorem GenerateLockfile.snapshotAt_isSome (hkeys : generate.registry.KeysDistinct)
    (h : generate.run = .ok lockfile) {p : PackageVersion V I} (hp : generate.Reachable p)
    {key : DependencyPath V} (hkey : dependencyPath p = .ok key) :
    (lockfile.snapshotAt key).isSome := by
  obtain ⟨visits, found, hrecords⟩ := GenerateLockfile.runWith_walk h
  have hway := (GenerateLockfile.reachable_iff_way p).mp hp
  obtain ⟨flags, hfound⟩ := (hrecords.walk.found_iff_way hkeys.same_iff p).mpr hway
  exact (hrecords.keys key).mpr ⟨(flags, p), hfound, key, hkey, BEq.refl key⟩

omit [EquivBEq V] in
/-- Every entry of a selected group is recorded. -/
theorem GenerateLockfile.exists_entry (h : generate.run = .ok lockfile) {group : DependencyGroup}
    (hgroup : group ∈ generate.dependencyGroups) (hpeer : group ≠ .peer) {d : Text × Text}
    (hentry : d ∈ generate.manifest.groupDependencies group) :
    ∃ name child specifier, PkgName.parse d.1 = .ok name ∧
      generate.registry.resolve d.1 d.2 = .ok child ∧ packageSpecifier child = .ok specifier := by
  obtain ⟨project, -, hrecorded⟩ := GenerateLockfile.run_groups h
  obtain ⟨resolved, -, hentries⟩ := (hrecorded group hpeer).2 hgroup
  obtain ⟨e, -, hparse, -, child, specifier, hchild, hspecifier, -⟩ :=
    Results.exists_of_mem_forall₂ hentries.flip hentry
  exact ⟨e.1, child, specifier, hparse, hchild, hspecifier⟩

/-- Every version that the selected entries lead to has its record. -/
theorem GenerateLockfile.exists_record_of_reachable (hkeys : generate.registry.KeysDistinct)
    (h : generate.run = .ok lockfile) {p : PackageVersion V I} (hp : generate.Reachable p) :
    ∃ e ∈ lockfile.packageEntries, generate.builder.RecordsVersion p e := by
  have hrecord : ∀ {q name versionRange specifier}, generate.Reachable q →
      generate.registry.resolve name versionRange = .ok q → packageSpecifier q = .ok specifier →
      ∃ e ∈ lockfile.packageEntries, generate.builder.RecordsVersion q e := by
    intro q name versionRange specifier hq hresolve hspecifier
    have hkey : dependencyPath q = .ok ⟨none, specifier⟩ := Results.ok_bind hspecifier rfl
    exact GenerateLockfile.exists_record hkeys h (Registry.resolve_mem_versions hresolve) hkey
      (GenerateLockfile.snapshotAt_isSome hkeys h hq hkey)
  induction hp with
  | root hgroup hpeer hentry hresolve =>
      obtain ⟨name, child, specifier, -, hchild, hspecifier⟩ :=
        GenerateLockfile.exists_entry h hgroup hpeer hentry
      obtain rfl := Except.ok.inj (hresolve.symm.trans hchild)
      exact hrecord (.root hgroup hpeer hentry hresolve) hresolve hspecifier
  | dependency hp hentry _ hresolve ih =>
      obtain ⟨e, -, hrecords⟩ := ih
      obtain ⟨pairs, hpairs, -⟩ := hrecords.dependencies
      obtain ⟨-, -, -, child, specifier, hchild, hspecifier, -⟩ :=
        Results.exists_of_mem_forall₂ hpairs.flip hentry
      obtain rfl := Except.ok.inj (hresolve.symm.trans hchild)
      exact hrecord (.dependency hp hentry trivial hresolve) hresolve hspecifier

/-- Every entry of the lockfile is the record of a version that the selected entries lead to. -/
theorem GenerateLockfile.exists_reachable_of_entry (hkeys : generate.registry.KeysDistinct)
    (h : generate.run = .ok lockfile) {e : DependencyPath V × PackageSnapshot V I}
    (he : e ∈ lockfile.packageEntries) :
    ∃ p, generate.Reachable p ∧ p ∈ generate.registry.versions ∧
      generate.builder.RecordsVersion p e := by
  obtain ⟨p, hp, hrecords⟩ := GenerateLockfile.run_entries h he
  obtain ⟨visits, found, hwalk⟩ := GenerateLockfile.runWith_walk h
  have hsome : (lockfile.snapshotAt e.1).isSome := by
    rw [lockfile.snapshotAt_of_mem he]
    rfl
  obtain ⟨⟨flags, q⟩, hfound, hpath⟩ := (hwalk.keys e.1).mp hsome
  have hreachable : generate.Reachable q := (GenerateLockfile.reachable_iff_way q).mpr
    ((hwalk.walk.found_iff_way hkeys.same_iff q).mp ⟨flags, hfound⟩)
  have hq : q ∈ generate.registry.versions := by
    cases hreachable with
    | root _ _ _ hresolve => exact Registry.resolve_mem_versions hresolve
    | dependency _ _ _ hresolve => exact Registry.resolve_mem_versions hresolve
  obtain rfl := hkeys p hp q hq e.1 ⟨e.1, hrecords.path, BEq.refl e.1⟩ hpath
  exact ⟨p, hreachable, hp, hrecords⟩

/-- Where a lockfile is generated, there is no fault. -/
theorem GenerateLockfile.not_fault_of_run (hkeys : generate.registry.KeysDistinct)
    (h : generate.run = .ok lockfile) (stop : GenerateStop) : ¬ generate.Fault stop := by
  intro hfault
  cases hfault with
  | entry hgroup hpeer hentry hunrecordable =>
      obtain ⟨name, child, specifier, hparse, hchild, hspecifier⟩ :=
        GenerateLockfile.exists_entry h hgroup hpeer hentry
      exact LockfileBuilder.not_unrecordable hparse hchild hspecifier stop hunrecordable
  | integrity hp hresolution =>
      obtain ⟨e, -, hrecords⟩ := GenerateLockfile.exists_record_of_reachable hkeys h hp
      simp [hrecords.resolution] at hresolution
  | dependency hp hentry hunrecordable =>
      obtain ⟨e, -, hrecords⟩ := GenerateLockfile.exists_record_of_reachable hkeys h hp
      obtain ⟨pairs, hpairs, -⟩ := hrecords.dependencies
      obtain ⟨pair, -, hparse, child, specifier, hchild, hspecifier, -⟩ :=
        Results.exists_of_mem_forall₂ hpairs.flip hentry
      exact LockfileBuilder.not_unrecordable hparse hchild hspecifier stop hunrecordable

/-- Where there is no fault, a lockfile is generated. -/
theorem GenerateLockfile.exists_run_of_not_fault (h : ∀ stop, ¬ generate.Fault stop) :
    ∃ lockfile, generate.run = .ok lockfile := by
  cases hrun : generate.run with
  | ok lockfile => exact ⟨lockfile, rfl⟩
  | error stop => exact absurd (GenerateLockfile.fault_of_error hrun) (h stop)

/-- A lockfile is generated if and only if there is no fault on the way, and the error that
is reported otherwise is one of the faults. -/
theorem GenerateLockfile.run_ok_iff_no_fault (hkeys : generate.registry.KeysDistinct) :
    ((∃ lockfile, generate.run = .ok lockfile) ↔ ∀ stop, ¬ generate.Fault stop) ∧
      ∀ stop, generate.run = .error stop → generate.Fault stop := by
  refine ⟨⟨?_, ?_⟩, fun stop h => GenerateLockfile.fault_of_error h⟩
  · rintro ⟨lockfile, h⟩
    exact GenerateLockfile.not_fault_of_run hkeys h
  · exact GenerateLockfile.exists_run_of_not_fault

end Recorded

section Samples

/-- What two packages that depend on each other need is all there. -/
theorem GenerateLockfile.run_ok_iff_no_fault_cycle :
    (∃ lockfile, cycleGenerate.run = .ok lockfile) ∧ ∀ stop, ¬ cycleGenerate.Fault stop := by
  have hrun : cycleGenerate.run.toOption.isSome = true := by decide +kernel
  obtain ⟨lockfile, hlockfile⟩ := Option.isSome_iff_exists.mp hrun
  have hok : ∃ lockfile, cycleGenerate.run = .ok lockfile :=
    ⟨lockfile, Results.toOption_eq_some hlockfile⟩
  exact ⟨hok, (GenerateLockfile.run_ok_iff_no_fault cycleGenerate_keysDistinct).1.mp hok⟩

end Samples

end Npnpm
