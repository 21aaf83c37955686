import Mathlib.Data.List.DropRight
import Npnpm.PackageManager.FreshRun
import Npnpm.PackageManager.RecordedRanges

/-!
# The installed tree means what the registry means

The manifest and the registry give a list of names a version: the entry of the first name, the
dependency of that version under the second name, and so on. The installed tree gives it a
directory: the entry of the first name in the modules directory, the entry of the second name
beside that package, and so on. The lockfile in between carries the one over to the other.

## Implementation notes

A package finds what stands beside it in the `node_modules` directory that it is in. What a
tarball brings along in a `node_modules` directory of its own is left out.
-/

namespace Npnpm

open Npnpm.Path Npnpm.FileTree

section Recorded

variable {V I : Type} [NodeSemver V] [SemverRange V] [BEq V] [EquivBEq V]
  {generate : GenerateLockfile V I} {lockfile : Lockfile V I}

/-- The version that a list of names leads to: the entry of the project for the first name, and
the dependency of the version before for each further one. -/
inductive GenerateLockfile.Leads (generate : GenerateLockfile V I) :
    List Text → PackageVersion V I → Prop
  /-- the entry of the last selected group that has the name -/
  | root {before group after name specifier p}
      (hgroups : generate.dependencyGroups = before ++ group :: after) (hpeer : group ≠ .peer)
      (hentry : (name, specifier) ∈ generate.manifest.groupDependencies group)
      (hlast : ∀ other ∈ after, other ≠ .peer →
        ∀ text, (name, text) ∉ generate.manifest.groupDependencies other)
      (hresolve : generate.registry.resolve name specifier = .ok p) :
      Leads generate [name] p
  | dependency {names p name range q} (h : Leads generate names p)
      (hrange : p.lastRange generate.config.autoInstallPeers name = some range)
      (hresolve : generate.registry.resolve name range = .ok q) :
      Leads generate (names ++ [name]) q

/-- A version whose key is in the lockfile has its record there. -/
theorem GenerateLockfile.exists_record (hkeys : generate.registry.KeysDistinct)
    (h : generate.run = .ok lockfile) {q : PackageVersion V I}
    (hq : q ∈ generate.registry.versions) {key : DependencyPath V}
    (hkey : dependencyPath q = .ok key) (hsome : (lockfile.snapshotAt key).isSome) :
    ∃ e ∈ lockfile.packageEntries, generate.builder.RecordsVersion q e := by
  obtain ⟨snapshot, hsnapshot⟩ := Option.isSome_iff_exists.mp hsome
  obtain ⟨packages, hpackages, hget⟩ := Option.bind_eq_some_iff.mp hsnapshot
  obtain ⟨key', hmem, hsame⟩ := KeyedMap.exists_of_get_eq_some hget
  have he : (key', snapshot) ∈ lockfile.packageEntries := by
    rw [Lockfile.packageEntries, hpackages]
    exact hmem
  obtain ⟨p, hp, hrecords⟩ := GenerateLockfile.run_entries h he
  have hpq : p = q := hkeys p hp q hq key ⟨key', hrecords.path, hsame⟩ ⟨key, hkey, BEq.refl key⟩
  exact ⟨_, he, hpq ▸ hrecords⟩

omit [NodeSemver V] [SemverRange V] in
theorem Lockfile.snapshotAt_of_mem (lockfile : Lockfile V I)
    {e : DependencyPath V × PackageSnapshot V I} (he : e ∈ lockfile.packageEntries) :
    lockfile.snapshotAt e.1 = some e.2 := by
  unfold Lockfile.packageEntries at he
  unfold Lockfile.snapshotAt
  cases hpackages : lockfile.packages with
  | none =>
      rw [hpackages] at he
      cases he
  | some packages =>
      rw [hpackages] at he
      exact KeyedMap.get_of_mem he

/-- The version that a range of a recorded version gives is recorded too, and the dependency has
its names. -/
theorem GenerateLockfile.exists_dependency (hnames : generate.registry.NamedAsFetched)
    (hkeys : generate.registry.KeysDistinct) (h : generate.run = .ok lockfile)
    {p q : PackageVersion V I} {e : DependencyPath V × PackageSnapshot V I}
    (he : e ∈ lockfile.packageEntries) (hrecords : generate.builder.RecordsVersion p e)
    {name range : Text} (hrange : p.lastRange generate.config.autoInstallPeers name = some range)
    (hresolve : generate.registry.resolve name range = .ok q) :
    ∃ e' ∈ lockfile.packageEntries, ∃ d ∈ linkedDependencies e.2,
      PkgName.parse name = .ok d.1 ∧ generate.builder.RecordsVersion q e' ∧
        Unaliased d e'.1 := by
  obtain ⟨package, child, specifier, hparse, hchild, hspecifier, hget⟩ :=
    hrecords.recordsRange hrange
  obtain rfl := Except.ok.inj (hresolve.symm.trans hchild)
  obtain ⟨dependencies, hdependencies, hgets⟩ := Option.bind_eq_some_iff.mp hget
  have hmem := KeyedMap.get_eq_some_iff.mp hgets
  have hsnapshot : lockfile.snapshotAt e.1 = some e.2 := lockfile.snapshotAt_of_mem he
  obtain ⟨version, hversion, hsome⟩ :=
    (GenerateLockfile.runWith_namesPackages hnames h).edges e.1 e.2 dependencies hsnapshot
      hdependencies _ hmem
  obtain rfl := PackageSnapshotDependency.pkgVerPeer.inj hversion
  have hbuilder : generate.builder.registry.NamedAsFetched := hnames
  have hkey : dependencyPath q = .ok ⟨none, ⟨package, specifier.suffix⟩⟩ :=
    hbuilder.dependencyPath_eq
      (Results.mapError_of_ok hresolve) (Results.mapError_of_ok hparse) hspecifier
  obtain ⟨e', he', hrecords'⟩ := GenerateLockfile.exists_record hkeys h
    (Registry.resolve_mem_versions hresolve) hkey hsome
  have hpath : e'.1 = ⟨none, ⟨package, specifier.suffix⟩⟩ :=
    Except.ok.inj (hrecords'.path.symm.trans hkey)
  refine ⟨e', he', (package, .pkgVerPeer specifier.suffix), ?_, hparse, hrecords', ?_⟩
  · rw [linkedDependencies, hdependencies]
    exact hmem
  · rw [hpath]
    exact ⟨rfl, rfl⟩

omit [NodeSemver V] [SemverRange V] [BEq V] [EquivBEq V] in
theorem ProjectSnapshot.entries_of_recorded (project : ProjectSnapshot V) {group : DependencyGroup}
    {resolved : ResolvedDependencyMap V} (h : project.getMapByGroup group = recorded resolved) :
    project.dependenciesByGroups [group] = resolved.entries := by
  simp only [dependenciesByGroups, List.flatMap_cons, List.flatMap_nil, List.append_nil, h]
  by_cases hempty : resolved.isEmpty = true
  · simp only [recorded, if_pos hempty]
    exact (List.isEmpty_iff.mp hempty).symm
  · simp only [recorded, if_neg hempty]

/-- The entry of the last group that has a name is what the project is linked to. -/
theorem GenerateLockfile.exists_direct (hnames : generate.registry.NamedAsFetched)
    (hkeys : generate.registry.KeysDistinct) (h : generate.run = .ok lockfile)
    {before after : List DependencyGroup} {group : DependencyGroup} {name specifier : Text}
    {p : PackageVersion V I}
    (hgroups : generate.dependencyGroups = before ++ group :: after) (hpeer : group ≠ .peer)
    (hentry : (name, specifier) ∈ generate.manifest.groupDependencies group)
    (hlast : ∀ other ∈ after, other ≠ .peer →
      ∀ text, (name, text) ∉ generate.manifest.groupDependencies other)
    (hresolve : generate.registry.resolve name specifier = .ok p) :
    ∃ e ∈ lockfile.packageEntries, ∃ d l₁ l₂, PkgName.parse name = .ok d.1 ∧
      lockfile.directDependencies generate.dependencyGroups = l₁ ++ d :: l₂ ∧
      (∀ d' ∈ l₂, d'.1 ≠ d.1) ∧ generate.builder.RecordsVersion p e ∧
      Unaliased (d.1, .pkgVerPeer d.2.version) e.1 := by
  obtain ⟨project, hproject, hrecorded⟩ := GenerateLockfile.run_groups h
  obtain ⟨resolved, hmap, hentries⟩ := (hrecorded group hpeer).2 (by simp [hgroups])
  obtain ⟨d, hd, hparse, -, child, specified, hchild, hspecified, hversion⟩ :=
    Results.exists_of_mem_forall₂ hentries.flip hentry
  obtain rfl := Except.ok.inj (hresolve.symm.trans hchild)
  have hgroupEntries := project.entries_of_recorded hmap
  have hdirect : lockfile.directDependencies generate.dependencyGroups =
      project.dependenciesByGroups before ++ (resolved.entries ++
        project.dependenciesByGroups after) := by
    unfold Lockfile.directDependencies
    rw [hproject, hgroups, ← hgroupEntries]
    simp [ProjectSnapshot.dependenciesByGroups]
  -- its key is in the lockfile
  have hsome : (lockfile.snapshotAt ⟨none, ⟨d.1, d.2.version⟩⟩).isSome := by
    obtain ⟨project', hproject', hroots⟩ := (GenerateLockfile.runWith_namesPackages hnames h).roots
    obtain rfl := RootProjectSnapshot.single.inj (hproject.symm.trans hproject')
    refine hroots d ?_
    rw [← hgroupEntries] at hd
    cases group <;> simp_all [ProjectSnapshot.dependenciesByGroups]
  have hbuilder : generate.builder.registry.NamedAsFetched := hnames
  have hkey : dependencyPath p = .ok ⟨none, ⟨d.1, specified.suffix⟩⟩ :=
    hbuilder.dependencyPath_eq
      (Results.mapError_of_ok hresolve) (Results.mapError_of_ok hparse) hspecified
  rw [hversion] at hsome
  obtain ⟨e, he, hrecords⟩ := GenerateLockfile.exists_record hkeys h
    (Registry.resolve_mem_versions hresolve) hkey hsome
  have hpath : e.1 = ⟨none, ⟨d.1, specified.suffix⟩⟩ :=
    Except.ok.inj (hrecords.path.symm.trans hkey)
  obtain ⟨first, last, hsplit⟩ := List.append_of_mem hd
  refine ⟨e, he, d, project.dependenciesByGroups before ++ first,
    last ++ project.dependenciesByGroups after, hparse, ?_, ?_, hrecords, ?_⟩
  · rw [hdirect, hsplit]
    simp
  · intro d' hd' hsame
    rcases List.mem_append.mp hd' with hmem | hmem
    · have hdistinct := resolved.distinct
      rw [hsplit] at hdistinct
      have hne := (List.pairwise_cons.mp (List.pairwise_append.mp hdistinct).2.1).1 d' hmem
      exact ne_of_beq_false hne hsame.symm
    · obtain ⟨other, hother, hmem'⟩ := List.mem_flatMap.mp hmem
      have hotherPeer : other ≠ .peer := by
        rintro rfl
        cases hmem'
      obtain ⟨resolved', hmap', hentries'⟩ :=
        (hrecorded other hotherPeer).2 (by simp [hgroups, hother])
      have hentry' : d' ∈ resolved'.entries := by
        rw [← project.entries_of_recorded hmap']
        simpa [ProjectSnapshot.dependenciesByGroups] using hmem'
      obtain ⟨⟨name', text⟩, hlisted, hparse', -⟩ :=
        Results.exists_of_mem_forall₂ hentries' hentry'
      have hname : name' = name :=
        ((PkgName.parse_eq_ok_iff _ _).mp hparse').2.symm.trans
          ((congrArg PkgName.display hsame).trans ((PkgName.parse_eq_ok_iff _ _).mp hparse).2)
      exact hlast other hother hotherPeer text (hname ▸ hlisted)
  · rw [hpath, hversion]
    exact ⟨rfl, rfl⟩

end Recorded

section Finds

/-- The `node_modules` directory that a package is in. -/
def holdingModules (q : Loc) : Loc := q.dropLast.rdropWhile fun name => name != nodeModulesName

/-- What a list of names leads to: the entry of the first name in the directory, and the entry
of each further name beside the package before. -/
inductive Finds (t : Tree) (dir : Loc) : List PkgName → Loc → Prop
  | one {name q} (h : canonicalize t (pathOf (dir ++ name.loc)) = .ok q) : Finds t dir [name] q
  | more {names name q r} (h : Finds t dir names q)
      (hr : canonicalize t (pathOf (holdingModules q ++ name.loc)) = .ok r) :
      Finds t dir (names ++ [name]) r

theorem holdingModules_append {d : Loc} {name : PkgName} :
    holdingModules (d ++ [nodeModulesName] ++ name.loc) = d ++ [nodeModulesName] := by
  have hstop : (d ++ [nodeModulesName]).rdropWhile (fun name => name != nodeModulesName) =
      d ++ [nodeModulesName] := by
    rw [List.rdropWhile_concat_neg _ _ _ (by simp)]
  unfold holdingModules PkgName.loc
  split
  · rename_i scope _
    have hscope : ('@' :: scope != nodeModulesName) = true := rfl
    have hdrop : (d ++ [nodeModulesName] ++ ['@' :: scope, name.bare]).dropLast =
        d ++ [nodeModulesName] ++ ['@' :: scope] := by
      simp
    rw [hdrop, List.rdropWhile_concat_pos (fun name => name != nodeModulesName) _ _ hscope, hstop]
  · rw [List.dropLast_concat, hstop]

theorem holdingModules_entryLoc {V : Type} [NodeSemver V] (v : Loc) (path : DependencyPath V)
    (name : PkgName) :
    holdingModules (entryLoc v path name) =
      storeLoc v path.packageSpecifier.toVirtualStoreName := by
  have hstore : storeLoc v path.packageSpecifier.toVirtualStoreName =
      v ++ [path.packageSpecifier.toVirtualStoreName] ++ [nodeModulesName] := by
    simp [storeLoc]
  rw [entryLoc, hstore, holdingModules_append]

theorem Finds.ne_nil {t : Tree} {dir q : Loc} {names : List PkgName} (h : Finds t dir names q) :
    names ≠ [] := by
  cases h <;> simp

/-- The last name is looked up where the names before it lead. -/
theorem Finds.concat_inv {t : Tree} {dir r : Loc} {names : List PkgName} {name : PkgName}
    (h : Finds t dir (names ++ [name]) r) :
    (names = [] ∧ canonicalize t (pathOf (dir ++ name.loc)) = .ok r) ∨
      ∃ q, Finds t dir names q ∧
        canonicalize t (pathOf (holdingModules q ++ name.loc)) = .ok r := by
  generalize hall : names ++ [name] = all at h
  cases h with
  | one h =>
      obtain ⟨rfl, hname⟩ := List.append_eq_singleton_iff.mp hall |>.resolve_right (by simp)
      obtain rfl := List.singleton_inj.mp hname
      exact Or.inl ⟨rfl, h⟩
  | more h hr =>
      obtain ⟨rfl, hname⟩ := List.append_inj' hall rfl
      obtain rfl := List.singleton_inj.mp hname
      exact Or.inr ⟨_, h, hr⟩

/-- A list of names leads to one place. -/
theorem Finds.unique {t : Tree} {dir : Loc} {names : List PkgName} {q r : Loc}
    (hq : Finds t dir names q) (hr : Finds t dir names r) : q = r := by
  induction hq generalizing r with
  | @one name _ h =>
      have hr' : Finds t dir ([] ++ [name]) r := hr
      rcases hr'.concat_inv with ⟨-, h'⟩ | ⟨_, h', -⟩
      · exact Except.ok.inj (h.symm.trans h')
      · exact absurd rfl h'.ne_nil
  | more h hstep ih =>
      rcases hr.concat_inv with ⟨rfl, -⟩ | ⟨q', h', hstep'⟩
      · exact absurd rfl h.ne_nil
      · rw [← ih h'] at hstep'
        exact Except.ok.inj (hstep.symm.trans hstep')

end Finds

section Direct

variable {V I : Type} [NodeSemver V] [BEq V] [PlainSemver V] {config : Npmrc}
  {lockfile : Lockfile V I} {groups : List DependencyGroup} {schedule : Schedule V I}
  {v m : Loc} {start finish : Tree}

/-- At the end the link of a direct dependency stands that no later one has the name of. -/
theorem Install.direct_placed
    (hlayout : Layout config lockfile.packageEntries (lockfile.directDependencies groups) v m)
    (htidy : Tidy (installSteps config lockfile.packageEntries
      (lockfile.directDependencies groups) schedule) start)
    (hplaces : Along config.packageImportMethod LinkReplaceable (installSteps config
      lockfile.packageEntries (lockfile.directDependencies groups) schedule) start)
    (hrun : Install.installFromLockfile config lockfile groups schedule start = .ok finish)
    {d : PkgName × ResolvedDependencySpec V} {l₁ l₂ : List (PkgName × ResolvedDependencySpec V)}
    (hdirect : lockfile.directDependencies groups = l₁ ++ d :: l₂)
    (hlast : ∀ d' ∈ l₂, d'.1 ≠ d.1) :
    finish.get (m ++ d.1.loc) =
      some (.link (linkTarget config.virtualStoreDir d.1 (.pkgVerPeer d.2.version))) := by
  have hmem : d ∈ lockfile.directDependencies groups := by simp [hdirect]
  have hsplit : installSteps config lockfile.packageEntries
      (lockfile.directDependencies groups) schedule =
      (storeSteps config lockfile.packageEntries schedule ++ .syncLinks config.modulesDir
        ((lockfile.directDependencies groups).map fun d => d.1.display) ::
          l₁.map (directLink config)) ++ directLink config d :: l₂.map (directLink config) := by
    rw [installSteps, directSteps, hdirect, List.map_append (f := directLink config)]
    simp
  have horder := hlayout.orderly schedule
  obtain ⟨s, s', hbefore, hway, hexec, htidy', hafter⟩ :=
    horder.run_at (Install.steps_of_run hrun) htidy hsplit
  have hname := hlayout.directNames d hmem
  have hpath := hlayout.leadsTo_direct hmem
  obtain ⟨dir, last, hloc⟩ := exists_concat (q := m ++ d.1.loc)
    (by simp [PkgName.loc_ne_nil])
  have hplace : Replaceable s (linkTarget config.virtualStoreDir d.1 (.pkgVerPeer d.2.version))
      (join config.modulesDir d.1.display) := by
    rw [hsplit] at hplaces
    rcases hplaces.at_step hbefore with hreplace | ⟨hself, -⟩
    · exact hreplace
    · have htarget : LeadsTo (linkTarget config.virtualStoreDir d.1 (.pkgVerPeer d.2.version))
          (storeLoc v (dependencyStoreName d.1 (.pkgVerPeer d.2.version)) ++ d.1.loc) :=
        hname.leadsTo (leadsTo_nodeModulesOf hlayout.virtualStore (plain_storeName hname _))
      have heq := LeadsTo.unique (hself.symm.trans htarget) hpath
      refine (hlayout.direct_apart hmem (q := m ++ d.1.loc) ?_ (Or.inl List.prefix_rfl)).elim
      rw [← heq]
      exact (prefix_storeLoc v _).trans (List.prefix_append _ _)
  have hmade : s'.get (m ++ d.1.loc) =
      some (.link (linkTarget config.virtualStoreDir d.1 (.pkgVerPeer d.2.version))) := by
    rw [hloc] at hpath ⊢
    exact symlinkPackage_link hpath (linkPackage_clear hpath hway) hplace
      (Results.mapError_ok hexec)
  have hpart : ∀ step ∈ l₂.map (directLink config), step ∈ installSteps config
      lockfile.packageEntries (lockfile.directDependencies groups) schedule := by
    intro step hstep
    rw [hsplit]
    exact List.mem_append_right _ (List.mem_cons_of_mem _ hstep)
  refine (horder.run_invariant (fun t => t.get (m ++ d.1.loc) =
    some (.link (linkTarget config.virtualStoreDir d.1 (.pkgVerPeer d.2.version)))) hpart hafter
    htidy' hmade fun step hstep t t' ht hnode hstepexec => ?_).2
  refine (horder.changes ht (hpart step hstep) hstepexec).kept _ _ hnode ?_
  obtain ⟨d', hd', rfl⟩ := List.mem_map.mp hstep
  rintro ⟨r, hr, hprefix⟩
  have hmem' : d' ∈ lockfile.directDependencies groups := by simp [hdirect, hd']
  rw [hr.unique (hlayout.leadsTo_direct hmem'), List.prefix_append_right_inj] at hprefix
  exact hlast d' hd' (PkgName.eq_of_loc_nested (hlayout.directNames d' hmem').wellFormed
    hname.wellFormed hprefix)

end Direct

section Self

variable {V I : Type}

/-- No version depends on a version of its own name. -/
def Registry.NoSelfDependency (registry : Registry V I) (withPeerDependencies : Bool) : Prop :=
  ∀ p ∈ registry.versions, ∀ d ∈ p.dependenciesWith withPeerDependencies, d.1 ≠ p.name

instance (registry : Registry V I) (withPeerDependencies : Bool) :
    Decidable (registry.NoSelfDependency withPeerDependencies) :=
  inferInstanceAs (Decidable (∀ p ∈ registry.versions,
    ∀ d ∈ p.dependenciesWith withPeerDependencies, d.1 ≠ p.name))

variable [NodeSemver V] [SemverRange V] [BEq V] [EquivBEq V] {generate : GenerateLockfile V I}
  {lockfile : Lockfile V I}

theorem GenerateLockfile.namesApart
    (hself : generate.registry.NoSelfDependency generate.config.autoInstallPeers)
    (h : generate.run = .ok lockfile) : NamesApart lockfile.packageEntries := by
  intro e he d hd hname
  obtain ⟨p, hp, hrecords⟩ := GenerateLockfile.run_entries h he
  obtain ⟨pairs, hpairs, hdependencies⟩ := hrecords.dependencies
  have hmem : d ∈ (KeyedMap.ofList pairs).entries := by
    unfold linkedDependencies at hd
    rw [hdependencies] at hd
    cases hrecorded : recorded (KeyedMap.ofList pairs) with
    | none =>
        rw [hrecorded] at hd
        cases hd
    | some dependencies =>
        rw [hrecorded] at hd
        rwa [← of_recorded_eq_some hrecorded]
  obtain ⟨pair, hpair, hkey⟩ :=
    KeyedMap.exists_mem_of_mem_keys_ofList (KeyedMap.mem_keys.mpr ⟨d.2, hmem⟩)
  obtain ⟨⟨name, range⟩, hlisted, hparse, -⟩ := Results.exists_of_mem_forall₂ hpairs hpair
  obtain ⟨specifier, hspecifier, hpath⟩ := Results.bind_ok hrecords.path
  obtain ⟨own, hown, hspecified⟩ := Results.bind_ok hspecifier
  obtain ⟨version, -, hspecified⟩ := Results.bind_ok hspecified
  cases hspecified
  have hsame : pair.1 = own := by
    rw [hkey, hname, ← Except.ok.inj hpath]
  refine absurd ?_ (hself p hp _ hlisted)
  exact ((PkgName.parse_eq_ok_iff _ _).mp hparse).2.symm.trans
    ((congrArg PkgName.display hsame).trans
      ((PkgName.parse_eq_ok_iff _ _).mp (Results.mapError_ok hown)).2)

omit [SemverRange V] [BEq V] [EquivBEq V] in
theorem NamesApart.selfReferring {entries : List (DependencyPath V × PackageSnapshot V I)}
    (h : NamesApart entries) (hdistinct : entries.Pairwise fun a b =>
      a.1.packageSpecifier.toVirtualStoreName ≠ b.1.packageSpecifier.toVirtualStoreName)
    {e : DependencyPath V × PackageSnapshot V I} (he : e ∈ entries) :
    SelfReferring entries e := by
  intro e' he' hstore d hd hname
  obtain rfl := eq_of_storeName hdistinct he' he hstore
  exact absurd hname (h e' he' d hd)

end Self

section Preserved

variable {V I : Type} [NodeSemver V] [SemverRange V] [BEq V] [EquivBEq V] [PlainSemver V]
  {generate : GenerateLockfile V I} {lockfile : Lockfile V I} {schedule : Schedule V I}
  {v m : Loc} {start finish : Tree}

/-- Whatever list of names the registry leads to a version along, in a fresh project the
installed tree leads to the directory of that version along it, and nowhere else. -/
theorem Install.finds_resolved (hnames : generate.registry.NamedAsFetched)
    (hkeys : generate.registry.KeysDistinct)
    (hself : generate.registry.NoSelfDependency generate.config.autoInstallPeers)
    (hgenerate : generate.run = .ok lockfile) (hdistinct : lockfile.StoreNamesDistinct)
    (hlayout : Layout generate.config lockfile.packageEntries
      (lockfile.directDependencies generate.dependencyGroups) v m)
    (honce : (lockfile.directDependencies generate.dependencyGroups).Pairwise
      fun a b => a.1 ≠ b.1)
    (hinside : ∀ e ∈ lockfile.packageEntries, (schedule.casPaths generate.config e).Inside)
    (hfresh : Fresh (lockfile.directDependencies generate.dependencyGroups) v m start)
    (hrun : Install.installFromLockfile generate.config lockfile generate.dependencyGroups
      schedule start = .ok finish)
    {names : List Text} {p : PackageVersion V I} (h : generate.Leads names p) :
    ∃ path parsed, dependencyPath p = .ok path ∧
      List.Forall₂ (fun text name => PkgName.parse text = .ok name) names parsed ∧
      finish.get (ownLoc v path) = some .dir ∧
      ∀ q, Finds finish m parsed q ↔ q = ownLoc v path := by
  have happart := GenerateLockfile.namesApart hself hgenerate
  have htidy := hfresh.tidy hlayout schedule
  have hfree := hlayout.importFree_of_fresh generate.config.packageImportMethod hdistinct happart
    hinside hfresh
  have hplaces := hlayout.linkReplaceable_of_fresh generate.config.packageImportMethod hdistinct
    happart hinside hfresh honce
  have hown : ∀ e ∈ lockfile.packageEntries, finish.get (ownLoc v e.1) = some .dir :=
    fun e he => Install.own_dir_of_run hlayout htidy hfree hrun he
      (happart.selfReferring hdistinct he)
  -- the way there leads through the records of the lockfile
  suffices hway : ∃ e ∈ lockfile.packageEntries, ∃ parsed, generate.builder.RecordsVersion p e ∧
      List.Forall₂ (fun text name => PkgName.parse text = .ok name) names parsed ∧
      Finds finish m parsed (ownLoc v e.1) by
    obtain ⟨e, he, parsed, hrecords, hparsed, hfinds⟩ := hway
    refine ⟨e.1, parsed, hrecords.path, hparsed, hown e he, fun q => ⟨fun hq => ?_, ?_⟩⟩
    · exact hq.unique hfinds
    · rintro rfl
      exact hfinds
  induction h with
  | root hgroups hpeer hentry hlast hresolve =>
      obtain ⟨e, he, d, l₁, l₂, hparse, hdirect, hlater, hrecords, hunaliased⟩ :=
        GenerateLockfile.exists_direct hnames hkeys hgenerate hgroups hpeer hentry hlast hresolve
      refine ⟨e, he, [d.1], hrecords, .cons hparse .nil, .one ?_⟩
      have hlink := Install.direct_placed hlayout htidy hplaces hrun hdirect hlater
      rw [linkTarget_of_unaliased generate.config hunaliased] at hlink
      obtain ⟨dir, last, hloc⟩ := exists_concat (q := m ++ d.1.loc) (by simp [PkgName.loc_ne_nil])
      rw [hloc] at hlink ⊢
      have hdir : finish.get dir = some .dir := by simpa using Tree.get_dropLast hlink
      exact canonicalize_link hdir hlink (hlayout.leadsTo_savePath he) (hown e he)
  | dependency _ hrange hresolve ih =>
      obtain ⟨e, he, parsed, hrecords, hparsed, hfinds⟩ := ih
      obtain ⟨e', he', d, hd, hparse, hrecords', hunaliased⟩ :=
        GenerateLockfile.exists_dependency hnames hkeys hgenerate he hrecords hrange hresolve
      refine ⟨e', he', parsed ++ [d.1], hrecords', ?_, .more hfinds ?_⟩
      · exact List.rel_append hparsed (.cons hparse .nil)
      · have hplaced := Install.placed_of_run hdistinct.linksAgree hlayout htidy hplaces.take hrun
          he hd
        have hleads := (hlayout.linkedTo_of_unaliased he he' hd hunaliased hplaced
          (hown e' he')).leads
        rw [hlayout.leadsTo_entry he (hlayout.dependencyNames e he d hd),
          hlayout.leadsTo_savePath he', canonicalize_of_dir (hown e' he')] at hleads
        rw [ownLoc, holdingModules_entryLoc]
        exact hleads

end Preserved

section Cycle

/-- A tree without links is fresh where its list of nodes has nothing. -/
theorem fresh_of_entries {V : Type} {direct : List (PkgName × ResolvedDependencySpec V)}
    {v m : Loc} {t : Tree} (hlinks : ∀ q target, t.get q ≠ some (.link target))
    (hstore : ∀ e ∈ t.nodes.entries, ¬ v <+: e.1)
    (hnames : ∀ d ∈ direct, ∀ e ∈ t.nodes.entries, e.1 ≠ m ++ d.1.loc) : Fresh direct v m t := by
  have hfree : ∀ q, q ≠ [] → (∀ e ∈ t.nodes.entries, e.1 ≠ q) → t.get q = none := by
    intro q hne hnot
    rw [Tree.get_of_ne_nil t hne]
    by_contra hsome
    obtain ⟨node, hnode⟩ := Option.ne_none_iff_exists'.mp hsome
    exact hnot _ (KeyedMap.get_eq_some_iff.mp hnode) rfl
  refine ⟨fun q hq hne => ?_, fun d hd => ?_, fun q _ => hlinks q, fun name _ => hlinks _⟩
  · refine hfree q ?_ fun e he heq => hstore e he (heq ▸ hq)
    rintro rfl
    exact hne (List.prefix_nil.mp hq).symm
  · exact hfree _ (by simp [PkgName.loc_ne_nil]) (hnames d hd)

theorem sampleSchedule_inside
    (e : DependencyPath CoreVersion × PackageSnapshot CoreVersion HashIntegrity) :
    (sampleSchedule.casPaths defaultNpmrc e).Inside := by
  intro key hkey
  unfold Schedule.casPaths at hkey
  split at hkey
  · cases hkey
  · obtain rfl := List.mem_singleton.mp hkey
    exact ⟨[], "package.json".toList, rfl⟩

/-- The install of two packages that depend on each other: two names lead back to the first. -/
theorem Install.finds_resolved_cycle :
    ∃ lockfile finish, cycleGenerate.run = .ok lockfile ∧
      Install.installFromLockfile defaultNpmrc lockfile cycleGenerate.dependencyGroups
        sampleSchedule sampleStart = .ok finish ∧
      ∀ names p, cycleGenerate.Leads names p → ∃ path parsed, dependencyPath p = .ok path ∧
        List.Forall₂ (fun text name => PkgName.parse text = .ok name) names parsed ∧
        finish.get (ownLoc sampleStore path) = some .dir ∧
        ∀ q, Finds finish sampleModules parsed q ↔ q = ownLoc sampleStore path := by
  have hall : (cycleGenerate.run.toOption.bind fun lockfile =>
      (Install.installFromLockfile defaultNpmrc lockfile cycleGenerate.dependencyGroups
        sampleSchedule sampleStart).toOption.map fun _ =>
        decide ((lockfile.packageEntries.Pairwise fun a b =>
            a.1.packageSpecifier.toVirtualStoreName ≠ b.1.packageSpecifier.toVirtualStoreName) ∧
          (∀ e ∈ lockfile.packageEntries, e.1.packageSpecifier.name.Plain) ∧
          (∀ e ∈ lockfile.packageEntries, ∀ d ∈ linkedDependencies e.2, d.1.Plain) ∧
          (∀ d ∈ lockfile.directDependencies cycleGenerate.dependencyGroups,
            d.1.Plain ∧ d.1.display ≠ ".pnpm".toList) ∧
          ((lockfile.directDependencies cycleGenerate.dependencyGroups).Pairwise fun a b =>
            a.1 ≠ b.1) ∧
          ∀ d ∈ lockfile.directDependencies cycleGenerate.dependencyGroups,
            ∀ e ∈ sampleStart.nodes.entries, e.1 ≠ sampleModules ++ d.1.loc)) = some true := by
    decide +kernel
  obtain ⟨lockfile, hlockfile, hall⟩ := Option.bind_eq_some_iff.mp hall
  obtain ⟨finish, hfinish, hall⟩ := Results.exists_of_toOption_map hall
  obtain ⟨hdistinct, hpackages, hdependencies, hdirect, honce, hnames⟩ := of_decide_eq_true hall
  have hstore : ∀ e ∈ sampleStart.nodes.entries, ¬ sampleStore <+: e.1 := by decide +kernel
  exact ⟨lockfile, finish, Results.toOption_eq_some hlockfile, hfinish, fun names p h =>
    Install.finds_resolved (by decide) cycleGenerate_keysDistinct (by decide)
      (Results.toOption_eq_some hlockfile) hdistinct
      (sampleLayout hpackages hdependencies hdirect) honce (fun e _ => sampleSchedule_inside e)
      (fresh_of_entries sampleStart_noLink hstore hnames) hfinish h⟩

end Cycle

end Npnpm
