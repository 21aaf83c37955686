import Npnpm.PackageManager.OwnDirectories

/-!
# The link layout of a package

Which names a package finds in its `node_modules` directory after a frozen
install. The install links the names of `dependencies`; `fetch` follows
`optionalDependencies` as well.
-/

namespace Npnpm

open Npnpm.Path Npnpm.FileTree

section Entries

variable {V I : Type} [NodeSemver V] [PlainSemver V]
  {config : Npmrc} {entries : List (DependencyPath V × PackageSnapshot V I)}
  {direct : List (PkgName × ResolvedDependencySpec V)} {schedule : Schedule V I} {v m : Loc}
  {importMethod : PackageImportMethod}

variable (h : Layout config entries direct v m)
include h

/-- After the link step of a dependency something stands at its place. -/
theorem Layout.link_taken {e : DependencyPath V × PackageSnapshot V I} (he : e ∈ entries)
    {d : PkgName × PackageSnapshotDependency V} (hd : d ∈ linkedDependencies e.2) {t t' : Tree}
    (hway : (dependencyLink config e.1 d).Unobstructed t)
    (hexec : (dependencyLink config e.1 d).exec importMethod t = .ok t') :
    t'.get (entryLoc v e.1 d.1) ≠ none := by
  have hpath := h.leadsTo_entry he (h.dependencyNames e he d hd)
  obtain ⟨dir, last, hloc⟩ := exists_entryLoc_concat v e.1 d.1
  rw [hloc] at hpath ⊢
  obtain ⟨s, -, -, hout⟩ := symlinkPackage_ok hpath (linkPackage_clear hpath hway)
    (Results.mapError_ok hexec)
  exact hout.taken

/-- After the import of a package something stands at its place. -/
theorem Layout.import_taken {e : DependencyPath V × PackageSnapshot V I} (he : e ∈ entries)
    {casPaths : CasPaths} {t t' : Tree}
    (hway : (packageImport config casPaths e.1).Unobstructed t)
    (hexec : (packageImport config casPaths e.1).exec importMethod t = .ok t') :
    t'.get (ownLoc v e.1) ≠ none := by
  have hpath := h.leadsTo_savePath he
  obtain ⟨dir, last, hloc⟩ := exists_entryLoc_concat v e.1 e.1.packageSpecifier.name
  rw [ownLoc, hloc] at hpath ⊢
  exact createCasFiles_taken hpath (importFiles_clear hpath hway) (Results.mapError_ok hexec)

/-- A place of a `node_modules` directory that is taken stays taken: what removes
it puts a link there. -/
theorem Layout.entry_stays {part : List InstallStep}
    (hpart : ∀ step ∈ part, step ∈ installSteps config entries direct schedule)
    {path : DependencyPath V} {name : PkgName} (hname : name.WellFormed) {t t' : Tree}
    (hrun : runSteps importMethod part t = .ok t')
    (htidy : Tidy (installSteps config entries direct schedule) t)
    (htaken : t.get (entryLoc v path name) ≠ none) : t'.get (entryLoc v path name) ≠ none := by
  refine ((h.orderly schedule).run_invariant (fun s => s.get (entryLoc v path name) ≠ none)
    hpart hrun htidy htaken ?_).2
  intro step hmem s s' hs hi hexec
  have hstep := hpart step hmem
  by_cases hclears : step.Clears (entryLoc v path name)
  · obtain ⟨e, he, d, hd, rfl, hprefix⟩ :=
      h.dependencyLink_of_clears (layoutStep_of_mem hstep) (prefix_entryLoc v path name) hclears
    obtain ⟨hstore, hsame⟩ :=
      entryLoc_nested (h.dependencyNames e he d hd).wellFormed hname hprefix
    have hloc : entryLoc v path name = entryLoc v e.1 d.1 := by
      rw [entryLoc, entryLoc, hstore, hsame]
    rw [hloc]
    exact h.link_taken he hd (hs _ hstep) hexec
  · obtain ⟨node, hnode⟩ := Option.ne_none_iff_exists'.mp hi
    have hkept := ((h.orderly schedule).changes hs hstep hexec).kept _ node hnode hclears
    rw [hkept]
    simp

end Entries

section Complete

variable {V I : Type} [NodeSemver V] [BEq V]

def optionalReferences (snapshot : PackageSnapshot V I) : List (Text × Text) :=
  snapshot.optionalDependencies.elim [] KeyedMap.entries

/-- The optional dependency refers to a package of the lockfile, which a frozen
install has installed when it finishes. -/
def OptionalInstalled (lockfile : Lockfile V I) (path : DependencyPath V) (o : Text × Text) :
    Prop :=
  ∃ packages child, lockfile.packages = some packages ∧
    (LockfilePackageIndex.new packages).resolveOptionalDependency path o.1 o.2 = .ok (some child)

/-- The `node_modules` directory of the package has an entry of the name. -/
def HasEntry (config : Npmrc) (t : Tree) (path : DependencyPath V) (name : Text) : Prop :=
  ∃ node, symlinkMetadata t (components (join (virtualNodeModulesDir config path) name)) =
    .ok node

/-- Every edge of every package has an entry. -/
def LinkLayoutComplete (config : Npmrc) (lockfile : Lockfile V I) (t : Tree) : Prop :=
  ∀ e ∈ lockfile.packageEntries,
    (∀ d ∈ linkedDependencies e.2, HasEntry config t e.1 d.1.display) ∧
      ∀ o ∈ optionalReferences e.2, OptionalInstalled lockfile e.1 o → HasEntry config t e.1 o.1

/-- Every installed optional dependency is listed as a dependency too, or has the
name of the package itself, or has its entry when the install begins. -/
def OptionalCovered (lockfile : Lockfile V I) (v : Loc) (start : Tree) : Prop :=
  ∀ e ∈ lockfile.packageEntries, ∀ o ∈ optionalReferences e.2,
    OptionalInstalled lockfile e.1 o →
      o.1 = e.1.packageSpecifier.name.display ∨
        (∃ d ∈ linkedDependencies e.2, d.1.display = o.1) ∨
        ∃ name : PkgName, name.Plain ∧ name.display = o.1 ∧
          start.get (entryLoc v e.1 name) ≠ none

variable [PlainSemver V] {config : Npmrc} {lockfile : Lockfile V I}
  {groups : List DependencyGroup} {schedule : Schedule V I} {v m : Loc} {start finish : Tree}

omit [BEq V] [PlainSemver V] in
theorem hasEntry_of_get {path : DependencyPath V} {name : PkgName} {t : Tree}
    (hpath : LeadsTo (join (virtualNodeModulesDir config path) name.display)
      (entryLoc v path name)) (htaken : t.get (entryLoc v path name) ≠ none) :
    HasEntry config t path name.display := by
  obtain ⟨node, hnode⟩ := Option.ne_none_iff_exists'.mp htaken
  obtain ⟨d, last, hloc⟩ := exists_entryLoc_concat v path name
  rw [hloc] at hpath hnode
  refine ⟨node, ?_⟩
  rw [hpath]
  exact symlinkMetadata_of_get (by simpa using Tree.get_dropLast hnode) hnode

/-- A frozen install gives every package an entry for each of its edges, if its
installed optional dependencies are covered. -/
theorem Install.linkLayout_complete
    (hlayout : Layout config lockfile.packageEntries (lockfile.directDependencies groups) v m)
    (htidy : Tidy (installSteps config lockfile.packageEntries
      (lockfile.directDependencies groups) schedule) start)
    (hcovered : OptionalCovered lockfile v start)
    (hrun : Install.installFromLockfile config lockfile groups schedule start = .ok finish) :
    LinkLayoutComplete config lockfile finish := by
  have hsteps := Install.steps_of_run hrun
  have horder := hlayout.orderly schedule
  -- from the step that takes the place on, it stays taken
  have hentry : ∀ e ∈ lockfile.packageEntries, ∀ name : PkgName, name.Plain →
      ∀ step ∈ installSteps config lockfile.packageEntries
        (lockfile.directDependencies groups) schedule,
      (∀ s s', step.Unobstructed s → step.exec config.packageImportMethod s = .ok s' →
        s'.get (entryLoc v e.1 name) ≠ none) →
      HasEntry config finish e.1 name.display := by
    intro e he name hname step hmem htakes
    obtain ⟨before, after, hsplit⟩ := List.append_of_mem hmem
    obtain ⟨s, s', -, hway, hexec, hs', hafter⟩ := horder.run_at hsteps htidy hsplit
    have htaken := htakes s s' hway hexec
    apply hasEntry_of_get (hlayout.leadsTo_entry he hname)
    exact hlayout.entry_stays (fun other hother => by simp [hsplit, hother]) hname.wellFormed
      hafter hs' htaken
  have hlink : ∀ e ∈ lockfile.packageEntries, ∀ d ∈ linkedDependencies e.2,
      HasEntry config finish e.1 d.1.display := by
    intro e he d hd
    exact hentry e he d.1 (hlayout.dependencyNames e he d hd) (dependencyLink config e.1 d)
      (List.mem_append_left _ (dependencyLink_mem he hd))
      fun s s' hway hexec => hlayout.link_taken he hd hway hexec
  intro e he
  refine ⟨hlink e he, fun o ho hinstalled => ?_⟩
  rcases hcovered e he o ho hinstalled with
    hown | ⟨d, hd, hdisplay⟩ | ⟨name, hname, hdisplay, hstart⟩
  · rw [hown]
    exact hentry e he _ (hlayout.packageNames e he)
      (packageImport config (schedule.casPaths config e) e.1)
      (List.mem_append_left _ (packageImport_mem he))
      fun s s' hway hexec => hlayout.import_taken he hway hexec
  · rw [← hdisplay]
    exact hlink e he d hd
  · rw [← hdisplay]
    apply hasEntry_of_get (hlayout.leadsTo_entry he hname)
    exact hlayout.entry_stays (fun _ hstep => hstep) hname.wellFormed hsteps htidy hstart

/-- A package with an optional dependency on `b@1.0.0`. -/
def optionalLockfile (dependencies : List (PkgName × PackageSnapshotDependency CoreVersion)) :
    Lockfile CoreVersion HashIntegrity :=
  sampleLockfile
    [(sampleKey "a".toList sampleVersion,
      samplePackage dependencies [("b".toList, "1.0.0".toList)]),
    (sampleKey "b".toList sampleVersion, samplePackage [] [])]

theorem Install.linkLayout_complete_listed :
    ∃ finish, Install.installFromLockfile defaultNpmrc
        (optionalLockfile [sampleDependency "b".toList sampleVersion]) [.prod] sampleSchedule
        sampleStart = .ok finish ∧
      LinkLayoutComplete defaultNpmrc
        (optionalLockfile [sampleDependency "b".toList sampleVersion]) finish := by
  have hrun : (Install.installFromLockfile defaultNpmrc
      (optionalLockfile [sampleDependency "b".toList sampleVersion]) [.prod] sampleSchedule
      sampleStart).toOption.map (fun _ => true) = some true := by decide +kernel
  obtain ⟨finish, hfinish, -⟩ := Results.exists_of_toOption_map hrun
  have hlayout : Layout defaultNpmrc
      (optionalLockfile [sampleDependency "b".toList sampleVersion]).packageEntries
      ((optionalLockfile [sampleDependency "b".toList sampleVersion]).directDependencies [.prod])
      sampleStore sampleModules :=
    sampleLayout (by decide +kernel) (by decide +kernel) (by decide +kernel)
  have hlisted : ∀ e ∈ (optionalLockfile
      [sampleDependency "b".toList sampleVersion]).packageEntries,
      ∀ o ∈ optionalReferences e.2, ∃ d ∈ linkedDependencies e.2, d.1.display = o.1 := by
    decide +kernel
  exact ⟨finish, hfinish, Install.linkLayout_complete hlayout
    (tidy_of_noLink sampleStart_noLink) (fun e he o ho _ => Or.inr (Or.inl (hlisted e he o ho)))
    hfinish⟩

/-- An optional dependency alone is installed and followed by `fetch`, and has no
entry. -/
theorem Install.not_linkLayout_complete_optional :
    ∃ finish, Install.installFromLockfile defaultNpmrc (optionalLockfile []) [.prod]
        sampleSchedule sampleStart = .ok finish ∧
      ¬ LinkLayoutComplete defaultNpmrc (optionalLockfile []) finish := by
  have hrun : (Install.installFromLockfile defaultNpmrc (optionalLockfile []) [.prod]
      sampleSchedule sampleStart).toOption.map (fun t => (symlinkMetadata t (components
        (join (virtualNodeModulesDir defaultNpmrc (sampleKey "a".toList sampleVersion))
          "b".toList))).toOption) = some none := by decide +kernel
  obtain ⟨finish, hfinish, hnone⟩ := Results.exists_of_toOption_map hrun
  refine ⟨finish, hfinish, fun hcomplete => ?_⟩
  have hinstalled : OptionalInstalled (optionalLockfile []) (sampleKey "a".toList sampleVersion)
      ("b".toList, "1.0.0".toList) :=
    ⟨_, sampleKey "b".toList sampleVersion, rfl, rfl⟩
  obtain ⟨node, hnode⟩ := (hcomplete _ List.mem_cons_self).2 _ List.mem_cons_self hinstalled
  rw [hnode] at hnone
  cases hnone

end Complete

end Npnpm
