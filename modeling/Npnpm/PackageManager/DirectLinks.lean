import Npnpm.PackageManager.BinZone
import Npnpm.PackageManager.GenerateEntries
import Npnpm.PackageManager.ManifestCommands
import Npnpm.PackageManager.SaveOrder

/-!
# Direct links that stay

The steps of an install leave a link at every name of the modules directory that had
one, but for the synchronisation, which removes the names that are not wanted. `Add`
installs the groups that it saves to and no others, so the names of the other groups
are not wanted.

## Implementation notes

The virtual store and the modules directory are given by absolute paths without `..`,
no link stands on the ways to them, and packages have the names that npm accepts.
-/

namespace Npnpm

open Npnpm.Path Npnpm.FileTree

section Steps

variable {v m : Loc} {importMethod : PackageImportMethod} {step : InstallStep}
  {steps : List InstallStep} {t t' : Tree}

def IsLink (t : Tree) (q : Loc) : Prop := ∃ target, t.get q = some (.link target)

/-- A link step leaves a link where one was. -/
theorem symlinkPackage_isLink {symlinkTarget symlinkPath : Text} {d : Loc} {name : Text}
    (hpath : LeadsTo symlinkPath (d ++ [name])) (hlink : IsLink t (d ++ [name]))
    (h : symlinkPackage t symlinkTarget symlinkPath = .ok t') : IsLink t' (d ++ [name]) := by
  obtain ⟨target, hnode⟩ := hlink
  have hd : t.get d = some .dir := by simpa using Tree.get_dropLast hnode
  obtain ⟨s, hs, -, hout⟩ := symlinkPackage_ok hpath (clear_of_dir hd) h
  rw [createDirAll_of_dir hd] at hs
  cases hs
  cases hout with
  | kept => exact ⟨target, hnode⟩
  | made h =>
      obtain ⟨-, hfree, -⟩ := Tree.create_ok h
      rw [hnode] at hfree
      cases hfree
  | replaced _ _ h =>
      obtain ⟨-, -, hget⟩ := Tree.create_ok h
      exact ⟨_, by rw [hget, if_pos rfl]⟩
  | dangling => exact ⟨target, hnode⟩

theorem ProjectStep.changes (happart : Apart v m) (hstep : ProjectStep v m step)
    (hclear : ProjectClear v m t) (hexec : step.exec importMethod t = .ok t') :
    Changes step.Clears step.Links t t' := by
  have hsteps : ∀ other ∈ [step], ProjectStep v m other := by simpa using hstep
  exact (happart.orderly hsteps).changes (hclear.tidy hsteps) (List.mem_singleton_self _) hexec

/-- A step of a project leaves the ways of the project free of links. -/
theorem ProjectStep.clear (happart : Apart v m) (hstep : ProjectStep v m step)
    (hclear : ProjectClear v m t) (hexec : step.exec importMethod t = .ok t') :
    ProjectClear v m t' := by
  apply happart.clear_of_links hclear
  intro q target hq
  apply ((hstep.changes happart hclear hexec).links q target hq).imp_right
  intro hlinks
  cases hstep with
  | nodeModules => exact hlinks.elim
  | importFiles => exact hlinks.elim
  | linkPackage _ hplace hpath =>
      rw [hlinks.1.unique hpath]
      exact hplace
  | syncLinks => exact hlinks.elim

/-- The step does not remove the name. -/
def InstallStep.Wants (name : Text) : InstallStep → Prop
  | .syncLinks _ desired => name ∈ desired
  | _ => True

theorem ProjectStep.keeps_link (happart : Apart v m) (hstep : ProjectStep v m step)
    (hclear : ProjectClear v m t) {name : PkgName} (hname : name.Visible)
    (hwants : step.Wants name.display) (hlink : IsLink t (m ++ name.loc))
    (hexec : step.exec importMethod t = .ok t') : IsLink t' (m ++ name.loc) := by
  cases hstep with
  | nodeModules =>
      exact hlink.imp fun _ => (Grows.of_createDirAll (Results.mapError_ok hexec)).kept _ _
  | importFiles =>
      exact hlink.imp fun _ => (createCasFiles_grows (Results.mapError_ok hexec)).kept _ _
  | @linkPackage _ _ q hplace hpath =>
      obtain ⟨d, last, rfl⟩ := hplace.exists_concat
      by_cases hq : d ++ [last] = m ++ name.loc
      · rw [← hq] at hlink ⊢
        exact symlinkPackage_isLink hpath hlink (Results.mapError_ok hexec)
      · have hchanges : Changes (fun l => d ++ [last] <+: l) (fun l _ => l = d ++ [last]) t t' :=
          symlinkPackage_changes hpath (hclear.clear_parent hplace) (Results.mapError_ok hexec)
            (fun _ hl => hl) rfl
        exact hlink.imp fun _ hnode => hchanges.kept _ _ hnode fun habove =>
          hq (happart.eq_of_above hplace (happart.visible_place hname) habove)
  | syncLinks desired hpath =>
      obtain ⟨target, hnode⟩ := hlink
      have hentry := directEntry_of_taken hname (by simp [hnode] : t.get (m ++ name.loc) ≠ none)
      exact ⟨target, sync_keeps hpath (hclear m .modules) (Results.mapError_ok hexec) hentry
        hwants hnode⟩

/-- The steps leave a link at every name that they want. -/
theorem runSteps_keeps_link (happart : Apart v m) (hsteps : ∀ step ∈ steps, ProjectStep v m step)
    (hclear : ProjectClear v m t) {name : PkgName} (hname : name.Visible)
    (hwants : ∀ step ∈ steps, step.Wants name.display)
    (hrun : runSteps importMethod steps t = .ok t') :
    ProjectClear v m t' ∧ (IsLink t (m ++ name.loc) → IsLink t' (m ++ name.loc)) :=
  Results.foldlM_invariant (fun s => ProjectClear v m s ∧
      (IsLink t (m ++ name.loc) → IsLink s (m ++ name.loc))) hrun ⟨hclear, id⟩
    fun step hmem _ _ ⟨hs, hkeeps⟩ hexec =>
      ⟨(hsteps step hmem).clear happart hs hexec, fun hlink =>
        (hsteps step hmem).keeps_link happart hs hname (hwants step hmem) (hkeeps hlink) hexec⟩

theorem runSteps_clear (happart : Apart v m) (hsteps : ∀ step ∈ steps, ProjectStep v m step)
    (hclear : ProjectClear v m t) (hrun : runSteps importMethod steps t = .ok t') :
    ProjectClear v m t' :=
  Results.foldlM_invariant (ProjectClear v m) hrun hclear fun step hmem _ _ hs hexec =>
    (hsteps step hmem).clear happart hs hexec

/-- After a synchronisation that does not want the name no link is there, unless a
later step makes one. -/
theorem runSteps_removes_link {before after : List InstallStep} {modulesDir : Text}
    {desired : List Text} (happart : Apart v m)
    (hsteps : ∀ step ∈ before ++ .syncLinks modulesDir desired :: after, ProjectStep v m step)
    (hclear : ProjectClear v m t) (hmodules : LeadsTo modulesDir m) {name : PkgName}
    (hname : name.Visible) (hnot : name.display ∉ desired)
    (hafter : ∀ step ∈ after, ∀ target, ¬ step.Links (m ++ name.loc) target)
    (hrun : runSteps importMethod (before ++ .syncLinks modulesDir desired :: after) t = .ok t') :
    ¬ IsLink t' (m ++ name.loc) := by
  obtain ⟨s, hbefore, hrest⟩ := runSteps_append_ok hrun
  obtain ⟨s', hsync, hlast⟩ := runSteps_cons_ok hrest
  have hs := runSteps_clear happart (fun step hstep => hsteps step (by simp [hstep])) hclear hbefore
  have hsyncStep := hsteps (.syncLinks modulesDir desired) (by simp)
  have hs' := hsyncStep.clear happart hs hsync
  have hgone : s'.get (m ++ name.loc) = none :=
    sync_removes hmodules (hs m .modules) (Results.mapError_ok hsync) hname hnot
  refine (Results.foldlM_invariant (fun r => ProjectClear v m r ∧ ¬ IsLink r (m ++ name.loc))
    hlast ⟨hs', fun ⟨target, hnode⟩ => by simp [hgone] at hnode⟩ ?_).2
  rintro step hmem r r' ⟨hr, hnolink⟩ hexec
  have hstep : ProjectStep v m step := hsteps step (by simp [hmem])
  refine ⟨hstep.clear happart hr hexec, fun ⟨target, hnode⟩ => ?_⟩
  rcases (hstep.changes happart hr hexec).links _ target hnode with hold | hnew
  · exact hnolink ⟨target, hold⟩
  · exact hafter step hmem target hnew

end Steps

section Selection

variable {V I : Type} [BEq V]

/-- The packages that an install wants in the modules directory. The snapshot of a
lockfile has no peer dependencies. -/
def Install.Selects (install : Install V I) (name : Text) : Prop :=
  ∃ group ∈ install.dependencyGroups, (install.config.lockfile = true → group ≠ .peer) ∧
    install.manifest.Lists name group

/-- The direct dependencies of a lockfile have the names of the selected groups. -/
def Lockfile.HasNames (lockfile : Lockfile V I) (install : Install V I) : Prop :=
  ∀ name, name ∈ (lockfile.directDependencies install.dependencyGroups).map (fun d => d.1.display) ↔
    ∃ group ∈ install.dependencyGroups, group ≠ .peer ∧ install.manifest.Lists name group

theorem mem_directNames_iff {lockfile : Lockfile V I} {project : ProjectSnapshot V}
    (hproject : lockfile.projectSnapshot = .single project) {groups : List DependencyGroup}
    {name : Text} :
    name ∈ (lockfile.directDependencies groups).map (fun d => d.1.display) ↔
      ∃ group ∈ groups, ∃ dependencies, project.getMapByGroup group = some dependencies ∧
        ∃ d ∈ dependencies.entries, d.1.display = name := by
  have hdirect : lockfile.directDependencies groups = project.dependenciesByGroups groups := by
    unfold Lockfile.directDependencies
    rw [hproject]
  rw [hdirect, ProjectSnapshot.dependenciesByGroups, List.mem_map]
  constructor
  · rintro ⟨d, hd, rfl⟩
    obtain ⟨group, hgroup, hd⟩ := List.mem_flatMap.mp hd
    split at hd
    · rename_i dependencies hdependencies
      exact ⟨group, hgroup, dependencies, hdependencies, d, hd, rfl⟩
    · cases hd
  · rintro ⟨group, hgroup, dependencies, hdependencies, d, hd, rfl⟩
    refine ⟨d, List.mem_flatMap.mpr ⟨group, hgroup, ?_⟩, rfl⟩
    rw [hdependencies]
    exact hd

omit [BEq V] in
/-- The names in the map of specifiers are those of the group. -/
theorem ProjectSnapshot.mem_specifiersOf {project : ProjectSnapshot V} {group : DependencyGroup}
    {name : Text} :
    (∃ specifier, (name, specifier) ∈ (project.specifiersOf group).entries) ↔
      ∃ dependencies, project.getMapByGroup group = some dependencies ∧
        ∃ d ∈ dependencies.entries, d.1.display = name := by
  unfold ProjectSnapshot.specifiersOf
  cases project.getMapByGroup group with
  | none => simp [KeyedMap.empty]
  | some dependencies =>
      simp only
      rw [← KeyedMap.mem_keys, KeyedMap.mem_keys_ofList]
      simp

/-- A lockfile that is in sync has the names of the groups. -/
theorem Install.hasNames_of_inSync {install : Install V I} {lockfile : Lockfile V I}
    (h : install.inSync lockfile = true) : lockfile.HasNames install := by
  obtain ⟨project, hproject, hgroups⟩ := lockfileMatchesManifest_iff.mp h
  intro name
  rw [mem_directNames_iff hproject]
  constructor
  · rintro ⟨group, hgroup, dependencies, hdependencies, hd⟩
    refine ⟨group, hgroup, ?_, ?_⟩
    · rintro rfl
      cases hdependencies
    · obtain ⟨specifier, hmem⟩ :=
        ProjectSnapshot.mem_specifiersOf.mpr ⟨dependencies, hdependencies, hd⟩
      have hperm := (SaveOrder.matchesGroup_iff_perm rfl).mp (hgroups group hgroup)
      exact ⟨specifier, hperm.mem_iff.mpr hmem⟩
  · rintro ⟨group, hgroup, -, specifier, hmem⟩
    have hperm := (SaveOrder.matchesGroup_iff_perm rfl).mp (hgroups group hgroup)
    exact ⟨group, hgroup, ProjectSnapshot.mem_specifiersOf.mp ⟨specifier, hperm.mem_iff.mp hmem⟩⟩

variable [NodeSemver V] [SemverRange V]

/-- A generated lockfile has the names of the groups. -/
theorem GenerateLockfile.hasNames_of_run {install : Install V I} {lockfile : Lockfile V I}
    (h : install.generateLockfile.run = .ok lockfile) : lockfile.HasNames install := by
  obtain ⟨project, hproject, hgroups⟩ := GenerateLockfile.run_groups h
  intro name
  rw [mem_directNames_iff hproject]
  have hspecifiers : ∀ group ∈ install.dependencyGroups, group ≠ .peer →
      (project.specifiersOf group).entries = install.manifest.groupDependencies group := by
    intro group hgroup hpeer
    obtain ⟨resolved, hrecorded, hentries⟩ := (hgroups group hpeer).2 hgroup
    exact ProjectSnapshot.specifiersOf_of_records hrecorded
      (install.manifest.groupDependencies_nodup group) hentries
  constructor
  · rintro ⟨group, hgroup, dependencies, hdependencies, hd⟩
    have hpeer : group ≠ .peer := by
      rintro rfl
      cases hdependencies
    obtain ⟨specifier, hmem⟩ :=
      ProjectSnapshot.mem_specifiersOf.mpr ⟨dependencies, hdependencies, hd⟩
    exact ⟨group, hgroup, hpeer, specifier, hspecifiers group hgroup hpeer ▸ hmem⟩
  · rintro ⟨group, hgroup, hpeer, specifier, hmem⟩
    rw [← hspecifiers group hgroup hpeer] at hmem
    exact ⟨group, hgroup, ProjectSnapshot.mem_specifiersOf.mp ⟨specifier, hmem⟩⟩

end Selection

section Install

variable {V I : Type} [NodeSemver V] [SemverRange V] [BEq V]

/-- The lockfile that an install is made from. -/
def Install.Installs (install : Install V I) (lockfile : Lockfile V I) : Prop :=
  (∃ mode, install.action = .fromLockfile lockfile mode) ∨
    (∃ mode, install.action = .generateAndInstall mode) ∧
      install.generateLockfile.run = .ok lockfile

/-- Where an install writes: the packages that it comes to have npm names, and the
modules directory and the virtual store are apart. -/
structure Install.Places (install : Install V I) (v m : Loc) : Prop where
  modulesDir : LeadsTo install.config.modulesDir m
  virtualStoreDir : LeadsTo install.config.virtualStoreDir v
  apart : Apart v m
  packages : ∀ lockfile, install.Installs lockfile → ∀ e ∈ lockfile.packageEntries,
    e.1.packageSpecifier.name.Plain ∧ ∀ d ∈ linkedDependencies e.2, d.1.Plain
  direct : ∀ lockfile, install.Installs lockfile →
    ∀ d ∈ lockfile.directDependencies install.dependencyGroups, d.1.Visible
  reached : install.config.lockfile = false →
    ∀ task p, install.installWithoutLockfile.Reaches task p →
      ∃ name : PkgName, name.Visible ∧ p.name = name.display

/-- The writes of an install before the bins: one synchronisation, after which only
links with the wanted names are made. -/
def Install.Links (install : Install V I) (v m : Loc) (t s : Tree) : Prop :=
  ∃ before desired after,
    runSteps install.config.packageImportMethod
      (before ++ .syncLinks install.config.modulesDir desired :: after) t = .ok s ∧
    (∀ step ∈ before ++ .syncLinks install.config.modulesDir desired :: after,
      ProjectStep v m step) ∧
    (∀ step ∈ before ++ after, ∀ name, InstallStep.Wants name step) ∧
    (∀ step ∈ after, ∀ q target, step.Links q target →
      ∃ name : PkgName, name.Visible ∧ name.display ∈ desired ∧ q = m ++ name.loc) ∧
    ∀ name, name ∈ desired ↔ install.Selects name

variable [PlainSemver V] {install : Install V I} {v m : Loc} {t t' s : Tree}
  {binEntries : BinEntries} {report : InstallReport V I}

omit [SemverRange V] [BEq V] in
/-- The steps of a frozen install are steps of the project. -/
theorem Layout.projectStep {config : Npmrc}
    {entries : List (DependencyPath V × PackageSnapshot V I)}
    {direct : List (PkgName × ResolvedDependencySpec V)} {schedule : Schedule V I}
    (h : Layout config entries direct v m) {step : InstallStep}
    (hstep : LayoutStep config entries direct schedule step) : ProjectStep v m step := by
  cases hstep with
  | nodeModules e he => exact .nodeModules (.store _) (h.leadsTo_nodeModules he)
  | packageImport e he => exact .importFiles _ _ (h.packageNames e he) (h.leadsTo_savePath he)
  | dependencyLink e he d hd =>
      have hplain := h.dependencyNames e he d hd
      exact .linkPackage _ (.entry _ hplain) (h.leadsTo_entry he hplain)
  | syncLinks => exact .syncLinks _ h.modules
  | directLink d hd =>
      have hplace : PackagePlace v m (m ++ d.1.loc) :=
        .direct (h.directNames d hd) fun rest hv => (h.hidden _ rest hv).2 d hd rfl
      exact .linkPackage _ hplace (h.leadsTo_direct hd)

omit [PlainSemver V] in
theorem Install.Places.layout (h : install.Places v m) {lockfile : Lockfile V I}
    (hinstalls : install.Installs lockfile) :
    Layout install.config lockfile.packageEntries
      (lockfile.directDependencies install.dependencyGroups) v m where
  virtualStore := h.virtualStoreDir
  modules := h.modulesDir
  outside := h.apart.outside
  hidden name rest hv := by
    have hdot := (h.apart.hidden name rest hv).1
    refine ⟨hdot, fun d hd heq => ?_⟩
    apply (h.direct lockfile hinstalls d hd).visible
    rw [heq, hdot]
  packageNames e he := (h.packages lockfile hinstalls e he).1
  dependencyNames e he := (h.packages lockfile hinstalls e he).2
  directNames d hd := (h.direct lockfile hinstalls d hd).plain

/-- The steps of an install from a lockfile. -/
theorem Install.Places.links_fromLockfile (h : install.Places v m) {lockfile : Lockfile V I}
    (hinstalls : install.Installs lockfile) (hconfig : install.config.lockfile = true)
    (hnames : lockfile.HasNames install) {schedule : Schedule V I}
    (hinstall : Install.installFromLockfile install.config lockfile install.dependencyGroups
      schedule t = .ok s) : install.Links v m t s := by
  have hlayout := h.layout hinstalls
  refine ⟨storeSteps install.config lockfile.packageEntries schedule, _, _,
    Install.steps_of_run hinstall, ?_, ?_, ?_, ?_⟩
  · exact fun step hstep => hlayout.projectStep (layoutStep_of_mem hstep)
  · intro step hstep name
    rcases List.mem_append.mp hstep with hstore | hdirect
    · obtain ⟨e, -, hstep⟩ := List.mem_flatMap.mp hstore
      simp only [packageSteps, List.mem_cons, List.mem_map] at hstep
      rcases hstep with rfl | rfl | ⟨d, -, rfl⟩ <;> exact trivial
    · obtain ⟨d, -, rfl⟩ := List.mem_map.mp hdirect
      exact trivial
  · intro step hstep q target hlinks
    obtain ⟨d, hd, rfl⟩ := List.mem_map.mp hstep
    refine ⟨d.1, h.direct lockfile hinstalls d hd, List.mem_map.mpr ⟨d, hd, rfl⟩, ?_⟩
    exact hlinks.1.unique (hlayout.leadsTo_direct hd)
  · intro name
    rw [hnames name]
    simp [Install.Selects, hconfig]

/-- The steps of an install without a lockfile. -/
theorem Install.Places.links_withoutLockfile (h : install.Places v m)
    (hconfig : install.config.lockfile = false) {download : RegistryDownload I}
    {installed : List (RegistryInstalled V I)} {state : RegistryInstallState}
    (hinstall : install.installWithoutLockfile.Completes download t installed state s) :
    install.Links v m t s := by
  have hplaces : RegistryPlaces install.installWithoutLockfile v m :=
    ⟨h.modulesDir, h.virtualStoreDir, h.apart, h.reached hconfig⟩
  have hprogress := InstallWithoutLockfile.Progress.of_run hinstall.run
  have hsteps : ∀ step ∈ installed.flatMap (RegistryInstalled.steps install.config),
      ProjectStep v m step ∧ ∀ name, InstallStep.Wants name step := by
    intro step hstep
    obtain ⟨e, he, hstep⟩ := List.mem_flatMap.mp hstep
    have hreach := hprogress.reached e he
    simp only [RegistryInstalled.steps, registrySteps, List.mem_cons, List.not_mem_nil,
      or_false] at hstep
    rcases hstep with rfl | rfl
    · obtain ⟨storeName, name, hname, hsave⟩ := hplaces.savePlace hreach
      exact ⟨.importFiles _ storeName hname hsave, fun _ => trivial⟩
    · obtain ⟨q, hq⟩ : ∃ q, LeadsTo (e.task.linkPath e.package) q := by
        obtain ⟨_, -, -, hq | ⟨_, hq⟩⟩ := hplaces.linkPlace hreach <;> exact ⟨_, hq⟩
      exact ⟨.linkPackage _ (hplaces.packagePlace_of_link hreach hq) hq, fun _ => trivial⟩
  have hsync : InstallStep.exec install.config.packageImportMethod state.tree
      (.syncLinks install.config.modulesDir
        ((install.manifest.dependencies install.dependencyGroups).map Prod.fst)) = .ok s := by
    rw [InstallStep.exec]
    exact congrArg _ hinstall.sync
  have hrun := runSteps_append_of_ok (InstallWithoutLockfile.steps_of_run hinstall.run)
    (runSteps_cons_of_ok hsync (rfl : runSteps install.config.packageImportMethod [] s = .ok s))
  refine ⟨_, _, [], hrun, ?_, ?_, by simp, ?_⟩
  · intro step hstep
    rcases List.mem_append.mp hstep with hstep | hstep
    · exact (hsteps step hstep).1
    · rw [List.mem_singleton.mp hstep]
      exact .syncLinks _ h.modulesDir
  · intro step hstep name
    rw [List.append_nil] at hstep
    exact (hsteps step hstep).2 name
  · intro name
    simp only [Install.Selects, hconfig, PackageManifest.dependencies, List.mem_map,
      List.mem_flatMap]
    constructor
    · rintro ⟨d, ⟨group, hgroup, hd⟩, rfl⟩
      exact ⟨group, hgroup, fun hlock => absurd hlock Bool.false_ne_true, d.2, hd⟩
    · rintro ⟨group, hgroup, -, specifier, hd⟩
      exact ⟨_, ⟨group, hgroup, hd⟩, rfl⟩

omit [NodeSemver V] [SemverRange V] [PlainSemver V] in
/-- An install that is to write more than the lockfile does so. -/
theorem Install.action_links (hfull : (install.lockfileOnly || install.resolutionOnly) = false) :
    install.action ≠ .upToDate ∧ ∀ mode, install.action ≠ .generate mode := by
  unfold Install.action
  rw [if_neg (by simp [hfull])]
  split
  · exact ⟨nofun, nofun⟩
  · split <;> exact ⟨nofun, nofun⟩
  · exact ⟨nofun, nofun⟩
  · exact ⟨nofun, nofun⟩
  · split <;> exact ⟨nofun, nofun⟩
  · split <;> exact ⟨nofun, nofun⟩
  · exact ⟨nofun, nofun⟩

/-- An install that finishes has made its links, and then the bins. -/
theorem Install.Completes.links (h : install.Completes binEntries t report t')
    (hplaces : install.Places v m)
    (hfull : (install.lockfileOnly || install.resolutionOnly) = false)
    (honline : install.offline = false) :
    ∃ s, install.Links v m t s ∧
      CreateBins.run binEntries install.config.modulesDir install.config.virtualStoreDir s =
        .ok t' := by
  obtain ⟨hnotUpToDate, hnotGenerate⟩ := Install.action_links hfull
  have hchooses := install.chooses_action
  cases h with
  | upToDate haction => exact absurd haction hnotUpToDate
  | generate haction => exact absurd haction (hnotGenerate _)
  | fromLockfile haction hinstall hbins =>
      have hinstalls : install.Installs _ := Or.inl ⟨_, haction⟩
      rw [haction] at hchooses
      cases hchooses with
      | fromLockfileOffline _ hoffline _ => simp [honline] at hoffline
      | fromLockfile _ _ hconfig hsync =>
          exact ⟨_, hplaces.links_fromLockfile hinstalls hconfig
            (Install.hasNames_of_inSync hsync) hinstall, hbins⟩
  | withoutLockfile haction hinstall hbins =>
      rw [haction] at hchooses
      cases hchooses with
      | withoutLockfile _ hconfig =>
          exact ⟨_, hplaces.links_withoutLockfile hconfig hinstall, hbins⟩
  | generateAndInstall haction hgenerate hinstall hbins =>
      have hinstalls : install.Installs _ := Or.inr ⟨⟨_, haction⟩, hgenerate⟩
      rw [haction] at hchooses
      cases hchooses with
      | generateAndInstall _ hconfig _ =>
          exact ⟨_, hplaces.links_fromLockfile hinstalls hconfig
            (GenerateLockfile.hasNames_of_run hgenerate) hinstall, hbins⟩

omit [NodeSemver V] [SemverRange V] [PlainSemver V] in
/-- Before the bins are made, the links of exactly the selected names have stayed. -/
theorem Install.Links.isLink_iff (h : install.Links v m t s) (happart : Apart v m)
    (hmodules : LeadsTo install.config.modulesDir m) (hclear : ProjectClear v m t)
    {name : PkgName} (hname : name.Visible) (hlink : IsLink t (m ++ name.loc)) :
    ProjectClear v m s ∧ (IsLink s (m ++ name.loc) ↔ install.Selects name.display) := by
  obtain ⟨before, desired, after, hrun, hsteps, hwants, hafter, hdesired⟩ := h
  refine ⟨runSteps_clear happart hsteps hclear hrun, ?_⟩
  rw [← hdesired]
  constructor
  · intro hstays
    by_contra hnot
    refine runSteps_removes_link happart hsteps hclear hmodules hname hnot ?_ hrun hstays
    intro step hstep target hlinks
    obtain ⟨other, hother, hmem, heq⟩ := hafter step hstep _ target hlinks
    have hloc : other.loc = name.loc := List.append_cancel_left heq.symm
    obtain rfl := PkgName.eq_of_loc_nested hother.plain.wellFormed hname.plain.wellFormed
      (hloc ▸ List.prefix_rfl)
    exact hnot hmem
  · intro hmem
    refine (runSteps_keeps_link happart hsteps hclear hname ?_ hrun).2 hlink
    intro step hstep
    rcases List.mem_append.mp hstep with hstep | hstep
    · exact hwants step (List.mem_append_left _ hstep) _
    · rcases List.mem_cons.mp hstep with rfl | hstep
      · exact hmem
      · exact hwants step (List.mem_append_right _ hstep) _

end Install

section Names

/-- A name that npm accepts. -/
def IsNpmName (name : Text) : Prop := ∃ package : PkgName, package.Visible ∧ name = package.display

theorem IsNpmName.visible {name : Text} {package : PkgName} (h : IsNpmName name)
    (hparse : PkgName.parse name = .ok package) : package.Visible := by
  obtain ⟨known, hknown, rfl⟩ := h
  have hsame := (PkgName.parse_eq_ok_iff known.display known).mpr ⟨hknown.plain.wellFormed, rfl⟩
  rw [hsame] at hparse
  cases hparse
  exact hknown

variable {V I : Type} [NodeSemver V] [SemverRange V] [BEq V]

/-- All packages that an install may come to have names that npm accepts. -/
structure Install.NpmNames (install : Install V I) : Prop where
  listed : ∀ name group, install.manifest.Lists name group → IsNpmName name
  registry : ∀ p ∈ install.registry.versions, IsNpmName p.name ∧
    ∀ d ∈ p.dependenciesWith install.config.autoInstallPeers, IsNpmName d.1
  packages : ∀ lockfile, install.lockfile = some lockfile → ∀ e ∈ lockfile.packageEntries,
    e.1.packageSpecifier.name.Plain ∧ ∀ d ∈ linkedDependencies e.2, d.1.Plain
  direct : ∀ lockfile, install.lockfile = some lockfile →
    ∀ d ∈ lockfile.directDependencies install.dependencyGroups, d.1.Visible

variable [EquivBEq V] {install : Install V I} {v m : Loc} {lockfile : Lockfile V I}

omit [EquivBEq V] in
/-- The lockfile that an install is made from was given or is generated. -/
theorem Install.Installs.cases (h : install.Installs lockfile) :
    install.lockfile = some lockfile ∨ install.generateLockfile.run = .ok lockfile := by
  rcases h with ⟨mode, haction⟩ | ⟨-, hrun⟩
  · have hchooses := install.chooses_action
    rw [haction] at hchooses
    cases hchooses with
    | fromLockfileOffline hlockfile _ _ => exact Or.inl hlockfile
    | fromLockfile hlockfile _ _ _ => exact Or.inl hlockfile
  · exact Or.inr hrun

/-- The entries of a generated lockfile have the names of the registry. -/
theorem Install.NpmNames.generated (h : install.NpmNames)
    (hrun : install.generateLockfile.run = .ok lockfile)
    {e : DependencyPath V × PackageSnapshot V I} (he : e ∈ lockfile.packageEntries) :
    e.1.packageSpecifier.name.Visible ∧ ∀ d ∈ linkedDependencies e.2, d.1.Visible := by
  obtain ⟨p, hp, hrecords⟩ := GenerateLockfile.run_entries hrun he
  obtain ⟨hname, hdependencies⟩ := h.registry p hp
  constructor
  · obtain ⟨specifier, hspecifier, hpath⟩ := Results.bind_ok hrecords.path
    obtain ⟨name, hparse, hrest⟩ := Results.bind_ok hspecifier
    obtain ⟨version, -, hpair⟩ := Results.bind_ok hrest
    cases hpair
    rw [← Except.ok.inj hpath]
    exact hname.visible (Results.mapError_ok hparse)
  · intro d hd
    obtain ⟨pairs, hpairs, hrecorded⟩ := hrecords.dependencies
    have hmem : d ∈ pairs := by
      unfold linkedDependencies at hd
      cases hdeps : e.2.dependencies with
      | none => simp [hdeps] at hd
      | some dependencies =>
          rw [hdeps] at hd hrecorded
          rw [of_recorded_eq_some hrecorded.symm] at hd
          exact KeyedMap.mem_of_mem_entries_ofList hd
    obtain ⟨dependency, hdependency, hparse, -⟩ := Results.exists_of_mem_forall₂ hpairs hmem
    exact (hdependencies dependency hdependency).visible hparse

omit [EquivBEq V] in
/-- The direct dependencies of a generated lockfile have the names of the manifest. -/
theorem Install.NpmNames.generated_direct (h : install.NpmNames)
    (hrun : install.generateLockfile.run = .ok lockfile) :
    ∀ d ∈ lockfile.directDependencies install.dependencyGroups, d.1.Visible := by
  obtain ⟨project, hproject, hgroups⟩ := GenerateLockfile.run_groups hrun
  intro d hd
  unfold Lockfile.directDependencies at hd
  simp only [hproject, ProjectSnapshot.dependenciesByGroups] at hd
  obtain ⟨group, hgroup, hd⟩ := List.mem_flatMap.mp hd
  split at hd
  · rename_i dependencies hdependencies
    have hpeer : group ≠ .peer := by
      rintro rfl
      cases hdependencies
    obtain ⟨resolved, hrecorded, hentries⟩ := (hgroups group hpeer).2 hgroup
    rw [hdependencies] at hrecorded
    rw [of_recorded_eq_some hrecorded.symm] at hd
    obtain ⟨dependency, hdependency, hparse, -⟩ := Results.exists_of_mem_forall₂ hentries hd
    exact (h.listed _ group ⟨_, hdependency⟩).visible hparse
  · cases hd

theorem Install.NpmNames.places (h : install.NpmNames)
    (hm : LeadsTo install.config.modulesDir m) (hv : LeadsTo install.config.virtualStoreDir v)
    (happart : Apart v m) : install.Places v m where
  modulesDir := hm
  virtualStoreDir := hv
  apart := happart
  packages lockfile hinstalls e he := by
    rcases hinstalls.cases with hgiven | hrun
    · exact h.packages lockfile hgiven e he
    · obtain ⟨hname, hdependencies⟩ := h.generated hrun he
      exact ⟨hname.plain, fun d hd => (hdependencies d hd).plain⟩
  direct lockfile hinstalls := by
    rcases hinstalls.cases with hgiven | hrun
    · exact h.direct lockfile hgiven
    · exact h.generated_direct hrun
  reached _ task p hreach := by
    have hmem : p ∈ install.registry.versions := by
      cases hreach with
      | root _ hresolve => exact Registry.resolve_mem_versions hresolve
      | dependency _ _ _ hresolve => exact Registry.resolve_mem_versions hresolve
    exact (h.registry p hmem).1

end Names

section Add

/-- The flags that select where `add` saves to. -/
structure AddDependencyOptions where
  saveProd : Bool
  saveDev : Bool
  saveOptional : Bool
  savePeer : Bool
deriving DecidableEq

/-- No flag stands for the regular dependencies, and `--save-peer` alone for the
development dependencies as well. -/
def AddDependencyOptions.dependencyGroups (options : AddDependencyOptions) :
    List DependencyGroup :=
  let prod := options.saveProd ||
    (!options.saveDev && !options.saveOptional && !options.savePeer)
  let dev := options.saveDev ||
    (!options.saveProd && !options.saveOptional && options.savePeer)
  (if prod then [.prod] else []) ++ (if dev then [.dev] else []) ++
    (if options.saveOptional then [.optional] else []) ++
    (if options.savePeer then [.peer] else [])

/-- Some group that is saved to is installed as well. -/
theorem AddDependencyOptions.exists_group (options : AddDependencyOptions) :
    ∃ group ∈ options.dependencyGroups, group ≠ .peer := by
  obtain ⟨prod, dev, optional, peer⟩ := options
  revert prod dev optional peer
  decide

variable {V I : Type} [NodeSemver V] [SemverRange V] [BEq V]

/-- A run of `Add` that succeeds, up to the file trees before and after it; the
manifest that is saved is the edited one. -/
def Add.Completes (add : Add V I) (binEntries : BinEntries) (edited : PackageManifest)
    (t t' : Tree) : Prop :=
  add.edit = .ok edited ∧
    ∃ report, ((ManifestCommand.add add).install edited).Completes binEntries t report t'

/-- The package is one of those that are added. -/
def Add.Names (add : Add V I) (name : Text) : Prop :=
  ∃ package ∈ add.packages, (ParsedPackageSpec.parse package).name = name

/-- A package that the manifest lists, other than as a peer, and that has a direct
link. -/
def Add.Linked (add : Add V I) (manifest : PackageManifest) (t : Tree) (name : Text) (q : Loc) :
    Prop :=
  (∃ group ∈ [DependencyGroup.prod, .dev, .optional], manifest.Lists name group) ∧
    LeadsTo (join add.config.modulesDir name) q ∧ IsLink t q

/-- The packages that the manifest still lists keep their direct links. -/
def Add.KeepsLinks (add : Add V I) (edited : PackageManifest) (t t' : Tree) : Prop :=
  ∀ name q, add.Linked edited t name q → IsLink t' q

/-- The packages with direct links, but for those that are added, are listed in the
groups that are saved to; to be listed as a peer counts only without a lockfile. -/
def Add.SavesLinked (add : Add V I) (t : Tree) : Prop :=
  ∀ name q, add.Linked add.manifest t name q → ¬ add.Names name →
    ∃ group ∈ add.dependencyGroups, (add.config.lockfile = true → group ≠ .peer) ∧
      add.manifest.Lists name group

/-- All packages that a run of `Add` may come to have names that npm accepts. -/
structure Add.NpmNames (add : Add V I) : Prop where
  listed : ∀ name group, add.manifest.Lists name group → IsNpmName name
  added : ∀ name, add.Names name → IsNpmName name
  registry : ∀ p ∈ add.registry.versions, IsNpmName p.name ∧
    ∀ d ∈ p.dependenciesWith add.config.autoInstallPeers, IsNpmName d.1
  packages : ∀ lockfile, add.lockfile = some lockfile → ∀ e ∈ lockfile.packageEntries,
    e.1.packageSpecifier.name.Plain ∧ ∀ d ∈ linkedDependencies e.2, d.1.Plain
  direct : ∀ lockfile, add.lockfile = some lockfile →
    ∀ d ∈ lockfile.directDependencies add.dependencyGroups, d.1.Visible

/-- Edits that each list some names list them all. -/
theorem lists_foldlM {α ε : Type} {f : PackageManifest → α → Except ε PackageManifest}
    {adds : α → Text → DependencyGroup → Prop}
    (hf : ∀ manifest a manifest', f manifest a = .ok manifest' → ∀ name group,
      manifest'.Lists name group ↔ manifest.Lists name group ∨ adds a name group)
    {l : List α} {manifest manifest' : PackageManifest} (h : l.foldlM f manifest = .ok manifest')
    (name : Text) (group : DependencyGroup) :
    manifest'.Lists name group ↔ manifest.Lists name group ∨ ∃ a ∈ l, adds a name group := by
  induction l generalizing manifest with
  | nil =>
      cases h
      simp
  | cons a rest ih =>
      obtain ⟨s, hs, hrest⟩ := Results.bind_ok h
      rw [ih hrest, hf manifest a s hs]
      simp only [List.mem_cons, exists_eq_or_imp]
      tauto

variable {add : Add V I} {edited : PackageManifest} {v m : Loc} {t t' : Tree}
  {binEntries : BinEntries}

/-- The edits list the added packages in every group that is saved to. -/
theorem Add.edit_lists (h : add.edit = .ok edited) (name : Text) (group : DependencyGroup) :
    edited.Lists name group ↔
      add.manifest.Lists name group ∨ group ∈ add.dependencyGroups ∧ add.Names name := by
  obtain ⟨specs, hspecs, hfold⟩ := Results.bind_ok h
  have hnames : specs.map Prod.fst =
      add.packages.map fun package => (ParsedPackageSpec.parse package).name :=
    Results.map_eq_of_mapM (fun _ _ hspec => Add.resolveSpec_name hspec) hspecs
  have hround : ∀ (manifest : PackageManifest) (spec : Text × Text) (manifest' : PackageManifest),
      add.dependencyGroups.foldlM (fun manifest group =>
        (manifest.addDependency spec.1 spec.2 group).mapError .addDependencyToManifest) manifest =
        (.ok manifest' : Except AddError PackageManifest) → ∀ name group,
      manifest'.Lists name group ↔ manifest.Lists name group ∨
        name = spec.1 ∧ group ∈ add.dependencyGroups := by
    intro manifest spec manifest' hgroups name group
    have hone : ∀ (manifest : PackageManifest) (g : DependencyGroup) (manifest' : PackageManifest),
        (manifest.addDependency spec.1 spec.2 g).mapError .addDependencyToManifest =
          (.ok manifest' : Except AddError PackageManifest) → ∀ name group,
        manifest'.Lists name group ↔ manifest.Lists name group ∨ name = spec.1 ∧ group = g :=
      fun _ _ _ hadd => PackageManifest.addDependency_lists (Results.mapError_ok hadd)
    rw [lists_foldlM hone hgroups]
    simp [and_comm]
  have hadded : (∃ spec ∈ specs, name = spec.1) ↔ add.Names name := by
    have hmem : name ∈ specs.map Prod.fst ↔
        name ∈ add.packages.map fun package => (ParsedPackageSpec.parse package).name := by
      rw [hnames]
    simpa [Add.Names, eq_comm] using hmem
  rw [lists_foldlM hround hfold, ← hadded]
  apply or_congr_right
  constructor
  · rintro ⟨spec, hspec, hname, hgroup⟩
    exact ⟨hgroup, spec, hspec, hname⟩
  · rintro ⟨hgroup, spec, hspec, hname⟩
    exact ⟨spec, hspec, hname, hgroup⟩

theorem Add.NpmNames.install (h : add.NpmNames) (hedit : add.edit = .ok edited) :
    ((ManifestCommand.add add).install edited).NpmNames where
  listed name group hlists := by
    rcases (Add.edit_lists hedit name group).mp hlists with hold | ⟨-, hadded⟩
    · exact h.listed name group hold
    · exact h.added name hadded
  registry := h.registry
  packages := h.packages
  direct := h.direct

variable [EquivBEq V] [PlainSemver V]

/-- Adding to some groups keeps the direct links exactly when every linked package is
added itself or in one of these groups. -/
theorem Add.keepsLinks_iff {options : AddDependencyOptions}
    (hoptions : add.dependencyGroups = options.dependencyGroups) (hnpm : add.NpmNames)
    (hm : LeadsTo add.config.modulesDir m) (hv : LeadsTo add.config.virtualStoreDir v)
    (happart : Apart v m) (hclear : ProjectClear v m t) (hnames : t.PlainNames)
    (hbins : PlainBins binEntries) (h : add.Completes binEntries edited t t') :
    add.KeepsLinks edited t t' ↔ add.SavesLinked t := by
  obtain ⟨hedit, report, h⟩ := h
  have hinstall := hnpm.install hedit
  obtain ⟨s, hlinks, hrun⟩ := h.links (hinstall.places hm hv happart) rfl rfl
  have hsteps := hlinks
  obtain ⟨before, desired, after, hsrun, -⟩ := hsteps
  have hplain := plainChildren_of_plainNames (runSteps_plainNames hnames hsrun) v
  -- the bins are made without touching the direct links
  have hiff : ∀ name q, add.Linked edited t name q →
      (IsLink t' q ↔ ((ManifestCommand.add add).install edited).Selects name) := by
    rintro name q ⟨⟨group, -, hlists⟩, hq, hlink⟩
    obtain ⟨package, hpackage, rfl⟩ := hinstall.listed name group hlists
    obtain rfl := hq.unique (hpackage.plain.leadsTo hm)
    obtain ⟨hsclear, hstays⟩ := hlinks.isLink_iff happart hm hclear hpackage hlink
    have hsame := CreateBins.run_same hbins happart hplain hsclear hm hv hrun
    rw [← hstays, IsLink, hsame _ (happart.not_binZone hpackage), IsLink]
  have hmono : ∀ {name group}, add.manifest.Lists name group → edited.Lists name group :=
    fun hold => (Add.edit_lists hedit _ _).mpr (Or.inl hold)
  constructor
  · rintro hkeeps name q ⟨⟨group, hgroup, hlists⟩, hlinked⟩ hnot
    have hedited : add.Linked edited t name q := ⟨⟨group, hgroup, hmono hlists⟩, hlinked⟩
    obtain ⟨group', hgroup', hpeer, hselected⟩ := (hiff name q hedited).mp (hkeeps name q hedited)
    refine ⟨group', hgroup', hpeer, ?_⟩
    exact ((Add.edit_lists hedit name group').mp hselected).resolve_right fun hadded =>
      hnot hadded.2
  · rintro hsaves name q hlinked
    apply (hiff name q hlinked).mpr
    by_cases hadded : add.Names name
    · obtain ⟨group, hgroup, hpeer⟩ := options.exists_group
      rw [← hoptions] at hgroup
      exact ⟨group, hgroup, fun _ => hpeer, (Add.edit_lists hedit name group).mpr
        (Or.inr ⟨hgroup, hadded⟩)⟩
    · obtain ⟨⟨group, hgroup, hlists⟩, hplace⟩ := hlinked
      have hold := ((Add.edit_lists hedit name group).mp hlists).resolve_right fun hnew =>
        hadded hnew.2
      obtain ⟨group', hgroup', hpeer, hselected⟩ :=
        hsaves name q ⟨⟨group, hgroup, hold⟩, hplace⟩ hadded
      exact ⟨group', hgroup', hpeer, hmono hselected⟩

end Add

section Samples

/-- `add a@1.0.0` in a project that lists `b` for development. -/
def addSample (options : AddDependencyOptions) : Add CoreVersion HashIntegrity where
  config := { defaultNpmrc with lockfile := true }
  manifest := manifestOf [(.dev, [("b".toList, "1.0.0".toList)])]
  lockfile := none
  dependencyGroups := options.dependencyGroups
  packages := ["a@1.0.0".toList]
  saveExact := false
  registry := releases [("a".toList, [releasedVersion "a".toList firstVersion [] []]),
    ("b".toList, [releasedVersion "b".toList firstVersion [] []])]
  resolvedPackages := []

/-- The project with a direct link of `b`. -/
def linkedStart : Tree :=
  (symlinkPackage sampleStart "/project/b".toList
    (join defaultNpmrc.modulesDir "b".toList)).toOption.getD sampleStart

def runAdd (add : Add CoreVersion HashIntegrity) (t : Tree) : Option Tree := do
  let edited ← add.edit.toOption
  let lockfile ← ((ManifestCommand.add add).install edited).generateLockfile.run.toOption
  let s ← (Install.installFromLockfile add.config lockfile add.dependencyGroups sampleSchedule
    t).toOption
  (CreateBins.run (fun _ => .ok []) add.config.modulesDir add.config.virtualStoreDir s).toOption

theorem completes_of_runAdd {options : AddDependencyOptions} {t finish : Tree}
    (h : runAdd (addSample options) t = some finish) :
    ∃ edited, (addSample options).Completes (fun _ => .ok []) edited t finish := by
  obtain ⟨edited, hedited, h⟩ := Option.bind_eq_some_iff.mp h
  obtain ⟨lockfile, hlockfile, h⟩ := Option.bind_eq_some_iff.mp h
  obtain ⟨s, hs, hbins⟩ := Option.bind_eq_some_iff.mp h
  exact ⟨edited, Results.toOption_eq_some hedited, _,
    .generateAndInstall rfl (Results.toOption_eq_some hlockfile)
      (Results.toOption_eq_some hs) (Results.toOption_eq_some hbins)⟩

theorem linkedStart_step : symlinkPackage sampleStart "/project/b".toList
    (join defaultNpmrc.modulesDir "b".toList) = .ok linkedStart := by
  have hmade : (symlinkPackage sampleStart "/project/b".toList
      (join defaultNpmrc.modulesDir "b".toList)).isOk = true := by decide +kernel
  unfold linkedStart
  generalize symlinkPackage sampleStart "/project/b".toList
    (join defaultNpmrc.modulesDir "b".toList) = made at hmade
  cases made with
  | error e => cases hmade
  | ok t => rfl

theorem sampleStart_plainNames : sampleStart.PlainNames := by
  have hall : ∀ e ∈ sampleStart.nodes.entries, ∀ name ∈ e.1, (Component.normal name).Plain := by
    decide +kernel
  intro q node hq
  by_cases hnil : q = []
  · subst hnil
    exact fun name hname => by cases hname
  · rw [Tree.get_of_ne_nil _ hnil] at hq
    exact hall _ (KeyedMap.get_eq_some_iff.mp hq)

theorem linkedStart_clear : ProjectClear sampleStore sampleModules linkedStart := by
  have hstart : ProjectClear sampleStore sampleModules sampleStart := fun _ _ =>
    ⟨fun _ _ => sampleStart_noLink _, fun _ _ _ => sampleStart_noLink _ _⟩
  have hplace : PackagePlace sampleStore sampleModules
      (sampleModules ++ PkgName.loc ⟨none, "b".toList⟩) :=
    sampleApart.visible_place (by decide)
  have hstep : ProjectStep sampleStore sampleModules
      (.linkPackage "/project/b".toList (join defaultNpmrc.modulesDir "b".toList)) :=
    .linkPackage _ hplace (by decide)
  have hexec : InstallStep.exec .auto sampleStart
      (.linkPackage "/project/b".toList (join defaultNpmrc.modulesDir "b".toList)) =
        .ok linkedStart := by
    rw [InstallStep.exec, linkedStart_step]
    rfl
  exact hstep.clear sampleApart hstart hexec

theorem addSample_lists {options : AddDependencyOptions} {name : Text} {group : DependencyGroup}
    (h : (addSample options).manifest.Lists name group) : name = "b".toList := by
  obtain ⟨specifier, hmem⟩ := h
  have hdev : ∀ group, (manifestOf [(.dev, [("b".toList, "1.0.0".toList)])]).groupDependencies
      group = if group = .dev then [("b".toList, "1.0.0".toList)] else [] := by
    intro group
    cases group <;> decide +kernel
  change _ ∈ (manifestOf [(.dev, [("b".toList, "1.0.0".toList)])]).groupDependencies group at hmem
  rw [hdev] at hmem
  split at hmem
  · cases List.mem_singleton.mp hmem
    rfl
  · cases hmem

theorem addSample_npmNames (options : AddDependencyOptions) : (addSample options).NpmNames where
  listed name group h := ⟨⟨none, "b".toList⟩, by decide, addSample_lists h⟩
  added name h := by
    obtain ⟨package, hpackage, rfl⟩ := h
    have hparse : (ParsedPackageSpec.parse "a@1.0.0".toList).name = "a".toList := by
      decide +kernel
    rw [List.mem_singleton.mp hpackage, hparse]
    exact ⟨⟨none, "a".toList⟩, by decide, rfl⟩
  registry p h := by
    have hall : ∀ p ∈ (addSample ⟨false, false, false, false⟩).registry.versions,
        (p.name = "a".toList ∨ p.name = "b".toList) ∧ p.dependenciesWith true = [] := by
      decide +kernel
    obtain ⟨hname, hnone⟩ := hall p h
    refine ⟨?_, fun d hd => ?_⟩
    · rcases hname with hname | hname
      · exact ⟨⟨none, "a".toList⟩, by decide, hname⟩
      · exact ⟨⟨none, "b".toList⟩, by decide, hname⟩
    · change d ∈ p.dependenciesWith true at hd
      rw [hnone] at hd
      cases hd
  packages _ h := by simp [addSample] at h
  direct _ h := by simp [addSample] at h

theorem Add.keepsLinks_iff_saveDev :
    ∃ edited finish, (addSample ⟨false, true, false, false⟩).Completes (fun _ => .ok []) edited
        linkedStart finish ∧
      ((addSample ⟨false, true, false, false⟩).KeepsLinks edited linkedStart finish ↔
        (addSample ⟨false, true, false, false⟩).SavesLinked linkedStart) := by
  have hrun : (runAdd (addSample ⟨false, true, false, false⟩) linkedStart).isSome = true := by
    decide +kernel
  obtain ⟨finish, hfinish⟩ := Option.isSome_iff_exists.mp hrun
  obtain ⟨edited, hcompletes⟩ := completes_of_runAdd hfinish
  have hnames : linkedStart.PlainNames :=
    symlinkPackage_plainNames sampleStart_plainNames linkedStart_step
  have hbins : PlainBins fun _ => .ok [] := by
    rintro content entries ⟨⟩ e he
    cases he
  have hoptions : (addSample ⟨false, true, false, false⟩).dependencyGroups =
      AddDependencyOptions.dependencyGroups ⟨false, true, false, false⟩ := rfl
  have hm : LeadsTo (addSample ⟨false, true, false, false⟩).config.modulesDir sampleModules := by
    decide
  have hv : LeadsTo (addSample ⟨false, true, false, false⟩).config.virtualStoreDir
      sampleStore := by decide
  exact ⟨edited, finish, hcompletes, Add.keepsLinks_iff hoptions (addSample_npmNames _) hm hv
    sampleApart linkedStart_clear hnames hbins hcompletes⟩

/-- Without a flag `add` saves to the regular dependencies, and unlinks the development
dependency `b`. -/
theorem Add.not_keepsLinks_noFlag :
    ∃ edited finish, (addSample ⟨false, false, false, false⟩).Completes (fun _ => .ok []) edited
        linkedStart finish ∧
      ¬ (addSample ⟨false, false, false, false⟩).KeepsLinks edited linkedStart finish := by
  have hrun : (runAdd (addSample ⟨false, false, false, false⟩) linkedStart).map
      (fun finish => finish.get (sampleModules ++ ["b".toList])) = some none := by decide +kernel
  obtain ⟨finish, hfinish, hgone⟩ := Option.map_eq_some_iff.mp hrun
  obtain ⟨edited, hcompletes⟩ := completes_of_runAdd hfinish
  refine ⟨edited, finish, hcompletes, fun hkeeps => ?_⟩
  have hlists : edited.Lists "b".toList .dev :=
    (Add.edit_lists hcompletes.1 _ _).mpr (Or.inl ⟨"1.0.0".toList, by decide +kernel⟩)
  have hlink : IsLink linkedStart (sampleModules ++ ["b".toList]) :=
    ⟨"/project/b".toList, by decide +kernel⟩
  obtain ⟨target, hstays⟩ := hkeeps "b".toList (sampleModules ++ ["b".toList])
    ⟨⟨.dev, by simp, hlists⟩, by decide, hlink⟩
  rw [hgone] at hstays
  cases hstays

end Samples

end Npnpm
