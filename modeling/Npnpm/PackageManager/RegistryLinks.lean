import Mathlib.Data.Option.Basic
import Npnpm.PackageManager.GenerateReach
import Npnpm.PackageManager.OwnDirectories
import Npnpm.PackageManager.ProjectPlaces
import Npnpm.PackageManager.RegistryReach
import Npnpm.PackageManager.SyncLinks

/-!
# The links of an install without a lockfile

Tasks that link at one place replace each other's links, so the last of them settles
what the place holds. Where no task replaces what stands at a place at which another
one has linked, the links that an install leaves are settled by what each task finds
when its turn comes.

## Implementation notes

Links and directories are observed at the places at which the tasks write. What a
task finds is what `symlink_package` asks for, in the tree in which it asks.
-/

namespace Npnpm

open Npnpm.Path Npnpm.FileTree

section Definitions

variable {V I : Type} [NodeSemver V] [SemverRange V]

/-- Where a task links the version that it resolves. -/
def RegistryTask.linkPath (task : RegistryTask) (p : PackageVersion V I) : Text :=
  join task.nodeModulesDir p.name

/-- A task of a run that has imported its version and is about to link it. -/
structure Turn (V I : Type) where
  before : List (RegistryInstalled V I)
  current : RegistryInstalled V I
  tree : Tree

/-- The turns of the tasks of a run, one after the other. -/
def turns (config : Npmrc) (t : Tree) (before : List (RegistryInstalled V I)) :
    List (RegistryInstalled V I) → List (Turn V I)
  | [] => []
  | e :: after =>
      match createCasFiles config.packageImportMethod t (e.package.savePath config)
        e.casPaths with
      | .error _ => []
      | .ok s => ⟨before, e, s⟩ ::
          match symlinkPackage s (e.package.savePath config) (e.task.linkPath e.package) with
          | .error _ => []
          | .ok t' => turns config t' (before ++ [e]) after

/-- The task finds nothing at its path, or its own link, or something that leads elsewhere
than its version. -/
def Turn.Links (config : Npmrc) (turn : Turn V I) : Prop :=
  Replaceable turn.tree (turn.current.package.savePath config)
    (turn.current.task.linkPath turn.current.package)

omit [SemverRange V] in
instance (config : Npmrc) (turn : Turn V I) : Decidable (turn.Links config) :=
  inferInstanceAs (Decidable (Replaceable _ _ _))

variable (install : InstallWithoutLockfile V I) (t : Tree)

/-- The synchronisation removes links under names that the manifest does not list. -/
def StaysLinked (task : RegistryTask) (p : PackageVersion V I) : Prop :=
  task.nodeModulesDir = install.config.modulesDir →
    p.name ∈ (install.manifest.dependencies install.dependencyGroups).map Prod.fst

omit [SemverRange V] in
instance (task : RegistryTask) (p : PackageVersion V I) : Decidable (StaysLinked install task p) :=
  inferInstanceAs (Decidable (_ → _))

/-- Where a link stays, no task replaces what it finds after another one has linked. -/
def NothingReplaced (installed : List (RegistryInstalled V I)) : Prop :=
  ∀ turn ∈ turns install.config t [] installed,
    StaysLinked install turn.current.task turn.current.package → ∀ e ∈ turn.before,
      components (e.task.linkPath e.package) =
        components (turn.current.task.linkPath turn.current.package) →
      turn.Links install.config →
      (symlinkMetadata turn.tree
        (components (turn.current.task.linkPath turn.current.package))).toOption =
          some (.link (turn.current.package.savePath install.config))

/-- In two runs every task finds the same: something to link at its path, or something that
it keeps. -/
def FoundAlike (installed installed' : List (RegistryInstalled V I)) : Prop :=
  ∀ turn ∈ turns install.config t [] installed, ∀ turn' ∈ turns install.config t [] installed',
    turn.current.task = turn'.current.task → turn.current.package = turn'.current.package →
    StaysLinked install turn.current.task turn.current.package →
    (turn.Links install.config ↔ turn'.Links install.config)

/-- The versions that are reached have npm names, and the modules directory and the
virtual store are apart. -/
structure RegistryPlaces (v m : Loc) : Prop where
  modulesDir : LeadsTo install.config.modulesDir m
  virtualStoreDir : LeadsTo install.config.virtualStoreDir v
  apart : Apart v m
  names : ∀ task p, install.Reaches task p → ∃ name : PkgName, name.Visible ∧ p.name = name.display

/-- Two installs have run the same tasks, and the places of these hold the same links
and directories. -/
structure SameOutcome (installed installed' : List (RegistryInstalled V I)) (t t' : Tree) :
    Prop where
  tasks : ∀ task p, (∃ e ∈ installed, e.task = task ∧ e.package = p) ↔
    ∃ e ∈ installed', e.task = task ∧ e.package = p
  links : ∀ e ∈ installed, ∀ q, LeadsTo (e.task.linkPath e.package) q →
    ∀ target, t.get q = some (.link target) ↔ t'.get q = some (.link target)
  directories : ∀ e ∈ installed, ∀ q, LeadsTo (e.package.savePath install.config) q →
    t.get q ≠ none ∧ t'.get q ≠ none ∧
      ∀ target, t.get q = some (.link target) ↔ t'.get q = some (.link target)

end Definitions

section Places

variable {V I : Type} [NodeSemver V] [PlainSemver V] [SemverRange V]
  {install : InstallWithoutLockfile V I} {v m : Loc} {task : RegistryTask}
  {p : PackageVersion V I}

omit [SemverRange V] in
theorem PackageVersion.plain_storeName (p : PackageVersion V I) :
    (Component.normal p.toVirtualStoreName).Plain := by
  apply plain_of_at
  · intro hmem
    rcases List.mem_append.mp hmem with hmem | hmem
    · obtain ⟨c, -, hc⟩ := List.mem_map.mp hmem
      split at hc
      · cases hc
      · rename_i hne
        exact hne hc
    · rcases List.mem_cons.mp hmem with hat | hmem
      · cases hat
      · exact (PlainSemver.plain p.version '/' hmem).2.2.1 rfl
  · exact List.mem_append_right _ List.mem_cons_self

variable (h : RegistryPlaces install v m)
include h

theorem RegistryPlaces.leadsTo_savePath {name : PkgName} (hname : name.Visible)
    (hp : p.name = name.display) :
    LeadsTo (p.savePath install.config) (storeLoc v p.toVirtualStoreName ++ name.loc) := by
  rw [PackageVersion.savePath, hp]
  exact hname.plain.leadsTo (leadsTo_nodeModulesOf h.virtualStoreDir p.plain_storeName)

/-- A version has its directory in the virtual store. -/
theorem RegistryPlaces.savePlace (hreach : install.Reaches task p) :
    ∃ storeName, ∃ name : PkgName, name.Plain ∧
      LeadsTo (p.savePath install.config) (storeLoc v storeName ++ name.loc) := by
  obtain ⟨name, hname, hp⟩ := h.names task p hreach
  exact ⟨_, name, hname.plain, h.leadsTo_savePath hname hp⟩

/-- A task links in the modules directory or in the virtual store. -/
theorem RegistryPlaces.taskDir (hreach : install.Reaches task p) :
    LeadsTo task.nodeModulesDir m ∨
      ∃ storeName, LeadsTo task.nodeModulesDir (storeLoc v storeName) := by
  cases hreach with
  | root => exact Or.inl h.modulesDir
  | @dependency parent q _ _ _ _ htask =>
      obtain ⟨d, -, rfl⟩ := List.mem_map.mp htask
      exact Or.inr ⟨_, leadsTo_nodeModulesOf h.virtualStoreDir q.plain_storeName⟩

theorem RegistryPlaces.linkPlace (hreach : install.Reaches task p) :
    ∃ name : PkgName, name.Visible ∧ p.name = name.display ∧
      (LeadsTo (task.linkPath p) (m ++ name.loc) ∨
        ∃ storeName, LeadsTo (task.linkPath p) (storeLoc v storeName ++ name.loc)) := by
  obtain ⟨name, hname, hp⟩ := h.names task p hreach
  refine ⟨name, hname, hp, ?_⟩
  rw [RegistryTask.linkPath, hp]
  rcases h.taskDir hreach with hdir | ⟨storeName, hdir⟩
  · exact Or.inl (hname.plain.leadsTo hdir)
  · exact Or.inr ⟨storeName, hname.plain.leadsTo hdir⟩

theorem RegistryPlaces.packagePlace_of_link {q : Loc} (hreach : install.Reaches task p)
    (hq : LeadsTo (task.linkPath p) q) : PackagePlace v m q := by
  obtain ⟨name, hname, -, hplace | ⟨storeName, hplace⟩⟩ := h.linkPlace hreach
  · rw [hq.unique hplace]
    exact h.apart.visible_place hname
  · rw [hq.unique hplace]
    exact .entry storeName hname.plain

theorem RegistryPlaces.packagePlace_of_save {q : Loc} (hreach : install.Reaches task p)
    (hq : LeadsTo (p.savePath install.config) q) : PackagePlace v m q := by
  obtain ⟨storeName, name, hname, hplace⟩ := h.savePlace hreach
  rw [hq.unique hplace]
  exact .entry storeName hname

omit h [NodeSemver V] [PlainSemver V] [SemverRange V] in
/-- A place of a package is not above another one. -/
theorem Apart.eq_of_above (h : Apart v m) {q r : Loc} (hq : PackagePlace v m q)
    (hr : PackagePlace v m r) (hqr : q <+: r) : q = r := by
  by_contra hne
  obtain ⟨d, hd, hway⟩ := hr.onWay hqr hne
  exact h.not_onWay hq hd hway

end Places

section Trees

variable {v m : Loc} {t t' : Tree}

/-- New links at the places of packages are on no way. -/
theorem Apart.clear_of_links (h : Apart v m) (hclear : ProjectClear v m t)
    (hlinks : ∀ q target, t'.get q = some (.link target) →
      t.get q = some (.link target) ∨ PackagePlace v m q) : ProjectClear v m t' := by
  intro d hd
  constructor
  · intro q hq target hlink
    rcases hlinks q target hlink with hold | hplace
    · exact (hclear d hd).clear q hq target hold
    · exact h.not_onWay hplace hd (Or.inl hq)
  · intro name target hname hlink
    rcases hlinks _ target hlink with hold | hplace
    · exact (hclear d hd).scopes name target hname hold
    · exact h.not_onWay hplace hd (Or.inr ⟨name, hname, rfl⟩)

/-- The way to the place of a package is clear. -/
theorem ProjectClear.clear_parent (hclear : ProjectClear v m t) {d : Loc} {last : Text}
    (hq : PackagePlace v m (d ++ [last])) : Clear t d := by
  intro p hp target
  have hne : p ≠ d ++ [last] := by
    rintro rfl
    exact not_concat_above d last hp
  obtain ⟨dir, hdir, hway⟩ := hq.onWay (hp.trans (List.prefix_append _ _)) hne
  exact (hclear dir hdir).noLink hway target

end Trees

section Turns

variable {V I : Type} [NodeSemver V] {config : Npmrc} {t u s : Tree}
  {before installed : List (RegistryInstalled V I)} {e : RegistryInstalled V I}

/-- The turn of a task comes after those of the tasks that have finished. -/
theorem turns_snoc
    (hrun : runSteps config.packageImportMethod
      (installed.flatMap (RegistryInstalled.steps config)) t = .ok u)
    (himport : createCasFiles config.packageImportMethod u (e.package.savePath config)
      e.casPaths = .ok s) :
    turns config t before (installed ++ [e]) =
      turns config t before installed ++ [⟨before ++ installed, e, s⟩] := by
  induction installed generalizing t before with
  | nil =>
      obtain rfl : t = u := Except.ok.inj hrun
      simp only [List.nil_append, List.append_nil, turns, himport]
      split
      · rfl
      · rfl
  | cons x installed ih =>
      obtain ⟨s₁, hs₁, hrest⟩ := runSteps_cons_ok hrun
      obtain ⟨t₁, ht₁, hrest⟩ := runSteps_cons_ok hrest
      have hfiles : createCasFiles config.packageImportMethod t (x.package.savePath config)
          x.casPaths = .ok s₁ := Results.mapError_ok hs₁
      have hlink : symlinkPackage s₁ (x.package.savePath config) (x.task.linkPath x.package) =
          .ok t₁ := Results.mapError_ok ht₁
      simp only [List.cons_append, turns, hfiles, hlink, ih hrest, List.append_assoc,
        List.nil_append]

/-- The turns of a part of a run are turns of the run. -/
theorem NothingReplaced.of_snoc {install : InstallWithoutLockfile V I}
    (hrun : runSteps install.config.packageImportMethod
      (installed.flatMap (RegistryInstalled.steps install.config)) t = .ok u)
    (himport : createCasFiles install.config.packageImportMethod u
      (e.package.savePath install.config) e.casPaths = .ok s)
    (h : NothingReplaced install t (installed ++ [e])) : NothingReplaced install t installed := by
  intro turn hturn
  refine h turn ?_
  rw [turns_snoc hrun himport]
  exact List.mem_append_left _ hturn

end Turns

section Step

variable {V I : Type} [NodeSemver V] [PlainSemver V] [SemverRange V]
  {install : InstallWithoutLockfile V I} {v m q : Loc} {task : RegistryTask}
  {p : PackageVersion V I} {t t' : Tree}

theorem RegistryPlaces.exists_place (h : RegistryPlaces install v m)
    (hreach : install.Reaches task p) : ∃ q, LeadsTo (task.linkPath p) q := by
  obtain ⟨_, -, -, hq | ⟨_, hq⟩⟩ := h.linkPlace hreach
  · exact ⟨_, hq⟩
  · exact ⟨_, hq⟩

variable (h : RegistryPlaces install v m) (hclear : ProjectClear v m t)
  (hreach : install.Reaches task p) (hq : LeadsTo (task.linkPath p) q)
  (hlink : symlinkPackage t (p.savePath install.config) (task.linkPath p) = .ok t')
include h hclear hreach hq hlink

theorem RegistryPlaces.link_changes :
    Changes (fun l => q <+: l) (fun l _ => l = q) t t' := by
  have hplace := h.packagePlace_of_link hreach hq
  obtain ⟨d, last, rfl⟩ := hplace.exists_concat
  exact symlinkPackage_changes hq (hclear.clear_parent hplace) hlink (fun _ hl => hl) rfl

theorem RegistryPlaces.link_clear : ProjectClear v m t' := by
  apply h.apart.clear_of_links hclear
  intro l target hl
  rcases (h.link_changes hclear hreach hq hlink).links l target hl with hold | rfl
  · exact Or.inl hold
  · exact Or.inr (h.packagePlace_of_link hreach hq)

/-- A link of a task leaves the other places of packages alone. -/
theorem RegistryPlaces.link_other {l : Loc} (hl : PackagePlace v m l) (hne : l ≠ q) :
    (t.get l ≠ none → t'.get l ≠ none) ∧
      ∀ target, t'.get l = some (.link target) ↔ t.get l = some (.link target) := by
  have hchanges := h.link_changes hclear hreach hq hlink
  have hkept : ∀ node, t.get l = some node → t'.get l = some node := fun node hnode =>
    hchanges.kept l node hnode fun hql =>
      hne (h.apart.eq_of_above (h.packagePlace_of_link hreach hq) hl hql).symm
  constructor
  · intro hsome
    obtain ⟨node, hnode⟩ := Option.ne_none_iff_exists'.mp hsome
    rw [hkept node hnode]
    exact Option.some_ne_none node
  · intro target
    exact ⟨fun hnew => (hchanges.links l target hnew).resolve_right hne, hkept _⟩

theorem RegistryPlaces.link_made (hplace : Replaceable t (p.savePath install.config)
    (task.linkPath p)) : t'.get q = some (.link (p.savePath install.config)) := by
  have hpackage := h.packagePlace_of_link hreach hq
  obtain ⟨d, last, rfl⟩ := hpackage.exists_concat
  exact symlinkPackage_link hq (hclear.clear_parent hpackage) hplace hlink

theorem RegistryPlaces.link_kept (hplace : ¬Replaceable t (p.savePath install.config)
    (task.linkPath p)) : t' = t ∧ t.get q ≠ some (.link (p.savePath install.config)) := by
  have hpackage := h.packagePlace_of_link hreach hq
  obtain ⟨d, last, rfl⟩ := hpackage.exists_concat
  exact symlinkPackage_stays hq (hclear.clear_parent hpackage) hplace hlink

/-- The link at a place of packages is that of before, but where the task has to link. -/
theorem RegistryPlaces.link_same {l : Loc} (hl : PackagePlace v m l)
    (hat : l = q → ¬Replaceable t (p.savePath install.config) (task.linkPath p))
    (target : Text) : t'.get l = some (.link target) ↔ t.get l = some (.link target) := by
  by_cases hlq : l = q
  · rw [(h.link_kept hclear hreach hq hlink (hat hlq)).1]
  · exact (h.link_other hclear hreach hq hlink hl hlq).2 target

/-- No place of packages that holds something is left empty. -/
theorem RegistryPlaces.link_stays {l : Loc} (hl : PackagePlace v m l) (hsome : t.get l ≠ none) :
    t'.get l ≠ none := by
  by_cases hlq : l = q
  · by_cases hplace : Replaceable t (p.savePath install.config) (task.linkPath p)
    · rw [hlq, h.link_made hclear hreach hq hlink hplace]
      exact Option.some_ne_none _
    · rw [(h.link_kept hclear hreach hq hlink hplace).1]
      exact hsome
  · exact (h.link_other hclear hreach hq hlink hl hlq).1 hsome

end Step

section Places

variable {V I : Type} [NodeSemver V] [PlainSemver V] [SemverRange V]
  {install : InstallWithoutLockfile V I} {v m : Loc}

theorem Apart.store_ne_visible (h : Apart v m) {storeName : Text} {rest : Loc} {name : PkgName}
    (hname : name.Visible) : storeLoc v storeName ++ rest ≠ m ++ name.loc := by
  intro heq
  refine h.direct_apart (fun below hvm => hname.visible (h.hidden _ below hvm).1)
    ((prefix_storeLoc v storeName).trans (List.prefix_append _ rest)) (Or.inl ?_)
  rewrite [heq]
  exact List.prefix_rfl

/-- A task links in the modules directory, where the synchronisation looks at its link, or in
the virtual store, where it does not. -/
theorem RegistryPlaces.place_cases (h : RegistryPlaces install v m) {task : RegistryTask}
    {p : PackageVersion V I} (hreach : install.Reaches task p) :
    (task.nodeModulesDir = install.config.modulesDir ∧ ∃ name : PkgName, name.Visible ∧
      p.name = name.display ∧ LeadsTo (task.linkPath p) (m ++ name.loc)) ∨
    (task.nodeModulesDir ≠ install.config.modulesDir ∧ ∃ storeName rest,
      LeadsTo (task.linkPath p) (storeLoc v storeName ++ rest)) := by
  obtain ⟨name, hname, hp⟩ := h.names task p hreach
  have hlink : ∀ {d}, LeadsTo task.nodeModulesDir d → LeadsTo (task.linkPath p) (d ++ name.loc) :=
    fun hdir => by
      rw [RegistryTask.linkPath, hp]
      exact hname.plain.leadsTo hdir
  cases hreach with
  | root => exact Or.inl ⟨rfl, name, hname, hp, hlink h.modulesDir⟩
  | @dependency parent q _ _ _ _ htask =>
      obtain ⟨d, -, rfl⟩ := List.mem_map.mp htask
      have hdir := leadsTo_nodeModulesOf h.virtualStoreDir q.plain_storeName
      refine Or.inr ⟨fun heq => ?_, _, _, hlink hdir⟩
      change nodeModulesOf install.config.virtualStoreDir q.toVirtualStoreName =
        install.config.modulesDir at heq
      rw [heq] at hdir
      exact h.apart.outside (h.modulesDir.unique hdir ▸ prefix_storeLoc v _)

section Place

variable (h : RegistryPlaces install v m) {task task' : RegistryTask} {p p' : PackageVersion V I}
  {q : Loc} (hreach : install.Reaches task p) (hreach' : install.Reaches task' p')
include h hreach hreach'

/-- Of the tasks that link at one place all or none are listed. -/
theorem RegistryPlaces.staysLinked_of_place (hq : LeadsTo (task.linkPath p) q)
    (hq' : LeadsTo (task'.linkPath p') q) (hstays : StaysLinked install task p) :
    StaysLinked install task' p' := by
  intro hdir'
  rcases h.place_cases hreach' with ⟨-, name', hname', hp', hplace'⟩ | ⟨hne, -⟩
  · rcases h.place_cases hreach with ⟨hdir, name, hname, hp, hplace⟩ | ⟨-, storeName, rest, hplace⟩
    · have hloc : name.loc = name'.loc :=
        List.append_cancel_left ((hplace.unique hq).trans (hq'.unique hplace'))
      obtain rfl := PkgName.eq_of_loc_nested hname.plain.wellFormed hname'.plain.wellFormed
        (hloc ▸ List.prefix_rfl)
      rw [hp', ← hp]
      exact hstays hdir
    · exact absurd ((hplace.unique hq).trans (hq'.unique hplace'))
        (h.apart.store_ne_visible hname')
  · exact absurd hdir' hne

/-- The place of a version is not in the modules directory. -/
theorem RegistryPlaces.not_modulesDir_of_save (hq : LeadsTo (p.savePath install.config) q)
    (hq' : LeadsTo (task'.linkPath p') q) : task'.nodeModulesDir ≠ install.config.modulesDir := by
  rcases h.place_cases hreach' with ⟨-, name', hname', -, hplace'⟩ | ⟨hne, -⟩
  · obtain ⟨storeName, name, -, hplace⟩ := h.savePlace hreach
    exact absurd ((hplace.unique hq).trans (hq'.unique hplace'))
      (h.apart.store_ne_visible hname')
  · exact hne

end Place

end Places

section Run

variable {V I : Type} [NodeSemver V] [PlainSemver V] [SemverRange V]
  {install : InstallWithoutLockfile V I} {v m : Loc} {t u : Tree}
  {download : RegistryDownload I} {installed : List (RegistryInstalled V I)}
  {s : RegistryInstallState}

/-- What a run leaves at the places of its tasks: the link of each task that had to link, and
what was there at the start where there was none such. -/
structure TurnsSettled (install : InstallWithoutLockfile V I) (v m : Loc) (t : Tree)
    (installed : List (RegistryInstalled V I)) (u : Tree) : Prop where
  clear : ProjectClear v m u
  imported : ∀ e ∈ installed, ∀ q, LeadsTo (e.package.savePath install.config) q → u.get q ≠ none
  turn : ∀ e ∈ installed, ∃ turn ∈ turns install.config t [] installed, turn.current = e
  current : ∀ turn ∈ turns install.config t [] installed, turn.current ∈ installed
  linked : ∀ turn ∈ turns install.config t [] installed, ∀ q,
    LeadsTo (turn.current.task.linkPath turn.current.package) q →
    StaysLinked install turn.current.task turn.current.package →
    (turn.Links install.config ↔
      u.get q = some (.link (turn.current.package.savePath install.config)))
  untouched : ∀ q, PackagePlace v m q →
    (∀ turn ∈ turns install.config t [] installed,
      LeadsTo (turn.current.task.linkPath turn.current.package) q →
        ¬turn.Links install.config) →
    ∀ target, u.get q = some (.link target) ↔ t.get q = some (.link target)

/-- One task: at its place stands its link or what stood there, and nothing else changes at
the places of packages. -/
theorem TurnsSettled.step (h : RegistryPlaces install v m)
    (hsettled : TurnsSettled install v m t installed u)
    (hrun : runSteps install.config.packageImportMethod
      (installed.flatMap (RegistryInstalled.steps install.config)) t = .ok u)
    {e : RegistryInstalled V I} (hreach : install.Reaches e.task e.package)
    (hreached : ∀ e ∈ installed, install.Reaches e.task e.package) {t' : Tree}
    (hinstall : InstallPackageFromRegistry.installPackageVersion install.config u
      e.task.nodeModulesDir e.package e.casPaths = .ok t')
    (hkeep : NothingReplaced install t (installed ++ [e])) :
    TurnsSettled install v m t (installed ++ [e]) t' := by
  obtain ⟨s, hs, hlink⟩ := Results.bind_ok hinstall
  have himport := Results.mapError_ok hs
  have hlink : symlinkPackage s (e.package.savePath install.config)
      (e.task.linkPath e.package) = .ok t' := Results.mapError_ok hlink
  have hgrows := createCasFiles_grows himport
  have hclear : ProjectClear v m s :=
    h.apart.clear_of_links hsettled.clear fun q target hq => Or.inl (hgrows.noLink q target hq)
  obtain ⟨q₀, hq₀⟩ := h.exists_place hreach
  have hturns : turns install.config t [] (installed ++ [e]) =
      turns install.config t [] installed ++ [⟨installed, e, s⟩] := turns_snoc hrun himport
  have hlast : (⟨installed, e, s⟩ : Turn V I) ∈ turns install.config t [] (installed ++ [e]) := by
    rw [hturns]
    exact List.mem_append_right _ (List.mem_singleton_self _)
  have hmem : ∀ turn, turn ∈ turns install.config t [] (installed ++ [e]) ↔
      turn ∈ turns install.config t [] installed ∨ turn = ⟨installed, e, s⟩ := by
    intro turn
    rw [hturns, List.mem_append, List.mem_singleton]
  have hsame : ∀ l, PackagePlace v m l →
      (l = q₀ → ¬Replaceable s (e.package.savePath install.config) (e.task.linkPath e.package)) →
      ∀ target, t'.get l = some (.link target) ↔ u.get l = some (.link target) :=
    fun l hl hat target => (h.link_same hclear hreach hq₀ hlink hl hat target).trans
      ⟨hgrows.noLink l target, hgrows.kept l _⟩
  refine ⟨h.link_clear hclear hreach hq₀ hlink, ?imported, ?turn, ?current, ?linked, ?untouched⟩
  case imported =>
    intro x hx q hq
    rcases List.mem_append.mp hx with hx | hx
    · have hplace := h.packagePlace_of_save (hreached x hx) hq
      obtain ⟨node, hnode⟩ := Option.ne_none_iff_exists'.mp (hsettled.imported x hx q hq)
      refine h.link_stays hclear hreach hq₀ hlink hplace ?_
      rw [hgrows.kept q node hnode]
      exact Option.some_ne_none node
    · obtain rfl := List.mem_singleton.mp hx
      have hplace := h.packagePlace_of_save hreach hq
      obtain ⟨d, last, rfl⟩ := hplace.exists_concat
      exact h.link_stays hclear hreach hq₀ hlink hplace
        (createCasFiles_taken hq (hsettled.clear.clear_parent hplace) himport)
  case turn =>
    intro x hx
    rcases List.mem_append.mp hx with hx | hx
    · obtain ⟨turn, hturn, hcurrent⟩ := hsettled.turn x hx
      exact ⟨turn, (hmem turn).mpr (Or.inl hturn), hcurrent⟩
    · exact ⟨_, hlast, (List.mem_singleton.mp hx).symm⟩
  case current =>
    intro turn hturn
    rcases (hmem turn).mp hturn with hturn | rfl
    · exact List.mem_append_left _ (hsettled.current turn hturn)
    · exact List.mem_append_right _ (List.mem_singleton_self e)
  case linked =>
    intro turn hturn q hq hlisted
    rcases (hmem turn).mp hturn with hturn | rfl
    · rw [hsettled.linked turn hturn q hq hlisted]
      have hold := hsettled.current turn hturn
      have hplace := h.packagePlace_of_link (hreached _ hold) hq
      by_cases hreplace : q = q₀ ∧ Replaceable s (e.package.savePath install.config)
        (e.task.linkPath e.package)
      · -- the task finds its own link, so that nothing changes
        obtain ⟨rfl, hreplace⟩ := hreplace
        have hown := hkeep _ hlast
          (h.staysLinked_of_place (hreached _ hold) hreach hq hq₀ hlisted) _ hold
          (hq.trans hq₀.symm) hreplace
        obtain ⟨d, last, rfl⟩ := hplace.exists_concat
        have hlinked := get_of_symlinkMetadata (hclear.clear_parent hplace)
          (hq₀ ▸ hown : (symlinkMetadata s (pathOf (d ++ [last]))).toOption = _)
        rw [h.link_made hclear hreach hq₀ hlink hreplace, ← hlinked]
        exact ⟨hgrows.kept _ _, hgrows.noLink _ _⟩
      · exact (hsame q hplace (fun heq hr => hreplace ⟨heq, hr⟩) _).symm
    · obtain rfl := hq.unique hq₀
      constructor
      · exact h.link_made hclear hreach hq hlink
      · intro hget
        by_contra hreplace
        obtain ⟨heq, hne⟩ := h.link_kept hclear hreach hq hlink hreplace
        rw [heq] at hget
        exact hne hget
  case untouched =>
    intro q hplace hnone target
    have hlastNone : q = q₀ →
        ¬Replaceable s (e.package.savePath install.config) (e.task.linkPath e.package) := by
      rintro rfl
      exact hnone _ hlast hq₀
    exact (hsame q hplace hlastNone target).trans
      (hsettled.untouched q hplace
        (fun turn hturn => hnone turn ((hmem turn).mpr (Or.inl hturn))) target)

/-- The whole run. -/
theorem TurnsSettled.of_run (h : RegistryPlaces install v m) (hclear : ProjectClear v m t)
    (run : Run (install.Step download) (install.start t) installed s)
    (hkeep : NothingReplaced install t installed) :
    TurnsSettled install v m t installed s.tree := by
  induction run with
  | nil =>
      refine ⟨hclear, ?_, ?_, ?_, ?_, fun q _ _ target => Iff.rfl⟩
      all_goals
        intro x hx
        cases hx
  | @snoc installed s e s' run hstep ih =>
      have hrun := InstallWithoutLockfile.steps_of_run run
      have hprogress := InstallWithoutLockfile.Progress.of_run run
      have hprogress' := hprogress.step hstep
      have hreach : install.Reaches e.task e.package := hprogress'.reached e (by simp)
      cases hstep with
      | @task _ task _ package _ casPaths u _ _ _ _ hinstall =>
          obtain ⟨w, hw, -⟩ := Results.bind_ok hinstall
          have himport : createCasFiles install.config.packageImportMethod s.tree
              (package.savePath install.config) casPaths = .ok w := Results.mapError_ok hw
          have hsettled := ih (NothingReplaced.of_snoc (e := ⟨task, package, casPaths⟩) hrun himport
            hkeep)
          rw [RegistryInstallState.installDependencies_tree]
          exact TurnsSettled.step h hsettled hrun hreach hprogress.reached hinstall hkeep

end Run

section Outcome

variable {V I : Type} [NodeSemver V] [PlainSemver V] [SemverRange V]
  {install : InstallWithoutLockfile V I} {v m : Loc} {t t' : Tree}
  {download download' : RegistryDownload I} {installed installed' : List (RegistryInstalled V I)}
  {s s' : RegistryInstallState} {f f' : Tree}

/-- The synchronisation does not reach the virtual store. -/
theorem Apart.not_syncZone (h : Apart v m) {storeName : Text} {rest : Loc} :
    ¬ SyncZone m (storeLoc v storeName ++ rest) := by
  rintro ⟨name, below, hname, heq⟩
  have hv : v <+: m ++ name :: below :=
    heq ▸ (prefix_storeLoc v storeName).trans (List.prefix_append _ _)
  rcases List.prefix_or_prefix_of_prefix hv (List.prefix_append m _) with hvm | ⟨tail, rfl⟩
  · exact h.outside hvm
  · rw [List.prefix_append_right_inj] at hv
    cases tail with
    | nil => exact h.outside (by simp)
    | cons hidden tail =>
        obtain ⟨rfl, -⟩ := List.cons_prefix_cons.mp hv
        exact hname (h.hidden hidden tail rfl).1

section Sync

variable (h : RegistryPlaces install v m) (hclear : ProjectClear v m s.tree)
  (hcompletes : install.Completes download t installed s f)
include h hclear hcompletes

/-- The synchronisation keeps the link of a task that the manifest lists, and leaves none of
another one. -/
theorem RegistryPlaces.sync_link {e : RegistryInstalled V I} (he : e ∈ installed) {q : Loc}
    (hq : LeadsTo (e.task.linkPath e.package) q) (target : Text) :
    f.get q = some (.link target) ↔
      s.tree.get q = some (.link target) ∧ StaysLinked install e.task e.package := by
  have hmodules : ModulesClear s.tree m := hclear m .modules
  obtain ⟨hshrinks, hchanges⟩ :=
    syncDirectDependencyLinks_ok h.modulesDir hmodules hcompletes.sync
  have hreach := (InstallWithoutLockfile.Progress.of_run hcompletes.run).reached e he
  rcases h.place_cases hreach with ⟨hdir, name, hname, hp, hplace⟩ |
    ⟨hdir, storeName, rest, hplace⟩
  · obtain rfl := hq.unique hplace
    constructor
    · intro hlink
      refine ⟨hshrinks _ _ hlink, fun _ => ?_⟩
      by_contra hnot
      rw [hp] at hnot
      have hgone := sync_removes h.modulesDir hmodules hcompletes.sync hname hnot
      rw [hlink] at hgone
      cases hgone
    · rintro ⟨hlink, hstays⟩
      have htaken : s.tree.get (m ++ name.loc) ≠ none := by
        rw [hlink]
        exact Option.some_ne_none _
      exact sync_keeps h.modulesDir hmodules hcompletes.sync (directEntry_of_taken hname htaken)
        (hp ▸ hstays hdir) hlink
  · obtain rfl := hq.unique hplace
    constructor
    · exact fun hlink => ⟨hshrinks _ _ hlink, fun heq => absurd heq hdir⟩
    · exact fun hlink => hchanges.kept _ _ hlink.1 h.apart.not_syncZone

/-- The virtual store stays as it is. -/
theorem RegistryPlaces.sync_store {e : RegistryInstalled V I} (he : e ∈ installed) {q : Loc}
    (hq : LeadsTo (e.package.savePath install.config) q) :
    (s.tree.get q ≠ none → f.get q ≠ none) ∧
      ∀ target, f.get q = some (.link target) ↔ s.tree.get q = some (.link target) := by
  obtain ⟨hshrinks, hchanges⟩ :=
    syncDirectDependencyLinks_ok h.modulesDir (hclear m .modules) hcompletes.sync
  have hreach := (InstallWithoutLockfile.Progress.of_run hcompletes.run).reached e he
  obtain ⟨storeName, name, -, hplace⟩ := h.savePlace hreach
  obtain rfl := hq.unique hplace
  have hkept : ∀ node, s.tree.get (storeLoc v storeName ++ name.loc) = some node →
      f.get (storeLoc v storeName ++ name.loc) = some node := fun node hnode =>
    hchanges.kept _ node hnode h.apart.not_syncZone
  constructor
  · intro hsome
    obtain ⟨node, hnode⟩ := Option.ne_none_iff_exists'.mp hsome
    rw [hkept node hnode]
    exact Option.some_ne_none node
  · exact fun target => ⟨hshrinks _ _, hkept _⟩

end Sync

omit [PlainSemver V] [SemverRange V] in
/-- Two runs in which the tasks find the same leave the same links, but for those that the
synchronisation removes. -/
theorem TurnsSettled.same_links
    (htasks : ∀ task p, (∃ e ∈ installed, e.task = task ∧ e.package = p) ↔
      ∃ e ∈ installed', e.task = task ∧ e.package = p)
    {u u' : Tree} (hsettled : TurnsSettled install v m t installed u)
    (hsettled' : TurnsSettled install v m t installed' u')
    (halike : FoundAlike install t installed installed') {q : Loc} (hplace : PackagePlace v m q)
    (hstays : ∀ e ∈ installed, LeadsTo (e.task.linkPath e.package) q →
      StaysLinked install e.task e.package) (target : Text) :
    u.get q = some (.link target) ↔ u'.get q = some (.link target) := by
  have hpartner : ∀ turn ∈ turns install.config t [] installed,
      LeadsTo (turn.current.task.linkPath turn.current.package) q →
      ∃ turn' ∈ turns install.config t [] installed',
        turn'.current.task = turn.current.task ∧
        turn'.current.package = turn.current.package ∧
        (turn.Links install.config ↔ turn'.Links install.config) := by
    intro turn hturn hq
    have hcurrent := hsettled.current turn hturn
    obtain ⟨e', he', htask, hpackage⟩ := (htasks _ _).mp ⟨turn.current, hcurrent, rfl, rfl⟩
    obtain ⟨turn', hturn', rfl⟩ := hsettled'.turn e' he'
    exact ⟨turn', hturn', htask, hpackage, halike turn hturn turn' hturn' htask.symm
      hpackage.symm (hstays _ hcurrent hq)⟩
  by_cases hlinks : ∃ turn ∈ turns install.config t [] installed,
      LeadsTo (turn.current.task.linkPath turn.current.package) q ∧ turn.Links install.config
  · obtain ⟨turn, hturn, hq, hlink⟩ := hlinks
    obtain ⟨turn', hturn', htask, hpackage, hiff⟩ := hpartner turn hturn hq
    have hq' : LeadsTo (turn'.current.task.linkPath turn'.current.package) q := by
      rw [htask, hpackage]
      exact hq
    have hlisted := hstays _ (hsettled.current turn hturn) hq
    rw [(hsettled.linked turn hturn q hq hlisted).mp hlink,
      (hsettled'.linked turn' hturn' q hq' (by rwa [htask, hpackage])).mp (hiff.mp hlink), hpackage]
  · have hnone : ∀ turn ∈ turns install.config t [] installed,
        LeadsTo (turn.current.task.linkPath turn.current.package) q →
        ¬turn.Links install.config := fun turn hturn hq hlink =>
      hlinks ⟨turn, hturn, hq, hlink⟩
    have hnone' : ∀ turn' ∈ turns install.config t [] installed',
        LeadsTo (turn'.current.task.linkPath turn'.current.package) q →
        ¬turn'.Links install.config := by
      intro turn' hturn' hq' hlink'
      obtain ⟨e, he, htask, hpackage⟩ :=
        (htasks _ _).mpr ⟨turn'.current, hsettled'.current turn' hturn', rfl, rfl⟩
      obtain ⟨turn, hturn, rfl⟩ := hsettled.turn e he
      have hq : LeadsTo (turn.current.task.linkPath turn.current.package) q := by
        rw [htask, hpackage]
        exact hq'
      exact hnone turn hturn hq ((halike turn hturn turn' hturn' htask hpackage
        (hstays _ he hq)).mpr hlink')
    exact (hsettled.untouched q hplace hnone target).trans
      (hsettled'.untouched q hplace hnone' target).symm

end Outcome

section Samples

/-- The files of every tarball. -/
def sampleFiles : CasPaths :=
  ⟨[("package.json".toList, "/store/file".toList)], List.pairwise_singleton _ _⟩

abbrev SampleInstall := InstallWithoutLockfile CoreVersion HashIntegrity

/-- A task and the version that it resolves. -/
abbrev SampleEvent := RegistryTask × PackageVersion CoreVersion HashIntegrity

def SampleEvent.installed (e : SampleEvent) : RegistryInstalled CoreVersion HashIntegrity :=
  ⟨e.1, e.2, sampleFiles⟩

/-- The given tasks, one after the other. -/
def replay (install : SampleInstall) :
    RegistryInstallState → List SampleEvent → Option RegistryInstallState
  | s, [] => some s
  | s, e :: after => do
      guard (e.1 ∈ s.tasks)
      let t ← (InstallPackageFromRegistry.installPackageVersion install.config s.tree
        e.1.nodeModulesDir e.2 sampleFiles).toOption
      replay install (RegistryInstallState.installDependencies install.config
        ⟨t, s.resolvedPackages, s.tasks.erase e.1⟩ e.2) after

/-- What they leave after the synchronisation, when no task is left. -/
def finish (install : SampleInstall) (t : Tree) (events : List SampleEvent) : Option Tree := do
  let s ← replay install (install.start t) events
  guard (s.tasks = [])
  (syncDirectDependencyLinks s.tree install.config.modulesDir
    ((install.manifest.dependencies install.dependencyGroups).map Prod.fst)).toOption

/-- The registry has the version of every task, and each version a tarball. -/
def Available (install : SampleInstall) (events : List SampleEvent) : Prop :=
  ∀ e ∈ events, install.registry.resolve e.1.name e.1.versionRange = .ok e.2 ∧
    ∃ integrity, e.2.dist.integrity = some integrity

theorem run_of_replay {install : SampleInstall} {events : List SampleEvent}
    (havailable : Available install events) {s s' : RegistryInstallState}
    (h : replay install s events = some s') :
    Run (install.Step fun _ _ => .ok sampleFiles) s (events.map SampleEvent.installed) s' := by
  induction events generalizing s with
  | nil =>
      obtain rfl := Option.some.inj h
      exact .nil
  | cons e events ih =>
      obtain ⟨_, hopen, h⟩ := Option.bind_eq_some_iff.mp h
      obtain ⟨t, ht, h⟩ := Option.bind_eq_some_iff.mp h
      obtain ⟨before, after, -, htasks, herase⟩ :=
        List.exists_erase_eq ((Option.guard_eq_some' _).mp hopen)
      obtain ⟨hresolve, integrity, hintegrity⟩ := havailable e List.mem_cons_self
      have hrest := ih (fun x hx => havailable x (List.mem_cons_of_mem e hx)) h
      rw [herase] at hrest
      exact (Run.nil.snoc (.task htasks hresolve hintegrity rfl
        (Results.toOption_eq_some ht))).append hrest

theorem completes_of_finish {install : SampleInstall} {t f : Tree} {events : List SampleEvent}
    (havailable : Available install events) (h : finish install t events = some f) :
    ∃ s, install.Completes (fun _ _ => .ok sampleFiles) t
      (events.map SampleEvent.installed) s f := by
  obtain ⟨s, hs, h⟩ := Option.bind_eq_some_iff.mp h
  obtain ⟨_, hdone, hsync⟩ := Option.bind_eq_some_iff.mp h
  exact ⟨s, run_of_replay havailable hs, (Option.guard_eq_some' _).mp hdone,
    Results.toOption_eq_some hsync⟩

def sampleRelease (name : Text) (version : CoreVersion) (dependencies : List (Text × Text)) :
    PackageVersion CoreVersion HashIntegrity := releasedVersion name version dependencies []

/-- The first version of `a` depends on the second one, which takes the place of its
directory. -/
def chainInstall : SampleInstall where
  config := defaultNpmrc
  manifest := manifestOf [(.prod, [("a".toList, "1.0.0".toList), ("b".toList, "1.0.0".toList)])]
  dependencyGroups := [.prod]
  registry := releases
    [("a".toList, [sampleRelease "a".toList firstVersion [("a".toList, "2.0.0".toList)],
      sampleRelease "a".toList otherVersion []]),
    ("b".toList, [sampleRelease "b".toList firstVersion []])]
  resolvedPackages := []

def chainFirst : SampleEvent :=
  (⟨defaultNpmrc.modulesDir, "a".toList, "1.0.0".toList⟩,
    sampleRelease "a".toList firstVersion [("a".toList, "2.0.0".toList)])

def chainSecond : SampleEvent :=
  (⟨nodeModulesOf defaultNpmrc.virtualStoreDir "a@1.0.0".toList, "a".toList, "2.0.0".toList⟩,
    sampleRelease "a".toList otherVersion [])

def chainOther : SampleEvent :=
  (⟨defaultNpmrc.modulesDir, "b".toList, "1.0.0".toList⟩,
    sampleRelease "b".toList firstVersion [])

/-- A link of before the install that leads from `node_modules/b` to the place of `b`. -/
def relativeStart : Option Tree :=
  (symlinkPackage sampleStart ".pnpm/b@1.0.0/node_modules/b".toList
    (join defaultNpmrc.modulesDir "b".toList)).toOption

theorem chainInstall_reaches {task : RegistryTask} {p : PackageVersion CoreVersion HashIntegrity}
    (h : chainInstall.Reaches task p) : (task, p) ∈ [chainFirst, chainSecond, chainOther] := by
  have hdependencies : chainInstall.manifest.dependencies chainInstall.dependencyGroups =
      [("a".toList, "1.0.0".toList), ("b".toList, "1.0.0".toList)] := by decide +kernel
  induction h with
  | @root dependency package h hresolve =>
      rw [hdependencies] at h
      rcases List.mem_pair.mp h with rfl | rfl
      · have hfirst : chainInstall.registry.resolve "a".toList "1.0.0".toList =
            .ok chainFirst.2 := rfl
        obtain rfl := Except.ok.inj (hfirst.symm.trans hresolve)
        exact List.mem_cons_self
      · have hother : chainInstall.registry.resolve "b".toList "1.0.0".toList =
            .ok chainOther.2 := rfl
        obtain rfl := Except.ok.inj (hother.symm.trans hresolve)
        exact List.mem_cons_of_mem _ (List.mem_cons_of_mem _ List.mem_cons_self)
  | @dependency parent p task package _ _ htask hresolve ih =>
      have hnone : ∀ e ∈ [chainSecond, chainOther], e.2.tasks chainInstall.config = [] := by
        decide +kernel
      have hone : chainFirst.2.tasks chainInstall.config = [chainSecond.1] := by decide +kernel
      rcases List.mem_cons.mp ih with heq | hrest
      · have hp : p = chainFirst.2 := congrArg Prod.snd heq
        rw [hp, hone] at htask
        rw [List.mem_singleton.mp htask] at hresolve ⊢
        have hsecond : chainInstall.registry.resolve chainSecond.1.name
            chainSecond.1.versionRange = .ok chainSecond.2 := rfl
        obtain rfl := Except.ok.inj (hsecond.symm.trans hresolve)
        exact List.mem_cons_of_mem _ List.mem_cons_self
      · rw [hnone _ hrest] at htask
        cases htask

theorem sampleApart : Apart sampleStore sampleModules where
  outside := by decide
  hidden name rest h := by
    have happend : sampleModules ++ [".pnpm".toList] = sampleModules ++ name :: rest := h
    have hname : [".pnpm".toList] = name :: rest := List.append_cancel_left happend
    obtain ⟨rfl, -⟩ := List.cons.inj hname
    exact ⟨rfl, by decide⟩

theorem chainInstall_places : RegistryPlaces chainInstall sampleStore sampleModules where
  modulesDir := by decide
  virtualStoreDir := by decide
  apart := sampleApart
  names task p h := by
    have hall : ∀ e ∈ [chainFirst, chainSecond, chainOther],
        e.2.name = "a".toList ∨ e.2.name = "b".toList := by decide
    rcases hall _ (chainInstall_reaches h) with hname | hname
    · exact ⟨⟨none, "a".toList⟩, by decide, hname⟩
    · exact ⟨⟨none, "b".toList⟩, by decide, hname⟩

theorem chainInstall_versions : chainInstall.VersionsDistinct := by
  intro task p task' p' h h' heq
  have hdistinct : ([chainFirst, chainSecond, chainOther].map fun e =>
      e.2.toVirtualStoreName).Nodup := by decide
  exact congrArg Prod.snd (List.inj_on_of_nodup_map hdistinct (chainInstall_reaches h)
    (chainInstall_reaches h') heq)

theorem sampleStart_clear : ProjectClear sampleStore sampleModules sampleStart := fun _ _ =>
  ⟨fun _ _ => sampleStart_noLink _, fun _ _ _ => sampleStart_noLink _ _⟩

theorem relativeStart_clear {t : Tree} (h : relativeStart = some t) :
    ProjectClear sampleStore sampleModules t := by
  have hplace : PackagePlace sampleStore sampleModules
      (sampleModules ++ PkgName.loc ⟨none, "b".toList⟩) := sampleApart.visible_place (by decide)
  have hpath : LeadsTo (join defaultNpmrc.modulesDir "b".toList)
      (sampleModules ++ ["b".toList]) := by decide
  have hchanges : Changes (fun l => (sampleModules ++ ["b".toList]) <+: l)
      (fun l _ => l = sampleModules ++ ["b".toList]) sampleStart t :=
    symlinkPackage_changes hpath (sampleStart_clear.clear_parent hplace)
      (Results.toOption_eq_some h) (fun _ hl => hl) rfl
  apply sampleApart.clear_of_links sampleStart_clear
  intro l target hl
  rcases hchanges.links l target hl with hold | rfl
  · exact Or.inl hold
  · exact Or.inr hplace

/-- No task of two runs replaces the link of another one, and both find the same. -/
def chainAlike (t : Tree) (first second : List SampleEvent) : Prop :=
  NothingReplaced chainInstall t (first.map SampleEvent.installed) ∧
    NothingReplaced chainInstall t (second.map SampleEvent.installed) ∧
    ∀ turn ∈ turns chainInstall.config t [] (first.map SampleEvent.installed),
      ∀ turn' ∈ turns chainInstall.config t [] (second.map SampleEvent.installed),
        turn.current.task = turn'.current.task →
        (turn.Links chainInstall.config ↔ turn'.Links chainInstall.config)

instance (t : Tree) (first second : List SampleEvent) : Decidable (chainAlike t first second) := by
  unfold chainAlike NothingReplaced
  infer_instance

/-- The regular and the development dependency `a` are two versions. -/
def groupsInstall : SampleInstall where
  config := defaultNpmrc
  manifest := manifestOf [(.prod, [("a".toList, "1.0.0".toList)]),
    (.dev, [("a".toList, "2.0.0".toList)])]
  dependencyGroups := [.prod, .dev]
  registry := releases
    [("a".toList, [sampleRelease "a".toList firstVersion [],
      sampleRelease "a".toList otherVersion []])]
  resolvedPackages := []

def groupsProd : SampleEvent :=
  (⟨defaultNpmrc.modulesDir, "a".toList, "1.0.0".toList⟩,
    sampleRelease "a".toList firstVersion [])

def groupsDev : SampleEvent :=
  (⟨defaultNpmrc.modulesDir, "a".toList, "2.0.0".toList⟩,
    sampleRelease "a".toList otherVersion [])

end Samples

end Npnpm
