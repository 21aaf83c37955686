import Npnpm.PackageManager.InstallWithoutLockfile

/-!
# What an install without a lockfile reaches

Which tasks are run, and for which versions, is settled by the registry and the
manifest as long as versions with one store name are one version. The order of the
tasks settles nothing but the order.
-/

namespace Npnpm

open Npnpm.Path Npnpm.FileTree

variable {V I : Type} [NodeSemver V] [SemverRange V]

/-- The tasks that come up, with the versions they resolve to. -/
inductive InstallWithoutLockfile.Reaches (install : InstallWithoutLockfile V I) :
    RegistryTask → PackageVersion V I → Prop
  | root {dependency package}
      (h : dependency ∈ install.manifest.dependencies install.dependencyGroups)
      (hresolve : install.registry.resolve dependency.1 dependency.2 = .ok package) :
      Reaches install ⟨install.config.modulesDir, dependency.1, dependency.2⟩ package
  | dependency {parent p task package} (h : Reaches install parent p)
      (hnew : p.toVirtualStoreName ∉ install.resolvedPackages)
      (htask : task ∈ p.tasks install.config)
      (hresolve : install.registry.resolve task.name task.versionRange = .ok package) :
      Reaches install task package

/-- Versions that are reached and share their store name are one version. -/
def InstallWithoutLockfile.VersionsDistinct (install : InstallWithoutLockfile V I) : Prop :=
  ∀ task p task' p', install.Reaches task p → install.Reaches task' p' →
    p.toVirtualStoreName = p'.toVirtualStoreName → p = p'

variable {install : InstallWithoutLockfile V I} {download : RegistryDownload I} {t t' : Tree}
  {installed : List (RegistryInstalled V I)} {s s' : RegistryInstallState}

/-- The writes of a task that has finished. -/
def RegistryInstalled.steps (config : Npmrc) (e : RegistryInstalled V I) : List InstallStep :=
  registrySteps config e.task.nodeModulesDir e.package e.casPaths

omit [SemverRange V] in
/-- A task opens the tasks of its version, or finds that they have been opened. -/
theorem RegistryInstallState.installDependencies_cases (config : Npmrc)
    (s : RegistryInstallState) (package : PackageVersion V I) :
    (package.toVirtualStoreName ∈ s.resolvedPackages ∧
      s.installDependencies config package = s) ∨
    (package.toVirtualStoreName ∉ s.resolvedPackages ∧
      s.installDependencies config package =
        ⟨s.tree, package.toVirtualStoreName :: s.resolvedPackages,
          s.tasks ++ package.tasks config⟩) := by
  unfold RegistryInstallState.installDependencies
  split
  · rename_i h
    exact Or.inl ⟨h, rfl⟩
  · rename_i h
    exact Or.inr ⟨h, rfl⟩

omit [SemverRange V] in
@[simp] theorem RegistryInstallState.installDependencies_tree (config : Npmrc)
    (s : RegistryInstallState) (package : PackageVersion V I) :
    (s.installDependencies config package).tree = s.tree := by
  rcases s.installDependencies_cases config package with ⟨-, h⟩ | ⟨-, h⟩ <;> rw [h]

omit [SemverRange V] in
/-- Where the version is new, its tasks are opened. -/
theorem RegistryInstallState.mem_installDependencies_tasks (config : Npmrc)
    (s : RegistryInstallState) (package : PackageVersion V I) (task : RegistryTask) :
    task ∈ (s.installDependencies config package).tasks ↔ task ∈ s.tasks ∨
      package.toVirtualStoreName ∉ s.resolvedPackages ∧ task ∈ package.tasks config := by
  obtain ⟨hold, h⟩ | ⟨hnew, h⟩ := s.installDependencies_cases config package
  · simp [h, hold]
  · simp [h, hnew]

omit [SemverRange V] in
/-- Afterwards the version is known. -/
theorem RegistryInstallState.mem_installDependencies_resolvedPackages (config : Npmrc)
    (s : RegistryInstallState) (package : PackageVersion V I) (name : Text) :
    name ∈ (s.installDependencies config package).resolvedPackages ↔
      name ∈ s.resolvedPackages ∨ package.toVirtualStoreName = name := by
  obtain ⟨hold, h⟩ | ⟨hnew, h⟩ := s.installDependencies_cases config package
  · rw [h]
    refine ⟨Or.inl, ?_⟩
    rintro (hin | rfl)
    · exact hin
    · exact hold
  · rw [h, List.mem_cons]
    exact or_comm.trans (or_congr_right eq_comm)

/-- The task is open or has finished. -/
def Seen (installed : List (RegistryInstalled V I)) (s : RegistryInstallState)
    (task : RegistryTask) : Prop :=
  task ∈ s.tasks ∨ ∃ e ∈ installed, e.task = task

/-- What has been opened and finished so far, and what is still open. -/
structure InstallWithoutLockfile.Progress (install : InstallWithoutLockfile V I)
    (installed : List (RegistryInstalled V I)) (s : RegistryInstallState) : Prop where
  /-- whatever an open task resolves to is reached -/
  opened : ∀ task ∈ s.tasks, ∀ p, install.registry.resolve task.name task.versionRange = .ok p →
    install.Reaches task p
  reached : ∀ e ∈ installed, install.Reaches e.task e.package
  known : ∀ name, name ∈ s.resolvedPackages ↔ name ∈ install.resolvedPackages ∨
    ∃ e ∈ installed, e.package.toVirtualStoreName = name
  roots : ∀ d ∈ install.manifest.dependencies install.dependencyGroups,
    Seen installed s ⟨install.config.modulesDir, d.1, d.2⟩
  /-- the tasks of the versions that were new -/
  children : ∀ name ∈ s.resolvedPackages, name ∉ install.resolvedPackages →
    ∃ e ∈ installed, e.package.toVirtualStoreName = name ∧
      ∀ task ∈ e.package.tasks install.config, Seen installed s task

theorem InstallWithoutLockfile.Progress.start (install : InstallWithoutLockfile V I) (t : Tree) :
    install.Progress [] (install.start t) where
  opened task htask p hresolve := by
    obtain ⟨d, hd, rfl⟩ := List.mem_map.mp htask
    exact .root hd hresolve
  reached := by simp
  known name := by simp [InstallWithoutLockfile.start]
  roots d hd := Or.inl (List.mem_map.mpr ⟨d, hd, rfl⟩)
  children name hname hnot := absurd hname hnot

/-- One step: its task is finished and the tasks of a new version are open. -/
theorem InstallWithoutLockfile.Progress.step {e : RegistryInstalled V I}
    (h : install.Progress installed s) (hstep : install.Step download s e s') :
    install.Progress (installed ++ [e]) s' := by
  cases hstep with
  | @task before task after p integrity casPaths t htasks hresolve =>
      have hreach : install.Reaches task p := h.opened task (by simp [htasks]) p hresolve
      have hopened := RegistryInstallState.mem_installDependencies_tasks install.config
        ⟨t, s.resolvedPackages, before ++ after⟩ p
      have hresolved := RegistryInstallState.mem_installDependencies_resolvedPackages
        install.config ⟨t, s.resolvedPackages, before ++ after⟩ p
      generalize RegistryInstallState.installDependencies install.config
        ⟨t, s.resolvedPackages, before ++ after⟩ p = s' at hopened hresolved
      have hseen : ∀ other, Seen installed s other →
          Seen (installed ++ [⟨task, p, casPaths⟩]) s' other := by
        rintro other (hopen | ⟨e, he, rfl⟩)
        · by_cases hsame : other = task
          · exact Or.inr ⟨_, List.mem_append_right _ (List.mem_singleton_self _), hsame.symm⟩
          · refine Or.inl ((hopened other).mpr (Or.inl ?_))
            simpa [htasks, hsame] using hopen
        · exact Or.inr ⟨e, List.mem_append_left _ he, rfl⟩
      refine ⟨?_, ?_, ?_, fun d hd => hseen _ (h.roots d hd), ?_⟩
      · intro other hother q hq
        obtain hin | ⟨hnew, hin⟩ := (hopened other).mp hother
        · refine h.opened other ?_ q hq
          rw [htasks]
          exact (List.mem_append.mp hin).elim (List.mem_append_left _)
            fun hin => List.mem_append_right _ (List.mem_cons_of_mem _ hin)
        · exact .dependency hreach (fun hin => hnew ((h.known _).mpr (Or.inl hin))) hin hq
      · intro e he
        obtain he | he := List.mem_append.mp he
        · exact h.reached e he
        · obtain rfl := List.mem_singleton.mp he
          exact hreach
      · intro name
        rw [hresolved, h.known name]
        simp only [List.mem_append, List.mem_singleton, or_and_right, exists_or, exists_eq_left]
        exact or_assoc
      · intro name hname hnot
        by_cases hold : name ∈ s.resolvedPackages
        · obtain ⟨e, he, hstore, htasks⟩ := h.children name hold hnot
          exact ⟨e, List.mem_append_left _ he, hstore, fun other hother =>
            hseen other (htasks other hother)⟩
        · obtain rfl := ((hresolved name).mp hname).resolve_left hold
          exact ⟨_, List.mem_append_right _ (List.mem_singleton_self _), rfl,
            fun other hother => Or.inl ((hopened other).mpr (Or.inr ⟨hold, hother⟩))⟩

theorem InstallWithoutLockfile.Progress.of_run
    (run : Run (install.Step download) (install.start t) installed s) :
    install.Progress installed s :=
  run.invariant_with_events install.Progress (.start install t)
    fun _ _ _ _ hinv hstep => hinv.step hstep

/-- The writes of a run make up its file tree. -/
theorem InstallWithoutLockfile.steps_of_run
    (run : Run (install.Step download) (install.start t) installed s) :
    runSteps install.config.packageImportMethod
      (installed.flatMap (RegistryInstalled.steps install.config)) t = .ok s.tree := by
  refine run.invariant_with_events (fun installed s =>
    runSteps install.config.packageImportMethod
      (installed.flatMap (RegistryInstalled.steps install.config)) t = .ok s.tree) rfl ?_
  rintro installed s e s' hinv hstep
  cases hstep with
  | task _ _ _ _ hinstall =>
      rw [List.flatMap_append, RegistryInstallState.installDependencies_tree]
      apply runSteps_append_of_ok hinv
      simpa [RegistryInstalled.steps] using registrySteps_of_install hinstall

/-- An install that finishes has run exactly the tasks that are reached. -/
theorem InstallWithoutLockfile.Completes.exists_installed_iff
    (h : install.Completes download t installed s t') (hdistinct : install.VersionsDistinct)
    {task : RegistryTask} {p : PackageVersion V I} :
    (∃ e ∈ installed, e.task = task ∧ e.package = p) ↔ install.Reaches task p := by
  have hprogress := InstallWithoutLockfile.Progress.of_run h.run
  have hdone : ∀ {task}, Seen installed s task → ∃ e ∈ installed, e.task = task := by
    rintro task (hopen | hdone)
    · simp [h.done] at hopen
    · exact hdone
  have hresolved : ∀ e ∈ installed,
      install.registry.resolve e.task.name e.task.versionRange = .ok e.package := by
    refine h.run.invariant_with_events (fun installed _ => ∀ e ∈ installed,
      install.registry.resolve e.task.name e.task.versionRange = .ok e.package) (by simp) ?_
    rintro installed s e s' hinv hstep e' he'
    cases hstep with
    | task _ hresolve =>
        rcases List.mem_append.mp he' with he' | he'
        · exact hinv e' he'
        · obtain rfl := List.mem_singleton.mp he'
          exact hresolve
  constructor
  · rintro ⟨e, he, rfl, rfl⟩
    exact hprogress.reached e he
  · intro hreach
    have hpackage : ∀ {task p}, install.registry.resolve task.name task.versionRange = .ok p →
        (∃ e ∈ installed, e.task = task) → ∃ e ∈ installed, e.task = task ∧ e.package = p := by
      rintro task p hresolve ⟨e, he, rfl⟩
      refine ⟨e, he, rfl, ?_⟩
      have hsame := (hresolved e he).symm.trans hresolve
      exact Except.ok.inj hsame
    induction hreach with
    | root hd hresolve => exact hpackage hresolve (hdone (hprogress.roots _ hd))
    | @dependency parent p task package hparent hnew htask hresolve ih =>
        obtain ⟨e, he, -, rfl⟩ := ih
        have hknown : e.package.toVirtualStoreName ∈ s.resolvedPackages :=
          (hprogress.known _).mpr (Or.inr ⟨e, he, rfl⟩)
        obtain ⟨e', he', hstore, htasks⟩ := hprogress.children _ hknown hnew
        have hsame := hdistinct _ _ _ _ (hprogress.reached e' he') hparent hstore
        exact hpackage hresolve (hdone (htasks task (hsame ▸ htask)))

end Npnpm
