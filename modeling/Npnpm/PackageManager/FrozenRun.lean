import Npnpm.PackageManager.LockfileInSync
import Npnpm.PackageManager.OwnDirectories

/-!
# Installs with a frozen lockfile

What an install with `--frozen-lockfile` promises when it finishes: it took
everything from the lockfile it was given, and that lockfile is in sync with the
manifest. An offline install and one with lockfiles disabled do not look.
-/

namespace Npnpm

section Frozen

variable {V I : Type} [BEq V]

/-- A lockfile was given that matches the manifest. -/
def Install.GivenInSync (install : Install V I) : Prop :=
  ∃ lockfile, install.lockfile = some lockfile ∧ install.inSync lockfile = true

/-- The lockfile that was given matches the manifest, nothing was resolved from the
registry, and what was imported are packages of the lockfile. -/
def Install.TakenFromLockfile (install : Install V I) (report : InstallReport V I) : Prop :=
  ∃ lockfile, install.lockfile = some lockfile ∧ install.inSync lockfile = true ∧
    (∀ p, ¬ report.resolved p) ∧ ∀ imported, report.imported imported → lockfile.Imports imported

/-- The branch that checks the lockfile is taken, or the lockfile is in sync anyway
and there is nothing to resolve. -/
def Install.FrozenChecked (install : Install V I) : Prop :=
  install.offline = false ∧ install.config.lockfile = true ∨
    install.GivenInSync ∧ (install.offline = true ∨
      install.manifest.dependencies install.dependencyGroups = [])

variable [NodeSemver V] [SemverRange V] {install : Install V I} {binEntries : BinEntries}
  {t t' : FileTree.Tree} {report : InstallReport V I}

/-- An install with a frozen lockfile that finishes ran the frozen install of the
lockfile it was given, or the install without a lockfile. -/
theorem Install.Completes.frozen_cases (hfrozen : install.frozenLockfile = true)
    (h : install.Completes binEntries t report t') :
    (∃ lockfile, install.lockfile = some lockfile ∧
        (install.offline = true ∨ install.offline = false ∧ install.config.lockfile = true ∧
          install.inSync lockfile = true) ∧
        (∀ p, ¬ report.resolved p) ∧
        ∀ imported, report.imported imported ↔ lockfile.Imports imported) ∨
      install.offline = false ∧ install.config.lockfile = false ∧
        ∃ download installed state s,
          install.installWithoutLockfile.Completes download t installed state s ∧
          (∀ p, report.resolved p ↔ ∃ e ∈ installed, e.package = p) ∧
          ∀ imported, report.imported imported ↔
            ∃ e ∈ installed, imported = .version e.package := by
  have hchooses := install.chooses_action
  cases h with
  | upToDate haction =>
      rw [haction] at hchooses
      cases hchooses with
      | upToDate hnot _ => simp [hfrozen] at hnot
  | generate haction _ =>
      rw [haction] at hchooses
      cases hchooses with
      | generate hnot _ => simp [hfrozen] at hnot
  | fromLockfile haction _ _ =>
      rw [haction] at hchooses
      cases hchooses with
      | fromLockfileOffline hlockfile hoffline _ =>
          exact Or.inl ⟨_, hlockfile, Or.inl hoffline, fun _ => id, fun _ => Iff.rfl⟩
      | fromLockfile hlockfile hoffline hconfig hsync =>
          exact Or.inl ⟨_, hlockfile, Or.inr ⟨hoffline, hconfig, hsync⟩, fun _ => id,
            fun _ => Iff.rfl⟩
  | withoutLockfile haction hinstall _ =>
      rw [haction] at hchooses
      cases hchooses with
      | withoutLockfile hoffline hconfig =>
          exact Or.inr ⟨hoffline, hconfig, _, _, _, _, hinstall, fun _ => Iff.rfl, fun _ => Iff.rfl⟩
  | generateAndInstall haction _ _ _ =>
      rw [haction] at hchooses
      cases hchooses with
      | generateAndInstall _ _ hnot => simp [hfrozen] at hnot

omit [BEq V] in
/-- An install without a lockfile that resolved nothing had nothing to install. -/
theorem InstallWithoutLockfile.Completes.installed_eq_nil_iff
    {install : InstallWithoutLockfile V I} {download : RegistryDownload I}
    {installed : List (RegistryInstalled V I)} {state : RegistryInstallState}
    (h : install.Completes download t installed state t') :
    installed = [] ↔ install.manifest.dependencies install.dependencyGroups = [] := by
  constructor
  · intro hnil
    refine List.eq_nil_iff_forall_not_mem.mpr fun dependency hmem => ?_
    obtain ⟨e, he, -⟩ := h.exists_installed hmem
    rw [hnil] at he
    cases he
  · intro hnil
    have hstart : (install.start t).tasks = [] := by simp [InstallWithoutLockfile.start, hnil]
    have hinv := h.run.invariant_with_events (fun events s => events = [] ∧ s.tasks = [])
      ⟨rfl, hstart⟩ fun events s e s' hs hstep => by
        cases hstep with
        | task htasks => simp [hs.2] at htasks
    exact hinv.1

/-- A frozen install that finishes keeps its promise exactly when its lockfile was
checked, or is in sync with nothing left to resolve. -/
theorem Install.takenFromLockfile_iff (hfrozen : install.frozenLockfile = true)
    (h : install.Completes binEntries t report t') :
    install.TakenFromLockfile report ↔ install.FrozenChecked := by
  obtain ⟨lockfile, hlockfile, hchecked, hresolved, himported⟩ |
    ⟨hoffline, hconfig, download, installed, state, s, hinstall, hresolved, himported⟩ :=
      h.frozen_cases hfrozen
  · have htaken : install.TakenFromLockfile report ↔ install.inSync lockfile = true := by
      constructor
      · rintro ⟨given, hgiven, hsync, -⟩
        rw [hlockfile] at hgiven
        cases hgiven
        exact hsync
      · exact fun hsync => ⟨lockfile, hlockfile, hsync, hresolved, fun x => (himported x).mp⟩
    rw [htaken]
    rcases hchecked with hoffline | ⟨hoffline, hconfig, hsync⟩
    · constructor
      · exact fun hsync => Or.inr ⟨⟨lockfile, hlockfile, hsync⟩, Or.inl hoffline⟩
      · rintro (⟨honline, -⟩ | ⟨⟨given, hgiven, hsync⟩, -⟩)
        · simp [hoffline] at honline
        · rw [hlockfile] at hgiven
          cases hgiven
          exact hsync
    · exact iff_of_true hsync (Or.inl ⟨hoffline, hconfig⟩)
  · have hnone := hinstall.installed_eq_nil_iff
    constructor
    · rintro ⟨given, hgiven, hsync, hno, -⟩
      refine Or.inr ⟨⟨given, hgiven, hsync⟩, Or.inr (hnone.mp ?_)⟩
      exact List.eq_nil_iff_forall_not_mem.mpr fun e he =>
        hno e.package ((hresolved _).mpr ⟨e, he, rfl⟩)
    · rintro (⟨-, hconfig'⟩ | ⟨⟨given, hgiven, hsync⟩, hoffline' | hempty⟩)
      · simp [hconfig] at hconfig'
      · simp [hoffline] at hoffline'
      · have hnil := hnone.mpr hempty
        refine ⟨given, hgiven, hsync, fun p hp => ?_, fun x hx => ?_⟩
        · obtain ⟨e, he, -⟩ := (hresolved p).mp hp
          rw [hnil] at he
          cases he
        · obtain ⟨e, he, -⟩ := (himported x).mp hx
          rw [hnil] at he
          cases he

end Frozen

section Samples

/-- A frozen install of a project that asks for `a`, with the lockfile of `a@1.0.0`. -/
def frozenInstall (offline : Bool) (specifier : Text) : Install CoreVersion HashIntegrity where
  config := { defaultNpmrc with lockfile := true }
  manifest := manifestOf [(.prod, [("a".toList, specifier)])]
  lockfile := some (sampleLockfile [(sampleKey "a".toList sampleVersion, samplePackage [] [])])
  dependencyGroups := [.prod, .dev, .optional]
  frozenLockfile := true
  offline := offline
  preferOffline := false
  lockfileOnly := false
  resolutionOnly := false
  registry := .empty
  resolvedPackages := []

/-- No package declares a bin. -/
def noBins : BinEntries := fun _ => .ok []

theorem frozenInstall_completes {offline : Bool} {specifier : Text} {networkMode : NetworkMode}
    {lockfile : Lockfile CoreVersion HashIntegrity}
    (haction : (frozenInstall offline specifier).action = .fromLockfile lockfile networkMode)
    (hrun : ((Install.installFromLockfile (frozenInstall offline specifier).config lockfile
      (frozenInstall offline specifier).dependencyGroups sampleSchedule sampleStart).toOption.bind
        fun s => (CreateBins.run noBins defaultNpmrc.modulesDir defaultNpmrc.virtualStoreDir
          s).toOption.map fun _ => true) = some true) :
    ∃ finish, (frozenInstall offline specifier).Completes noBins sampleStart
      ⟨fun _ => False, none, lockfile.Imports⟩ finish := by
  obtain ⟨s, hs, hbins⟩ := Option.bind_eq_some_iff.mp hrun
  obtain ⟨finish, hfinish, -⟩ := Results.exists_of_toOption_map hbins
  obtain ⟨s', hs', rfl⟩ : ∃ s', Install.installFromLockfile (frozenInstall offline specifier).config
      lockfile (frozenInstall offline specifier).dependencyGroups sampleSchedule sampleStart =
        .ok s' ∧ s' = s :=
    Results.exists_of_toOption_map (f := id) (by rw [hs]; rfl)
  exact ⟨finish, .fromLockfile haction hs' hfinish⟩

theorem Install.takenFromLockfile_iff_checked :
    ∃ report finish, (frozenInstall false "1.0.0".toList).Completes noBins sampleStart report
        finish ∧
      ((frozenInstall false "1.0.0".toList).TakenFromLockfile report ↔
        (frozenInstall false "1.0.0".toList).FrozenChecked) := by
  obtain ⟨finish, hfinish⟩ := @frozenInstall_completes false "1.0.0".toList .online _ rfl
    (by decide +kernel)
  exact ⟨_, finish, hfinish, Install.takenFromLockfile_iff rfl hfinish⟩

/-- Offline, a frozen install of a lockfile that is out of sync finishes. -/
theorem Install.not_takenFromLockfile_offline :
    ∃ report finish, (frozenInstall true "2.0.0".toList).Completes noBins sampleStart report
        finish ∧
      ¬ (frozenInstall true "2.0.0".toList).TakenFromLockfile report := by
  obtain ⟨finish, hfinish⟩ := @frozenInstall_completes true "2.0.0".toList .offline _ rfl
    (by decide +kernel)
  refine ⟨_, finish, hfinish, ?_⟩
  rintro ⟨lockfile, hlockfile, hsync, -⟩
  cases hlockfile
  exact absurd hsync (by decide +kernel)

end Samples

end Npnpm
