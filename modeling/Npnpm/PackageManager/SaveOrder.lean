import Npnpm.PackageManager.ManifestCommands
import Npnpm.PackageManager.LockfileInSync
import Mathlib.Data.List.Perm.Subperm
import Mathlib.Logic.Relation

/-!
# The order in which the files are saved

A command that edits the manifest installs first and saves `package.json` last. The
lockfile is generated for the edited manifest and saved in the middle of the install,
before anything is downloaded or linked.

## Implementation notes

A run of a command is a sequence of steps that ends when it is finished or when it
fails. It can fail, or be killed, in every phase, and the modules directory may then
have any content. A file that is being written is cut off first; what a run leaves of
it when it fails is no complete file.
-/

namespace Npnpm

namespace SaveOrder

section Definitions

variable {V I : Type} [BEq V]

/-- What a command has still to do, with the edited manifest in memory. `written` tells
that the run has saved a lockfile. -/
inductive Phase (V I : Type) [BEq V]
  | editing
  | installing (manifest : PackageManifest)
  | savingLockfile (manifest : PackageManifest) (lockfile : Lockfile V I)
  | writingLockfile (manifest : PackageManifest) (lockfile : Lockfile V I)
  | linking (manifest : PackageManifest) (lockfile : Lockfile V I) (mode : NetworkMode)
      (written : Bool)
  | linkingWithoutLockfile (manifest : PackageManifest)
  | creatingBins (manifest : PackageManifest) (written : Bool)
  | savingManifest (manifest : PackageManifest) (written : Bool)
  | writingManifest (manifest : PackageManifest)
  | finished
  | failed

/-- A file is `none` when it is not completely there. -/
structure State (V I : Type) [BEq V] where
  manifestFile : Option PackageManifest
  lockfileFile : Option (Lockfile V I)
  tree : FileTree.Tree
  phase : Phase V I

def State.enter (s : State V I) (phase : Phase V I) : State V I := { s with phase := phase }

def Phase.Ended : Phase V I → Prop
  | .finished => True
  | .failed => True
  | _ => False

variable [NodeSemver V] [SemverRange V]

inductive Step (command : ManifestCommand V I) (binEntries : BinEntries) (s : State V I) :
    State V I → Prop
  | edit {manifest} (hphase : s.phase = .editing) (hedit : command.edited = some manifest) :
      Step command binEntries s (s.enter (.installing manifest))
  | fromLockfile {manifest lockfile mode} (hphase : s.phase = .installing manifest)
      (haction : (command.install manifest).action = .fromLockfile lockfile mode) :
      Step command binEntries s (s.enter (.linking manifest lockfile mode false))
  | withoutLockfile {manifest mode} (hphase : s.phase = .installing manifest)
      (haction : (command.install manifest).action = .withoutLockfile mode) :
      Step command binEntries s (s.enter (.linkingWithoutLockfile manifest))
  | generated {manifest lockfile mode} (hphase : s.phase = .installing manifest)
      (haction : (command.install manifest).action = .generateAndInstall mode)
      (hgenerate : (command.install manifest).generateLockfile.run = .ok lockfile) :
      Step command binEntries s (s.enter (.savingLockfile manifest lockfile))
  | cutLockfile {manifest lockfile} (hphase : s.phase = .savingLockfile manifest lockfile) :
      Step command binEntries s
        ({ s with lockfileFile := none }.enter (.writingLockfile manifest lockfile))
  | wroteLockfile {manifest lockfile} (hphase : s.phase = .writingLockfile manifest lockfile) :
      Step command binEntries s
        ({ s with lockfileFile := some lockfile }.enter (.linking manifest lockfile .online true))
  | linked {manifest lockfile mode written schedule tree}
      (hphase : s.phase = .linking manifest lockfile mode written)
      (hinstall : Install.installFromLockfile (command.install manifest).config lockfile
        command.groups schedule s.tree = .ok tree) :
      Step command binEntries s ({ s with tree := tree }.enter (.creatingBins manifest written))
  | linkedWithoutLockfile {manifest download installed state tree}
      (hphase : s.phase = .linkingWithoutLockfile manifest)
      (hinstall : (command.install manifest).installWithoutLockfile.Completes download s.tree
        installed state tree) :
      Step command binEntries s ({ s with tree := tree }.enter (.creatingBins manifest false))
  | createdBins {manifest written tree} (hphase : s.phase = .creatingBins manifest written)
      (hbins : CreateBins.run binEntries (command.install manifest).config.modulesDir
        (command.install manifest).config.virtualStoreDir s.tree = .ok tree) :
      Step command binEntries s ({ s with tree := tree }.enter (.savingManifest manifest written))
  | cutManifest {manifest written} (hphase : s.phase = .savingManifest manifest written) :
      Step command binEntries s
        ({ s with manifestFile := none }.enter (.writingManifest manifest))
  | wroteManifest {manifest} (hphase : s.phase = .writingManifest manifest) :
      Step command binEntries s ({ s with manifestFile := some manifest }.enter .finished)
  | fail (tree) (hphase : ¬ s.phase.Ended) :
      Step command binEntries s ({ s with tree := tree }.enter .failed)

/-- Before the run both files are there, the manifest as it was read. -/
def State.initial (command : ManifestCommand V I) (lockfile : Lockfile V I)
    (tree : FileTree.Tree) : State V I :=
  ⟨some command.manifest, some lockfile, tree, .editing⟩

end Definitions

section Sync

variable {V I : Type} [BEq V]

/-- The lockfile describes the manifest, in every group that it records. -/
def Matching (manifest : PackageManifest) (lockfile : Lockfile V I) : Prop :=
  lockfileMatchesManifest manifest lockfile [.prod, .dev, .optional] = true

/-- Both files are complete and in sync. -/
def State.InSync (s : State V I) : Prop :=
  ∃ manifest lockfile, s.manifestFile = some manifest ∧ s.lockfileFile = some lockfile ∧
    Matching manifest lockfile

/-- The edits change nothing that is installed, and nothing is listed in the groups
that are not installed. -/
def KeepsGroups (command : ManifestCommand V I) (edited : PackageManifest) : Prop :=
  ∀ group ∈ [DependencyGroup.prod, .dev, .optional],
    (group ∈ command.groups →
      (command.manifest.groupDependencies group).Perm (edited.groupDependencies group)) ∧
    (group ∉ command.groups → command.manifest.groupDependencies group = [])

/-- A failure in this phase leaves the files in sync. -/
def SafePhase (command : ManifestCommand V I) : Phase V I → Prop
  | .writingLockfile _ _ => False
  | .linking edited _ _ true => KeepsGroups command edited
  | .creatingBins edited true => KeepsGroups command edited
  | .savingManifest edited true => KeepsGroups command edited
  | .writingManifest _ => False
  | _ => True

theorem not_inSync_of_manifestFile {s : State V I} (h : s.manifestFile = none) : ¬ s.InSync := by
  rintro ⟨manifest, saved, hmanifest, -⟩
  simp [h] at hmanifest

theorem not_inSync_of_lockfileFile {s : State V I} (h : s.lockfileFile = none) : ¬ s.InSync := by
  rintro ⟨manifest, saved, -, hsaved, -⟩
  simp [h] at hsaved

theorem inSync_iff {s : State V I} {manifest : PackageManifest} {saved : Lockfile V I}
    (hmanifest : s.manifestFile = some manifest) (hsaved : s.lockfileFile = some saved) :
    s.InSync ↔ Matching manifest saved := by
  simp [State.InSync, hmanifest, hsaved]

omit [BEq V] in
/-- A group that is recorded with other entries than the manifest lists. -/
theorem matchesGroup_iff_perm {project : ProjectSnapshot V} {manifest : PackageManifest}
    {group : DependencyGroup} {recorded : List (Text × Text)}
    (h : (project.specifiersOf group).entries = recorded) :
    project.MatchesGroup manifest group ↔
      (manifest.groupDependencies group).Perm recorded := by
  subst h
  constructor
  · rintro ⟨hlength, hget⟩
    have hnodup : (manifest.groupDependencies group).Nodup :=
      (manifest.groupDependencies_nodup group).of_map
    have hsubset : manifest.groupDependencies group ⊆ (project.specifiersOf group).entries :=
      fun e he => KeyedMap.get_eq_some_iff.mp (hget e he)
    apply (List.subperm_of_subset hnodup hsubset).perm_of_length_le
    omega
  · intro hperm
    exact ⟨hperm.length_eq, fun e he => KeyedMap.get_of_mem (hperm.mem_iff.mp he)⟩

variable [NodeSemver V] [SemverRange V] {command : ManifestCommand V I}

/-- The lockfile that was generated for the edited manifest describes the manifest on
disk just when the edits keep the groups. -/
theorem matching_generated_iff {edited : PackageManifest} {lockfile : Lockfile V I}
    (h : (command.install edited).generateLockfile.run = .ok lockfile) :
    Matching command.manifest lockfile ↔ KeepsGroups command edited := by
  obtain ⟨project, hproject, hgroups⟩ := GenerateLockfile.run_groups h
  have hmatches : ∀ group ∈ [DependencyGroup.prod, .dev, .optional],
      (project.MatchesGroup command.manifest group ↔
        (group ∈ command.groups →
          (command.manifest.groupDependencies group).Perm (edited.groupDependencies group)) ∧
        (group ∉ command.groups → command.manifest.groupDependencies group = [])) := by
    intro group hmem
    have hpeer : group ≠ .peer := by
      rintro rfl
      revert hmem
      decide
    obtain ⟨hout, hin⟩ := hgroups group hpeer
    have hselected : (command.install edited).generateLockfile.dependencyGroups =
        command.groups := command.install_groups edited
    have hmanifest : (command.install edited).generateLockfile.manifest = edited :=
      command.install_manifest edited
    rw [hselected] at hout hin
    rw [hmanifest] at hin
    by_cases hgroup : group ∈ command.groups
    · obtain ⟨resolved, hrecorded, hentries⟩ := hin hgroup
      have hspecifiers := ProjectSnapshot.specifiersOf_of_records hrecorded
        (edited.groupDependencies_nodup group) hentries
      simpa [hgroup] using matchesGroup_iff_perm hspecifiers
    · simpa [hgroup] using ProjectSnapshot.matchesGroup_of_none (hout hgroup)
  rw [Matching, lockfileMatchesManifest_iff]
  constructor
  · rintro ⟨project', hproject', hall⟩ group hgroup
    obtain rfl : project = project' := by
      rw [hproject] at hproject'
      exact RootProjectSnapshot.single.inj hproject'
    exact (hmatches group hgroup).mp (hall group hgroup)
  · intro hkeeps
    exact ⟨project, hproject, fun group hgroup => (hmatches group hgroup).mpr (hkeeps group hgroup)⟩

/-- The files in a phase: as they were before the run, with the generated lockfile in
place of the old one, or cut off. -/
def FilesAt (command : ManifestCommand V I) (lockfile : Lockfile V I) (s : State V I) : Prop :=
  let generated (edited : PackageManifest) (saved : Lockfile V I) : Prop :=
    (command.install edited).generateLockfile.run = .ok saved
  let written (edited : PackageManifest) : Prop :=
    s.manifestFile = some command.manifest ∧
      ∃ saved, s.lockfileFile = some saved ∧ generated edited saved
  let before : Prop := s.manifestFile = some command.manifest ∧ s.lockfileFile = some lockfile
  match s.phase with
  | .editing => before
  | .installing _ => before
  | .savingLockfile edited saved => before ∧ generated edited saved
  | .writingLockfile edited saved =>
      s.manifestFile = some command.manifest ∧ s.lockfileFile = none ∧ generated edited saved
  | .linking edited _ _ true => written edited
  | .linking _ _ _ false => before
  | .linkingWithoutLockfile _ => before
  | .creatingBins edited true => written edited
  | .creatingBins _ false => before
  | .savingManifest edited true => written edited
  | .savingManifest _ false => before
  | .writingManifest _ => s.manifestFile = none
  | .finished => True
  | .failed => True

variable {lockfile : Lockfile V I} {binEntries : BinEntries} {s s' : State V I}

theorem FilesAt.step (h : FilesAt command lockfile s) (hstep : Step command binEntries s s') :
    FilesAt command lockfile s' := by
  cases hstep with
  | edit hphase => simpa [FilesAt, State.enter, hphase] using h
  | fromLockfile hphase => simpa [FilesAt, State.enter, hphase] using h
  | withoutLockfile hphase => simpa [FilesAt, State.enter, hphase] using h
  | generated hphase _ hgenerate =>
      simp only [FilesAt, hphase] at h
      exact ⟨h, hgenerate⟩
  | cutLockfile hphase =>
      simp only [FilesAt, hphase] at h
      exact ⟨h.1.1, rfl, h.2⟩
  | wroteLockfile hphase =>
      simp only [FilesAt, hphase] at h
      exact ⟨h.1, _, rfl, h.2.2⟩
  | @linked _ _ _ written _ _ hphase =>
      cases written <;> simpa [FilesAt, State.enter, hphase] using h
  | linkedWithoutLockfile hphase => simpa [FilesAt, State.enter, hphase] using h
  | @createdBins _ written _ hphase =>
      cases written <;> simpa [FilesAt, State.enter, hphase] using h
  | cutManifest => rfl
  | wroteManifest => trivial
  | fail => trivial

theorem FilesAt.of_run {tree : FileTree.Tree}
    (run : Relation.ReflTransGen (Step command binEntries) (.initial command lockfile tree) s) :
    FilesAt command lockfile s := by
  induction run with
  | refl => exact ⟨rfl, rfl⟩
  | tail _ hstep ih => exact ih.step hstep

/-- What the files are when the run ends here. -/
theorem inSync_iff_safePhase (hstart : Matching command.manifest lockfile)
    (h : FilesAt command lockfile s) (hphase : ¬ s.phase.Ended) :
    s.InSync ↔ SafePhase command s.phase := by
  have hbefore : s.manifestFile = some command.manifest ∧ s.lockfileFile = some lockfile →
      (s.InSync ↔ True) := fun h => iff_of_true ((inSync_iff h.1 h.2).mpr hstart) trivial
  have hwritten : ∀ edited, (s.manifestFile = some command.manifest ∧ ∃ saved,
      s.lockfileFile = some saved ∧ (command.install edited).generateLockfile.run = .ok saved) →
      (s.InSync ↔ KeepsGroups command edited) := by
    rintro edited ⟨hmanifest, saved, hsaved, hgenerate⟩
    exact (inSync_iff hmanifest hsaved).trans (matching_generated_iff hgenerate)
  unfold FilesAt at h
  generalize s.phase = phase at h hphase
  cases phase with
  | editing => exact hbefore h
  | installing => exact hbefore h
  | savingLockfile => exact hbefore h.1
  | writingLockfile => exact iff_of_false (not_inSync_of_lockfileFile h.2.1) id
  | linking edited _ _ written =>
      cases written with
      | true => exact hwritten edited h
      | false => exact hbefore h
  | linkingWithoutLockfile => exact hbefore h
  | creatingBins edited written =>
      cases written with
      | true => exact hwritten edited h
      | false => exact hbefore h
  | savingManifest edited written =>
      cases written with
      | true => exact hwritten edited h
      | false => exact hbefore h
  | writingManifest => exact iff_of_false (not_inSync_of_manifestFile h) id
  | finished => exact absurd trivial hphase
  | failed => exact absurd trivial hphase

/-- A run that fails leaves the files in sync exactly when it fails before the lockfile
is written, or when the lockfile that was saved describes the old manifest too and the
manifest is not being written. -/
theorem failed_inSync_iff {tree : FileTree.Tree} (hstart : Matching command.manifest lockfile)
    (run : Relation.ReflTransGen (Step command binEntries) (.initial command lockfile tree) s)
    (hfail : Step command binEntries s s') (hfailed : s'.phase = .failed) :
    s'.InSync ↔ SafePhase command s.phase := by
  have hfiles := FilesAt.of_run run
  cases hfail with
  | fail left hphase => exact inSync_iff_safePhase hstart hfiles hphase
  | _ => cases hfailed

end Sync

section Samples

/-- `remove b` in a project that lists `a` and, for development, `b`. -/
def removeCommand : ManifestCommand CoreVersion HashIntegrity :=
  .remove {
    config := { defaultNpmrc with lockfile := true }
    manifest := (devInstall ⟨false, false, false⟩).manifest
    dependencyGroups := [.prod, .dev, .optional, .peer]
    packages := ["b".toList]
    registry := (devInstall ⟨false, false, false⟩).registry
    resolvedPackages := [] }

/-- The run goes on until the lockfile is saved. -/
theorem exists_saved :
    ∃ lockfile s, Matching removeCommand.manifest lockfile ∧
      Relation.ReflTransGen (Step removeCommand fun _ => .ok [])
        (.initial removeCommand lockfile .empty) s ∧
      ¬ s.phase.Ended ∧ s.manifestFile = some removeCommand.manifest ∧
      ∃ saved, s.lockfileFile = some saved ∧ ¬ Matching removeCommand.manifest saved := by
  have hstart : (devInstall ⟨false, false, false⟩).generateLockfile.run.toOption.map
      (fun lockfile => lockfileMatchesManifest removeCommand.manifest lockfile
        [.prod, .dev, .optional]) = some true := by decide +kernel
  obtain ⟨lockfile, -, hlockfile⟩ := Results.exists_of_toOption_map hstart
  have hrun : (removeCommand.edited.bind fun edited =>
      (removeCommand.install edited).generateLockfile.run.toOption.map fun saved =>
        lockfileMatchesManifest removeCommand.manifest saved [.prod, .dev, .optional]) =
      some false := by decide +kernel
  obtain ⟨edited, hedited, hrun⟩ := Option.bind_eq_some_iff.mp hrun
  obtain ⟨saved, hsaved, hmatches⟩ := Results.exists_of_toOption_map hrun
  have hedit : Step removeCommand (fun _ => .ok []) (.initial removeCommand lockfile .empty) _ :=
    .edit rfl hedited
  have hgenerated := (Relation.ReflTransGen.single hedit).tail
    (.generated rfl rfl hsaved)
  have hcut := hgenerated.tail (.cutLockfile rfl)
  have hwrote := hcut.tail (.wroteLockfile rfl)
  refine ⟨lockfile, _, hlockfile, hwrote, id, rfl, saved, rfl, fun hmatching => ?_⟩
  rw [Matching, hmatches] at hmatching
  cases hmatching

theorem failed_inSync_iff_saved :
    ∃ lockfile s s', Matching removeCommand.manifest lockfile ∧
      Relation.ReflTransGen (Step removeCommand fun _ => .ok [])
        (.initial removeCommand lockfile .empty) s ∧
      Step removeCommand (fun _ => .ok []) s s' ∧ s'.phase = .failed ∧
      (s'.InSync ↔ SafePhase removeCommand s.phase) := by
  obtain ⟨lockfile, s, hstart, run, hphase, -⟩ := exists_saved
  have hfail : Step removeCommand (fun _ => .ok []) s _ := .fail .empty hphase
  exact ⟨lockfile, s, _, hstart, run, hfail, rfl, failed_inSync_iff hstart run hfail rfl⟩

/-- The removal fails after the lockfile without `b` was saved, and `package.json`
still lists `b`. -/
theorem failed_not_inSync :
    ∃ lockfile s s', Matching removeCommand.manifest lockfile ∧
      Relation.ReflTransGen (Step removeCommand fun _ => .ok [])
        (.initial removeCommand lockfile .empty) s ∧
      Step removeCommand (fun _ => .ok []) s s' ∧ s'.phase = .failed ∧ ¬ s'.InSync := by
  obtain ⟨lockfile, s, hstart, run, hphase, hmanifest, saved, hsaved, hnot⟩ := exists_saved
  refine ⟨lockfile, s, _, hstart, run, .fail .empty hphase, rfl, ?_⟩
  rintro ⟨manifest, saved', hmanifest', hsaved', hmatching⟩
  obtain rfl : removeCommand.manifest = manifest := by
    rw [← Option.some_inj, ← hmanifest]
    exact hmanifest'
  obtain rfl : saved = saved' := by
    rw [← Option.some_inj, ← hsaved]
    exact hsaved'
  exact hnot hmatching

end Samples

end SaveOrder

end Npnpm
