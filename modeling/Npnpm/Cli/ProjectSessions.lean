import Npnpm.Lockfile.Deserialize
import Npnpm.PackageManager.CommandTables
import Npnpm.PackageManager.OwnDirectories
import Npnpm.PackageManager.SaveOrder
import Npnpm.PackageManifest.Files

/-!
# Sessions on a project

The commands are run one after the other in one project, each on the files that those
before have left. Whatever fails, panics or is killed, `package.json` holds the table in
which the edits of the commands that finished have been made, in their order. Only a run
that stops while it writes the file breaks it, and what is broken stays broken.

## Implementation notes

The log of a session has an entry for each run. A command that finds no manifest writes
one before it starts; the log has two entries for it. Commands that run scripts, print or
work on the store do not touch the file, and no more does an install.
-/

namespace Npnpm

namespace Cli

open Npnpm.SaveOrder

section Start

variable {V I : Type} [NodeSemver V] [SsriParse I] [SsriDisplay I] [BEq V]

inductive LoadLockfileError
  | parseYaml
deriving DecidableEq

inductive InitStateError
  | loadManifest (error : ManifestFileError)
  | loadLockfile (error : LoadLockfileError)
deriving DecidableEq

/-- The application state. The caches and the client, which start empty, are left out. -/
structure State (V I : Type) [BEq V] where
  config : Npmrc
  manifest : PackageManifest
  lockfile : Option (Lockfile V I)

/-- What `load_from_dir` returns: nothing where there is no file, and for a cut file
whatever its beginning reads as. -/
inductive LoadsFrom : Disk (Lockfile V I) → Except LoadLockfileError (Option (Lockfile V I)) → Prop
  | absent : LoadsFrom .absent (.ok none)
  | cut (loaded) : LoadsFrom .cut loaded
  | whole {lockfile found} (h : Lockfile.load lockfile.serialize = some found) :
      LoadsFrom (.whole lockfile) (.ok found)
  | unreadable {lockfile : Lockfile V I}
      (h : Lockfile.load (V := V) (I := I) lockfile.serialize = none) :
      LoadsFrom (.whole lockfile) (.error .parseYaml)

def callLoadLockfile {ε α : Type} (configLockfile : Bool) (loadLockfile : Except ε (Option α)) :
    Except ε (Option α) :=
  if configLockfile then loadLockfile else .ok none

/-- The state, with the file of the manifest as it is then. -/
def State.init (manifestPath : Text) (config : Npmrc) (file : Disk PackageManifest)
    (loadLockfile : Except LoadLockfileError (Option (Lockfile V I))) :
    Except InitStateError (State V I × Disk PackageManifest) := do
  let (manifest, file) ←
    (PackageManifest.createIfNeeded manifestPath file).mapError .loadManifest
  let lockfile ← (callLoadLockfile config.lockfile loadLockfile).mapError .loadLockfile
  return (⟨config, manifest, lockfile⟩, file)

/-- The command is called with what the state has. -/
def State.Starts (state : State V I) : ManifestCommand V I → Prop
  | .add call => call.config = state.config ∧ call.manifest = state.manifest ∧
      call.lockfile = state.lockfile
  | .remove call => call.config = state.config ∧ call.manifest = state.manifest
  | .update call => call.config = state.config ∧ call.manifest = state.manifest

omit [NodeSemver V] [SsriParse I] [SsriDisplay I] in
theorem State.Starts.manifest {state : State V I} {command : ManifestCommand V I}
    (h : state.Starts command) : command.manifest = state.manifest := by
  cases command with
  | add call => exact h.2.1
  | remove call => exact h.2
  | update call => exact h.2

omit [NodeSemver V] [SsriParse I] [SsriDisplay I] in
/-- Opening a project leaves the file whole, as it was or newly written. -/
theorem State.init_file {manifestPath : Text} {config : Npmrc} {file file' : Disk PackageManifest}
    {loadLockfile : Except LoadLockfileError (Option (Lockfile V I))} {state : State V I}
    (h : State.init manifestPath config file loadLockfile = .ok (state, file')) :
    file' = .whole state.manifest ∧
      (file = file' ∨ file = .absent ∧ state.manifest = .writeToFile manifestPath) := by
  obtain ⟨⟨manifest, _⟩, hcreate, h⟩ := Results.bind_ok h
  obtain ⟨lockfile, -, h⟩ := Results.bind_ok h
  cases h
  exact PackageManifest.createIfNeeded_eq_ok_iff.mp (Results.mapError_ok hcreate)

end Start

section Sessions

variable {V I : Type} [BEq V]

/-- The files of a project. -/
structure Project (V I : Type) [BEq V] where
  manifestFile : Disk PackageManifest
  lockfileFile : Disk (Lockfile V I)
  tree : FileTree.Tree

/-- What a run did to `package.json`. -/
inductive Entry (V I : Type) [BEq V]
  | opened
  | finished (command : ManifestCommand V I)
  | other
  | cut

/-- The files when a command starts to edit. -/
def Project.start (p : Project V I) (command : ManifestCommand V I) : SaveOrder.State V I :=
  ⟨some command.manifest, p.lockfileFile.whole?, p.tree, .editing⟩

/-- The files that the run of a command has left. -/
structure Project.LeftBy (p : Project V I) (s : SaveOrder.State V I) (p' : Project V I) :
    Prop where
  manifest : p.manifestFile.LeftAs s.manifestFile p'.manifestFile
  lockfile : p.lockfileFile.LeftAs s.lockfileFile p'.lockfileFile
  tree : p'.tree = s.tree

variable [NodeSemver V] [SemverRange V] [SsriParse I] [SsriDisplay I]

/-- The command can start on these files. -/
def Project.Starts (manifestPath : Text) (p : Project V I) (command : ManifestCommand V I) :
    Prop :=
  ∃ config loadLockfile state, LoadsFrom p.lockfileFile loadLockfile ∧
    State.init manifestPath config p.manifestFile loadLockfile = .ok (state, p.manifestFile) ∧
    state.Starts command

inductive Invocation (manifestPath : Text) (binEntries : BinEntries) :
    Project V I → Entry V I → Project V I → Prop
  | initialized {p file} (hinit : PackageManifest.init manifestPath p.manifestFile = .ok file) :
      Invocation manifestPath binEntries p .opened { p with manifestFile := file }
  | opened {p config loadLockfile state file} (hload : LoadsFrom p.lockfileFile loadLockfile)
      (hinit : State.init manifestPath config p.manifestFile loadLockfile = .ok (state, file)) :
      Invocation manifestPath binEntries p .opened { p with manifestFile := file }
  | openingCut {p} (habsent : p.manifestFile = .absent) :
      Invocation manifestPath binEntries p .cut { p with manifestFile := .cut }
  | other {p} (lockfileFile tree) :
      Invocation manifestPath binEntries p .other ⟨p.manifestFile, lockfileFile, tree⟩
  | finished {p p' command s} (hstart : p.Starts manifestPath command)
      (hrun : Relation.ReflTransGen (Step command binEntries) (p.start command) s)
      (hphase : s.phase = .finished) (hleft : p.LeftBy s p') :
      Invocation manifestPath binEntries p (.finished command) p'
  | failed {p p' command s s'} (hstart : p.Starts manifestPath command)
      (hrun : Relation.ReflTransGen (Step command binEntries) (p.start command) s)
      (hstep : Step command binEntries s s') (hphase : s'.phase = .failed)
      (hwriting : ∀ manifest, s.phase ≠ .writingManifest manifest) (hleft : p.LeftBy s' p') :
      Invocation manifestPath binEntries p .other p'
  | writingCut {p p' command s s' manifest} (hstart : p.Starts manifestPath command)
      (hrun : Relation.ReflTransGen (Step command binEntries) (p.start command) s)
      (hstep : Step command binEntries s s') (hphase : s'.phase = .failed)
      (hwriting : s.phase = .writingManifest manifest) (hleft : p.LeftBy s' p') :
      Invocation manifestPath binEntries p .cut p'

/-- A session and its log. -/
inductive Session (manifestPath : Text) (binEntries : BinEntries) (start : Project V I) :
    List (Entry V I) → Project V I → Prop
  | refl : Session manifestPath binEntries start [] start
  | tail {log p entry p'} (h : Session manifestPath binEntries start log p)
      (hnext : Invocation manifestPath binEntries p entry p') :
      Session manifestPath binEntries start (log ++ [entry]) p'

/-- What the log says about the table in the file. -/
def Entry.replay (entry : Entry V I)
    (table : Disk (DependencyGroup × Text → Option ManifestSpecifier)) :
    Disk (DependencyGroup × Text → Option ManifestSpecifier) :=
  match entry, table with
  | .opened, .absent => .whole fun _ => none
  | .finished command, table => table.map (CellEdit.applyAll (command.tableEdits.getD []))
  | .cut, _ => .cut
  | _, table => table

/-- What a session does to the rest of `package.json`: nothing, unless it is cut. -/
def KeepsFields : Disk PackageManifest → Disk PackageManifest → Prop
  | .absent, _ => True
  | .cut, after => after = .cut
  | .whole manifest, after => after = .cut ∨ ∃ manifest', after = .whole manifest' ∧
      ∀ field, (∀ group : DependencyGroup, field ≠ group.field) →
        manifest'.value.get field = manifest.value.get field

end Sessions

section Run

variable {V I : Type} [BEq V] [NodeSemver V] [SemverRange V] {command : ManifestCommand V I}
  {binEntries : BinEntries} {s s' : SaveOrder.State V I}

/-- Until the manifest is written the file has the old one, and then the edited one. -/
def Unsaved (command : ManifestCommand V I) (s : SaveOrder.State V I) : Prop :=
  let held (edited : PackageManifest) : Prop :=
    s.manifestFile = some command.manifest ∧ command.edited = some edited
  match s.phase with
  | .editing => s.manifestFile = some command.manifest
  | .installing edited => held edited
  | .savingLockfile edited _ => held edited
  | .writingLockfile edited _ => held edited
  | .linking edited _ _ _ => held edited
  | .linkingWithoutLockfile edited => held edited
  | .creatingBins edited _ => held edited
  | .savingManifest edited _ => held edited
  | .writingManifest edited => s.manifestFile = none ∧ command.edited = some edited
  | .finished => ∃ edited, s.manifestFile = some edited ∧ command.edited = some edited
  | .failed => True

theorem Unsaved.step (h : Unsaved command s) (hstep : Step command binEntries s s') :
    Unsaved command s' := by
  cases hstep with
  | edit hphase hedit =>
      simp only [Unsaved, hphase] at h
      exact ⟨h, hedit⟩
  | fromLockfile hphase => simpa [Unsaved, State.enter, hphase] using h
  | withoutLockfile hphase => simpa [Unsaved, State.enter, hphase] using h
  | generated hphase => simpa [Unsaved, State.enter, hphase] using h
  | cutLockfile hphase => simpa [Unsaved, State.enter, hphase] using h
  | wroteLockfile hphase => simpa [Unsaved, State.enter, hphase] using h
  | linked hphase => simpa [Unsaved, State.enter, hphase] using h
  | linkedWithoutLockfile hphase => simpa [Unsaved, State.enter, hphase] using h
  | createdBins hphase => simpa [Unsaved, State.enter, hphase] using h
  | cutManifest hphase =>
      simp only [Unsaved, hphase] at h
      exact ⟨rfl, h.2⟩
  | wroteManifest hphase =>
      simp only [Unsaved, hphase] at h
      exact ⟨_, rfl, h.2⟩
  | fail => trivial

theorem Unsaved.of_run {p : Project V I}
    (hrun : Relation.ReflTransGen (Step command binEntries) (p.start command) s) :
    Unsaved command s := by
  induction hrun with
  | refl => rfl
  | tail _ hstep ih => exact ih.step hstep

/-- A run that stops anywhere else than in the writing of the manifest leaves the old one. -/
theorem Unsaved.manifestFile_of_fail (h : Unsaved command s)
    (hstep : Step command binEntries s s') (hphase : s'.phase = .failed)
    (hwriting : ∀ edited, s.phase ≠ .writingManifest edited) :
    s'.manifestFile = some command.manifest := by
  cases hstep with
  | fail tree hended =>
      unfold Unsaved at h
      generalize s.phase = phase at h hwriting hended
      cases phase with
      | editing => exact h
      | writingManifest edited => exact absurd rfl (hwriting edited)
      | finished => exact absurd trivial hended
      | failed => exact absurd trivial hended
      | _ => exact h.1
  | _ => cases hphase

/-- A run that stops in the writing of the manifest leaves none. -/
theorem Unsaved.manifestFile_of_writing (h : Unsaved command s)
    (hstep : Step command binEntries s s') (hphase : s'.phase = .failed)
    {edited : PackageManifest} (hwriting : s.phase = .writingManifest edited) :
    s'.manifestFile = none := by
  cases hstep with
  | fail tree =>
      simp only [Unsaved, hwriting] at h
      exact h.1
  | _ => cases hphase

end Run

section Table

variable {V I : Type} [BEq V] [NodeSemver V] [SemverRange V] [SsriParse I] [SsriDisplay I]
  {manifestPath : Text} {binEntries : BinEntries} {p p' : Project V I} {entry : Entry V I}

theorem KeepsFields.refl (file : Disk PackageManifest) : KeepsFields file file := by
  cases file with
  | absent => trivial
  | cut => rfl
  | whole manifest => exact Or.inr ⟨manifest, rfl, fun _ _ => rfl⟩

theorem KeepsFields.trans {a b c : Disk PackageManifest} (h : KeepsFields a b)
    (h' : KeepsFields b c) : KeepsFields a c := by
  cases a with
  | absent => trivial
  | cut =>
      cases (h : b = .cut)
      exact h'
  | whole manifest =>
      rcases h with rfl | ⟨manifest₁, rfl, hfields⟩
      · exact Or.inl h'
      · refine h'.imp_right ?_
        rintro ⟨manifest', rfl, hfields'⟩
        exact ⟨manifest', rfl, fun field hf => (hfields' field hf).trans (hfields field hf)⟩

theorem table_writeToFile (path : Text) (cell : DependencyGroup × Text) :
    (PackageManifest.writeToFile path).table cell = none := by
  obtain ⟨group, name⟩ := cell
  cases group <;> rfl

omit [SemverRange V] in
theorem Project.Starts.manifestFile {command : ManifestCommand V I}
    (h : p.Starts manifestPath command) : p.manifestFile = .whole command.manifest := by
  obtain ⟨config, loadLockfile, state, -, hinit, hstart⟩ := h
  rw [(State.init_file hinit).1, hstart.manifest]

/-- One run does to `package.json` what its entry in the log says. -/
theorem Invocation.manifestFile (h : Invocation manifestPath binEntries p entry p') :
    p'.manifestFile.map PackageManifest.table =
        entry.replay (p.manifestFile.map PackageManifest.table) ∧
      KeepsFields p.manifestFile p'.manifestFile := by
  have hcreated : (PackageManifest.writeToFile manifestPath).table = fun _ => none :=
    funext (table_writeToFile manifestPath)
  cases h with
  | initialized hinit =>
      cases hfile : p.manifestFile with
      | absent =>
          rw [hfile] at hinit
          cases hinit
          exact ⟨congrArg Disk.whole hcreated, trivial⟩
      | cut | whole => rw [hfile] at hinit; cases hinit
  | opened hload hinit =>
      obtain ⟨rfl, hsame | ⟨habsent, hnew⟩⟩ := State.init_file hinit
      · rw [hsame]
        exact ⟨rfl, .refl _⟩
      · rw [habsent, hnew]
        exact ⟨congrArg Disk.whole hcreated, trivial⟩
  | openingCut habsent =>
      rw [habsent]
      exact ⟨rfl, trivial⟩
  | other => exact ⟨rfl, .refl _⟩
  | finished hstart hrun hphase hleft =>
      have hunsaved := Unsaved.of_run hrun
      simp only [Unsaved, hphase] at hunsaved
      obtain ⟨edited, hfile, hedited⟩ := hunsaved
      have hafter : p'.manifestFile = .whole edited := by
        have hmanifest := hleft.manifest
        rwa [hfile] at hmanifest
      obtain ⟨edits, hedits, htable⟩ := ManifestCommand.edited_tableEdited hedited
      rw [hafter, hstart.manifestFile, Entry.replay, hedits]
      exact ⟨congrArg Disk.whole htable.table, Or.inr ⟨edited, rfl, htable.others⟩⟩
  | failed hstart hrun hstep hphase hwriting hleft =>
      have hfile := (Unsaved.of_run hrun).manifestFile_of_fail hstep hphase hwriting
      have hafter : p'.manifestFile = p.manifestFile := by
        have hmanifest := hleft.manifest
        rw [hfile] at hmanifest
        exact hmanifest.trans hstart.manifestFile.symm
      rw [hafter]
      exact ⟨rfl, .refl _⟩
  | writingCut hstart hrun hstep hphase hwriting hleft =>
      have hfile := (Unsaved.of_run hrun).manifestFile_of_writing hstep hphase hwriting
      have hafter : p'.manifestFile = .cut := by
        have hmanifest := hleft.manifest
        rw [hfile, hstart.manifestFile] at hmanifest
        exact hmanifest.resolve_right fun h => by cases h.1
      rw [hafter, hstart.manifestFile]
      exact ⟨rfl, Or.inl rfl⟩

/-- After any session the table in `package.json` is the one that the log gives: each
command that finished has made its edits, one that did not finish has made none, and after
a run that was cut while it wrote there is no table any more. -/
theorem Session.manifest_replayed {start finish : Project V I} {log : List (Entry V I)}
    (h : Session manifestPath binEntries start log finish) :
    finish.manifestFile.map PackageManifest.table =
        log.foldl (fun table entry => entry.replay table)
          (start.manifestFile.map PackageManifest.table) ∧
      KeepsFields start.manifestFile finish.manifestFile := by
  induction h with
  | refl => exact ⟨rfl, .refl _⟩
  | tail _ hnext ih =>
      obtain ⟨htable, hfields⟩ := hnext.manifestFile
      rw [List.foldl_append, List.foldl_cons, List.foldl_nil, ← ih.1]
      exact ⟨htable, ih.2.trans hfields⟩

end Table

section Samples

/-- The project of the sample removal, with a store and no lockfile yet. -/
def sampleProject : Project CoreVersion HashIntegrity :=
  ⟨.whole removeCommand.manifest, .absent, sampleStart⟩

/-- The state after opening it. -/
def sampleState : State CoreVersion HashIntegrity :=
  ⟨{ defaultNpmrc with lockfile := true }, removeCommand.manifest, none⟩

theorem sampleProject_init :
    State.init "/project/package.json".toList sampleState.config sampleProject.manifestFile
      (.ok none) = .ok (sampleState, sampleProject.manifestFile) :=
  rfl

/-- `remove b` comes to its end. -/
theorem Session.manifest_replayed_remove :
    ∃ finish, Session "/project/package.json".toList (fun _ => .ok []) sampleProject
        [.opened, .finished removeCommand] finish ∧
      finish.manifestFile.map PackageManifest.table =
        .whole (CellEdit.applyAll (removeCommand.tableEdits.getD [])
          removeCommand.manifest.table) := by
  have hrun : (removeCommand.edited.bind fun edited =>
      (removeCommand.install edited).generateLockfile.run.toOption.bind fun lockfile =>
        (Install.installFromLockfile (removeCommand.install edited).config lockfile
            removeCommand.groups sampleSchedule sampleStart).toOption.bind fun tree =>
          (CreateBins.run (fun _ => .ok []) (removeCommand.install edited).config.modulesDir
            (removeCommand.install edited).config.virtualStoreDir tree).toOption.map fun _ =>
              ()) = some () := by decide +kernel
  obtain ⟨edited, hedited, hrun⟩ := Option.bind_eq_some_iff.mp hrun
  obtain ⟨lockfile, hlockfile, hrun⟩ := Option.bind_eq_some_iff.mp hrun
  obtain ⟨tree, htree, hrun⟩ := Option.bind_eq_some_iff.mp hrun
  obtain ⟨tree', htree', -⟩ := Option.map_eq_some_iff.mp hrun
  have hsaved : Relation.ReflTransGen (Step removeCommand fun _ => .ok [])
      (sampleProject.start removeCommand) _ :=
    ((((Relation.ReflTransGen.single (.edit rfl hedited)).tail
      (.generated rfl rfl (Results.toOption_eq_some hlockfile))).tail
      (.cutLockfile rfl)).tail (.wroteLockfile rfl))
  have hlinked := (hsaved.tail (.linked rfl (Results.toOption_eq_some htree))).tail
    (.createdBins rfl (Results.toOption_eq_some htree'))
  have hfinished := (hlinked.tail (.cutManifest rfl)).tail (.wroteManifest rfl)
  have hopened : Session "/project/package.json".toList (fun _ => .ok []) sampleProject
      [.opened] sampleProject := .tail .refl (.opened .absent sampleProject_init)
  have hsession : Session "/project/package.json".toList (fun _ => .ok []) sampleProject
      [.opened, .finished removeCommand] ⟨.whole edited, .whole lockfile, tree'⟩ :=
    .tail hopened (.finished ⟨_, _, _, .absent, sampleProject_init, rfl, rfl⟩ hfinished rfl
      ⟨rfl, rfl, rfl⟩)
  exact ⟨_, hsession, hsession.manifest_replayed.1⟩

end Samples

end Cli

end Npnpm
