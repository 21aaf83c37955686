import Npnpm.PackageManager.ManifestTable
import Npnpm.PackageManager.UpdateInPlace

/-!
# What the commands do to the table

Each command that edits the manifest is a list of edits of single cells, which can be told
before the first one is made. Adding writes cells and removing clears them. An update looks
at a cell first: it writes only where there is a specifier already.
-/

namespace Npnpm

section Definitions

abbrev TableEdit := CellEdit (DependencyGroup × Text) ManifestSpecifier

/-- Writes where the old specifier is. -/
def TableEdit.replace (cell : DependencyGroup × Text) (old new : Text) : TableEdit :=
  ⟨cell, fun value => if value = some (.string old) then some (.string new) else value⟩

/-- Writes where some specifier is. -/
def TableEdit.respecify (cell : DependencyGroup × Text) (new : Text) : TableEdit :=
  ⟨cell, fun value =>
    if (value.bind ManifestSpecifier.asStr).isSome then some (.string new) else value⟩

variable {V I : Type} [NodeSemver V] [SemverRange V]

def Add.tableEdits [BEq V] (add : Add V I) : Except AddError (List TableEdit) :=
  (add.packages.mapM add.resolveSpec).map fun specs =>
    specs.flatMap fun spec =>
      add.dependencyGroups.flatMap fun group => [.put (group, spec.1) (.string spec.2)]

omit [NodeSemver V] [SemverRange V] in
def Remove.tableEdits (remove : Remove V I) : List TableEdit :=
  remove.removals.flatMap fun removal => [.erase (removal.2, removal.1)]

def Update.tableEdits (update : Update V I) : Except UpdateError (List TableEdit) :=
  if update.latest then do
    let targets ← update.targets
    let updates ← targets.mapM update.resolveTarget
    return updates.flatMap fun e =>
      update.dependencyGroups.flatMap fun group => [.replace (group, e.1) e.2.1 e.2.2]
  else .ok (update.packages.flatMap fun package =>
    let spec := ParsedPackageSpec.parse package
    spec.specifier.toList.flatMap fun specifier =>
      update.dependencyGroups.flatMap fun group => [.respecify (group, spec.name) specifier])

def ManifestCommand.tableEdits [BEq V] : ManifestCommand V I → Option (List TableEdit)
  | .add call => call.tableEdits.toOption
  | .remove call => some call.tableEdits
  | .update call => call.tableEdits.toOption

/-- The table is edited, and nothing but dependencies is changed. -/
structure PackageManifest.TableEdited (edits : List TableEdit) (before after : PackageManifest) :
    Prop where
  table : after.table = CellEdit.applyAll edits before.table
  others : ∀ field, (∀ group : DependencyGroup, field ≠ group.field) →
    after.value.get field = before.value.get field

end Definitions

section Loops

variable {manifest manifest' : PackageManifest} {name specifier : Text} {group : DependencyGroup}

theorem PackageManifest.TableEdited.refl (manifest : PackageManifest) :
    manifest.TableEdited [] manifest :=
  ⟨rfl, fun _ _ => rfl⟩

theorem PackageManifest.TableEdited.trans {a b c : PackageManifest} {edits edits' : List TableEdit}
    (h : a.TableEdited edits b) (h' : b.TableEdited edits' c) :
    a.TableEdited (edits ++ edits') c where
  table := by rw [h'.table, h.table, CellEdit.applyAll_append]
  others field hfield := (h'.others field hfield).trans (h.others field hfield)

/-- A loop whose rounds edit the table makes the edits of the rounds one after the other. -/
theorem PackageManifest.TableEdited.foldlM {ε σ α : Type} {step : σ → α → Except ε σ}
    (manifestOf : σ → PackageManifest) {edits : α → List TableEdit}
    (hstep : ∀ s a s', step s a = .ok s' → (manifestOf s).TableEdited (edits a) (manifestOf s'))
    {l : List α} {s s' : σ} (h : l.foldlM step s = .ok s') :
    (manifestOf s).TableEdited (l.flatMap edits) (manifestOf s') := by
  induction l generalizing s with
  | nil =>
      cases h
      exact .refl _
  | cons a rest ih =>
      rw [List.foldlM_cons] at h
      obtain ⟨s₁, hs₁, hrest⟩ := Results.bind_ok h
      exact (hstep s a s₁ hs₁).trans (ih hrest)

theorem PackageManifest.EditedBy.tableEdited {edit : ManifestEdit}
    (h : manifest.EditedBy [edit] manifest') :
    manifest.TableEdited [edit.cellEdit] manifest' where
  table := h.table
  others field hfield := h.others field fun edit _ => hfield edit.group

/-- An edit that leaves its cell as it is can be left out. -/
theorem PackageManifest.tableEdited_of_fixed {edit : TableEdit}
    (h : edit.change (manifest.table edit.key) = manifest.table edit.key) :
    manifest.TableEdited [edit] manifest where
  table := by
    rw [CellEdit.applyAll_cons, CellEdit.applyAll_nil, CellEdit.apply, h]
    exact (Function.update_eq_self _ _).symm
  others _ _ := rfl

/-- An edit that looks at its cell is the writing of what it finds to write. -/
theorem PackageManifest.tableEdited_of_add {edit : TableEdit} (hkey : edit.key = (group, name))
    (h : edit.change (manifest.table edit.key) = some (.string specifier))
    (hadd : manifest.addDependency name specifier group = .ok manifest') :
    manifest.TableEdited [edit] manifest' where
  table := by
    have hput : edit.apply manifest.table =
        (CellEdit.put (group, name) (.string specifier)).apply manifest.table := by
      rw [CellEdit.apply, h, hkey]
      rfl
    exact (addDependency_editedBy hadd).tableEdited.table.trans hput.symm
  others := (addDependency_editedBy hadd).tableEdited.others

end Loops

section Commands

variable {V I : Type} [NodeSemver V] [SemverRange V] {manifest manifest' : PackageManifest}

theorem Add.edit_tableEdited [BEq V] {add : Add V I} (h : add.edit = .ok manifest') :
    ∃ edits, add.tableEdits = .ok edits ∧ add.manifest.TableEdited edits manifest' := by
  obtain ⟨specs, hspecs, hloop⟩ := Results.bind_ok h
  refine ⟨_, by rw [tableEdits, hspecs]; rfl, ?_⟩
  refine PackageManifest.TableEdited.foldlM id (fun m spec m' hround => ?_) hloop
  refine PackageManifest.TableEdited.foldlM id (fun m group m' hadd => ?_) hround
  exact (PackageManifest.addDependency_editedBy (Results.mapError_ok hadd)).tableEdited

/-- The entry of an added package is the specifier of its last mention, in every group that is
saved to. -/
theorem Add.edit_entry [BEq V] {add : Add V I} {before after : List Text}
    {package name specifier : Text} {group : DependencyGroup} (h : add.edit = .ok manifest')
    (hpackages : add.packages = before ++ package :: after)
    (hspec : add.resolveSpec package = .ok (name, specifier))
    (hlast : ∀ other ∈ after, (ParsedPackageSpec.parse other).name ≠ name)
    (hgroup : group ∈ add.dependencyGroups) :
    manifest'.entry name group = some (.string specifier) := by
  obtain ⟨edits, hedits, hedited⟩ := Add.edit_tableEdited h
  obtain ⟨specs, hspecs, rfl⟩ := Results.map_ok hedits
  rw [hpackages, List.mapM_append] at hspecs
  obtain ⟨first, -, hspecs⟩ := Results.bind_ok hspecs
  obtain ⟨rest, hrest, hspecs⟩ := Results.bind_ok hspecs
  obtain rfl := Except.ok.inj hspecs
  obtain ⟨spec, later, hfirst, hlater, rfl⟩ :=
    List.forall₂_cons_left_iff.mp ((Results.mapM_ok_iff _ _ _).mp hrest)
  obtain rfl := Except.ok.inj (hspec.symm.trans hfirst)
  have hcell : manifest'.table (group, name) = some (.string specifier) := by
    rw [hedited.table, List.flatMap_append, List.flatMap_cons, CellEdit.applyAll_append,
      CellEdit.applyAll_append, CellEdit.applyAll_of_forall_ne]
    · refine CellEdit.applyAll_of_mem ⟨.put (group, name) (.string specifier), ?_, rfl⟩ ?_
      · exact List.mem_flatMap.mpr ⟨group, hgroup, List.mem_singleton_self _⟩
      · intro edit hedit _ cell
        obtain ⟨group', -, hedit⟩ := List.mem_flatMap.mp hedit
        rw [List.mem_singleton.mp hedit]
        rfl
    · intro edit hedit heq
      obtain ⟨spec, hspec', hedit⟩ := List.mem_flatMap.mp hedit
      obtain ⟨group', -, hedit⟩ := List.mem_flatMap.mp hedit
      rw [List.mem_singleton.mp hedit] at heq
      obtain ⟨other, hother, hresolved⟩ := Results.exists_of_mem_forall₂ hlater hspec'
      exact hlast other hother
        ((Add.resolveSpec_name hresolved).symm.trans (congrArg Prod.snd heq))
  exact hcell

omit [NodeSemver V] [SemverRange V] in
theorem Remove.edit_tableEdited {remove : Remove V I} (h : remove.edit = .ok manifest') :
    remove.manifest.TableEdited remove.tableEdits manifest' := by
  rw [Remove.edit_eq] at h
  refine PackageManifest.TableEdited.foldlM id (fun m removal m' hround => ?_) h
  obtain ⟨_, hremove⟩ := Remove.step_ok hround
  exact (PackageManifest.removeDependency_editedBy hremove).tableEdited

omit [NodeSemver V] [SemverRange V] in
/-- One new specifier is written where the old one is. -/
theorem applyUpdate_tableEdited {update : Text × Text × Text} {groups : List DependencyGroup}
    (h : applyUpdate groups manifest update = .ok manifest') :
    manifest.TableEdited
      (groups.flatMap fun group => [.replace (group, update.1) update.2.1 update.2.2])
      manifest' := by
  refine PackageManifest.TableEdited.foldlM id (fun m group m' hround => ?_) h
  split at hround
  · rename_i hold
    rw [PackageManifest.dependencyVersion_eq_some_iff] at hold
    exact PackageManifest.tableEdited_of_add rfl (if_pos hold) (Results.mapError_ok hround)
  · rename_i hold
    rw [PackageManifest.dependencyVersion_eq_some_iff] at hold
    cases hround
    exact PackageManifest.tableEdited_of_fixed (if_neg hold)

omit [NodeSemver V] [SemverRange V] in
/-- The specifier of one package is written where the package has one. -/
theorem updatePackage_tableEdited {groups : List DependencyGroup} {package : Text}
    (h : updatePackage groups manifest package = .ok manifest') :
    manifest.TableEdited
      ((ParsedPackageSpec.parse package).specifier.toList.flatMap fun specifier =>
        groups.flatMap fun group =>
          [.respecify (group, (ParsedPackageSpec.parse package).name) specifier]) manifest' := by
  unfold updatePackage at h
  cases hspecifier : (ParsedPackageSpec.parse package).specifier with
  | none =>
      simp only [hspecifier] at h
      cases h
      exact .refl _
  | some specifier =>
      simp only [hspecifier] at h
      obtain ⟨⟨m, updated⟩, hloop, hlast⟩ := Results.bind_ok h
      obtain rfl : m = manifest' := by
        dsimp only at hlast
        split at hlast
        · cases hlast
          rfl
        · cases hlast
      rw [Option.toList_some, List.flatMap_singleton]
      refine PackageManifest.TableEdited.foldlM Prod.fst
        (fun (s : PackageManifest × Bool) group s' hround => ?_) hloop
      split at hround
      · rename_i hnone
        cases hround
        exact PackageManifest.tableEdited_of_fixed
          (if_neg (by rwa [Option.not_isSome_iff_eq_none, ← Option.isNone_iff_eq_none]))
      · rename_i hsome
        obtain ⟨_, hadd, rfl⟩ := Results.map_ok (Results.mapError_ok hround)
        exact PackageManifest.tableEdited_of_add rfl (if_pos (Option.isSome_iff_ne_none.mpr
          fun hnone => hsome (Option.isNone_iff_eq_none.mpr hnone))) hadd

theorem Update.edit_tableEdited {update : Update V I} (h : update.edit = .ok manifest') :
    ∃ edits, update.tableEdits = .ok edits ∧ update.manifest.TableEdited edits manifest' := by
  unfold Update.edit at h
  unfold Update.tableEdits
  split at h
  · rename_i hlatest
    rw [Update.editLatest_eq] at h
    obtain ⟨targets, htargets, h⟩ := Results.bind_ok h
    obtain ⟨updates, hupdates, hloop⟩ := Results.bind_ok h
    refine ⟨_, (if_pos hlatest).trans (Results.ok_bind htargets (Results.ok_bind hupdates rfl)), ?_⟩
    exact PackageManifest.TableEdited.foldlM id
      (fun _ _ _ hround => applyUpdate_tableEdited hround) hloop
  · rename_i hlatest
    refine ⟨_, if_neg hlatest, ?_⟩
    split at h
    · rename_i hnone
      cases h
      rw [List.isEmpty_iff.mp hnone]
      exact .refl _
    · obtain ⟨_, -, hloop⟩ := Results.bind_ok h
      exact PackageManifest.TableEdited.foldlM id
        (fun _ _ _ hround => updatePackage_tableEdited hround) hloop

/-- What a command leaves of the manifest is told by its edits of the table. -/
theorem ManifestCommand.edited_tableEdited [BEq V] {command : ManifestCommand V I}
    (h : command.edited = some manifest') :
    ∃ edits, command.tableEdits = some edits ∧ command.manifest.TableEdited edits manifest' := by
  cases command with
  | add add =>
      obtain ⟨edits, hedits, hmanifest⟩ := Add.edit_tableEdited (Results.toOption_eq_some h)
      exact ⟨edits, by rw [tableEdits, hedits]; rfl, hmanifest⟩
  | remove remove =>
      exact ⟨_, rfl, Remove.edit_tableEdited (Results.toOption_eq_some h)⟩
  | update update =>
      obtain ⟨edits, hedits, hmanifest⟩ := Update.edit_tableEdited (Results.toOption_eq_some h)
      exact ⟨edits, by rw [tableEdits, hedits]; rfl, hmanifest⟩

end Commands

end Npnpm
