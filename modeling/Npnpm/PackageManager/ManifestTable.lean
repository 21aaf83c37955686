import Npnpm.Library.CellEdits
import Npnpm.PackageManager.RemoveOrder

/-!
# The manifest as a table

For those who edit it, `package.json` is a table: by group and name it has a specifier.
Adding writes a cell and removing clears one, over any number of edits. The fields and
objects that carry the table come and go with it.
-/

namespace Npnpm

section Definitions

/-- The dependencies of a manifest, by group and name. -/
def PackageManifest.table (manifest : PackageManifest) (cell : DependencyGroup × Text) :
    Option ManifestSpecifier :=
  manifest.entry cell.2 cell.1

inductive ManifestEdit
  | add (name version : Text) (group : DependencyGroup)
  | remove (name : Text) (group : DependencyGroup)
deriving DecidableEq

namespace ManifestEdit

def group : ManifestEdit → DependencyGroup
  | .add _ _ group => group
  | .remove _ group => group

/-- What the edit does to the manifest. -/
def apply (edit : ManifestEdit) (manifest : PackageManifest) :
    Except PackageManifestError PackageManifest :=
  match edit with
  | .add name version group => manifest.addDependency name version group
  | .remove name group => (manifest.removeDependency name group).map Prod.fst

/-- What the edit does to the table. -/
def cellEdit : ManifestEdit → CellEdit (DependencyGroup × Text) ManifestSpecifier
  | .add name version group => .put (group, name) (.string version)
  | .remove name group => .erase (group, name)

end ManifestEdit

def PackageManifest.applyEdits (manifest : PackageManifest) (edits : List ManifestEdit) :
    Except PackageManifestError PackageManifest :=
  edits.foldlM (fun manifest edit => edit.apply manifest) manifest

/-- The document is an object, or it is null and the edit makes it one. -/
def ManifestRoot.takes (root : ManifestRoot) (edit : ManifestEdit) : Bool :=
  match root, edit with
  | .object _, _ => true
  | .null, .add .. => true
  | _, _ => false

/-- The group is absent, or it is an object. -/
def ManifestRoot.holdsGroup (root : ManifestRoot) (group : DependencyGroup) : Bool :=
  match root.get group.field with
  | none => true
  | some field => field.asObject.isSome

/-- The edits that succeed, told from the document before the first one. -/
def PackageManifest.accepts (manifest : PackageManifest) (edits : List ManifestEdit) : Bool :=
  edits.head?.all manifest.value.takes &&
    edits.all fun edit => manifest.value.holdsGroup edit.group

/-- A manifest after some edits: its table is edited like that, the fields of other groups
are as they were, and a group that was edited is there when something is in it. -/
structure PackageManifest.EditedBy (edits : List ManifestEdit)
    (before after : PackageManifest) : Prop where
  table : after.table = CellEdit.applyAll (edits.map ManifestEdit.cellEdit) before.table
  others : ∀ field, (∀ edit ∈ edits, field ≠ edit.group.field) →
    after.value.get field = before.value.get field
  groups : ∀ edit ∈ edits, ∀ field, after.value.get edit.group.field = some field →
    ∃ entries, field = .object entries ∧ entries.entries ≠ []
  root : edits = [] ∧ after = before ∨ ∃ fields, after.value = .object fields

end Definitions

section Step

variable {manifest manifest' : PackageManifest} {edit : ManifestEdit} {name version : Text}
  {group : DependencyGroup}

theorem PackageManifest.table_of_get {entries : KeyedMap Text ManifestSpecifier}
    (h : manifest.value.get group.field = some (.object entries)) (name : Text) :
    manifest.table (group, name) = entries.get name :=
  entry_of_get h

theorem PackageManifest.table_of_get_none (h : manifest.value.get group.field = none)
    (name : Text) : manifest.table (group, name) = none := by
  simp [table, entry, h]

/-- Adding a dependency writes one cell. -/
theorem PackageManifest.addDependency_editedBy
    (h : manifest.addDependency name version group = .ok manifest') :
    manifest.EditedBy [.add name version group] manifest' := by
  obtain ⟨before, hbefore, hget⟩ := addDependency_ok h
  have hafter : manifest'.value.get group.field =
      some (.object (before.insert name (.string version))) := by rw [hget, if_pos rfl]
  have hold : ∀ other, manifest.table (group, other) = before.get other := by
    intro other
    rcases hbefore with hfield | ⟨hfield, rfl⟩
    · exact table_of_get hfield other
    · exact table_of_get_none hfield other
  refine ⟨funext ?_, fun field hfield => ?_, fun edit hedit field hfield => ?_, Or.inr ?_⟩
  · rintro ⟨group', other⟩
    rw [List.map_singleton, CellEdit.applyAll_cons, CellEdit.applyAll_nil, ManifestEdit.cellEdit,
      CellEdit.apply_put]
    split
    · rename_i hcell
      cases hcell
      rw [table_of_get hafter, KeyedMap.get_insert_eq_ite, if_pos rfl]
    · rename_i hcell
      by_cases hgroup : group' = group
      · subst hgroup
        have hname : other ≠ name := fun heq => hcell (by rw [heq])
        rw [table_of_get hafter, KeyedMap.get_insert_eq_ite, if_neg hname, hold]
      · apply entry_congr
        rw [hget, if_neg fun heq => hgroup (DependencyGroup.field_injective heq)]
  · exact (hget field).trans (if_neg (hfield _ (List.mem_singleton_self _)))
  · cases List.mem_singleton.mp hedit
    have heq := hafter.symm.trans hfield
    cases heq
    refine ⟨_, rfl, fun hnil => ?_⟩
    have hname : (before.insert name (.string version)).get name = some (.string version) := by
      rw [KeyedMap.get_insert_eq_ite, if_pos rfl]
    rw [KeyedMap.get_eq_some_iff, hnil] at hname
    cases hname
  · cases hvalue : manifest'.value with
    | object fields => exact ⟨fields, rfl⟩
    | null | other => simp [hvalue, ManifestRoot.get] at hafter

/-- Removing a dependency clears one cell, and drops the group when it was the last one. -/
theorem PackageManifest.removeDependency_editedBy {removed : Bool}
    (h : manifest.removeDependency name group = .ok (manifest', removed)) :
    manifest.EditedBy [.remove name group] manifest' := by
  have hwithout := removeDependency_without h
  refine ⟨funext ?_, fun field hfield => ?_, fun edit hedit field hfield => ?_, Or.inr ?_⟩
  · rintro ⟨group', other⟩
    rw [List.map_singleton, CellEdit.applyAll_cons, CellEdit.applyAll_nil, ManifestEdit.cellEdit,
      CellEdit.apply_erase]
    split
    · rename_i hcell
      cases hcell
      exact hwithout.gone name group (List.mem_singleton_self _)
    · rename_i hcell
      refine hwithout.kept other group' fun hmem => hcell ?_
      cases List.mem_singleton.mp hmem
      rfl
  · apply hwithout.fields
    intro e he
    cases List.mem_singleton.mp he
    exact hfield _ (List.mem_singleton_self _)
  · cases List.mem_singleton.mp hedit
    obtain ⟨root, hroot, ⟨hnone, rfl⟩ | ⟨dependencies, -, hvalue⟩⟩ := removeDependency_ok h
    · rw [hroot, ManifestRoot.get, ManifestEdit.group, hnone] at hfield
      cases hfield
    · rw [hvalue, ManifestRoot.get, ManifestEdit.group] at hfield
      split at hfield
      · rw [KeyedMap.get_swapRemove, if_pos rfl] at hfield
        cases hfield
      · rename_i hempty
        rw [KeyedMap.get_insert_eq_ite, if_pos rfl] at hfield
        cases hfield
        exact ⟨_, rfl, by simpa [KeyedMap.isEmpty] using hempty⟩
  · obtain ⟨root, hroot, ⟨-, rfl⟩ | ⟨_, -, hvalue⟩⟩ := removeDependency_ok h
    · exact ⟨root, hroot⟩
    · exact ⟨_, hvalue⟩

theorem ManifestEdit.apply_editedBy (h : edit.apply manifest = .ok manifest') :
    manifest.EditedBy [edit] manifest' := by
  cases edit with
  | add name version group => exact PackageManifest.addDependency_editedBy h
  | remove name group =>
      obtain ⟨⟨_, removed⟩, hremove, rfl⟩ := Results.map_ok h
      exact PackageManifest.removeDependency_editedBy hremove

/-- The document decides whether an edit succeeds. -/
theorem ManifestEdit.exists_apply_iff (edit : ManifestEdit) (manifest : PackageManifest) :
    (∃ manifest', edit.apply manifest = .ok manifest') ↔
      manifest.value.takes edit = true ∧ manifest.value.holdsGroup edit.group = true := by
  obtain ⟨root⟩ := manifest
  cases edit with
  | add name version group =>
      cases root with
      | null => simp [apply, PackageManifest.addDependency, ManifestRoot.get,
          PackageManifest.setField, ManifestRoot.takes, ManifestRoot.holdsGroup]
      | other json => simp [apply, PackageManifest.addDependency, ManifestRoot.get,
          PackageManifest.setField, ManifestRoot.takes]
      | object fields =>
          cases hfield : fields.get group.field with
          | none => simp [apply, PackageManifest.addDependency, ManifestRoot.get,
              PackageManifest.setField, ManifestRoot.takes, ManifestRoot.holdsGroup, hfield,
              ManifestEdit.group]
          | some field =>
              cases field <;> simp [apply, PackageManifest.addDependency, ManifestRoot.get,
                PackageManifest.setField, ManifestRoot.takes, ManifestRoot.holdsGroup, hfield,
                ManifestEdit.group, ManifestField.asObject]
  | remove name group =>
      cases root with
      | null => simp [apply, PackageManifest.removeDependency, ManifestRoot.takes, Except.map]
      | other json => simp [apply, PackageManifest.removeDependency, ManifestRoot.takes, Except.map]
      | object fields =>
          cases hfield : fields.get group.field with
          | none => simp [apply, PackageManifest.removeDependency, ManifestRoot.get,
              ManifestRoot.takes, ManifestRoot.holdsGroup, hfield, ManifestEdit.group, Except.map]
          | some field =>
              cases field with
              | string text => simp [apply, PackageManifest.removeDependency, ManifestRoot.get,
                  ManifestRoot.takes, ManifestRoot.holdsGroup, hfield, ManifestEdit.group,
                  ManifestField.asObject, Except.map]
              | other json => simp [apply, PackageManifest.removeDependency, ManifestRoot.get,
                  ManifestRoot.takes, ManifestRoot.holdsGroup, hfield, ManifestEdit.group,
                  ManifestField.asObject, Except.map]
              | object dependencies =>
                  have hholds : (ManifestRoot.object fields).holdsGroup group = true := by
                    simp [ManifestRoot.holdsGroup, ManifestRoot.get, hfield,
                      ManifestField.asObject]
                  refine iff_of_true ?_ ⟨rfl, hholds⟩
                  simp only [apply, PackageManifest.removeDependency, hfield]
                  split
                  · exact ⟨_, rfl⟩
                  · exact ⟨_, rfl⟩

end Step

section Run

variable {manifest manifest' : PackageManifest} {edits edits' : List ManifestEdit}

theorem PackageManifest.EditedBy.refl (manifest : PackageManifest) :
    manifest.EditedBy [] manifest where
  table := rfl
  others _ _ := rfl
  groups _ h := absurd h List.not_mem_nil
  root := Or.inl ⟨rfl, rfl⟩

theorem PackageManifest.EditedBy.trans {a b c : PackageManifest} (h : a.EditedBy edits b)
    (h' : b.EditedBy edits' c) : a.EditedBy (edits ++ edits') c where
  table := by rw [h'.table, h.table, List.map_append, CellEdit.applyAll_append]
  others field hfield := by
    rw [h'.others field fun edit hmem => hfield edit (List.mem_append_right _ hmem),
      h.others field fun edit hmem => hfield edit (List.mem_append_left _ hmem)]
  groups edit hmem field hfield := by
    by_cases hlater : ∃ edit' ∈ edits', edit.group.field = edit'.group.field
    · obtain ⟨edit', hmem', heq⟩ := hlater
      exact h'.groups edit' hmem' field (heq ▸ hfield)
    · rw [h'.others _ fun edit' hmem' heq => hlater ⟨edit', hmem', heq⟩] at hfield
      rcases List.mem_append.mp hmem with hmem | hmem
      · exact h.groups edit hmem field hfield
      · exact absurd ⟨edit, hmem, rfl⟩ hlater
  root := by
    rcases h'.root with ⟨rfl, rfl⟩ | hroot
    · rcases h.root with ⟨rfl, rfl⟩ | hroot
      · exact Or.inl ⟨rfl, rfl⟩
      · exact Or.inr hroot
    · exact Or.inr hroot

/-- An edit of one group leaves the others as good or bad for edits as they were. -/
theorem PackageManifest.EditedBy.holdsGroup {edit : ManifestEdit}
    (h : manifest.EditedBy [edit] manifest') (hedit : manifest.value.holdsGroup edit.group = true)
    (group : DependencyGroup) :
    manifest'.value.holdsGroup group = manifest.value.holdsGroup group := by
  by_cases hgroup : group = edit.group
  · subst hgroup
    rw [hedit, ManifestRoot.holdsGroup]
    split
    · rfl
    · rename_i field hfield
      obtain ⟨entries, rfl, -⟩ := h.groups edit (List.mem_singleton_self _) field hfield
      rfl
  · have hother : manifest'.value.get group.field = manifest.value.get group.field := by
      apply h.others
      intro edit' hmem heq
      cases List.mem_singleton.mp hmem
      exact hgroup (DependencyGroup.field_injective heq)
    rw [ManifestRoot.holdsGroup, ManifestRoot.holdsGroup, hother]

/-- After an edit the document takes every further one. -/
theorem PackageManifest.EditedBy.takes {edit : ManifestEdit}
    (h : manifest.EditedBy [edit] manifest') (edit' : ManifestEdit) :
    manifest'.value.takes edit' = true := by
  rcases h.root with ⟨hnil, -⟩ | ⟨fields, hroot⟩
  · cases hnil
  · rw [hroot]
    rfl

theorem PackageManifest.applyEdits_editedBy (h : manifest.applyEdits edits = .ok manifest') :
    manifest.EditedBy edits manifest' := by
  induction edits generalizing manifest with
  | nil =>
      cases h
      exact .refl _
  | cons edit rest ih =>
      rw [applyEdits, List.foldlM_cons] at h
      obtain ⟨manifest₁, hstep, hrest⟩ := Results.bind_ok h
      exact (ManifestEdit.apply_editedBy hstep).trans (ih hrest)

theorem PackageManifest.exists_applyEdits_iff (manifest : PackageManifest)
    (edits : List ManifestEdit) :
    (∃ manifest', manifest.applyEdits edits = .ok manifest') ↔ manifest.accepts edits = true := by
  induction edits generalizing manifest with
  | nil => exact iff_of_true ⟨manifest, rfl⟩ rfl
  | cons edit rest ih =>
      have hcons : manifest.accepts (edit :: rest) = true ↔
          (manifest.value.takes edit = true ∧ manifest.value.holdsGroup edit.group = true) ∧
            ∀ edit' ∈ rest, manifest.value.holdsGroup edit'.group = true := by
        simp [accepts, and_assoc]
      rw [hcons, ← ManifestEdit.exists_apply_iff]
      -- what comes after the first edit is decided by the groups alone
      have hrest : ∀ manifest₁, edit.apply manifest = .ok manifest₁ →
          (manifest₁.accepts rest = true ↔
            ∀ edit' ∈ rest, manifest.value.holdsGroup edit'.group = true) := by
        intro manifest₁ hstep
        have hedited := ManifestEdit.apply_editedBy hstep
        have hedit := ((ManifestEdit.exists_apply_iff edit manifest).mp ⟨_, hstep⟩).2
        have htakes : rest.head?.all manifest₁.value.takes = true := by
          cases rest with
          | nil => rfl
          | cons edit' _ => exact hedited.takes edit'
        rw [accepts, htakes, Bool.true_and, List.all_eq_true]
        simp only [hedited.holdsGroup hedit]
      constructor
      · rintro ⟨manifest', h⟩
        rw [applyEdits, List.foldlM_cons] at h
        obtain ⟨manifest₁, hstep, hlater⟩ := Results.bind_ok h
        exact ⟨⟨manifest₁, hstep⟩, (hrest _ hstep).mp ((ih manifest₁).mp ⟨manifest', hlater⟩)⟩
      · rintro ⟨⟨manifest₁, hstep⟩, hgroups⟩
        obtain ⟨manifest', hlater⟩ := (ih manifest₁).mpr ((hrest _ hstep).mpr hgroups)
        refine ⟨manifest', ?_⟩
        rw [applyEdits, List.foldlM_cons, hstep]
        exact hlater

/-- The manifest refines the table: the document decides before the first edit whether all
of them succeed, and when they do, the table is the one with the cells edited in turn. -/
theorem PackageManifest.applyEdits_refines (manifest : PackageManifest)
    (edits : List ManifestEdit) :
    ((∃ manifest', manifest.applyEdits edits = .ok manifest') ↔ manifest.accepts edits = true) ∧
      ∀ manifest', manifest.applyEdits edits = .ok manifest' →
        manifest.EditedBy edits manifest' :=
  ⟨manifest.exists_applyEdits_iff edits, fun _ h => applyEdits_editedBy h⟩

/-- A document that is null takes an entry, which is removed again, and another one. A document
whose second group is no object takes not even the first entry. -/
theorem PackageManifest.applyEdits_refines_null :
    (∃ manifest', PackageManifest.applyEdits ⟨.null⟩ [.add "a".toList "1.0.0".toList .prod,
        .remove "a".toList .prod, .add "b".toList "2.0.0".toList .dev] = .ok manifest' ∧
      manifest'.table (.prod, "a".toList) = none ∧
      manifest'.table (.dev, "b".toList) = some (.string "2.0.0".toList)) ∧
    ¬∃ manifest', PackageManifest.applyEdits
      ⟨.object (.ofList [("devDependencies".toList, .string "none".toList)])⟩
      [.add "a".toList "1.0.0".toList .prod, .add "b".toList "2.0.0".toList .dev] =
        .ok manifest' := by
  constructor
  · obtain ⟨hok, hedited⟩ := PackageManifest.applyEdits_refines ⟨.null⟩
      [.add "a".toList "1.0.0".toList .prod, .remove "a".toList .prod,
        .add "b".toList "2.0.0".toList .dev]
    obtain ⟨manifest', hmanifest⟩ := hok.mpr rfl
    have htable := (hedited manifest' hmanifest).table
    refine ⟨manifest', hmanifest, ?_, ?_⟩
    · rw [htable]
      rfl
    · rw [htable]
      rfl
  · intro hok
    have haccepts := (PackageManifest.applyEdits_refines _ _).1.mp hok
    cases haccepts

end Run

end Npnpm
