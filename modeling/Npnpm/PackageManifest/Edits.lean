import Npnpm.Library.SwapRemove
import Npnpm.PackageManifest.Dependencies

/-!
# Edits of a manifest

Removing dependencies from the manifest, and reading single entries of it.

## Implementation notes

`remove` of an object of `serde_json` is a `swap_remove`: the last entry takes the place
of the removed one.
-/

namespace Npnpm

def PackageManifest.dependencyVersion (manifest : PackageManifest) (name : Text)
    (group : DependencyGroup) : Option Text :=
  (((manifest.value.get group.field).bind ManifestField.asObject).bind (·.get name)).bind
    ManifestSpecifier.asStr

def PackageManifest.dependencyEntries (manifest : PackageManifest)
    (groups : List DependencyGroup) : List (DependencyGroup × Text × Text) :=
  groups.flatMap fun group => (manifest.groupDependencies group).map fun e => (group, e.1, e.2)

/-- A field that becomes empty is removed as well. -/
def PackageManifest.removeDependency (manifest : PackageManifest) (name : Text)
    (group : DependencyGroup) : Except PackageManifestError (PackageManifest × Bool) :=
  match manifest.value with
  | .object root =>
      match root.get group.field with
      | none => .ok (manifest, false)
      | some (.object dependencies) =>
          let removed := (dependencies.get name).isSome
          let dependencies := dependencies.swapRemove name
          if dependencies.isEmpty then
            .ok (⟨.object (root.swapRemove group.field)⟩, removed)
          else .ok (⟨.object (root.insert group.field (.object dependencies))⟩, removed)
      | some _ =>
          .error (.invalidAttribute "dependencies attribute should be an object".toList)
  | _ => .error (.invalidAttribute "package manifest root should be an object".toList)

/-- The manifest has the package in a group, with a specifier that is a string. -/
def PackageManifest.Lists (manifest : PackageManifest) (name : Text) (group : DependencyGroup) :
    Prop :=
  ∃ specifier, (name, specifier) ∈ manifest.groupDependencies group

theorem PackageManifest.mem_groupDependencies {manifest : PackageManifest} {name specifier : Text}
    {group : DependencyGroup} :
    (name, specifier) ∈ manifest.groupDependencies group ↔
      ∃ dependencies, manifest.value.get group.field = some (.object dependencies) ∧
        dependencies.get name = some (.string specifier) := by
  unfold PackageManifest.groupDependencies
  cases hfield : manifest.value.get group.field with
  | none => simp
  | some field =>
      cases field with
      | string | other => simp [ManifestField.asObject]
      | object dependencies =>
          simp only [Option.bind_some, ManifestField.asObject, List.mem_filterMap,
            Option.some.injEq, ManifestField.object.injEq, exists_eq_left',
            KeyedMap.get_eq_some_iff]
          constructor
          · rintro ⟨e, he, hspecifier⟩
            obtain ⟨s, hs, heq⟩ := Option.map_eq_some_iff.mp hspecifier
            cases heq
            obtain ⟨key, value⟩ := e
            cases value with
            | other => cases hs
            | string _ =>
                cases hs
                exact he
          · intro hmem
            exact ⟨_, hmem, rfl⟩

theorem DependencyGroup.field_injective {group group' : DependencyGroup}
    (h : group.field = group'.field) : group = group' := by
  cases group <;> cases group' <;> first | rfl | exact absurd h (by decide)

theorem PackageManifest.get_setField {manifest manifest' : PackageManifest} {field : Text}
    {value : ManifestField} (h : manifest.setField field value = .ok manifest') (other : Text) :
    manifest'.value.get other = if other = field then some value else manifest.value.get other := by
  obtain ⟨root⟩ := manifest
  cases root with
  | object fields =>
      cases h
      exact KeyedMap.get_insert_eq_ite fields field value other
  | null =>
      cases h
      exact KeyedMap.get_insert_eq_ite .empty field value other
  | other => cases h

/-- The package is added to what the group had. -/
theorem PackageManifest.addDependency_ok {manifest manifest' : PackageManifest}
    {name version : Text} {group : DependencyGroup}
    (h : manifest.addDependency name version group = .ok manifest') :
    ∃ before : KeyedMap Text ManifestSpecifier,
      (manifest.value.get group.field = some (.object before) ∨
        manifest.value.get group.field = none ∧ before = .empty) ∧
      ∀ field, manifest'.value.get field =
        if field = group.field then some (.object (before.insert name (.string version)))
        else manifest.value.get field := by
  unfold PackageManifest.addDependency at h
  split at h
  · rename_i dependencies hfield
    exact ⟨dependencies, Or.inl hfield, PackageManifest.get_setField h⟩
  · cases h
  · rename_i hfield
    exact ⟨.empty, Or.inr ⟨hfield, rfl⟩, PackageManifest.get_setField h⟩

/-- An edit that adds a package lists it in the group, and changes nothing else of what
is listed. -/
theorem PackageManifest.addDependency_lists {manifest manifest' : PackageManifest}
    {name version : Text} {group : DependencyGroup}
    (h : manifest.addDependency name version group = .ok manifest') (other : Text)
    (group' : DependencyGroup) :
    manifest'.Lists other group' ↔
      manifest.Lists other group' ∨ other = name ∧ group' = group := by
  obtain ⟨before, hbefore, hget⟩ := PackageManifest.addDependency_ok h
  simp only [PackageManifest.Lists, PackageManifest.mem_groupDependencies, hget]
  by_cases hgroup : group' = group
  · subst hgroup
    have hold : (∃ specifier, ∃ dependencies,
        manifest.value.get group'.field = some (.object dependencies) ∧
          dependencies.get other = some (.string specifier)) ↔
        ∃ specifier, before.get other = some (.string specifier) := by
      rcases hbefore with hfield | ⟨hfield, rfl⟩
      · simp [hfield]
      · simp [hfield, KeyedMap.get]
    simp only [if_true, Option.some.injEq, ManifestField.object.injEq, exists_eq_left',
      and_true, hold, KeyedMap.get_insert_eq_ite]
    by_cases hname : other = name
    · simp [hname]
    · simp [hname]
  · have hfield : group'.field ≠ group.field := fun heq =>
      hgroup (DependencyGroup.field_injective heq)
    simp [hfield, hgroup]

end Npnpm
