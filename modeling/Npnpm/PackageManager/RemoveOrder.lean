import Npnpm.PackageManager.ManifestCommands
import Npnpm.PackageManifest.EntryOrder

/-!
# The order of the manifest after a removal

`Remove` takes names out of groups one by one. What is left is what was there, but in
its old order only when no removal has to move the last entry.
-/

namespace Npnpm

section Step

variable {manifest manifest' : PackageManifest} {name : Text} {group : DependencyGroup}
  {removed : Bool}

/-- A manifest without some entries: all other entries, and all fields of other groups,
are as they were. -/
structure PackageManifest.Without (removed : List (Text × DependencyGroup))
    (before after : PackageManifest) : Prop where
  gone : ∀ name group, (name, group) ∈ removed → after.entry name group = none
  kept : ∀ name group, (name, group) ∉ removed → after.entry name group = before.entry name group
  fields : ∀ field, (∀ e ∈ removed, field ≠ e.2.field) →
    after.value.get field = before.value.get field

theorem PackageManifest.Without.refl (manifest : PackageManifest) :
    manifest.Without [] manifest :=
  ⟨fun _ _ h => absurd h List.not_mem_nil, fun _ _ _ => rfl, fun _ _ => rfl⟩

theorem PackageManifest.Without.trans {a b c : PackageManifest}
    {removed removed' : List (Text × DependencyGroup)} (h : a.Without removed b)
    (h' : b.Without removed' c) : a.Without (removed ++ removed') c where
  gone name group hmem := by
    by_cases hlast : (name, group) ∈ removed'
    · exact h'.gone name group hlast
    · rw [h'.kept name group hlast]
      exact h.gone name group ((List.mem_append.mp hmem).resolve_right hlast)
  kept name group hnot := by
    rw [List.mem_append, not_or] at hnot
    rw [h'.kept name group hnot.2, h.kept name group hnot.1]
  fields field hfield := by
    rw [h'.fields field fun e he => hfield e (List.mem_append_right _ he),
      h.fields field fun e he => hfield e (List.mem_append_left _ he)]

/-- The entries of a manifest whose group is replaced. -/
theorem PackageManifest.entry_of_get {dependencies : KeyedMap Text ManifestSpecifier}
    (hgroup : manifest.value.get group.field = some (.object dependencies)) :
    manifest.entry name group = dependencies.get name := by
  simp [entry, hgroup, ManifestField.asObject]

theorem PackageManifest.entry_congr {other : Text} {group' : DependencyGroup}
    (h : manifest'.value.get group'.field = manifest.value.get group'.field) :
    manifest'.entry other group' = manifest.entry other group' := by
  rw [entry, entry, h]

/-- One removal takes out one entry. -/
theorem PackageManifest.removeDependency_without
    (h : manifest.removeDependency name group = .ok (manifest', removed)) :
    manifest.Without [(name, group)] manifest' := by
  obtain ⟨root, hroot, ⟨hnone, rfl⟩ | ⟨dependencies, hfield, hvalue⟩⟩ :=
    PackageManifest.removeDependency_ok h
  · refine ⟨fun other group' hmem => ?_, fun _ _ _ => rfl, fun _ _ => rfl⟩
    cases List.mem_singleton.mp hmem
    simp [entry, hroot, ManifestRoot.get, hnone]
  · have hbefore : manifest.value.get group.field = some (.object dependencies) := by
      rw [hroot]
      exact hfield
    have hother : ∀ field, field ≠ group.field →
        manifest'.value.get field = manifest.value.get field := by
      intro field hne
      rw [hvalue, hroot]
      split
      · exact KeyedMap.get_swapRemove.trans (if_neg hne)
      · exact (KeyedMap.get_insert_eq_ite root _ _ field).trans (if_neg hne)
    have hentry : ∀ other,
        manifest'.entry other group = (dependencies.swapRemove name).get other := by
      intro other
      split at hvalue
      · rename_i hempty
        rw [KeyedMap.isEmpty, List.isEmpty_iff] at hempty
        have hgone : (ManifestRoot.object (root.swapRemove group.field)).get group.field = none :=
          KeyedMap.get_swapRemove.trans (if_pos rfl)
        rw [entry, hvalue, hgone]
        simp [KeyedMap.get, hempty]
      · apply entry_of_get
        rw [hvalue]
        exact (KeyedMap.get_insert_eq_ite root _ _ _).trans (if_pos rfl)
    refine ⟨fun other group' hmem => ?_, fun other group' hnot => ?_, fun field hfield => ?_⟩
    · cases List.mem_singleton.mp hmem
      rw [hentry, KeyedMap.get_swapRemove, if_pos rfl]
    · by_cases hgroup : group' = group
      · subst hgroup
        have hne : other ≠ name := by
          rintro rfl
          exact hnot (List.mem_singleton_self _)
        rw [hentry, KeyedMap.get_swapRemove, if_neg hne, entry_of_get hbefore]
      · exact entry_congr (hother _ fun heq => hgroup (DependencyGroup.field_injective heq))
    · exact hother field (hfield _ (List.mem_singleton_self _))

end Step

section Run

variable {V I : Type}

/-- One round of the loops. -/
def Remove.step (manifest : PackageManifest) (removal : Text × DependencyGroup) :
    Except RemoveError PackageManifest :=
  ((manifest.removeDependency removal.1 removal.2).map Prod.fst).mapError
    .removeDependencyFromManifest

/-- The rounds of the loops: every package in every group. -/
def Remove.removals (remove : Remove V I) : List (Text × DependencyGroup) :=
  remove.packages.flatMap fun package => remove.dependencyGroups.map fun group => (package, group)

theorem Remove.edit_eq (remove : Remove V I) :
    remove.edit = remove.removals.foldlM Remove.step remove.manifest := by
  obtain ⟨config, manifest, groups, packages, registry, resolved⟩ := remove
  simp only [edit, removals]
  induction packages generalizing manifest with
  | nil => rfl
  | cons package rest ih =>
      rw [List.flatMap_cons, List.foldlM_append, List.foldlM_cons, List.foldlM_map]
      exact bind_congr fun manifest' => ih manifest'

theorem Remove.step_ok {manifest manifest' : PackageManifest}
    {removal : Text × DependencyGroup} (h : Remove.step manifest removal = .ok manifest') :
    ∃ removed, manifest.removeDependency removal.1 removal.2 = .ok (manifest', removed) := by
  obtain ⟨⟨_, removed⟩, hremove, rfl⟩ := Results.map_ok (Results.mapError_ok h)
  exact ⟨removed, hremove⟩

theorem Remove.without_of_steps {removals : List (Text × DependencyGroup)}
    {manifest manifest' : PackageManifest}
    (h : removals.foldlM Remove.step manifest = .ok manifest') :
    manifest.Without removals manifest' := by
  induction removals generalizing manifest with
  | nil =>
      cases h
      exact .refl _
  | cons removal rest ih =>
      rw [List.foldlM_cons] at h
      obtain ⟨manifest₁, hstep, hrest⟩ := Results.bind_ok h
      obtain ⟨removed, hremove⟩ := Remove.step_ok hstep
      exact (PackageManifest.removeDependency_without hremove).trans (ih hrest)

/-- Every removal of the run takes out one of the last two entries. -/
def Remove.NearEnd (removals : List (Text × DependencyGroup)) (start : PackageManifest) : Prop :=
  ∀ before removal after manifest, removals = before ++ removal :: after →
    before.foldlM Remove.step start = .ok manifest →
    manifest.removesNearEnd removal.1 removal.2 = true

theorem Remove.keepsOrder_of_steps {removals : List (Text × DependencyGroup)}
    {manifest manifest' : PackageManifest}
    (h : removals.foldlM Remove.step manifest = .ok manifest')
    (hnear : Remove.NearEnd removals manifest) : manifest.KeepsOrder manifest' := by
  induction removals generalizing manifest with
  | nil =>
      cases h
      exact .refl _
  | cons removal rest ih =>
      rw [List.foldlM_cons] at h
      obtain ⟨manifest₁, hstep, hrest⟩ := Results.bind_ok h
      obtain ⟨removed, hremove⟩ := Remove.step_ok hstep
      have hfirst := (PackageManifest.removeDependency_keepsOrder_iff hremove).mpr
        (hnear [] removal rest manifest rfl rfl)
      refine hfirst.trans (ih hrest fun before removal' after m hsplit hbefore => ?_)
      apply hnear (removal :: before) removal' after m (by rw [hsplit]; rfl)
      rw [List.foldlM_cons, hstep]
      exact hbefore

/-- A removal keeps the order exactly when it takes out one of the last two entries. A run
of `Remove` takes out nothing but what it removes, and keeps the order when each removal
does. -/
theorem Remove.keepsOrder_iff (V I : Type) :
    (∀ (manifest manifest' : PackageManifest) (name : Text) (group : DependencyGroup)
        (removed : Bool), manifest.removeDependency name group = .ok (manifest', removed) →
      (manifest.KeepsOrder manifest' ↔ manifest.removesNearEnd name group = true)) ∧
    ∀ (remove : Remove V I) (manifest' : PackageManifest), remove.edit = .ok manifest' →
      remove.manifest.Without remove.removals manifest' ∧
        (Remove.NearEnd remove.removals remove.manifest →
          remove.manifest.KeepsOrder manifest') := by
  constructor
  · intro manifest manifest' name group removed h
    exact PackageManifest.removeDependency_keepsOrder_iff h
  · intro remove manifest' h
    rw [Remove.edit_eq] at h
    exact ⟨Remove.without_of_steps h, Remove.keepsOrder_of_steps h⟩

/-- A manifest with three dependencies. -/
def threeDependencies : PackageManifest :=
  ⟨.object (.ofList [("name".toList, .string "demo".toList),
    ("dependencies".toList,
      .object (.ofList [("ajv".toList, .string "8".toList), ("react".toList, .string "18".toList),
        ("vite".toList, .string "5".toList)]))])⟩

theorem Remove.keepsOrder_iff_demo :
    ∃ manifest', threeDependencies.removeDependency "react".toList .prod =
        .ok (manifest', true) ∧ threeDependencies.KeepsOrder manifest' := by
  refine ⟨_, rfl, ?_⟩
  apply ((Remove.keepsOrder_iff Unit Unit).1 threeDependencies _ "react".toList .prod true rfl).mpr
  decide

/-- The removal of the first of the three turns the other two around. -/
theorem PackageManifest.not_keepsOrder_first :
    ∃ manifest', threeDependencies.removeDependency "ajv".toList .prod = .ok (manifest', true) ∧
      ¬ threeDependencies.KeepsOrder manifest' := by
  obtain ⟨manifest', h⟩ : ∃ manifest',
      threeDependencies.removeDependency "ajv".toList .prod = .ok (manifest', true) := ⟨_, rfl⟩
  refine ⟨manifest', h, fun hkeeps => ?_⟩
  exact absurd ((PackageManifest.removeDependency_keepsOrder_iff h).mp hkeeps) (by decide)

end Run

end Npnpm
