import Npnpm.Library.Results
import Npnpm.PackageManifest.Edits

/-!
# The order of the entries

What the edits of a manifest do to the order of its fields and of the entries of a
group. Adding a dependency appends; removing one moves the last entry to its place,
among the dependencies and, when the group becomes empty, among the fields.
-/

namespace Npnpm

/-- The value of a dependency in a group. -/
def PackageManifest.entry (manifest : PackageManifest) (name : Text) (group : DependencyGroup) :
    Option ManifestSpecifier :=
  ((manifest.value.get group.field).bind ManifestField.asObject).bind (·.get name)

section KeepsOrder

/-- The entries that remain are in their order. -/
inductive ManifestField.KeepsOrder : ManifestField → ManifestField → Prop
  | object {entries entries' : KeyedMap Text ManifestSpecifier}
      (h : entries'.entries.Sublist entries.entries) :
      KeepsOrder (.object entries) (.object entries')
  | same (field : ManifestField) : KeepsOrder field field

theorem ManifestField.KeepsOrder.trans {a b c : ManifestField} (h : KeepsOrder a b)
    (h' : KeepsOrder b c) : KeepsOrder a c := by
  cases h with
  | same => exact h'
  | object hab =>
      cases h' with
      | same => exact .object hab
      | object hbc => exact .object (hbc.trans hab)

theorem ManifestField.KeepsOrder.sublist {entries entries' : KeyedMap Text ManifestSpecifier}
    (h : KeepsOrder (.object entries) (.object entries')) :
    entries'.entries.Sublist entries.entries := by
  generalize hbefore : ManifestField.object entries = before at h
  generalize hafter : ManifestField.object entries' = after at h
  cases h with
  | object hsub =>
      cases hbefore
      cases hafter
      exact hsub
  | same =>
      cases hbefore
      cases hafter
      exact List.Sublist.refl _

def ManifestRoot.fieldNames : ManifestRoot → List Text
  | .object fields => fields.keys
  | _ => []

/-- The fields that remain are in their order, and so are the entries of each. -/
structure PackageManifest.KeepsOrder (before after : PackageManifest) : Prop where
  fields : after.value.fieldNames.Sublist before.value.fieldNames
  entries : ∀ name field', after.value.get name = some field' →
    ∃ field, before.value.get name = some field ∧ field.KeepsOrder field'

theorem PackageManifest.KeepsOrder.refl (manifest : PackageManifest) :
    manifest.KeepsOrder manifest :=
  ⟨List.Sublist.refl _, fun _ field h => ⟨field, h, .same field⟩⟩

theorem PackageManifest.KeepsOrder.trans {a b c : PackageManifest} (h : a.KeepsOrder b)
    (h' : b.KeepsOrder c) : a.KeepsOrder c := by
  refine ⟨h'.fields.trans h.fields, fun name field'' hfield'' => ?_⟩
  obtain ⟨field', hfield', hkeeps'⟩ := h'.entries name field'' hfield''
  obtain ⟨field, hfield, hkeeps⟩ := h.entries name field' hfield'
  exact ⟨field, hfield, hkeeps.trans hkeeps'⟩

end KeepsOrder

section Replace

variable {manifest : PackageManifest} {name : Text} {group : DependencyGroup}

theorem PackageManifest.dependencyVersion_eq_some_iff {specifier : Text} :
    manifest.dependencyVersion name group = some specifier ↔
      manifest.entry name group = some (.string specifier) := by
  rw [dependencyVersion, ← entry]
  cases manifest.entry name group with
  | none => simp
  | some value => cases value <;> simp [ManifestSpecifier.asStr]

/-- The manifests differ in nothing but specifiers: they have the same fields, and the
groups the same names, in one order. -/
structure PackageManifest.SameShape (before after : PackageManifest) : Prop where
  fieldNames : after.value.fieldNames = before.value.fieldNames
  others : ∀ field, (∀ group : DependencyGroup, field ≠ group.field) →
    after.value.get field = before.value.get field
  groups : ∀ group : DependencyGroup,
    after.value.get group.field = before.value.get group.field ∨
      ∃ entries entries', before.value.get group.field = some (.object entries) ∧
        after.value.get group.field = some (.object entries') ∧ entries'.keys = entries.keys

theorem PackageManifest.SameShape.refl (manifest : PackageManifest) :
    manifest.SameShape manifest :=
  ⟨rfl, fun _ _ => rfl, fun _ => Or.inl rfl⟩

theorem PackageManifest.SameShape.trans {a b c : PackageManifest} (h : a.SameShape b)
    (h' : b.SameShape c) : a.SameShape c where
  fieldNames := h'.fieldNames.trans h.fieldNames
  others field hfield := (h'.others field hfield).trans (h.others field hfield)
  groups group := by
    rcases h'.groups group with hsame' | ⟨entries', entries'', hbefore', hafter', hkeys'⟩
    · rw [hsame']
      exact h.groups group
    · rcases h.groups group with hsame | ⟨entries, _, hbefore, hafter, hkeys⟩
      · exact Or.inr ⟨entries', entries'', hsame ▸ hbefore', hafter', hkeys'⟩
      · rw [hafter] at hbefore'
        cases hbefore'
        exact Or.inr ⟨entries, entries'', hbefore, hafter', hkeys'.trans hkeys⟩

/-- Adding a dependency that a group has already replaces its specifier and nothing else. -/
theorem PackageManifest.addDependency_replace {value : ManifestSpecifier}
    (h : manifest.entry name group = some value) (version : Text) :
    ∃ manifest', manifest.addDependency name version group = .ok manifest' ∧
      manifest.SameShape manifest' ∧
      ∀ other group', manifest'.entry other group' =
        if other = name ∧ group' = group then some (.string version)
        else manifest.entry other group' := by
  obtain ⟨root⟩ := manifest
  obtain ⟨entries, hfield, hname⟩ := Option.bind_eq_some_iff.mp h
  obtain ⟨field, hget, hobject⟩ := Option.bind_eq_some_iff.mp hfield
  cases field with
  | string text => cases hobject
  | other json => cases hobject
  | object _ =>
      cases hobject
      cases root with
      | null => cases hget
      | other json => cases hget
      | object root =>
          have hread : ∀ other, (ManifestRoot.object (root.insert group.field
              (.object (entries.insert name (.string version))))).get other =
              if other = group.field then some (.object (entries.insert name (.string version)))
              else (ManifestRoot.object root).get other :=
            KeyedMap.get_insert_eq_ite root group.field _
          refine ⟨⟨.object (root.insert group.field
            (.object (entries.insert name (.string version))))⟩, ?_, ⟨?_, ?_, ?_⟩, ?_⟩
          · simp [addDependency, hget, setField]
          · exact KeyedMap.keys_insert_of_get hget _
          · intro other hother
            exact (hread other).trans (if_neg (hother group))
          · intro group'
            by_cases hgroup : group' = group
            · subst hgroup
              exact Or.inr ⟨entries, _, hget, (hread _).trans (if_pos rfl),
                KeyedMap.keys_insert_of_get hname _⟩
            · exact Or.inl ((hread _).trans
                (if_neg fun heq => hgroup (DependencyGroup.field_injective heq)))
          · intro other group'
            simp only [PackageManifest.entry, hread]
            by_cases hgroup : group' = group
            · subst hgroup
              rw [if_pos rfl, hget]
              simp only [Option.bind_some, ManifestField.asObject, and_true]
              exact KeyedMap.get_insert_eq_ite entries name _ other
            · rw [if_neg fun heq => hgroup (DependencyGroup.field_injective heq),
                if_neg fun heq => hgroup heq.2]

end Replace

section Remove

variable {manifest manifest' : PackageManifest} {name : Text} {group : DependencyGroup}
  {removed : Bool}

/-- At most one entry follows the dependency that is removed, and at most one field
follows the group when nothing else is in it. -/
def PackageManifest.removesNearEnd (manifest : PackageManifest) (name : Text)
    (group : DependencyGroup) : Bool :=
  match manifest.value with
  | .object root =>
      match root.get group.field with
      | some (.object dependencies) =>
          if dependencies.keys.all fun key => key == name then
            decide ((root.entriesFrom group.field).length ≤ 2)
          else decide ((dependencies.entriesFrom name).length ≤ 2)
      | _ => true
  | _ => true

/-- What a removal does: nothing when the manifest does not have the group. -/
theorem PackageManifest.removeDependency_ok
    (h : manifest.removeDependency name group = .ok (manifest', removed)) :
    ∃ root, manifest.value = .object root ∧
      (root.get group.field = none ∧ manifest' = manifest ∨
        ∃ dependencies, root.get group.field = some (.object dependencies) ∧
          manifest'.value = .object (if (dependencies.swapRemove name).isEmpty then
            root.swapRemove group.field
          else root.insert group.field (.object (dependencies.swapRemove name)))) := by
  obtain ⟨value⟩ := manifest
  cases value with
  | null => cases h
  | other => cases h
  | object root =>
      refine ⟨root, rfl, ?_⟩
      simp only [PackageManifest.removeDependency] at h
      cases hfield : root.get group.field with
      | none =>
          simp only [hfield] at h
          cases h
          exact Or.inl ⟨rfl, rfl⟩
      | some field =>
          cases field with
          | string text => simp [hfield] at h
          | other json => simp [hfield] at h
          | object dependencies =>
              simp only [hfield] at h
              refine Or.inr ⟨dependencies, rfl, ?_⟩
              split at h <;> cases h <;> simp_all

theorem isEmpty_swapRemove_iff (dependencies : KeyedMap Text ManifestSpecifier) (name : Text) :
    (dependencies.swapRemove name).isEmpty = dependencies.keys.all fun key => key == name := by
  apply Bool.eq_iff_iff.mpr
  rw [KeyedMap.isEmpty, List.isEmpty_iff, List.eq_nil_iff_forall_not_mem, List.all_eq_true]
  constructor
  · intro hnone key hkey
    obtain ⟨value, hmem⟩ := KeyedMap.mem_keys.mp hkey
    by_contra hne
    exact hnone (key, value) (KeyedMap.mem_swapRemove.mpr ⟨hmem, by simpa using hne⟩)
  · intro hall e he
    obtain ⟨hmem, hne⟩ := KeyedMap.mem_swapRemove.mp he
    exact hne (by simpa using hall e.1 (KeyedMap.mem_keys.mpr ⟨e.2, hmem⟩))

/-- A removal keeps the order exactly when nothing that follows has to move. -/
theorem PackageManifest.removeDependency_keepsOrder_iff
    (h : manifest.removeDependency name group = .ok (manifest', removed)) :
    manifest.KeepsOrder manifest' ↔ manifest.removesNearEnd name group = true := by
  obtain ⟨root, hroot, ⟨hnone, rfl⟩ | ⟨dependencies, hfield, hvalue⟩⟩ :=
    PackageManifest.removeDependency_ok h
  · have hcondition : manifest'.removesNearEnd name group = true := by
      simp [PackageManifest.removesNearEnd, hroot, hnone]
    exact iff_of_true (.refl manifest') hcondition
  · have hcondition : manifest.removesNearEnd name group =
        if (dependencies.swapRemove name).isEmpty then
          decide ((root.entriesFrom group.field).length ≤ 2)
        else decide ((dependencies.entriesFrom name).length ≤ 2) := by
      simp only [PackageManifest.removesNearEnd, hroot, hfield, isEmpty_swapRemove_iff]
    rw [hcondition]
    split at hvalue
    · rename_i hempty
      rw [if_pos hempty, decide_eq_true_eq]
      constructor
      · intro hkeeps
        have hfields := hkeeps.fields
        rw [hvalue, hroot] at hfields
        exact KeyedMap.length_of_keys_sublist hfields
      · intro hlength
        refine ⟨?_, fun other field' hfield' => ⟨field', ?_, .same field'⟩⟩
        · rw [hvalue, hroot]
          exact (KeyedMap.swapRemove_sublist hlength).map Prod.fst
        · rw [hvalue] at hfield'
          rw [hroot]
          rw [ManifestRoot.get, KeyedMap.get_swapRemove] at hfield'
          split at hfield'
          · cases hfield'
          · exact hfield'
    · rename_i hempty
      rw [if_neg hempty, decide_eq_true_eq]
      have hget : ∀ other, manifest'.value.get other = if other = group.field then
          some (.object (dependencies.swapRemove name)) else manifest.value.get other := by
        intro other
        rw [hvalue, hroot]
        exact KeyedMap.get_insert_eq_ite root group.field _ other
      constructor
      · intro hkeeps
        obtain ⟨field, hbefore, hkept⟩ := hkeeps.entries group.field _ (by rw [hget, if_pos rfl])
        rw [hroot, ManifestRoot.get, hfield] at hbefore
        cases hbefore
        exact KeyedMap.length_of_keys_sublist (hkept.sublist.map Prod.fst)
      · intro hlength
        refine ⟨?_, fun other field' hfield' => ?_⟩
        · rw [hvalue, hroot]
          simp only [ManifestRoot.fieldNames, KeyedMap.keys_insert_of_get hfield]
          exact List.Sublist.refl _
        · rw [hget] at hfield'
          split at hfield'
          · rename_i hother
            cases hfield'
            subst hother
            exact ⟨_, by rw [hroot]; exact hfield, .object (KeyedMap.swapRemove_sublist hlength)⟩
          · exact ⟨field', hfield', .same field'⟩

end Remove

section AddThenRemove

def PackageManifest.addDependencies (manifest : PackageManifest) (added : List (Text × Text))
    (group : DependencyGroup) : Except PackageManifestError PackageManifest :=
  added.foldlM (fun manifest e => manifest.addDependency e.1 e.2 group) manifest

def PackageManifest.removeDependencies (manifest : PackageManifest) (removed : List Text)
    (group : DependencyGroup) : Except PackageManifestError PackageManifest :=
  removed.foldlM (fun manifest name => (manifest.removeDependency name group).map Prod.fst)
    manifest

/-- The group is absent, or an object that holds something. -/
def ManifestRoot.GroupHolds (root : KeyedMap Text ManifestField) (group : DependencyGroup)
    (before : KeyedMap Text ManifestSpecifier) : Prop :=
  root.get group.field = some (.object before) ∧ before.entries ≠ [] ∨
    root.get group.field = none ∧ before = .empty

/-- The manifest with entries added behind those of the group: itself when there are none. -/
inductive PackageManifest.WithTail (root : KeyedMap Text ManifestField) (group : DependencyGroup)
    (before : KeyedMap Text ManifestSpecifier) :
    List (Text × ManifestSpecifier) → PackageManifest → Prop
  | nil : WithTail root group before [] ⟨.object root⟩
  | tail {tail : List (Text × ManifestSpecifier)} (hne : tail ≠ [])
      (after : KeyedMap Text ManifestSpecifier) (h : after.entries = before.entries ++ tail) :
      WithTail root group before tail ⟨.object (root.insert group.field (.object after))⟩

open PackageManifest

variable {root : KeyedMap Text ManifestField} {group : DependencyGroup}
  {before : KeyedMap Text ManifestSpecifier} {tail : List (Text × ManifestSpecifier)}
  {manifest : PackageManifest} {name : Text}

/-- A new name is added behind the tail. -/
theorem PackageManifest.WithTail.add (h : WithTail root group before tail manifest)
    (hgroup : ManifestRoot.GroupHolds root group before) (hbefore : before.get name = none)
    (htail : ∀ e ∈ tail, e.1 ≠ name) (version : Text) :
    ∃ manifest', manifest.addDependency name version group = .ok manifest' ∧
      WithTail root group before (tail ++ [(name, .string version)]) manifest' := by
  have hne : tail ++ [(name, ManifestSpecifier.string version)] ≠ [] := by simp
  cases h with
  | nil =>
      refine ⟨⟨.object (root.insert group.field (.object (before.insert name (.string version))))⟩,
        ?_, .tail hne _ (KeyedMap.entries_insert_of_none hbefore _)⟩
      rcases hgroup with ⟨hfield, -⟩ | ⟨hfield, rfl⟩
      · simp [addDependency, ManifestRoot.get, hfield, setField]
      · simp [addDependency, ManifestRoot.get, hfield, setField]
  | tail _ after hafter =>
      have hnone : after.get name = none := by
        refine KeyedMap.get_eq_none_iff.mpr fun key hkey => ?_
        obtain ⟨value, hmem⟩ := KeyedMap.mem_keys.mp hkey
        rw [hafter, List.mem_append] at hmem
        rcases hmem with hmem | hmem
        · exact KeyedMap.get_eq_none_iff.mp hbefore key (KeyedMap.mem_keys.mpr ⟨value, hmem⟩)
        · simpa using htail _ hmem
      refine ⟨⟨.object (root.insert group.field (.object (after.insert name (.string version))))⟩,
        ?_, .tail hne _ ?_⟩
      · simp [addDependency, ManifestRoot.get, KeyedMap.get_insert_eq_ite, setField,
          KeyedMap.insert_insert]
      · rw [KeyedMap.entries_insert_of_none hnone, hafter, List.append_assoc]

/-- A name of the tail is removed, and the tail that remains is a rearrangement. -/
theorem PackageManifest.WithTail.remove (h : WithTail root group before tail manifest)
    (hgroup : ManifestRoot.GroupHolds root group before) (hbefore : before.get name = none)
    (hname : name ∈ tail.map Prod.fst) :
    ∃ manifest' tail', manifest.removeDependency name group = .ok (manifest', true) ∧
      (tail.map Prod.fst).Perm (name :: tail'.map Prod.fst) ∧
      WithTail root group before tail' manifest' := by
  cases h with
  | nil => cases hname
  | tail _ after hafter =>
      obtain ⟨⟨key, value⟩, hmem, hkey⟩ := List.mem_map.mp hname
      obtain rfl : key = name := hkey
      have hget : after.get key = some value :=
        KeyedMap.get_of_mem (by rw [hafter]; exact List.mem_append_right _ hmem)
      obtain ⟨front, back, rfl⟩ := List.append_of_mem hmem
      have hfree : ∀ e ∈ before.entries ++ front, (e.1 == key) = false := by
        have hdistinct := after.distinct
        rw [hafter, ← List.append_assoc, List.pairwise_append] at hdistinct
        exact fun e he => hdistinct.2.2 e he _ List.mem_cons_self
      have hremaining : (after.swapRemove key).entries =
          before.entries ++ (front ++ KeyedMap.lastFirst back) := by
        rw [KeyedMap.entries_swapRemove, hafter, ← List.append_assoc,
          KeyedMap.swapRemoveEntry_split hfree (beq_self_eq_true _), List.append_assoc]
      have hperm : ((front ++ (key, value) :: back).map Prod.fst).Perm
          (key :: (front ++ KeyedMap.lastFirst back).map Prod.fst) := by
        have hsame : (front ++ KeyedMap.lastFirst back).Perm (front ++ back) :=
          (KeyedMap.lastFirst_perm back).append_left front
        exact (List.perm_middle.trans (hsame.symm.cons _)).map Prod.fst
      have hremove :
          removeDependency ⟨.object (root.insert group.field (.object after))⟩ key group =
            .ok (⟨.object (if (after.swapRemove key).isEmpty then
              (root.insert group.field (.object after)).swapRemove group.field
            else root.insert group.field (.object (after.swapRemove key)))⟩, true) := by
        simp only [removeDependency, KeyedMap.get_insert_eq_ite, if_true, hget, Option.isSome_some,
          KeyedMap.insert_insert]
        split <;> rfl
      refine ⟨_, front ++ KeyedMap.lastFirst back, hremove, hperm, ?_⟩
      cases hrest : front ++ KeyedMap.lastFirst back with
      | nil =>
          rw [hrest, List.append_nil] at hremaining
          rcases hgroup with ⟨hfield, hsome⟩ | ⟨hfield, rfl⟩
          · rw [if_neg (by rwa [KeyedMap.isEmpty, hremaining, List.isEmpty_iff]),
              KeyedMap.ext hremaining, KeyedMap.insert_of_get hfield]
            exact .nil
          · rw [if_pos (by rw [KeyedMap.isEmpty, hremaining]; rfl),
              KeyedMap.swapRemove_insert_of_none hfield]
            exact .nil
      | cons e rest =>
          rw [hrest] at hremaining
          rw [if_neg (by simp [KeyedMap.isEmpty, hremaining])]
          exact .tail (by simp) _ hremaining

theorem PackageManifest.WithTail.addAll {added : List (Text × Text)}
    (h : WithTail root group before tail manifest)
    (hgroup : ManifestRoot.GroupHolds root group before)
    (hbefore : ∀ e ∈ added, before.get e.1 = none)
    (hnodup : (tail.map Prod.fst ++ added.map Prod.fst).Nodup) :
    ∃ manifest' tail', manifest.addDependencies added group = .ok manifest' ∧
      tail'.map Prod.fst = tail.map Prod.fst ++ added.map Prod.fst ∧
      WithTail root group before tail' manifest' := by
  induction added generalizing tail manifest with
  | nil => exact ⟨manifest, tail, rfl, by simp, h⟩
  | cons e rest ih =>
      have hfree : ∀ e' ∈ tail, e'.1 ≠ e.1 := fun e' he' =>
        (List.nodup_append.mp hnodup).2.2 e'.1 (List.mem_map_of_mem he') e.1 (by simp)
      obtain ⟨manifest₁, hadd, hnext⟩ :=
        h.add hgroup (hbefore e List.mem_cons_self) hfree e.2
      obtain ⟨manifest', tail', hrest, hnames, hlast⟩ :=
        ih hnext (fun e he => hbefore e (List.mem_cons_of_mem _ he)) (by simpa using hnodup)
      refine ⟨manifest', tail', ?_, by simpa using hnames, hlast⟩
      rw [addDependencies, List.foldlM_cons, hadd]
      exact hrest

/-- When all names of the tail are removed, the manifest is the one before. -/
theorem PackageManifest.WithTail.removeAll {removed : List Text}
    (h : WithTail root group before tail manifest)
    (hgroup : ManifestRoot.GroupHolds root group before)
    (hbefore : ∀ name ∈ removed, before.get name = none)
    (hperm : (tail.map Prod.fst).Perm removed) :
    manifest.removeDependencies removed group = .ok ⟨.object root⟩ := by
  induction removed generalizing tail manifest with
  | nil =>
      have htail : tail = [] := List.map_eq_nil_iff.mp hperm.eq_nil
      subst htail
      cases h with
      | nil => rfl
      | tail hne => exact absurd rfl hne
  | cons name rest ih =>
      obtain ⟨manifest₁, tail₁, hremove, hkeys, hnext⟩ :=
        h.remove hgroup (hbefore name List.mem_cons_self)
          (hperm.mem_iff.mpr List.mem_cons_self)
      have hrest := ih hnext (fun name hname => hbefore name (List.mem_cons_of_mem _ hname))
        ((hkeys.symm.trans hperm).cons_inv)
      rw [removeDependencies, List.foldlM_cons, hremove]
      exact hrest

/-- Names that a group does not have are added and then removed, in any order: the
manifest is the same as before, with all entries in their places. -/
theorem PackageManifest.removeDependencies_addDependencies {added : List (Text × Text)}
    {removed : List Text} (hroot : manifest.value = .object root)
    (hgroup : ∀ field, root.get group.field = some field →
      ∃ before, field = .object before ∧ before.entries ≠ [])
    (hfree : ∀ e ∈ added, manifest.entry e.1 group = none)
    (hnodup : (added.map Prod.fst).Nodup) (hperm : removed.Perm (added.map Prod.fst)) :
    ∃ manifest', manifest.addDependencies added group = .ok manifest' ∧
      manifest'.removeDependencies removed group = .ok manifest := by
  obtain ⟨value⟩ := manifest
  cases hroot
  obtain ⟨before, hholds, hbefore⟩ : ∃ before, ManifestRoot.GroupHolds root group before ∧
      ∀ e ∈ added, before.get e.1 = none := by
    cases hfield : root.get group.field with
    | none => exact ⟨.empty, Or.inr ⟨hfield, rfl⟩, fun e _ => rfl⟩
    | some field =>
        obtain ⟨before, rfl, hsome⟩ := hgroup field hfield
        refine ⟨before, Or.inl ⟨hfield, hsome⟩, fun e he => ?_⟩
        simpa [entry, ManifestRoot.get, hfield, ManifestField.asObject] using hfree e he
  obtain ⟨manifest', tail, hadd, hnames, htail⟩ :=
    WithTail.nil.addAll hholds hbefore (by simpa using hnodup)
  rw [List.map_nil, List.nil_append] at hnames
  refine ⟨manifest', hadd, htail.removeAll hholds (fun name hname => ?_) ?_⟩
  · obtain ⟨e, he, rfl⟩ := List.mem_map.mp (hperm.mem_iff.mp hname)
    exact hbefore e he
  · rw [hnames]
    exact hperm.symm

/-- A manifest with one dependency between two other fields. -/
def sampleFields : KeyedMap Text ManifestField :=
  .ofList [("name".toList, .string "demo".toList),
    ("dependencies".toList,
      .object (.ofList [("react".toList, .string "^18.0.0".toList)])),
    ("license".toList, .string "ISC".toList)]

theorem PackageManifest.removeDependencies_addDependencies_demo :
    ∃ manifest', PackageManifest.addDependencies ⟨.object sampleFields⟩
        [("vite".toList, "5".toList), ("vitest".toList, "2".toList)] .prod = .ok manifest' ∧
      manifest'.removeDependencies ["vite".toList, "vitest".toList] .prod =
        .ok ⟨.object sampleFields⟩ := by
  refine PackageManifest.removeDependencies_addDependencies rfl (fun field hfield => ?_)
    (by decide) (by decide) (List.Perm.refl _)
  have hgroup : sampleFields.get DependencyGroup.prod.field =
      some (.object (.ofList [("react".toList, .string "^18.0.0".toList)])) := rfl
  rw [hgroup] at hfield
  cases hfield
  exact ⟨_, rfl, by decide⟩

end AddThenRemove

end Npnpm
