import Npnpm.PackageManager.UpdateInPlace

/-!
# An update to the latest versions

The new specifiers are computed per target and written wherever a group has the name
with the old specifier. Specifiers that were written already are written once more
without effect, so each entry can be looked at alone.
-/

namespace Npnpm

section Cells

/-- What one new specifier does to a single entry. -/
def rewriteCell (groups : List DependencyGroup) (name : Text) (group : DependencyGroup)
    (cell : Option ManifestSpecifier) (update : Text × Text × Text) : Option ManifestSpecifier :=
  if name = update.1 ∧ group ∈ groups ∧ cell = some (.string update.2.1) then
    some (.string update.2.2)
  else cell

/-- The manifests differ in their specifiers only, and the entries are those that a
function of the old ones gives. -/
structure PackageManifest.Rewrites
    (f : Text → DependencyGroup → Option ManifestSpecifier → Option ManifestSpecifier)
    (before after : PackageManifest) : Prop where
  shape : before.SameShape after
  entry : ∀ name group, after.entry name group = f name group (before.entry name group)

variable {manifest manifest' : PackageManifest}

/-- Writing a new specifier in some groups acts on each entry alone. -/
theorem applyUpdate_rewrites {update : Text × Text × Text} {groups : List DependencyGroup}
    (h : applyUpdate groups manifest update = .ok manifest') :
    manifest.Rewrites (fun name group cell => rewriteCell groups name group cell update)
      manifest' := by
  induction groups generalizing manifest with
  | nil =>
      cases h
      exact ⟨.refl _, fun name group => by simp [rewriteCell]⟩
  | cons group rest ih =>
      rw [applyUpdate, List.foldlM_cons] at h
      obtain ⟨manifest₁, hstep, hrest⟩ := Results.bind_ok h
      obtain ⟨hshape, hentry⟩ := ih hrest
      split at hstep
      · rename_i hspec
        rw [PackageManifest.dependencyVersion_eq_some_iff] at hspec
        obtain ⟨_, hadd, hshape₁, hentry₁⟩ :=
          PackageManifest.addDependency_replace hspec update.2.2
        rw [hadd] at hstep
        cases hstep
        refine ⟨hshape₁.trans hshape, fun other group' => ?_⟩
        rw [hentry, hentry₁]
        by_cases hcell : other = update.1 ∧ group' = group
        · -- the entry is written now, and again only when the old specifier is the new one
          obtain ⟨rfl, rfl⟩ := hcell
          simp [rewriteCell, hspec]
        · rw [if_neg hcell]
          unfold rewriteCell
          refine if_congr ?_ rfl rfl
          constructor
          · rintro ⟨hname, hgroup, hold⟩
            exact ⟨hname, List.mem_cons_of_mem _ hgroup, hold⟩
          · rintro ⟨hname, hgroup, hold⟩
            exact ⟨hname, (List.mem_cons.mp hgroup).resolve_left fun heq => hcell ⟨hname, heq⟩,
              hold⟩
      · rename_i hspec
        cases hstep
        rw [PackageManifest.dependencyVersion_eq_some_iff] at hspec
        refine ⟨hshape, fun other group' => ?_⟩
        rw [hentry]
        unfold rewriteCell
        refine if_congr ?_ rfl rfl
        constructor
        · rintro ⟨hname, hgroup, hold⟩
          exact ⟨hname, List.mem_cons_of_mem _ hgroup, hold⟩
        · rintro ⟨hname, hgroup, hold⟩
          refine ⟨hname, (List.mem_cons.mp hgroup).resolve_left fun heq => hspec ?_, hold⟩
          rw [← hname, ← heq, hold]

/-- All new specifiers, one after the other, act on each entry alone. -/
theorem applyUpdates_rewrites {updates : List (Text × Text × Text)}
    {groups : List DependencyGroup}
    (h : updates.foldlM (applyUpdate groups) manifest = .ok manifest') :
    manifest.Rewrites (fun name group cell => updates.foldl (rewriteCell groups name group) cell)
      manifest' := by
  induction updates generalizing manifest with
  | nil =>
      cases h
      exact ⟨.refl _, fun _ _ => rfl⟩
  | cons update rest ih =>
      rw [List.foldlM_cons] at h
      obtain ⟨manifest₁, hstep, hrest⟩ := Results.bind_ok h
      obtain ⟨hshape₁, hentry₁⟩ := applyUpdate_rewrites hstep
      obtain ⟨hshape, hentry⟩ := ih hrest
      refine ⟨hshape₁.trans hshape, fun name group => ?_⟩
      rw [hentry, hentry₁, List.foldl_cons]

variable {groups : List DependencyGroup} {name : Text} {group : DependencyGroup}
  {updates : List (Text × Text × Text)}

/-- An entry that no new specifier is for stays as it is. -/
theorem foldl_rewriteCell_of_none {cell : Option ManifestSpecifier}
    (h : ∀ update ∈ updates, name = update.1 → group ∈ groups →
      ∀ specifier, cell ≠ some (.string specifier)) :
    updates.foldl (rewriteCell groups name group) cell = cell := by
  induction updates with
  | nil => rfl
  | cons update rest ih =>
      have hcell : rewriteCell groups name group cell update = cell := by
        apply if_neg
        rintro ⟨hname, hgroup, hold⟩
        exact h update List.mem_cons_self hname hgroup _ hold
      rw [List.foldl_cons, hcell, ih fun update' hmem => h update' (List.mem_cons_of_mem _ hmem)]

/-- New specifiers that are computed from the old ones, where computing them twice is
computing them once: whatever else is written, an entry ends with its own new one. -/
theorem foldl_rewriteCell_of_mem (next : Text → Text) (hnext : ∀ s, next (next s) = next s)
    (hupdates : ∀ update ∈ updates, name = update.1 → update.2.2 = next update.2.1)
    (hgroup : group ∈ groups) {specifier : Text}
    (hmem : (name, specifier, next specifier) ∈ updates) :
    updates.foldl (rewriteCell groups name group) (some (.string specifier)) =
      some (.string (next specifier)) := by
  -- the entry holds its old specifier or its new one, and the new one is not changed again
  have hkept : ∀ updates : List (Text × Text × Text),
      (∀ update ∈ updates, name = update.1 → update.2.2 = next update.2.1) →
      updates.foldl (rewriteCell groups name group) (some (.string (next specifier))) =
        some (.string (next specifier)) := by
    intro updates hupdates
    induction updates with
    | nil => rfl
    | cons update rest ih =>
        have hcell : rewriteCell groups name group (some (.string (next specifier))) update =
            some (.string (next specifier)) := by
          unfold rewriteCell
          split
          · rename_i hold
            obtain ⟨hname, -, hold⟩ := hold
            have hspecifier : next specifier = update.2.1 := by simpa using hold
            rw [hupdates update List.mem_cons_self hname, ← hspecifier, hnext]
          · rfl
        rw [List.foldl_cons, hcell,
          ih fun update' hmem => hupdates update' (List.mem_cons_of_mem _ hmem)]
  induction updates with
  | nil => cases hmem
  | cons update rest ih =>
      have hrest : ∀ update ∈ rest, name = update.1 → update.2.2 = next update.2.1 :=
        fun update' hmem => hupdates update' (List.mem_cons_of_mem _ hmem)
      rw [List.foldl_cons]
      by_cases hnow : name = update.1 ∧ update.2.1 = specifier
      · have hcell : rewriteCell groups name group (some (.string specifier)) update =
            some (.string (next specifier)) := by
          rw [rewriteCell, if_pos ⟨hnow.1, hgroup, by rw [hnow.2]⟩,
            hupdates update List.mem_cons_self hnow.1, hnow.2]
        rw [hcell]
        exact hkept rest hrest
      · have hcell : rewriteCell groups name group (some (.string specifier)) update =
            some (.string specifier) := by
          apply if_neg
          rintro ⟨hname, -, hold⟩
          exact hnow ⟨hname, by simpa using hold.symm⟩
        rw [hcell]
        refine ih hrest ((List.mem_cons.mp hmem).resolve_left ?_)
        rintro rfl
        exact hnow ⟨rfl, rfl⟩

end Cells

section Targets

variable {V I : Type} {update : Update V I} {group : DependencyGroup} {name specifier : Text}
  {targets : List (DependencyGroup × Text × Text)}

/-- The names that are updated: those that were selected, or all. -/
def Update.TargetsName (update : Update V I) (name : Text) : Prop :=
  update.packages = [] ∨ ∃ package ∈ update.packages, (ParsedPackageSpec.parse package).name = name

theorem PackageManifest.mem_dependencyEntries {manifest : PackageManifest}
    {groups : List DependencyGroup} :
    (group, name, specifier) ∈ manifest.dependencyEntries groups ↔
      group ∈ groups ∧ manifest.dependencyVersion name group = some specifier := by
  have hlists : (name, specifier) ∈ manifest.groupDependencies group ↔
      manifest.dependencyVersion name group = some specifier := by
    rw [mem_groupDependencies, dependencyVersion_eq_some_iff, entry]
    constructor
    · rintro ⟨dependencies, hfield, hname⟩
      rw [hfield]
      exact hname
    · intro h
      obtain ⟨dependencies, hobject, hname⟩ := Option.bind_eq_some_iff.mp h
      obtain ⟨field, hfield, hfield'⟩ := Option.bind_eq_some_iff.mp hobject
      cases field with
      | object entries =>
          cases hfield'
          exact ⟨_, hfield, hname⟩
      | string => cases hfield'
      | other => cases hfield'
  rw [← hlists]
  simp only [dependencyEntries, List.mem_flatMap, List.mem_map, Prod.mk.injEq]
  constructor
  · rintro ⟨group', hgroup, ⟨name', specifier'⟩, hmem, rfl, rfl, rfl⟩
    exact ⟨hgroup, hmem⟩
  · rintro ⟨hgroup, hmem⟩
    exact ⟨group, hgroup, (name, specifier), hmem, rfl, rfl, rfl⟩

/-- The targets are the listed names in the groups that have them. -/
theorem Update.mem_targets (h : update.targets = .ok targets) :
    (group, name, specifier) ∈ targets ↔
      update.TargetsName name ∧ group ∈ update.dependencyGroups ∧
        update.manifest.dependencyVersion name group = some specifier := by
  unfold Update.targets at h
  split at h
  · rename_i hempty
    cases h
    rw [PackageManifest.mem_dependencyEntries]
    exact ⟨fun hmem => ⟨Or.inl (List.isEmpty_iff.mp hempty), hmem⟩, And.right⟩
  · rename_i hsome
    obtain ⟨found, hfound, hflat⟩ := Results.bind_ok h
    cases hflat
    have hpackage : ∀ package entries, (let name := (ParsedPackageSpec.parse package).name
        let found := update.dependencyGroups.filterMap fun group =>
          (update.manifest.dependencyVersion name group).map fun specifier =>
            (group, name, specifier)
        if found.isEmpty then .error (.missingPackage name) else .ok found :
          Except UpdateError (List (DependencyGroup × Text × Text))) = .ok entries →
        ((group, name, specifier) ∈ entries ↔ (ParsedPackageSpec.parse package).name = name ∧
          group ∈ update.dependencyGroups ∧
            update.manifest.dependencyVersion name group = some specifier) := by
      intro package entries hentries
      simp only at hentries
      split at hentries
      · cases hentries
      · cases hentries
        simp only [List.mem_filterMap, Option.map_eq_some_iff, Prod.mk.injEq]
        constructor
        · rintro ⟨group', hgroup, specifier', hspecifier, rfl, rfl, rfl⟩
          exact ⟨rfl, hgroup, hspecifier⟩
        · rintro ⟨rfl, hgroup, hspecifier⟩
          exact ⟨group, hgroup, specifier, hspecifier, rfl, rfl, rfl⟩
    rw [List.mem_flatten]
    constructor
    · rintro ⟨entries, hentries, hmem⟩
      obtain ⟨package, hmem', hread⟩ := Results.exists_of_mem_mapM hfound hentries
      obtain ⟨hname, hrest⟩ := (hpackage package entries hread).mp hmem
      exact ⟨Or.inr ⟨package, hmem', hname⟩, hrest⟩
    · rintro ⟨hnone | ⟨package, hmem', hname⟩, hrest⟩
      · rw [hnone] at hsome
        exact absurd rfl hsome
      · obtain ⟨entries, hentries, hread⟩ := Results.exists_mem_of_mapM hfound hmem'
        exact ⟨entries, hentries, (hpackage package entries hread).mpr ⟨hname, hrest⟩⟩

end Targets

section Update

variable {V I : Type} [NodeSemver V] [SemverRange V] [CaretSemver V]

/-- A specifier that is written is exact when the one before was. -/
theorem isExactVersion_serialize (version : PackageVersion V I) (exact : Bool) :
    isExactVersion V (version.serialize exact) = exact := by
  cases exact with
  | true =>
      rw [isExactVersion, PackageVersion.serialize, if_pos rfl, List.nil_append,
        CaretSemver.parse_display]
      rfl
  | false => exact CaretSemver.parse_caret version.version

variable {update : Update V I} {manifest' : PackageManifest}

omit [CaretSemver V] in
theorem Update.resolveTarget_ok {target : DependencyGroup × Text × Text} {new : Text × Text × Text}
    (h : update.resolveTarget target = .ok new) :
    ∃ latest, update.registry.resolve target.2.1 "latest".toList = .ok latest ∧
      new = (target.2.1, target.2.2, latest.serialize (isExactVersion V target.2.2)) := by
  obtain ⟨latest, hresolve, rfl⟩ := Results.map_ok h
  exact ⟨latest, Results.mapError_ok hresolve, rfl⟩

/-- An update to the latest versions gives each entry of a selected name in a listed group
its latest version, exact when the entry was exact. -/
theorem Update.edit_latest_entry (hlatest : update.latest = true) (h : update.edit = .ok manifest')
    {name specifier : Text} {group : DependencyGroup} (hname : update.TargetsName name)
    (hgroup : group ∈ update.dependencyGroups)
    (hspecifier : update.manifest.dependencyVersion name group = some specifier) :
    ∃ latest, update.registry.resolve name "latest".toList = .ok latest ∧
      manifest'.entry name group =
        some (.string (latest.serialize (isExactVersion V specifier))) := by
  rw [Update.edit, if_pos hlatest, Update.editLatest_eq] at h
  obtain ⟨targets, htargets, h⟩ := Results.bind_ok h
  obtain ⟨updates, hupdates, h⟩ := Results.bind_ok h
  have htarget := (Update.mem_targets htargets).mpr ⟨hname, hgroup, hspecifier⟩
  obtain ⟨new, hnew, hread⟩ := Results.exists_mem_of_mapM hupdates htarget
  obtain ⟨latest, hresolve, rfl⟩ := Update.resolveTarget_ok hread
  refine ⟨latest, hresolve, ?_⟩
  rw [(applyUpdates_rewrites h).entry,
    PackageManifest.dependencyVersion_eq_some_iff.mp hspecifier]
  refine foldl_rewriteCell_of_mem (fun s => latest.serialize (isExactVersion V s))
    (fun s => ?_) (fun update' hmem hsame => ?_) hgroup hnew
  · rw [isExactVersion_serialize]
  · obtain ⟨target, -, hread'⟩ := Results.exists_of_mem_mapM hupdates hmem
    obtain ⟨latest', hresolve', rfl⟩ := Update.resolveTarget_ok hread'
    obtain rfl : name = target.2.1 := hsame
    rw [hresolve] at hresolve'
    cases hresolve'
    rfl

/-- An update to the latest versions gives each entry of a selected name in a listed group
its latest version, exact when the entry was exact, and changes no other entry. -/
theorem Update.edit_latest_pointwise (hlatest : update.latest = true)
    (h : update.edit = .ok manifest') :
    update.manifest.SameShape manifest' ∧
    (∀ name group specifier, update.TargetsName name → group ∈ update.dependencyGroups →
      update.manifest.dependencyVersion name group = some specifier →
      ∃ latest, update.registry.resolve name "latest".toList = .ok latest ∧
        manifest'.entry name group =
          some (.string (latest.serialize (isExactVersion V specifier)))) ∧
    ∀ name group, ¬ (update.TargetsName name ∧ group ∈ update.dependencyGroups ∧
        (update.manifest.dependencyVersion name group).isSome) →
      manifest'.entry name group = update.manifest.entry name group := by
  have hedit := h
  rw [Update.edit, if_pos hlatest, Update.editLatest_eq] at h
  obtain ⟨targets, htargets, h⟩ := Results.bind_ok h
  obtain ⟨updates, hupdates, h⟩ := Results.bind_ok h
  obtain ⟨hshape, hentry⟩ := applyUpdates_rewrites h
  refine ⟨hshape, fun _ _ _ hname hgroup hspecifier =>
    Update.edit_latest_entry hlatest hedit hname hgroup hspecifier, fun name group hnot => ?_⟩
  rw [hentry]
  refine foldl_rewriteCell_of_none fun update' hmem hsame hgroup specifier hcell => hnot ?_
  obtain ⟨target, htarget, hread⟩ := Results.exists_of_mem_mapM hupdates hmem
  obtain ⟨latest, -, rfl⟩ := Update.resolveTarget_ok hread
  obtain ⟨group', name', specifier'⟩ := target
  obtain rfl : name = name' := hsame
  refine ⟨((Update.mem_targets htargets).mp htarget).1, hgroup, ?_⟩
  rw [PackageManifest.dependencyVersion_eq_some_iff.mpr hcell]
  rfl

theorem Update.edit_latest_pointwise_demo : ∃ manifest', demoUpdate.edit = .ok manifest' ∧
    manifest'.entry "demo".toList .prod = some (.string "1.0.0".toList) ∧
    manifest'.entry "demo".toList .dev = some (.string "^1.0.0".toList) := by
  obtain ⟨manifest', hedit⟩ : ∃ manifest', demoUpdate.edit = .ok manifest' := ⟨_, rfl⟩
  have hresolve : demoUpdate.registry.resolve "demo".toList "latest".toList =
      .ok (demoVersion "1.0.0".toList rfl) := rfl
  obtain ⟨-, hentries, -⟩ := Update.edit_latest_pointwise rfl hedit
  obtain ⟨latest, hlatest, hprod⟩ :=
    hentries "demo".toList .prod "0.9.0".toList (Or.inl rfl) (by decide) rfl
  obtain ⟨latest', hlatest', hdev⟩ :=
    hentries "demo".toList .dev "^0.9.0".toList (Or.inl rfl) (by decide) rfl
  rw [hresolve] at hlatest hlatest'
  cases hlatest
  cases hlatest'
  exact ⟨manifest', hedit, hprod, hdev⟩

end Update

end Npnpm
