import Npnpm.PackageManager.ManifestCommands
import Npnpm.PackageManifest.EntryOrder
import Npnpm.Registry.Caret

/-!
# An update edits the manifest in place

`Update` edits the manifest entry by entry, and returns at the first error with the
manifest as the edits before have left it. The errors all come before the first edit.

## Implementation notes

An edit is given with the manifest that it leaves also when it fails. `Update.edit` gives
the manifest of an update that succeeds, and says the same.
-/

namespace Npnpm

section Loop

variable {ε σ α : Type}

/-- A loop over a state that an error leaves with the state of that moment. -/
def forEach (step : σ → α → σ × Option ε) : σ → List α → σ × Option ε
  | s, [] => (s, none)
  | s, a :: rest =>
      match step s a with
      | (s', none) => forEach step s' rest
      | (s', some e) => (s', some e)

/-- A loop whose steps do not fail ends without an error. -/
theorem forEach_of_foldlM {step : σ → α → σ × Option ε} {f : σ → α → Except ε σ}
    (hstep : ∀ s a s', f s a = .ok s' → step s a = (s', none)) {l : List α} {s s' : σ}
    (h : l.foldlM f s = .ok s') : forEach step s l = (s', none) := by
  induction l generalizing s with
  | nil =>
      cases h
      rfl
  | cons a rest ih =>
      rw [List.foldlM_cons] at h
      obtain ⟨s₁, hs₁, hrest⟩ := Results.bind_ok h
      simp only [forEach, hstep s a s₁ hs₁]
      exact ih hrest

end Loop

section Edits

variable {V I : Type} [NodeSemver V] [SemverRange V]

/-- `add_dependency`, which checks before it changes anything. -/
def addInPlace (manifest : PackageManifest) (name version : Text) (group : DependencyGroup) :
    PackageManifest × Option UpdateError :=
  match manifest.addDependency name version group with
  | .ok manifest' => (manifest', none)
  | .error error => (manifest, some (.updateDependencyInManifest error))

def Update.targets (update : Update V I) :
    Except UpdateError (List (DependencyGroup × Text × Text)) :=
  if update.packages.isEmpty then .ok (update.manifest.dependencyEntries update.dependencyGroups)
  else collectTargetEntries update.manifest update.dependencyGroups update.packages

/-- One new specifier, in the groups that have the name with the old one. -/
def applyUpdate (groups : List DependencyGroup) (manifest : PackageManifest)
    (update : Text × Text × Text) : Except UpdateError PackageManifest :=
  groups.foldlM (fun manifest group =>
    if manifest.dependencyVersion update.1 group = some update.2.1 then
      (manifest.addDependency update.1 update.2.2 group).mapError .updateDependencyInManifest
    else .ok manifest) manifest

def applyInPlace (groups : List DependencyGroup) (manifest : PackageManifest)
    (update : Text × Text × Text) : PackageManifest × Option UpdateError :=
  forEach (fun manifest group =>
    if manifest.dependencyVersion update.1 group = some update.2.1 then
      addInPlace manifest update.1 update.2.2 group
    else (manifest, none)) manifest groups

def Update.editLatestInPlace (update : Update V I) : PackageManifest × Option UpdateError :=
  match update.targets with
  | .error error => (update.manifest, some error)
  | .ok targets =>
      match targets.mapM update.resolveTarget with
      | .error error => (update.manifest, some error)
      | .ok updates => forEach (applyInPlace update.dependencyGroups) update.manifest updates

/-- One round of the loop over the groups of a package. -/
def updateGroup (name specifier : Text) (state : PackageManifest × Bool)
    (group : DependencyGroup) : Except UpdateError (PackageManifest × Bool) :=
  if (state.1.dependencyVersion name group).isNone then .ok state
  else ((state.1.addDependency name specifier group).map fun m => (m, true)).mapError
    .updateDependencyInManifest

def updateGroupInPlace (name specifier : Text) (state : PackageManifest × Bool)
    (group : DependencyGroup) : (PackageManifest × Bool) × Option UpdateError :=
  if (state.1.dependencyVersion name group).isNone then (state, none)
  else
    let added := addInPlace state.1 name specifier group
    ((added.1, true), added.2)

/-- The specifier of one package, in every group that has the package. -/
def updatePackageInPlace (groups : List DependencyGroup) (manifest : PackageManifest)
    (package : Text) : PackageManifest × Option UpdateError :=
  let spec := ParsedPackageSpec.parse package
  match spec.specifier with
  | none => (manifest, none)
  | some specifier =>
      match forEach (updateGroupInPlace spec.name specifier) (manifest, false) groups with
      | ((manifest, _), some error) => (manifest, some error)
      | ((manifest, updated), none) =>
          (manifest, if updated then none else some (.missingPackage spec.name))

def Update.editInPlace (update : Update V I) : PackageManifest × Option UpdateError :=
  if update.latest then update.editLatestInPlace
  else if update.packages.isEmpty then (update.manifest, none)
  else
    match ensureTargetPackagesExist update.manifest update.dependencyGroups update.packages with
    | .error error => (update.manifest, some error)
    | .ok _ =>
        forEach (updatePackageInPlace update.dependencyGroups) update.manifest update.packages

end Edits

section Never

variable {manifest manifest' : PackageManifest} {name version : Text} {group : DependencyGroup}

/-- Every package that the first manifest has in a group, the second has as well. -/
def PackageManifest.HasAllOf (manifest' manifest : PackageManifest) : Prop :=
  ∀ name group, (manifest.dependencyVersion name group).isSome →
    (manifest'.dependencyVersion name group).isSome

theorem PackageManifest.HasAllOf.refl (manifest : PackageManifest) : manifest.HasAllOf manifest :=
  fun _ _ h => h

theorem PackageManifest.HasAllOf.trans {a b c : PackageManifest} (h : b.HasAllOf a)
    (h' : c.HasAllOf b) : c.HasAllOf a :=
  fun name group hsome => h' name group (h name group hsome)

/-- A specifier that is there can be replaced, and no package is lost by it. -/
theorem addInPlace_of_isSome (h : (manifest.dependencyVersion name group).isSome)
    (version : Text) :
    ∃ manifest', manifest.addDependency name version group = .ok manifest' ∧
      addInPlace manifest name version group = (manifest', none) ∧ manifest'.HasAllOf manifest := by
  obtain ⟨specifier, hspecifier⟩ := Option.isSome_iff_exists.mp h
  rw [PackageManifest.dependencyVersion_eq_some_iff] at hspecifier
  obtain ⟨manifest', hadd, -, hentry⟩ :=
    PackageManifest.addDependency_replace hspecifier version
  refine ⟨manifest', hadd, by rw [addInPlace, hadd], fun other group' hother => ?_⟩
  obtain ⟨old, hold⟩ := Option.isSome_iff_exists.mp hother
  rw [PackageManifest.dependencyVersion_eq_some_iff] at hold
  by_cases hsame : other = name ∧ group' = group
  · have hnew := (hentry other group').trans (if_pos hsame)
    rw [PackageManifest.dependencyVersion_eq_some_iff.mpr hnew]
    rfl
  · have hnew := ((hentry other group').trans (if_neg hsame)).trans hold
    rw [PackageManifest.dependencyVersion_eq_some_iff.mpr hnew]
    rfl

/-- A new specifier is written without an error. -/
theorem applyInPlace_ok (groups : List DependencyGroup) (manifest : PackageManifest)
    (update : Text × Text × Text) :
    ∃ manifest', applyUpdate groups manifest update = .ok manifest' ∧
      applyInPlace groups manifest update = (manifest', none) := by
  obtain ⟨manifest', hfold, -⟩ : ∃ manifest', applyUpdate groups manifest update = .ok manifest' ∧
      True := Results.exists_foldlM (fun _ => True) trivial fun group _ m _ => by
    by_cases hspec : m.dependencyVersion update.1 group = some update.2.1
    · obtain ⟨m', hadd, -⟩ := addInPlace_of_isSome (by rw [hspec]; rfl) update.2.2
      exact ⟨m', by rw [if_pos hspec, hadd]; rfl, trivial⟩
    · exact ⟨m, if_neg hspec, trivial⟩
  refine ⟨manifest', hfold, forEach_of_foldlM (fun m group m' hm => ?_) hfold⟩
  split at hm
  · rename_i hspec
    rw [if_pos hspec, addInPlace, Results.mapError_ok hm]
  · rename_i hspec
    cases hm
    rw [if_neg hspec]

theorem updateGroupInPlace_eq {specifier : Text} {state state' : PackageManifest × Bool}
    (h : updateGroup name specifier state group = .ok state') :
    updateGroupInPlace name specifier state group = (state', none) := by
  unfold updateGroup at h
  split at h
  · rename_i hnone
    cases h
    exact if_pos hnone
  · rename_i hsome
    obtain ⟨_, hadd, rfl⟩ := Results.map_ok (Results.mapError_ok h)
    rw [updateGroupInPlace, if_neg hsome, addInPlace, hadd]

/-- The loop over the groups does not fail, and it notes when one of them has the package. -/
theorem updateGroups_ok (specifier : Text) (groups : List DependencyGroup)
    (manifest : PackageManifest) (updated : Bool) :
    ∃ manifest' updated', groups.foldlM (updateGroup name specifier) (manifest, updated) =
        .ok (manifest', updated') ∧ manifest'.HasAllOf manifest ∧
      (updated = true ∨ (∃ group ∈ groups, (manifest.dependencyVersion name group).isSome) →
        updated' = true) := by
  induction groups generalizing manifest updated with
  | nil => exact ⟨manifest, updated, rfl, .refl manifest, by simp⟩
  | cons group rest ih =>
      rw [List.foldlM_cons, updateGroup]
      cases hspec : manifest.dependencyVersion name group with
      | none =>
          obtain ⟨manifest', updated', hfold, hall, hnoted⟩ := ih manifest updated
          refine ⟨manifest', updated', hfold, hall, fun h => hnoted (h.imp_right ?_)⟩
          rintro ⟨group', hgroup', hsome⟩
          rcases List.mem_cons.mp hgroup' with rfl | hgroup'
          · rw [hspec] at hsome
            cases hsome
          · exact ⟨group', hgroup', hsome⟩
      | some old =>
          obtain ⟨manifest₁, hadd, -, hkept⟩ := addInPlace_of_isSome (by rw [hspec]; rfl) specifier
          obtain ⟨manifest', updated', hfold, hall, hnoted⟩ := ih manifest₁ true
          refine ⟨manifest', updated', ?_, hkept.trans hall, fun _ => hnoted (Or.inl rfl)⟩
          rw [hadd]
          exact hfold

/-- A package that one of the groups has is updated without an error. -/
theorem updatePackageInPlace_ok {groups : List DependencyGroup} {package : Text}
    (h : ∃ group ∈ groups,
      (manifest.dependencyVersion (ParsedPackageSpec.parse package).name group).isSome) :
    ∃ manifest', updatePackage groups manifest package = .ok manifest' ∧
      updatePackageInPlace groups manifest package = (manifest', none) ∧
      manifest'.HasAllOf manifest := by
  cases hspecifier : (ParsedPackageSpec.parse package).specifier with
  | none =>
      refine ⟨manifest, ?_, ?_, .refl manifest⟩
      · rw [updatePackage, hspecifier]
      · rw [updatePackageInPlace, hspecifier]
  | some specifier =>
      obtain ⟨manifest', updated', hfold, hall, hnoted⟩ :=
        updateGroups_ok specifier groups manifest false
      obtain rfl : updated' = true := hnoted (Or.inr h)
      refine ⟨manifest', ?_, ?_, hall⟩
      · have hedit : updatePackage groups manifest package =
            (groups.foldlM (updateGroup (ParsedPackageSpec.parse package).name specifier)
              (manifest, false)) >>= fun state =>
                if state.2 then .ok state.1
                else .error (.missingPackage (ParsedPackageSpec.parse package).name) := by
          rw [updatePackage, hspecifier]
          rfl
        rw [hedit, hfold]
        rfl
      · have hloop : forEach (updateGroupInPlace _ specifier) (manifest, false) groups =
            ((manifest', true), none) :=
          forEach_of_foldlM (fun _ _ _ => updateGroupInPlace_eq) hfold
        rw [updatePackageInPlace, hspecifier]
        simp only [hloop, if_true]

end Never

section Run

variable {V I : Type} [NodeSemver V] [SemverRange V]

theorem ensureTargetPackagesExist_ok {manifest : PackageManifest} {groups : List DependencyGroup}
    {packages : List Text} (h : ensureTargetPackagesExist manifest groups packages = .ok ()) :
    ∀ package ∈ packages, ∃ group ∈ groups,
      (manifest.dependencyVersion (ParsedPackageSpec.parse package).name group).isSome := by
  induction packages with
  | nil => exact fun _ hpackage => absurd hpackage List.not_mem_nil
  | cons package rest ih =>
      obtain ⟨_, hfirst, hrest⟩ := Results.bind_ok h
      rintro package' hpackage'
      rcases List.mem_cons.mp hpackage' with rfl | hpackage'
      · simp only at hfirst
        split at hfirst
        · cases hfirst
        · rename_i hall
          simpa [Option.isSome_iff_ne_none] using hall
      · exact ih hrest package' hpackage'

/-- The edits of packages that are all there do not fail. -/
theorem updatePackages_ok {groups : List DependencyGroup} {packages : List Text}
    {manifest : PackageManifest} (h : ∀ package ∈ packages, ∃ group ∈ groups,
      (manifest.dependencyVersion (ParsedPackageSpec.parse package).name group).isSome) :
    ∃ manifest', packages.foldlM (updatePackage groups) manifest = .ok manifest' ∧
      forEach (updatePackageInPlace groups) manifest packages = (manifest', none) := by
  induction packages generalizing manifest with
  | nil => exact ⟨manifest, rfl, rfl⟩
  | cons package rest ih =>
      obtain ⟨manifest₁, hedit, hinPlace, hall⟩ :=
        updatePackageInPlace_ok (h package List.mem_cons_self)
      obtain ⟨manifest', hrest, hlast⟩ := ih fun package' hpackage' => by
        obtain ⟨group, hgroup, hsome⟩ := h package' (List.mem_cons_of_mem _ hpackage')
        exact ⟨group, hgroup, hall _ _ hsome⟩
      refine ⟨manifest', ?_, ?_⟩
      · rw [List.foldlM_cons, hedit]
        exact hrest
      · rw [forEach, hinPlace]
        exact hlast

/-- The new specifiers of an update to the latest versions are written without an error. -/
theorem applyUpdates_ok (groups : List DependencyGroup) (manifest : PackageManifest)
    (updates : List (Text × Text × Text)) :
    ∃ manifest', updates.foldlM (applyUpdate groups) manifest = .ok manifest' ∧
      forEach (applyInPlace groups) manifest updates = (manifest', none) := by
  induction updates generalizing manifest with
  | nil => exact ⟨manifest, rfl, rfl⟩
  | cons e rest ih =>
      obtain ⟨manifest₁, hedit, hinPlace⟩ := applyInPlace_ok groups manifest e
      obtain ⟨manifest', hrest, hlast⟩ := ih manifest₁
      refine ⟨manifest', ?_, ?_⟩
      · rw [List.foldlM_cons, hedit]
        exact hrest
      · rw [forEach, hinPlace]
        exact hlast

theorem Update.editLatest_eq (update : Update V I) :
    update.editLatest = update.targets >>= fun targets =>
      targets.mapM update.resolveTarget >>= fun updates =>
        updates.foldlM (applyUpdate update.dependencyGroups) update.manifest := by
  unfold Update.editLatest Update.targets
  split <;> rfl

/-- An update to the latest versions fails before its first edit or not at all. -/
theorem Update.editLatestInPlace_eq (update : Update V I) :
    update.editLatestInPlace = match update.editLatest with
      | .ok manifest' => (manifest', none)
      | .error error => (update.manifest, some error) := by
  rw [Update.editLatest_eq, Update.editLatestInPlace]
  cases update.targets with
  | error error => rfl
  | ok targets =>
      simp only [bind, Except.bind]
      cases targets.mapM update.resolveTarget with
      | error error => rfl
      | ok updates =>
          obtain ⟨manifest', hedit, hinPlace⟩ :=
            applyUpdates_ok update.dependencyGroups update.manifest updates
          simp only [hinPlace, hedit]

/-- The edits in place leave the edited manifest, or the manifest as it was with the error
that the update returns. -/
theorem Update.editInPlace_eq (update : Update V I) :
    update.editInPlace = match update.edit with
      | .ok manifest' => (manifest', none)
      | .error error => (update.manifest, some error) := by
  unfold Update.editInPlace Update.edit
  split
  · exact update.editLatestInPlace_eq
  · split
    · rfl
    · cases hensure : ensureTargetPackagesExist update.manifest update.dependencyGroups
          update.packages with
      | error error => rfl
      | ok _ =>
          obtain ⟨manifest', hedit, hinPlace⟩ :=
            updatePackages_ok (ensureTargetPackagesExist_ok hensure)
          simp only [bind, Except.bind, hinPlace, hedit]

/-- An update that returns an error leaves the manifest as it was: once the packages are
known to be there, and the latest versions are resolved, no edit fails. -/
theorem Update.editInPlace_atomic (update : Update V I) :
    (∀ manifest' error, update.editInPlace = (manifest', some error) →
      manifest' = update.manifest) ∧
    (∀ targets updates, update.latest = true → update.targets = .ok targets →
      targets.mapM update.resolveTarget = .ok updates →
        ∃ manifest', update.editInPlace = (manifest', none)) ∧
    (update.latest = false → update.packages ≠ [] →
      ensureTargetPackagesExist update.manifest update.dependencyGroups update.packages = .ok () →
        ∃ manifest', update.editInPlace = (manifest', none)) := by
  refine ⟨fun manifest' error h => ?_, fun targets updates hlatest htargets hupdates => ?_,
    fun hlatest hpackages hensure => ?_⟩
  · rw [Update.editInPlace_eq] at h
    cases hedit : update.edit with
    | ok edited =>
        rw [hedit] at h
        cases h
    | error error' =>
        rw [hedit] at h
        cases h
        rfl
  · obtain ⟨manifest', -, hinPlace⟩ :=
      applyUpdates_ok update.dependencyGroups update.manifest updates
    refine ⟨manifest', ?_⟩
    rw [Update.editInPlace, if_pos hlatest, Update.editLatestInPlace, htargets]
    simp only [hupdates, hinPlace]
  · obtain ⟨manifest', -, hinPlace⟩ := updatePackages_ok (ensureTargetPackagesExist_ok hensure)
    refine ⟨manifest', ?_⟩
    have hsome : update.packages.isEmpty = false := by simpa using hpackages
    rw [Update.editInPlace, hlatest, hsome, hensure]
    simp only [Bool.false_eq_true, if_false, hinPlace]

end Run

section Samples

/-- An update of a name that two groups have, once exact and once behind a caret. -/
def demoUpdate : Update FullVersion Unit where
  config := defaultNpmrc
  manifest := ⟨.object (.ofList
    [("dependencies".toList, .object (.ofList [("demo".toList, .string "0.9.0".toList)])),
      ("devDependencies".toList, .object (.ofList [("demo".toList, .string "^0.9.0".toList)]))])⟩
  dependencyGroups := [.prod, .dev]
  packages := []
  latest := true
  registry := demoRegistry
  resolvedPackages := []

/-- An update of one package that is there and one that is not. -/
def missingUpdate : Update FullVersion Unit :=
  { demoUpdate with packages := ["demo@1.0.0".toList, "other@1.0.0".toList], latest := false }

theorem Update.editInPlace_atomic_missing :
    (∃ error, missingUpdate.editInPlace = (demoUpdate.manifest, some error)) ∧
    (∃ manifest', demoUpdate.editInPlace = (manifest', none)) ∧
    ∃ manifest', ({ missingUpdate with packages := ["demo@1.0.0".toList] } :
      Update FullVersion Unit).editInPlace = (manifest', none) := by
  refine ⟨?_, ?_, ?_⟩
  · obtain ⟨manifest', error, hmissing⟩ :
        ∃ manifest' error, missingUpdate.editInPlace = (manifest', some error) := ⟨_, _, rfl⟩
    rw [(Update.editInPlace_atomic missingUpdate).1 manifest' error hmissing] at hmissing
    exact ⟨error, hmissing⟩
  · exact (Update.editInPlace_atomic demoUpdate).2.1 _ _ rfl rfl rfl
  · exact (Update.editInPlace_atomic _).2.2 rfl (by simp) rfl

end Samples

end Npnpm
