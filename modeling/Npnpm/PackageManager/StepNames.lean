import Npnpm.Library.FileNames
import Npnpm.PackageManager.InstallFrozenLockfile

/-!
# Names that install steps give

Whatever a step of an install creates has a path component for its name.
-/

namespace Npnpm

open Npnpm.Path Npnpm.FileTree

variable {t t' : Tree} {importMethod : PackageImportMethod}

theorem symlinkDir_plainNames {symlinkTarget symlinkPath : Text} (ht : t.PlainNames)
    (h : symlinkDir t symlinkTarget symlinkPath = .ok t') : t'.PlainNames := by
  unfold symlinkDir symlink at h
  split at h
  · rename_i hmake
    cases h
    exact ht.makeNode (plainPath_components symlinkPath) hmake
  · cases h
    exact ht
  · cases h

theorem replaceLink_plainNames {symlinkTarget symlinkPath : Text} (ht : t.PlainNames)
    (h : replaceLink t symlinkTarget symlinkPath = .ok t') : t'.PlainNames := by
  unfold replaceLink at h
  simp only at h
  split at h
  · split at h
    · cases h
      exact ht
    · obtain ⟨s, hs, hlink⟩ := Results.bind_ok h
      obtain ⟨q, -, hne, rfl⟩ := removeStale_ok (Results.mapError_ok hs)
      exact symlinkDir_plainNames (ht.remove hne) hlink
  · exact symlinkDir_plainNames ht h

theorem symlinkPackage_plainNames {symlinkTarget symlinkPath : Text} (ht : t.PlainNames)
    (h : symlinkPackage t symlinkTarget symlinkPath = .ok t') : t'.PlainNames := by
  unfold symlinkPackage at h
  cases hparent : parent (components symlinkPath) with
  | none =>
      rw [hparent] at h
      exact replaceLink_plainNames ht h
  | some dir =>
      rw [hparent] at h
      obtain ⟨s, hs, h⟩ := Results.bind_ok h
      have hplain := (plainPath_components symlinkPath).subset (mem_of_mem_parent hparent)
      exact replaceLink_plainNames (ht.createDirAll hplain (Results.mapError_ok hs)) h

theorem linkFile_plainNames {source target : Text} (ht : t.PlainNames)
    (h : linkFile importMethod t source target = .ok t') : t'.PlainNames := by
  have hnew : ∀ {s}, importNew t source target = .ok s → s.PlainNames := by
    intro s hs
    obtain ⟨content, -, hmake⟩ := Results.bind_ok hs
    exact ht.makeNode (plainPath_components target) hmake
  have hcopy : ∀ {s}, importCopy t source target = .ok s → s.PlainNames := by
    intro s hs
    obtain ⟨content, -, hmake⟩ := Results.bind_ok hs
    exact ht.makeTarget (plainPath_components target) hmake
  have hboth : ∀ {s}, importOrCopy t source target = .ok s → s.PlainNames := by
    intro s hs
    unfold importOrCopy at hs
    split at hs
    · rename_i hfirst
      cases hs
      exact hnew hfirst
    · exact hcopy hs
  unfold linkFile at h
  split at h
  · cases h
    exact ht
  · have hres := Results.mapError_ok h
    cases importMethod with
    | auto => exact hboth hres
    | hardlink => exact hnew hres
    | copy => exact hcopy hres
    | clone => exact hnew hres
    | cloneOrCopy => exact hboth hres

theorem mem_insertPath {p q : List Component} {dirs : List (List Component)}
    (h : q ∈ insertPath p dirs) : q = p ∨ q ∈ dirs := by
  induction dirs with
  | nil => exact Or.inl (List.mem_singleton.mp h)
  | cons first rest ih =>
      unfold insertPath at h
      split at h
      · exact Or.inr h
      · split at h
        · exact List.mem_cons.mp h
        · rcases List.mem_cons.mp h with rfl | h
          · exact Or.inr List.mem_cons_self
          · exact (ih h).imp_right (List.mem_cons_of_mem _)

/-- What a fold over keys collects was there or comes from one of the keys. -/
theorem mem_foldl_or {α β : Type*} {f : List β → α → List β} {P : α → Prop} {b : β}
    (hf : ∀ l a, b ∈ f l a → b ∈ l ∨ P a) {l : List β} {keys : List α}
    (h : b ∈ keys.foldl f l) : b ∈ l ∨ ∃ a ∈ keys, P a := by
  induction keys generalizing l with
  | nil => exact Or.inl h
  | cons a rest ih =>
      rcases ih h with hmem | ⟨other, hother, hp⟩
      · exact (hf l a hmem).imp_right fun hp => ⟨a, List.mem_cons_self, hp⟩
      · exact Or.inr ⟨other, List.mem_cons_of_mem _ hother, hp⟩

/-- The directories that are created for the files are below the directory of the
package, or where an absolute key leads. -/
theorem exists_of_mem_parentDirs {dirPath : Text} {casPaths : CasPaths} {dir : List Component}
    (h : dir ∈ parentDirs dirPath casPaths) :
    ∃ key ∈ casPaths.keys, ∃ up, parent (components key) = some up ∧
      dir = joinComponents (components dirPath) up := by
  unfold parentDirs at h
  have hround := mem_foldl_or (P := fun key => ∃ up, parent (components key) = some up ∧
    dir = joinComponents (components dirPath) up) ?_ h
  · exact hround.resolve_left List.not_mem_nil
  · intro dirs key hmem
    split at hmem
    · exact Or.inl hmem
    · exact Or.inl hmem
    · rename_i up _ hup
      rcases mem_insertPath hmem with rfl | hmem
      · exact Or.inr ⟨up, hup, rfl⟩
      · exact Or.inl hmem

theorem createCasFiles_plainNames {dirPath : Text} {casPaths : CasPaths} (ht : t.PlainNames)
    (h : createCasFiles importMethod t dirPath casPaths = .ok t') : t'.PlainNames := by
  unfold createCasFiles at h
  split at h
  · cases h
    exact ht
  · obtain ⟨s₁, h₁, h⟩ := Results.bind_ok h
    obtain ⟨s₂, h₂, h₃⟩ := Results.bind_ok h
    have hs₁ := ht.createDirAll (plainPath_components dirPath) (Results.mapError_ok h₁)
    have hs₂ : s₂.PlainNames := by
      refine Results.foldlM_invariant (fun s : Tree => s.PlainNames) h₂ hs₁ ?_
      intro dir hdir s s' hs hmake
      obtain ⟨key, -, up, hup, rfl⟩ := exists_of_mem_parentDirs hdir
      refine hs.createDirAll ?_ (Results.mapError_ok hmake)
      have hplain : PlainPath up := (plainPath_components key).subset (mem_of_mem_parent hup)
      unfold joinComponents
      split
      · exact hplain
      · intro name hname
        rcases List.mem_append.mp hname with hname | hname
        · exact plainPath_components dirPath name hname
        · exact hplain name (List.mem_of_mem_filter hname)
    exact Results.foldlM_invariant (fun s : Tree => s.PlainNames) h₃ hs₂
      fun _ _ s s' hs hlink => linkFile_plainNames hs hlink

theorem syncDirectDependencyLinks_plainNames {modulesDir : Text} {desired : List Text}
    (ht : t.PlainNames) (h : syncDirectDependencyLinks t modulesDir desired = .ok t') :
    t'.PlainNames := by
  unfold syncDirectDependencyLinks at h
  simp only at h
  split at h
  · obtain ⟨packages, -, h⟩ := Results.bind_ok h
    refine Results.foldlM_invariant (fun s : Tree => s.PlainNames) h ht ?_
    intro package _ s s' hs hround
    unfold syncPackage at hround
    split at hround
    · cases hround
      exact hs
    · obtain ⟨s₁, hs₁, hround⟩ := Results.bind_ok hround
      obtain ⟨q, -, hne, rfl⟩ := removeStale_ok (Results.mapError_ok hs₁)
      have hfirst := hs.remove hne
      split at hround
      · cases hround
        exact hfirst
      · split at hround
        · obtain ⟨r, -, hrne, rfl⟩ := removeDir_ok (Results.mapError_ok hround)
          exact hfirst.remove hrne
        · cases hround
          exact hfirst
  · cases h
    exact ht

/-- A step keeps the names path components. -/
theorem InstallStep.exec_plainNames {step : InstallStep} (ht : t.PlainNames)
    (h : step.exec importMethod t = .ok t') : t'.PlainNames := by
  cases step with
  | nodeModules dir =>
      exact ht.createDirAll (plainPath_components dir) (Results.mapError_ok h)
  | importFiles savePath casPaths => exact createCasFiles_plainNames ht (Results.mapError_ok h)
  | linkPackage symlinkTarget symlinkPath =>
      exact symlinkPackage_plainNames ht (Results.mapError_ok h)
  | syncLinks modulesDir desired =>
      exact syncDirectDependencyLinks_plainNames ht (Results.mapError_ok h)

theorem runSteps_plainNames {steps : List InstallStep} (ht : t.PlainNames)
    (h : runSteps importMethod steps t = .ok t') : t'.PlainNames :=
  Results.foldlM_invariant (fun s : Tree => s.PlainNames) h ht
    fun _ _ _ _ hs hexec => InstallStep.exec_plainNames hs hexec

end Npnpm
