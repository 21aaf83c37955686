import Npnpm.PackageManager.InstallFrozenLockfile

/-!
# Runs of install steps

What one step changes, and what a sequence of steps keeps. The paths of the steps
are read as locations, which is right as long as no link stands on their way; the
steps themselves keep it so when none of them makes a link on the way of another.
-/

namespace Npnpm

open Npnpm.Path Npnpm.FileTree

section Step

/-- The path of a step names a location, as an absolute path without `..` does. -/
def InstallStep.Placed : InstallStep → Prop
  | .nodeModules dir => ∃ q, LeadsTo dir q
  | .importFiles savePath _ => ∃ d name, LeadsTo savePath (d ++ [name])
  | .linkPackage _ symlinkPath => ∃ d name, LeadsTo symlinkPath (d ++ [name])
  | .syncLinks modulesDir _ => ∃ m, LeadsTo modulesDir m

/-- The locations that a step passes on its way. -/
def InstallStep.Guards : InstallStep → Loc → Prop
  | .nodeModules dir, q => ∃ r, LeadsTo dir r ∧ q <+: r
  | .importFiles savePath _, q => ∃ r, LeadsTo savePath r ∧ q <+: r ∧ q ≠ r
  | .linkPackage _ symlinkPath, q => ∃ r, LeadsTo symlinkPath r ∧ q <+: r ∧ q ≠ r
  | .syncLinks modulesDir _, q =>
      ∃ m, LeadsTo modulesDir m ∧ (q <+: m ∨ ∃ name, name.head? = some '@' ∧ q = m ++ [name])

/-- The locations from which a step may remove a node. -/
def InstallStep.Clears : InstallStep → Loc → Prop
  | .linkPackage _ symlinkPath, q => ∃ r, LeadsTo symlinkPath r ∧ r <+: q
  | .syncLinks modulesDir _, q => ∃ m, LeadsTo modulesDir m ∧ SyncZone m q
  | _, _ => False

/-- The link that a step may make. -/
def InstallStep.Links : InstallStep → Loc → Text → Prop
  | .linkPackage symlinkTarget symlinkPath, q, target =>
      LeadsTo symlinkPath q ∧ target = symlinkTarget
  | _, _, _ => False

/-- No link stands on the way of a step. -/
def InstallStep.Unobstructed (step : InstallStep) (t : Tree) : Prop :=
  ∀ q, step.Guards q → ∀ target, t.get q ≠ some (.link target)

variable {importMethod : PackageImportMethod} {t t' : Tree}

theorem clear_of_guards {d : Loc} {name : Text} {guards : Loc → Prop}
    (h : ∀ q, guards q → ∀ target, t.get q ≠ some (.link target))
    (hg : ∀ q, q <+: d ++ [name] → q ≠ d ++ [name] → guards q) : Clear t d := by
  intro p hp target
  refine h p (hg p (hp.trans (List.prefix_append _ _)) ?_) target
  rintro rfl
  exact not_concat_above d name hp

theorem linkPackage_clear {symlinkTarget symlinkPath : Text} {d : Loc} {name : Text}
    (hpath : LeadsTo symlinkPath (d ++ [name]))
    (h : (InstallStep.linkPackage symlinkTarget symlinkPath).Unobstructed t) : Clear t d :=
  clear_of_guards h fun _ hq hne => ⟨_, hpath, hq, hne⟩

theorem importFiles_clear {savePath : Text} {casPaths : CasPaths} {d : Loc} {name : Text}
    (hpath : LeadsTo savePath (d ++ [name]))
    (h : (InstallStep.importFiles savePath casPaths).Unobstructed t) : Clear t d :=
  clear_of_guards h fun _ hq hne => ⟨_, hpath, hq, hne⟩

theorem syncLinks_modulesClear {modulesDir : Text} {desired : List Text} {m : Loc}
    (hpath : LeadsTo modulesDir m)
    (h : (InstallStep.syncLinks modulesDir desired).Unobstructed t) : ModulesClear t m :=
  ⟨fun p hp => h p ⟨m, hpath, Or.inl hp⟩,
    fun name target hname => h (m ++ [name]) ⟨m, hpath, Or.inr ⟨name, hname, rfl⟩⟩ target⟩

/-- What one step changes. -/
theorem InstallStep.changes {step : InstallStep} (hplaced : step.Placed)
    (hway : step.Unobstructed t) (h : step.exec importMethod t = .ok t') :
    Changes step.Clears step.Links t t' := by
  cases step with
  | nodeModules dir => exact (Grows.of_createDirAll (Results.mapError_ok h)).changes
  | importFiles savePath casPaths =>
      exact (createCasFiles_grows (Results.mapError_ok h)).changes
  | linkPackage symlinkTarget symlinkPath =>
      obtain ⟨d, name, hpath⟩ := hplaced
      exact symlinkPackage_changes hpath (linkPackage_clear hpath hway) (Results.mapError_ok h)
        (fun q hq => ⟨_, hpath, hq⟩) ⟨hpath, rfl⟩
  | syncLinks modulesDir desired =>
      obtain ⟨m, hpath⟩ := hplaced
      obtain ⟨-, hchanges⟩ := syncDirectDependencyLinks_ok hpath
        (syncLinks_modulesClear hpath hway) (Results.mapError_ok h)
      exact ⟨fun q node hq hc => hchanges.kept q node hq fun hzone => hc ⟨m, hpath, hzone⟩,
        fun q target hq => Or.inl ((hchanges.links q target hq).resolve_right id)⟩

end Step

section Steps

/-- Steps whose paths name locations, none of which makes a link on the way of
another. -/
structure Orderly (steps : List InstallStep) : Prop where
  placed : ∀ step ∈ steps, step.Placed
  apart : ∀ step ∈ steps, ∀ other ∈ steps, ∀ q target, step.Links q target → ¬ other.Guards q

/-- No link stands on the way of any of the steps. -/
def Tidy (steps : List InstallStep) (t : Tree) : Prop := ∀ step ∈ steps, step.Unobstructed t

variable {importMethod : PackageImportMethod} {steps part : List InstallStep} {t t' : Tree}

theorem Orderly.changes (h : Orderly steps) (htidy : Tidy steps t) {step : InstallStep}
    (hmem : step ∈ steps) (hexec : step.exec importMethod t = .ok t') :
    Changes step.Clears step.Links t t' :=
  step.changes (h.placed step hmem) (htidy step hmem) hexec

theorem tidy_of_noLink (h : ∀ q target, t.get q ≠ some (.link target)) : Tidy steps t :=
  fun _ _ q _ target => h q target

/-- One step leaves the ways of all steps free of links. -/
theorem Tidy.step (h : Orderly steps) (htidy : Tidy steps t) {step : InstallStep}
    (hmem : step ∈ steps) (hexec : step.exec importMethod t = .ok t') : Tidy steps t' := by
  intro other hother q hguard target hlink
  rcases (h.changes htidy hmem hexec).links q target hlink with hold | hnew
  · exact htidy other hother q hguard target hold
  · exact h.apart step hmem other hother q target hnew hguard

/-- The rule for runs: what every step keeps, from tidy states, holds at the end. -/
theorem Orderly.run_invariant (h : Orderly steps) (inv : Tree → Prop)
    (hpart : ∀ step ∈ part, step ∈ steps) (hrun : runSteps importMethod part t = .ok t')
    (htidy : Tidy steps t) (hstart : inv t)
    (hstep : ∀ step ∈ part, ∀ s s', Tidy steps s → inv s →
      step.exec importMethod s = .ok s' → inv s') :
    Tidy steps t' ∧ inv t' :=
  Results.foldlM_invariant (fun s => Tidy steps s ∧ inv s) hrun ⟨htidy, hstart⟩
    fun step hmem s s' ⟨hs, hi⟩ hexec =>
      ⟨hs.step h (hpart step hmem) hexec, hstep step hmem s s' hs hi hexec⟩

theorem Orderly.run_tidy (h : Orderly steps) (hpart : ∀ step ∈ part, step ∈ steps)
    (hrun : runSteps importMethod part t = .ok t') (htidy : Tidy steps t) : Tidy steps t' :=
  (h.run_invariant (fun _ => True) hpart hrun htidy trivial fun _ _ _ _ _ _ _ => trivial).1

/-- A run passes each of its steps, from a tidy state to a tidy state. -/
theorem Orderly.run_at (h : Orderly steps) (hrun : runSteps importMethod steps t = .ok t')
    (htidy : Tidy steps t) {before after : List InstallStep} {step : InstallStep}
    (hsplit : steps = before ++ step :: after) :
    ∃ s s', runSteps importMethod before t = .ok s ∧ step.Unobstructed s ∧
      step.exec importMethod s = .ok s' ∧ Tidy steps s' ∧
      runSteps importMethod after s' = .ok t' := by
  have hmem : step ∈ steps := by simp [hsplit]
  rw [hsplit] at hrun
  obtain ⟨s, hs, hrest⟩ := runSteps_append_ok hrun
  obtain ⟨s', hs', hafter⟩ := runSteps_cons_ok hrest
  have htidys := h.run_tidy (fun other hother => by simp [hsplit, hother]) hs htidy
  exact ⟨s, s', hs, htidys step hmem, hs', htidys.step h hmem hs', hafter⟩

end Steps

section Along

/-- Every step of a run meets the condition in the state before it. -/
def Along (importMethod : PackageImportMethod) (condition : InstallStep → Tree → Prop) :
    List InstallStep → Tree → Prop
  | [], _ => True
  | step :: rest, t =>
      condition step t ∧
        match step.exec importMethod t with
        | .ok t' => Along importMethod condition rest t'
        | .error _ => True

instance Along.decidable (importMethod : PackageImportMethod)
    (condition : InstallStep → Tree → Prop) [∀ step t, Decidable (condition step t)] :
    ∀ steps t, Decidable (Along importMethod condition steps t)
  | [], _ => isTrue trivial
  | step :: rest, t =>
      have : Decidable (match step.exec importMethod t with
          | .ok t' => Along importMethod condition rest t'
          | .error _ => True) :=
        match step.exec importMethod t with
        | .ok t' => Along.decidable importMethod condition rest t'
        | .error _ => isTrue trivial
      inferInstanceAs (Decidable (condition step t ∧ _))

variable {importMethod : PackageImportMethod} {condition : InstallStep → Tree → Prop}

theorem Along.drop {before after : List InstallStep} {t s : Tree}
    (h : Along importMethod condition (before ++ after) t)
    (hrun : runSteps importMethod before t = .ok s) : Along importMethod condition after s := by
  induction before generalizing t with
  | nil =>
      cases hrun
      exact h
  | cons first rest ih =>
      obtain ⟨s₁, hs₁, hrest⟩ := runSteps_cons_ok hrun
      have htail := h.2
      rw [hs₁] at htail
      exact ih htail hrest

theorem Along.take {before after : List InstallStep} {t : Tree}
    (h : Along importMethod condition (before ++ after) t) :
    Along importMethod condition before t := by
  induction before generalizing t with
  | nil => trivial
  | cons first rest ih =>
      refine ⟨h.1, ?_⟩
      have htail := h.2
      cases hexec : first.exec importMethod t with
      | error _ => trivial
      | ok s =>
          rw [hexec] at htail
          exact ih htail

/-- The condition holds before each step of the run. -/
theorem Along.at_step {before after : List InstallStep} {step : InstallStep} {t s : Tree}
    (h : Along importMethod condition (before ++ step :: after) t)
    (hrun : runSteps importMethod before t = .ok s) : condition step s :=
  (h.drop hrun).1

/-- A condition that holds before each step of the run holds along it. -/
theorem along_of_splits {steps : List InstallStep} {t : Tree}
    (h : ∀ before step after s, steps = before ++ step :: after →
      runSteps importMethod before t = .ok s → condition step s) :
    Along importMethod condition steps t := by
  induction steps generalizing t with
  | nil => trivial
  | cons first rest ih =>
      refine ⟨h [] first rest t rfl rfl, ?_⟩
      cases hexec : first.exec importMethod t with
      | error _ => trivial
      | ok s =>
          refine ih fun before step after s' hsplit hrun => ?_
          exact h (first :: before) step after s' (by rw [hsplit, List.cons_append])
            (runSteps_cons_of_ok hexec hrun)

/-- The rule for runs whose steps meet a condition. -/
theorem Orderly.run_invariant_along {steps part rest : List InstallStep} {t t' : Tree}
    (h : Orderly steps) (inv : Tree → Prop) (hpart : ∀ step ∈ part, step ∈ steps)
    (hrun : runSteps importMethod part t = .ok t')
    (hcondition : Along importMethod condition (part ++ rest) t) (htidy : Tidy steps t)
    (hstart : inv t)
    (hstep : ∀ step ∈ part, ∀ s s', Tidy steps s → condition step s → inv s →
      step.exec importMethod s = .ok s' → inv s') : inv t' := by
  induction part generalizing t with
  | nil =>
      cases hrun
      exact hstart
  | cons first part ih =>
      obtain ⟨s, hs, hrest⟩ := runSteps_cons_ok hrun
      have hmem : first ∈ steps := hpart first List.mem_cons_self
      have hafter := hcondition.2
      rw [hs] at hafter
      exact ih (fun step hstep => hpart step (List.mem_cons_of_mem _ hstep)) hrest hafter
        (htidy.step h hmem hs)
        (hstep first List.mem_cons_self t s htidy hcondition.1 hstart hs)
        fun step hmem => hstep step (List.mem_cons_of_mem _ hmem)

end Along

end Npnpm
