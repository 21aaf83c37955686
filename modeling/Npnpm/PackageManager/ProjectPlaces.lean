import Npnpm.PackageManager.VirtualStoreLayout

/-!
# The places of a project

A project has one `node_modules` directory of its own and one for each store name
of the virtual store. Whatever an install writes, with a lockfile or without, it
writes at a package name below one of them. Such a place is never on the way to
another one, so the steps of an install keep out of each other's way.
-/

namespace Npnpm

open Npnpm.Path Npnpm.FileTree

section Places

/-- A name as npm accepts it: a plain one that does not start with a dot. -/
structure PkgName.Visible (name : PkgName) : Prop where
  plain : name.Plain
  visible : name.display.head? ≠ some '.'

instance (name : PkgName) : Decidable name.Visible :=
  decidable_of_iff (name.Plain ∧ name.display.head? ≠ some '.')
    ⟨fun h => ⟨h.1, h.2⟩, fun h => ⟨h.1, h.2⟩⟩

def binName : Text := ".bin".toList

/-- The virtual store is beside the modules directory, or below a hidden entry of it
other than `.bin`. -/
structure Apart (v m : Loc) : Prop where
  outside : ¬ v <+: m
  hidden : ∀ name rest, v = m ++ name :: rest → name.head? = some '.' ∧ name ≠ binName

/-- The `node_modules` directories of a project. -/
inductive NodeModulesDir (v m : Loc) : Loc → Prop
  | modules : NodeModulesDir v m m
  | store (storeName : Text) : NodeModulesDir v m (storeLoc v storeName)

/-- The places of names below the `node_modules` directories; in the modules
directory the way to the virtual store is not such a place. -/
inductive PackagePlace (v m : Loc) : Loc → Prop
  | direct {name : PkgName} (h : name.Plain) (hfree : ∀ rest, v ≠ m ++ name.display :: rest) :
      PackagePlace v m (m ++ name.loc)
  | entry (storeName : Text) {name : PkgName} (h : name.Plain) :
      PackagePlace v m (storeLoc v storeName ++ name.loc)

/-- On the way to the directory, or the directory of a scope in it. -/
def OnWay (d q : Loc) : Prop := q <+: d ∨ ∃ name, name.head? = some '@' ∧ q = d ++ [name]

variable {v m : Loc}

theorem PackagePlace.exists_concat {q : Loc} (h : PackagePlace v m q) :
    ∃ d last, q = d ++ [last] := by
  cases h with
  | direct h hfree => exact Npnpm.exists_concat (by simp [PkgName.loc_ne_nil])
  | entry storeName h => exact Npnpm.exists_concat (by simp [PkgName.loc_ne_nil])

/-- What is above a package name is on the way to the directory. -/
theorem onWay_of_above {d q : Loc} {name : PkgName} (hq : q <+: d ++ name.loc)
    (hne : q ≠ d ++ name.loc) : OnWay d q := by
  obtain ⟨scope, bare⟩ := name
  cases scope with
  | none => exact Or.inl ((List.prefix_concat_iff.mp hq).resolve_left hne)
  | some scope =>
      have hloc : d ++ PkgName.loc ⟨some scope, bare⟩ = d ++ ['@' :: scope] ++ [bare] := by
        simp [PkgName.loc]
      rw [hloc] at hq hne
      rcases List.prefix_concat_iff.mp ((List.prefix_concat_iff.mp hq).resolve_left hne) with
        rfl | hd
      · exact Or.inr ⟨_, rfl, rfl⟩
      · exact Or.inl hd

theorem loc_ne_scope {name : PkgName} (hname : name.WellFormed) {scope : Text}
    (hscope : scope.head? = some '@') : name.loc ≠ [scope] := by
  obtain ⟨s, bare⟩ := name
  cases s with
  | none =>
      obtain ⟨x, rest, hbare, hx⟩ := hname
      rintro hloc
      cases hloc
      simp only at hbare
      rw [hbare] at hscope
      exact hx (Option.some.inj hscope)
  | some s => simp [PkgName.loc]

/-- A place in a directory is not on the way to that directory. -/
theorem not_onWay_self {d : Loc} {name : PkgName} (hname : name.WellFormed) :
    ¬ OnWay d (d ++ name.loc) := by
  rintro (hd | ⟨scope, hscope, heq⟩)
  · have hlen := hd.length_le
    have hpos := List.length_pos_iff.mpr name.loc_ne_nil
    rw [List.length_append] at hlen
    omega
  · exact loc_ne_scope hname hscope (List.append_cancel_left heq)

variable (h : Apart v m)
include h

/-- The virtual store and the place of a name in the modules directory are apart. -/
theorem Apart.direct_apart {name : PkgName} (hfree : ∀ rest, v ≠ m ++ name.display :: rest)
    {q : Loc} (hv : v <+: q) (hq : m ++ name.loc <+: q ∨ q <+: m ++ name.loc) : False := by
  obtain ⟨first, rest, hloc⟩ := List.exists_cons_of_ne_nil name.loc_ne_nil
  have hnot : ∀ below, v ≠ m ++ first :: below := by
    rintro below hvm
    rcases name.head_loc hloc with ⟨hat, -⟩ | ⟨hdisplay, -⟩
    · rw [(h.hidden first below hvm).1] at hat
      cases hat
    · exact hfree below (hdisplay ▸ hvm)
  rw [hloc] at hq
  have hcommon : m ++ first :: rest <+: v ∨ v <+: m ++ first :: rest := by
    rcases hq with hq | hq
    · exact List.prefix_or_prefix_of_prefix hq hv
    · exact Or.inr (hv.trans hq)
  rcases hcommon with ⟨more, hmore⟩ | hbelow
  · exact hnot (rest ++ more) (by rw [← hmore, List.append_assoc, List.cons_append])
  · rcases List.prefix_or_prefix_of_prefix hbelow (List.prefix_append m _) with hvm | ⟨tail, rfl⟩
    · exact h.outside hvm
    · rw [List.prefix_append_right_inj] at hbelow
      cases tail with
      | nil => exact h.outside (by simp)
      | cons hidden below =>
          obtain ⟨rfl, -⟩ := List.cons_prefix_cons.mp hbelow
          exact hnot below rfl

/-- A visible name has a place in the modules directory. -/
theorem Apart.visible_place {name : PkgName} (hname : name.Visible) :
    PackagePlace v m (m ++ name.loc) :=
  .direct hname.plain fun rest hvm => hname.visible (h.hidden _ rest hvm).1

/-- No place of a name is on the way to a `node_modules` directory. -/
theorem Apart.not_onWay {d q : Loc} (hq : PackagePlace v m q) (hd : NodeModulesDir v m d) :
    ¬ OnWay d q := by
  cases hq with
  | @direct name hname hfree =>
      cases hd with
      | modules => exact not_onWay_self hname.wellFormed
      | store storeName =>
          rintro (hp | ⟨scope, -, heq⟩)
          · exact h.direct_apart hfree (prefix_storeLoc v storeName) (Or.inl hp)
          · refine h.direct_apart hfree (q := storeLoc v storeName ++ [scope]) ?_ (Or.inl ?_)
            · exact (prefix_storeLoc v storeName).trans (List.prefix_append _ _)
            · exact heq ▸ List.prefix_rfl
  | @entry storeName name hname =>
      have hv : v <+: storeLoc v storeName ++ name.loc :=
        (prefix_storeLoc v storeName).trans (List.prefix_append _ _)
      cases hd with
      | modules =>
          rintro (hp | ⟨scope, hscope, heq⟩)
          · exact h.outside (hv.trans hp)
          · rw [heq] at hv
            rcases List.prefix_concat_iff.mp hv with rfl | hvm
            · have hdot := (h.hidden scope [] rfl).1
              rw [hscope] at hdot
              cases hdot
            · exact h.outside hvm
      | store other =>
          rintro (hp | ⟨scope, hscope, heq⟩)
          · have hlen := hp.length_le
            have hpos := List.length_pos_iff.mpr name.loc_ne_nil
            simp only [storeLoc, List.length_append, List.length_cons, List.length_nil] at hlen
            omega
          · unfold storeLoc at heq
            rw [List.append_assoc, List.append_assoc] at heq
            have htail := List.append_cancel_left heq
            simp only [List.cons_append, List.nil_append, List.cons.injEq, true_and] at htail
            exact loc_ne_scope hname.wellFormed hscope htail.2

omit h in
theorem OnWay.of_above {d p q : Loc} (hq : OnWay d q) (hp : p <+: q) : OnWay d p := by
  rcases hq with hq | ⟨scope, hscope, rfl⟩
  · exact Or.inl (hp.trans hq)
  · rcases List.prefix_concat_iff.mp hp with rfl | hp
    · exact Or.inr ⟨scope, hscope, rfl⟩
    · exact Or.inl hp

end Places

section Steps

/-- The steps of an install into a project. -/
inductive ProjectStep (v m : Loc) : InstallStep → Prop
  | nodeModules {dir : Text} {d : Loc} (hd : NodeModulesDir v m d) (h : LeadsTo dir d) :
      ProjectStep v m (.nodeModules dir)
  | importFiles {savePath : Text} (casPaths : CasPaths) (storeName : Text) {name : PkgName}
      (hname : name.Plain) (h : LeadsTo savePath (storeLoc v storeName ++ name.loc)) :
      ProjectStep v m (.importFiles savePath casPaths)
  | linkPackage (symlinkTarget : Text) {symlinkPath : Text} {q : Loc} (hq : PackagePlace v m q)
      (h : LeadsTo symlinkPath q) : ProjectStep v m (.linkPackage symlinkTarget symlinkPath)
  | syncLinks {modulesDir : Text} (desired : List Text) (h : LeadsTo modulesDir m) :
      ProjectStep v m (.syncLinks modulesDir desired)

/-- No link stands on the way to a package name of the project. -/
def ProjectClear (v m : Loc) (t : Tree) : Prop := ∀ d, NodeModulesDir v m d → ModulesClear t d

variable {v m : Loc} {steps : List InstallStep} {step : InstallStep} {t t' : Tree}

theorem ModulesClear.noLink {d q : Loc} (h : ModulesClear t d) (hq : OnWay d q) (target : Text) :
    t.get q ≠ some (.link target) := by
  rcases hq with hq | ⟨name, hname, rfl⟩
  · exact h.clear q hq target
  · exact h.scopes name target hname

theorem PackagePlace.onWay {p q : Loc} (hq : PackagePlace v m q) (hp : p <+: q) (hne : p ≠ q) :
    ∃ d, NodeModulesDir v m d ∧ OnWay d p := by
  cases hq with
  | direct h hfree => exact ⟨m, .modules, onWay_of_above hp hne⟩
  | entry storeName h => exact ⟨_, .store storeName, onWay_of_above hp hne⟩

/-- The steps pass only ways to the `node_modules` directories. -/
theorem ProjectStep.onWay_of_guards (h : ProjectStep v m step) {q : Loc} (hq : step.Guards q) :
    ∃ d, NodeModulesDir v m d ∧ OnWay d q := by
  cases h with
  | nodeModules hd hdir =>
      obtain ⟨r, hr, hq⟩ := hq
      rw [hr.unique hdir] at hq
      exact ⟨_, hd, Or.inl hq⟩
  | importFiles casPaths storeName hname hpath =>
      obtain ⟨r, hr, hq, hne⟩ := hq
      rw [hr.unique hpath] at hq hne
      exact ⟨_, .store storeName, onWay_of_above hq hne⟩
  | linkPackage target hplace hpath =>
      obtain ⟨r, hr, hq, hne⟩ := hq
      rw [hr.unique hpath] at hq hne
      exact hplace.onWay hq hne
  | syncLinks desired hdir =>
      obtain ⟨r, hr, hq⟩ := hq
      rw [hr.unique hdir] at hq
      exact ⟨m, .modules, hq⟩

/-- The steps of an install leave each other's ways alone. -/
theorem Apart.orderly (h : Apart v m) (hsteps : ∀ step ∈ steps, ProjectStep v m step) :
    Orderly steps := by
  constructor
  · intro step hstep
    cases hsteps step hstep with
    | nodeModules hd hdir => exact ⟨_, hdir⟩
    | importFiles casPaths storeName hname hpath =>
        obtain ⟨d, last, hq⟩ := (PackagePlace.entry (m := m) storeName hname).exists_concat
        exact ⟨d, last, hq ▸ hpath⟩
    | linkPackage target hplace hpath =>
        obtain ⟨d, last, rfl⟩ := hplace.exists_concat
        exact ⟨d, last, hpath⟩
    | syncLinks desired hdir => exact ⟨m, hdir⟩
  · intro step hstep other hother q target hlinks hguards
    obtain ⟨d, hd, hway⟩ := (hsteps other hother).onWay_of_guards hguards
    cases hsteps step hstep with
    | nodeModules hd hdir => exact hlinks
    | importFiles casPaths storeName hname hpath => exact hlinks
    | linkPackage _ hplace hpath =>
        rw [hlinks.1.unique hpath] at hway
        exact h.not_onWay hplace hd hway
    | syncLinks desired hdir => exact hlinks

theorem ProjectClear.tidy (h : ProjectClear v m t) (hsteps : ∀ step ∈ steps, ProjectStep v m step) :
    Tidy steps t := by
  intro step hstep q hguards
  obtain ⟨d, hd, hway⟩ := (hsteps step hstep).onWay_of_guards hguards
  exact (h d hd).noLink hway

end Steps

end Npnpm
