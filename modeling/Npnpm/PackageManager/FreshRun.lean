import Npnpm.PackageManager.DependencyLinks
import Npnpm.PackageManager.StepNames

/-!
# Installing into a fresh project

Every step of an install has one place, and what is new after it lies on the way to the place or
below it. The places of the steps are apart, so in a project that has nothing yet where they lead
each package is imported into nothing and each link is made where nothing stands.
-/

namespace Npnpm

open Npnpm.Path Npnpm.FileTree

section Adds

/-- What is new is at the given locations. -/
def Adds (made : Loc → Prop) (t t' : Tree) : Prop :=
  ∀ q, t.get q = none → t'.get q ≠ none → made q

/-- On the way to the place, or below it. -/
def Through (place q : Loc) : Prop := q <+: place ∨ place <+: q

variable {made made' : Loc → Prop} {t s t' : Tree}

theorem Adds.refl (made : Loc → Prop) (t : Tree) : Adds made t t := fun _ hnone hsome =>
  absurd hnone hsome

theorem Adds.trans (h : Adds made t s) (h' : Adds made s t') : Adds made t t' := by
  intro q hnone hsome
  by_cases hs : s.get q = none
  · exact h' q hs hsome
  · exact h q hnone hs

theorem Adds.mono (h : Adds made t t') (hmade : ∀ q, made q → made' q) : Adds made' t t' :=
  fun q hnone hsome => hmade q (h q hnone hsome)

theorem Adds.of_shrinks (h : Shrinks t t') (made : Loc → Prop) : Adds made t t' := by
  intro q hnone hsome
  obtain ⟨node, hnode⟩ := Option.ne_none_iff_exists'.mp hsome
  rw [h q node hnode] at hnone
  cases hnone

theorem adds_createDirAll {r : Loc} (hclear : Clear t r)
    (h : createDirAll t (pathOf r) = .ok t') : Adds (· <+: r) t t' := by
  intro q hnone hsome
  by_contra hoff
  rw [get_createDirAll hclear h hoff] at hsome
  exact hsome hnone

theorem adds_create {d : Loc} {name : Text} {node : Node}
    (h : t.create d name node = .ok t') : Adds (· = d ++ [name]) t t' := by
  obtain ⟨-, -, hget⟩ := Tree.create_ok h
  intro q hnone hsome
  rw [hget] at hsome
  split at hsome
  · assumption
  · exact absurd hnone hsome

/-- A link step makes nothing new but its link and the directories above it. -/
theorem symlinkPackage_adds {symlinkTarget symlinkPath : Text} {d : Loc} {name : Text}
    (hpath : LeadsTo symlinkPath (d ++ [name])) (hclear : Clear t d)
    (h : symlinkPackage t symlinkTarget symlinkPath = .ok t') :
    Adds (· <+: d ++ [name]) t t' := by
  obtain ⟨s, hs, -, hout⟩ := symlinkPackage_ok hpath hclear h
  have hdirs : Adds (· <+: d ++ [name]) t s :=
    (adds_createDirAll hclear hs).mono fun q hq => hq.trans (List.prefix_append _ _)
  have hlink : ∀ {r r' : Tree} {node : Node}, r.create d name node = .ok r' →
      Adds (· <+: d ++ [name]) r r' :=
    fun hmade => (adds_create hmade).mono fun q hq => hq ▸ List.prefix_rfl
  refine hdirs.trans ?_
  cases hout with
  | kept _ _ => exact .refl _ _
  | made h => exact hlink h
  | replaced _ _ h =>
      have hgone : Shrinks s (s.remove (d ++ [name])) := by
        intro q node hq
        rw [Tree.get_remove s (by simp)] at hq
        split at hq
        · cases hq
        · exact hq
      exact (Adds.of_shrinks hgone _).trans (hlink h)
  | dangling _ _ => exact .refl _ _

end Adds

section Import

variable {place : Loc} {t t' : Tree} {importMethod : PackageImportMethod}

/-- The keys name files below the directory of the package. -/
def CasPaths.Inside (casPaths : CasPaths) : Prop :=
  ∀ key ∈ casPaths.keys, ∃ d name, components key = (d ++ [name]).map .normal

theorem leadsTo_join_inside {dirPath key : Text} {r : Loc} (hdir : LeadsTo dirPath place)
    (hkey : components key = r.map .normal) : LeadsTo (join dirPath key) (place ++ r) := by
  have habs : isAbsolute key = false := by
    by_contra habs
    rw [Bool.not_eq_false] at habs
    rw [components, if_pos habs] at hkey
    cases r <;> cases hkey
  have hbody : body key = r.map .normal := by
    rw [components, habs] at hkey
    simp only [Bool.false_eq_true, if_false] at hkey
    split at hkey
    · cases r <;> cases hkey
    · exact hkey
  exact hdir.join habs hbody

/-- No link stands on any way through the place. -/
def ClearBelow (t : Tree) (place : Loc) : Prop := ∀ r, Clear t (place ++ r)

theorem ClearBelow.of_grows (h : ClearBelow t place) (hgrow : Grows t t') : ClearBelow t' place :=
  fun r => (h r).of_grows hgrow

theorem clearBelow_of_free {d : Loc} {name : Text} (hclear : Clear t d)
    (hfree : t.get (d ++ [name]) = none) : ClearBelow t (d ++ [name]) := by
  intro r p hp target hlink
  rcases List.prefix_or_prefix_of_prefix hp (List.prefix_append (d ++ [name]) r) with hup | hdown
  · exact (hclear.concat_of_free hfree) p hup target hlink
  · rw [Tree.get_eq_none_of_above hfree hdown] at hlink
    cases hlink

theorem importNew_adds {source target : Text} {d : Loc} {name : Text}
    (hclear : ClearBelow t place) (hpath : LeadsTo target (place ++ (d ++ [name])))
    (h : importNew t source target = .ok t') : Adds (Through place) t t' := by
  obtain ⟨content, -, hmake⟩ := Results.bind_ok h
  rw [hpath, ← List.append_assoc] at hmake
  refine (adds_create (makeNode_of_clear (hclear d) hmake)).mono fun q hq => Or.inr ?_
  rw [hq, List.append_assoc]
  exact List.prefix_append _ _

theorem importCopy_adds {source target : Text} {d : Loc} {name : Text}
    (hclear : ClearBelow t place) (hpath : LeadsTo target (place ++ (d ++ [name])))
    (h : importCopy t source target = .ok t') : Adds (Through place) t t' := by
  obtain ⟨content, -, hmake⟩ := Results.bind_ok h
  obtain ⟨q, hq, hcreate⟩ := Results.bind_ok hmake
  rw [hpath] at hq
  rw [locate_of_clear (hclear _) hq, ← List.append_assoc] at hcreate
  simp only [List.getLast?_concat, List.dropLast_concat] at hcreate
  refine (adds_create hcreate).mono fun q hq => Or.inr ?_
  rw [hq, List.append_assoc]
  exact List.prefix_append _ _

theorem linkFile_adds {source target : Text} {d : Loc} {name : Text}
    (hclear : ClearBelow t place) (hpath : LeadsTo target (place ++ (d ++ [name])))
    (h : linkFile importMethod t source target = .ok t') : Adds (Through place) t t' := by
  have hor : ∀ {t'}, importOrCopy t source target = .ok t' →
      Adds (Through place) t t' := by
    intro t' h
    unfold importOrCopy at h
    split at h
    · rename_i hs
      cases h
      exact importNew_adds hclear hpath hs
    · exact importCopy_adds hclear hpath h
  unfold linkFile at h
  split at h
  · cases h
    exact .refl _ _
  · have hres := Results.mapError_ok h
    cases importMethod with
    | auto => exact hor hres
    | hardlink => exact importNew_adds hclear hpath hres
    | copy => exact importCopy_adds hclear hpath hres
    | clone => exact importNew_adds hclear hpath hres
    | cloneOrCopy => exact hor hres

/-- Nothing but a link keeps the import of a package from its place. -/
theorem free_of_not_exists {d : Loc} {name : Text} (hlink : ∀ target,
      t.get (d ++ [name]) ≠ some (.link target))
    (hexists : ¬ pathExists t (pathOf (d ++ [name])) = true) : t.get (d ++ [name]) = none := by
  cases hget : t.get (d ++ [name]) with
  | none => rfl
  | some node =>
      cases node with
      | dir =>
          rw [pathExists, canonicalize_of_dir hget] at hexists
          exact absurd rfl hexists
      | file content =>
          rw [pathExists, canonicalize_of_file hget] at hexists
          exact absurd rfl hexists
      | link target => exact absurd hget (hlink target)

/-- The import of a package whose files are inside makes nothing new elsewhere. -/
theorem createCasFiles_adds {dirPath : Text} {casPaths : CasPaths} {d : Loc} {name : Text}
    (hpath : LeadsTo dirPath (d ++ [name])) (hclear : Clear t d)
    (hlink : ∀ target, t.get (d ++ [name]) ≠ some (.link target)) (hinside : casPaths.Inside)
    (h : createCasFiles importMethod t dirPath casPaths = .ok t') :
    Adds (Through (d ++ [name])) t t' := by
  unfold createCasFiles at h
  split at h
  · cases h
    exact .refl _ _
  · rename_i hexists
    rw [hpath] at hexists
    have hbelow := clearBelow_of_free hclear (free_of_not_exists hlink hexists)
    obtain ⟨s₁, h₁, h⟩ := Results.bind_ok h
    obtain ⟨s₂, h₂, h₃⟩ := Results.bind_ok h
    have hmake := Results.mapError_ok h₁
    rw [hpath] at hmake
    have hplace : Clear t (d ++ [name]) := by simpa using hbelow []
    have hfirst : Adds (Through (d ++ [name])) t s₁ :=
      (adds_createDirAll hplace hmake).mono fun _ => Or.inl
    have hbelow₁ := hbelow.of_grows (Grows.of_createDirAll hmake)
    obtain ⟨hbelow₂, hsecond⟩ := Results.foldlM_invariant
      (fun s => ClearBelow s (d ++ [name]) ∧ Adds (Through (d ++ [name])) t s) h₂
      ⟨hbelow₁, hfirst⟩ (by
        rintro dir hdir s s' ⟨hs, hnew⟩ hround
        have hround := Results.mapError_ok hround
        obtain ⟨key, hkey, up, hup, rfl⟩ := exists_of_mem_parentDirs hdir
        obtain ⟨r, last, hcomponents⟩ := hinside key hkey
        have hdirs : joinComponents (components dirPath) up = pathOf ((d ++ [name]) ++ r) := by
          rw [hcomponents, List.map_append, parent] at hup
          simp only [List.map_cons, List.map_nil, List.getLast?_concat, List.dropLast_concat,
            Option.some.injEq] at hup
          rw [← hup, hpath, joinComponents, if_neg (by cases r <;> simp)]
          simp [pathOf]
        rw [hdirs] at hround
        exact ⟨hs.of_grows (Grows.of_createDirAll hround),
          hnew.trans ((adds_createDirAll (hs r) hround).mono fun q hq =>
            List.prefix_or_prefix_of_prefix hq (List.prefix_append _ r))⟩)
    refine (Results.foldlM_invariant
      (fun s => ClearBelow s (d ++ [name]) ∧ Adds (Through (d ++ [name])) t s) h₃
      ⟨hbelow₂, hsecond⟩ ?_).2
    rintro file hfile s s' ⟨hs, hnew⟩ hround
    obtain ⟨r, last, hcomponents⟩ := hinside file.1 (KeyedMap.mem_keys.mpr ⟨file.2, hfile⟩)
    exact ⟨hs.of_grows (linkFile_grows hround),
      hnew.trans (linkFile_adds hs (leadsTo_join_inside hpath hcomponents) hround)⟩

end Import

section Steps

variable {importMethod : PackageImportMethod} {t t' : Tree}

/-- Where a step may make something. -/
def InstallStep.Makes : InstallStep → Loc → Prop
  | .nodeModules dir, q => ∃ r, LeadsTo dir r ∧ q <+: r
  | .importFiles savePath _, q => ∃ r, LeadsTo savePath r ∧ Through r q
  | .linkPackage _ symlinkPath, q => ∃ r, LeadsTo symlinkPath r ∧ q <+: r
  | .syncLinks _ _, _ => False

/-- The files of an import are inside its place, where no link stands. -/
def InstallStep.Imports : InstallStep → Tree → Prop
  | .importFiles savePath casPaths, t =>
      casPaths.Inside ∧ ∀ q, LeadsTo savePath q → ∀ target, t.get q ≠ some (.link target)
  | _, _ => True

theorem InstallStep.adds {step : InstallStep} (hplaced : step.Placed)
    (hway : step.Unobstructed t) (himports : step.Imports t)
    (h : step.exec importMethod t = .ok t') : Adds step.Makes t t' := by
  cases step with
  | nodeModules dir =>
      obtain ⟨r, hr⟩ := hplaced
      have hmake := Results.mapError_ok h
      rw [hr] at hmake
      exact (adds_createDirAll (fun p hp target => hway p ⟨r, hr, hp⟩ target) hmake).mono
        fun q hq => ⟨r, hr, hq⟩
  | importFiles savePath casPaths =>
      obtain ⟨d, name, hpath⟩ := hplaced
      exact (createCasFiles_adds hpath (importFiles_clear hpath hway) (himports.2 _ hpath)
        himports.1 (Results.mapError_ok h)).mono fun q hq => ⟨_, hpath, hq⟩
  | linkPackage symlinkTarget symlinkPath =>
      obtain ⟨d, name, hpath⟩ := hplaced
      exact (symlinkPackage_adds hpath (linkPackage_clear hpath hway) (Results.mapError_ok h)).mono
        fun q hq => ⟨_, hpath, hq⟩
  | syncLinks modulesDir desired =>
      obtain ⟨m, hpath⟩ := hplaced
      obtain ⟨hshrinks, -⟩ := syncDirectDependencyLinks_ok hpath
        (syncLinks_modulesClear hpath hway) (Results.mapError_ok h)
      exact .of_shrinks hshrinks _

end Steps

theorem symlinkMetadata_free {t : Tree} {d : Loc} {name : Text} (hclear : Clear t d)
    (hfree : t.get (d ++ [name]) = none) :
    (symlinkMetadata t (pathOf (d ++ [name]))).toOption = none := by
  cases hmeta : (symlinkMetadata t (pathOf (d ++ [name]))).toOption with
  | none => rfl
  | some node =>
      rw [get_of_symlinkMetadata hclear hmeta] at hfree
      cases hfree

theorem linkedDependencies_pairwise {V I : Type} (snapshot : PackageSnapshot V I) :
    (linkedDependencies snapshot).Pairwise fun a b => a.1 ≠ b.1 := by
  unfold linkedDependencies
  cases snapshot.dependencies with
  | none => exact .nil
  | some dependencies => exact dependencies.distinct.imp fun hne => ne_of_beq_false hne

/-- A link is made where nothing stands. -/
theorem linkReplaceable_of_free {symlinkTarget symlinkPath : Text} {s : Tree} {q : Loc}
    (hne : q ≠ []) (hpath : LeadsTo symlinkPath q) (hfree : s.get q = none)
    (hway : (InstallStep.linkPackage symlinkTarget symlinkPath).Unobstructed s) :
    LinkReplaceable (.linkPackage symlinkTarget symlinkPath) s := by
  obtain ⟨d, last, rfl⟩ := exists_concat hne
  have hnone := symlinkMetadata_free (linkPackage_clear hpath hway) hfree
  rw [← hpath] at hnone
  exact Or.inl (Or.inl hnone)

section Splits

variable {V I : Type} [NodeSemver V] {config : Npmrc}
  {entries : List (DependencyPath V × PackageSnapshot V I)}
  {direct : List (PkgName × ResolvedDependencySpec V)} {schedule : Schedule V I}
  {before after : List InstallStep} {step : InstallStep}

/-- A step is one of the store or one of the direct dependencies. -/
theorem installSteps_split
    (h : installSteps config entries direct schedule = before ++ step :: after) :
    (∃ rest, storeSteps config entries schedule = before ++ step :: rest) ∨
      ∃ more, before = storeSteps config entries schedule ++ more ∧
        directSteps config direct = more ++ step :: after := by
  rcases List.append_eq_append_iff.mp h with ⟨more, hbefore, hdirect⟩ | ⟨more, hstore, hmore⟩
  · exact Or.inr ⟨more, hbefore, hdirect⟩
  · cases more with
    | nil => exact Or.inr ⟨[], by simpa using hstore.symm, by simpa using hmore.symm⟩
    | cons first rest =>
        obtain ⟨rfl, -⟩ := List.cons.inj hmore
        exact Or.inl ⟨rest, hstore⟩

/-- The steps of a package before one of them. -/
theorem packageSteps_split {e : DependencyPath V × PackageSnapshot V I}
    (h : packageSteps config schedule e = before ++ step :: after) :
    (∃ dir, step = .nodeModules dir) ∨
      (before = [.nodeModules (virtualNodeModulesDir config e.1)] ∧
        step = packageImport config (schedule.casPaths config e) e.1) ∨
      ∃ ds₁ d ds₂, linkedDependencies e.2 = ds₁ ++ d :: ds₂ ∧
        before = .nodeModules (virtualNodeModulesDir config e.1) ::
          packageImport config (schedule.casPaths config e) e.1 ::
            ds₁.map (dependencyLink config e.1) ∧
        step = dependencyLink config e.1 d := by
  unfold packageSteps at h
  cases before with
  | nil => exact Or.inl ⟨_, (List.cons.inj h).1.symm⟩
  | cons first before =>
      rw [List.cons_append, List.cons.injEq] at h
      obtain ⟨rfl, htail⟩ := h
      cases before with
      | nil => exact Or.inr (Or.inl ⟨rfl, (List.cons.inj htail).1.symm⟩)
      | cons second before =>
          rw [List.cons_append, List.cons.injEq] at htail
          obtain ⟨rfl, hlinks⟩ := htail
          obtain ⟨ds₁, rest, hsplit, rfl, hrest⟩ := List.map_eq_append_iff.mp hlinks
          obtain ⟨d, ds₂, rfl, hd, -⟩ := List.map_eq_cons_iff.mp hrest
          exact Or.inr (Or.inr ⟨ds₁, d, ds₂, hsplit, rfl, hd.symm⟩)

/-- The steps of the direct dependencies before one of them. -/
theorem directSteps_split (h : directSteps config direct = before ++ step :: after) :
    (∃ dir desired, step = .syncLinks dir desired) ∨
      ∃ ds₁ d ds₂, direct = ds₁ ++ d :: ds₂ ∧ step = directLink config d ∧
        ∀ other ∈ before, (∃ dir desired, other = .syncLinks dir desired) ∨
          ∃ d' ∈ ds₁, other = directLink config d' := by
  unfold directSteps at h
  cases before with
  | nil => exact Or.inl ⟨_, _, (List.cons.inj h).1.symm⟩
  | cons first before =>
      rw [List.cons_append, List.cons.injEq] at h
      obtain ⟨rfl, hlinks⟩ := h
      obtain ⟨ds₁, rest, hsplit, rfl, hrest⟩ := List.map_eq_append_iff.mp hlinks
      obtain ⟨d, ds₂, rfl, hd, -⟩ := List.map_eq_cons_iff.mp hrest
      refine Or.inr ⟨ds₁, d, ds₂, hsplit, hd.symm, fun other hother => ?_⟩
      rcases List.mem_cons.mp hother with rfl | hother
      · exact Or.inl ⟨_, _, rfl⟩
      · obtain ⟨d', hd', rfl⟩ := List.mem_map.mp hother
        exact Or.inr ⟨d', hd', rfl⟩

theorem storeLoc_eq_of_prefix {v q : Loc} {s s' : Text} (h : storeLoc v s <+: q)
    (h' : storeLoc v s' <+: q) : s = s' := by
  obtain ⟨r, rfl⟩ := h
  obtain ⟨r', hr'⟩ := h'
  unfold storeLoc at hr'
  rw [List.append_assoc, List.append_assoc, List.append_cancel_left_eq] at hr'
  exact (List.cons.inj hr').1.symm

end Splits

/-- On the way to a name lies nothing but its scope. -/
theorem PkgName.scope_of_above (name : PkgName) {r : Loc} (hr : r <+: name.loc)
    (hne : r ≠ name.loc) : r = [] ∨ ∃ scope, scope.head? = some '@' ∧ r = [scope] := by
  obtain ⟨rest, hrest⟩ := hr
  unfold PkgName.loc at hrest hne
  cases hscope : name.scope with
  | none =>
      rw [hscope] at hrest hne
      cases r with
      | nil => exact Or.inl rfl
      | cons first r => simp_all
  | some scope =>
      rw [hscope] at hrest hne
      cases r with
      | nil => exact Or.inl rfl
      | cons first r =>
          cases r with
          | nil =>
              refine Or.inr ⟨first, ?_, rfl⟩
              rw [(List.cons.inj hrest).1]
              rfl
          | cons second r => simp_all

section Layout

variable {V I : Type} [NodeSemver V] [BEq V] [PlainSemver V] {config : Npmrc}
  {entries : List (DependencyPath V × PackageSnapshot V I)}
  {direct : List (PkgName × ResolvedDependencySpec V)} {schedule : Schedule V I} {v m : Loc}
  {importMethod : PackageImportMethod} {start s : Tree}

/-- No package depends on a package of its own name. -/
def NamesApart (entries : List (DependencyPath V × PackageSnapshot V I)) : Prop :=
  ∀ e ∈ entries, ∀ d ∈ linkedDependencies e.2, d.1 ≠ e.1.packageSpecifier.name

/-- Nothing stands below the virtual store, nor at the names of the direct dependencies, and no
link stands on the ways there. -/
structure Fresh (direct : List (PkgName × ResolvedDependencySpec V)) (v m : Loc) (t : Tree) :
    Prop where
  store : ∀ q, v <+: q → q ≠ v → t.get q = none
  names : ∀ d ∈ direct, t.get (m ++ d.1.loc) = none
  ways : ∀ q, q <+: v ∨ q <+: m → ∀ target, t.get q ≠ some (.link target)
  scopes : ∀ name, name.head? = some '@' → ∀ target, t.get (m ++ [name]) ≠ some (.link target)

omit [NodeSemver V] [BEq V] [PlainSemver V] in
theorem Fresh.noLink_above (h : Fresh direct v m start) {q r : Loc} (hr : v <+: r)
    (hq : q <+: r) (target : Text) : start.get q ≠ some (.link target) := by
  rcases List.prefix_or_prefix_of_prefix hq hr with hqv | hvq
  · exact h.ways q (Or.inl hqv) target
  · by_cases hne : q = v
    · exact h.ways q (Or.inl (hne ▸ List.prefix_rfl)) target
    · rw [h.store q hvq hne]
      exact Option.some_ne_none _ |>.symm

omit [NodeSemver V] [BEq V] [PlainSemver V] in
theorem Fresh.entryLoc_free [NodeSemver V] (h : Fresh direct v m start) (path : DependencyPath V)
    (name : PkgName) : start.get (entryLoc v path name) = none := by
  refine h.store _ (prefix_entryLoc v path name) fun heq => ?_
  have hlen := congrArg List.length heq
  simp [entryLoc, storeLoc] at hlen

/-- No package is linked in place of another. -/
def OwnPlain (entries : List (DependencyPath V × PackageSnapshot V I)) (v : Loc) (t : Tree) :
    Prop :=
  ∀ e ∈ entries, ∀ target, t.get (ownLoc v e.1) ≠ some (.link target)

omit [BEq V] [PlainSemver V] in
theorem Fresh.ownPlain (hfresh : Fresh direct v m start) : OwnPlain entries v start := by
  intro e _ target hlink
  rw [ownLoc, hfresh.entryLoc_free] at hlink
  cases hlink

omit [BEq V] in
/-- In a fresh project no link stands on the way of a step. -/
theorem Fresh.tidy (hfresh : Fresh direct v m start) (hlayout : Layout config entries direct v m)
    (schedule : Schedule V I) : Tidy (installSteps config entries direct schedule) start := by
  intro step hmem q hguards target
  have hway := hlayout.way_of_guards (layoutStep_of_mem hmem) hguards
  cases hway with
  | nodeModules _ e he hq => exact hfresh.noLink_above (prefix_storeLoc v _) hq target
  | entry _ e he name _ hq _ => exact hfresh.noLink_above (prefix_entryLoc v e.1 name) hq target
  | modules _ hq => exact hfresh.ways q (Or.inr hq) target
  | scope name hname => exact hfresh.scopes name hname target
  | direct _ d hd hq hne =>
      rcases List.prefix_or_prefix_of_prefix hq (List.prefix_append m d.1.loc) with hqm | ⟨r, rfl⟩
      · exact hfresh.ways q (Or.inr hqm) target
      · rw [List.prefix_append_right_inj] at hq
        rw [Ne, List.append_cancel_left_eq] at hne
        -- on the way to a name there is at most its scope
        rcases d.1.scope_of_above hq hne with rfl | ⟨name, hname, rfl⟩
        · exact hfresh.ways _ (Or.inr (by simp)) target
        · exact hfresh.scopes name hname target

section Conditions

variable (hlayout : Layout config entries direct v m)
  (hdistinct : entries.Pairwise fun a b =>
    a.1.packageSpecifier.toVirtualStoreName ≠ b.1.packageSpecifier.toVirtualStoreName)
  (happart : NamesApart entries)

include hlayout hdistinct happart

omit [BEq V] in
theorem Layout.ownPlain_step {step : InstallStep} {t t' : Tree}
    (hmem : step ∈ installSteps config entries direct schedule)
    (htidy : Tidy (installSteps config entries direct schedule) t) (hplain : OwnPlain entries v t)
    (hexec : step.exec importMethod t = .ok t') : OwnPlain entries v t' := by
  intro e he target hlink
  rcases ((hlayout.orderly schedule).changes htidy hmem hexec).links _ target hlink with hold | hnew
  · exact hplain e he target hold
  · cases layoutStep_of_mem hmem with
    | nodeModules => exact hnew.elim
    | packageImport => exact hnew.elim
    | syncLinks => exact hnew.elim
    | dependencyLink e' he' d hd =>
        have hname := hlayout.dependencyNames e' he' d hd
        have hloc := hnew.1.unique (hlayout.leadsTo_entry he' hname)
        obtain ⟨hstore, hsame⟩ := entryLoc_nested (hlayout.packageNames e he).wellFormed
          hname.wellFormed (hloc ▸ List.prefix_rfl : ownLoc v e.1 <+: entryLoc v e'.1 d.1)
        obtain rfl := eq_of_storeName hdistinct he he' hstore
        exact happart e he d hd hsame.symm
    | directLink d hd =>
        have hloc := hnew.1.unique (hlayout.leadsTo_direct hd)
        exact hlayout.direct_apart hd (prefix_entryLoc v e.1 _)
          (Or.inl (hloc ▸ List.prefix_rfl : m ++ d.1.loc <+: ownLoc v e.1))

omit hdistinct happart [BEq V] in
/-- A step of a package makes nothing in the directory of another one. -/
theorem Layout.store_of_makes {e : DependencyPath V × PackageSnapshot V I} (he : e ∈ entries)
    {step : InstallStep} (hstep : step ∈ packageSteps config schedule e) {q : Loc}
    {storeName : Text} (hq : storeLoc v storeName <+: q) (hmakes : step.Makes q) :
    storeName = e.1.packageSpecifier.toVirtualStoreName := by
  have hown : storeLoc v e.1.packageSpecifier.toVirtualStoreName <+: ownLoc v e.1 :=
    List.prefix_append _ _
  simp only [packageSteps, List.mem_cons, List.mem_map] at hstep
  rcases hstep with rfl | rfl | ⟨d, hd, rfl⟩
  · obtain ⟨r, hr, hqr⟩ := hmakes
    rw [hr.unique (hlayout.leadsTo_nodeModules he)] at hqr
    exact storeLoc_eq_of_prefix (hq.trans hqr) List.prefix_rfl
  · obtain ⟨r, hr, hqr⟩ := hmakes
    rw [hr.unique (hlayout.leadsTo_savePath he)] at hqr
    rcases hqr with hqr | hrq
    · exact storeLoc_eq_of_prefix (hq.trans hqr) hown
    · exact storeLoc_eq_of_prefix hq (hown.trans hrq)
  · obtain ⟨r, hr, hqr⟩ := hmakes
    rw [hr.unique (hlayout.leadsTo_entry he (hlayout.dependencyNames e he d hd))] at hqr
    exact storeLoc_eq_of_prefix (hq.trans hqr) (List.prefix_append _ _)

omit happart [BEq V] in
/-- What the packages before one in the schedule do is apart from its directory. -/
theorem Layout.others_apart {l₁ l₂ : List (DependencyPath V × PackageSnapshot V I)}
    {e : DependencyPath V × PackageSnapshot V I} (horder : schedule.order entries = l₁ ++ e :: l₂)
    {step : InstallStep} (hstep : step ∈ l₁.flatMap (packageSteps config schedule)) {q : Loc}
    (hq : storeLoc v e.1.packageSpecifier.toVirtualStoreName <+: q) : ¬ step.Makes q := by
  intro hmakes
  obtain ⟨b, hb, hstep⟩ := List.mem_flatMap.mp hstep
  have hperm := schedule.perm entries
  have hmem : b ∈ entries := hperm.mem_iff.mp (by simp [horder, hb])
  have hpairs : (schedule.order entries).Pairwise fun a b =>
      a.1.packageSpecifier.toVirtualStoreName ≠ b.1.packageSpecifier.toVirtualStoreName :=
    (hperm.pairwise_iff fun {_ _} hne => Ne.symm hne).mpr hdistinct
  rw [horder] at hpairs
  exact (List.pairwise_append.mp hpairs).2.2 b hb e List.mem_cons_self
    (hlayout.store_of_makes hmem hstep hq hmakes).symm

omit [BEq V] hdistinct happart in
/-- The `node_modules` directory of a package is no place in it. -/
theorem Layout.nodeModules_apart {e : DependencyPath V × PackageSnapshot V I} (he : e ∈ entries)
    (name : PkgName) :
    ¬ (InstallStep.nodeModules (virtualNodeModulesDir config e.1)).Makes
      (entryLoc v e.1 name) := by
  rintro ⟨r, hr, hqr⟩
  rw [hr.unique (hlayout.leadsTo_nodeModules he)] at hqr
  have hlen := hqr.length_le
  have hpos := List.length_pos_iff.mpr name.loc_ne_nil
  simp only [entryLoc, List.length_append] at hlen
  omega

omit [BEq V] hdistinct happart in
/-- A step of the packages makes something on the way to the store, or in it. -/
theorem Layout.below_of_makes {step : InstallStep}
    (hstep : step ∈ storeSteps config entries schedule) {q : Loc} (hmakes : step.Makes q) :
    ∃ r, v <+: r ∧ (q <+: r ∨ r <+: q) := by
  obtain ⟨e, he, hstep⟩ := List.mem_flatMap.mp hstep
  have he : e ∈ entries := (schedule.perm entries).mem_iff.mp he
  simp only [packageSteps, List.mem_cons, List.mem_map] at hstep
  rcases hstep with rfl | rfl | ⟨d, hd, rfl⟩
  · obtain ⟨r, hr, hqr⟩ := hmakes
    rw [hr.unique (hlayout.leadsTo_nodeModules he)] at hqr
    exact ⟨_, prefix_storeLoc v _, Or.inl hqr⟩
  · obtain ⟨r, hr, hqr⟩ := hmakes
    rw [hr.unique (hlayout.leadsTo_savePath he)] at hqr
    exact ⟨_, prefix_entryLoc v e.1 _, hqr⟩
  · obtain ⟨r, hr, hqr⟩ := hmakes
    rw [hr.unique (hlayout.leadsTo_entry he (hlayout.dependencyNames e he d hd))] at hqr
    exact ⟨_, prefix_entryLoc v e.1 d.1, Or.inl hqr⟩

variable (hinside : ∀ e ∈ entries, (schedule.casPaths config e).Inside)

include hinside

omit [BEq V] in
/-- What no step of a part of the run makes is as free after it as before. -/
theorem Layout.free_run {part : List InstallStep} {t t' : Tree}
    (hpart : ∀ step ∈ part, step ∈ installSteps config entries direct schedule)
    (hrun : runSteps importMethod part t = .ok t')
    (htidy : Tidy (installSteps config entries direct schedule) t) (hplain : OwnPlain entries v t)
    {q : Loc} (hfree : t.get q = none) (hmakes : ∀ step ∈ part, ¬ step.Makes q) :
    t'.get q = none := by
  refine ((hlayout.orderly schedule).run_invariant
    (fun s => OwnPlain entries v s ∧ s.get q = none) hpart hrun htidy ⟨hplain, hfree⟩ ?_).2.2
  rintro step hstep s s' hs ⟨hplain, hfree⟩ hexec
  refine ⟨hlayout.ownPlain_step hdistinct happart (hpart step hstep) hs hplain hexec, ?_⟩
  have himports : step.Imports s := by
    cases layoutStep_of_mem (hpart step hstep) with
    | packageImport e he =>
        refine ⟨hinside e he, fun r hr target => ?_⟩
        rw [hr.unique (hlayout.leadsTo_savePath he)]
        exact hplain e he target
    | nodeModules => trivial
    | dependencyLink => trivial
    | syncLinks => trivial
    | directLink => trivial
  by_contra hsome
  exact hmakes step hstep (step.adds ((hlayout.orderly schedule).placed step (hpart step hstep))
    (hs step (hpart step hstep)) himports hexec q hfree hsome)

variable (hfresh : Fresh direct v m start)

include hfresh

omit [BEq V] in
/-- The place of a step is free when the step comes, unless a step before makes something
there. -/
theorem Layout.free_at {before after : List InstallStep} {step : InstallStep}
    (hsplit : installSteps config entries direct schedule = before ++ step :: after)
    (hrun : runSteps importMethod before start = .ok s) {q : Loc} (hq : start.get q = none)
    (hmakes : ∀ other ∈ before, ¬ other.Makes q) :
    s.get q = none ∧ step.Unobstructed s := by
  have hpart : ∀ other ∈ before, other ∈ installSteps config entries direct schedule :=
    fun other hother => by simp [hsplit, hother]
  refine ⟨hlayout.free_run hdistinct happart hinside hpart hrun (hfresh.tidy hlayout schedule)
    hfresh.ownPlain hq hmakes,
    ?_⟩
  exact (hlayout.orderly schedule).run_tidy hpart hrun (hfresh.tidy hlayout schedule) step
    (by simp [hsplit])

variable (importMethod) in
omit [BEq V] in
/-- In a fresh project every package is imported where nothing stands. -/
theorem Layout.importFree_of_fresh :
    Along importMethod ImportFree (installSteps config entries direct schedule) start := by
  refine along_of_splits fun before step after s hsplit hrun => ?_
  cases step with
  | nodeModules => trivial
  | linkPackage => trivial
  | syncLinks => trivial
  | importFiles savePath casPaths =>
      rcases installSteps_split hsplit with ⟨rest, hstore⟩ | ⟨more, -, hdirect⟩
      · obtain ⟨l₁, e, l₂, f₁, f₂, horder, hsteps, rfl⟩ := exists_of_flatMap_split hstore
        rcases packageSteps_split hsteps with ⟨_, h⟩ | ⟨rfl, himport⟩ | ⟨_, _, _, _, _, h⟩
        · cases h
        · cases himport
          have he : e ∈ entries := (schedule.perm entries).mem_iff.mp (by simp [horder])
          obtain ⟨hfree, hway⟩ := hlayout.free_at hdistinct happart hinside hfresh hsplit hrun
            (hfresh.entryLoc_free e.1 e.1.packageSpecifier.name) (by
              intro other hother
              rcases List.mem_append.mp hother with hother | hother
              · exact hlayout.others_apart hdistinct horder hother (List.prefix_append _ _)
              · rw [List.mem_singleton.mp hother]
                exact hlayout.nodeModules_apart he _)
          have hpath := hlayout.leadsTo_savePath he
          obtain ⟨d, last, hloc⟩ := exists_entryLoc_concat v e.1 e.1.packageSpecifier.name
          rw [hloc] at hfree
          rw [ownLoc, hloc] at hpath
          have hnone := symlinkMetadata_free (importFiles_clear hpath hway) hfree
          rw [← hpath] at hnone
          simp [ImportFree, hnone]
        · cases h
      · rcases directSteps_split hdirect with ⟨_, _, h⟩ | ⟨_, _, _, _, h, -⟩ <;> cases h

variable (honce : direct.Pairwise fun a b => a.1 ≠ b.1)

include honce

variable (importMethod) in
omit [BEq V] in
/-- In a fresh project every link is made where nothing stands. -/
theorem Layout.linkReplaceable_of_fresh :
    Along importMethod LinkReplaceable (installSteps config entries direct schedule) start := by
  refine along_of_splits fun before step after s hsplit hrun => ?_
  cases step with
  | nodeModules => trivial
  | importFiles => trivial
  | syncLinks => trivial
  | linkPackage symlinkTarget symlinkPath =>
      rcases installSteps_split hsplit with ⟨rest, hstore⟩ | ⟨more, rfl, hdirect⟩
      · obtain ⟨l₁, e, l₂, f₁, f₂, horder, hsteps, rfl⟩ := exists_of_flatMap_split hstore
        rcases packageSteps_split hsteps with ⟨_, h⟩ | ⟨-, h⟩ | ⟨ds₁, d, ds₂, hds, rfl, hlink⟩
        · cases h
        · cases h
        · have he : e ∈ entries := (schedule.perm entries).mem_iff.mp (by simp [horder])
          have hd : d ∈ linkedDependencies e.2 := by simp [hds]
          have hname := hlayout.dependencyNames e he d hd
          have hlast := linkedDependencies_pairwise e.2
          rw [hds] at hlast
          have hne := (List.pairwise_append.mp hlast).2.2
          obtain ⟨hfree, hway⟩ := hlayout.free_at hdistinct happart hinside hfresh hsplit hrun
            (hfresh.entryLoc_free e.1 d.1) (by
              intro other hother
              rcases List.mem_append.mp hother with hother | hother
              · exact hlayout.others_apart hdistinct horder hother (List.prefix_append _ _)
              · simp only [List.mem_cons, List.mem_map] at hother
                rcases hother with rfl | rfl | ⟨d', hd', rfl⟩
                · exact hlayout.nodeModules_apart he _
                · rintro ⟨r, hr, hqr⟩
                  rw [hr.unique (hlayout.leadsTo_savePath he)] at hqr
                  have hown := (hlayout.packageNames e he).wellFormed
                  rcases hqr with hqr | hrq
                  · exact happart e he d hd (entryLoc_nested hname.wellFormed hown hqr).2
                  · exact happart e he d hd (entryLoc_nested hown hname.wellFormed hrq).2.symm
                · have hmem' : d' ∈ linkedDependencies e.2 := by simp [hds, hd']
                  have hname' := hlayout.dependencyNames e he d' hmem'
                  rintro ⟨r, hr, hqr⟩
                  rw [hr.unique (hlayout.leadsTo_entry he hname')] at hqr
                  exact hne d' hd' d List.mem_cons_self
                    (entryLoc_nested hname.wellFormed hname'.wellFormed hqr).2.symm)
          cases hlink
          exact linkReplaceable_of_free (by simp [entryLoc, storeLoc])
            (hlayout.leadsTo_entry he hname) hfree hway
      · rcases directSteps_split hdirect with ⟨_, _, h⟩ | ⟨ds₁, d, ds₂, hds, hlink, hothers⟩
        · cases h
        · have hd : d ∈ direct := by simp [hds]
          rw [hds] at honce
          have hne := (List.pairwise_append.mp honce).2.2
          obtain ⟨hfree, hway⟩ := hlayout.free_at hdistinct happart hinside hfresh hsplit hrun
            (hfresh.names d hd) (by
              intro other hother
              rcases List.mem_append.mp hother with hother | hother
              · intro hmakes
                obtain ⟨r, hv, hnested⟩ := hlayout.below_of_makes hother hmakes
                exact hlayout.direct_apart hd hv hnested
              · rcases hothers other hother with ⟨_, _, rfl⟩ | ⟨d', hd', rfl⟩
                · exact id
                · have hmem' : d' ∈ direct := by simp [hds, hd']
                  rintro ⟨r, hr, hqr⟩
                  rw [hr.unique (hlayout.leadsTo_direct hmem'),
                    List.prefix_append_right_inj] at hqr
                  exact hne d' hd' d List.mem_cons_self (PkgName.eq_of_loc_nested
                    (hlayout.directNames d hd).wellFormed
                    (hlayout.directNames d' hmem').wellFormed hqr).symm)
          cases hlink
          exact linkReplaceable_of_free (by simp [PkgName.loc_ne_nil])
            (hlayout.leadsTo_direct hd) hfree hway

end Conditions

end Layout

end Npnpm
