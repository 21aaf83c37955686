import Npnpm.PackageManager.FetchSelection
import Npnpm.PackageManager.VirtualStoreLayout

/-!
# The directories of the packages

Whether the directory that a package was imported into survives the link steps.
The link of a dependency under the package's own name has the place of that
directory; every other link keeps clear of it.
-/

namespace Npnpm

open Npnpm.Path Npnpm.FileTree

theorem exists_of_flatMap_split {α β : Type} {l : List α} {f : α → List β} {before after : List β}
    {x : β} (h : l.flatMap f = before ++ x :: after) :
    ∃ l₁ a l₂ f₁ f₂, l = l₁ ++ a :: l₂ ∧ f a = f₁ ++ x :: f₂ ∧ before = l₁.flatMap f ++ f₁ := by
  induction l generalizing before with
  | nil => simp at h
  | cons a rest ih =>
      rw [List.flatMap_cons] at h
      rcases List.append_eq_append_iff.mp h with ⟨more, rfl, hrest⟩ | ⟨more, hfa, hmore⟩
      · obtain ⟨l₁, b, l₂, f₁, f₂, rfl, hfb, rfl⟩ := ih hrest
        exact ⟨a :: l₁, b, l₂, f₁, f₂, rfl, hfb, by simp⟩
      · cases more with
        | nil =>
            rw [List.append_nil] at hfa
            have hrest : rest.flatMap f = [] ++ x :: after := hmore.symm
            obtain ⟨l₁, b, l₂, f₁, f₂, rfl, hfb, hbefore⟩ := ih hrest
            exact ⟨a :: l₁, b, l₂, f₁, f₂, rfl, hfb, by simp [← hbefore, hfa]⟩
        | cons y more =>
            obtain ⟨rfl, -⟩ := List.cons.inj hmore
            exact ⟨[], a, rest, before, more, rfl, hfa, rfl⟩

section Kept

variable {V I : Type} [NodeSemver V]

/-- The directory of the package is there and has lost nothing since its import. -/
structure OwnFilesKept (v : Loc) (path : DependencyPath V) (imported t : Tree) : Prop where
  dir : t.get (ownLoc v path) = some .dir
  files : ∀ q node, ownLoc v path <+: q → imported.get q = some node → t.get q = some node

/-- In every state that the run reaches after the import of the package its
directory is kept. -/
def KeepsOwnFiles (config : Npmrc) (schedule : Schedule V I) (steps : List InstallStep) (v : Loc)
    (e : DependencyPath V × PackageSnapshot V I) (start : Tree) : Prop :=
  ∀ before mid rest imported s,
    steps = before ++ packageImport config (schedule.casPaths config e) e.1 :: (mid ++ rest) →
    runSteps config.packageImportMethod
      (before ++ [packageImport config (schedule.casPaths config e) e.1]) start = .ok imported →
    runSteps config.packageImportMethod mid imported = .ok s → OwnFilesKept v e.1 imported s

/-- A package is imported where nothing stands yet, or its directory. -/
def ImportFree : InstallStep → Tree → Prop
  | .importFiles savePath _, t =>
      (symlinkMetadata t (components savePath)).toOption ∈ [none, some Node.dir]
  | _, _ => True

instance ImportFree.decidable : ∀ step t, Decidable (ImportFree step t)
  | .importFiles _ _, _ => inferInstanceAs (Decidable (_ ∈ [none, some Node.dir]))
  | .nodeModules _, _ => isTrue trivial
  | .linkPackage _ _, _ => isTrue trivial
  | .syncLinks _ _, _ => isTrue trivial

/-- A link step at the place of the package finds that its target leads there. -/
def OwnLinkResolves (config : Npmrc) (path : DependencyPath V) : InstallStep → Tree → Prop
  | .linkPackage symlinkTarget symlinkPath, t =>
      components symlinkPath = components (savePath config path) →
        (canonicalize t (components symlinkPath)).toOption =
          (canonicalize t (components symlinkTarget)).toOption
  | _, _ => True

instance OwnLinkResolves.decidable (config : Npmrc) (path : DependencyPath V) :
    ∀ step t, Decidable (OwnLinkResolves config path step t)
  | .linkPackage _ _, _ => inferInstanceAs (Decidable (_ → _))
  | .importFiles _ _, _ => isTrue trivial
  | .nodeModules _, _ => isTrue trivial
  | .syncLinks _ _, _ => isTrue trivial

/-- A dependency under the package's own name, of the package or of one with its
store name, refers to the package itself. -/
def SelfReferring (entries : List (DependencyPath V × PackageSnapshot V I))
    (e : DependencyPath V × PackageSnapshot V I) : Prop :=
  ∀ e' ∈ entries, e'.1.packageSpecifier.toVirtualStoreName =
      e.1.packageSpecifier.toVirtualStoreName →
    ∀ d ∈ linkedDependencies e'.2, d.1 = e.1.packageSpecifier.name →
      dependencyStoreName d.1 d.2 = e.1.packageSpecifier.toVirtualStoreName

instance (entries : List (DependencyPath V × PackageSnapshot V I))
    (e : DependencyPath V × PackageSnapshot V I) : Decidable (SelfReferring entries e) :=
  inferInstanceAs (Decidable (∀ e' ∈ entries, _ → ∀ d ∈ linkedDependencies e'.2, _ → _))

variable [PlainSemver V] {config : Npmrc}
  {entries : List (DependencyPath V × PackageSnapshot V I)}
  {direct : List (PkgName × ResolvedDependencySpec V)} {schedule : Schedule V I} {v m : Loc}
  {importMethod : PackageImportMethod} (h : Layout config entries direct v m)
include h

/-- After its import the directory of a package is there. -/
theorem Layout.import_dir {e : DependencyPath V × PackageSnapshot V I} (he : e ∈ entries)
    {casPaths : CasPaths} {t t' : Tree}
    (hway : (packageImport config casPaths e.1).Unobstructed t)
    (hfree : ImportFree (packageImport config casPaths e.1) t)
    (hexec : (packageImport config casPaths e.1).exec importMethod t = .ok t') :
    t'.get (ownLoc v e.1) = some .dir := by
  have hpath := h.leadsTo_savePath he
  obtain ⟨d, last, hloc⟩ := exists_entryLoc_concat v e.1 e.1.packageSpecifier.name
  rw [ownLoc, hloc] at hpath ⊢
  have hclear := importFiles_clear hpath hway
  have hnode : ∀ node, t.get (d ++ [last]) = some node → node = .dir := by
    intro node hnode
    have hd : t.get d = some .dir := by simpa using Tree.get_dropLast hnode
    simp only [ImportFree, packageImport, List.mem_cons, List.not_mem_nil, or_false] at hfree
    rw [hpath, symlinkMetadata_of_get hd hnode] at hfree
    rcases hfree with hnone | hdir
    · cases hnone
    · exact Option.some.inj hdir
  refine createCasFiles_dir hpath ?_ (fun content hfile => ?_) (Results.mapError_ok hexec)
  · intro p hp target hlink
    rcases List.prefix_concat_iff.mp hp with rfl | hpd
    · exact absurd (hnode _ hlink) (by simp)
    · exact hclear p hpd target hlink
  · exact absurd (hnode _ hfile) (by simp)

/-- A step that could clear part of a package's directory is the link of a
dependency under the package's name. -/
theorem Layout.own_link_of_clears {e : DependencyPath V × PackageSnapshot V I} (he : e ∈ entries)
    {step : InstallStep} (hstep : LayoutStep config entries direct schedule step) {q : Loc}
    (hq : ownLoc v e.1 <+: q) (hclears : step.Clears q) :
    ∃ e' ∈ entries, e'.1.packageSpecifier.toVirtualStoreName =
        e.1.packageSpecifier.toVirtualStoreName ∧
      ∃ d ∈ linkedDependencies e'.2, d.1 = e.1.packageSpecifier.name ∧
        step = dependencyLink config e'.1 d := by
  obtain ⟨e', he', d, hd, rfl, hprefix⟩ := h.dependencyLink_of_clears hstep
    ((prefix_entryLoc v e.1 _).trans hq) hclears
  have hown := (h.packageNames e he).wellFormed
  have hname := (h.dependencyNames e' he' d hd).wellFormed
  rcases List.prefix_or_prefix_of_prefix hprefix hq with hp | hp
  · obtain ⟨hstore, heq⟩ := entryLoc_nested hname hown hp
    exact ⟨e', he', hstore, d, hd, heq, rfl⟩
  · obtain ⟨hstore, heq⟩ := entryLoc_nested hown hname hp
    exact ⟨e', he', hstore.symm, d, hd, heq.symm, rfl⟩

/-- One step keeps the directory of a package, a link step at its place because
its target leads there. -/
theorem Layout.ownFiles_step {e : DependencyPath V × PackageSnapshot V I} (he : e ∈ entries)
    {step : InstallStep} (hmem : step ∈ installSteps config entries direct schedule)
    {imported t t' : Tree} (htidy : Tidy (installSteps config entries direct schedule) t)
    (hresolves : OwnLinkResolves config e.1 step t) (hkept : OwnFilesKept v e.1 imported t)
    (hexec : step.exec importMethod t = .ok t') : OwnFilesKept v e.1 imported t' := by
  by_cases hclears : ∃ q, ownLoc v e.1 <+: q ∧ step.Clears q
  · obtain ⟨q, hq, hclears⟩ := hclears
    obtain ⟨e', he', hstore, d, hd, hname, rfl⟩ :=
      h.own_link_of_clears he (layoutStep_of_mem hmem) hq hclears
    have hplace : join (virtualNodeModulesDir config e'.1) d.1.display = savePath config e.1 := by
      rw [virtualNodeModulesDir, hstore, hname]
      rfl
    have hpath := h.leadsTo_savePath he
    obtain ⟨dir, last, hloc⟩ := exists_entryLoc_concat v e.1 e.1.packageSpecifier.name
    have hdir := hkept.dir
    rw [ownLoc, hloc] at hpath hdir
    rw [dependencyLink, hplace] at hexec hresolves
    have hstay := symlinkPackage_same hpath hdir (hresolves rfl) (Results.mapError_ok hexec)
    rwa [hstay]
  · have hchanges := (h.orderly schedule).changes htidy hmem hexec
    have hout : ∀ q, ownLoc v e.1 <+: q → ¬ step.Clears q :=
      fun q hq hc => hclears ⟨q, hq, hc⟩
    exact ⟨hchanges.kept _ _ hkept.dir (hout _ List.prefix_rfl),
      fun q node hq hnode => hchanges.kept q node (hkept.files q node hq hnode) (hout q hq)⟩

/-- A link step at the place of a package is that of a dependency under its name. -/
theorem Layout.own_link {e : DependencyPath V × PackageSnapshot V I} (he : e ∈ entries)
    {symlinkTarget symlinkPath : Text}
    (hmem : .linkPackage symlinkTarget symlinkPath ∈ installSteps config entries direct schedule)
    (hplace : components symlinkPath = components (savePath config e.1)) :
    ∃ e' ∈ entries, e'.1.packageSpecifier.toVirtualStoreName =
        e.1.packageSpecifier.toVirtualStoreName ∧
      ∃ d ∈ linkedDependencies e'.2, d.1 = e.1.packageSpecifier.name ∧
        .linkPackage symlinkTarget symlinkPath = dependencyLink config e'.1 d := by
  have hpath : LeadsTo symlinkPath (ownLoc v e.1) := hplace.trans (h.leadsTo_savePath he)
  exact h.own_link_of_clears he (layoutStep_of_mem hmem) List.prefix_rfl
    ⟨_, hpath, List.prefix_rfl⟩

/-- The links of a package that refers to itself under its own name lead to it. -/
theorem Layout.ownLinkResolves_of_selfReferring {e : DependencyPath V × PackageSnapshot V I}
    (he : e ∈ entries) (hself : SelfReferring entries e) (t : Tree) :
    Along importMethod (OwnLinkResolves config e.1)
      (installSteps config entries direct schedule) t := by
  refine along_of_splits fun before step after s hsplit _ => ?_
  cases step with
  | linkPackage symlinkTarget symlinkPath =>
      intro hplace
      have hmem : .linkPackage symlinkTarget symlinkPath ∈
          installSteps config entries direct schedule := by
        rw [hsplit]
        simp
      obtain ⟨e', he', hstore, d, hd, hname, hlink⟩ := h.own_link he hmem hplace
      simp only [dependencyLink, InstallStep.linkPackage.injEq] at hlink
      have htarget : symlinkTarget = savePath config e.1 := by
        rw [hlink.1, linkTarget, hself e' he' hstore d hd hname, hname]
        rfl
      rw [hplace, htarget]
  | nodeModules _ => trivial
  | importFiles _ _ => trivial
  | syncLinks _ _ => trivial

/-- The steps of a package share its store name. -/
theorem Layout.store_of_link_mem {e a : DependencyPath V × PackageSnapshot V I} (he : e ∈ entries)
    (ha : a ∈ entries) {d : PkgName × PackageSnapshotDependency V}
    (hd : d ∈ linkedDependencies e.2)
    (hmem : dependencyLink config e.1 d ∈ packageSteps config schedule a) :
    a.1.packageSpecifier.toVirtualStoreName = e.1.packageSpecifier.toVirtualStoreName := by
  simp only [packageSteps, packageImport, dependencyLink, List.mem_cons, List.mem_map, reduceCtorEq,
    false_or, InstallStep.linkPackage.injEq] at hmem
  obtain ⟨d', hd', -, hpath⟩ := hmem
  have hname' := h.dependencyNames a ha d' hd'
  have hname := h.dependencyNames e he d hd
  have hleads := h.leadsTo_entry ha hname'
  rw [hpath] at hleads
  have hprefix : entryLoc v a.1 d'.1 <+: entryLoc v e.1 d.1 :=
    hleads.unique (h.leadsTo_entry he hname) ▸ List.prefix_rfl
  exact (entryLoc_nested hname'.wellFormed hname.wellFormed hprefix).1

/-- A package is imported before its dependencies are linked. -/
theorem Layout.import_mem_of_link (hdistinct : entries.Pairwise fun a b =>
      a.1.packageSpecifier.toVirtualStoreName ≠ b.1.packageSpecifier.toVirtualStoreName)
    {e : DependencyPath V × PackageSnapshot V I} (he : e ∈ entries)
    {d : PkgName × PackageSnapshotDependency V} (hd : d ∈ linkedDependencies e.2)
    {before after : List InstallStep}
    (hsplit : installSteps config entries direct schedule =
      before ++ dependencyLink config e.1 d :: after) :
    packageImport config (schedule.casPaths config e) e.1 ∈ before := by
  rcases List.append_eq_append_iff.mp hsplit with ⟨more, hbefore, -⟩ | ⟨more, hstore, hmore⟩
  · rw [hbefore]
    exact List.mem_append_left _ (packageImport_mem he)
  · cases more with
    | nil =>
        rw [List.append_nil] at hstore
        rw [← hstore]
        exact packageImport_mem he
    | cons step more =>
        obtain ⟨rfl, -⟩ := List.cons.inj hmore
        obtain ⟨l₁, a, l₂, f₁, f₂, horder, hsteps, rfl⟩ := exists_of_flatMap_split hstore
        have ha : a ∈ entries := (schedule.perm entries).mem_iff.mp (by rw [horder]; simp)
        have hmem : dependencyLink config e.1 d ∈ packageSteps config schedule a := by
          rw [hsteps]
          simp
        obtain rfl : a = e :=
          eq_of_storeName hdistinct ha he (h.store_of_link_mem he ha hd hmem)
        apply List.mem_append_right _
        -- the link is neither of the two steps that a package begins with
        cases f₁ with
        | nil => cases (List.cons.inj hsteps).1
        | cons first f₁ =>
            cases f₁ with
            | nil => cases (List.cons.inj (List.cons.inj hsteps).2).1
            | cons second f₁ =>
                obtain ⟨-, hrest⟩ := List.cons.inj hsteps
                rw [(List.cons.inj hrest).1]
                simp

end Kept

section Install

variable {V I : Type} [NodeSemver V] [BEq V] [PlainSemver V] {config : Npmrc}
  {lockfile : Lockfile V I} {groups : List DependencyGroup} {schedule : Schedule V I}
  {v m : Loc} {start finish : Tree}

/-- A frozen install keeps the directory of a package whose links resolve. -/
theorem Install.keepsOwnFiles_of_resolves
    (hlayout : Layout config lockfile.packageEntries (lockfile.directDependencies groups) v m)
    (htidy : Tidy (installSteps config lockfile.packageEntries
      (lockfile.directDependencies groups) schedule) start)
    (hfree : Along config.packageImportMethod ImportFree (installSteps config
      lockfile.packageEntries (lockfile.directDependencies groups) schedule) start)
    {e : DependencyPath V × PackageSnapshot V I} (he : e ∈ lockfile.packageEntries)
    (hresolves : Along config.packageImportMethod (OwnLinkResolves config e.1)
      (installSteps config lockfile.packageEntries (lockfile.directDependencies groups) schedule)
      start) :
    KeepsOwnFiles config schedule
      (installSteps config lockfile.packageEntries (lockfile.directDependencies groups) schedule)
      v e start := by
  intro before mid rest imported s' hsplit himport hmid
  have horder := hlayout.orderly schedule
  have hmem : ∀ step ∈ before ++ packageImport config (schedule.casPaths config e) e.1 :: mid,
      step ∈ installSteps config lockfile.packageEntries
        (lockfile.directDependencies groups) schedule := by
    intro step hstep
    rw [hsplit]
    simp only [List.mem_append, List.mem_cons] at hstep ⊢
    tauto
  obtain ⟨s, hbefore, hlast⟩ := runSteps_append_ok himport
  obtain ⟨s', hexec, hnil⟩ := runSteps_cons_ok hlast
  cases hnil
  have hs := horder.run_tidy (fun step hstep => hmem step (by simp [hstep])) hbefore htidy
  rw [hsplit] at hfree hresolves
  have hstepmem := hmem (packageImport config (schedule.casPaths config e) e.1) (by simp)
  have hdir := hlayout.import_dir he (hs _ hstepmem) (hfree.at_step hbefore) hexec
  have hrest := (hresolves.drop hbefore).2
  rw [hexec] at hrest
  exact horder.run_invariant_along (OwnFilesKept v e.1 imported)
    (fun step hstep => hmem step (by simp [hstep])) hmid hrest (hs.step horder hstepmem hexec)
    ⟨hdir, fun _ _ _ hnode => hnode⟩ fun step hstep _ _ htidys hcond hkept hexec' =>
      hlayout.ownFiles_step he (hmem step (by simp [hstep])) htidys hcond hkept hexec'

/-- A frozen install keeps the directories of the packages exactly when every
link step at the place of a package finds that its target leads there. -/
theorem Install.keepsOwnFiles_iff (hdistinct : lockfile.StoreNamesDistinct)
    (hlayout : Layout config lockfile.packageEntries (lockfile.directDependencies groups) v m)
    (htidy : Tidy (installSteps config lockfile.packageEntries
      (lockfile.directDependencies groups) schedule) start)
    (hfree : Along config.packageImportMethod ImportFree (installSteps config
      lockfile.packageEntries (lockfile.directDependencies groups) schedule) start)
    (hrun : Install.installFromLockfile config lockfile groups schedule start = .ok finish) :
    (∀ e ∈ lockfile.packageEntries, KeepsOwnFiles config schedule (installSteps config
        lockfile.packageEntries (lockfile.directDependencies groups) schedule) v e start) ↔
      ∀ e ∈ lockfile.packageEntries, Along config.packageImportMethod
        (OwnLinkResolves config e.1) (installSteps config lockfile.packageEntries
          (lockfile.directDependencies groups) schedule) start := by
  refine ⟨fun hkeeps e he => ?_, fun hresolves e he =>
    Install.keepsOwnFiles_of_resolves hlayout htidy hfree he (hresolves e he)⟩
  refine along_of_splits fun before step after s hsplit hbefore => ?_
  cases step with
  | nodeModules _ => trivial
  | importFiles _ _ => trivial
  | syncLinks _ _ => trivial
  | linkPackage symlinkTarget symlinkPath =>
      intro hplace
      have hmem : .linkPackage symlinkTarget symlinkPath ∈ installSteps config
          lockfile.packageEntries (lockfile.directDependencies groups) schedule := by
        rw [hsplit]
        simp
      obtain ⟨e', he', hstore, d, hd, hname, hlink⟩ := hlayout.own_link he hmem hplace
      obtain rfl : e' = e := eq_of_storeName hdistinct he' he hstore
      have himport := hlayout.import_mem_of_link hdistinct he hd (hlink ▸ hsplit)
      obtain ⟨first, mid, rfl⟩ := List.append_of_mem himport
      -- the states before and after the step both come after the import
      have hsteps := Install.steps_of_run hrun
      rw [hsplit] at hsteps
      obtain ⟨s₁, hs₁, hrest⟩ := runSteps_append_ok hsteps
      rw [hbefore] at hs₁
      cases hs₁
      obtain ⟨s', hexec, -⟩ := runSteps_cons_ok hrest
      obtain ⟨s₀, hfirst, hmid⟩ := runSteps_append_ok hbefore
      obtain ⟨imported, himported, hmid⟩ := runSteps_cons_ok hmid
      have hupto := runSteps_append_of_ok hfirst
        (runSteps_cons_of_ok himported (show runSteps _ [] imported = .ok imported from rfl))
      have hkept := hkeeps e' he first mid (.linkPackage symlinkTarget symlinkPath :: after)
        imported s (by rw [hsplit]; simp) hupto hmid
      have hkept' := hkeeps e' he first (mid ++ [.linkPackage symlinkTarget symlinkPath]) after
        imported s' (by rw [hsplit]; simp) hupto
        (runSteps_append_of_ok hmid (runSteps_cons_of_ok hexec rfl))
      by_contra hnot
      have hpath : LeadsTo symlinkPath (ownLoc v e'.1) :=
        hplace.trans (hlayout.leadsTo_savePath he)
      obtain ⟨dir, last, hloc⟩ := exists_entryLoc_concat v e'.1 e'.1.packageSpecifier.name
      have hdir := hkept.dir
      have hdir' := hkept'.dir
      rw [ownLoc, hloc] at hpath hdir hdir'
      rw [symlinkPackage_replaces hpath hdir hnot (Results.mapError_ok hexec)] at hdir'
      cases hdir'

end Install

section Versions

/-- An empty project beside a store of one file. -/
def sampleStart : Tree :=
  let made : Except IoError Tree := do
    let t ← createDirAll .empty (pathOf ["project".toList])
    let t ← createDirAll t (pathOf ["store".toList])
    makeNode t (pathOf ["store".toList, "file".toList]) (.file "{}".toList)
  made.toOption.getD .empty

/-- Downloads complete in the order of the map, each with the one file. -/
def sampleSchedule : Schedule CoreVersion HashIntegrity where
  order := id
  perm _ := .refl _
  download _ _ := .ok ⟨[("package.json".toList, "/store/file".toList)], by simp⟩

def sampleVersion : CoreVersion := firstVersion

def sampleKey (name : Text) (version : CoreVersion) : DependencyPath CoreVersion :=
  ⟨none, ⟨⟨none, name⟩, ⟨version, []⟩⟩⟩

/-- A dependency on a version of the package of its name. -/
def sampleDependency (name : Text) (version : CoreVersion) :
    PkgName × PackageSnapshotDependency CoreVersion :=
  (⟨none, name⟩, .pkgVerPeer ⟨version, []⟩)

def samplePackage (dependencies : List (PkgName × PackageSnapshotDependency CoreVersion))
    (optionalDependencies : List (Text × Text)) : PackageSnapshot CoreVersion HashIntegrity :=
  .plain (.registry ⟨⟨"sha512".toList, "YQ==".toList⟩⟩) (some (.ofList dependencies))
    (some (.ofList optionalDependencies))

/-- A lockfile of the packages whose project depends on `a@1.0.0`. -/
def sampleLockfile (packages : List (DependencyPath CoreVersion ×
    PackageSnapshot CoreVersion HashIntegrity)) : Lockfile CoreVersion HashIntegrity :=
  { devLockfile with
    projectSnapshot := .single
      ⟨none, some (directDependency "a".toList), none, none, none, none⟩
    packages := some (.ofList packages) }

def sampleStore : Loc := ["project".toList, "node_modules".toList, ".pnpm".toList]

def sampleModules : Loc := ["project".toList, "node_modules".toList]

theorem sampleStart_noLink (q : Loc) (target : Text) :
    sampleStart.get q ≠ some (.link target) := by
  refine Tree.noLink_of_entries ?_ q target
  have hall : sampleStart.nodes.entries.all (fun e => e.2 = .dir ∨ e.2 = .file "{}".toList) := by
    decide +kernel
  intro e he
  rcases of_decide_eq_true (List.all_eq_true.mp hall e he) with h | h <;> simp [h]

theorem sampleLayout {entries : List (DependencyPath CoreVersion ×
      PackageSnapshot CoreVersion HashIntegrity)}
    {direct : List (PkgName × ResolvedDependencySpec CoreVersion)}
    (hpackages : ∀ e ∈ entries, e.1.packageSpecifier.name.Plain)
    (hdependencies : ∀ e ∈ entries, ∀ d ∈ linkedDependencies e.2, d.1.Plain)
    (hdirect : ∀ d ∈ direct, d.1.Plain ∧ d.1.display ≠ ".pnpm".toList) :
    Layout defaultNpmrc entries direct sampleStore sampleModules where
  virtualStore := by decide
  modules := by decide
  outside := by decide
  hidden name rest h := by
    have happend : sampleModules ++ [".pnpm".toList] = sampleModules ++ name :: rest := h
    have hname : [".pnpm".toList] = name :: rest := List.append_cancel_left happend
    obtain ⟨rfl, -⟩ := List.cons.inj hname
    exact ⟨rfl, fun d hd => (hdirect d hd).2⟩
  packageNames := hpackages
  dependencyNames := hdependencies
  directNames d hd := (hdirect d hd).1

/-- Two packages that depend on each other, and one of them on itself. -/
def cycleLockfile : Lockfile CoreVersion HashIntegrity :=
  sampleLockfile
    [(sampleKey "a".toList sampleVersion,
      samplePackage [sampleDependency "a".toList sampleVersion,
        sampleDependency "b".toList sampleVersion] []),
    (sampleKey "b".toList sampleVersion,
      samplePackage [sampleDependency "a".toList sampleVersion] [])]

theorem Install.keepsOwnFiles_cycle :
    ∃ finish, Install.installFromLockfile defaultNpmrc cycleLockfile [.prod] sampleSchedule
        sampleStart = .ok finish ∧
      ∀ e ∈ cycleLockfile.packageEntries, KeepsOwnFiles defaultNpmrc sampleSchedule
        (installSteps defaultNpmrc cycleLockfile.packageEntries
          (cycleLockfile.directDependencies [.prod]) sampleSchedule)
        sampleStore e sampleStart := by
  have hrun : (Install.installFromLockfile defaultNpmrc cycleLockfile [.prod] sampleSchedule
      sampleStart).toOption.map (fun _ => true) = some true := by decide +kernel
  obtain ⟨finish, hfinish, -⟩ := Results.exists_of_toOption_map hrun
  have hlayout : Layout defaultNpmrc cycleLockfile.packageEntries
      (cycleLockfile.directDependencies [.prod]) sampleStore sampleModules :=
    sampleLayout (by decide +kernel) (by decide +kernel) (by decide +kernel)
  have hdistinct : cycleLockfile.StoreNamesDistinct :=
    List.pairwise_pair.mpr (by decide +kernel)
  exact ⟨finish, hfinish, (Install.keepsOwnFiles_iff hdistinct hlayout
    (tidy_of_noLink sampleStart_noLink) (by decide +kernel) hfinish).mpr (by decide +kernel)⟩

/-- A package that depends on another version of a package of its own name. -/
def selfVersionsLockfile : Lockfile CoreVersion HashIntegrity :=
  sampleLockfile
    [(sampleKey "a".toList sampleVersion,
      samplePackage [sampleDependency "a".toList otherVersion] []),
    (sampleKey "a".toList otherVersion, samplePackage [] [])]

/-- The files of `a@1.0.0` are replaced by a link to `a@2.0.0`. -/
theorem Install.not_keepsOwnFiles_versions :
    selfVersionsLockfile.StoreNamesDistinct ∧
      (Install.installFromLockfile defaultNpmrc selfVersionsLockfile [.prod]
        sampleSchedule sampleStart).toOption.map
          (fun t => t.get (ownLoc sampleStore (sampleKey "a".toList sampleVersion))) =
        some (some (.link "/project/node_modules/.pnpm/a@2.0.0/node_modules/a".toList)) ∧
      ∃ e ∈ selfVersionsLockfile.packageEntries,
        ¬ KeepsOwnFiles defaultNpmrc sampleSchedule
          (installSteps defaultNpmrc selfVersionsLockfile.packageEntries
            (selfVersionsLockfile.directDependencies [.prod]) sampleSchedule)
          sampleStore e sampleStart := by
  have hrun : (Install.installFromLockfile defaultNpmrc selfVersionsLockfile [.prod]
      sampleSchedule sampleStart).toOption.map
        (fun t => t.get (ownLoc sampleStore (sampleKey "a".toList sampleVersion))) =
      some (some (.link "/project/node_modules/.pnpm/a@2.0.0/node_modules/a".toList)) := by
    decide +kernel
  refine ⟨List.pairwise_pair.mpr (by decide +kernel), hrun, _, List.mem_cons_self, ?_⟩
  intro hkeeps
  obtain ⟨finish, hfinish, hlink⟩ := Results.exists_of_toOption_map hrun
  have hsteps : runSteps defaultNpmrc.packageImportMethod
      ([.nodeModules _, packageImport defaultNpmrc _ _] ++ _) sampleStart = .ok finish :=
    Install.steps_of_run hfinish
  obtain ⟨s, hs, hrest⟩ := runSteps_append_ok hsteps
  have hdir := (hkeeps [_] _ [] s finish (List.append_nil _).symm hs hrest).dir
  rw [show ownLoc sampleStore _ = ownLoc sampleStore (sampleKey "a".toList sampleVersion)
    from rfl, hlink] at hdir
  cases hdir

end Versions

end Npnpm
