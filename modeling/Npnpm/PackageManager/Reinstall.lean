import Npnpm.PackageManager.ResolvedTree
import Npnpm.PackageManager.SyncLinks

/-!
# Installing again

After an install of a lockfile into a fresh project every step of the same install finds its work
done: the directories and the packages are there, each link stands where it belongs, and the
modules directory holds no name that is not wanted. So the install can be repeated, with the
packages in any order, and changes nothing.
-/

namespace Npnpm

open Npnpm.Path Npnpm.FileTree

section Settled

variable {t : Tree} {importMethod : PackageImportMethod}

/-- A link step whose link stands there changes nothing, whether or not the link leads anywhere. -/
theorem symlinkPackage_settled {symlinkTarget symlinkPath : Text} {d : Loc} {name : Text}
    (hpath : LeadsTo symlinkPath (d ++ [name])) (habs : isAbsolute symlinkTarget = true)
    (hlink : t.get (d ++ [name]) = some (.link symlinkTarget) ∨
      t.get (d ++ [name]) = some .dir ∧ components symlinkTarget = components symlinkPath) :
    symlinkPackage t symlinkTarget symlinkPath = .ok t := by
  obtain ⟨node, hnode⟩ : ∃ node, t.get (d ++ [name]) = some node := by
    rcases hlink with hlink | ⟨hdir, -⟩
    · exact ⟨_, hlink⟩
    · exact ⟨_, hdir⟩
  have hd : t.get d = some .dir := by simpa using Tree.get_dropLast hnode
  have hparent : parent (components symlinkPath) = some (pathOf d) := by
    unfold parent
    rw [hpath, getLast?_pathOf_concat, dropLast_pathOf_concat]
  have hsame : ∀ q, canonicalize t (components symlinkPath) = .ok q →
      canonicalize t (components symlinkTarget) = .ok q := by
    intro q hq
    rcases hlink with hlink | ⟨-, heq⟩
    · rw [hpath] at hq
      exact canonicalize_target hd hlink habs hq
    · rwa [heq]
  have hreplace : replaceLink t symlinkTarget symlinkPath = .ok t := by
    unfold replaceLink
    by_cases hexists : pathExists t (components symlinkPath) = true
    · obtain ⟨q, hq⟩ := pathExists_iff.mp hexists
      rw [if_pos hexists, hq, hsame q hq, if_pos rfl]
    · have htaken : t.create d name (.link symlinkTarget) = .error .alreadyExists := by
        rw [Tree.create, dif_pos hd, dif_neg (by simp [hnode])]
      rw [if_neg hexists, symlinkDir, symlink, hpath, makeNode_of_dir name _ hd, htaken]
  rw [symlinkPackage, hparent]
  exact Results.ok_bind (Results.mapError_of_ok (createDirAll_of_dir hd)) hreplace

theorem createCasFiles_settled {dirPath : Text} {casPaths : CasPaths} {q : Loc}
    (hpath : LeadsTo dirPath q) (hdir : t.get q = some .dir) :
    createCasFiles importMethod t dirPath casPaths = .ok t := by
  have hexists : pathExists t (components dirPath) = true := by
    rw [hpath, pathExists, canonicalize_of_dir hdir]
    rfl
  rw [createCasFiles, if_pos hexists]

end Settled

section Sync

variable {t : Tree} {m : Loc}

/-- The entries of a directory can be listed, those of its scopes included. -/
theorem exists_currentDirectDependencyPaths (hdir : t.get m = some .dir) :
    ∃ packages, currentDirectDependencyPaths t (pathOf m) = .ok packages := by
  have heach : ∀ name ∈ t.children m, ∃ paths,
      directDependencyPaths t (pathOf m) name = .ok paths := by
    intro name _
    unfold directDependencyPaths
    by_cases hdot : name.head? = some '.'
    · exact ⟨[], if_pos hdot⟩
    · simp only [if_neg hdot]
      by_cases hscope : name.head? = some '@' ∧ isDir t (pathOf m ++ [.normal name]) = true
      · obtain ⟨q, hq, hqdir⟩ := isDir_iff.mp hscope.2
        have hread := readDir_ok_iff.mpr ⟨q, hq, hqdir, rfl⟩
        rw [if_pos hscope]
        exact ⟨_, Results.ok_bind (Results.mapError_of_ok hread) rfl⟩
      · rw [if_neg hscope]
        exact ⟨_, rfl⟩
  obtain ⟨packages, hpackages⟩ := (Results.exists_mapM_ok_iff _ _).mpr heach
  refine ⟨packages.flatten, ?_⟩
  rw [currentDirectDependencyPaths, readDir_of_dir hdir]
  exact Results.ok_bind rfl (Results.ok_bind hpackages rfl)

/-- A synchronisation that finds only wanted names changes nothing. -/
theorem syncDirectDependencyLinks_settled {modulesDir : Text} {desired : List Text}
    (hpath : LeadsTo modulesDir m) (hm : ModulesClear t m)
    (hroot : t.get m = none ∨ t.get m = some .dir) (honly : OnlyDesired t m desired) :
    syncDirectDependencyLinks t modulesDir desired = .ok t := by
  have hcomponents : components modulesDir = pathOf m := hpath
  rw [syncDirectDependencyLinks, hcomponents]
  rcases hroot with hnone | hdir
  · have hmissing : ¬ pathExists t (pathOf m) = true := by
      intro hexists
      obtain ⟨q, hq⟩ := pathExists_iff.mp hexists
      obtain rfl := canonicalize_of_clear hm.clear hq
      exact (canonicalize_ok_iff.mp hq).2 hnone
    rw [if_neg hmissing]
  · have hexists : pathExists t (pathOf m) = true :=
      pathExists_iff.mpr ⟨m, canonicalize_of_dir hdir⟩
    obtain ⟨packages, hpackages⟩ := exists_currentDirectDependencyPaths hdir
    rw [if_pos hexists, hpackages]
    refine Results.foldlM_fixed fun package hmem => ?_
    obtain ⟨loc, hentry, -⟩ :=
      (mem_currentDirectDependencyPaths hm hpackages package.1 package.2).mp hmem
    exact if_pos (honly _ loc hentry)

end Sync

section Direct

variable {V I : Type} [NodeSemver V] [BEq V] [PlainSemver V] {config : Npmrc}
  {entries : List (DependencyPath V × PackageSnapshot V I)}
  {direct : List (PkgName × ResolvedDependencySpec V)} {schedule : Schedule V I} {v m : Loc}
  {importMethod : PackageImportMethod} {s t finish : Tree}

omit [BEq V] in
/-- The links of the direct dependencies make nothing but themselves and what is above them, and
remove nothing but what stands at their places. -/
theorem Layout.direct_run (hlayout : Layout config entries direct v m)
    (hrun : runSteps importMethod (direct.map (directLink config)) s = .ok finish)
    (htidy : Tidy (installSteps config entries direct schedule) s) :
    Adds (fun q => ∃ d ∈ direct, q <+: m ++ d.1.loc) s finish ∧
      ∀ q node, s.get q = some node → (∀ d ∈ direct, ¬ m ++ d.1.loc <+: q) →
        finish.get q = some node := by
  have horder := hlayout.orderly schedule
  have hpart : ∀ step ∈ direct.map (directLink config),
      step ∈ installSteps config entries direct schedule := fun step hstep =>
    List.mem_append_right _ (List.mem_cons_of_mem _ hstep)
  refine (horder.run_invariant (fun t => Adds (fun q => ∃ d ∈ direct, q <+: m ++ d.1.loc) s t ∧
    ∀ q node, s.get q = some node → (∀ d ∈ direct, ¬ m ++ d.1.loc <+: q) →
      t.get q = some node) hpart hrun htidy ⟨.refl _ _, fun _ _ hq _ => hq⟩ ?_).2
  rintro step hstep t t' ht ⟨hadds, hkept⟩ hexec
  have hchanges := horder.changes ht (hpart step hstep) hexec
  obtain ⟨d, hd, rfl⟩ := List.mem_map.mp hstep
  have hpath := hlayout.leadsTo_direct hd
  constructor
  · obtain ⟨dir, last, hloc⟩ := exists_concat (q := m ++ d.1.loc) (by simp [PkgName.loc_ne_nil])
    rw [hloc] at hpath
    refine hadds.trans ((symlinkPackage_adds hpath
      (linkPackage_clear hpath (ht _ (hpart _ hstep))) (Results.mapError_ok hexec)).mono ?_)
    intro q hq
    exact ⟨d, hd, hloc ▸ hq⟩
  · intro q node hq hapart
    refine hchanges.kept q node (hkept q node hq hapart) ?_
    rintro ⟨r, hr, hprefix⟩
    rw [hr.unique hpath] at hprefix
    exact hapart d hd hprefix

/-- A direct dependency is an entry under its name. -/
theorem display_of_entry {text : Text} {name : PkgName} (h : DirectEntry t m text name.loc) :
    text = name.display := by
  obtain ⟨scope, bare⟩ := name
  cases scope with
  | none =>
      cases h with
      | plain => rfl
  | some scope =>
      cases h with
      | inScope => rfl

/-- Linking what is wanted puts no other name into the modules directory. -/
theorem OnlyDesired.of_links {names : List PkgName}
    (honly : OnlyDesired s m (names.map PkgName.display))
    (hadds : Adds (fun q => ∃ name ∈ names, q <+: m ++ name.loc) s t)
    (hkept : ∀ q node, s.get q = some node → (∀ name ∈ names, ¬ m ++ name.loc <+: q) →
      t.get q = some node)
    (hplaced : ∀ name ∈ names, t.get (m ++ name.loc) ≠ none) :
    OnlyDesired t m (names.map PkgName.display) := by
  intro text loc hentry
  by_contra hnot
  have hother : ∀ name ∈ names, loc ≠ name.loc := by
    rintro name hname rfl
    exact hnot (List.mem_map.mpr ⟨name, hname, (display_of_entry hentry).symm⟩)
  cases hs : s.get (m ++ loc) with
  | none =>
      obtain ⟨name, hname, hprefix⟩ := hadds _ hs hentry.taken
      rw [List.prefix_append_right_inj] at hprefix
      rcases name.scope_of_above hprefix (hother name hname) with rfl | ⟨scope, hscope, rfl⟩
      · exact hentry.loc_ne_nil rfl
      · -- the scope of a link that stands is a directory, and no entry itself
        obtain ⟨node, hnode⟩ := Option.ne_none_iff_exists'.mp (hplaced name hname)
        have hdir : t.get (m ++ [scope]) = some .dir :=
          Tree.get_of_above hnode ((List.prefix_append_right_inj m).mpr hprefix)
            fun heq => hother name hname (List.append_cancel_left heq)
        cases hentry with
        | plain _ hnodir _ => exact hnodir hscope hdir
  | some node =>
      refine hnot (honly text loc ?_)
      cases hentry with
      | plain hdot hscope htaken =>
          refine .plain hdot (fun hat hdir => ?_) (by simp [hs])
          refine hscope hat (hkept _ _ hdir fun other hmem hprefix => ?_)
          rw [List.prefix_append_right_inj] at hprefix
          have hne := other.loc_ne_nil
          rcases List.prefix_concat_iff.mp (show other.loc <+: [] ++ [text] from hprefix) with
            heq | hnil
          · exact hother other hmem heq.symm
          · exact hne (List.prefix_nil.mp hnil)
      | @inScope scope name hscope hdir htaken =>
          refine .inScope hscope ?_ (by simp [hs])
          refine Tree.get_of_above hs ?_ ?_
          · simp
          · simp

end Direct

section Again

variable {V I : Type} [NodeSemver V] [BEq V] [PlainSemver V] {config : Npmrc}
  {lockfile : Lockfile V I} {groups : List DependencyGroup} {schedule again : Schedule V I}
  {v m : Loc} {start finish t : Tree}

/-- At the end of an install the modules directory holds no name that is not wanted. -/
theorem Install.onlyDesired_of_run
    (hlayout : Layout config lockfile.packageEntries (lockfile.directDependencies groups) v m)
    (htidy : Tidy (installSteps config lockfile.packageEntries
      (lockfile.directDependencies groups) schedule) start)
    (hrun : Install.installFromLockfile config lockfile groups schedule start = .ok finish)
    (hplaced : ∀ d ∈ lockfile.directDependencies groups, finish.get (m ++ d.1.loc) ≠ none) :
    ModulesClear finish m ∧ (finish.get m = none ∨ finish.get m = some .dir) ∧
      OnlyDesired finish m
        ((lockfile.directDependencies groups).map fun d => d.1.display) := by
  have horder := hlayout.orderly schedule
  have hsteps := Install.steps_of_run hrun
  have hsplit : installSteps config lockfile.packageEntries (lockfile.directDependencies groups)
      schedule = storeSteps config lockfile.packageEntries schedule ++
        .syncLinks config.modulesDir
          ((lockfile.directDependencies groups).map fun d => d.1.display) ::
        (lockfile.directDependencies groups).map (directLink config) := rfl
  obtain ⟨s, s', -, hway, hexec, htidy', hafter⟩ := horder.run_at hsteps htidy hsplit
  have hm := syncLinks_modulesClear hlayout.modules hway
  have hsync := Results.mapError_ok hexec
  have hend := horder.run_tidy (fun _ hstep => hstep) hsteps htidy _
    (List.mem_append_right _ List.mem_cons_self)
  obtain ⟨hadds, hkept⟩ := hlayout.direct_run hafter htidy'
  have hnames : (lockfile.directDependencies groups).map (fun d => d.1.display) =
      ((lockfile.directDependencies groups).map Prod.fst).map PkgName.display := by
    rw [List.map_map]
    rfl
  refine ⟨syncLinks_modulesClear hlayout.modules hend, ?_, ?_⟩
  · cases hdirect : lockfile.directDependencies groups with
    | nil =>
        rw [hdirect] at hafter
        obtain rfl : s' = finish := Except.ok.inj hafter
        exact sync_modules hlayout.modules hm hsync
    | cons d rest =>
        obtain ⟨node, hnode⟩ :=
          Option.ne_none_iff_exists'.mp (hplaced d (by simp [hdirect]))
        refine Or.inr (Tree.get_of_above hnode (List.prefix_append _ _) fun heq => ?_)
        exact d.1.loc_ne_nil (List.self_eq_append_right.mp heq)
  · have honly := sync_onlyDesired hlayout.modules hm hsync
    rw [hnames] at honly ⊢
    refine honly.of_links (hadds.mono ?_) ?_ ?_
    · rintro q ⟨d, hd, hq⟩
      exact ⟨d.1, List.mem_map_of_mem hd, hq⟩
    · exact fun q node hq hapart =>
        hkept q node hq fun d hd => hapart d.1 (List.mem_map_of_mem hd)
    · intro name hname
      obtain ⟨d, hd, rfl⟩ := List.mem_map.mp hname
      exact hplaced d hd

omit [PlainSemver V] in
/-- Every package of an install that finishes can be requested. -/
theorem Install.exists_request_of_run
    (hrun : Install.installFromLockfile config lockfile groups schedule start = .ok finish) :
    ∃ packages, lockfile.packages = some packages ∧ ∀ e ∈ packages.entries,
      ∃ request, InstallPackageBySnapshot.request config e.1 e.2 = .ok request := by
  obtain ⟨s, hstore, -⟩ := Results.bind_ok hrun
  unfold CreateVirtualStore.run at hstore
  split at hstore
  · cases hstore
  · rename_i packages hpackages
    refine ⟨packages, hpackages, fun e he => ?_⟩
    obtain ⟨_, _, _, _, -, -, hpackage, -⟩ :=
      Results.foldlM_at hstore ((schedule.perm packages.entries).mem_iff.mpr he)
    obtain ⟨request, hrequest, -⟩ := Results.bind_ok hpackage
    exact ⟨request, Results.mapError_ok hrequest⟩

/-- The tree holds all that the install of a lockfile makes. -/
structure Installed (config : Npmrc) (lockfile : Lockfile V I) (groups : List DependencyGroup)
    (v m : Loc) (t : Tree) : Prop where
  own : ∀ e ∈ lockfile.packageEntries, t.get (ownLoc v e.1) = some .dir
  placed : ∀ e ∈ lockfile.packageEntries, ∀ d ∈ linkedDependencies e.2,
    ∃ node, t.get (entryLoc v e.1 d.1) = some node ∧ LinkPlaced config e.1 d node
  direct : ∀ d ∈ lockfile.directDependencies groups, t.get (m ++ d.1.loc) =
    some (.link (linkTarget config.virtualStoreDir d.1 (.pkgVerPeer d.2.version)))
  clear : ModulesClear t m
  root : t.get m = none ∨ t.get m = some .dir
  only : OnlyDesired t m ((lockfile.directDependencies groups).map fun d => d.1.display)

omit [NodeSemver V] [BEq V] [PlainSemver V] in
theorem isAbsolute_of_leadsTo {p : Text} {q : Loc} (h : LeadsTo p q) : isAbsolute p = true := by
  have hcomponents : components p = pathOf q := h
  by_contra hrel
  rw [Bool.not_eq_true] at hrel
  unfold components at hcomponents
  rw [hrel] at hcomponents
  split at hcomponents
  · contradiction
  · split at hcomponents
    · cases hcomponents
    · exact rootDir_notMem_body p (hcomponents ▸ List.mem_cons_self)

/-- A package whose place, links and directory are there is installed without a change. -/
theorem Installed.package (h : Installed config lockfile groups v m t)
    (hlayout : Layout config lockfile.packageEntries (lockfile.directDependencies groups) v m)
    {e : DependencyPath V × PackageSnapshot V I} (he : e ∈ lockfile.packageEntries)
    (casPaths : CasPaths) :
    CreateVirtualDirBySnapshot.run config t casPaths e.1 e.2 = .ok t := by
  have hown := h.own e he
  have hmodules : t.get (storeLoc v e.1.packageSpecifier.toVirtualStoreName) = some .dir :=
    Tree.get_dir_of_above hown (List.prefix_append _ _)
  have hdir : createDirAll t (components (virtualNodeModulesDir config e.1)) = .ok t := by
    rw [hlayout.leadsTo_nodeModules he]
    exact createDirAll_of_dir hmodules
  have himport : createCasFiles config.packageImportMethod t (savePath config e.1) casPaths =
      .ok t := createCasFiles_settled (hlayout.leadsTo_savePath he) hown
  have hlink : ∀ d ∈ linkedDependencies e.2, symlinkPackage t
      (linkTarget config.virtualStoreDir d.1 d.2)
      (join (virtualNodeModulesDir config e.1) d.1.display) = .ok t := by
    intro d hd
    obtain ⟨node, hnode, hplaced⟩ := h.placed e he d hd
    have hpath := hlayout.leadsTo_entry he (hlayout.dependencyNames e he d hd)
    obtain ⟨dir, last, hloc⟩ := exists_entryLoc_concat v e.1 d.1
    rw [hloc] at hpath hnode
    refine symlinkPackage_settled hpath ?_ ?_
    · exact isAbsolute_join (isAbsolute_join (isAbsolute_join
        (isAbsolute_of_leadsTo hlayout.virtualStore)))
    · rcases hplaced with rfl | ⟨rfl, hself⟩
      · exact Or.inl hnode
      · exact Or.inr ⟨hnode, hself⟩
  refine Results.ok_bind (Results.mapError_of_ok hdir)
    (Results.ok_bind (Results.mapError_of_ok himport) ?_)
  unfold linkedDependencies at hlink
  split
  · rename_i dependencies hdependencies
    rw [hdependencies] at hlink
    exact Results.mapError_of_ok (Results.foldlM_fixed hlink)
  · rfl

/-- An install for which everything is there changes nothing. -/
theorem Installed.repeated (h : Installed config lockfile groups v m t)
    (hlayout : Layout config lockfile.packageEntries (lockfile.directDependencies groups) v m)
    (hrun : Install.installFromLockfile config lockfile groups schedule start = .ok finish)
    (hdownloads : ∀ e ∈ lockfile.packageEntries, ∀ request,
      InstallPackageBySnapshot.request config e.1 e.2 = .ok request →
      ∃ casPaths, again.download e.1 request = .ok casPaths) :
    Install.installFromLockfile config lockfile groups again t = .ok t := by
  obtain ⟨packages, hpackages, hrequests⟩ := Install.exists_request_of_run hrun
  have hentries : lockfile.packageEntries = packages.entries := by
    rw [Lockfile.packageEntries, hpackages]
  have hstore : CreateVirtualStore.run config lockfile.packages again t = .ok t := by
    rw [hpackages, CreateVirtualStore.run]
    refine Results.foldlM_fixed fun e he => ?_
    have hmem : e ∈ packages.entries := (again.perm _).mem_iff.mp he
    obtain ⟨request, hrequest⟩ := hrequests e hmem
    obtain ⟨casPaths, hcas⟩ := hdownloads e (hentries ▸ hmem) request hrequest
    exact Results.ok_bind (Results.mapError_of_ok hrequest)
      (Results.ok_bind (Results.mapError_of_ok hcas) (h.package hlayout (hentries ▸ hmem) casPaths))
  have hlinks : SymlinkDirectDependencies.run config lockfile.projectSnapshot groups t = .ok t := by
    obtain ⟨s, -, hproject⟩ := Results.bind_ok hrun
    have honly := h.only
    have hdirect := h.direct
    have hnames : ∀ d ∈ lockfile.directDependencies groups,
        LeadsTo (join config.modulesDir d.1.display) (m ++ d.1.loc) :=
      fun d hd => hlayout.leadsTo_direct hd
    unfold SymlinkDirectDependencies.run at hproject ⊢
    unfold Lockfile.directDependencies at honly hdirect hnames
    cases hsnapshot : lockfile.projectSnapshot with
    | multi _ =>
        simp only [hsnapshot] at hproject
        cases hproject
    | single project =>
        simp only [hsnapshot] at honly hdirect hnames ⊢
        have hsync := syncDirectDependencyLinks_settled hlayout.modules h.clear h.root honly
        refine Results.ok_bind (Results.mapError_of_ok hsync) (Results.foldlM_fixed fun d hd => ?_)
        obtain ⟨dir, last, hloc⟩ := exists_concat (q := m ++ d.1.loc)
          (by simp [PkgName.loc_ne_nil])
        have hlink := hdirect d hd
        have hpath := hnames d hd
        rw [hloc] at hlink hpath
        exact Results.mapError_of_ok (symlinkPackage_settled hpath (isAbsolute_join (isAbsolute_join
          (isAbsolute_join (isAbsolute_of_leadsTo hlayout.virtualStore)))) (Or.inl hlink))
  exact Results.ok_bind hstore hlinks

/-- After an install into a fresh project the same install, with the packages in any order,
finishes and changes nothing. -/
theorem Install.again_unchanged
    (hlayout : Layout config lockfile.packageEntries (lockfile.directDependencies groups) v m)
    (hdistinct : lockfile.StoreNamesDistinct) (happart : NamesApart lockfile.packageEntries)
    (honce : (lockfile.directDependencies groups).Pairwise fun a b => a.1 ≠ b.1)
    (hinside : ∀ e ∈ lockfile.packageEntries, (schedule.casPaths config e).Inside)
    (hfresh : Fresh (lockfile.directDependencies groups) v m start)
    (hrun : Install.installFromLockfile config lockfile groups schedule start = .ok finish)
    (hdownloads : ∀ e ∈ lockfile.packageEntries, ∀ request,
      InstallPackageBySnapshot.request config e.1 e.2 = .ok request →
      ∃ casPaths, again.download e.1 request = .ok casPaths) :
    Install.installFromLockfile config lockfile groups again finish = .ok finish := by
  have htidy := hfresh.tidy hlayout schedule
  have hfree := hlayout.importFree_of_fresh config.packageImportMethod hdistinct happart hinside
    hfresh
  have hplaces := hlayout.linkReplaceable_of_fresh config.packageImportMethod hdistinct happart
    hinside hfresh honce
  have hdirect : ∀ d ∈ lockfile.directDependencies groups, finish.get (m ++ d.1.loc) =
      some (.link (linkTarget config.virtualStoreDir d.1 (.pkgVerPeer d.2.version))) := by
    intro d hd
    obtain ⟨l₁, l₂, hsplit⟩ := List.append_of_mem hd
    refine Install.direct_placed hlayout htidy hplaces hrun hsplit fun d' hd' => ?_
    rw [hsplit] at honce
    exact ((List.pairwise_cons.mp (List.pairwise_append.mp honce).2.1).1 d' hd').symm
  obtain ⟨hclear, hroot, honly⟩ := Install.onlyDesired_of_run hlayout htidy hrun
    fun d hd => by simp [hdirect d hd]
  have hinstalled : Installed config lockfile groups v m finish := {
    own := fun e he => Install.own_dir_of_run hlayout htidy hfree hrun he
      (happart.selfReferring hdistinct he)
    placed := fun e he d hd =>
      Install.placed_of_run hdistinct.linksAgree hlayout htidy hplaces.take hrun he hd
    direct := hdirect
    clear := hclear
    root := hroot
    only := honly }
  exact hinstalled.repeated hlayout hrun hdownloads

end Again

section Samples

/-- Two packages that depend on each other. -/
def pairLockfile : Lockfile CoreVersion HashIntegrity :=
  sampleLockfile
    [(sampleKey "a".toList sampleVersion,
      samplePackage [sampleDependency "b".toList sampleVersion] []),
    (sampleKey "b".toList sampleVersion,
      samplePackage [sampleDependency "a".toList sampleVersion] [])]

/-- The last package first. -/
def reversedSchedule : Schedule CoreVersion HashIntegrity where
  order := List.reverse
  perm := List.reverse_perm
  download := sampleSchedule.download

theorem Install.again_unchanged_reversed :
    ∃ finish, Install.installFromLockfile defaultNpmrc pairLockfile [.prod] sampleSchedule
        sampleStart = .ok finish ∧
      Install.installFromLockfile defaultNpmrc pairLockfile [.prod] reversedSchedule finish =
        .ok finish := by
  have hall : (Install.installFromLockfile defaultNpmrc pairLockfile [.prod] sampleSchedule
      sampleStart).toOption.map (fun _ =>
        decide ((pairLockfile.packageEntries.Pairwise fun a b =>
            a.1.packageSpecifier.toVirtualStoreName ≠ b.1.packageSpecifier.toVirtualStoreName) ∧
          (∀ e ∈ pairLockfile.packageEntries, e.1.packageSpecifier.name.Plain) ∧
          (∀ e ∈ pairLockfile.packageEntries, ∀ d ∈ linkedDependencies e.2,
            d.1.Plain ∧ d.1 ≠ e.1.packageSpecifier.name) ∧
          (∀ d ∈ pairLockfile.directDependencies [.prod],
            d.1.Plain ∧ d.1.display ≠ ".pnpm".toList) ∧
          ((pairLockfile.directDependencies [.prod]).Pairwise fun a b => a.1 ≠ b.1) ∧
          (∀ d ∈ pairLockfile.directDependencies [.prod],
            ∀ e ∈ sampleStart.nodes.entries, e.1 ≠ sampleModules ++ d.1.loc) ∧
          ∀ e ∈ sampleStart.nodes.entries, ¬ sampleStore <+: e.1)) = some true := by
    decide +kernel
  obtain ⟨finish, hfinish, hall⟩ := Results.exists_of_toOption_map hall
  obtain ⟨hdistinct, hpackages, hdependencies, hdirect, honce, hnames, hstore⟩ :=
    of_decide_eq_true hall
  exact ⟨finish, hfinish, Install.again_unchanged
    (sampleLayout hpackages (fun e he d hd => (hdependencies e he d hd).1) hdirect) hdistinct
    (fun e he d hd => (hdependencies e he d hd).2) honce (fun e _ => sampleSchedule_inside e)
    (fresh_of_entries sampleStart_noLink hstore hnames) hfinish fun _ _ _ _ => ⟨_, rfl⟩⟩

end Samples

end Npnpm
