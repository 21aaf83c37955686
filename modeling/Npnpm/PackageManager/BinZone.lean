import Npnpm.Library.TreeView
import Npnpm.PackageManager.BinDeclarations
import Npnpm.PackageManager.RegistryLinks
import Npnpm.PackageManager.StepNames

/-!
# What the bin links change

Making the bin links of a `node_modules` directory anew changes its `.bin` directory
and nothing else, as long as the declared bins have file names. So the places of the
packages keep what they hold, and the ways to them stay free of links.
-/

namespace Npnpm

open Npnpm.Path Npnpm.FileTree

section Bins

variable {t t' : Tree}

/-- A directory that is made where nothing can be found. -/
theorem create_of_createDirAll {d : Loc} {name : Text} (hd : t.get d = some .dir)
    (hmissing : pathExists t (pathOf (d ++ [name])) = false)
    (h : createDirAll t (pathOf (d ++ [name])) = .ok t') : t.create d name .dir = .ok t' := by
  have hup : (pathOf (d ++ [name])).reverse = .normal name :: (pathOf d).reverse := by
    simp [pathOf]
  have hnotdir : isDir t (pathOf (d ++ [name])) = false := by
    unfold isDir
    unfold pathExists at hmissing
    cases hcan : canonicalize t (pathOf (d ++ [name])) with
    | error e => rfl
    | ok q => simp [hcan, Except.isOk, Except.toBool] at hmissing
  rw [createDirAll, hup, createDirAllUp, ← hup, List.reverse_reverse, mkdir,
    makeNode_of_dir name _ hd, hnotdir] at h
  simp only [reduceCtorEq, if_false] at h
  unfold Tree.create at h ⊢
  rw [dif_pos hd] at h ⊢
  by_cases hfree : t.get (d ++ [name]) = none
  · rw [dif_pos hfree] at h ⊢
    exact h
  · rw [dif_neg hfree] at h
    simp at h

/-- The declared bins have file names. -/
def PlainBins (binEntries : BinEntries) : Prop :=
  ∀ content entries, binEntries content = .ok entries →
    ∀ e ∈ entries, (Component.normal e.1).Plain

variable {binEntries : BinEntries} {dir : Text} {d : Loc}

theorem packageBins_plain (hplain : PlainBins binEntries) {bins : List (Text × Text)}
    (h : packageBins binEntries t dir = .ok bins) : ∀ b ∈ bins, (Component.normal b.1).Plain := by
  unfold packageBins at h
  simp only at h
  split at h
  · split at h
    · cases h
    · rename_i content hcontent
      obtain ⟨entries, hentries, h⟩ := Results.bind_ok h
      cases h
      intro b hb
      obtain ⟨e, he, rfl⟩ := List.mem_map.mp hb
      rw [List.mem_insertionSort] at he
      exact hplain content entries (Results.mapError_ok hentries) e he
  · cases h
    simp

/-- The links that a directory gets have file names. -/
def PlainLinks (binEntries : BinEntries) (t : Tree) (dir : Text) : Prop :=
  ∀ links, binLinks binEntries t dir = .ok links → ∀ b ∈ links, (Component.normal b.1).Plain

theorem PlainBins.links (hplain : PlainBins binEntries) : PlainLinks binEntries t dir := by
  intro links h
  obtain ⟨packageDirs, -, h⟩ := Results.bind_ok h
  obtain ⟨bins, hbins, h⟩ := Results.bind_ok h
  cases h
  intro b hb
  have hmem := List.mem_of_find?_eq_some (mem_collectBins_iff.mp hb)
  obtain ⟨list, hlist, hb⟩ := List.mem_flatten.mp hmem
  obtain ⟨packageDir, -, hpackage⟩ := Results.exists_of_mem_mapM hbins hlist
  exact packageBins_plain hplain hpackage b hb

theorem leadsTo_child {name : Text} (hdir : LeadsTo dir d) (hname : (Component.normal name).Plain) :
    LeadsTo (join dir name) (d ++ [name]) :=
  hdir.join (isAbsolute_text hname) (body_text hname)

theorem fileType_of_dir {path : Text} {name : Text} (hpath : LeadsTo path (d ++ [name]))
    (hd : t.get d = some .dir) :
    fileType t path = match t.get (d ++ [name]) with
      | some node => .ok node
      | none => .error .notFound := by
  unfold fileType symlinkMetadata
  rw [hpath, entry_of_dir name hd]
  rfl

theorem dir_of_fileType {path : Text} {name : Text} (hpath : LeadsTo path (d ++ [name]))
    (hd : t.get d = some .dir) (h : ((fileType t path).toOption == some .dir) = true) :
    t.get (d ++ [name]) = some .dir := by
  rw [beq_iff_eq] at h
  have htype := Results.toOption_eq_some h
  rw [fileType_of_dir hpath hd] at htype
  split at htype
  · rename_i node hnode
    cases htype
    exact hnode
  · cases htype

/-- The link of one bin is made, or its place is taken. -/
theorem createBinLink_ok {bin : Text × Text} (hdir : LeadsTo dir d) (hd : t.get d = some .dir)
    (hname : (Component.normal bin.1).Plain) (h : createBinLink dir t bin = .ok t') :
    t.create d bin.1 (.link bin.2) = .ok t' ∨ t' = t ∧ t.get (d ++ [bin.1]) ≠ none := by
  have hpath := leadsTo_child hdir hname
  unfold createBinLink symlink at h
  simp only at h
  rw [hpath, makeNode_of_dir bin.1 _ hd] at h
  split at h
  · rename_i s hs
    cases h
    exact Or.inl hs
  · rename_i herror
    cases h
    refine Or.inr ⟨rfl, fun hfree => ?_⟩
    rw [Tree.create, dif_pos hd, dif_pos hfree] at herror
    cases herror
  · cases h

theorem leadsTo_binDir (hdir : LeadsTo dir d) :
    LeadsTo (join dir ".bin".toList) (d ++ [binName]) :=
  hdir.join (by decide) (by decide)

/-- The bin links of one directory: the old `.bin` is removed when it can be found, and
a new one is made when there are bins. -/
theorem createBinLinksForNodeModules_cases (hdir : LeadsTo dir d) (hclear : Clear t d)
    (h : createBinLinksForNodeModules binEntries t dir = .ok t') :
    ∃ links s, binLinks binEntries t dir = .ok links ∧ t.get d = some .dir ∧
      (s = t.remove (d ++ [binName]) ∨ s = t ∧ pathExists t (pathOf (d ++ [binName])) = false) ∧
      (links = [] ∧ t' = s ∨ links ≠ [] ∧ ∃ s', s.create d binName .dir = .ok s' ∧
        links.foldlM (createBinLink (join dir ".bin".toList)) s' = .ok t') := by
  rw [createBinLinksForNodeModules_eq] at h
  obtain ⟨links, hlinks, h⟩ := Results.bind_ok h
  have hd : t.get d = some .dir := by
    obtain ⟨packageDirs, hpackages, -⟩ := Results.bind_ok hlinks
    obtain ⟨names, hnames, -⟩ := Results.bind_ok hpackages
    obtain ⟨listed, hlisted, -⟩ := Results.bind_ok hnames
    rw [hdir] at hlisted
    exact (readDir_of_clear hclear (Results.mapError_ok hlisted)).1
  have hbin := leadsTo_binDir hdir
  have hremove : ∀ s, (removeDirAll t (components (join dir ".bin".toList))).mapError
      (CreateBinsError.removeBinDir (join dir ".bin".toList)) = .ok s →
        s = t.remove (d ++ [binName]) := by
    intro s hs
    obtain ⟨q, hq, -, rfl⟩ := removeDirAll_ok (Results.mapError_ok hs)
    rw [hbin, entry_of_dir binName hd] at hq
    cases hq
    rfl
  have hmissing : ¬ pathExists t (components (join dir ".bin".toList)) = true →
      pathExists t (pathOf (d ++ [binName])) = false := by
    intro hnot
    rw [hbin, Bool.not_eq_true] at hnot
    exact hnot
  cases links with
  | nil =>
      simp only at h
      split at h
      · obtain ⟨s, hs, h⟩ := Results.bind_ok h
        cases h
        exact ⟨_, _, hlinks, hd, Or.inl (hremove _ hs), Or.inl ⟨rfl, rfl⟩⟩
      · rename_i hnot
        cases h
        exact ⟨_, _, hlinks, hd, Or.inr ⟨rfl, hmissing hnot⟩, Or.inl ⟨rfl, rfl⟩⟩
  | cons first rest =>
      obtain ⟨s, hs, hmk⟩ : ∃ s, (s = t.remove (d ++ [binName]) ∨
          s = t ∧ pathExists t (pathOf (d ++ [binName])) = false) ∧
          ((createDirAll s (components (join dir ".bin".toList))).mapError
            (CreateBinsError.createBinDir (join dir ".bin".toList)) >>= fun s =>
              (first :: rest).foldlM (createBinLink (join dir ".bin".toList)) s) = .ok t' := by
        simp only at h
        split at h
        · obtain ⟨s, hs, h⟩ := Results.bind_ok h
          exact ⟨s, Or.inl (hremove s hs), h⟩
        · rename_i hnot
          exact ⟨t, Or.inr ⟨rfl, hmissing hnot⟩, h⟩
      obtain ⟨s', hs', hfold⟩ := Results.bind_ok hmk
      have hmade := Results.mapError_ok hs'
      rw [hbin] at hmade
      have hsd : s.get d = some .dir := by
        rcases hs with rfl | ⟨rfl, -⟩
        · rw [Tree.get_remove t (by simp), if_neg (not_concat_above d binName), hd]
        · exact hd
      have hfree : pathExists s (pathOf (d ++ [binName])) = false := by
        rcases hs with rfl | ⟨rfl, hfree⟩
        · rw [← Bool.not_eq_true]
          intro hexists
          apply get_ne_none_of_pathExists (clear_of_dir hsd) hexists
          rw [Tree.get_remove t (by simp), if_pos List.prefix_rfl]
        · exact hfree
      exact ⟨_, s, hlinks, hd, hs, Or.inr ⟨by simp, s', create_of_createDirAll hsd hfree hmade,
        hfold⟩⟩

/-- The links of the bins change nothing outside the `.bin` directory. -/
theorem createBinLinks_same (hdir : LeadsTo dir d) {bins : List (Text × Text)}
    (hplain : ∀ b ∈ bins, (Component.normal b.1).Plain) (hd : t.get d = some .dir)
    (h : bins.foldlM (createBinLink dir) t = .ok t') :
    t'.get d = some .dir ∧ SameOutside (fun q => d <+: q ∧ q ≠ d) t t' := by
  refine Results.foldlM_invariant (fun s => s.get d = some .dir ∧
    SameOutside (fun q => d <+: q ∧ q ≠ d) t s) h ⟨hd, .refl t⟩ ?_
  rintro b hb s s' ⟨hs, hsame⟩ hlink
  rcases createBinLink_ok hdir hs (hplain b hb) hlink with hmade | ⟨rfl, -⟩
  · have hstep : SameOutside (fun q => d <+: q ∧ q ≠ d) s s' :=
      .of_create hmade ⟨List.prefix_append _ _, by simp⟩
    exact ⟨(hstep d fun hq => hq.2 rfl).trans hs, hsame.trans hstep⟩
  · exact ⟨hs, hsame⟩

/-- Only the `.bin` directory of a `node_modules` directory is made anew. -/
theorem createBinLinksForNodeModules_same (hplain : PlainLinks binEntries t dir)
    (hdir : LeadsTo dir d) (hclear : Clear t d)
    (h : createBinLinksForNodeModules binEntries t dir = .ok t') :
    SameOutside (d ++ [binName] <+: ·) t t' := by
  obtain ⟨links, s, hlinks, hd, hs, hmake⟩ := createBinLinksForNodeModules_cases hdir hclear h
  have hfirst : SameOutside (d ++ [binName] <+: ·) t s := by
    rcases hs with rfl | ⟨rfl, -⟩
    · exact .of_remove (by simp) fun _ hq => hq
    · exact .refl s
  rcases hmake with ⟨-, rfl⟩ | ⟨-, s', hmade, hfold⟩
  · exact hfirst
  · have hbindir : s'.get (d ++ [binName]) = some .dir := by
      obtain ⟨-, -, hget⟩ := Tree.create_ok hmade
      rw [hget, if_pos rfl]
    have hlast := (createBinLinks_same (leadsTo_binDir hdir) (hplain links hlinks) hbindir hfold).2
    exact (hfirst.trans (.of_create hmade List.prefix_rfl)).trans (hlast.mono fun q hq => hq.1)

end Bins

section Project

/-- The `.bin` directories of a project. -/
def BinZone (v m q : Loc) : Prop := ∃ d, NodeModulesDir v m d ∧ d ++ [binName] <+: q

variable {v m : Loc} {binEntries : BinEntries} {t t' : Tree} {modulesDir virtualStoreDir : Text}

/-- No way to a package name passes a `.bin` directory. -/
theorem Apart.not_binZone_onWay (h : Apart v m) {d q : Loc} (hd : NodeModulesDir v m d)
    (hq : OnWay d q) : ¬ BinZone v m q := by
  rintro ⟨b, hb, hbin⟩
  have hway : OnWay d (b ++ [binName]) := hq.of_above hbin
  cases hb with
  | modules =>
      have hplace : PackagePlace v m (m ++ PkgName.loc ⟨none, binName⟩) :=
        .direct ⟨⟨'.', _, rfl, by decide⟩, by decide⟩ fun rest hv =>
          (h.hidden _ rest hv).2 rfl
      exact h.not_onWay hplace hd hway
  | store storeName =>
      have hplace : PackagePlace v m (storeLoc v storeName ++ PkgName.loc ⟨none, binName⟩) :=
        .entry storeName ⟨⟨'.', _, rfl, by decide⟩, by decide⟩
      exact h.not_onWay hplace hd hway

/-- What stands below a place outside the zone is in it as a `.bin` directory only. -/
theorem binZone_concat {q : Loc} {name : Text} (hq : ¬ BinZone v m q)
    (h : BinZone v m (q ++ [name])) : NodeModulesDir v m q ∧ name = binName := by
  obtain ⟨b, hb, hbin⟩ := h
  rcases List.prefix_concat_iff.mp hbin with heq | hp
  · obtain ⟨rfl, hname⟩ := List.append_inj' heq rfl
    exact ⟨hb, (List.cons.inj hname).1.symm⟩
  · exact absurd ⟨b, hb, hp⟩ hq

/-- The directory of a scope is not a `node_modules` directory. -/
theorem Apart.scope_not_nodeModules (h : Apart v m) {d : Loc} {scope : Text}
    (hd : NodeModulesDir v m d) (hscope : scope.head? = some '@') :
    ¬ NodeModulesDir v m (d ++ [scope]) := by
  intro hnested
  generalize hq : d ++ [scope] = q at hnested
  cases hnested with
  | modules =>
      cases hd with
      | modules => simp at hq
      | store storeName =>
          rw [← hq] at h
          exact h.outside ((prefix_storeLoc v storeName).trans (List.prefix_append _ _))
  | store storeName =>
      have hlast : d ++ [scope] = v ++ [storeName] ++ [nodeModulesName] := by
        rw [hq, storeLoc, List.append_assoc]
        rfl
      obtain ⟨-, hname⟩ := List.append_inj' hlast rfl
      rw [(List.cons.inj hname).1] at hscope
      exact absurd hscope (by decide)

/-- No visible name stands in a `.bin` directory. -/
theorem Apart.not_binZone_loc (h : Apart v m) {d : Loc} (hd : NodeModulesDir v m d)
    {name : PkgName} (hname : name.Visible) : ¬ BinZone v m (d ++ name.loc) := by
  intro hzone
  obtain ⟨scope, bare⟩ := name
  cases scope with
  | none =>
      obtain ⟨-, rfl⟩ := binZone_concat (h.not_binZone_onWay hd (Or.inl List.prefix_rfl)) hzone
      exact hname.visible rfl
  | some scope =>
      have hloc : d ++ PkgName.loc ⟨some scope, bare⟩ = d ++ ['@' :: scope] ++ [bare] := by
        simp [PkgName.loc]
      rw [hloc] at hzone
      have hway := h.not_binZone_onWay hd (Or.inr ⟨'@' :: scope, rfl, rfl⟩)
      exact h.scope_not_nodeModules hd rfl (binZone_concat hway hzone).1

theorem Apart.not_binZone (h : Apart v m) {name : PkgName} (hname : name.Visible) :
    ¬ BinZone v m (m ++ name.loc) := h.not_binZone_loc .modules hname

theorem ProjectClear.of_same (happart : Apart v m) (hclear : ProjectClear v m t)
    (hsame : SameOutside (BinZone v m) t t') : ProjectClear v m t' := by
  intro d hd
  constructor
  · intro q hq target
    rw [hsame q (happart.not_binZone_onWay hd (Or.inl hq))]
    exact (hclear d hd).clear q hq target
  · intro name target hname
    rw [hsame _ (happart.not_binZone_onWay hd (Or.inr ⟨name, hname, rfl⟩))]
    exact (hclear d hd).scopes name target hname

/-- What stands in a directory has file names. -/
def PlainChildren (t : Tree) (d : Loc) : Prop :=
  ∀ name, t.get (d ++ [name]) ≠ none → (Component.normal name).Plain

theorem plainChildren_of_plainNames (h : t.PlainNames) (d : Loc) : PlainChildren t d := by
  intro name hname
  obtain ⟨node, hnode⟩ := Option.ne_none_iff_exists'.mp hname
  exact h _ node hnode name (by simp)

theorem PlainChildren.of_same (happart : Apart v m) (h : PlainChildren t v)
    (hsame : SameOutside (BinZone v m) t t') : PlainChildren t' v := by
  intro name hname
  have hway : OnWay (storeLoc v name) (v ++ [name]) :=
    Or.inl ⟨[nodeModulesName], by simp [storeLoc]⟩
  rw [hsame _ (happart.not_binZone_onWay (.store name) hway)] at hname
  exact h name hname

theorem ProjectClear.virtualStore (h : ProjectClear v m t) : Clear t v :=
  (h _ (.store [])).clear.of_above (prefix_storeLoc v [])

/-- The directories of the virtual store whose bins are made are those of store names. -/
theorem storeDir_of_mem {dirs : List Text} (hnames : PlainChildren t v)
    (hv : LeadsTo virtualStoreDir v) (hclear : Clear t v)
    (h : collectVirtualStoreNodeModulesDirs t virtualStoreDir = .ok dirs) :
    ∀ dir ∈ dirs, ∃ storeName, LeadsTo dir (storeLoc v storeName) ∧
      dir = join (join virtualStoreDir storeName) "node_modules".toList ∧
      t.get (v ++ [storeName]) = some .dir := by
  obtain ⟨names, hlisted, h⟩ := Results.bind_ok h
  obtain ⟨listed, hread, hsorted⟩ := Results.bind_ok hlisted
  cases hsorted
  cases h
  intro dir hdir
  obtain ⟨name, hname, rfl⟩ := List.mem_map.mp (List.mem_filter.mp hdir).1
  obtain ⟨hmem, htype⟩ := List.mem_filter.mp hname
  rw [List.mem_insertionSort] at hmem
  have hread := Results.mapError_ok hread
  rw [hv] at hread
  obtain ⟨hd, rfl⟩ := readDir_of_clear hclear hread
  have hplain := hnames name (Tree.mem_children.mp hmem)
  exact ⟨name, leadsTo_nodeModulesOf hv hplain, rfl,
    dir_of_fileType (leadsTo_child hv hplain) hd htype⟩

/-- Making the bins of a project anew changes the `.bin` directories and nothing else. -/
theorem CreateBins.run_same (hplain : PlainBins binEntries) (happart : Apart v m)
    (hnames : PlainChildren t v) (hclear : ProjectClear v m t) (hm : LeadsTo modulesDir m)
    (hv : LeadsTo virtualStoreDir v)
    (h : CreateBins.run binEntries modulesDir virtualStoreDir t = .ok t') :
    SameOutside (BinZone v m) t t' := by
  obtain ⟨s, hfirst, hrest⟩ : ∃ s, SameOutside (BinZone v m) t s ∧
      (if pathExists s (components virtualStoreDir) then
        collectVirtualStoreNodeModulesDirs s virtualStoreDir >>= fun dirs =>
          dirs.foldlM (createBinLinksForNodeModules binEntries) s
      else .ok s) = .ok t' := by
    unfold CreateBins.run at h
    simp only at h
    split at h
    · obtain ⟨s, hs, h⟩ := Results.bind_ok h
      have hsame := createBinLinksForNodeModules_same hplain.links hm (hclear m .modules).clear hs
      exact ⟨s, hsame.mono fun q hq => ⟨m, .modules, hq⟩, h⟩
    · exact ⟨t, .refl t, h⟩
  split at hrest
  · obtain ⟨dirs, hdirs, hfold⟩ := Results.bind_ok hrest
    have hclears := hclear.of_same happart hfirst
    have hchildren := hnames.of_same happart hfirst
    apply Results.foldlM_invariant (SameOutside (BinZone v m) t) hfold hfirst
    intro dir hdir r r' hr hbins
    obtain ⟨storeName, hplace, -⟩ :=
      storeDir_of_mem hchildren hv hclears.virtualStore hdirs dir hdir
    have hclear' := hclear.of_same happart hr _ (.store storeName)
    have hsame := createBinLinksForNodeModules_same hplain.links hplace hclear'.clear hbins
    exact hr.trans (hsame.mono fun q hq => ⟨_, .store storeName, hq⟩)
  · cases hrest
    exact hfirst

end Project

end Npnpm
