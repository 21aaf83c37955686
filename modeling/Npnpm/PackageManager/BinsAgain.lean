import Npnpm.PackageManager.BinSources

/-!
# Making the bins again

A round over one `node_modules` directory gives its `.bin` directory exactly the links that
it is to have, whatever stood there. What the links depend on is not changed, so making the
bins again gives the same links.
-/

namespace Npnpm

open Npnpm.Path Npnpm.FileTree

/-- What is no link is found under its own path. -/
theorem canonicalize_of_noLink {t : Tree} {q : Loc} {node : Node} (hnode : t.get q = some node)
    (hlink : ∀ target, node ≠ .link target) : canonicalize t (pathOf q) = .ok q := by
  cases node with
  | dir => exact canonicalize_of_dir hnode
  | file content => exact canonicalize_of_file hnode
  | link target => exact absurd rfl (hlink target)

section Links

variable {t t' : Tree} {d : Loc} {dir : Text} {binEntries : BinEntries}

/-- What a `.bin` directory with the links holds, or nothing without links. -/
def binNode (links : List (Text × Text)) : Loc → Option Node
  | [] => if links = [] then none else some .dir
  | [name] => (links.find? fun b => b.1 == name).map fun b => .link b.2
  | _ :: _ :: _ => none

/-- The links are made where nothing stands yet. -/
theorem createBinLinks_get {links : List (Text × Text)} (hdir : LeadsTo dir d)
    (hplain : ∀ b ∈ links, (Component.normal b.1).Plain)
    (hdistinct : links.Pairwise fun a b => a.1 ≠ b.1) (hd : t.get d = some .dir)
    (hfree : ∀ b ∈ links, t.get (d ++ [b.1]) = none)
    (h : links.foldlM (createBinLink dir) t = .ok t') :
    (∀ b ∈ links, t'.get (d ++ [b.1]) = some (.link b.2)) ∧
      ∀ q, (∀ b ∈ links, q ≠ d ++ [b.1]) → t'.get q = t.get q := by
  induction links generalizing t with
  | nil =>
      cases h
      exact ⟨by simp, fun _ _ => rfl⟩
  | cons b rest ih =>
      obtain ⟨s, hs, hrest⟩ := Results.bind_ok h
      obtain ⟨hne, hdistinct⟩ := List.pairwise_cons.mp hdistinct
      have hget : ∀ q, s.get q = if q = d ++ [b.1] then some (.link b.2) else t.get q := by
        rcases createBinLink_ok hdir hd (hplain b List.mem_cons_self) hs with hmade | ⟨-, htaken⟩
        · exact (Tree.create_ok hmade).2.2
        · exact absurd (hfree b List.mem_cons_self) htaken
      have hother : ∀ b' ∈ rest, d ++ [b'.1] ≠ d ++ [b.1] := by
        intro b' hb' heq
        have hnames := List.append_cancel_left heq
        exact hne b' hb' (List.cons.inj hnames).1.symm
      obtain ⟨hmade, hkept⟩ := ih (fun b' hb' => hplain b' (List.mem_cons_of_mem _ hb')) hdistinct
        (by rw [hget, if_neg (by simp), hd])
        (fun b' hb' => by
          rw [hget, if_neg (hother b' hb'), hfree b' (List.mem_cons_of_mem _ hb')]) hrest
      refine ⟨fun b' hb' => ?_, fun q hq => ?_⟩
      · rcases List.mem_cons.mp hb' with rfl | hb'
        · rw [hkept _ fun other hother' => (hother other hother').symm, hget, if_pos rfl]
        · exact hmade b' hb'
      · rw [hkept q fun b' hb' => hq b' (List.mem_cons_of_mem _ hb'), hget,
          if_neg (hq b List.mem_cons_self)]

theorem binLinks_distinct {links : List (Text × Text)} (h : binLinks binEntries t dir = .ok links) :
    links.Pairwise fun a b => a.1 ≠ b.1 := by
  obtain ⟨packages, -, rfl⟩ := binLinks_ok h
  exact collectBins_distinct _

theorem createBinLink_total {bin : Text × Text} (hdir : LeadsTo dir d)
    (hplain : (Component.normal bin.1).Plain) (hd : t.get d = some .dir) :
    ∃ s, createBinLink dir t bin = .ok s ∧ s.get d = some .dir := by
  unfold createBinLink symlink
  simp only
  rw [leadsTo_child hdir hplain, makeNode_of_dir bin.1 _ hd]
  by_cases hfree : t.get (d ++ [bin.1]) = none
  · rw [Tree.create, dif_pos hd, dif_pos hfree]
    refine ⟨_, rfl, ?_⟩
    rw [Tree.get_put, if_neg (by simp), hd]
  · rw [Tree.create, dif_pos hd, dif_neg hfree]
    exact ⟨t, rfl, hd⟩

/-- The `.bin` directory holds the links of the bins. -/
theorem createBinLinksForNodeModules_get (hplain : PlainLinks binEntries t dir)
    (hdir : LeadsTo dir d) (hclear : Clear t d)
    (hbin : ∀ target, t.get (d ++ [binName]) ≠ some (.link target))
    (h : createBinLinksForNodeModules binEntries t dir = .ok t') :
    ∃ links, binLinks binEntries t dir = .ok links ∧
      ∀ rest, t'.get (d ++ binName :: rest) = binNode links rest := by
  obtain ⟨links, s, hlinks, hd, hs, hmade⟩ := createBinLinksForNodeModules_cases hdir hclear h
  have hcons : ∀ rest, d ++ binName :: rest = d ++ [binName] ++ rest := by simp
  refine ⟨_, hlinks, fun rest => ?_⟩
  have hempty : ∀ rest, s.get (d ++ [binName] ++ rest) = none := by
    intro rest
    rcases hs with rfl | ⟨rfl, hmissing⟩
    · rw [Tree.get_remove t (by simp), if_pos (List.prefix_append _ _)]
    · refine Tree.get_eq_none_of_above ?_ (List.prefix_append _ rest)
      cases hnode : s.get (d ++ [binName]) with
      | none => rfl
      | some node =>
          have hcan : canonicalize s (pathOf (d ++ [binName])) = .ok (d ++ [binName]) :=
            canonicalize_of_noLink hnode fun target hlink => hbin target (hlink ▸ hnode)
          rw [pathExists, hcan] at hmissing
          cases hmissing
  rw [hcons]
  rcases hmade with ⟨rfl, rfl⟩ | ⟨hne, s', hcreate, hfold⟩
  · rw [hempty]
    cases rest with
    | nil => rfl
    | cons name rest => cases rest <;> rfl
  · obtain ⟨-, -, hget⟩ := Tree.create_ok hcreate
    have hbelow : ∀ x rest, s'.get (d ++ [binName] ++ x :: rest) = none := by
      intro x rest
      rw [hget, if_neg (by simp), hempty]
    obtain ⟨hnew, hkept⟩ := createBinLinks_get (leadsTo_binDir hdir) (hplain links hlinks)
      (binLinks_distinct hlinks) (by rw [hget, if_pos rfl]) (fun b _ => hbelow b.1 []) hfold
    cases rest with
    | nil =>
        rw [hkept _ fun b _ => by simp, hget, if_pos (by simp), binNode, if_neg hne]
    | cons name rest =>
        cases rest with
        | nil =>
            cases hfind : links.find? fun b => b.1 == name with
            | none =>
                rw [hkept, hbelow, binNode, hfind]
                · rfl
                · rintro b hb heq
                  have hname := List.append_cancel_left heq
                  have hnot := List.find?_eq_none.mp hfind b hb
                  simp [(List.cons.inj hname).1] at hnot
            | some b =>
                have hname : b.1 = name := by simpa using List.find?_some hfind
                rw [binNode, hfind, ← hname, hnew b (List.mem_of_find?_eq_some hfind)]
                rfl
        | cons y rest =>
            rw [hkept _ fun b _ => by simp, hbelow]
            rfl

/-- The bins of a directory can be made when they can be listed. -/
theorem exists_createBinLinks (hplain : PlainLinks binEntries t dir) (hdir : LeadsTo dir d)
    (hd : t.get d = some .dir) {links : List (Text × Text)}
    (hlinks : binLinks binEntries t dir = .ok links)
    (hbin : t.get (d ++ [binName]) = none ∨ t.get (d ++ [binName]) = some .dir) :
    ∃ t', createBinLinksForNodeModules binEntries t dir = .ok t' := by
  have hbinDir := leadsTo_binDir hdir
  have hmake : ∀ s : Tree, s.get d = some .dir → s.get (d ++ [binName]) = none →
      ∃ t', ((createDirAll s (pathOf (d ++ [binName]))).mapError
        (CreateBinsError.createBinDir (join dir ".bin".toList)) >>= fun r =>
          links.foldlM (createBinLink (join dir ".bin".toList)) r) = .ok t' := by
    intro s hsd hfree
    obtain ⟨s', hs'⟩ : ∃ s', createDirAll s (pathOf (d ++ [binName])) = .ok s' := by
      have hup : (pathOf (d ++ [binName])).reverse = .normal binName :: (pathOf d).reverse := by
        simp [pathOf]
      rw [createDirAll, hup, createDirAllUp, ← hup, List.reverse_reverse, mkdir,
        makeNode_of_dir binName _ hsd, Tree.create, dif_pos hsd, dif_pos hfree]
      exact ⟨_, rfl⟩
    have hd' := createDirAll_of_clear ((clear_of_dir hsd).concat_of_free hfree) hs'
    obtain ⟨t', ht', -⟩ := Results.exists_foldlM
      (fun r : Tree => r.get (d ++ [binName]) = some .dir) hd' fun b hb r hr =>
        createBinLink_total hbinDir (hplain links hlinks b hb) hr
    exact ⟨t', by rw [hs']; exact ht'⟩
  have hcomponents : components (join dir ".bin".toList) = pathOf (d ++ [binName]) := hbinDir
  rw [createBinLinksForNodeModules_eq, hlinks]
  simp only [bind, Except.bind, hcomponents]
  rcases hbin with hnone | hthere
  · have hmissing : ¬ pathExists t (pathOf (d ++ [binName])) = true :=
      fun hexists => get_ne_none_of_pathExists (clear_of_dir hd) hexists hnone
    rw [if_neg hmissing]
    cases links with
    | nil => exact ⟨t, rfl⟩
    | cons b rest => exact hmake t hd hnone
  · have hexists : pathExists t (pathOf (d ++ [binName])) = true := by
      rw [pathExists, canonicalize_of_dir hthere]
      rfl
    have hremove : removeDirAll t (pathOf (d ++ [binName])) =
        .ok (t.remove (d ++ [binName])) := by
      unfold removeDirAll
      rw [entry_of_dir binName hd]
      simp only [bind, Except.bind, hthere]
      exact if_neg (by simp)
    rw [if_pos hexists, hremove]
    cases links with
    | nil => exact ⟨_, rfl⟩
    | cons b rest =>
        apply hmake
        · rw [Tree.get_remove t (by simp), if_neg (not_concat_above d binName), hd]
        · rw [Tree.get_remove t (by simp), if_pos List.prefix_rfl]

/-- Where the bins could be made, `.bin` was a directory or missing. -/
theorem bin_of_createBinLinks (hdir : LeadsTo dir d) (hclear : Clear t d)
    (hbin : ∀ target, t.get (d ++ [binName]) ≠ some (.link target))
    (h : createBinLinksForNodeModules binEntries t dir = .ok t') :
    t.get (d ++ [binName]) = none ∨ t.get (d ++ [binName]) = some .dir := by
  obtain ⟨-, -, -, hd, -, -⟩ := createBinLinksForNodeModules_cases hdir hclear h
  cases hnode : t.get (d ++ [binName]) with
  | none => exact Or.inl rfl
  | some node =>
      cases node with
      | dir => exact Or.inr rfl
      | link target => exact absurd hnode (hbin target)
      | file content =>
          have hexists : pathExists t (components (join dir ".bin".toList)) = true := by
            rw [leadsTo_binDir hdir, pathExists, canonicalize_of_file hnode]
            rfl
          have hremove : removeDirAll t (components (join dir ".bin".toList)) =
              .error .notADirectory := by
            unfold removeDirAll
            rw [leadsTo_binDir hdir, entry_of_dir binName hd]
            simp only [bind, Except.bind, hnode]
          rw [createBinLinksForNodeModules_eq] at h
          obtain ⟨links, -, h⟩ := Results.bind_ok h
          simp only [if_pos hexists, hremove] at h
          cases h

end Links

section Run

variable {v m : Loc} {t t' s s' : Tree} {d : Loc} {dir : Text} {dirs : List Text}
  {binEntries : BinEntries} {modulesDir virtualStoreDir : Text}

/-- The `.bin` directories of two `node_modules` directories have nothing in common. -/
theorem Apart.bin_apart (h : Apart v m) {d d' : Loc} (hd : NodeModulesDir v m d)
    (hd' : NodeModulesDir v m d') (hne : d ≠ d') (rest : Loc) :
    ¬ d ++ [binName] <+: d' ++ binName :: rest := by
  have hnested : ∀ {a b : Loc}, NodeModulesDir v m a → NodeModulesDir v m b → a ≠ b →
      ¬ a ++ [binName] <+: b ++ [binName] := by
    intro a b ha hb hab hp
    rcases List.prefix_concat_iff.mp hp with heq | hp
    · exact hab (List.append_cancel_right heq)
    · exact h.not_binZone_above hb List.prefix_rfl ⟨a, ha, hp⟩
  intro hp
  have hcons : d' ++ binName :: rest = d' ++ [binName] ++ rest := by simp
  rw [hcons] at hp
  rcases List.prefix_or_prefix_of_prefix hp (List.prefix_append _ _) with hp | hp
  · exact hnested hd hd' hne hp
  · exact hnested hd' hd hne.symm hp

/-- The directories of the virtual store whose bins are made. -/
def storeBinDirs (virtualStoreDir : Text) (t : Tree) : Except CreateBinsError (List Text) :=
  if pathExists t (components virtualStoreDir) then
    collectVirtualStoreNodeModulesDirs t virtualStoreDir
  else .ok []

/-- The directories whose bins are made, in their order. -/
def binDirs (modulesDir virtualStoreDir : Text) (t : Tree) : Except CreateBinsError (List Text) :=
  (storeBinDirs virtualStoreDir t).map fun dirs =>
    (if pathExists t (components modulesDir) then [modulesDir] else []) ++ dirs

/-- A path to a `node_modules` directory that no link stands on the way to. -/
structure ScannedDir (v m : Loc) (t : Tree) (dir : Text) (d : Loc) : Prop where
  node : NodeModulesDir v m d
  leads : LeadsTo dir d
  clear : Clear t d

theorem Clear.of_same (happart : Apart v m) (hd : NodeModulesDir v m d) {q : Loc} (hq : q <+: d)
    (hclear : Clear t q) (hsame : SameOutside (BinZone v m) t s) : Clear s q := by
  intro r hr target
  rw [hsame r (happart.not_binZone_above hd (hr.trans hq))]
  exact hclear r hr target

variable (h : PackageTree v m t) (happart : Apart v m) (hsame : SameOutside (BinZone v m) t t')
  (hv : LeadsTo virtualStoreDir v) (hm : LeadsTo modulesDir m)

theorem PackageTree.binFree_virtualStore (h : PackageTree v m t) (happart : Apart v m) :
    BinFree v m t v :=
  binFree_of_clear happart (.store []) (prefix_storeLoc v []) h.store

include h hsame in
theorem PackageTree.pathExists_same {q : Loc} (hq : BinFree v m t q) :
    pathExists t' (pathOf q) = pathExists t (pathOf q) := by
  exact FileTree.pathExists_same hsame h.linksStayOut not_binZone_nil hq.staysOut_self

/-- A directory of the virtual store is reached without a link. -/
theorem PackageTree.clear_storeLoc (h : PackageTree v m t) {name : Text}
    (hname : t.get (v ++ [name]) = some .dir) : Clear t (storeLoc v name) := by
  have hloc : storeLoc v name = v ++ [name] ++ [nodeModulesName] := by simp [storeLoc]
  intro r hr target
  rw [hloc] at hr
  rcases List.prefix_concat_iff.mp hr with rfl | hr
  · rw [← hloc]
    exact h.stores name target
  · exact clear_of_dir hname r hr target

include h happart hsame hv in
/-- A virtual store that is no directory cannot be listed, whatever the bins are. -/
theorem PackageTree.sortedEntries_store_same (hd : t.get v ≠ some .dir) :
    sortedEntries t' virtualStoreDir = sortedEntries t virtualStoreDir := by
  have hget := hsame v (happart.not_binZone_above (.store []) (prefix_storeLoc v []))
  have hout := (h.binFree_virtualStore happart).staysOut_self
  obtain ⟨heq, -⟩ := canonicalize_same hsame h.linksStayOut not_binZone_nil hout
  unfold sortedEntries readDir
  rw [hv, heq]
  cases hcan : canonicalize t (pathOf v) with
  | error e => rfl
  | ok r =>
      obtain ⟨r', hr', hr⟩ := Results.bind_ok hcan
      obtain rfl := locate_of_clear h.store hr'
      split at hr
      · cases hr
      · cases hr
        simp only [bind, Except.bind, hget, if_neg hd]

include h happart hsame hv in
theorem PackageTree.collect_same :
    collectVirtualStoreNodeModulesDirs t' virtualStoreDir =
      collectVirtualStoreNodeModulesDirs t virtualStoreDir := by
  have hget := hsame v (happart.not_binZone_above (.store []) (prefix_storeLoc v []))
  have hchild : ∀ name, t'.get (v ++ [name]) = t.get (v ++ [name]) := by
    intro name
    apply hsame
    apply happart.not_binZone_above (.store name)
    exact ⟨[nodeModulesName], by simp [storeLoc]⟩
  by_cases hd : t.get v = some .dir
  · obtain ⟨names, names', hnames, hnames', heq, htaken, -⟩ :=
      sortedEntries_same (fun _ => true) hv hd (hget.trans hd) fun x _ => by rw [hchild]
    rw [List.filter_true, List.filter_true] at heq
    have hplain : ∀ name ∈ names, (Component.normal name).Plain := fun name hname =>
      plainChildren_of_plainNames h.names v name (htaken name hname)
    unfold collectVirtualStoreNodeModulesDirs
    rw [hnames', hnames, heq]
    simp only [bind, Except.bind]
    have hdirs : (names.filter fun name =>
        (fileType t' (join virtualStoreDir name)).toOption == some .dir) =
          names.filter fun name =>
            (fileType t (join virtualStoreDir name)).toOption == some .dir := by
      refine List.filter_congr fun name hname => ?_
      rw [fileType_same (leadsTo_child hv (hplain name hname)) hd (hget.trans hd) (hchild name)]
    rw [hdirs]
    congr 1
    refine List.filter_congr fun dir hdir => ?_
    obtain ⟨name, hname, rfl⟩ := List.mem_map.mp hdir
    obtain ⟨hmem, htype⟩ := List.mem_filter.mp hname
    have hplace : LeadsTo (join (join virtualStoreDir name) "node_modules".toList)
        (storeLoc v name) :=
      leadsTo_nodeModulesOf hv (hplain name hmem)
    have hentry := dir_of_fileType (leadsTo_child hv (hplain name hmem)) hd htype
    rw [hplace, h.pathExists_same hsame
      (binFree_of_clear happart (.store name) List.prefix_rfl (h.clear_storeLoc hentry))]
  · unfold collectVirtualStoreNodeModulesDirs
    rw [h.sortedEntries_store_same happart hsame hv hd]
    cases hrun : sortedEntries t virtualStoreDir with
    | error e => rfl
    | ok names =>
        obtain ⟨listed, hread, -⟩ := Results.bind_ok hrun
        have hread := Results.mapError_ok hread
        rw [hv] at hread
        exact absurd (readDir_of_clear h.store hread).1 hd

include h happart hsame hv in
theorem PackageTree.storeBinDirs_same :
    storeBinDirs virtualStoreDir t' = storeBinDirs virtualStoreDir t := by
  unfold storeBinDirs
  rw [h.collect_same happart hsame hv, hv,
    h.pathExists_same hsame (h.binFree_virtualStore happart)]

include h hv in
theorem PackageTree.storeBinDirs_scanned {stores : List Text}
    (hstores : storeBinDirs virtualStoreDir t = .ok stores) :
    ∀ dir ∈ stores, ∃ storeName, ScannedDir v m t dir (storeLoc v storeName) ∧
      dir = join (join virtualStoreDir storeName) "node_modules".toList := by
  unfold storeBinDirs at hstores
  split at hstores
  · have hchildren := plainChildren_of_plainNames h.names v
    intro dir hdir
    obtain ⟨storeName, hplace, hdir', hentry⟩ :=
      storeDir_of_mem hchildren hv h.store hstores dir hdir
    exact ⟨storeName, ⟨.store storeName, hplace, h.clear_storeLoc hentry⟩, hdir'⟩
  · cases hstores
    exact fun _ hdir => absurd hdir List.not_mem_nil

include h hv hm in
/-- The directories whose bins are made are scanned, each under one path. -/
theorem PackageTree.binDirs_scanned (happart : Apart v m)
    (hdirs : binDirs modulesDir virtualStoreDir t = .ok dirs) :
    (∀ dir ∈ dirs, ∃ d, ScannedDir v m t dir d) ∧
      ∀ dir ∈ dirs, ∀ dir' ∈ dirs, ∀ d, LeadsTo dir d → LeadsTo dir' d → dir = dir' := by
  obtain ⟨stores, hstores, rfl⟩ := Results.map_ok hdirs
  have hscanned := h.storeBinDirs_scanned (m := m) hv hstores
  have hmodules : ∀ dir ∈ (if pathExists t (components modulesDir) then [modulesDir] else []),
      dir = modulesDir := by
    intro dir hdir
    split at hdir
    · exact List.mem_singleton.mp hdir
    · cases hdir
  -- the modules directory is not in the virtual store
  have hother : ∀ dir ∈ stores, ¬ LeadsTo dir m := by
    intro dir hdir hplace
    obtain ⟨storeName, hdir', -⟩ := hscanned dir hdir
    rw [hplace.unique hdir'.leads] at happart
    exact happart.outside (prefix_storeLoc v storeName)
  constructor
  · intro dir hdir
    rcases List.mem_append.mp hdir with hdir | hdir
    · rw [hmodules dir hdir]
      exact ⟨m, .modules, hm, h.modules⟩
    · obtain ⟨storeName, hdir', -⟩ := hscanned dir hdir
      exact ⟨_, hdir'⟩
  · intro dir hdir dir' hdir' d hplace hplace'
    rcases List.mem_append.mp hdir with hfirst | hstore
    · obtain rfl := hmodules dir hfirst
      obtain rfl := hm.unique hplace
      rcases List.mem_append.mp hdir' with hfirst' | hstore'
      · exact (hmodules dir' hfirst').symm
      · exact absurd hplace' (hother dir' hstore')
    · obtain ⟨storeName, hscan, rfl⟩ := hscanned dir hstore
      rcases List.mem_append.mp hdir' with hfirst' | hstore'
      · obtain rfl := hmodules dir' hfirst'
        obtain rfl := hm.unique hplace'
        exact absurd hplace (hother _ hstore)
      · obtain ⟨storeName', hscan', rfl⟩ := hscanned dir' hstore'
        have hloc := (hscan.leads.unique hplace).trans (hplace'.unique hscan'.leads)
        have hnames := List.append_cancel_left hloc
        rw [(List.cons.inj hnames).1]

include h happart hv in
/-- The bins of the virtual store are made after those of the modules directory, which
does not change the directories. -/
theorem PackageTree.storeRun_eq (binEntries : BinEntries) (hs : SameOutside (BinZone v m) t s) :
    (if pathExists s (components virtualStoreDir) then do
      let dirs ← collectVirtualStoreNodeModulesDirs s virtualStoreDir
      dirs.foldlM (createBinLinksForNodeModules binEntries) s
    else .ok s) = (storeBinDirs virtualStoreDir t >>= fun dirs =>
      dirs.foldlM (createBinLinksForNodeModules binEntries) s) := by
  rw [← h.storeBinDirs_same happart hs hv, storeBinDirs]
  split
  · rfl
  · rfl

include h happart in
/-- The links of a directory keep their names. -/
theorem PackageTree.plainLinks_same (hs : SameOutside (BinZone v m) t s)
    (hdir : ScannedDir v m t dir d) (hplain : PlainLinks binEntries t dir) :
    PlainLinks binEntries s dir := by
  intro links hlinks
  have hd : t.get d = some .dir := by
    obtain ⟨packageDirs, hpackages, -⟩ := Results.bind_ok hlinks
    obtain ⟨names, hnames, -⟩ := Results.bind_ok hpackages
    obtain ⟨listed, hlisted, -⟩ := Results.bind_ok hnames
    have hread := Results.mapError_ok hlisted
    rw [hdir.leads] at hread
    have hclear := Clear.of_same happart hdir.node List.prefix_rfl hdir.clear hs
    rw [← hs d (happart.not_binZone_above hdir.node List.prefix_rfl)]
    exact (readDir_of_clear hclear hread).1
  rw [h.binLinks_same happart hs hdir.node hdir.leads hd] at hlinks
  exact hplain links hlinks

include h happart hv hm in
/-- A run makes the bins of these directories, one after the other. -/
theorem PackageTree.run_iff (hplain : PlainLinks binEntries t modulesDir)
    (hs : SameOutside (BinZone v m) t s) :
    CreateBins.run binEntries modulesDir virtualStoreDir s = .ok s' ↔
      ∃ dirs, binDirs modulesDir virtualStoreDir t = .ok dirs ∧
        dirs.foldlM (createBinLinksForNodeModules binEntries) s = .ok s' := by
  have hdirs : ∀ dirs, binDirs modulesDir virtualStoreDir t = .ok dirs ↔
      ∃ stores, storeBinDirs virtualStoreDir t = .ok stores ∧
        (if pathExists t (components modulesDir) then [modulesDir] else []) ++ stores = dirs :=
    fun dirs => Results.map_eq_ok_iff
  have hstores : ∀ s, (storeBinDirs virtualStoreDir t >>= fun dirs =>
      dirs.foldlM (createBinLinksForNodeModules binEntries) s) = .ok s' ↔
        ∃ stores, storeBinDirs virtualStoreDir t = .ok stores ∧
          stores.foldlM (createBinLinksForNodeModules binEntries) s = .ok s' :=
    fun s => Results.bind_eq_ok_iff
  have hmodules : ScannedDir v m t modulesDir m := ⟨.modules, hm, h.modules⟩
  have hexists : pathExists s (components modulesDir) = pathExists t (components modulesDir) := by
    rw [hm, h.pathExists_same hs (binFree_of_clear happart .modules List.prefix_rfl h.modules)]
  simp only [hdirs]
  unfold CreateBins.run
  simp only [hexists]
  by_cases hthere : pathExists t (components modulesDir) = true
  · simp only [if_pos hthere, List.singleton_append]
    cases hmade : createBinLinksForNodeModules binEntries s modulesDir with
    | error e =>
        constructor
        · rintro ⟨⟩
        · rintro ⟨dirs, ⟨stores, -, rfl⟩, hfold⟩
          rw [List.foldlM_cons, hmade] at hfold
          cases hfold
    | ok r =>
        have hfirst := createBinLinksForNodeModules_same
          (h.plainLinks_same happart hs hmodules hplain) hm
          (Clear.of_same happart .modules List.prefix_rfl h.modules hs) hmade
        have hr : SameOutside (BinZone v m) t r :=
          hs.trans (hfirst.mono fun q hq => ⟨m, .modules, hq⟩)
        have hrun := h.storeRun_eq happart hv binEntries hr
        simp only [bind, Except.bind] at hrun hstores ⊢
        rw [hrun, hstores r]
        constructor
        · rintro ⟨stores, hstores, hfold⟩
          refine ⟨_, ⟨stores, hstores, rfl⟩, ?_⟩
          rw [List.foldlM_cons, hmade]
          exact hfold
        · rintro ⟨dirs, ⟨stores, hstores, rfl⟩, hfold⟩
          rw [List.foldlM_cons, hmade] at hfold
          exact ⟨stores, hstores, hfold⟩
  · simp only [if_neg hthere, List.nil_append]
    have hrun := h.storeRun_eq happart hv binEntries hs
    simp only [bind, Except.bind] at hrun hstores ⊢
    rw [hrun, hstores s]
    constructor
    · rintro ⟨stores, hstores, hfold⟩
      exact ⟨stores, ⟨stores, hstores, rfl⟩, hfold⟩
    · rintro ⟨dirs, ⟨stores, hstores, rfl⟩, hfold⟩
      exact ⟨stores, hstores, hfold⟩

end Run

section Again

variable {v m : Loc} {t s s' r : Tree} {d : Loc} {dir : Text} {dirs : List Text}
  {binEntries : BinEntries} {modulesDir virtualStoreDir : Text}
  (h : PackageTree v m t) (happart : Apart v m)

/-- Where the bins are made no link stands at the place of a `.bin` directory. -/
structure BinsReady (v m : Loc) (t s : Tree) : Prop where
  same : SameOutside (BinZone v m) t s
  bins : ∀ d, NodeModulesDir v m d → ∀ target, s.get (d ++ [binName]) ≠ some (.link target)

theorem PackageTree.binsReady (h : PackageTree v m t) : BinsReady v m t t := ⟨.refl t, h.bins⟩

include h happart in
/-- One round gives the `.bin` directory of its directory the links that depend on what
is beside the `.bin` directories, and leaves the others alone. -/
theorem PackageTree.round (hs : BinsReady v m t s) (hdir : ScannedDir v m t dir d)
    (hplain : PlainLinks binEntries t dir)
    (hround : createBinLinksForNodeModules binEntries s dir = .ok s') :
    t.get d = some .dir ∧ BinsReady v m t s' ∧ ∃ links, binLinks binEntries t dir = .ok links ∧
      (∀ rest, s'.get (d ++ binName :: rest) = binNode links rest) ∧
      SameOutside (d ++ [binName] <+: ·) s s' := by
  have hclear := Clear.of_same happart hdir.node List.prefix_rfl hdir.clear hs.same
  have hplains := h.plainLinks_same happart hs.same hdir hplain
  obtain ⟨-, -, -, hsd, -, -⟩ := createBinLinksForNodeModules_cases hdir.leads hclear hround
  have htd : t.get d = some .dir := by
    rw [← hs.same d (happart.not_binZone_above hdir.node List.prefix_rfl), hsd]
  obtain ⟨links, hlinks, hmade⟩ :=
    createBinLinksForNodeModules_get hplains hdir.leads hclear (hs.bins d hdir.node) hround
  have hkept := createBinLinksForNodeModules_same hplains hdir.leads hclear hround
  rw [h.binLinks_same happart hs.same hdir.node hdir.leads htd] at hlinks
  refine ⟨htd, ⟨hs.same.trans (hkept.mono fun q hq => ⟨d, hdir.node, hq⟩),
    fun d' hd' target => ?_⟩, links, hlinks, hmade, hkept⟩
  by_cases heq : d = d'
  · rw [← heq, hmade [], binNode]
    split <;> simp
  · rw [hkept _ (happart.bin_apart hdir.node hd' heq [])]
    exact hs.bins d' hd' target

/-- The directories of a run: each is scanned under one path, and its links have file names. -/
structure Rounds (v m : Loc) (t : Tree) (binEntries : BinEntries) (dirs : List Text) : Prop where
  scanned : ∀ dir ∈ dirs, ∃ d, ScannedDir v m t dir d
  unique : ∀ dir ∈ dirs, ∀ dir' ∈ dirs, ∀ d, LeadsTo dir d → LeadsTo dir' d → dir = dir'
  plain : ∀ dir ∈ dirs, PlainLinks binEntries t dir

theorem Rounds.subset (hrounds : Rounds v m t binEntries dirs) (dirs' : List Text)
    (hsub : ∀ dir ∈ dirs', dir ∈ dirs) : Rounds v m t binEntries dirs' where
  scanned dir hdir := hrounds.scanned dir (hsub dir hdir)
  unique dir hdir dir' hdir' := hrounds.unique dir (hsub dir hdir) dir' (hsub dir' hdir')
  plain dir hdir := hrounds.plain dir (hsub dir hdir)

/-- What the rounds over the directories change. -/
def InBins (dirs : List Text) (q : Loc) : Prop :=
  ∃ dir ∈ dirs, ∃ d, LeadsTo dir d ∧ d ++ [binName] <+: q

include h happart in
/-- What is in no `.bin` directory of the list stays. -/
theorem PackageTree.rounds (hrounds : Rounds v m t binEntries dirs) (hs : BinsReady v m t s)
    (hfold : dirs.foldlM (createBinLinksForNodeModules binEntries) s = .ok s') :
    BinsReady v m t s' ∧ SameOutside (InBins dirs) s s' := by
  refine Results.foldlM_invariant (fun r => BinsReady v m t r ∧ SameOutside (InBins dirs) s r)
    hfold ⟨hs, .refl s⟩ ?_
  rintro dir hdir r r' ⟨hr, hsame⟩ hround
  obtain ⟨d, hscanned⟩ := hrounds.scanned dir hdir
  obtain ⟨-, hr', -, -, -, hkept⟩ :=
    h.round happart hr hscanned (hrounds.plain dir hdir) hround
  exact ⟨hr', hsame.trans (hkept.mono fun q hq => ⟨dir, hdir, d, hscanned.leads, hq⟩)⟩

include h happart in
/-- After a run the `.bin` directory of each directory of the list has its links. -/
theorem PackageTree.rounds_get (hrounds : Rounds v m t binEntries dirs)
    (hs : BinsReady v m t s)
    (hfold : dirs.foldlM (createBinLinksForNodeModules binEntries) s = .ok r)
    (hdir : dir ∈ dirs) (hplace : LeadsTo dir d) :
    ∃ links, binLinks binEntries t dir = .ok links ∧
      ∀ rest, r.get (d ++ binName :: rest) = binNode links rest := by
  induction dirs generalizing s with
  | nil => cases hdir
  | cons first others ih =>
      obtain ⟨x, hx, hrest⟩ := Results.bind_ok hfold
      have hothers := hrounds.subset others fun dir => List.mem_cons_of_mem _
      obtain ⟨d₀, hfirst⟩ := hrounds.scanned first List.mem_cons_self
      obtain ⟨-, hready, links, hlinks, hmade, -⟩ :=
        h.round happart hs hfirst (hrounds.plain first List.mem_cons_self) hx
      by_cases hagain : dir ∈ others
      · -- the last round counts
        exact ih hothers hready hrest hagain
      · obtain rfl : dir = first := (List.mem_cons.mp hdir).resolve_right hagain
        obtain rfl := hfirst.leads.unique hplace
        refine ⟨links, hlinks, fun rest => ?_⟩
        rw [(h.rounds happart hothers hready hrest).2 _ ?_, hmade]
        rintro ⟨dir', hdir', d', hplace', hp⟩
        obtain ⟨d'', hscanned⟩ := hothers.scanned dir' hdir'
        obtain rfl := hplace'.unique hscanned.leads
        refine happart.bin_apart hscanned.node hfirst.node ?_ rest hp
        rintro rfl
        have hsame := hrounds.unique dir' (List.mem_cons_of_mem _ hdir') dir
          List.mem_cons_self _ hplace' hplace
        exact hagain (hsame ▸ hdir')

include h happart in
/-- Before a run every `.bin` directory of the list is a directory or missing. -/
theorem PackageTree.rounds_bins (hrounds : Rounds v m t binEntries dirs) (hs : BinsReady v m t s)
    (hfold : dirs.foldlM (createBinLinksForNodeModules binEntries) s = .ok r)
    (hdir : dir ∈ dirs) (hplace : LeadsTo dir d) :
    s.get (d ++ [binName]) = none ∨ s.get (d ++ [binName]) = some .dir := by
  induction dirs generalizing s with
  | nil => cases hdir
  | cons first others ih =>
      obtain ⟨x, hx, hrest⟩ := Results.bind_ok hfold
      have hothers := hrounds.subset others fun dir => List.mem_cons_of_mem _
      obtain ⟨d₀, hfirst⟩ := hrounds.scanned first List.mem_cons_self
      obtain ⟨d', hscanned⟩ := hrounds.scanned dir hdir
      obtain rfl := hplace.unique hscanned.leads
      by_cases heq : d₀ = d
      · subst heq
        exact bin_of_createBinLinks hfirst.leads
          (Clear.of_same happart hfirst.node List.prefix_rfl hfirst.clear hs.same)
          (hs.bins _ hfirst.node) hx
      · obtain ⟨-, hready, -, -, -, hkept⟩ :=
          h.round happart hs hfirst (hrounds.plain first List.mem_cons_self) hx
        have hother : dir ∈ others := by
          apply (List.mem_cons.mp hdir).resolve_left
          rintro rfl
          exact heq (hfirst.leads.unique hplace)
        rw [← hkept _ (happart.bin_apart hfirst.node hscanned.node heq [])]
        exact ih hothers hready hrest hother

include h happart in
/-- Two runs over one list, from trees that agree beside the `.bin` directories, give these
the same links. -/
theorem PackageTree.rounds_agree {s₁ s₂ r₁ r₂ : Tree} (hrounds : Rounds v m t binEntries dirs)
    (hs₁ : BinsReady v m t s₁) (hs₂ : BinsReady v m t s₂)
    (hout : ∀ q, ¬ InBins dirs q → s₁.get q = s₂.get q)
    (hfold₁ : dirs.foldlM (createBinLinksForNodeModules binEntries) s₁ = .ok r₁)
    (hfold₂ : dirs.foldlM (createBinLinksForNodeModules binEntries) s₂ = .ok r₂) (q : Loc) :
    r₁.get q = r₂.get q := by
  by_cases hq : InBins dirs q
  · obtain ⟨dir, hdir, d, hplace, rest, rfl⟩ := hq
    obtain ⟨links, hlinks, hmade₁⟩ := h.rounds_get happart hrounds hs₁ hfold₁ hdir hplace
    obtain ⟨links', hlinks', hmade₂⟩ := h.rounds_get happart hrounds hs₂ hfold₂ hdir hplace
    obtain rfl := Except.ok.inj (hlinks.symm.trans hlinks')
    rw [List.append_assoc, List.singleton_append, hmade₁, hmade₂]
  · rw [(h.rounds happart hrounds hs₁ hfold₁).2 q hq, hout q hq,
      (h.rounds happart hrounds hs₂ hfold₂).2 q hq]

include h happart in
/-- What could be done for one tree can be done for another that agrees with it beside the
`.bin` directories. -/
theorem PackageTree.exists_rounds (hrounds : Rounds v m t binEntries dirs) {x y : Tree}
    (hx : BinsReady v m t x)
    (hfold : dirs.foldlM (createBinLinksForNodeModules binEntries) x = .ok y)
    (hs : BinsReady v m t s)
    (hbins : ∀ dir ∈ dirs, ∀ d, LeadsTo dir d →
      s.get (d ++ [binName]) = none ∨ s.get (d ++ [binName]) = some .dir) :
    ∃ r, dirs.foldlM (createBinLinksForNodeModules binEntries) s = .ok r := by
  have hnext : ∀ dir ∈ dirs, ∀ s, (BinsReady v m t s ∧ ∀ dir ∈ dirs, ∀ d, LeadsTo dir d →
      s.get (d ++ [binName]) = none ∨ s.get (d ++ [binName]) = some .dir) →
      ∃ s', createBinLinksForNodeModules binEntries s dir = .ok s' ∧ BinsReady v m t s' ∧
        ∀ dir ∈ dirs, ∀ d, LeadsTo dir d →
          s'.get (d ++ [binName]) = none ∨ s'.get (d ++ [binName]) = some .dir := by
    rintro dir hdir s ⟨hs, hbins⟩
    obtain ⟨d, hscanned⟩ := hrounds.scanned dir hdir
    have hplain := hrounds.plain dir hdir
    -- the other run has made the bins of the directory
    obtain ⟨before, after, x₁, x₂, hsplit, hbefore, hround, -⟩ := Results.foldlM_at hfold hdir
    have hsub := hrounds.subset before fun other hother => by simp [hsplit, hother]
    have hready := (h.rounds happart hsub hx hbefore).1
    obtain ⟨htd, -, links, hlinks, -, -⟩ := h.round happart hready hscanned hplain hround
    have hsd : s.get d = some .dir := by
      rw [hs.same d (happart.not_binZone_above hscanned.node List.prefix_rfl), htd]
    have hsame : binLinks binEntries s dir = .ok links := by
      rw [h.binLinks_same happart hs.same hscanned.node hscanned.leads htd, hlinks]
    obtain ⟨s', hs'⟩ := exists_createBinLinks (h.plainLinks_same happart hs.same hscanned hplain)
      hscanned.leads hsd hsame (hbins dir hdir d hscanned.leads)
    obtain ⟨-, hready', links', -, hmade, hkept⟩ := h.round happart hs hscanned hplain hs'
    refine ⟨s', hs', hready', fun dir' hdir' d' hplace' => ?_⟩
    obtain ⟨d'', hscanned'⟩ := hrounds.scanned dir' hdir'
    obtain rfl := hplace'.unique hscanned'.leads
    by_cases heq : d = d'
    · rw [← heq, hmade [], binNode]
      split
      · exact Or.inl rfl
      · exact Or.inr rfl
    · rw [hkept _ (happart.bin_apart hscanned.node hscanned'.node heq [])]
      exact hbins dir' hdir' d' hplace'
  obtain ⟨r, hr, -⟩ := Results.exists_foldlM (fun s => BinsReady v m t s ∧
    ∀ dir ∈ dirs, ∀ d, LeadsTo dir d →
      s.get (d ++ [binName]) = none ∨ s.get (d ++ [binName]) = some .dir) ⟨hs, hbins⟩ hnext
  exact ⟨r, hr⟩

end Again

end Npnpm
