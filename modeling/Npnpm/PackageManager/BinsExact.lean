import Npnpm.PackageManager.BinContainment
import Npnpm.PackageManager.BinsAgain

/-!
# The bins of a project

After a run every `.bin` directory has one link for each name that a package beside it
declares, to the file that the first of these packages declares. The packages are taken in
the order of their names, a scope being replaced by the packages in it.

## Implementation notes

The order is that of the keys of the packages: one name, or a scope and a name.
-/

namespace Npnpm

open Npnpm.Path Npnpm.FileTree

section PackageOrder

variable {t : Tree} {d : Loc} {dir : Text}

/-- The names that lead from a `node_modules` directory to a package. -/
inductive PackageKey (t : Tree) (d : Loc) : Loc → Prop
  | bare {name : Text} {node : Node} (hvisible : name.head? ≠ some '.')
      (hnode : t.get (d ++ [name]) = some node) (hkind : ∀ content, node ≠ .file content)
      (hscope : ¬(name.head? = some '@' ∧ node = .dir)) : PackageKey t d [name]
  | inScope {scope name : Text} {node : Node} (hscope : scope.head? = some '@')
      (hdir : t.get (d ++ [scope]) = some .dir) (hnode : t.get (d ++ [scope] ++ [name]) = some node)
      (hkind : ∀ content, node ≠ .file content) : PackageKey t d [scope, name]

def keyDir (dir : Text) (key : Loc) : Text := key.foldl join dir

/-- The packages of a directory in the order of their keys. -/
structure InKeyOrder (t : Tree) (d : Loc) (dir : Text) (packageDirs : List Text) (keys : List Loc) :
    Prop where
  dirs : packageDirs = keys.map (keyDir dir)
  sorted : keys.Pairwise (· < ·)
  complete : ∀ key, key ∈ keys ↔ PackageKey t d key

theorem isDirOrLink_iff {path name : Text} {node : Node} (hpath : LeadsTo path (d ++ [name]))
    (hd : t.get d = some .dir) (hnode : t.get (d ++ [name]) = some node) :
    isDirOrLink t path = true ↔ ∀ content, node ≠ .file content := by
  have htype : fileType t path = .ok node := by
    rw [fileType_of_dir hpath hd, hnode]
  unfold isDirOrLink
  rw [htype]
  cases node with
  | dir => simp
  | file content => simp
  | link target => simp

/-- A sorted listing has every name once, and the smaller ones first. -/
theorem sortedEntries_sorted (hdir : LeadsTo dir d) (hclear : Clear t d) {names : List Text}
    (h : sortedEntries t dir = .ok names) :
    t.get d = some .dir ∧ names.Pairwise (· < ·) ∧
      ∀ name, name ∈ names ↔ t.get (d ++ [name]) ≠ none := by
  obtain ⟨listed, hread, h⟩ := Results.bind_ok h
  cases h
  have hread := Results.mapError_ok hread
  rw [hdir] at hread
  obtain ⟨hd, rfl⟩ := readDir_of_clear hclear hread
  refine ⟨hd, ?_, fun name => ?_⟩
  · have hle := List.pairwise_insertionSort (fun a b => textLe a b = true) (t.children d)
    have hne : ((t.children d).insertionSort fun a b => textLe a b = true).Nodup :=
      (List.perm_insertionSort _ _).nodup_iff.mpr (t.children_nodup d)
    apply (hle.and hne).imp
    rintro a b ⟨hab, hne⟩
    exact lt_of_le_of_ne ((textLe_iff a b).mp hab) hne
  · rw [List.mem_insertionSort]
    exact Tree.mem_children

/-- A key that begins with a name is that name, or goes on in the scope. -/
theorem PackageKey.of_head {key : Loc} {name : Text} {node : Node} (h : PackageKey t d key)
    (hhead : key.head? = some name) (hnode : t.get (d ++ [name]) = some node) :
    (key = [name] ∧ name.head? ≠ some '.' ∧ (∀ content, node ≠ .file content) ∧
      ¬(name.head? = some '@' ∧ node = .dir)) ∨
    ∃ x other, key = [name, x] ∧ name.head? = some '@' ∧ node = .dir ∧
      t.get (d ++ [name] ++ [x]) = some other ∧ ∀ content, other ≠ .file content := by
  cases h with
  | bare hvisible hget hkind hscope =>
      obtain rfl := Option.some.inj hhead
      obtain rfl := Option.some.inj (hnode.symm.trans hget)
      exact Or.inl ⟨rfl, hvisible, hkind, hscope⟩
  | inScope hscope hget hother hkind =>
      obtain rfl := Option.some.inj hhead
      obtain rfl := Option.some.inj (hnode.symm.trans hget)
      exact Or.inr ⟨_, _, rfl, hscope, rfl, hother, hkind⟩

/-- The entries of a scope are its keys, in their order. -/
theorem scope_keys (hnames : t.PlainNames) {path name : Text} (hpath : LeadsTo path (d ++ [name]))
    (hnode : t.get (d ++ [name]) = some .dir) (hat : name.head? = some '@') {names : List Text}
    (hsorted : sortedEntries t path = .ok names) :
    ((names.filter fun x => isDirOrLink t (join path x)).map fun x => [name, x]).Pairwise (· < ·) ∧
      ∀ key, key ∈ (names.filter fun x => isDirOrLink t (join path x)).map (fun x => [name, x]) ↔
        PackageKey t d key ∧ key.head? = some name := by
  obtain ⟨-, hpairwise, hmem⟩ := sortedEntries_sorted hpath (clear_of_dir hnode) hsorted
  have hchild : ∀ x other, t.get (d ++ [name] ++ [x]) = some other →
      (isDirOrLink t (join path x) = true ↔ ∀ content, other ≠ .file content) := by
    intro x other hother
    have hx := plainChildren_of_plainNames hnames _ x (by rw [hother]; simp)
    exact isDirOrLink_iff (leadsTo_child hpath hx) hnode hother
  refine ⟨List.pairwise_map.mpr ((hpairwise.filter _).imp fun hlt => .cons (.rel hlt)), ?_⟩
  intro key
  rw [List.mem_map]
  constructor
  · rintro ⟨x, hx, rfl⟩
    obtain ⟨hx, hkind⟩ := List.mem_filter.mp hx
    obtain ⟨other, hother⟩ := Option.ne_none_iff_exists'.mp ((hmem x).mp hx)
    exact ⟨.inScope hat hnode hother ((hchild x other hother).mp hkind), rfl⟩
  · rintro ⟨hpackage, hhead⟩
    rcases hpackage.of_head hhead hnode with ⟨-, -, -, hnot⟩ | ⟨x, other, rfl, -, -, hother, hkind⟩
    · exact absurd ⟨hat, rfl⟩ hnot
    · have hx : x ∈ names := (hmem x).mpr (by rw [hother]; simp)
      exact ⟨x, List.mem_filter.mpr ⟨hx, (hchild x other hother).mpr hkind⟩, rfl⟩

/-- One entry gives its key, or those of its scope. -/
theorem entryPackageDirs_keys (hnames : t.PlainNames) (hdir : LeadsTo dir d)
    (hd : t.get d = some .dir) {name : Text} (htaken : t.get (d ++ [name]) ≠ none)
    {packageDirs : List Text} (h : entryPackageDirs t dir name = .ok packageDirs) :
    ∃ keys : List Loc, packageDirs = keys.map (keyDir dir) ∧ keys.Pairwise (· < ·) ∧
      ∀ key, key ∈ keys ↔ PackageKey t d key ∧ key.head? = some name := by
  obtain ⟨node, hnode⟩ := Option.ne_none_iff_exists'.mp htaken
  have hplain := plainChildren_of_plainNames hnames d name htaken
  have hpath := leadsTo_child hdir hplain
  obtain ⟨type, htype, h⟩ := Results.bind_ok h
  have htype := Results.mapError_ok htype
  rw [fileType_of_dir hpath hd, hnode] at htype
  obtain rfl := Except.ok.inj htype
  split at h
  · rename_i hdot
    cases h
    refine ⟨[], rfl, .nil, fun key => ⟨fun hmem => absurd hmem List.not_mem_nil, ?_⟩⟩
    rintro ⟨hpackage, hhead⟩
    rcases hpackage.of_head hhead hnode with ⟨-, hvisible, -⟩ | ⟨x, other, -, hat, -⟩
    · exact absurd hdot hvisible
    · rw [hat] at hdot
      exact absurd hdot (by decide)
  · rename_i hdot
    split at h
    · rename_i hscope
      obtain ⟨hat, rfl⟩ := hscope
      obtain ⟨names, hsorted, h⟩ := Results.bind_ok h
      cases h
      obtain ⟨hpairwise, hmem⟩ := scope_keys hnames hpath hnode hat hsorted
      refine ⟨_, ?_, hpairwise, hmem⟩
      rw [List.map_map, List.filter_map]
      rfl
    · rename_i hscope
      have hkind := isDirOrLink_iff hpath hd hnode
      split at h
      · rename_i hdirOrLink
        cases h
        refine ⟨[[name]], rfl, List.pairwise_singleton _ _, fun key => ?_⟩
        rw [List.mem_singleton]
        constructor
        · rintro rfl
          exact ⟨.bare hdot hnode (hkind.mp hdirOrLink) hscope, rfl⟩
        · rintro ⟨hpackage, hhead⟩
          rcases hpackage.of_head hhead hnode with ⟨rfl, -⟩ | ⟨x, other, -, hat, hdir', -⟩
          · rfl
          · exact absurd ⟨hat, hdir'⟩ hscope
      · rename_i hnot
        cases h
        refine ⟨[], rfl, .nil, fun key => ⟨fun hmem => absurd hmem List.not_mem_nil, ?_⟩⟩
        rintro ⟨hpackage, hhead⟩
        rcases hpackage.of_head hhead hnode with ⟨-, -, hfile, -⟩ | ⟨x, other, -, hat, hdir', -⟩
        · exact absurd (hkind.mpr hfile) hnot
        · exact absurd ⟨hat, hdir'⟩ hscope

theorem mapM_entryPackageDirs_keys (hnames : t.PlainNames) (hdir : LeadsTo dir d)
    (hd : t.get d = some .dir) {names : List Text} (hsorted : names.Pairwise (· < ·))
    (htaken : ∀ name ∈ names, t.get (d ++ [name]) ≠ none) {lists : List (List Text)}
    (h : names.mapM (entryPackageDirs t dir) = .ok lists) :
    ∃ keys : List Loc, lists.flatten = keys.map (keyDir dir) ∧ keys.Pairwise (· < ·) ∧
      ∀ key, key ∈ keys ↔ PackageKey t d key ∧ ∃ name ∈ names, key.head? = some name := by
  induction names generalizing lists with
  | nil =>
      cases h
      exact ⟨[], rfl, .nil, by simp⟩
  | cons name names ih =>
      rw [List.mapM_cons] at h
      obtain ⟨first, hfirst, h⟩ := Results.bind_ok h
      obtain ⟨rest, hrest, h⟩ := Results.bind_ok h
      cases h
      obtain ⟨hbefore, hsorted⟩ := List.pairwise_cons.mp hsorted
      obtain ⟨keys, rfl, hkeys, hmem⟩ :=
        entryPackageDirs_keys hnames hdir hd (htaken name List.mem_cons_self) hfirst
      obtain ⟨others, hothers, hkeys', hmem'⟩ :=
        ih hsorted (fun name hname => htaken name (List.mem_cons_of_mem _ hname)) hrest
      refine ⟨keys ++ others, ?_, ?_, fun key => ?_⟩
      · rw [List.flatten_cons, hothers, List.map_append]
      · refine List.pairwise_append.mpr ⟨hkeys, hkeys', fun key hkey key' hkey' => ?_⟩
        obtain ⟨-, hhead⟩ := (hmem key).mp hkey
        obtain ⟨-, name', hname', hhead'⟩ := (hmem' key').mp hkey'
        obtain ⟨_, rfl⟩ := List.head?_eq_some_iff.mp hhead
        obtain ⟨_, rfl⟩ := List.head?_eq_some_iff.mp hhead'
        exact .rel (hbefore name' hname')
      · rw [List.mem_append, hmem, hmem']
        constructor
        · rintro (⟨hpackage, hhead⟩ | ⟨hpackage, name', hname', hhead⟩)
          · exact ⟨hpackage, name, List.mem_cons_self, hhead⟩
          · exact ⟨hpackage, name', List.mem_cons_of_mem _ hname', hhead⟩
        · rintro ⟨hpackage, name', hname', hhead⟩
          rcases List.mem_cons.mp hname' with rfl | hname'
          · exact Or.inl ⟨hpackage, hhead⟩
          · exact Or.inr ⟨hpackage, name', hname', hhead⟩

/-- The packages of a directory come in the order of their keys. -/
theorem immediatePackageDirs_inKeyOrder (hnames : t.PlainNames) (hdir : LeadsTo dir d)
    (hclear : Clear t d) {packageDirs : List Text}
    (h : immediatePackageDirs t dir = .ok packageDirs) :
    ∃ keys, InKeyOrder t d dir packageDirs keys := by
  obtain ⟨names, hsorted, h⟩ := Results.bind_ok h
  obtain ⟨lists, hlists, h⟩ := Results.bind_ok h
  cases h
  obtain ⟨hd, hpairwise, hmem⟩ := sortedEntries_sorted hdir hclear hsorted
  obtain ⟨keys, hdirs, hkeys, hcomplete⟩ := mapM_entryPackageDirs_keys hnames hdir hd hpairwise
    (fun name hname => (hmem name).mp hname) hlists
  refine ⟨keys, hdirs, hkeys, fun key => (hcomplete key).trans ⟨fun h => h.1, fun h => ⟨h, ?_⟩⟩⟩
  cases h with
  | bare _ hnode _ _ => exact ⟨_, (hmem _).mpr (by rw [hnode]; simp), rfl⟩
  | inScope _ hscope _ _ => exact ⟨_, (hmem _).mpr (by rw [hscope]; simp), rfl⟩

end PackageOrder

section Exact

variable {packages : List PackageBins} {parse : Text → Except Text PackageManifest}
  {modulesDir virtualStoreDir : Text} {v m : Loc} {t r : Tree}

theorem exists_firstDeclares {package : PackageBins} (hpackage : package ∈ packages) {name : Text}
    (hname : name ∈ package.2.map Prod.fst) :
    ∃ packageDir target, FirstDeclares packages name packageDir target := by
  induction packages with
  | nil => cases hpackage
  | cons first packages ih =>
      simp only [firstDeclares_cons]
      by_cases hfirst : name ∈ first.2.map Prod.fst
      · obtain ⟨⟨name', target⟩, hmem, rfl⟩ := List.mem_map.mp hfirst
        exact ⟨first.1, target, Or.inl ⟨rfl, hmem⟩⟩
      · have hrest : package ∈ packages := by
          apply (List.mem_cons.mp hpackage).resolve_left
          rintro rfl
          exact hfirst hname
        obtain ⟨packageDir, target, hdeclares⟩ := ih hrest
        exact ⟨packageDir, target, Or.inr ⟨hfirst, hdeclares⟩⟩

/-- The `.bin` directory of `d` holds one link for each name that a package declares, to what
the first of them declares, and nothing else. -/
structure HoldsBins (r : Tree) (d : Loc) (packages : List PackageBins) : Prop where
  declared : ∀ package ∈ packages, ∀ name ∈ package.2.map Prod.fst, ∃ packageDir target,
    FirstDeclares packages name packageDir target ∧
      r.get (d ++ [binName, name]) = some (.link (join packageDir target))
  only : ∀ rest node, rest ≠ [] → r.get (d ++ binName :: rest) = some node →
    ∃ name packageDir target, rest = [name] ∧ FirstDeclares packages name packageDir target ∧
      node = .link (join packageDir target)

theorem find?_packageLinks (hnames : ∀ p ∈ packages, (p.2.map Prod.fst).Nodup) {name : Text}
    {b : Text × Text} (h : ((packageLinks packages).find? fun b => b.1 == name) = some b) :
    b.1 = name ∧ ∃ packageDir target, FirstDeclares packages name packageDir target ∧
      b.2 = join packageDir target := by
  have hname : b.1 = name := by simpa using List.find?_some h
  obtain ⟨packageDir, target, hfirst, htarget⟩ :=
    (mem_packageLinks_iff hnames).mp (List.mem_of_find?_eq_some h)
  rw [hname] at hfirst
  exact ⟨hname, packageDir, target, hfirst, htarget⟩

theorem holdsBins_of_get {d : Loc} (hnames : ∀ p ∈ packages, (p.2.map Prod.fst).Nodup)
    (hget : ∀ rest, r.get (d ++ binName :: rest) = binNode (packageLinks packages) rest) :
    HoldsBins r d packages where
  declared package hpackage name hname := by
    obtain ⟨packageDir, target, hfirst⟩ := exists_firstDeclares hpackage hname
    have hmem : (name, join packageDir target) ∈ packageLinks packages :=
      (mem_packageLinks_iff hnames).mpr ⟨packageDir, target, hfirst, rfl⟩
    cases hfind : (packageLinks packages).find? fun b => b.1 == name with
    | none => exact absurd (beq_self_eq_true name) (List.find?_eq_none.mp hfind _ hmem)
    | some b =>
        obtain ⟨-, packageDir', target', hfirst', htarget⟩ := find?_packageLinks hnames hfind
        refine ⟨packageDir', target', hfirst', ?_⟩
        rw [hget [name], binNode, hfind, ← htarget]
        rfl
  only rest node hrest hnode := by
    rw [hget] at hnode
    cases rest with
    | nil => exact absurd rfl hrest
    | cons name rest =>
        cases rest with
        | nil =>
            rw [binNode] at hnode
            obtain ⟨b, hfind, rfl⟩ := Option.map_eq_some_iff.mp hnode
            obtain ⟨-, packageDir, target, hfirst, htarget⟩ := find?_packageLinks hnames hfind
            exact ⟨name, packageDir, target, rfl, hfirst, by rw [htarget]⟩
        | cons _ _ => cases hnode

/-- A project whose packages declare bins with file names. -/
structure BinProject (parse : Text → Except Text PackageManifest) (modulesDir : Text)
    (virtualStoreDir : Text) (v m : Loc) (t : Tree) : Prop extends PackageTree v m t where
  apart : Apart v m
  modulesPlace : LeadsTo modulesDir m
  storePlace : LeadsTo virtualStoreDir v
  modulesPlain : PlainLinks (readBinEntries parse) t modulesDir
  storesPlain : ∀ stores, storeBinDirs virtualStoreDir t = .ok stores →
    ∀ dir ∈ stores, PlainLinks (readBinEntries parse) t dir

theorem BinProject.rounds (h : BinProject parse modulesDir virtualStoreDir v m t) {dirs : List Text}
    (hdirs : binDirs modulesDir virtualStoreDir t = .ok dirs) :
    Rounds v m t (readBinEntries parse) dirs := by
  obtain ⟨hscanned, hunique⟩ :=
    h.toPackageTree.binDirs_scanned h.storePlace h.modulesPlace h.apart hdirs
  refine ⟨hscanned, hunique, fun dir hdir => ?_⟩
  obtain ⟨stores, hstores, rfl⟩ := Results.map_ok hdirs
  rcases List.mem_append.mp hdir with hdir | hdir
  · split at hdir
    · rw [List.mem_singleton.mp hdir]
      exact h.modulesPlain
    · cases hdir
  · exact h.storesPlain stores hstores dir hdir

/-- A run that succeeds gives the `.bin` directory of every scanned `node_modules` directory
exactly the links of the packages beside it, and changes nothing else. The order of the
listings does not matter, and running again gives the same result. -/
theorem CreateBins.run_exact (h : BinProject parse modulesDir virtualStoreDir v m t)
    (hrun : CreateBins.run (readBinEntries parse) modulesDir virtualStoreDir t = .ok r) :
    ∃ dirs, binDirs modulesDir virtualStoreDir t = .ok dirs ∧
      (∀ dir ∈ dirs, ∃ d packages keys, LeadsTo dir d ∧
        ScannedPackages (readBinEntries parse) t dir packages ∧
        InKeyOrder t d dir (packages.map Prod.fst) keys ∧ HoldsBins r d packages) ∧
      SameOutside (InBins dirs) t r ∧
      (∀ s : Tree, (∀ q, s.get q = t.get q) →
        ∃ r', CreateBins.run (readBinEntries parse) modulesDir virtualStoreDir s = .ok r' ∧
          ∀ q, r'.get q = r.get q) ∧
      ∃ r', CreateBins.run (readBinEntries parse) modulesDir virtualStoreDir r = .ok r' ∧
        ∀ q, r'.get q = r.get q := by
  have htree := h.toPackageTree
  have hruns : ∀ {s s' : Tree}, SameOutside (BinZone v m) t s →
      (CreateBins.run (readBinEntries parse) modulesDir virtualStoreDir s = .ok s' ↔
        ∃ dirs, binDirs modulesDir virtualStoreDir t = .ok dirs ∧
          dirs.foldlM (createBinLinksForNodeModules (readBinEntries parse)) s = .ok s') :=
    fun hs => htree.run_iff h.apart h.storePlace h.modulesPlace h.modulesPlain hs
  obtain ⟨dirs, hdirs, hfold⟩ := (hruns (.refl t)).mp hrun
  have hrounds := h.rounds hdirs
  have hstart := htree.binsReady
  obtain ⟨hready, hsame⟩ := htree.rounds h.apart hrounds hstart hfold
  -- a run from a tree that agrees beside the `.bin` directories gives the same tree
  have hagain : ∀ s, BinsReady v m t s → (∀ q, ¬ InBins dirs q → s.get q = t.get q) →
      (∀ dir ∈ dirs, ∀ d, LeadsTo dir d →
        s.get (d ++ [binName]) = none ∨ s.get (d ++ [binName]) = some .dir) →
      ∃ r', CreateBins.run (readBinEntries parse) modulesDir virtualStoreDir s = .ok r' ∧
        ∀ q, r'.get q = r.get q := by
    intro s hs hout hbins
    obtain ⟨r', hfold'⟩ := htree.exists_rounds h.apart hrounds hstart hfold hs hbins
    exact ⟨r', (hruns hs.same).mpr ⟨dirs, hdirs, hfold'⟩,
      htree.rounds_agree h.apart hrounds hs hstart hout hfold' hfold⟩
  refine ⟨dirs, hdirs, fun dir hdir => ?_, hsame, fun s hs => ?_, ?_⟩
  · obtain ⟨d, hscanned⟩ := hrounds.scanned dir hdir
    obtain ⟨links, hlinks, hget⟩ :=
      htree.rounds_get h.apart hrounds hstart hfold hdir hscanned.leads
    obtain ⟨packages, hpackages, rfl⟩ := binLinks_ok hlinks
    obtain ⟨keys, hkeys⟩ :=
      immediatePackageDirs_inKeyOrder htree.names hscanned.leads hscanned.clear hpackages.dirs
    exact ⟨d, packages, keys, hscanned.leads, hpackages, hkeys, holdsBins_of_get
      (fun p hp => nodup_of_manifestBins (hpackages.bins p hp)) hget⟩
  · refine hagain s ⟨fun q _ => hs q, fun d hd target => ?_⟩ (fun q _ => hs q) ?_
    · rw [hs]
      exact htree.bins d hd target
    · intro dir hdir d hplace
      rw [hs]
      exact htree.rounds_bins h.apart hrounds hstart hfold hdir hplace
  · refine hagain r hready hsame fun dir hdir d hplace => ?_
    obtain ⟨links, -, hget⟩ := htree.rounds_get h.apart hrounds hstart hfold hdir hplace
    rw [hget [], binNode]
    split
    · exact Or.inl rfl
    · exact Or.inr rfl

end Exact

section Samples

def sampleModulesDir : Text := "/project/node_modules".toList

def sampleModulesLoc : Loc := ["project".toList, "node_modules".toList]

/-- A project without a virtual store. -/
def sampleStoreDir : Text := "/project/node_modules/.pnpm".toList

def sampleStoreLoc : Loc := sampleModulesLoc ++ [".pnpm".toList]

/-- Two packages, one of them in a scope, that declare the same bin, and a directory that stands
in `.bin` from before. -/
def cliTree : Tree :=
  (do
    let t ← createDirAll .empty (components "/project/node_modules/.bin/old".toList)
    let t ← createDirAll t (components "/project/node_modules/b".toList)
    let t ← createDirAll t (components "/project/node_modules/@s/a".toList)
    let t ← makeTarget t (components "/project/node_modules/b/package.json".toList)
      (.file (oneBinText "cli".toList "bin/cli.js".toList))
    makeTarget t (components "/project/node_modules/@s/a/package.json".toList)
      (.file (oneBinText "cli".toList "bin/cli.js".toList))).toOption.getD .empty

theorem cliTree_nodes {q : Loc} {node : Node} (h : cliTree.get q = some node) :
    PlainLoc q ∧ (node = .dir ∨ node = .file (oneBinText "cli".toList "bin/cli.js".toList)) := by
  by_cases hq : q = []
  · rw [hq, Tree.get_nil] at h
    exact ⟨fun name hname => absurd hname (by simp [hq]), Or.inl (Option.some.inj h).symm⟩
  · rw [Tree.get_of_ne_nil _ hq, KeyedMap.get_eq_some_iff] at h
    have hall : ∀ e ∈ cliTree.nodes.entries, (∀ name ∈ e.1, (Component.normal name).Plain) ∧
        (e.2 = .dir ∨ e.2 = .file (oneBinText "cli".toList "bin/cli.js".toList)) := by
      decide +kernel
    exact hall _ h

theorem cliTree_noLink (q : Loc) (target : Text) : cliTree.get q ≠ some (.link target) := by
  intro h
  rcases (cliTree_nodes h).2 with hnode | hnode
  · cases hnode
  · cases hnode

theorem cliProject : BinProject (parseOneBin "cli".toList "bin/cli.js".toList) sampleModulesDir
    sampleStoreDir sampleStoreLoc sampleModulesLoc cliTree where
  names _ _ h := (cliTree_nodes h).1
  modules _ _ := cliTree_noLink _
  store _ _ := cliTree_noLink _
  stores _ := cliTree_noLink _
  bins _ _ := cliTree_noLink _
  links _ _ _ h := absurd h (cliTree_noLink _ _)
  apart := by
    constructor
    · intro h
      exact absurd h.length_le (by decide)
    · intro name rest h
      have hcons := (List.append_right_inj sampleModulesLoc).mp h
      rw [← (List.cons.inj hcons).1]
      decide
  modulesPlace := by decide
  storePlace := by decide
  modulesPlain := by
    intro links hlinks b hb
    have hrun : (binLinks (readBinEntries (parseOneBin "cli".toList "bin/cli.js".toList)) cliTree
        sampleModulesDir).toOption =
          some [("cli".toList, "/project/node_modules/@s/a/bin/cli.js".toList)] := by
      decide +kernel
    rw [hlinks] at hrun
    rw [Option.some.inj hrun, List.mem_singleton] at hb
    rw [hb]
    decide
  storesPlain := by
    intro stores hstores dir hdir
    have hrun : (storeBinDirs sampleStoreDir cliTree).toOption = some [] := by decide +kernel
    rw [hstores] at hrun
    rw [Option.some.inj hrun] at hdir
    cases hdir

/-- The package in the scope comes first, and `.bin` holds its link alone. -/
theorem CreateBins.run_exact_cli :
    ∃ r, CreateBins.run (readBinEntries (parseOneBin "cli".toList "bin/cli.js".toList))
        sampleModulesDir sampleStoreDir cliTree = .ok r ∧
      r.children (sampleModulesLoc ++ [binName]) = ["cli".toList] ∧
      r.get (sampleModulesLoc ++ [binName, "cli".toList]) =
        some (.link "/project/node_modules/@s/a/bin/cli.js".toList) ∧
      (∃ dirs, SameOutside (InBins dirs) cliTree r) ∧
      ∃ r', CreateBins.run (readBinEntries (parseOneBin "cli".toList "bin/cli.js".toList))
        sampleModulesDir sampleStoreDir r = .ok r' ∧ ∀ q, r'.get q = r.get q := by
  have hrun : (CreateBins.run (readBinEntries (parseOneBin "cli".toList "bin/cli.js".toList))
      sampleModulesDir sampleStoreDir cliTree).toOption.map (fun r =>
        (r.children (sampleModulesLoc ++ [binName]),
          r.get (sampleModulesLoc ++ [binName, "cli".toList]))) =
      some (["cli".toList], some (.link "/project/node_modules/@s/a/bin/cli.js".toList)) := by
    decide +kernel
  obtain ⟨r, hr, hbins⟩ := Results.exists_of_toOption_map hrun
  obtain ⟨hchildren, hlink⟩ := Prod.mk.inj hbins
  obtain ⟨dirs, -, -, hsame, -, hagain⟩ := CreateBins.run_exact cliProject hr
  exact ⟨r, hr, hchildren, hlink, ⟨dirs, hsame⟩, hagain⟩

/-- A package beside a link to it that leads through its bin. -/
def linkedBinTree : Tree :=
  (symlink (oneBinTree "cli".toList ".".toList) ".bin/cli".toList
    (components "/project/node_modules/A".toList)).toOption.getD .empty

def linkedBinRun (t : Tree) : Except CreateBinsError Tree :=
  CreateBins.run (readBinEntries (parseOneBin "cli".toList ".".toList)) sampleModulesDir
    sampleStoreDir t

/-- The trees after one, two and three runs. -/
def linkedBinRuns : Except CreateBinsError (List Tree) := do
  let t₁ ← linkedBinRun linkedBinTree
  let t₂ ← linkedBinRun t₁
  let t₃ ← linkedBinRun t₂
  .ok [t₁, t₂, t₃]

/-- The bin of the package leads to it and to the link in turns: the link is a package only
as long as it is not what the bin leads to. -/
theorem CreateBins.run_alternates :
    ∃ t₁ t₂ t₃, linkedBinRun linkedBinTree = .ok t₁ ∧ linkedBinRun t₁ = .ok t₂ ∧
      linkedBinRun t₂ = .ok t₃ ∧
      t₁.get (sampleModulesLoc ++ [binName, "cli".toList]) =
        some (.link "/project/node_modules/a/.".toList) ∧
      t₂.get (sampleModulesLoc ++ [binName, "cli".toList]) =
        some (.link "/project/node_modules/A/.".toList) ∧
      t₃.get (sampleModulesLoc ++ [binName, "cli".toList]) =
        some (.link "/project/node_modules/a/.".toList) := by
  have hrun : linkedBinRuns.toOption.map (fun ts => ts.map fun t =>
      t.get (sampleModulesLoc ++ [binName, "cli".toList])) =
        some [some (.link "/project/node_modules/a/.".toList),
          some (.link "/project/node_modules/A/.".toList),
          some (.link "/project/node_modules/a/.".toList)] := by decide +kernel
  obtain ⟨ts, hts, hlinks⟩ := Results.exists_of_toOption_map hrun
  obtain ⟨t₁, h₁, hts⟩ := Results.bind_ok hts
  obtain ⟨t₂, h₂, hts⟩ := Results.bind_ok hts
  obtain ⟨t₃, h₃, hts⟩ := Results.bind_ok hts
  cases hts
  simp only [List.map_cons, List.map_nil, List.cons.injEq, and_true] at hlinks
  exact ⟨t₁, t₂, t₃, h₁, h₂, h₃, hlinks⟩

end Samples

end Npnpm
