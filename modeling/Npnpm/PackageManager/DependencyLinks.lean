import Npnpm.PackageManager.OwnDirectories

/-!
# Where dependency links lead

A link is named after the dependency and points below the store name of the
reference; a package is imported under its own name. The two are one directory
when the dependency has the name of the package it refers to, and the reference
writes the version as the key of the package does.
-/

namespace Npnpm

open Npnpm.Path Npnpm.FileTree

section Reference

variable {V I : Type} [NodeSemver V] [BEq V]

/-- The reference of a dependency denotes the package of the key. -/
def Denotes (name : PkgName) : PackageSnapshotDependency V → DependencyPath V → Prop
  | .pkgVerPeer verPeer, key => (key.packageSpecifier == ⟨name, verPeer⟩) = true
  | .dependencyPath path, key => (key == path) = true

instance (name : PkgName) : ∀ spec (key : DependencyPath V), Decidable (Denotes name spec key)
  | .pkgVerPeer _, _ => inferInstanceAs (Decidable (_ = true))
  | .dependencyPath _, _ => inferInstanceAs (Decidable (_ = true))

/-- The dependency has the name and the store name of the package. -/
def Unaliased (d : PkgName × PackageSnapshotDependency V) (key : DependencyPath V) : Prop :=
  d.1 = key.packageSpecifier.name ∧
    dependencyStoreName d.1 d.2 = key.packageSpecifier.toVirtualStoreName

instance (d : PkgName × PackageSnapshotDependency V) (key : DependencyPath V) :
    Decidable (Unaliased d key) :=
  inferInstanceAs (Decidable (_ ∧ _))

/-- Dependencies of one name refer to one store name, for one package or packages
that share their store name. -/
def LinksAgree (entries : List (DependencyPath V × PackageSnapshot V I)) : Prop :=
  ∀ e ∈ entries, ∀ e' ∈ entries, e.1.packageSpecifier.toVirtualStoreName =
      e'.1.packageSpecifier.toVirtualStoreName →
    ∀ d ∈ linkedDependencies e.2, ∀ d' ∈ linkedDependencies e'.2, d.1 = d'.1 →
      dependencyStoreName d.1 d.2 = dependencyStoreName d'.1 d'.2

instance (entries : List (DependencyPath V × PackageSnapshot V I)) :
    Decidable (LinksAgree entries) :=
  inferInstanceAs (Decidable (∀ e ∈ entries, ∀ e' ∈ entries, _ →
    ∀ d ∈ linkedDependencies e.2, ∀ d' ∈ linkedDependencies e'.2, _ → _))

/-- The place of the dependency is the directory of the package, or holds a link to
it, and leads there. -/
structure LinkedTo (config : Npmrc) (path : DependencyPath V) (name : PkgName)
    (key : DependencyPath V) (t : Tree) : Prop where
  dir : symlinkMetadata t (components (savePath config key)) = .ok .dir
  points : components (join (virtualNodeModulesDir config path) name.display) =
      components (savePath config key) ∨
    ∃ target, symlinkMetadata t (components
        (join (virtualNodeModulesDir config path) name.display)) = .ok (.link target) ∧
      components target = components (savePath config key)
  leads : canonicalize t (components (join (virtualNodeModulesDir config path) name.display)) =
    canonicalize t (components (savePath config key))

/-- Every dependency link leads to the directory of the package that is referred
to, and none is left dangling. -/
def DependencyLinksResolve (config : Npmrc) (lockfile : Lockfile V I) (t : Tree) : Prop :=
  ∀ e ∈ lockfile.packageEntries, ∀ d ∈ linkedDependencies e.2,
    (∀ e' ∈ lockfile.packageEntries, Denotes d.1 d.2 e'.1 → LinkedTo config e.1 d.1 e'.1 t) ∧
      pathExists t (components (join (virtualNodeModulesDir config e.1) d.1.display)) = true

/-- Every dependency refers to a package of the lockfile. -/
def DependenciesDenote (lockfile : Lockfile V I) : Prop :=
  ∀ e ∈ lockfile.packageEntries, ∀ d ∈ linkedDependencies e.2,
    ∃ e' ∈ lockfile.packageEntries, Denotes d.1 d.2 e'.1

instance (lockfile : Lockfile V I) : Decidable (DependenciesDenote lockfile) :=
  inferInstanceAs (Decidable (∀ e ∈ lockfile.packageEntries, ∀ d ∈ linkedDependencies e.2,
    ∃ e' ∈ lockfile.packageEntries, Denotes d.1 d.2 e'.1))

/-- No dependency is an alias, and a package that depends on its own name means
itself. -/
def DependenciesUnaliased (lockfile : Lockfile V I) : Prop :=
  ∀ e ∈ lockfile.packageEntries, ∀ d ∈ linkedDependencies e.2,
    ∀ e' ∈ lockfile.packageEntries, Denotes d.1 d.2 e'.1 →
      Unaliased d e'.1 ∧ SelfReferring lockfile.packageEntries e'

instance (lockfile : Lockfile V I) : Decidable (DependenciesUnaliased lockfile) :=
  inferInstanceAs (Decidable (∀ e ∈ lockfile.packageEntries, ∀ d ∈ linkedDependencies e.2,
    ∀ e' ∈ lockfile.packageEntries, Denotes d.1 d.2 e'.1 →
      Unaliased d e'.1 ∧ SelfReferring lockfile.packageEntries e'))

/-- What stands at the path of a link is replaced by it, or is the directory that
the link names. -/
def LinkReplaceable : InstallStep → Tree → Prop
  | .linkPackage symlinkTarget symlinkPath, t =>
      Replaceable t symlinkTarget symlinkPath ∨
        components symlinkTarget = components symlinkPath ∧
          (symlinkMetadata t (components symlinkPath)).toOption = some .dir
  | _, _ => True

instance LinkReplaceable.decidable : ∀ step t, Decidable (LinkReplaceable step t)
  | .linkPackage _ _, _ => inferInstanceAs (Decidable (Replaceable _ _ _ ∨ _ ∧ _))
  | .importFiles _ _, _ => isTrue trivial
  | .nodeModules _, _ => isTrue trivial
  | .syncLinks _ _, _ => isTrue trivial

omit [BEq V] in
/-- A dependency with the names of a package points to where it was imported. -/
theorem linkTarget_of_unaliased (config : Npmrc) {d : PkgName × PackageSnapshotDependency V}
    {key : DependencyPath V} (h : Unaliased d key) :
    linkTarget config.virtualStoreDir d.1 d.2 = savePath config key := by
  rw [linkTarget, h.2, h.1]
  rfl

/-- Packages with store names of their own agree: a map has one entry for a name. -/
theorem Lockfile.StoreNamesDistinct.linksAgree {lockfile : Lockfile V I}
    (h : lockfile.StoreNamesDistinct) : LinksAgree lockfile.packageEntries := by
  intro e he e' he' hstore d hd d' hd' hname
  obtain rfl : e = e' := eq_of_storeName h he he' hstore
  unfold linkedDependencies at hd hd'
  cases hdeps : e.2.dependencies with
  | none =>
      rw [hdeps] at hd
      simp at hd
  | some dependencies =>
      rw [hdeps] at hd hd'
      have hget := KeyedMap.get_of_mem (k := d.1) (v := d.2) hd
      have hget' := KeyedMap.get_of_mem (k := d'.1) (v := d'.2) hd'
      rw [hname, hget'] at hget
      rw [hname, Option.some.inj hget]

end Reference

section Links

variable {V I : Type} [NodeSemver V] [PlainSemver V] {config : Npmrc}
  {entries : List (DependencyPath V × PackageSnapshot V I)}
  {direct : List (PkgName × ResolvedDependencySpec V)} {schedule : Schedule V I} {v m : Loc}
  {importMethod : PackageImportMethod} (h : Layout config entries direct v m)
include h

/-- The target of a dependency link is a place in the virtual store. -/
theorem Layout.leadsTo_linkTarget [BEq V] {d : PkgName × PackageSnapshotDependency V}
    {key : DependencyPath V} (hname : d.1.Plain) (hkey : key.packageSpecifier.name.Plain)
    (hden : Denotes d.1 d.2 key) :
    LeadsTo (linkTarget config.virtualStoreDir d.1 d.2)
      (storeLoc v (dependencyStoreName d.1 d.2) ++ d.1.loc) := by
  obtain ⟨name, spec⟩ := d
  refine hname.leadsTo (leadsTo_nodeModulesOf h.virtualStore ?_)
  cases spec with
  | pkgVerPeer verPeer => exact plain_storeName hname verPeer
  | dependencyPath path =>
      obtain ⟨-, hspec⟩ := (DependencyPath.beq_iff key path).mp hden
      obtain ⟨heq, -⟩ := (PkgNameSuffix.beq_iff _ _).mp hspec
      refine plain_storeName ?_ path.packageSpecifier.suffix
      rwa [← heq]

omit h in
/-- The place of a dependency that has been linked: its link, or the directory that
the link names. -/
def LinkPlaced (config : Npmrc) (path : DependencyPath V)
    (d : PkgName × PackageSnapshotDependency V) (node : Node) : Prop :=
  node = .link (linkTarget config.virtualStoreDir d.1 d.2) ∨
    node = .dir ∧ components (linkTarget config.virtualStoreDir d.1 d.2) =
      components (join (virtualNodeModulesDir config path) d.1.display)

/-- What `symlink_metadata` says of a taken place of a `node_modules` directory. -/
theorem Layout.symlinkMetadata_entry {e : DependencyPath V × PackageSnapshot V I}
    (he : e ∈ entries) {name : PkgName} (hname : name.Plain) {t : Tree} {node : Node}
    (hnode : t.get (entryLoc v e.1 name) = some node) :
    symlinkMetadata t (components (join (virtualNodeModulesDir config e.1) name.display)) =
      .ok node := by
  have hpath := h.leadsTo_entry he hname
  obtain ⟨dir, last, hloc⟩ := exists_entryLoc_concat v e.1 name
  rw [hloc] at hpath hnode
  rw [hpath]
  exact symlinkMetadata_of_get (by simpa using Tree.get_dropLast hnode) hnode

/-- After its link step a dependency is placed. -/
theorem Layout.link_placed {e : DependencyPath V × PackageSnapshot V I} (he : e ∈ entries)
    {d : PkgName × PackageSnapshotDependency V} (hd : d ∈ linkedDependencies e.2) {t t' : Tree}
    (hway : (dependencyLink config e.1 d).Unobstructed t)
    (hplace : LinkReplaceable (dependencyLink config e.1 d) t)
    (hexec : (dependencyLink config e.1 d).exec importMethod t = .ok t') :
    ∃ node, t'.get (entryLoc v e.1 d.1) = some node ∧ LinkPlaced config e.1 d node := by
  have hpath := h.leadsTo_entry he (h.dependencyNames e he d hd)
  obtain ⟨dir, last, hloc⟩ := exists_entryLoc_concat v e.1 d.1
  rw [hloc] at hpath ⊢
  have hclear := linkPackage_clear hpath hway
  rcases hplace with hreplace | ⟨hself, hdir⟩
  · exact ⟨_, symlinkPackage_link hpath hclear hreplace (Results.mapError_ok hexec), Or.inl rfl⟩
  · have hget : t.get (dir ++ [last]) = some .dir := get_of_symlinkMetadata hclear (hpath ▸ hdir)
    rw [symlinkPackage_same hpath hget (by rw [hself]) (Results.mapError_ok hexec)]
    exact ⟨.dir, hget, Or.inr ⟨rfl, hself⟩⟩

/-- One step keeps a dependency placed: what clears its place is its own link. -/
theorem Layout.link_step (hagree : LinksAgree entries)
    {e : DependencyPath V × PackageSnapshot V I} (he : e ∈ entries)
    {d : PkgName × PackageSnapshotDependency V} (hd : d ∈ linkedDependencies e.2)
    {step : InstallStep} (hmem : step ∈ installSteps config entries direct schedule)
    {t t' : Tree} (htidy : Tidy (installSteps config entries direct schedule) t)
    {node : Node} (hnode : t.get (entryLoc v e.1 d.1) = some node)
    (hplaced : LinkPlaced config e.1 d node) (hexec : step.exec importMethod t = .ok t') :
    t'.get (entryLoc v e.1 d.1) = some node := by
  have hname := h.dependencyNames e he d hd
  by_cases hclears : step.Clears (entryLoc v e.1 d.1)
  · obtain ⟨e', he', d', hd', rfl, hprefix⟩ :=
      h.dependencyLink_of_clears (layoutStep_of_mem hmem) (prefix_entryLoc v e.1 d.1) hclears
    obtain ⟨hstore, hsame⟩ :=
      entryLoc_nested (h.dependencyNames e' he' d' hd').wellFormed hname.wellFormed hprefix
    have hstep : dependencyLink config e'.1 d' = dependencyLink config e.1 d := by
      rw [dependencyLink, dependencyLink, virtualNodeModulesDir, virtualNodeModulesDir, hstore,
        linkTarget, linkTarget, hagree e' he' e he hstore d' hd' d hd hsame, hsame]
    rw [hstep] at hmem hexec
    obtain ⟨dir, last, hloc⟩ := exists_entryLoc_concat v e.1 d.1
    have hpath := h.leadsTo_entry he hname
    rw [hloc] at hpath hnode ⊢
    have hclear := linkPackage_clear hpath (htidy _ hmem)
    rcases hplaced with rfl | ⟨rfl, hself⟩
    · refine symlinkPackage_link hpath hclear (Or.inr (Or.inl ?_)) (Results.mapError_ok hexec)
      rw [hpath, symlinkMetadata_of_get (by simpa using Tree.get_dropLast hnode) hnode]
      rfl
    · rwa [symlinkPackage_same hpath hnode (by rw [hself]) (Results.mapError_ok hexec)]
  · exact ((h.orderly schedule).changes htidy hmem hexec).kept _ _ hnode hclears

/-- A dependency with the names of a package is linked to it. -/
theorem Layout.linkedTo_of_unaliased {e e' : DependencyPath V × PackageSnapshot V I}
    (he : e ∈ entries) (he' : e' ∈ entries) {d : PkgName × PackageSnapshotDependency V}
    (hd : d ∈ linkedDependencies e.2) (hsame : Unaliased d e'.1) {t : Tree}
    (hplaced : ∃ node, t.get (entryLoc v e.1 d.1) = some node ∧ LinkPlaced config e.1 d node)
    (hown : t.get (ownLoc v e'.1) = some .dir) : LinkedTo config e.1 d.1 e'.1 t := by
  obtain ⟨node, hnode, hplaced⟩ := hplaced
  have hpath := h.leadsTo_entry he (h.dependencyNames e he d hd)
  have hsave := h.leadsTo_savePath he'
  have htarget := linkTarget_of_unaliased config hsame
  have hdir : symlinkMetadata t (components (savePath config e'.1)) = .ok .dir :=
    h.symlinkMetadata_entry he' (h.packageNames e' he') hown
  obtain ⟨dir, last, hloc⟩ := exists_entryLoc_concat v e.1 d.1
  rcases hplaced with rfl | ⟨rfl, hself⟩
  · rw [hloc] at hpath hnode
    have hparent : t.get dir = some .dir := by simpa using Tree.get_dropLast hnode
    refine ⟨hdir, Or.inr ⟨_, ?_, congrArg components htarget⟩, ?_⟩
    · rw [hpath]
      exact symlinkMetadata_of_get hparent hnode
    · rw [htarget] at hnode
      rw [hpath, canonicalize_link hparent hnode hsave hown, hsave, canonicalize_of_dir hown]
  · rw [htarget] at hself
    exact ⟨hdir, Or.inl hself.symm, by rw [hself]⟩

/-- A dependency that is linked to a package has its names. -/
theorem Layout.unaliased_of_linkedTo [BEq V] {e e' : DependencyPath V × PackageSnapshot V I}
    (he : e ∈ entries) (he' : e' ∈ entries) {d : PkgName × PackageSnapshotDependency V}
    (hd : d ∈ linkedDependencies e.2) (hden : Denotes d.1 d.2 e'.1) {t : Tree}
    (hplaced : ∃ node, t.get (entryLoc v e.1 d.1) = some node ∧ LinkPlaced config e.1 d node)
    (hlinked : LinkedTo config e.1 d.1 e'.1 t) : Unaliased d e'.1 := by
  obtain ⟨node, hnode, hplaced⟩ := hplaced
  have hname := h.dependencyNames e he d hd
  have hmeta := h.symlinkMetadata_entry he hname hnode
  have htarget : components (linkTarget config.virtualStoreDir d.1 d.2) =
      components (savePath config e'.1) := by
    rcases hlinked.points with hpoints | ⟨target, hlink, htarget⟩
    · have hdir := hlinked.dir
      rw [← hpoints, hmeta] at hdir
      cases hdir
      rcases hplaced with hplaced | ⟨-, hself⟩
      · cases hplaced
      · rw [hself, hpoints]
    · rw [hmeta] at hlink
      cases hlink
      rcases hplaced with hplaced | ⟨hplaced, -⟩
      · cases hplaced
        exact htarget
      · cases hplaced
  have hleads := h.leadsTo_linkTarget hname (h.packageNames e' he') hden
  have hloc : storeLoc v (dependencyStoreName d.1 d.2) ++ d.1.loc = ownLoc v e'.1 :=
    LeadsTo.unique (htarget.symm.trans hleads) (h.leadsTo_savePath he')
  have hprefix : storeLoc v (dependencyStoreName d.1 d.2) ++ d.1.loc <+:
      storeLoc v e'.1.packageSpecifier.toVirtualStoreName ++ e'.1.packageSpecifier.name.loc :=
    hloc ▸ List.prefix_rfl
  obtain ⟨hstore, heq⟩ :=
    storeLoc_nested hname.wellFormed (h.packageNames e' he').wellFormed hprefix
  exact ⟨heq, hstore⟩

/-- A package whose directory is there at the end refers to itself. -/
theorem Layout.selfReferring_of_dir [BEq V] {e : DependencyPath V × PackageSnapshot V I}
    (hdenotes : ∀ e ∈ entries, ∀ d ∈ linkedDependencies e.2, ∃ e' ∈ entries,
      Denotes d.1 d.2 e'.1) {t : Tree}
    (hdir : symlinkMetadata t (components (savePath config e.1)) = .ok .dir)
    (hplaced : ∀ e ∈ entries, ∀ d ∈ linkedDependencies e.2, ∃ node,
      t.get (entryLoc v e.1 d.1) = some node ∧ LinkPlaced config e.1 d node) :
    SelfReferring entries e := by
  intro e₁ he₁ hstore d hd hsame
  obtain ⟨node, hnode, hnodePlaced⟩ := hplaced e₁ he₁ d hd
  have hname := h.dependencyNames e₁ he₁ d hd
  have hplace : join (virtualNodeModulesDir config e₁.1) d.1.display = savePath config e.1 := by
    rw [virtualNodeModulesDir, hstore, hsame]
    rfl
  have hmeta := h.symlinkMetadata_entry he₁ hname hnode
  rw [hplace, hdir] at hmeta
  cases hmeta
  rcases hnodePlaced with hlink | ⟨-, hself⟩
  · cases hlink
  · obtain ⟨e₂, he₂, hden⟩ := hdenotes e₁ he₁ d hd
    have hleads := h.leadsTo_linkTarget hname (h.packageNames e₂ he₂) hden
    have hloc : storeLoc v (dependencyStoreName d.1 d.2) ++ d.1.loc = entryLoc v e₁.1 d.1 :=
      LeadsTo.unique (hself.symm.trans hleads) (h.leadsTo_entry he₁ hname)
    have hprefix : storeLoc v (dependencyStoreName d.1 d.2) ++ d.1.loc <+:
        storeLoc v e₁.1.packageSpecifier.toVirtualStoreName ++ d.1.loc :=
      hloc ▸ List.prefix_rfl
    rw [(storeLoc_nested hname.wellFormed hname.wellFormed hprefix).1, hstore]

end Links

section Install

variable {V I : Type} [NodeSemver V] [BEq V] [PlainSemver V] {config : Npmrc}
  {lockfile : Lockfile V I} {groups : List DependencyGroup} {schedule : Schedule V I}
  {v m : Loc} {start finish : Tree}

/-- After a frozen install every dependency is placed. -/
theorem Install.placed_of_run (hagree : LinksAgree lockfile.packageEntries)
    (hlayout : Layout config lockfile.packageEntries (lockfile.directDependencies groups) v m)
    (htidy : Tidy (installSteps config lockfile.packageEntries
      (lockfile.directDependencies groups) schedule) start)
    (hplaces : Along config.packageImportMethod LinkReplaceable
      (storeSteps config lockfile.packageEntries schedule) start)
    (hrun : Install.installFromLockfile config lockfile groups schedule start = .ok finish)
    {e : DependencyPath V × PackageSnapshot V I} (he : e ∈ lockfile.packageEntries)
    {d : PkgName × PackageSnapshotDependency V} (hd : d ∈ linkedDependencies e.2) :
    ∃ node, finish.get (entryLoc v e.1 d.1) = some node ∧ LinkPlaced config e.1 d node := by
  have hlink : dependencyLink config e.1 d ∈
      storeSteps config lockfile.packageEntries schedule := dependencyLink_mem he hd
  obtain ⟨before, after, hstore⟩ := List.append_of_mem hlink
  have hsplit : installSteps config lockfile.packageEntries
      (lockfile.directDependencies groups) schedule =
      before ++ dependencyLink config e.1 d ::
        (after ++ directSteps config (lockfile.directDependencies groups)) := by
    rw [installSteps, hstore, List.append_assoc, List.cons_append]
  have horder := hlayout.orderly schedule
  obtain ⟨s, s', hbefore, hway, hexec, htidy', hafter⟩ :=
    horder.run_at (Install.steps_of_run hrun) htidy hsplit
  rw [hstore] at hplaces
  obtain ⟨node, hmade, hplaced⟩ := hlayout.link_placed he hd hway (hplaces.at_step hbefore) hexec
  have hmem : ∀ step ∈ after ++ directSteps config (lockfile.directDependencies groups),
      step ∈ installSteps config lockfile.packageEntries
        (lockfile.directDependencies groups) schedule := by
    intro step hstep
    rw [hsplit]
    exact List.mem_append_right _ (List.mem_cons_of_mem _ hstep)
  refine ⟨node, ?_, hplaced⟩
  exact (horder.run_invariant (fun t => t.get (entryLoc v e.1 d.1) = some node) hmem hafter
    htidy' hmade fun step hstep t t' ht hnode hstepexec =>
      hlayout.link_step hagree he hd (hmem step hstep) ht hnode hplaced hstepexec).2

/-- At the end the directory of a package is there whose links resolve. -/
theorem Install.own_dir_of_resolves
    (hlayout : Layout config lockfile.packageEntries (lockfile.directDependencies groups) v m)
    (htidy : Tidy (installSteps config lockfile.packageEntries
      (lockfile.directDependencies groups) schedule) start)
    (hfree : Along config.packageImportMethod ImportFree (installSteps config
      lockfile.packageEntries (lockfile.directDependencies groups) schedule) start)
    (hrun : Install.installFromLockfile config lockfile groups schedule start = .ok finish)
    {e : DependencyPath V × PackageSnapshot V I} (he : e ∈ lockfile.packageEntries)
    (hresolves : Along config.packageImportMethod (OwnLinkResolves config e.1)
      (installSteps config lockfile.packageEntries (lockfile.directDependencies groups) schedule)
      start) :
    finish.get (ownLoc v e.1) = some .dir := by
  have hkept := Install.keepsOwnFiles_of_resolves hlayout htidy hfree he hresolves
  have hsteps := Install.steps_of_run hrun
  have himportMem : packageImport config (schedule.casPaths config e) e.1 ∈
      installSteps config lockfile.packageEntries (lockfile.directDependencies groups) schedule :=
    List.mem_append_left _ (packageImport_mem he)
  obtain ⟨before, after, hsplit⟩ := List.append_of_mem himportMem
  rw [hsplit] at hsteps
  obtain ⟨s, hbefore, hrest⟩ := runSteps_append_ok hsteps
  obtain ⟨imported, himport, hafter⟩ := runSteps_cons_ok hrest
  exact (hkept before after [] imported finish (by rw [hsplit, List.append_nil])
    (runSteps_append_of_ok hbefore (runSteps_cons_of_ok himport rfl)) hafter).dir

/-- At the end the directory of a package that refers to itself is there. -/
theorem Install.own_dir_of_run
    (hlayout : Layout config lockfile.packageEntries (lockfile.directDependencies groups) v m)
    (htidy : Tidy (installSteps config lockfile.packageEntries
      (lockfile.directDependencies groups) schedule) start)
    (hfree : Along config.packageImportMethod ImportFree (installSteps config
      lockfile.packageEntries (lockfile.directDependencies groups) schedule) start)
    (hrun : Install.installFromLockfile config lockfile groups schedule start = .ok finish)
    {e : DependencyPath V × PackageSnapshot V I} (he : e ∈ lockfile.packageEntries)
    (hself : SelfReferring lockfile.packageEntries e) :
    finish.get (ownLoc v e.1) = some .dir :=
  Install.own_dir_of_resolves hlayout htidy hfree hrun he
    (hlayout.ownLinkResolves_of_selfReferring he hself start)

/-- After a frozen install every dependency link leads to the package it refers
to exactly when no dependency is an alias and no package depends on another
package of its own name. -/
theorem Install.dependencyLinks_resolve_iff (hagree : LinksAgree lockfile.packageEntries)
    (hlayout : Layout config lockfile.packageEntries (lockfile.directDependencies groups) v m)
    (htidy : Tidy (installSteps config lockfile.packageEntries
      (lockfile.directDependencies groups) schedule) start)
    (hfree : Along config.packageImportMethod ImportFree (installSteps config
      lockfile.packageEntries (lockfile.directDependencies groups) schedule) start)
    (hplaces : Along config.packageImportMethod LinkReplaceable
      (storeSteps config lockfile.packageEntries schedule) start)
    (hdenotes : DependenciesDenote lockfile)
    (hrun : Install.installFromLockfile config lockfile groups schedule start = .ok finish) :
    DependencyLinksResolve config lockfile finish ↔ DependenciesUnaliased lockfile := by
  have hplaced := fun e he d hd =>
    Install.placed_of_run hagree hlayout htidy hplaces hrun (e := e) he (d := d) hd
  constructor
  · intro hresolve e he d hd e' he' hden
    have hlinked := (hresolve e he d hd).1 e' he' hden
    exact ⟨hlayout.unaliased_of_linkedTo he he' hd hden (hplaced e he d hd) hlinked,
      hlayout.selfReferring_of_dir hdenotes hlinked.dir (hplaced · · · ·)⟩
  · intro hsame
    have hlinked : ∀ e ∈ lockfile.packageEntries, ∀ d ∈ linkedDependencies e.2,
        ∀ e' ∈ lockfile.packageEntries, Denotes d.1 d.2 e'.1 →
          LinkedTo config e.1 d.1 e'.1 finish := by
      intro e he d hd e' he' hden
      obtain ⟨hunaliased, hself⟩ := hsame e he d hd e' he' hden
      exact hlayout.linkedTo_of_unaliased he he' hd hunaliased (hplaced e he d hd)
        (Install.own_dir_of_run hlayout htidy hfree hrun he' hself)
    intro e he d hd
    refine ⟨hlinked e he d hd, ?_⟩
    obtain ⟨e', he', hden⟩ := hdenotes e he d hd
    have hown := Install.own_dir_of_run hlayout htidy hfree hrun he'
      (hsame e he d hd e' he' hden).2
    rw [pathExists, (hlinked e he d hd e' he' hden).leads, hlayout.leadsTo_savePath he',
      canonicalize_of_dir hown]
    rfl

theorem Install.dependencyLinks_resolve_cycle :
    ∃ finish, Install.installFromLockfile defaultNpmrc cycleLockfile [.prod] sampleSchedule
        sampleStart = .ok finish ∧
      (DependencyLinksResolve defaultNpmrc cycleLockfile finish ↔
        DependenciesUnaliased cycleLockfile) ∧
      DependenciesUnaliased cycleLockfile := by
  have hrun : (Install.installFromLockfile defaultNpmrc cycleLockfile [.prod] sampleSchedule
      sampleStart).toOption.map (fun _ => true) = some true := by decide +kernel
  obtain ⟨finish, hfinish, -⟩ := Results.exists_of_toOption_map hrun
  have hlayout : Layout defaultNpmrc cycleLockfile.packageEntries
      (cycleLockfile.directDependencies [.prod]) sampleStore sampleModules :=
    sampleLayout (by decide +kernel) (by decide +kernel) (by decide +kernel)
  have hdistinct : cycleLockfile.StoreNamesDistinct :=
    List.pairwise_pair.mpr (by decide +kernel)
  exact ⟨finish, hfinish, Install.dependencyLinks_resolve_iff hdistinct.linksAgree hlayout
    (tidy_of_noLink sampleStart_noLink) (by decide +kernel) (by decide +kernel)
    (by decide +kernel) hfinish, by decide +kernel⟩

/-- A package that depends on `a@1.0.0` under the name `c`. -/
def aliasLockfile : Lockfile CoreVersion HashIntegrity :=
  sampleLockfile
    [(sampleKey "a".toList sampleVersion, samplePackage [] []),
    (sampleKey "b".toList sampleVersion,
      samplePackage [(⟨none, "c".toList⟩, .dependencyPath (sampleKey "a".toList sampleVersion))]
        [])]

/-- The link of an alias is left dangling. -/
theorem Install.not_dependencyLinks_resolve_alias :
    aliasLockfile.StoreNamesDistinct ∧ DependenciesDenote aliasLockfile ∧
      ∃ finish, Install.installFromLockfile defaultNpmrc aliasLockfile [.prod] sampleSchedule
          sampleStart = .ok finish ∧
        ¬ DependencyLinksResolve defaultNpmrc aliasLockfile finish := by
  have hrun : (Install.installFromLockfile defaultNpmrc aliasLockfile [.prod] sampleSchedule
      sampleStart).toOption.map (fun t => aliasLockfile.packageEntries.all fun e =>
        (linkedDependencies e.2).all fun d => pathExists t
          (components (join (virtualNodeModulesDir defaultNpmrc e.1) d.1.display))) =
      some false := by decide +kernel
  obtain ⟨finish, hfinish, hdangling⟩ := Results.exists_of_toOption_map hrun
  refine ⟨List.pairwise_pair.mpr (by decide +kernel), by decide +kernel, finish, hfinish, ?_⟩
  intro hresolve
  have hall := List.all_eq_true.mpr fun e he => List.all_eq_true.mpr fun d hd =>
    (hresolve e he d hd).2
  rw [hall] at hdangling
  cases hdangling

end Install

end Npnpm
