import Npnpm.PackageManager.InstallRun

/-!
# The layout of the virtual store

Where the steps of a frozen install write, for names that are plain path
components: below `{virtual store}/{store name}/node_modules` and in the modules
directory. Under the conditions collected in `Layout` these places keep clear of
each other, and a place in the virtual store is only ever cleared by the link of
a dependency.
-/

namespace Npnpm

open Npnpm.Path Npnpm.FileTree

section Names

/-- A name as the parser returns it whose last part is a plain path component. -/
structure PkgName.Plain (name : PkgName) : Prop where
  wellFormed : name.WellFormed
  bare : (Component.normal name.bare).Plain

instance : ∀ name : PkgName, Decidable name.WellFormed
  | ⟨some scope, _⟩ => inferInstanceAs (Decidable ('/' ∉ scope))
  | ⟨none, []⟩ => isFalse fun ⟨_, _, h, _⟩ => nomatch h
  | ⟨none, x :: rest⟩ => decidable_of_iff (x ≠ '@')
      ⟨fun h => ⟨x, rest, rfl, h⟩, fun ⟨_, _, h, hne⟩ => (List.cons.inj h).1 ▸ hne⟩

instance (name : PkgName) : Decidable name.Plain :=
  decidable_of_iff (name.WellFormed ∧ (Component.normal name.bare).Plain)
    ⟨fun h => ⟨h.1, h.2⟩, fun h => ⟨h.1, h.2⟩⟩

/-- The location of a package name below a `node_modules` directory. -/
def PkgName.loc (name : PkgName) : Loc :=
  match name.scope with
  | some scope => ['@' :: scope, name.bare]
  | none => [name.bare]

theorem PkgName.loc_ne_nil (name : PkgName) : name.loc ≠ [] := by
  unfold PkgName.loc
  split <;> simp

theorem plain_of_at {s : Text} (h : '/' ∉ s) (hat : '@' ∈ s) : (Component.normal s).Plain := by
  refine ⟨h, ?_, ?_, ?_⟩ <;> rintro rfl <;> simp at hat

theorem PkgName.Plain.body_display {name : PkgName} (h : name.Plain) :
    body name.display = name.loc.map .normal := by
  obtain ⟨scope, bare⟩ := name
  obtain ⟨hw, hb⟩ := h
  have hbare := body_text hb
  cases scope with
  | none => exact hbare
  | some scope =>
      have hscope : (Component.normal ('@' :: scope)).Plain :=
        plain_of_at (by simpa [PkgName.WellFormed] using hw) (by simp)
      change body ('@' :: scope ++ '/' :: bare) = _
      rw [body_append_slash]
      exact congrArg₂ (· ++ ·) (body_text hscope) hbare

theorem PkgName.Plain.isAbsolute_display {name : PkgName} (h : name.Plain) :
    isAbsolute name.display = false := by
  obtain ⟨scope, bare⟩ := name
  cases scope with
  | none => exact isAbsolute_text h.bare
  | some scope => rfl

theorem PkgName.Plain.leadsTo {name : PkgName} (h : name.Plain) {dir : Text} {d : Loc}
    (hdir : LeadsTo dir d) : LeadsTo (join dir name.display) (d ++ name.loc) :=
  hdir.join h.isAbsolute_display h.body_display

/-- The location of a name does not lie below that of another. -/
theorem PkgName.eq_of_loc_nested {a b : PkgName} (ha : a.WellFormed) (hb : b.WellFormed)
    (h : a.loc <+: b.loc) : a = b := by
  obtain ⟨sa, ba⟩ := a
  obtain ⟨sb, bb⟩ := b
  cases sa with
  | none =>
      obtain ⟨x, rest, hx, hne⟩ := ha
      simp only at hx
      subst hx
      cases sb with
      | none =>
          obtain ⟨tail, htail⟩ := h
          simp only [PkgName.loc, List.cons_append, List.nil_append, List.cons.injEq] at htail
          rw [htail.1]
      | some sb =>
          obtain ⟨tail, htail⟩ := h
          simp only [PkgName.loc, List.cons_append, List.nil_append, List.cons.injEq] at htail
          exact absurd htail.1.1 hne
  | some sa =>
      cases sb with
      | none =>
          have hlen := h.length_le
          simp [PkgName.loc] at hlen
      | some sb =>
          obtain ⟨tail, htail⟩ := h
          simp only [PkgName.loc, List.cons_append, List.nil_append, List.cons.injEq] at htail
          rw [htail.1.2, htail.2.1]

/-- The first name of a location starts with `@`, or is the whole text. -/
theorem PkgName.head_loc {name : PkgName} {first : Text} {rest : Loc}
    (h : name.loc = first :: rest) :
    first.head? = some '@' ∧ rest ≠ [] ∨ name.display = first ∧ rest = [] := by
  obtain ⟨scope, bare⟩ := name
  cases scope with
  | none =>
      simp only [PkgName.loc, List.cons.injEq] at h
      exact Or.inr ⟨h.1, h.2.symm⟩
  | some scope =>
      simp only [PkgName.loc, List.cons.injEq] at h
      refine Or.inl ⟨by rw [← h.1]; rfl, by rw [← h.2]; simp⟩

variable {V : Type} [NodeSemver V]

/-- The store name of a plain name is one plain component. -/
theorem plain_storeName [PlainSemver V] {name : PkgName} (h : name.Plain)
    (verPeer : PkgVerPeer V) :
    (Component.normal (PkgNameVerPeer.toVirtualStoreNameFromParts name verPeer)).Plain := by
  have hver : '/' ∉ NodeSemver.display verPeer.version := fun hmem =>
    (PlainSemver.plain verPeer.version '/' hmem).2.2.1 rfl
  have hpeer : '/' ∉ verPeer.peer.flatMap peerSign := by
    intro hmem
    obtain ⟨c, -, hc⟩ := List.mem_flatMap.mp hmem
    unfold peerSign at hc
    split_ifs at hc with h₁ h₂ h₃
    · simp at hc
    · simp at hc
    · simp at hc
    · exact h₁ (List.mem_singleton.mp hc).symm
  have hname : '/' ∉ pushVirtualStoreName [] name := by
    obtain ⟨scope, bare⟩ := name
    cases scope with
    | none => simpa [pushVirtualStoreName] using h.bare.1
    | some scope =>
        have hs : '/' ∉ scope := h.wellFormed
        simpa [pushVirtualStoreName] using ⟨hs, h.bare.1⟩
  have heq := toVirtualStoreName_eq (⟨name, verPeer⟩ : PkgNameVerPeer V)
  rw [PkgNameVerPeer.toVirtualStoreName] at heq
  simp only at heq
  rw [heq]
  refine plain_of_at ?_ (by simp)
  simp only [List.mem_append, List.mem_cons, not_or]
  exact ⟨hname, by decide, hver, hpeer⟩

def nodeModulesName : Text := "node_modules".toList

/-- The location of `{store name}/node_modules` in the virtual store. -/
def storeLoc (v : Loc) (storeName : Text) : Loc := v ++ [storeName, nodeModulesName]

theorem leadsTo_nodeModulesOf {dir storeName : Text} {v : Loc} (hdir : LeadsTo dir v)
    (hname : (Component.normal storeName).Plain) :
    LeadsTo (nodeModulesOf dir storeName) (storeLoc v storeName) := by
  have hfirst := hdir.join (isAbsolute_text hname) (body_text hname) (r := [storeName])
  have hsecond : LeadsTo (join (join dir storeName) nodeModulesName)
      (v ++ [storeName] ++ [nodeModulesName]) := hfirst.join (by decide) (by decide)
  rw [List.append_assoc] at hsecond
  exact hsecond

/-- The location of a name in the `node_modules` directory of a package. -/
def entryLoc (v : Loc) (path : DependencyPath V) (name : PkgName) : Loc :=
  storeLoc v path.packageSpecifier.toVirtualStoreName ++ name.loc

theorem exists_concat {q : Loc} (hq : q ≠ []) : ∃ d name, q = d ++ [name] := by
  obtain ⟨d, name, hcat⟩ := (List.eq_nil_or_concat q).resolve_left hq
  exact ⟨d, name, by rw [hcat, List.concat_eq_append]⟩

theorem exists_entryLoc_concat (v : Loc) (path : DependencyPath V) (name : PkgName) :
    ∃ d last, entryLoc v path name = d ++ [last] :=
  exists_concat (by simp [entryLoc, storeLoc])

/-- The location of the files of a package. -/
def ownLoc (v : Loc) (path : DependencyPath V) : Loc :=
  entryLoc v path path.packageSpecifier.name

theorem prefix_storeLoc (v : Loc) (storeName : Text) : v <+: storeLoc v storeName :=
  List.prefix_append ..

theorem prefix_entryLoc (v : Loc) (path : DependencyPath V) (name : PkgName) :
    v <+: entryLoc v path name :=
  (prefix_storeLoc v _).trans (List.prefix_append ..)

/-- Of two names of `node_modules` directories one is below the other only when
the directories and the names agree. -/
theorem storeLoc_nested {v : Loc} {s s' : Text} {a b : PkgName} (ha : a.WellFormed)
    (hb : b.WellFormed) (h : storeLoc v s ++ a.loc <+: storeLoc v s' ++ b.loc) :
    s = s' ∧ a = b := by
  unfold storeLoc at h
  rw [List.append_assoc, List.append_assoc, List.prefix_append_right_inj] at h
  simp only [List.cons_append, List.nil_append, List.cons_prefix_cons, true_and] at h
  exact ⟨h.1, PkgName.eq_of_loc_nested ha hb h.2⟩

theorem entryLoc_nested {v : Loc} {path path' : DependencyPath V} {a b : PkgName}
    (ha : a.WellFormed) (hb : b.WellFormed)
    (h : entryLoc v path a <+: entryLoc v path' b) :
    path.packageSpecifier.toVirtualStoreName = path'.packageSpecifier.toVirtualStoreName ∧
      a = b :=
  storeLoc_nested ha hb h

end Names

section Layout

variable {V I : Type} [NodeSemver V]

/-- The settings and names of a frozen install whose places in the virtual store
and in the modules directory keep clear of each other: the virtual store may lie
below a hidden entry of the modules directory that no direct dependency has the
name of, and not the other way round. -/
structure Layout (config : Npmrc) (entries : List (DependencyPath V × PackageSnapshot V I))
    (direct : List (PkgName × ResolvedDependencySpec V)) (v m : Loc) : Prop where
  virtualStore : LeadsTo config.virtualStoreDir v
  modules : LeadsTo config.modulesDir m
  outside : ¬ v <+: m
  hidden : ∀ name rest, v = m ++ name :: rest →
    name.head? = some '.' ∧ ∀ d ∈ direct, d.1.display ≠ name
  packageNames : ∀ e ∈ entries, e.1.packageSpecifier.name.Plain
  dependencyNames : ∀ e ∈ entries, ∀ d ∈ linkedDependencies e.2, d.1.Plain
  directNames : ∀ d ∈ direct, d.1.Plain

/-- The steps of a frozen install. -/
inductive LayoutStep (config : Npmrc) (entries : List (DependencyPath V × PackageSnapshot V I))
    (direct : List (PkgName × ResolvedDependencySpec V)) (schedule : Schedule V I) :
    InstallStep → Prop
  | nodeModules (e) (he : e ∈ entries) :
      LayoutStep config entries direct schedule
        (.nodeModules (virtualNodeModulesDir config e.1))
  | packageImport (e) (he : e ∈ entries) :
      LayoutStep config entries direct schedule
        (packageImport config (schedule.casPaths config e) e.1)
  | dependencyLink (e) (he : e ∈ entries) (d) (hd : d ∈ linkedDependencies e.2) :
      LayoutStep config entries direct schedule (dependencyLink config e.1 d)
  | syncLinks :
      LayoutStep config entries direct schedule
        (.syncLinks config.modulesDir (direct.map fun d => d.1.display))
  | directLink (d) (hd : d ∈ direct) :
      LayoutStep config entries direct schedule (directLink config d)

variable {config : Npmrc} {entries : List (DependencyPath V × PackageSnapshot V I)}
  {direct : List (PkgName × ResolvedDependencySpec V)} {schedule : Schedule V I} {v m : Loc}

theorem layoutStep_of_mem {step : InstallStep}
    (h : step ∈ installSteps config entries direct schedule) :
    LayoutStep config entries direct schedule step := by
  rcases List.mem_append.mp h with hstore | hdirect
  · obtain ⟨e, he, hstep⟩ := List.mem_flatMap.mp hstore
    have hmem : e ∈ entries := (schedule.perm entries).mem_iff.mp he
    simp only [packageSteps, List.mem_cons, List.mem_map] at hstep
    rcases hstep with rfl | rfl | ⟨d, hd, rfl⟩
    · exact .nodeModules e hmem
    · exact .packageImport e hmem
    · exact .dependencyLink e hmem d hd
  · simp only [directSteps, List.mem_cons, List.mem_map] at hdirect
    rcases hdirect with rfl | ⟨d, hd, rfl⟩
    · exact .syncLinks
    · exact .directLink d hd

theorem packageSteps_subset {e : DependencyPath V × PackageSnapshot V I}
    (he : e ∈ entries) {step : InstallStep}
    (h : step ∈ packageSteps config schedule e) : step ∈ storeSteps config entries schedule :=
  List.mem_flatMap.mpr ⟨e, (schedule.perm entries).mem_iff.mpr he, h⟩

theorem packageImport_mem {e : DependencyPath V × PackageSnapshot V I}
    (he : e ∈ entries) :
    packageImport config (schedule.casPaths config e) e.1 ∈
      storeSteps config entries schedule :=
  packageSteps_subset he (by simp [packageSteps])

theorem dependencyLink_mem {e : DependencyPath V × PackageSnapshot V I}
    (he : e ∈ entries) {d : PkgName × PackageSnapshotDependency V}
    (hd : d ∈ linkedDependencies e.2) :
    dependencyLink config e.1 d ∈ storeSteps config entries schedule := by
  apply packageSteps_subset he
  simp only [packageSteps, List.mem_cons, List.mem_map]
  exact Or.inr (Or.inr ⟨d, hd, rfl⟩)

section Locations

variable [PlainSemver V] (h : Layout config entries direct v m)
include h

theorem Layout.leadsTo_nodeModules {e : DependencyPath V × PackageSnapshot V I}
    (he : e ∈ entries) :
    LeadsTo (virtualNodeModulesDir config e.1)
      (storeLoc v e.1.packageSpecifier.toVirtualStoreName) :=
  leadsTo_nodeModulesOf h.virtualStore (plain_storeName (h.packageNames e he) _)

theorem Layout.leadsTo_entry {e : DependencyPath V × PackageSnapshot V I}
    (he : e ∈ entries) {name : PkgName} (hname : name.Plain) :
    LeadsTo (join (virtualNodeModulesDir config e.1) name.display) (entryLoc v e.1 name) :=
  hname.leadsTo (h.leadsTo_nodeModules he)

theorem Layout.leadsTo_savePath {e : DependencyPath V × PackageSnapshot V I}
    (he : e ∈ entries) : LeadsTo (savePath config e.1) (ownLoc v e.1) :=
  h.leadsTo_entry he (h.packageNames e he)

omit [NodeSemver V] [PlainSemver V] in
theorem Layout.leadsTo_direct {d : PkgName × ResolvedDependencySpec V} (hd : d ∈ direct) :
    LeadsTo (join config.modulesDir d.1.display) (m ++ d.1.loc) :=
  (h.directNames d hd).leadsTo h.modules

omit [NodeSemver V] [PlainSemver V] in
/-- A common location of the modules directory and the virtual store lies below
the hidden entry. -/
theorem Layout.hidden_of_common {q : Loc} (hm : m <+: q) (hv : v <+: q) :
    ∃ name rest, v = m ++ name :: rest := by
  rcases List.prefix_or_prefix_of_prefix hm hv with hmv | hvm
  · obtain ⟨tail, htail⟩ := hmv
    cases tail with
    | nil =>
        rw [List.append_nil] at htail
        exact absurd (htail ▸ List.prefix_rfl) h.outside
    | cons name rest => exact ⟨name, rest, htail.symm⟩
  · exact absurd hvm h.outside

omit [NodeSemver V] [PlainSemver V] in
/-- The synchronisation does not reach the virtual store. -/
theorem Layout.not_syncZone {q : Loc} (hv : v <+: q) : ¬ SyncZone m q := by
  rintro ⟨name, rest, hname, rfl⟩
  obtain ⟨hidden, below, hvm⟩ := h.hidden_of_common (List.prefix_append m _) hv
  rw [hvm, List.prefix_append_right_inj, List.cons_prefix_cons] at hv
  exact hname (hv.1 ▸ (h.hidden hidden below hvm).1)

omit [NodeSemver V] [PlainSemver V] in
/-- Neither the virtual store nor the location of a direct dependency is below
the other. -/
theorem Layout.direct_apart {d : PkgName × ResolvedDependencySpec V} (hd : d ∈ direct) {q : Loc}
    (hv : v <+: q) (hq : m ++ d.1.loc <+: q ∨ q <+: m ++ d.1.loc) : False := by
  obtain ⟨first, rest, hloc⟩ := List.exists_cons_of_ne_nil d.1.loc_ne_nil
  have hnot : ∀ hidden below, v = m ++ hidden :: below → first ≠ hidden := by
    rintro hidden below hvm rfl
    obtain ⟨hdot, hnone⟩ := h.hidden first below hvm
    rcases d.1.head_loc hloc with ⟨hat, -⟩ | ⟨hdisplay, -⟩
    · rw [hdot] at hat
      cases hat
    · exact hnone d hd hdisplay
  rw [hloc] at hq
  rcases hq with hq | hq
  · obtain ⟨hidden, below, hvm⟩ :=
      h.hidden_of_common ((List.prefix_append m _).trans hq) hv
    rcases List.prefix_or_prefix_of_prefix hq hv with hp | hp
    · rw [hvm, List.prefix_append_right_inj, List.cons_prefix_cons] at hp
      exact hnot hidden below hvm hp.1
    · rw [hvm, List.prefix_append_right_inj, List.cons_prefix_cons] at hp
      exact hnot hidden below hvm hp.1.symm
  · have hp := hv.trans hq
    obtain ⟨hidden, below, hvm⟩ := h.hidden_of_common (List.prefix_append m _) hp
    rw [hvm, List.prefix_append_right_inj, List.cons_prefix_cons] at hp
    exact hnot hidden below hvm hp.1.symm

end Locations

section Order

/-- The locations that the steps pass on their way. -/
inductive Way (entries : List (DependencyPath V × PackageSnapshot V I))
    (direct : List (PkgName × ResolvedDependencySpec V)) (v m : Loc) : Loc → Prop
  | nodeModules (q) (e) (he : e ∈ entries)
      (hq : q <+: storeLoc v e.1.packageSpecifier.toVirtualStoreName) : Way entries direct v m q
  | entry (q) (e) (he : e ∈ entries) (name : PkgName) (hname : name.WellFormed)
      (hq : q <+: entryLoc v e.1 name) (hne : q ≠ entryLoc v e.1 name) : Way entries direct v m q
  | modules (q) (hq : q <+: m) : Way entries direct v m q
  | scope (name : Text) (hname : name.head? = some '@') : Way entries direct v m (m ++ [name])
  | direct (q) (d) (hd : d ∈ direct) (hq : q <+: m ++ d.1.loc) (hne : q ≠ m ++ d.1.loc) :
      Way entries direct v m q

variable [PlainSemver V] (h : Layout config entries direct v m)
include h

theorem Layout.way_of_guards {step : InstallStep}
    (hstep : LayoutStep config entries direct schedule step) {q : Loc}
    (hq : step.Guards q) : Way entries direct v m q := by
  cases hstep with
  | nodeModules e he =>
      obtain ⟨r, hr, hq⟩ := hq
      rw [hr.unique (h.leadsTo_nodeModules he)] at hq
      exact .nodeModules q e he hq
  | packageImport e he =>
      obtain ⟨r, hr, hq, hne⟩ := hq
      rw [hr.unique (h.leadsTo_savePath he)] at hq hne
      exact .entry q e he _ (h.packageNames e he).wellFormed hq hne
  | dependencyLink e he d hd =>
      have hname := h.dependencyNames e he d hd
      obtain ⟨r, hr, hq, hne⟩ := hq
      rw [hr.unique (h.leadsTo_entry he hname)] at hq hne
      exact .entry q e he _ hname.wellFormed hq hne
  | syncLinks =>
      obtain ⟨r, hr, hq⟩ := hq
      rw [hr.unique h.modules] at hq
      rcases hq with hq | ⟨name, hname, rfl⟩
      · exact .modules q hq
      · exact .scope name hname
  | directLink d hd =>
      obtain ⟨r, hr, hq, hne⟩ := hq
      rw [hr.unique (h.leadsTo_direct hd)] at hq hne
      exact .direct q d hd hq hne

omit [PlainSemver V] in
/-- The link of a dependency is on the way of no step. -/
theorem Layout.entry_not_way {path : DependencyPath V} {name : PkgName}
    (hname : name.WellFormed) : ¬ Way entries direct v m (entryLoc v path name) := by
  intro hway
  have hv := prefix_entryLoc v path name
  generalize hq : entryLoc v path name = q at hway hv
  cases hway with
  | nodeModules q e he hp =>
      rw [← hq] at hp
      have hlen := hp.length_le
      have hpos := List.length_pos_iff.mpr name.loc_ne_nil
      simp only [entryLoc, storeLoc, List.length_append, List.length_cons,
        List.length_nil] at hlen
      omega
  | entry q e he other hother hp hne =>
      rw [← hq] at hp hne
      obtain ⟨hstore, rfl⟩ := entryLoc_nested hname hother hp
      exact hne (by rw [entryLoc, entryLoc, hstore])
  | modules q hp => exact h.outside (hv.trans hp)
  | scope other hother =>
      refine h.not_syncZone hv ⟨other, [], ?_, rfl⟩
      rw [hother]
      decide
  | direct q d hd hp _ => exact h.direct_apart hd hv (Or.inr hp)

omit [PlainSemver V] in
/-- The link of a direct dependency is on the way of no step. -/
theorem Layout.direct_not_way {d : PkgName × ResolvedDependencySpec V} (hd : d ∈ direct) :
    ¬ Way entries direct v m (m ++ d.1.loc) := by
  intro hway
  generalize hq : m ++ d.1.loc = q at hway
  cases hway with
  | nodeModules q e he hp =>
      exact h.direct_apart hd (prefix_storeLoc v _) (Or.inl (hq ▸ hp))
  | entry q e he other _ hp _ =>
      exact h.direct_apart hd (prefix_entryLoc v e.1 other) (Or.inl (hq ▸ hp))
  | modules q hp =>
      rw [← hq] at hp
      have hlen := hp.length_le
      have hpos := List.length_pos_iff.mpr d.1.loc_ne_nil
      rw [List.length_append] at hlen
      omega
  | scope other hother =>
      have hloc := List.append_cancel_left hq
      rcases d.1.head_loc hloc with ⟨-, hrest⟩ | ⟨hdisplay, -⟩
      · exact hrest rfl
      · have hwf := (h.directNames d hd).wellFormed
        obtain ⟨⟨scope, bare⟩, spec⟩ := d
        cases scope with
        | none =>
            obtain ⟨x, rest, hbare, hx⟩ := hwf
            simp only [PkgName.display] at hdisplay hbare
            rw [← hdisplay, hbare] at hother
            exact hx (Option.some.inj hother)
        | some scope => simp [PkgName.loc] at hloc
  | direct q d' hd' hp hne =>
      rw [← hq] at hp hne
      rw [List.prefix_append_right_inj] at hp
      have hname := PkgName.eq_of_loc_nested (h.directNames d hd).wellFormed
        (h.directNames d' hd').wellFormed hp
      exact hne (by rw [hname])

/-- The steps of a frozen install leave each other's ways alone. -/
theorem Layout.orderly (schedule : Schedule V I) :
    Orderly (installSteps config entries direct schedule) := by
  constructor
  · intro step hstep
    cases layoutStep_of_mem hstep with
    | nodeModules e he => exact ⟨_, h.leadsTo_nodeModules he⟩
    | packageImport e he =>
        obtain ⟨d, name, hq⟩ := exists_entryLoc_concat v e.1 e.1.packageSpecifier.name
        exact ⟨d, name, hq ▸ h.leadsTo_savePath he⟩
    | dependencyLink e he d hd =>
        obtain ⟨d', name, hq⟩ := exists_entryLoc_concat v e.1 d.1
        exact ⟨d', name, hq ▸ h.leadsTo_entry he (h.dependencyNames e he d hd)⟩
    | syncLinks => exact ⟨_, h.modules⟩
    | directLink d hd =>
        obtain ⟨d', name, hq⟩ := exists_concat (q := m ++ d.1.loc) (by simp [d.1.loc_ne_nil])
        exact ⟨d', name, hq ▸ h.leadsTo_direct hd⟩
  · intro step hstep other hother q target hlinks hguards
    have hway := h.way_of_guards (layoutStep_of_mem hother) hguards
    cases layoutStep_of_mem hstep with
    | nodeModules e he => exact hlinks
    | packageImport e he => exact hlinks
    | dependencyLink e he d hd =>
        have hname := h.dependencyNames e he d hd
        rw [hlinks.1.unique (h.leadsTo_entry he hname)] at hway
        exact h.entry_not_way hname.wellFormed hway
    | syncLinks => exact hlinks
    | directLink d hd =>
        rw [hlinks.1.unique (h.leadsTo_direct hd)] at hway
        exact h.direct_not_way hd hway

/-- In the virtual store only the link of a dependency clears anything. -/
theorem Layout.dependencyLink_of_clears {step : InstallStep}
    (hstep : LayoutStep config entries direct schedule step) {q : Loc} (hv : v <+: q)
    (hclears : step.Clears q) :
    ∃ e ∈ entries, ∃ d ∈ linkedDependencies e.2,
      step = dependencyLink config e.1 d ∧ entryLoc v e.1 d.1 <+: q := by
  cases hstep with
  | nodeModules e he => exact hclears.elim
  | packageImport e he => exact hclears.elim
  | dependencyLink e he d hd =>
      obtain ⟨r, hr, hq⟩ := hclears
      rw [hr.unique (h.leadsTo_entry he (h.dependencyNames e he d hd))] at hq
      exact ⟨e, he, d, hd, rfl, hq⟩
  | syncLinks =>
      obtain ⟨r, hr, hzone⟩ := hclears
      rw [hr.unique h.modules] at hzone
      exact absurd hzone (h.not_syncZone hv)
  | directLink d hd =>
      obtain ⟨r, hr, hq⟩ := hclears
      rw [hr.unique (h.leadsTo_direct hd)] at hq
      exact (h.direct_apart hd hv (Or.inl hq)).elim

end Order

end Layout

end Npnpm
