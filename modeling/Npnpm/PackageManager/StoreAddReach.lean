import Npnpm.Library.DepthFirst
import Npnpm.PackageManager.ProjectPlaces
import Npnpm.PackageManager.StoreAdd

/-!
# What is added to the store

The versions whose tarball step is run are those that the requested packages lead to,
each of them once. Marks are store names, and these tell versions apart as long as the
names of packages are valid for npm.

## Implementation notes

The graph has no labels. Two versions count as one when they have one store name.
-/

namespace Npnpm

open DepthFirst

section Names

/-- A name that npm accepts has neither `@` nor `+` in its parts. -/
structure PkgName.NpmValid (name : PkgName) : Prop where
  visible : name.Visible
  noAt : name.NoAt
  bareNoPlus : '+' ∉ name.bare
  scopeNoPlus : ∀ scope, name.scope = some scope → '+' ∉ scope

theorem map_slash_eq_self {s : Text} (h : '/' ∉ s) :
    s.map (fun c => if c = '/' then '+' else c) = s := by
  refine (List.map_congr_left fun c hc => ?_).trans (List.map_id s)
  refine if_neg fun hslash => h ?_
  rwa [← hslash]

theorem PkgName.NpmValid.map_display {name : PkgName} (h : name.NpmValid) :
    name.display.map (fun c => if c = '/' then '+' else c) = pushVirtualStoreName [] name := by
  have hbare : '/' ∉ name.bare := h.visible.plain.bare.1
  have hform := h.visible.plain.wellFormed
  obtain ⟨scope, bare⟩ := name
  cases scope with
  | none => exact map_slash_eq_self hbare
  | some scope =>
      have hscope : '/' ∉ scope := hform
      simp [PkgName.display, pushVirtualStoreName, map_slash_eq_self hbare,
        map_slash_eq_self hscope]

/-- Alike names without `+` are one name. -/
theorem NameAlike.eq {a b : PkgName} (h : NameAlike a b) (ha : a.NpmValid) (hb : b.NpmValid) :
    a = b := by
  cases h with
  | same => rfl
  | longerLeft scope middle bare => exact absurd (by simp) (ha.scopeNoPlus _ rfl)
  | longerRight scope middle bare => exact absurd (by simp) (hb.scopeNoPlus _ rfl)

variable {V I : Type} [NodeSemver V]

def PackageVersion.HasNpmName (p : PackageVersion V I) : Prop :=
  ∃ name : PkgName, name.NpmValid ∧ p.name = name.display

/-- A store name tells the name and the version of a package. -/
theorem PackageVersion.toVirtualStoreName_inj {p q : PackageVersion V I} (hp : p.HasNpmName)
    (hq : q.HasNpmName) (h : p.toVirtualStoreName = q.toVirtualStoreName) :
    p.name = q.name ∧ NodeSemver.display p.version = NodeSemver.display q.version := by
  obtain ⟨a, ha, hpa⟩ := hp
  obtain ⟨b, hb, hqb⟩ := hq
  unfold PackageVersion.toVirtualStoreName at h
  rw [hpa, hqb, ha.map_display, hb.map_display,
    pushVirtualStoreName_append_inj ha.visible.plain.wellFormed hb.visible.plain.wellFormed
      ha.noAt hb.noAt] at h
  obtain ⟨halike, hversion⟩ := h
  rw [hpa, hqb, halike.eq ha hb]
  exact ⟨rfl, hversion⟩

/-- All names of the registry are valid for npm. -/
def Registry.NpmNames (registry : Registry V I) : Prop := ∀ p ∈ registry.versions, p.HasNpmName

/-- A name and a version make out one version of the registry. -/
def Registry.VersionsDistinct (registry : Registry V I) : Prop :=
  ∀ p ∈ registry.versions, ∀ q ∈ registry.versions, p.name = q.name →
    NodeSemver.display p.version = NodeSemver.display q.version → p = q

end Names

section Walk

variable {V I B : Type} [NodeSemver V] [SemverRange V]

/-- Each version leads to those that its dependencies resolve to. -/
def StoreAdder.graph (adder : StoreAdder V I B) : Graph (PackageVersion V I) Unit Unit where
  edges p := (p.dependenciesWith adder.config.autoInstallPeers).filterMap fun d =>
    (adder.registry.resolve d.1 d.2).toOption.map fun q => ((), q)
  label _ _ := ()
  same p q := p = q ∨ p ∈ adder.registry.versions ∧ q ∈ adder.registry.versions ∧
    p.toVirtualStoreName = q.toVirtualStoreName

/-- Where names are valid and versions distinct, only a version itself counts as it. -/
theorem StoreAdder.same_iff {adder : StoreAdder V I B} (hnames : adder.registry.NpmNames)
    (hversions : adder.registry.VersionsDistinct) (p q : PackageVersion V I) :
    adder.graph.same p q ↔ p = q := by
  refine ⟨?_, Or.inl⟩
  rintro (hpq | ⟨hp, hq, hstore⟩)
  · exact hpq
  · obtain ⟨hname, hversion⟩ :=
      PackageVersion.toVirtualStoreName_inj (hnames p hp) (hnames q hq) hstore
    exact hversions p hp q hq hname hversion

/-- The marks are the store names of the seen versions. -/
structure Marks (adder : StoreAdder V I B) (s : StoreAddState V I B)
    (seen : List (PackageVersion V I)) : Prop where
  names : ∀ name, name ∈ s.resolvedPackages ↔ ∃ p ∈ seen, p.toVirtualStoreName = name
  known : ∀ p ∈ seen, p ∈ adder.registry.versions

variable {adder : StoreAdder V I B} {s s' : StoreAddState V I B} {package : PackageVersion V I}
  {seen : List (PackageVersion V I)} {fuel : Nat}

omit [SemverRange V] in
theorem Marks.congr {seen' : List (PackageVersion V I)} (h : Marks adder s seen)
    (hseen : ∀ p, p ∈ seen ↔ p ∈ seen') : Marks adder s seen' where
  names name := by simp only [h.names, hseen]
  known p hp := h.known p ((hseen p).mpr hp)

omit [SemverRange V] in
theorem Marks.store (h : Marks adder s seen) (hknown : package ∈ adder.registry.versions)
    (tarballs : TarballState B) : Marks adder (s.store package tarballs) (package :: seen) where
  names name := by
    simp only [StoreAddState.store, List.mem_cons, h.names, exists_eq_or_imp]
    exact or_congr_left eq_comm
  known p hp := by
    rcases List.mem_cons.mp hp with rfl | hp
    · exact hknown
    · exact h.known p hp

/-- A version is marked exactly when it counts as a seen one. -/
theorem Marks.exists_same_iff (h : Marks adder s seen)
    (hknown : package ∈ adder.registry.versions) :
    (∃ q ∈ seen, adder.graph.same q package) ↔ package.toVirtualStoreName ∈ s.resolvedPackages := by
  rw [h.names]
  constructor
  · rintro ⟨q, hq, rfl | ⟨-, -, hstore⟩⟩
    · exact ⟨q, hq, rfl⟩
    · exact ⟨q, hq, hstore⟩
  · rintro ⟨q, hq, hstore⟩
    exact ⟨q, hq, Or.inr ⟨h.known q hq, hknown, hstore⟩⟩

theorem StoreAdder.filterMap_of_resolveAll {entries : List (Text × Text)}
    {packages : List (PackageVersion V I)} (h : adder.resolveAll entries = .ok packages) :
    (entries.filterMap fun d => (adder.registry.resolve d.1 d.2).toOption.map fun q => ((), q)) =
      packages.map fun q => ((), q) := by
  have hall := (Results.mapM_ok_iff _ _ _).mp h
  clear h
  induction hall with
  | nil => rfl
  | @cons d q entries packages hd _ ih =>
      rw [List.filterMap_cons_some (b := ((), q)) (by rw [Results.mapError_ok hd]; rfl), ih,
        List.map_cons]

/-- The part of a walk that a loop makes, with what it adds to the store. -/
def StoreAdder.Walks (adder : StoreAdder V I B) (s : StoreAddState V I B)
    (seen packages : List (PackageVersion V I)) (s' : StoreAddState V I B) : Prop :=
  ∃ visits found, Walk adder.graph seen (packages.map fun q => ((), q)) visits found ∧
    Marks adder s' (found.map Prod.snd ++ seen) ∧ s'.stored = s.stored ++ found.map Prod.snd

/-- A loop whose rounds are walks is a walk. -/
theorem walks_foldlM
    {step : StoreAddState V I B → PackageVersion V I → Except StoreAddStop (StoreAddState V I B)}
    (hstep : ∀ {s s' package seen}, step s package = .ok s' → Marks adder s seen →
      package ∈ adder.registry.versions → adder.Walks s seen [package] s')
    {packages : List (PackageVersion V I)} (h : packages.foldlM step s = .ok s')
    (hmarks : Marks adder s seen) (hknown : ∀ p ∈ packages, p ∈ adder.registry.versions) :
    adder.Walks s seen packages s' := by
  induction packages generalizing s seen with
  | nil =>
      cases h
      exact ⟨[], [], .nil, hmarks, by simp⟩
  | cons p rest ih =>
      rw [List.foldlM_cons] at h
      obtain ⟨s₁, h₁, h⟩ := Results.bind_ok h
      obtain ⟨v₁, f₁, hwalk₁, hmarks₁, hstored₁⟩ := hstep h₁ hmarks (hknown p List.mem_cons_self)
      obtain ⟨v₂, f₂, hwalk₂, hmarks₂, hstored₂⟩ := ih h hmarks₁
        fun q hq => hknown q (List.mem_cons_of_mem _ hq)
      refine ⟨v₁ ++ v₂, f₁ ++ f₂, hwalk₁.append hwalk₂, hmarks₂.congr fun q => ?_, ?_⟩
      · simp only [List.map_append, List.mem_append]
        tauto
      · rw [hstored₂, hstored₁, List.map_append, List.append_assoc]

variable [TarballLibs I B]

theorem StoreAdder.storePackageAndDependencies_walks
    (h : adder.storePackageAndDependencies fuel s package = .ok s') (hmarks : Marks adder s seen)
    (hknown : package ∈ adder.registry.versions) : adder.Walks s seen [package] s' := by
  induction fuel generalizing s s' package seen with
  | zero => cases h
  | succ fuel ih =>
      obtain ⟨hmarked, rfl⟩ | ⟨hnew, tarballs, dependencies, -, hresolve, hbelow⟩ :=
        StoreAdder.storePackageAndDependencies_ok h
      · have hseen := (hmarks.exists_same_iff hknown).mpr hmarked
        exact ⟨_, _, .again hseen .nil, hmarks, by simp⟩
      · have hfresh : ∀ q ∈ seen, ¬ adder.graph.same q package := fun q hq hsame =>
          hnew ((hmarks.exists_same_iff hknown).mp ⟨q, hq, hsame⟩)
        obtain ⟨v, f, hwalk, hmarks', hstored⟩ := walks_foldlM ih hbelow (hmarks.store hknown _)
          (StoreAdder.mem_of_resolveAll hresolve)
        have hsuccessors : adder.graph.successors ((), package) =
            dependencies.map fun q => ((), q) := by
          rw [← StoreAdder.filterMap_of_resolveAll hresolve]
          exact List.map_id _
        refine ⟨_, _, .fresh hfresh (hsuccessors ▸ hwalk) .nil, hmarks'.congr fun q => ?_, ?_⟩
        · simp only [List.append_nil, List.map_cons, List.cons_append, List.mem_append,
            List.mem_cons]
          tauto
        · rw [hstored, StoreAddState.store]
          simp

end Walk

section Reachable

variable {V I B : Type} [NodeSemver V] [SemverRange V]

/-- A version that the requested packages lead to. -/
inductive StoreAdd.Reachable (add : StoreAdd V I B) : PackageVersion V I → Prop
  | requested {package p} (h : package ∈ add.packages)
      (hresolve : add.registry.resolve (requestedEntry package).1 (requestedEntry package).2 =
        .ok p) : Reachable add p
  | dependency {p name versionRange q} (h : Reachable add p)
      (hentry : (name, versionRange) ∈ p.dependenciesWith add.config.autoInstallPeers)
      (hresolve : add.registry.resolve name versionRange = .ok q) : Reachable add q

variable {add : StoreAdd V I B} {roots : List (PackageVersion V I)}

theorem StoreAdder.mem_successors {adder : StoreAdder V I B} {p q : PackageVersion V I} :
    ((), q) ∈ adder.graph.successors ((), p) ↔ ∃ name versionRange,
      (name, versionRange) ∈ p.dependenciesWith adder.config.autoInstallPeers ∧
      adder.registry.resolve name versionRange = .ok q := by
  simp only [Graph.successors, StoreAdder.graph, List.mem_map, List.mem_filterMap, Prod.exists,
    Option.map_eq_some_iff]
  constructor
  · rintro ⟨_, q', ⟨name, versionRange, hentry, p', hresolve, heq⟩, hq⟩
    cases heq
    cases hq
    exact ⟨name, versionRange, hentry, Results.toOption_eq_some hresolve⟩
  · rintro ⟨name, versionRange, hentry, hresolve⟩
    exact ⟨(), q, ⟨name, versionRange, hentry, q, by rw [hresolve]; rfl, rfl⟩, rfl⟩

theorem StoreAdd.reachable_iff_way
    (hroots : add.adder.resolveAll (add.packages.map requestedEntry) = .ok roots)
    (p : PackageVersion V I) :
    add.Reachable p ↔ DepthFirst.Way add.adder.graph (roots.map fun q => ((), q)) ((), p) := by
  constructor
  · intro h
    induction h with
    | @requested package p hpackage hresolve =>
        obtain ⟨q, hq, hround⟩ := Results.exists_mem_of_mapM hroots
          (List.mem_map.mpr ⟨package, hpackage, rfl⟩)
        have hsame : p = q := Except.ok.inj (hresolve.symm.trans (Results.mapError_ok hround))
        exact .start (List.mem_map.mpr ⟨q, hq, by rw [hsame]⟩)
    | dependency _ hentry hresolve ih =>
        exact ih.step (StoreAdder.mem_successors.mpr ⟨_, _, hentry, hresolve⟩)
  · intro h
    generalize ha : ((), p) = a at h
    induction h generalizing p with
    | start hstart =>
        subst ha
        obtain ⟨q, hq, heq⟩ := List.mem_map.mp hstart
        cases heq
        obtain ⟨d, hd, hround⟩ := Results.exists_of_mem_mapM hroots hq
        obtain ⟨package, hpackage, rfl⟩ := List.mem_map.mp hd
        exact .requested hpackage (Results.mapError_ok hround)
    | @step b c _ hc ih =>
        subst ha
        obtain ⟨name, versionRange, hentry, hresolve⟩ := StoreAdder.mem_successors.mp hc
        exact .dependency (ih b.2 rfl) hentry hresolve

variable [TarballLibs I B] {store : StoreFiles B} {s : StoreAddState V I B} {fuel : Nat}

/-- Some walk from the requested versions has found what is stored, in this order. -/
theorem StoreAdd.runWith_walk (h : add.runWith fuel store = .ok s) :
    ∃ roots visits found, add.adder.resolveAll (add.packages.map requestedEntry) = .ok roots ∧
      Walk add.adder.graph [] (roots.map fun q => ((), q)) visits found ∧
      (∀ p ∈ s.stored, p ∈ add.registry.versions) ∧ s.stored = found.map Prod.snd := by
  obtain ⟨roots, hroots, h⟩ := Results.bind_ok h
  have hstart : Marks add.adder ⟨[], ⟨fun _ => none, store⟩, []⟩ [] :=
    ⟨fun name => by simp, fun p hp => by cases hp⟩
  obtain ⟨visits, found, hwalk, hmarks, hstored⟩ := walks_foldlM
    (fun hround => StoreAdder.storePackageAndDependencies_walks hround) h hstart
    (StoreAdder.mem_of_resolveAll hroots)
  rw [List.nil_append] at hstored
  refine ⟨roots, visits, found, hroots, hwalk, fun p hp => hmarks.known p ?_, hstored⟩
  rw [List.append_nil, ← hstored]
  exact hp

/-- No name and version are stored twice. -/
theorem StoreAdd.stored_nodup (h : add.runWith fuel store = .ok s) :
    (s.stored.map fun p => (p.name, NodeSemver.display p.version)).Nodup := by
  obtain ⟨roots, visits, found, -, hwalk, hknown, hstored⟩ := StoreAdd.runWith_walk h
  have hpairs := hwalk.found_new.1
  rw [← hstored] at hpairs
  refine List.pairwise_map.mpr (hpairs.imp_of_mem fun {p q} hp hq hne heq => hne ?_)
  obtain ⟨hname, hversion⟩ := Prod.mk.inj heq
  refine Or.inr ⟨hknown p hp, hknown q hq, ?_⟩
  unfold PackageVersion.toVirtualStoreName
  rw [hname, hversion]

/-- What is stored is what the requested packages lead to. -/
theorem StoreAdd.mem_stored_iff (hnames : add.registry.NpmNames)
    (hversions : add.registry.VersionsDistinct) (h : add.runWith fuel store = .ok s)
    (p : PackageVersion V I) : p ∈ s.stored ↔ add.Reachable p := by
  obtain ⟨roots, visits, found, hroots, hwalk, -, hstored⟩ := StoreAdd.runWith_walk h
  have hsame : ∀ p q, add.adder.graph.same p q ↔ p = q := StoreAdder.same_iff hnames hversions
  rw [StoreAdd.reachable_iff_way hroots, hstored]
  have hfound := hwalk.found_iff_way hsame p
  constructor
  · intro hp
    obtain ⟨⟨_, q⟩, hq, rfl⟩ := List.mem_map.mp hp
    obtain ⟨_, hway⟩ := hfound.mp ⟨(), hq⟩
    exact hway
  · intro hway
    obtain ⟨_, hq⟩ := hfound.mpr ⟨(), hway⟩
    exact List.mem_map.mpr ⟨_, hq, rfl⟩

end Reachable

end Npnpm
