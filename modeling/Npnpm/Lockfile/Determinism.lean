import Npnpm.Library.OneWay
import Npnpm.Lockfile.RoundTrip
import Npnpm.Lockfile.CoreVersion

/-!
# Whether equal lockfiles are saved as equal texts

The maps of a lockfile are hash maps, and each is written in the order in which it
iterates. Two lockfiles are equal when their maps have equal entries, in whatever
order, and when their versions compare equal. A lockfile is saved in one way if and
only if none of its maps has two entries that are written differently and the
comparison of its versions ignores nothing that is displayed.

## Implementation notes

`dependenciesMeta` is a value of the YAML library, which compares it by a relation
of its own, the parameter `valueEq`. The text that the library makes of a tree is
the parameter `emit`.
-/

namespace Npnpm

open Npnpm.Serde

section Same

variable {V I : Type} [BEq V] (valueEq : Document → Document → Prop)

/-- The derived `PartialEq`. -/
def ResolvedDependencySpec.Same (a b : ResolvedDependencySpec V) : Prop :=
  a.specifier = b.specifier ∧ (a.version == b.version) = true

structure ProjectSnapshot.Same (a b : ProjectSnapshot V) : Prop where
  specifiers : Option.Rel (KeyedMap.Same (· = ·)) a.specifiers b.specifiers
  dependencies :
    Option.Rel (KeyedMap.Same ResolvedDependencySpec.Same) a.dependencies b.dependencies
  optionalDependencies : Option.Rel (KeyedMap.Same ResolvedDependencySpec.Same)
    a.optionalDependencies b.optionalDependencies
  devDependencies :
    Option.Rel (KeyedMap.Same ResolvedDependencySpec.Same) a.devDependencies b.devDependencies
  dependenciesMeta : Option.Rel valueEq a.dependenciesMeta b.dependenciesMeta
  publishDirectory : a.publishDirectory = b.publishDirectory

inductive RootProjectSnapshot.Same : RootProjectSnapshot V → RootProjectSnapshot V → Prop
  | multi {a b} (h : a.importers.Same (ProjectSnapshot.Same valueEq) b.importers) :
      Same (.multi a) (.multi b)
  | single {a b} (h : ProjectSnapshot.Same valueEq a b) : Same (.single a) (.single b)

inductive PackageSnapshotDependency.Same :
    PackageSnapshotDependency V → PackageSnapshotDependency V → Prop
  | pkgVerPeer {a b} (h : (a == b) = true) : Same (.pkgVerPeer a) (.pkgVerPeer b)
  | dependencyPath {a b} (h : (a == b) = true) : Same (.dependencyPath a) (.dependencyPath b)

/-- The fields that are no maps are compared as they are. -/
structure PackageSnapshot.Same (a b : PackageSnapshot V I) : Prop where
  engines : Option.Rel (KeyedMap.Same (· = ·)) a.engines b.engines
  peerDependencies :
    Option.Rel (KeyedMap.Same (· = ·)) a.peerDependencies b.peerDependencies
  peerDependenciesMeta :
    Option.Rel (KeyedMap.Same (· = ·)) a.peerDependenciesMeta b.peerDependenciesMeta
  dependencies : Option.Rel (KeyedMap.Same PackageSnapshotDependency.Same)
    a.dependencies b.dependencies
  optionalDependencies :
    Option.Rel (KeyedMap.Same (· = ·)) a.optionalDependencies b.optionalDependencies
  others : b = { a with
    engines := b.engines, peerDependencies := b.peerDependencies,
    peerDependenciesMeta := b.peerDependenciesMeta, dependencies := b.dependencies,
    optionalDependencies := b.optionalDependencies }

structure Lockfile.Same (a b : Lockfile V I) : Prop where
  overrides : Option.Rel (KeyedMap.Same (· = ·)) a.overrides b.overrides
  projectSnapshot : RootProjectSnapshot.Same valueEq a.projectSnapshot b.projectSnapshot
  packages : Option.Rel (KeyedMap.Same PackageSnapshot.Same) a.packages b.packages
  others : b = { a with
    overrides := b.overrides, projectSnapshot := b.projectSnapshot, packages := b.packages }

section Refl

variable [ReflBEq V] {valueEq}

theorem ResolvedDependencySpec.Same.refl (a : ResolvedDependencySpec V) : a.Same a :=
  ⟨rfl, BEq.rfl⟩

theorem ProjectSnapshot.Same.refl (hvalue : ∀ d, valueEq d d) (a : ProjectSnapshot V) :
    a.Same valueEq a where
  specifiers := optionRel_refl (KeyedMap.Same.refl fun _ => rfl) _
  dependencies := optionRel_refl (KeyedMap.Same.refl ResolvedDependencySpec.Same.refl) _
  optionalDependencies := optionRel_refl (KeyedMap.Same.refl ResolvedDependencySpec.Same.refl) _
  devDependencies := optionRel_refl (KeyedMap.Same.refl ResolvedDependencySpec.Same.refl) _
  dependenciesMeta := optionRel_refl hvalue _
  publishDirectory := rfl

theorem RootProjectSnapshot.Same.refl (hvalue : ∀ d, valueEq d d) (a : RootProjectSnapshot V) :
    a.Same valueEq a := by
  cases a with
  | multi a => exact .multi (KeyedMap.Same.refl (ProjectSnapshot.Same.refl hvalue) _)
  | single a => exact .single (ProjectSnapshot.Same.refl hvalue a)

theorem PackageSnapshotDependency.Same.refl (a : PackageSnapshotDependency V) : a.Same a := by
  cases a with
  | pkgVerPeer a => exact .pkgVerPeer BEq.rfl
  | dependencyPath a => exact .dependencyPath BEq.rfl

theorem PackageSnapshot.Same.refl (a : PackageSnapshot V I) : a.Same a where
  engines := optionRel_refl (KeyedMap.Same.refl fun _ => rfl) _
  peerDependencies := optionRel_refl (KeyedMap.Same.refl fun _ => rfl) _
  peerDependenciesMeta := optionRel_refl (KeyedMap.Same.refl fun _ => rfl) _
  dependencies := optionRel_refl (KeyedMap.Same.refl PackageSnapshotDependency.Same.refl) _
  optionalDependencies := optionRel_refl (KeyedMap.Same.refl fun _ => rfl) _
  others := rfl

theorem Lockfile.Same.refl (hvalue : ∀ d, valueEq d d) (a : Lockfile V I) :
    a.Same valueEq a where
  overrides := optionRel_refl (KeyedMap.Same.refl fun _ => rfl) _
  projectSnapshot := RootProjectSnapshot.Same.refl hvalue _
  packages := optionRel_refl (KeyedMap.Same.refl PackageSnapshot.Same.refl) _
  others := rfl

end Refl

end Same

section WrittenOnce

variable {V I : Type} [NodeSemver V] [BEq V] [SsriDisplay I]
variable (valueEq : Document → Document → Prop)

/-- The versions that compare equal to this one are displayed like it. -/
def PkgVerPeer.ShownWhole (version : PkgVerPeer V) : Prop :=
  ∀ other : PkgVerPeer V, (version == other) = true → other.display = version.display

def DependencyPath.ShownWhole (path : DependencyPath V) : Prop :=
  ∀ other : DependencyPath V, (path == other) = true → other.display = path.display

def PackageSnapshotDependency.ShownWhole : PackageSnapshotDependency V → Prop
  | .pkgVerPeer version => version.ShownWhole
  | .dependencyPath path => path.ShownWhole

structure ResolvedDependencyMap.WrittenOnce (m : ResolvedDependencyMap V) : Prop where
  versions : ∀ e ∈ m.entries, e.2.version.ShownWhole
  alike : m.Alike PkgName.encode ResolvedDependencySpec.encode

structure ProjectSnapshot.WrittenOnce (project : ProjectSnapshot V) : Prop where
  specifiers : ∀ m ∈ project.specifiers, m.entries.length ≤ 1
  dependencies : ∀ m ∈ project.dependencies, ResolvedDependencyMap.WrittenOnce m
  optionalDependencies :
    ∀ m ∈ project.optionalDependencies, ResolvedDependencyMap.WrittenOnce m
  devDependencies : ∀ m ∈ project.devDependencies, ResolvedDependencyMap.WrittenOnce m
  dependenciesMeta : ∀ d ∈ project.dependenciesMeta, ∀ d', valueEq d d' → d' = d

def RootProjectSnapshot.WrittenOnce : RootProjectSnapshot V → Prop
  | .multi snapshot => (∀ e ∈ snapshot.importers.entries, e.2.WrittenOnce valueEq) ∧
      snapshot.importers.entries.length ≤ 1
  | .single project => project.WrittenOnce valueEq

structure PackageSnapshot.WrittenOnce (snapshot : PackageSnapshot V I) : Prop where
  engines : ∀ m ∈ snapshot.engines, m.entries.length ≤ 1
  peerDependencies : ∀ m ∈ snapshot.peerDependencies, m.entries.length ≤ 1
  peerDependenciesMeta : ∀ m ∈ snapshot.peerDependenciesMeta, m.entries.length ≤ 1
  dependencies : ∀ m ∈ snapshot.dependencies, (∀ e ∈ m.entries, e.2.ShownWhole) ∧
    m.Alike PkgName.encode PackageSnapshotDependency.encode
  optionalDependencies : ∀ m ∈ snapshot.optionalDependencies, m.entries.length ≤ 1

/-- No map of the lockfile has two entries that are written differently, and its
versions are displayed like all that compare equal to them. -/
structure Lockfile.WrittenOnce (lockfile : Lockfile V I) : Prop where
  overrides : ∀ m ∈ lockfile.overrides, m.entries.length ≤ 1
  projectSnapshot : lockfile.projectSnapshot.WrittenOnce valueEq
  packages : ∀ m ∈ lockfile.packages,
    (∀ e ∈ m.entries, e.1.ShownWhole ∧ e.2.WrittenOnce) ∧
      m.Alike DependencyPath.encode PackageSnapshot.encode

end WrittenOnce

section Fields

variable {V I : Type} [NodeSemver V] [BEq V] [SsriDisplay I]
variable {valueEq : Document → Document → Prop}

omit [SsriDisplay I] in
theorem ResolvedDependencySpec.oneWay_iff {spec : ResolvedDependencySpec V} :
    OneWay ResolvedDependencySpec.Same ResolvedDependencySpec.encode spec ↔
      spec.version.ShownWhole := by
  have hnodup : (spec.toFields.map Prod.fst).Nodup := by
    rw [show spec.toFields.map Prod.fst = ["specifier".toList, "version".toList] from rfl]
    decide
  refine (oneWay_encodeFields_iff (fun _ _ => rfl) hnodup).trans ?_
  constructor
  · intro h other hother
    have heq := h ⟨spec.specifier, other⟩ ⟨rfl, hother⟩
    simpa [toFields, PkgVerPeer.encode, Document.str] using heq
  · rintro h ⟨specifier, other⟩ ⟨rfl, hother⟩
    simp [toFields, PkgVerPeer.encode, h other hother]

omit [SsriDisplay I] in
theorem PackageSnapshotDependency.oneWay_iff {d : PackageSnapshotDependency V} :
    OneWay PackageSnapshotDependency.Same PackageSnapshotDependency.encode d ↔
      d.ShownWhole := by
  cases d with
  | pkgVerPeer version =>
      constructor
      · intro h other hother
        simpa [encode, PkgVerPeer.encode, Document.str] using h _ (.pkgVerPeer hother)
      · rintro h _ (⟨hother⟩ | _)
        simp [encode, PkgVerPeer.encode, h _ hother]
  | dependencyPath path =>
      constructor
      · intro h other hother
        simpa [encode, DependencyPath.encode, Document.str] using h _ (.dependencyPath hother)
      · rintro h _ (_ | ⟨hother⟩)
        simp [encode, DependencyPath.encode, h _ hother]

variable [ReflBEq V]

theorem ResolvedDependencyMap.oneWay_iff (m : ResolvedDependencyMap V) :
    OneWay (KeyedMap.Same ResolvedDependencySpec.Same) ResolvedDependencyMap.encode m ↔
      ResolvedDependencyMap.WrittenOnce m := by
  apply (oneWay_encodeMap_iff_of_lawful ResolvedDependencySpec.Same.refl m).trans
  simp only [ResolvedDependencySpec.oneWay_iff]
  exact ⟨fun h => ⟨h.1, h.2⟩, fun h => ⟨h.versions, h.alike⟩⟩

theorem ProjectSnapshot.oneWay_toFields_iff (hvalue : ∀ d, valueEq d d)
    {project : ProjectSnapshot V} :
    OneWay (ProjectSnapshot.Same valueEq) ProjectSnapshot.toFields project ↔
      project.WrittenOnce valueEq := by
  have hrefl := ProjectSnapshot.Same.refl hvalue project
  constructor
  · intro h
    have hspecifiers : OneWay (Option.Rel (KeyedMap.Same (· = ·)))
        (Option.map (encodeMap Document.str Document.str)) project.specifiers := by
      intro o ho
      have heq := h { project with specifiers := o } { hrefl with specifiers := ho }
      simpa [toFields] using heq
    have hdependencies : OneWay (Option.Rel (KeyedMap.Same ResolvedDependencySpec.Same))
        (Option.map ResolvedDependencyMap.encode) project.dependencies := by
      intro o ho
      have heq := h { project with dependencies := o } { hrefl with dependencies := ho }
      simpa [toFields] using heq
    have hoptional : OneWay (Option.Rel (KeyedMap.Same ResolvedDependencySpec.Same))
        (Option.map ResolvedDependencyMap.encode) project.optionalDependencies := by
      intro o ho
      have heq := h { project with optionalDependencies := o }
        { hrefl with optionalDependencies := ho }
      simpa [toFields] using heq
    have hdev : OneWay (Option.Rel (KeyedMap.Same ResolvedDependencySpec.Same))
        (Option.map ResolvedDependencyMap.encode) project.devDependencies := by
      intro o ho
      have heq := h { project with devDependencies := o } { hrefl with devDependencies := ho }
      simpa [toFields] using heq
    have hmeta : OneWay (Option.Rel valueEq) (Option.map id) project.dependenciesMeta := by
      intro o ho
      have heq := h { project with dependenciesMeta := o } { hrefl with dependenciesMeta := ho }
      simpa [toFields] using heq
    rw [oneWay_option_iff] at hspecifiers hdependencies hoptional hdev hmeta
    exact {
      specifiers := fun m hm => (oneWay_plainMap_iff _ m).mp (hspecifiers m hm)
      dependencies := fun m hm => (ResolvedDependencyMap.oneWay_iff m).mp (hdependencies m hm)
      optionalDependencies := fun m hm =>
        (ResolvedDependencyMap.oneWay_iff m).mp (hoptional m hm)
      devDependencies := fun m hm => (ResolvedDependencyMap.oneWay_iff m).mp (hdev m hm)
      dependenciesMeta := hmeta }
  · intro h other hsame
    have hspecifiers := oneWay_option_iff.mpr
      (fun m hm => (oneWay_plainMap_iff Document.str m).mpr (h.specifiers m hm))
    have hmaps : ∀ {o : Option (ResolvedDependencyMap V)},
        (∀ m ∈ o, ResolvedDependencyMap.WrittenOnce m) →
          OneWay (Option.Rel (KeyedMap.Same ResolvedDependencySpec.Same))
            (Option.map ResolvedDependencyMap.encode) o := fun ho =>
      oneWay_option_iff.mpr fun m hm => (ResolvedDependencyMap.oneWay_iff m).mpr (ho m hm)
    have hmeta : OneWay (Option.Rel valueEq) (Option.map id) project.dependenciesMeta :=
      oneWay_option_iff.mpr h.dependenciesMeta
    simp only [toFields, hspecifiers _ hsame.specifiers, hmaps h.dependencies _ hsame.dependencies,
      hmaps h.optionalDependencies _ hsame.optionalDependencies,
      hmaps h.devDependencies _ hsame.devDependencies, hmeta _ hsame.dependenciesMeta,
      hsame.publishDirectory]

theorem ProjectSnapshot.oneWay_iff (hvalue : ∀ d, valueEq d d) {project : ProjectSnapshot V} :
    OneWay (ProjectSnapshot.Same valueEq) ProjectSnapshot.encode project ↔
      project.WrittenOnce valueEq := by
  exact (oneWay_encodeFields_iff (fun _ _ => rfl) project.nodup_toFields).trans
    (oneWay_toFields_iff hvalue)

theorem RootProjectSnapshot.oneWay_toFields_iff (hvalue : ∀ d, valueEq d d)
    {root : RootProjectSnapshot V} :
    OneWay (RootProjectSnapshot.Same valueEq) RootProjectSnapshot.toFields root ↔
      root.WrittenOnce valueEq := by
  cases root with
  | multi snapshot =>
      have hfields : OneWay (RootProjectSnapshot.Same valueEq) RootProjectSnapshot.toFields
          (.multi snapshot) ↔ OneWay (KeyedMap.Same (ProjectSnapshot.Same valueEq))
            (encodeMap Document.str ProjectSnapshot.encode) snapshot.importers := by
        constructor
        · intro h n hn
          have heq := h (.multi ⟨n⟩) (.multi hn)
          simpa [toFields, MultiProjectSnapshot.toFields] using heq
        · rintro h _ (⟨hn⟩ | _)
          simp [toFields, MultiProjectSnapshot.toFields, h _ hn]
      rw [hfields, oneWay_textMap_iff (ProjectSnapshot.Same.refl hvalue)]
      simp only [ProjectSnapshot.oneWay_iff hvalue, WrittenOnce]
  | single project =>
      constructor
      · intro h
        apply (ProjectSnapshot.oneWay_toFields_iff hvalue).mp
        exact fun other hother => h _ (.single hother)
      · rintro h _ (_ | ⟨hother⟩)
        exact (ProjectSnapshot.oneWay_toFields_iff hvalue).mpr h _ hother

end Fields

section Packages

variable {V I : Type} [NodeSemver V] [BEq V] [SsriDisplay I] [ReflBEq V]

theorem PackageSnapshot.oneWay_iff {snapshot : PackageSnapshot V I} :
    OneWay PackageSnapshot.Same PackageSnapshot.encode snapshot ↔ snapshot.WrittenOnce := by
  have hnodup : (snapshot.toFields.map Prod.fst).Nodup := (by decide : packageFields.Nodup)
  have hrefl := PackageSnapshot.Same.refl snapshot
  have hnames : ∀ m : KeyedMap PkgName (PackageSnapshotDependency V),
      OneWay (KeyedMap.Same PackageSnapshotDependency.Same)
          (encodeMap PkgName.encode PackageSnapshotDependency.encode) m ↔
        (∀ e ∈ m.entries, e.2.ShownWhole) ∧
          m.Alike PkgName.encode PackageSnapshotDependency.encode := by
    intro m
    rw [oneWay_encodeMap_iff_of_lawful PackageSnapshotDependency.Same.refl]
    simp only [PackageSnapshotDependency.oneWay_iff]
  refine (oneWay_encodeFields_iff (fun _ _ => rfl) hnodup).trans ?_
  constructor
  · intro h
    have hengines : OneWay (Option.Rel (KeyedMap.Same (· = ·)))
        (Option.map (encodeMap Document.str Document.str)) snapshot.engines := by
      intro o ho
      have heq := h { snapshot with engines := o } { hrefl with engines := ho, others := rfl }
      simpa [toFields] using heq
    have hpeers : OneWay (Option.Rel (KeyedMap.Same (· = ·)))
        (Option.map (encodeMap Document.str Document.str)) snapshot.peerDependencies := by
      intro o ho
      have heq := h { snapshot with peerDependencies := o }
        { hrefl with peerDependencies := ho, others := rfl }
      simpa [toFields] using heq
    have hmeta : OneWay (Option.Rel (KeyedMap.Same (· = ·)))
        (Option.map (encodeMap Document.str LockfilePeerDependencyMetaValue.encode))
        snapshot.peerDependenciesMeta := by
      intro o ho
      have heq := h { snapshot with peerDependenciesMeta := o }
        { hrefl with peerDependenciesMeta := ho, others := rfl }
      simpa [toFields] using heq
    have hdependencies : OneWay (Option.Rel (KeyedMap.Same PackageSnapshotDependency.Same))
        (Option.map (encodeMap PkgName.encode PackageSnapshotDependency.encode))
        snapshot.dependencies := by
      intro o ho
      have heq := h { snapshot with dependencies := o }
        { hrefl with dependencies := ho, others := rfl }
      simpa [toFields] using heq
    have hoptional : OneWay (Option.Rel (KeyedMap.Same (· = ·)))
        (Option.map (encodeMap Document.str Document.str)) snapshot.optionalDependencies := by
      intro o ho
      have heq := h { snapshot with optionalDependencies := o }
        { hrefl with optionalDependencies := ho, others := rfl }
      simpa [toFields] using heq
    rw [oneWay_option_iff] at hengines hpeers hmeta hdependencies hoptional
    exact {
      engines := fun m hm => (oneWay_plainMap_iff _ m).mp (hengines m hm)
      peerDependencies := fun m hm => (oneWay_plainMap_iff _ m).mp (hpeers m hm)
      peerDependenciesMeta := fun m hm => (oneWay_plainMap_iff _ m).mp (hmeta m hm)
      dependencies := fun m hm => (hnames m).mp (hdependencies m hm)
      optionalDependencies := fun m hm => (oneWay_plainMap_iff _ m).mp (hoptional m hm) }
  · intro h other hsame
    have hplain : ∀ {W : Type} {value : Encoder W} {o : Option (KeyedMap Text W)},
        (∀ m ∈ o, m.entries.length ≤ 1) →
          OneWay (Option.Rel (KeyedMap.Same (· = ·)))
            (Option.map (encodeMap Document.str value)) o := fun ho =>
      oneWay_option_iff.mpr fun m hm => (oneWay_plainMap_iff _ m).mpr (ho m hm)
    have hdependencies := oneWay_option_iff.mpr fun m hm => (hnames m).mpr (h.dependencies m hm)
    have hothers := hsame.others
    have hfields : other.toFields = PackageSnapshot.toFields { snapshot with
        engines := other.engines, peerDependencies := other.peerDependencies,
        peerDependenciesMeta := other.peerDependenciesMeta, dependencies := other.dependencies,
        optionalDependencies := other.optionalDependencies } := congrArg toFields hothers
    rw [hfields]
    simp only [toFields, hplain h.engines _ hsame.engines,
      hplain h.peerDependencies _ hsame.peerDependencies,
      hplain h.peerDependenciesMeta _ hsame.peerDependenciesMeta,
      hdependencies _ hsame.dependencies,
      hplain h.optionalDependencies _ hsame.optionalDependencies]

end Packages

section Lockfile

variable {V I : Type} [NodeSemver V] [BEq V] [SsriDisplay I]
variable {valueEq : Document → Document → Prop}

omit [SsriDisplay I] in
theorem RootProjectSnapshot.Same.names_eq {a b : RootProjectSnapshot V}
    (h : RootProjectSnapshot.Same valueEq a b) :
    b.toFields.map Prod.fst = a.toFields.map Prod.fst := by
  cases h with
  | multi h => rfl
  | single h => rfl

theorem Lockfile.Same.names_eq {a b : Lockfile V I} (h : a.Same valueEq b) :
    b.toFields.map Prod.fst = a.toFields.map Prod.fst := by
  simp only [toFields, List.map_append, h.projectSnapshot.names_eq]
  rfl

variable [EquivBEq V]

/-- The lockfile is written in one way if and only if its parts are. -/
theorem Lockfile.oneWay_iff (hvalue : ∀ d, valueEq d d) {lockfile : Lockfile V I} :
    OneWay (Lockfile.Same valueEq) Lockfile.serialize lockfile ↔
      lockfile.WrittenOnce valueEq := by
  have hrefl := Lockfile.Same.refl hvalue lockfile
  have hpackages : ∀ m : KeyedMap (DependencyPath V) (PackageSnapshot V I),
      OneWay (KeyedMap.Same PackageSnapshot.Same)
          (encodeMap DependencyPath.encode PackageSnapshot.encode) m ↔
        (∀ e ∈ m.entries, e.1.ShownWhole ∧ e.2.WrittenOnce) ∧
          m.Alike DependencyPath.encode PackageSnapshot.encode := by
    intro m
    have hpath : ∀ path : DependencyPath V,
        OneWay (fun a b => (a == b) = true) DependencyPath.encode path ↔ path.ShownWhole := by
      intro path
      simp [OneWay, DependencyPath.encode, Document.str, DependencyPath.ShownWhole]
    rw [oneWay_encodeMap_iff PackageSnapshot.Same.refl]
    simp only [PackageSnapshot.oneWay_iff, hpath]
  have hencode : OneWay (Lockfile.Same valueEq) Lockfile.serialize lockfile ↔
      OneWay (Lockfile.Same valueEq) Lockfile.toFields lockfile :=
    oneWay_encodeFields_iff (fun _ h => h.names_eq) lockfile.nodup_toFields
  apply hencode.trans
  constructor
  · intro h
    have hoverrides : OneWay (Option.Rel (KeyedMap.Same (· = ·)))
        (Option.map (encodeMap Document.str Document.str)) lockfile.overrides := by
      intro o ho
      have heq := h { lockfile with overrides := o }
        { hrefl with overrides := ho, others := rfl }
      simpa [toFields, leadingFields, packagesFields] using heq
    have hproject : OneWay (RootProjectSnapshot.Same valueEq) RootProjectSnapshot.toFields
        lockfile.projectSnapshot := by
      intro o ho
      have heq := h { lockfile with projectSnapshot := o }
        { hrefl with projectSnapshot := ho, others := rfl }
      simpa [toFields, leadingFields, packagesFields] using heq
    have hpackage : OneWay (Option.Rel (KeyedMap.Same PackageSnapshot.Same))
        (Option.map (encodeMap DependencyPath.encode PackageSnapshot.encode))
        lockfile.packages := by
      intro o ho
      have heq := h { lockfile with packages := o } { hrefl with packages := ho, others := rfl }
      simpa [toFields, leadingFields, packagesFields] using heq
    rw [oneWay_option_iff] at hoverrides hpackage
    exact {
      overrides := fun m hm => (oneWay_plainMap_iff _ m).mp (hoverrides m hm)
      projectSnapshot := (RootProjectSnapshot.oneWay_toFields_iff hvalue).mp hproject
      packages := fun m hm => (hpackages m).mp (hpackage m hm) }
  · intro h other hsame
    have hoverrides := oneWay_option_iff.mpr
      (fun m hm => (oneWay_plainMap_iff Document.str m).mpr (h.overrides m hm))
    have hproject := (RootProjectSnapshot.oneWay_toFields_iff hvalue).mpr h.projectSnapshot
    have hpackage := oneWay_option_iff.mpr fun m hm => (hpackages m).mpr (h.packages m hm)
    have hfields : other.toFields = Lockfile.toFields { lockfile with
        overrides := other.overrides, projectSnapshot := other.projectSnapshot,
        packages := other.packages } := congrArg toFields hsame.others
    rw [hfields]
    simp only [toFields, leadingFields, packagesFields, hoverrides _ hsame.overrides,
      hproject _ hsame.projectSnapshot, hpackage _ hsame.packages]

/-- What `save_to_dir` writes into the file. -/
def Lockfile.saved (emit : Document → Text) (lockfile : Lockfile V I) : Text :=
  emit lockfile.serialize

/-- All lockfiles that equal this one are saved as the same text if and only if no
map of it has two entries that are written differently and its versions are
displayed like all that compare equal to them. -/
theorem Lockfile.saved_determined_iff {emit : Document → Text} (hvalue : ∀ d, valueEq d d)
    (lockfile : Lockfile V I)
    (hemit : ∀ other : Lockfile V I, lockfile.Same valueEq other →
      emit other.serialize = emit lockfile.serialize → other.serialize = lockfile.serialize) :
    (∀ other : Lockfile V I, lockfile.Same valueEq other →
        other.saved emit = lockfile.saved emit) ↔
      lockfile.WrittenOnce valueEq := by
  rw [← oneWay_iff hvalue]
  constructor
  · exact fun h other hother => hemit other hother (h other hother)
  · exact fun h other hother => congrArg emit (h other hother)

end Lockfile

section Samples

/-- A project with dependencies and nothing else. -/
def dependenciesLockfile (dependencies : ResolvedDependencyMap CoreVersion) :
    Lockfile CoreVersion HashIntegrity where
  lockfileVersion := sixZero
  settings := none
  neverBuiltDependencies := none
  overrides := none
  projectSnapshot := .single ⟨none, some dependencies, none, none, none, none⟩
  packages := none

def resolvedDependency (name : Text) : PkgName × ResolvedDependencySpec CoreVersion :=
  (⟨none, name⟩, ⟨"^1.0.0".toList, ⟨firstVersion, []⟩⟩)

def oneDependency : Lockfile CoreVersion HashIntegrity :=
  dependenciesLockfile ⟨[resolvedDependency ['a']], List.pairwise_singleton _ _⟩

def oneDependencyText : Text :=
  "lockfileVersion: '6.0'\ndependencies:\n  a:\n    specifier: ^1.0.0\n    version: 1.0.0\n".toList

open Classical in
theorem Lockfile.saved_determined_oneDependency :
    ∃ emit : Document → Text, oneDependency.saved emit = oneDependencyText ∧
      ((∀ other, oneDependency.Same (· = ·) other →
          other.saved emit = oneDependency.saved emit) ↔
        oneDependency.WrittenOnce (· = ·)) := by
  refine ⟨fun d => if d = oneDependency.serialize then oneDependencyText else [], ?_, ?_⟩
  · simp only [Lockfile.saved, if_true]
  · apply Lockfile.saved_determined_iff (fun _ => rfl)
    intro other _ h
    by_contra hne
    have htext : oneDependencyText ≠ [] := by decide
    simp only [hne, if_true, if_false] at h
    exact htext h.symm

/-- Two lockfiles that differ in nothing but the order in which their dependencies
iterate are written differently. -/
theorem Lockfile.saved_in_two_orders :
    ∃ a b : Lockfile CoreVersion HashIntegrity,
      a.Same (· = ·) b ∧ b.serialize ≠ a.serialize := by
  have hab : ([resolvedDependency ['a'], resolvedDependency ['b']] :
      List (PkgName × ResolvedDependencySpec CoreVersion)).Pairwise
        fun a b => (a.1 == b.1) = false := by decide
  obtain ⟨swapped, hswapped, hsame⟩ := KeyedMap.Same.of_perm (m := ⟨_, hab⟩)
    ResolvedDependencySpec.Same.refl (List.Perm.swap _ _ [])
  refine ⟨dependenciesLockfile ⟨_, hab⟩, dependenciesLockfile swapped, ?_, ?_⟩
  · have hproject : ProjectSnapshot.Same (· = ·)
        (⟨none, some ⟨_, hab⟩, none, none, none, none⟩ : ProjectSnapshot CoreVersion) _ :=
      ProjectSnapshot.Same.refl (fun _ => rfl) _
    exact { Lockfile.Same.refl (fun _ => rfl) (dependenciesLockfile ⟨_, hab⟩) with
      projectSnapshot := .single { hproject with dependencies := .some hsame }
      others := rfl }
  · intro h
    simp [serialize, toFields, encodeFields, leadingFields, packagesFields, present, keyed,
      dependenciesLockfile, RootProjectSnapshot.toFields, ProjectSnapshot.toFields,
      ResolvedDependencyMap.encode, encodeMap, hswapped, resolvedDependency, PkgName.encode,
      PkgName.display, Document.str] at h

end Samples

end Npnpm
