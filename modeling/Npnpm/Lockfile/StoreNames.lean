import Npnpm.Lockfile.RootSnapshot

/-!
# Virtual store names of a loaded lockfile

The keys of `packages` are texts that were read as dependency paths. Two of
them name one directory when their specifiers are alike, whatever registries
they carry.
-/

namespace Npnpm

open Npnpm.Serde

section Keys

variable {V I : Type} [NodeSemver V] [BEq V] [SsriParse I]

theorem optionalField_eq_some_some {α : Type} {item : Decoder α} {reading : Reading}
    {known : List (Text × Document)} {name : Text} {a : α}
    (h : optionalField item reading known name = some (some a)) :
    ∃ d, item reading d = some a := by
  unfold optionalField at h
  split at h
  · cases h
  · exact ⟨_, option_eq_some_some h⟩

theorem ClaimedFields.exists_packages {top : List (Document × Document)}
    {claimed : ClaimedFields V I} (h : ClaimedFields.decode top = some claimed)
    {packages : KeyedMap (DependencyPath V) (PackageSnapshot V I)}
    (hp : claimed.packages = some packages) :
    ∃ d, hashMap DependencyPath.decode PackageSnapshot.decode .direct d = some packages := by
  simp only [ClaimedFields.decode, Option.pure_def, Option.bind_eq_bind,
    Option.bind_eq_some_iff, Option.some.injEq] at h
  obtain ⟨_, _, _, _, _, _, _, _, _, _, _, hpackages, rfl⟩ := h
  simp only at hp
  rw [hp] at hpackages
  exact optionalField_eq_some_some hpackages

/-- Every key of `packages` in a loaded lockfile was parsed from its text. -/
theorem Lockfile.parsed_of_mem_packageEntries {content : Document} {lockfile : Lockfile V I}
    (hload : Lockfile.load content = some (some lockfile))
    {e : DependencyPath V × PackageSnapshot V I} (he : e ∈ lockfile.packageEntries) :
    e.1.packageSpecifier.Parsed := by
  have hdoc : Lockfile.deserialize content = some lockfile := option_eq_some_some hload
  cases content with
  | scalar => simp [Lockfile.deserialize] at hdoc
  | seq => simp [Lockfile.deserialize] at hdoc
  | map top =>
      obtain ⟨hclaimed, -⟩ := (Lockfile.deserialize_eq_some_iff top lockfile).mp hdoc
      cases hp : lockfile.packages with
      | none => simp [Lockfile.packageEntries, hp] at he
      | some packages =>
          simp only [Lockfile.packageEntries, hp] at he
          obtain ⟨d, hd⟩ := ClaimedFields.exists_packages hclaimed hp
          obtain ⟨d', hkey⟩ := exists_of_mem_hashMap_keys hd
            (KeyedMap.mem_keys.mpr ⟨e.2, he⟩)
          simp only [DependencyPath.decode, tryFromStr, Option.bind_eq_some_iff] at hkey
          obtain ⟨text, -, hparse⟩ := hkey
          cases hs : DependencyPath.fromStr (V := V) text with
          | error _ => simp [hs, Except.toOption] at hparse
          | ok path =>
              simp only [hs, Except.toOption, Option.some.injEq] at hparse
              subst hparse
              exact DependencyPath.parsed_of_fromStr hs

end Keys

section Directories

variable {V I : Type} [NodeSemver V] [BEq V]

/-- Different packages of the lockfile have different virtual store names. -/
def Lockfile.StoreNamesDistinct (lockfile : Lockfile V I) : Prop :=
  lockfile.packageEntries.Pairwise fun a b =>
    a.1.packageSpecifier.toVirtualStoreName ≠ b.1.packageSpecifier.toVirtualStoreName

omit [BEq V] in
/-- Of packages with store names of their own, one has the name. -/
theorem eq_of_storeName {entries : List (DependencyPath V × PackageSnapshot V I)}
    (hdistinct : entries.Pairwise fun a b =>
      a.1.packageSpecifier.toVirtualStoreName ≠ b.1.packageSpecifier.toVirtualStoreName)
    {e e' : DependencyPath V × PackageSnapshot V I} (he : e ∈ entries) (he' : e' ∈ entries)
    (hstore :
      e.1.packageSpecifier.toVirtualStoreName = e'.1.packageSpecifier.toVirtualStoreName) :
    e = e' := by
  have hsymm : Std.Symm fun a b : DependencyPath V × PackageSnapshot V I =>
      a.1.packageSpecifier.toVirtualStoreName ≠ b.1.packageSpecifier.toVirtualStoreName :=
    ⟨fun _ _ hab => Ne.symm hab⟩
  by_contra hne
  exact hdistinct.forall he he' hne hstore

/-- In a loaded lockfile the packages have directories of their own exactly when
no two of their specifiers are alike. -/
theorem Lockfile.storeNamesDistinct_iff [PlainSemver V] [SsriParse I] {content : Document}
    {lockfile : Lockfile V I} (hload : Lockfile.load content = some (some lockfile)) :
    lockfile.StoreNamesDistinct ↔
      lockfile.packageEntries.Pairwise fun a b =>
        ¬ SpecifierAlike a.1.packageSpecifier b.1.packageSpecifier := by
  have hparsed := fun e he => Lockfile.parsed_of_mem_packageEntries hload (e := e) he
  constructor <;> intro h <;> refine h.imp_of_mem fun {a b} ha hb hab => ?_
  · rwa [← toVirtualStoreName_eq_iff (hparsed a ha) (hparsed b hb)]
  · rwa [Ne, toVirtualStoreName_eq_iff (hparsed a ha) (hparsed b hb)]

end Directories

section Registries

/-- A lockfile document with two packages without integrity. -/
def twoPackages (path path' : Text) : Document :=
  .map [(.str "lockfileVersion".toList, .str "6.0".toList),
    (.str "packages".toList, .map [
      (.str path, .map [(.str "resolution".toList,
        .map [(.str "tarball".toList, .str "https://example.com/1.tgz".toList)])]),
      (.str path', .map [(.str "resolution".toList,
        .map [(.str "tarball".toList, .str "https://example.com/2.tgz".toList)])])])]

/-- What the document is read as, for the paths of its two texts. -/
def twoPackagesLockfile (path path' : DependencyPath CoreVersion) (h : (path == path') = false) :
    Lockfile CoreVersion HashIntegrity where
  lockfileVersion := sixZero
  settings := none
  neverBuiltDependencies := none
  overrides := none
  projectSnapshot := .single ⟨none, none, none, none, none, none⟩
  packages := some ⟨[
    (path, .plain (.tarball ⟨"https://example.com/1.tgz".toList, none⟩) none none),
    (path', .plain (.tarball ⟨"https://example.com/2.tgz".toList, none⟩) none none)],
    by simp [h]⟩

/-- The specifier `{name}@1.0.0`. -/
def coreSpecifier (name : Text) : PkgNameVerPeer CoreVersion :=
  ⟨⟨none, name⟩, ⟨firstVersion, []⟩⟩

theorem Lockfile.storeNamesDistinct_two_names :
    (twoPackagesLockfile ⟨none, coreSpecifier "a".toList⟩ ⟨none, coreSpecifier "b".toList⟩
      rfl).StoreNamesDistinct ↔
    (twoPackagesLockfile ⟨none, coreSpecifier "a".toList⟩ ⟨none, coreSpecifier "b".toList⟩
      rfl).packageEntries.Pairwise fun a b =>
        ¬ SpecifierAlike a.1.packageSpecifier b.1.packageSpecifier := by
  have hload : Lockfile.load (twoPackages "/a@1.0.0".toList "/b@1.0.0".toList) =
      some (some (twoPackagesLockfile ⟨none, coreSpecifier "a".toList⟩
        ⟨none, coreSpecifier "b".toList⟩ rfl)) := rfl
  exact Lockfile.storeNamesDistinct_iff hload

/-- The same specifier from two registries is two keys and one directory. -/
theorem Lockfile.not_storeNamesDistinct_two_registries :
    Lockfile.load (twoPackages "/a@1.0.0".toList "registry.npmjs.com/a@1.0.0".toList) =
        some (some (twoPackagesLockfile ⟨none, coreSpecifier "a".toList⟩
          ⟨some "registry.npmjs.com".toList, coreSpecifier "a".toList⟩ rfl)) ∧
      ¬ (twoPackagesLockfile ⟨none, coreSpecifier "a".toList⟩
          ⟨some "registry.npmjs.com".toList, coreSpecifier "a".toList⟩ rfl).StoreNamesDistinct := by
  refine ⟨rfl, ?_⟩
  intro h
  exact (List.pairwise_cons.mp h).1 _ (List.mem_singleton_self _) rfl

end Registries

end Npnpm
