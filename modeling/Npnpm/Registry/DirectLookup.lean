import Npnpm.Registry.Caret

/-!
# Looking up a version directly

A specifier that is a version is not taken as a range: `version_by_specifier` looks the
text of the version up among the keys of the metadata. Here is when the range would have
given the same, and what a range gives in whatever order the map iterates.

## Implementation notes

The order of versions ignores build metadata, and the text of a version does not.
-/

namespace Npnpm

/-- What `node_semver` says of a text that is a version: a displayed version parses to
itself, the tag `latest` is none, and as a range it is satisfied by the versions that are
equal to it in precedence. -/
class VersionSpecifiers (V : Type) [NodeSemver V] [SemverRange V] : Prop where
  parse_display : ∀ v : V, NodeSemver.parse (NodeSemver.display v) = .ok v
  parse_latest : (NodeSemver.parse "latest".toList : Except Text V).isOk = false
  range_version : ∀ (specifier : Text) (v : V), NodeSemver.parse specifier = .ok v →
    ∃ satisfies : V → Bool, SemverRange.range specifier = some satisfies ∧
      ∀ w, satisfies w = true ↔ SemverRange.compare w v = .eq
  transCmp : Std.TransCmp (SemverRange.compare (V := V))

section Greatest

variable {V I : Type} [SemverRange V] {package package' : Package V I} {satisfies : V → Bool}

/-- No two versions of the metadata are equal in precedence. -/
def Package.PrecedenceDistinct (package : Package V I) : Prop :=
  package.versions.entries.Pairwise fun e e' =>
    SemverRange.compare e.2.version e'.2.version ≠ .eq

/-- The greatest of the versions that satisfy a range, if there is one. -/
def Package.IsGreatest (package : Package V I) (satisfies : V → Bool) :
    Option (PackageVersion V I) → Prop
  | none => ∀ e ∈ package.versions.entries, satisfies e.2.version = false
  | some p => (∃ key, (key, p) ∈ package.versions.entries) ∧ satisfies p.version = true ∧
      ∀ e ∈ package.versions.entries, satisfies e.2.version = true →
        e.2 = p ∨ SemverRange.compare e.2.version p.version = .lt

variable (htrans : Std.TransCmp (SemverRange.compare (V := V)))
include htrans

theorem Package.PrecedenceDistinct.eq (h : package.PrecedenceDistinct)
    {e e' : Text × PackageVersion V I} (he : e ∈ package.versions.entries)
    (he' : e' ∈ package.versions.entries)
    (heq : SemverRange.compare e.2.version e'.2.version = .eq) : e = e' := by
  by_contra hne
  have hsymm : Std.Symm fun a b : Text × PackageVersion V I =>
      SemverRange.compare a.2.version b.2.version ≠ .eq :=
    ⟨fun _ _ hab hba => hab (Std.OrientedCmp.eq_symm hba)⟩
  exact List.Pairwise.forall h he he' hne heq

/-- No range has two greatest versions. -/
theorem Package.IsGreatest.unique {found found' : Option (PackageVersion V I)}
    (h : package.IsGreatest satisfies found) (h' : package.IsGreatest satisfies found') :
    found = found' := by
  cases found with
  | none =>
      cases found' with
      | none => rfl
      | some p' =>
          obtain ⟨⟨key, hkey⟩, hp', -⟩ := h'
          rw [h _ hkey] at hp'
          cases hp'
  | some p =>
      obtain ⟨⟨key, hkey⟩, hp, hgreatest⟩ := h
      cases found' with
      | none =>
          rw [h' _ hkey] at hp
          cases hp
      | some p' =>
          obtain ⟨⟨key', hkey'⟩, hp', hgreatest'⟩ := h'
          obtain heq | hlt := hgreatest _ hkey' hp'
          · exact congrArg some heq.symm
          · obtain heq | hgt := hgreatest' _ hkey hp
            · exact congrArg some heq
            · rw [Std.OrientedCmp.gt_of_lt hlt] at hgt
              cases hgt

/-- A range gives the greatest of the versions that satisfy it. -/
theorem Package.pinnedVersion_isGreatest (h : package.PrecedenceDistinct) {versionRange : Text}
    (hrange : SemverRange.range versionRange = some satisfies) :
    ∃ found, package.pinnedVersion versionRange = .ok found ∧
      package.IsGreatest satisfies found := by
  have hcompare : Std.TransCmp fun left right : PackageVersion V I =>
      SemverRange.compare left.version right.version :=
    { eq_swap := htrans.eq_swap, isLE_trans := htrans.isLE_trans }
  have hmem : ∀ p, p ∈ ((package.versions.entries.map Prod.snd).filter
      fun p => satisfies p.version) ↔
        (∃ key, (key, p) ∈ package.versions.entries) ∧ satisfies p.version = true := by
    intro p
    simp only [List.mem_filter, List.mem_map, Prod.exists, exists_eq_right]
  unfold Package.pinnedVersion
  rw [hrange]
  refine ⟨_, rfl, ?_⟩
  cases hfound : maxBy (fun left right : PackageVersion V I =>
      SemverRange.compare left.version right.version)
      ((package.versions.entries.map Prod.snd).filter fun p => satisfies p.version) with
  | none =>
      intro e he
      have hnil : (package.versions.entries.map Prod.snd).filter
          (fun p => satisfies p.version) = [] := by
        cases hl : (package.versions.entries.map Prod.snd).filter
            (fun p => satisfies p.version) with
        | nil => rfl
        | cons p rest =>
            rw [hl] at hfound
            cases hfound
      by_contra hsatisfies
      have hin := (hmem e.2).mpr ⟨⟨e.1, he⟩, Bool.not_eq_false _ ▸ hsatisfies⟩
      rw [hnil] at hin
      cases hin
  | some p =>
      obtain ⟨⟨key, hkey⟩, hp⟩ := (hmem p).mp (maxBy_mem hfound)
      refine ⟨⟨key, hkey⟩, hp, fun e he hsatisfies => ?_⟩
      obtain ⟨before, after, hsplit, hbefore, hafter⟩ := maxBy_eq_some_iff.mp hfound
      have hin := (hmem e.2).mpr ⟨⟨e.1, he⟩, hsatisfies⟩
      rw [hsplit] at hin
      obtain hin | hin := List.mem_append.mp hin
      · have hle : (SemverRange.compare e.2.version p.version).isLE = true := hbefore _ hin
        cases hcase : SemverRange.compare e.2.version p.version with
        | lt => exact Or.inr rfl
        | eq => exact Or.inl (congrArg Prod.snd (h.eq htrans he hkey hcase))
        | gt =>
            rw [hcase] at hle
            cases hle
      · obtain rfl | hin := List.mem_cons.mp hin
        · exact Or.inl rfl
        · exact Or.inr (Std.OrientedCmp.lt_of_gt (hafter _ hin))

omit htrans in
theorem Package.IsGreatest.perm (hperm : package'.versions.entries.Perm package.versions.entries)
    {found : Option (PackageVersion V I)} (h : package'.IsGreatest satisfies found) :
    package.IsGreatest satisfies found := by
  cases found with
  | none => exact fun e he => h e (hperm.mem_iff.mpr he)
  | some p =>
      obtain ⟨⟨key, hkey⟩, hp, hgreatest⟩ := h
      exact ⟨⟨key, hperm.mem_iff.mp hkey⟩, hp, fun e he => hgreatest e (hperm.mem_iff.mpr he)⟩

/-- The order in which the map iterates does not matter. -/
theorem Package.pinnedVersion_perm (h : package.PrecedenceDistinct)
    (hperm : package'.versions.entries.Perm package.versions.entries) {versionRange : Text}
    (hrange : SemverRange.range versionRange = some satisfies) :
    package'.pinnedVersion versionRange = package.pinnedVersion versionRange := by
  have h' : package'.PrecedenceDistinct :=
    (hperm.pairwise_iff fun hab hba => hab (htrans.toOrientedCmp.eq_symm hba)).mpr h
  obtain ⟨found, hfound, hgreatest⟩ := package.pinnedVersion_isGreatest htrans h hrange
  obtain ⟨found', hfound', hgreatest'⟩ := package'.pinnedVersion_isGreatest htrans h' hrange
  rw [hfound, hfound', (hgreatest'.perm hperm).unique htrans hgreatest]

end Greatest

section Lookup

variable {V I : Type} [NodeSemver V] [SemverRange V] {package : Package V I}

/-- The versions of the metadata are keyed by their texts, and no two of them are equal
in precedence. -/
structure Package.KeyedByVersion (package : Package V I) : Prop where
  keyed : ∀ e ∈ package.versions.entries, e.1 = NodeSemver.display e.2.version
  distinct : package.PrecedenceDistinct

/-- `version_by_specifier` finds the version, or none of the metadata. -/
def Package.Finds (package : Package V I) (specifier : Text) :
    Option (PackageVersion V I) → Prop
  | some p => package.versionBySpecifier specifier = .ok p
  | none => ∃ missing, package.versionBySpecifier specifier =
      .error (.error (.missingVersionRelease missing package.name))

/-- The lookup of a specifier and its resolution as a range find the same. -/
def Package.LookupAgrees (package : Package V I) (specifier : Text) : Prop :=
  ∃ found, package.pinnedVersion specifier = .ok found ∧ package.Finds specifier found

variable [VersionSpecifiers V] {specifier : Text} {v : V}

omit [VersionSpecifiers V] in
theorem Package.Finds.unique {found found' : Option (PackageVersion V I)}
    (h : package.Finds specifier found) (h' : package.Finds specifier found') :
    found = found' := by
  cases found with
  | none =>
      obtain ⟨missing, h⟩ := h
      cases found' with
      | none => rfl
      | some p' => exact absurd (h.symm.trans h') (by simp)
  | some p =>
      cases found' with
      | none =>
          obtain ⟨missing, h'⟩ := h'
          exact absurd (h.symm.trans h') (by simp)
      | some p' => exact congrArg some (Except.ok.inj (h.symm.trans h'))

theorem NodeSemver.display_inj {w : V} (h : NodeSemver.display w = NodeSemver.display v) :
    w = v := by
  have hparse := VersionSpecifiers.parse_display w
  rw [h, VersionSpecifiers.parse_display v] at hparse
  exact (Except.ok.inj hparse).symm

/-- A specifier that is a version is looked up by the text of the version. -/
theorem Package.finds_get (hparse : NodeSemver.parse specifier = .ok v) :
    package.Finds specifier (package.versions.get (NodeSemver.display v)) := by
  have htag : (PackageTag.fromStr specifier : Except Text (PackageTag V)) =
      .ok (.version v) := by
    rw [PackageTag.fromStr, if_neg, hparse]
    · rfl
    · rintro rfl
      have hlatest := VersionSpecifiers.parse_latest (V := V)
      rw [hparse] at hlatest
      cases hlatest
  have hcall : package.versionBySpecifier specifier = package.versionByTag (.version v) := by
    rw [Package.versionBySpecifier, htag]
  cases hget : package.versions.get (NodeSemver.display v) with
  | none =>
      refine ⟨NodeSemver.display v, ?_⟩
      rw [hcall, Package.versionByTag]
      simp only [hget]
  | some p =>
      refine hcall.trans ?_
      rw [Package.versionByTag]
      simp only [hget]

/-- A lookup agrees with the range when what it finds is the greatest in the range. -/
theorem Package.lookupAgrees_iff_isGreatest (h : package.KeyedByVersion)
    (hparse : NodeSemver.parse specifier = .ok v) {satisfies : V → Bool}
    (hrange : SemverRange.range specifier = some satisfies) :
    package.LookupAgrees specifier ↔
      package.IsGreatest satisfies (package.versions.get (NodeSemver.display v)) := by
  have htrans := VersionSpecifiers.transCmp (V := V)
  obtain ⟨found, hpinned, hgreatest⟩ :=
    package.pinnedVersion_isGreatest htrans h.distinct hrange
  have hfinds := package.finds_get hparse
  constructor
  · rintro ⟨found', hpinned', hfinds'⟩
    rw [← hfinds'.unique hfinds, ← Except.ok.inj (hpinned.symm.trans hpinned')]
    exact hgreatest
  · intro hget
    rw [hgreatest.unique htrans hget] at hpinned
    exact ⟨_, hpinned, hfinds⟩

/-- The version under the text of another is the greatest that is equal to the other, when
what is equal to the other is displayed alike. -/
theorem Package.isGreatest_get_iff (h : package.KeyedByVersion) {satisfies : V → Bool}
    (hsatisfies : ∀ w, satisfies w = true ↔ SemverRange.compare w v = .eq) :
    package.IsGreatest satisfies (package.versions.get (NodeSemver.display v)) ↔
      ∀ e ∈ package.versions.entries, SemverRange.compare e.2.version v = .eq →
        NodeSemver.display e.2.version = NodeSemver.display v := by
  have htrans := VersionSpecifiers.transCmp (V := V)
  cases hget : package.versions.get (NodeSemver.display v) with
  | none =>
      constructor
      · intro hgreatest e he heq
        rw [← hsatisfies, hgreatest e he] at heq
        cases heq
      · intro hdisplay e he
        by_contra htrue
        have heq := (hsatisfies e.2.version).mp (Bool.not_eq_false _ ▸ htrue)
        have hkey : (NodeSemver.display v, e.2) ∈ package.versions.entries := by
          rw [← hdisplay e he heq, ← h.keyed e he]
          exact he
        rw [KeyedMap.get_eq_some_iff.mpr hkey] at hget
        cases hget
  | some p =>
      have hp := KeyedMap.get_eq_some_iff.mp hget
      obtain rfl : v = p.version := NodeSemver.display_inj (h.keyed _ hp)
      have hsame : ∀ e ∈ package.versions.entries,
          SemverRange.compare e.2.version p.version = .eq → e.2 = p :=
        fun e he heq => congrArg Prod.snd (h.distinct.eq htrans he hp heq)
      refine iff_of_true ⟨⟨_, hp⟩, ?_, fun e he htrue => ?_⟩ fun e he heq => ?_
      · exact (hsatisfies _).mpr Std.ReflCmp.compare_self
      · exact Or.inl (hsame e he ((hsatisfies e.2.version).mp htrue))
      · rw [hsame e he heq]

/-- A lookup agrees with the range when the version of the metadata that is equal in
precedence, if there is one, is displayed alike. -/
theorem Package.lookupAgrees_iff_display (h : package.KeyedByVersion)
    (hparse : NodeSemver.parse specifier = .ok v) :
    package.LookupAgrees specifier ↔ ∀ e ∈ package.versions.entries,
      SemverRange.compare e.2.version v = .eq →
        NodeSemver.display e.2.version = NodeSemver.display v := by
  obtain ⟨satisfies, hrange, hsatisfies⟩ := VersionSpecifiers.range_version specifier v hparse
  rw [package.lookupAgrees_iff_isGreatest h hparse hrange, package.isGreatest_get_iff h hsatisfies]

/-- The lookup of a version agrees with the range exactly where the version of the metadata
that is equal in precedence, if there is one, is displayed alike, build metadata included.
A range gives the greatest version in it, in whatever order the map iterates. -/
theorem Package.lookup_and_range (package : Package V I) (h : package.KeyedByVersion) :
    (∀ (specifier : Text) (v : V), NodeSemver.parse specifier = .ok v →
      (package.LookupAgrees specifier ↔ ∀ e ∈ package.versions.entries,
        SemverRange.compare e.2.version v = .eq →
          NodeSemver.display e.2.version = NodeSemver.display v)) ∧
    ∀ (versionRange : Text) (satisfies : V → Bool),
      SemverRange.range versionRange = some satisfies →
        (∃ found, package.pinnedVersion versionRange = .ok found ∧
          package.IsGreatest satisfies found) ∧
        ∀ package' : Package V I,
          package'.versions.entries.Perm package.versions.entries →
            package'.pinnedVersion versionRange = package.pinnedVersion versionRange := by
  have htrans := VersionSpecifiers.transCmp (V := V)
  constructor
  · exact fun _ _ hparse => package.lookupAgrees_iff_display h hparse
  · intro versionRange satisfies hrange
    constructor
    · exact package.pinnedVersion_isGreatest htrans h.distinct hrange
    · exact fun _ hperm => package.pinnedVersion_perm htrans h.distinct hperm hrange

end Lookup

section Built

/-- A version with all three numbers, and build metadata if there is any. -/
structure BuiltVersion where
  full : FullVersion
  build : Text

instance : NodeSemver BuiltVersion where
  parse s :=
    match Text.splitOnce '+' s with
    | none => (NodeSemver.parse s).map fun full => ⟨full, []⟩
    | some (full, build) => (NodeSemver.parse full).map fun full => ⟨full, build⟩
  display v := v.full.text ++ if v.build = [] then [] else '+' :: v.build

instance : SemverRange BuiltVersion where
  range text :=
    match (NodeSemver.parse text : Except Text BuiltVersion) with
    | .ok v => some fun w => compare w.full.toCore.numbers v.full.toCore.numbers == .eq
    | .error _ => (SemverRange.range text).map fun satisfies w => satisfies w.full
  compare := compareOn fun v => v.full.toCore.numbers

theorem FullVersion.parse_text (v : FullVersion) :
    (NodeSemver.parse v.text : Except Text FullVersion) = .ok v := dif_pos v.core

theorem FullVersion.plus_notMem (v : FullVersion) : '+' ∉ v.text := fun h =>
  not_isCore_of_mem h (by decide) (by decide) v.core

instance : VersionSpecifiers BuiltVersion where
  parse_display v := by
    obtain ⟨full, build⟩ := v
    have hplus := full.plus_notMem
    by_cases hbuild : build = []
    · subst hbuild
      have hsplit : Text.splitOnce '+' full.text = none :=
        (Text.splitOnce_eq_none_iff '+' full.text).mpr hplus
      simp only [NodeSemver.display, NodeSemver.parse, if_true, List.append_nil, hsplit]
      exact congrArg (Except.map _) full.parse_text
    · have hsplit : Text.splitOnce '+' (full.text ++ '+' :: build) = some (full.text, build) :=
        (Text.splitOnce_eq_some_iff '+' _ _ _).mpr ⟨hplus, rfl⟩
      simp only [NodeSemver.display, NodeSemver.parse, if_neg hbuild, hsplit]
      exact congrArg (Except.map _) full.parse_text
  parse_latest := rfl
  range_version specifier v hparse := by
    refine ⟨fun w => compare w.full.toCore.numbers v.full.toCore.numbers == .eq, ?_, ?_⟩
    · simp only [SemverRange.range, hparse]
    · exact fun w => beq_iff_eq
  transCmp := inferInstanceAs (Std.TransCmp (compareOn _))

def builtVersion (text build : Text) (h : isCore text = true) : PackageVersion BuiltVersion Unit :=
  ⟨"demo".toList, ⟨⟨text, h⟩, build⟩, ⟨none, [], none⟩, none, none, none⟩

theorem isCore_one : isCore "1.0.0".toList = true := rfl

theorem isCore_oneOne : isCore "1.1.0".toList = true := rfl

theorem isCore_oneTwo : isCore "1.2.0".toList = true := rfl

theorem isCore_two : isCore "2.0.0".toList = true := rfl

def builtVersions : List (PackageVersion BuiltVersion Unit) :=
  [builtVersion "1.0.0".toList [] isCore_one, builtVersion "1.2.0".toList [] isCore_oneTwo,
    builtVersion "1.1.0".toList "x".toList isCore_oneOne, builtVersion "2.0.0".toList [] isCore_two]

/-- Metadata of the versions, in this order. -/
def builtPackage (versions : List (PackageVersion BuiltVersion Unit)) :
    Package BuiltVersion Unit where
  name := "demo".toList
  distTags := .ofList [("latest".toList, "1.0.0".toList)]
  versions := .ofList (versions.map fun p => (NodeSemver.display p.version, p))

theorem builtPackage_keyedByVersion : (builtPackage builtVersions).KeyedByVersion where
  keyed := by decide
  distinct := by
    unfold Package.PrecedenceDistinct
    decide

/-- A version is found by its text, with build metadata or without, and the caret admits three of
the four, of which it gives the greatest in any order. -/
theorem Package.lookup_and_range_core :
    (builtPackage builtVersions).LookupAgrees "1.0.0".toList ∧
    (builtPackage builtVersions).LookupAgrees "1.1.0+x".toList ∧
    (∃ satisfies, SemverRange.range "^1.0.0".toList = some satisfies ∧
      (builtPackage builtVersions).IsGreatest satisfies
        (some (builtVersion "1.2.0".toList [] rfl))) ∧
    (builtPackage builtVersions.reverse).pinnedVersion "^1.0.0".toList =
      .ok (some (builtVersion "1.2.0".toList [] rfl)) := by
  obtain ⟨hlookup, hrange⟩ :=
    (builtPackage builtVersions).lookup_and_range builtPackage_keyedByVersion
  obtain ⟨⟨found, hfound, hgreatest⟩, hperm⟩ := hrange "^1.0.0".toList _ rfl
  have hpinned : (builtPackage builtVersions).pinnedVersion "^1.0.0".toList =
      .ok (some (builtVersion "1.2.0".toList [] rfl)) := rfl
  obtain rfl := Except.ok.inj (hfound.symm.trans hpinned)
  refine ⟨?_, ?_, ⟨_, rfl, hgreatest⟩, ?_⟩
  · exact (hlookup _ ⟨⟨"1.0.0".toList, rfl⟩, []⟩ rfl).mpr (by decide)
  · exact (hlookup _ ⟨⟨"1.1.0".toList, rfl⟩, "x".toList⟩ rfl).mpr (by decide)
  · have hreversed : (builtPackage builtVersions.reverse).versions.entries =
        (builtPackage builtVersions).versions.entries.reverse := rfl
    rw [hperm _ (hreversed ▸ List.reverse_perm _), hpinned]

/-- With other build metadata the lookup finds nothing, and the range finds `1.1.0+x`. -/
theorem Package.not_lookup_agrees_build :
    (builtPackage builtVersions).KeyedByVersion ∧
      (NodeSemver.parse "1.1.0+build".toList : Except Text BuiltVersion).isOk = true ∧
      ¬ (builtPackage builtVersions).LookupAgrees "1.1.0+build".toList ∧
      (builtPackage builtVersions).versionBySpecifier "1.1.0+build".toList =
        .error (.error (.missingVersionRelease "1.1.0+build".toList "demo".toList)) ∧
      (builtPackage builtVersions).pinnedVersion "1.1.0+build".toList =
        .ok (some (builtVersion "1.1.0".toList "x".toList rfl)) := by
  refine ⟨builtPackage_keyedByVersion, rfl, ?_, rfl, rfl⟩
  rintro ⟨found, hpinned, hfinds⟩
  cases found with
  | some found => cases hfinds
  | none => cases hpinned

end Built

end Npnpm
