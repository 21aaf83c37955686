import Npnpm.Lockfile.Deserialize
import Npnpm.PackageManager.FetchReach
import Npnpm.PackageManager.SavedLockfile

/-!
# The two readers of a reference

The lockfile reader tries a reference as a version first, `fetch` tries a reference of
`optionalDependencies` as a dependency path first. The readers agree unless the first
scoped peer of a version has peers of its own.
-/

namespace Npnpm

open Npnpm.Text Npnpm.Serde

section Grammar

variable {V : Type} [NodeSemver V]

/-- A version whose first scoped peer has peers itself:
`{version}(…/{name}@{version}({peers})`. -/
def ScopedPeerHasPeers (V : Type) [NodeSemver V] (reference : Text) : Prop :=
  ∃ version before version' peers : Text, ∃ name : PkgName,
    reference = version ++ '(' :: before ++ '/' :: name.display ++
      '@' :: version' ++ '(' :: peers ∧
    reference.getLast? = some ')' ∧
    '(' ∉ version ∧ (∃ v : V, NodeSemver.parse version = .ok v) ∧
    '/' ∉ before ∧ name.WellFormed ∧ name.Specifiable ∧
    '(' ∉ version' ∧ ∃ v : V, NodeSemver.parse version' = .ok v

theorem PkgVerPeer.fromStr_append {head rest : Text} {version : V} (hopen : '(' ∉ head)
    (hparse : NodeSemver.parse head = .ok version)
    (hlast : (head ++ '(' :: rest).getLast? = some ')') :
    PkgVerPeer.fromStr (head ++ '(' :: rest) = .ok ⟨version, '(' :: rest⟩ := by
  rw [PkgVerPeer.fromStr, if_neg (not_not.mpr hlast), breakAt_append '(' head rest hopen]
  simp only [hparse]

/-- A version text that ends with a parenthesis has peers. -/
theorem PkgVerPeer.peer_of_closed {value : Text} {v : PkgVerPeer V}
    (h : PkgVerPeer.fromStr value = .ok v) (hlast : value.getLast? = some ')') :
    ∃ rest, v.peer = '(' :: rest := by
  rw [PkgVerPeer.fromStr, if_neg (not_not.mpr hlast)] at h
  cases hbreak : breakAt '(' value with
  | none => simp [hbreak] at h
  | some p =>
      obtain ⟨-, rest, hpeer, -⟩ := (breakAt_eq_some_iff '(' value p.1 p.2).mp hbreak
      cases hparse : NodeSemver.parse (V := V) p.1 with
      | error e => simp [hbreak, hparse] at h
      | ok version =>
          simp only [hbreak, hparse, Except.ok.injEq] at h
          exact ⟨rest, by rw [← h, hpeer]⟩

variable [RoundTripSemver V]

/-- The texts that are a version and a dependency path at once. -/
theorem PkgVerPeer.fromStr_path_iff {reference : Text} :
    ((∃ v : PkgVerPeer V, PkgVerPeer.fromStr reference = .ok v) ∧
      ∃ path : DependencyPath V, DependencyPath.fromStr reference = .ok path) ↔
        ScopedPeerHasPeers V reference := by
  constructor
  · rintro ⟨⟨v, hv⟩, path, hpath⟩
    obtain ⟨hparsed, suffix, hsuffix, htext⟩ := DependencyPath.fromStr_ok hpath
    obtain ⟨version, hversion, hreference, hopen, -⟩ := PkgVerPeer.fromStr_ok hv
    obtain ⟨version', hversion', hsuffixText, hopen', -⟩ := PkgVerPeer.fromStr_ok hsuffix
    have hslash := RoundTripSemver.no_slash version v.version hversion
    -- the slash of the path is among the peers of the version
    have hpeer : (∃ rest, v.peer = '(' :: rest) ∧ v.peer.getLast? = some ')' := by
      rcases PkgVerPeer.peer_of_fromStr hv with hnil | hpeer
      · rw [hnil, List.append_nil] at hreference
        exact absurd (by simp [← hreference, htext]) hslash
      · exact hpeer
    obtain ⟨⟨rest, hrest⟩, hlast⟩ := hpeer
    obtain ⟨before, hbefore⟩ := exists_before hslash (by decide)
      (show version ++ '(' :: rest = path.customRegistry.getD [] ++ '/' ::
          (path.packageSpecifier.name.display ++ '@' :: suffix) by
        rw [← hrest, ← hreference, htext, List.append_assoc, List.cons_append])
    have hend : reference.getLast? = some ')' := by
      rw [hreference, List.getLast?_append_of_ne_nil _ (by simp [hrest]), hlast]
    have hne : suffix ≠ [] := fun hnil => RoundTripSemver.ne_nil version' _ hversion'
      (List.append_eq_nil_iff.mp (hsuffixText.symm.trans hnil)).1
    have hendSuffix : suffix.getLast? = some ')' := by
      rw [← hend, htext, getLast?_append_cons _ '@' hne]
    obtain ⟨peers, hpeers⟩ := PkgVerPeer.peer_of_closed hsuffix hendSuffix
    refine ⟨version, before, version', peers, path.packageSpecifier.name, ?_, hend, hopen,
      ⟨v.version, hversion⟩, ?_, hparsed.wellFormed, DependencyPath.specifiable_of_fromStr hpath,
      hopen', path.packageSpecifier.suffix.version, hversion'⟩
    · rw [htext, hsuffixText, hpeers, hbefore]
      simp
    · intro hmem
      exact hparsed.no_slash (by simp [hbefore, hmem])
  · rintro ⟨version, before, version', peers, name, htext, hlast, hopen, ⟨v, hv⟩, hslash,
      hwell, hname, hopen', v', hv'⟩
    have htext' : reference = version ++ '(' :: (before ++ '/' :: (name.display ++
        '@' :: (version' ++ '(' :: peers))) := by
      rw [htext]
      simp
    refine ⟨⟨_, htext' ▸ PkgVerPeer.fromStr_append hopen hv (htext' ▸ hlast)⟩, ?_⟩
    have hsuffix : PkgVerPeer.fromStr (version' ++ '(' :: peers) = .ok ⟨v', '(' :: peers⟩ := by
      apply PkgVerPeer.fromStr_append hopen' hv'
      rw [← hlast, ← getLast?_append_cons (version ++ '(' :: before ++ '/' :: name.display) '@'
        (List.append_ne_nil_of_right_ne_nil version' (List.cons_ne_nil '(' peers)), htext]
      simp only [List.append_assoc, List.cons_append]
    have hspec : PkgNameVerPeer.fromStr (name.display ++ '@' :: (version' ++ '(' :: peers)) =
        .ok (⟨name, ⟨v', '(' :: peers⟩⟩ : PkgNameVerPeer V) :=
      PkgNameSuffix.fromStr_append hwell hname (by simp) hsuffix
    have hno : '/' ∉ version ++ '(' :: before := by
      simp only [List.mem_append, List.mem_cons, not_or]
      exact ⟨RoundTripSemver.no_slash version v hv, by decide, hslash⟩
    have hsplit : splitOnce '/' reference = some (version ++ '(' :: before,
        name.display ++ '@' :: (version' ++ '(' :: peers)) :=
      (splitOnce_eq_some_iff _ _ _ _).mpr ⟨hno, by rw [htext']; simp⟩
    exact ⟨⟨some (version ++ '(' :: before), ⟨name, ⟨v', '(' :: peers⟩⟩⟩, by
      simp only [DependencyPath.fromStr, hsplit, hspec]
      simp⟩

end Grammar

section Readers

variable {V : Type} [NodeSemver V] [BEq V]

/-- The lookup of a reference that is taken as a version of the named package. -/
def LockfilePackageIndex.lookupVersion (index : LockfilePackageIndex V)
    (parent : DependencyPath V) (name reference : Text) (version : PkgVerPeer V) :
    Except FetchError (Option (DependencyPath V)) :=
  match PkgName.parse name with
  | .error e => .error (.parseOptionalDependency name reference e.display)
  | .ok packageName => .ok (index.resolveBySpecifier parent.customRegistry ⟨packageName, version⟩)

theorem LockfilePackageIndex.resolveOptionalDependency_path {reference : Text}
    {path : DependencyPath V} (h : DependencyPath.fromStr reference = .ok path)
    (index : LockfilePackageIndex V) (parent : DependencyPath V) (name : Text) :
    index.resolveOptionalDependency parent name reference =
      .ok (index.byDependencyPath.get reference) := by
  unfold LockfilePackageIndex.resolveOptionalDependency
  rw [h]
  rfl

theorem LockfilePackageIndex.resolveOptionalDependency_version {reference : Text}
    {version : PkgVerPeer V}
    (hpath : ¬ ∃ path : DependencyPath V, DependencyPath.fromStr reference = .ok path)
    (h : PkgVerPeer.fromStr reference = .ok version) (index : LockfilePackageIndex V)
    (parent : DependencyPath V) (name : Text) :
    index.resolveOptionalDependency parent name reference =
      index.lookupVersion parent name reference version := by
  unfold LockfilePackageIndex.resolveOptionalDependency
  cases hp : DependencyPath.fromStr (V := V) reference with
  | ok path => exact absurd ⟨path, hp⟩ hpath
  | error e =>
      rw [h]
      rfl

omit [BEq V] in
/-- A version is tried first, then a path. -/
theorem PackageSnapshotDependency.decode_str (reading : Reading) (reference : Text) :
    PackageSnapshotDependency.decode (V := V) reading (.str reference) =
      ((PkgVerPeer.fromStr reference).toOption.map .pkgVerPeer).or
        ((DependencyPath.fromStr reference).toOption.map .dependencyPath) := by
  have hversion : PkgVerPeer.decode (V := V) .buffered (.str reference) =
    (PkgVerPeer.fromStr reference).toOption := rfl
  have hpath : DependencyPath.decode (V := V) .buffered (.str reference) =
    (DependencyPath.fromStr reference).toOption := rfl
  simp only [PackageSnapshotDependency.decode, untagged, List.findSome?, hversion, hpath]
  cases (PkgVerPeer.fromStr (V := V) reference).toOption <;>
    cases (DependencyPath.fromStr (V := V) reference).toOption <;> rfl

omit [BEq V] in
theorem PackageSnapshotDependency.decode_version_iff (reading : Reading) (reference : Text)
    (version : PkgVerPeer V) :
    PackageSnapshotDependency.decode reading (.str reference) = some (.pkgVerPeer version) ↔
      PkgVerPeer.fromStr reference = .ok version := by
  rw [PackageSnapshotDependency.decode_str]
  cases PkgVerPeer.fromStr (V := V) reference <;>
    cases DependencyPath.fromStr (V := V) reference <;> simp [Except.toOption]

omit [BEq V] in
theorem PackageSnapshotDependency.decode_path_iff (reading : Reading) (reference : Text)
    (path : DependencyPath V) :
    PackageSnapshotDependency.decode reading (.str reference) = some (.dependencyPath path) ↔
      (¬ ∃ version : PkgVerPeer V, PkgVerPeer.fromStr reference = .ok version) ∧
        DependencyPath.fromStr reference = .ok path := by
  rw [PackageSnapshotDependency.decode_str]
  cases PkgVerPeer.fromStr (V := V) reference <;>
    cases DependencyPath.fromStr (V := V) reference <;> simp [Except.toOption]

/-- `fetch` takes a reference as the lockfile reader does: as a version of the named
package, or as the text of a path. -/
def SameReading (V : Type) [NodeSemver V] [BEq V] (reference : Text) : Prop :=
  (∀ (reading : Reading) (version : PkgVerPeer V),
    PackageSnapshotDependency.decode reading (.str reference) = some (.pkgVerPeer version) →
      ∀ (index : LockfilePackageIndex V) parent name,
        index.resolveOptionalDependency parent name reference =
          index.lookupVersion parent name reference version) ∧
  ∀ (reading : Reading) (path : DependencyPath V),
    PackageSnapshotDependency.decode reading (.str reference) = some (.dependencyPath path) →
      ∀ (index : LockfilePackageIndex V) parent name,
        index.resolveOptionalDependency parent name reference =
          .ok (index.byDependencyPath.get reference)

/-- The two readers agree on a reference unless the first scoped peer of its version has
peers of its own. -/
theorem sameReading_iff [RoundTripSemver V] (reference : Text) :
    SameReading V reference ↔ ¬ ScopedPeerHasPeers V reference := by
  constructor
  · rintro ⟨hversions, -⟩ hpeers
    obtain ⟨⟨version, hversion⟩, path, hpath⟩ := PkgVerPeer.fromStr_path_iff.mpr hpeers
    have h := hversions .direct version
      ((PackageSnapshotDependency.decode_version_iff .direct reference version).mpr hversion)
      ⟨.empty, .empty⟩ path []
    rw [LockfilePackageIndex.resolveOptionalDependency_path hpath] at h
    cases h
  · intro hno
    refine ⟨fun reading version hdecode index parent name => ?_,
      fun reading path hdecode index parent name => ?_⟩
    · have hversion := (PackageSnapshotDependency.decode_version_iff _ _ _).mp hdecode
      refine LockfilePackageIndex.resolveOptionalDependency_version (fun hpath => hno ?_)
        hversion index parent name
      exact PkgVerPeer.fromStr_path_iff.mp ⟨⟨version, hversion⟩, hpath⟩
    · have hpath := (PackageSnapshotDependency.decode_path_iff _ _ _).mp hdecode
      exact LockfilePackageIndex.resolveOptionalDependency_path hpath.2 index parent name

end Readers

section Samples

/-- `1.0.0(@x/b@2.0.0(c@1.0.0))` -/
def nestedReference : Text := "1.0.0(@x/b@2.0.0(c@1.0.0))".toList

/-- The package `a` in the version that the reference denotes. -/
def nestedPath : DependencyPath CoreVersion :=
  ⟨none, ⟨⟨none, "a".toList⟩, ⟨firstVersion, "(@x/b@2.0.0(c@1.0.0))".toList⟩⟩⟩

def nestedPackages : Packages CoreVersion HashIntegrity :=
  ⟨[(nestedPath, .plain (.registry ⟨⟨"sha512".toList, "YQ==".toList⟩⟩) none none)], by simp⟩

theorem sameReading_plain :
    SameReading CoreVersion "1.0.0(b@2.0.0)".toList ↔
      ¬ ScopedPeerHasPeers CoreVersion "1.0.0(b@2.0.0)".toList :=
  sameReading_iff "1.0.0(b@2.0.0)".toList

/-- The reference denotes a package of the lockfile, which `fetch` does not find: it looks
for the path `b` in the registry `1.0.0(@x`. -/
theorem not_sameReading_nested :
    PackageSnapshotDependency.decode .direct (.str nestedReference) =
        some (.pkgVerPeer nestedPath.packageSpecifier.suffix) ∧
      (LockfilePackageIndex.new nestedPackages).lookupVersion nestedPath "a".toList
        nestedReference nestedPath.packageSpecifier.suffix = .ok (some nestedPath) ∧
      (LockfilePackageIndex.new nestedPackages).resolveOptionalDependency nestedPath "a".toList
        nestedReference = .ok none ∧
      ¬ SameReading CoreVersion nestedReference := by
  have hdecode : PackageSnapshotDependency.decode .direct (.str nestedReference) =
      some (.pkgVerPeer nestedPath.packageSpecifier.suffix) := by
    rw [PackageSnapshotDependency.decode_version_iff]
    rfl
  have hlookup : (LockfilePackageIndex.new nestedPackages).lookupVersion nestedPath "a".toList
      nestedReference nestedPath.packageSpecifier.suffix = .ok (some nestedPath) := rfl
  have hresolve : (LockfilePackageIndex.new nestedPackages).resolveOptionalDependency nestedPath
      "a".toList nestedReference = .ok none := rfl
  refine ⟨hdecode, hlookup, hresolve, fun h => ?_⟩
  have hsame := h.1 .direct _ hdecode (.new nestedPackages) nestedPath "a".toList
  rw [hlookup, hresolve] at hsame
  cases hsame

end Samples

end Npnpm
