import Npnpm.Library.ReorderedMaps
import Npnpm.Registry.DirectLookup

/-!
# Metadata in another order

The maps of the metadata are hash maps, which iterate in an order of their own. What a
specifier is resolved to does not depend on it where no two versions of a package are equal in
precedence.
-/

namespace Npnpm

section Metadata

variable {V I : Type}

/-- The same version, with its maps in another order. -/
structure PackageVersion.Reordered (p q : PackageVersion V I) : Prop where
  name : q.name = p.name
  version : q.version = p.version
  dist : q.dist = p.dist
  dependencies : Option.Rel (KeyedMap.Same (· = ·)) p.dependencies q.dependencies
  optionalDependencies :
    Option.Rel (KeyedMap.Same (· = ·)) p.optionalDependencies q.optionalDependencies
  peerDependencies : Option.Rel (KeyedMap.Same (· = ·)) p.peerDependencies q.peerDependencies

structure Package.Reordered (package package' : Package V I) : Prop where
  name : package'.name = package.name
  distTags : package.distTags.Same (· = ·) package'.distTags
  versions : package.versions.Same PackageVersion.Reordered package'.versions

/-- The same metadata, with all its maps in another order. -/
def Registry.Reordered (registry registry' : Registry V I) : Prop :=
  registry.Same Package.Reordered registry'

theorem PackageVersion.Reordered.symm {p q : PackageVersion V I} (h : p.Reordered q) :
    q.Reordered p := by
  have hmaps : ∀ {a b : Option (KeyedMap Text Text)}, Option.Rel (KeyedMap.Same (· = ·)) a b →
      Option.Rel (KeyedMap.Same (· = ·)) b a :=
    fun h => optionRel_symm (fun _ _ hab => hab.symm fun _ _ => Eq.symm) h
  exact ⟨h.name.symm, h.version.symm, h.dist.symm, hmaps h.dependencies,
    hmaps h.optionalDependencies, hmaps h.peerDependencies⟩

theorem Package.Reordered.symm {package package' : Package V I} (h : package.Reordered package') :
    package'.Reordered package :=
  ⟨h.name.symm, h.distTags.symm fun _ _ => Eq.symm,
    h.versions.symm fun _ _ => PackageVersion.Reordered.symm⟩

theorem Registry.Reordered.symm {registry registry' : Registry V I}
    (h : registry.Reordered registry') : registry'.Reordered registry :=
  KeyedMap.Same.symm (fun _ _ => Package.Reordered.symm) h

theorem PackageVersion.Reordered.refl (p : PackageVersion V I) : p.Reordered p :=
  ⟨rfl, rfl, rfl, optionRel_refl (.refl fun _ => rfl) _, optionRel_refl (.refl fun _ => rfl) _,
    optionRel_refl (.refl fun _ => rfl) _⟩

theorem Package.Reordered.refl (package : Package V I) : package.Reordered package :=
  ⟨rfl, .refl (fun _ => rfl) _, .refl PackageVersion.Reordered.refl _⟩

section Dependencies

variable {p q : PackageVersion V I} (h : p.Reordered q)

theorem bind_get_of_same {m n : Option (KeyedMap Text Text)}
    (h : Option.Rel (KeyedMap.Same (· = ·)) m n) (name : Text) :
    n.bind (·.get name) = m.bind (·.get name) := by
  cases h with
  | none => rfl
  | some h => exact h.get_eq name

theorem mem_mapEntries_iff {m : Option (KeyedMap Text Text)} {d : Text × Text} :
    d ∈ mapEntries m ↔ m.bind (·.get d.1) = some d.2 := by
  cases m with
  | none => simp [mapEntries]
  | some m => exact KeyedMap.get_eq_some_iff.symm

include h

/-- The dependencies are the same ones. -/
theorem PackageVersion.Reordered.mem_dependenciesWith_iff {withPeerDependencies : Bool}
    {d : Text × Text} :
    d ∈ q.dependenciesWith withPeerDependencies ↔ d ∈ p.dependenciesWith withPeerDependencies := by
  have hmaps : ∀ {m n : Option (KeyedMap Text Text)}, Option.Rel (KeyedMap.Same (· = ·)) m n →
      (d ∈ mapEntries n ↔ d ∈ mapEntries m) := by
    intro m n hmn
    rw [mem_mapEntries_iff, mem_mapEntries_iff, bind_get_of_same hmn]
  cases withPeerDependencies <;>
    simp [PackageVersion.dependenciesWith, hmaps h.dependencies, hmaps h.optionalDependencies,
      hmaps h.peerDependencies]

theorem PackageVersion.Reordered.isOptional_eq (name : Text) :
    q.isOptional name = p.isOptional name := by
  have hget := bind_get_of_same h.optionalDependencies name
  have hisOptional : ∀ r : PackageVersion V I,
      r.isOptional name = (r.optionalDependencies.bind (·.get name)).isSome := by
    intro r
    unfold PackageVersion.isOptional
    cases r.optionalDependencies <;> rfl
  rw [hisOptional, hisOptional, hget]

end Dependencies

end Metadata

section Resolution

variable {V I : Type} [SemverRange V] {package package' : Package V I}

instance (package : Package V I) : Decidable package.PrecedenceDistinct :=
  inferInstanceAs (Decidable (package.versions.entries.Pairwise fun e e' =>
    SemverRange.compare e.2.version e'.2.version ≠ .eq))

variable (htrans : Std.TransCmp (SemverRange.compare (V := V)))
include htrans

/-- Versions that are distinct in precedence stay distinct in another order. -/
theorem Package.PrecedenceDistinct.of_reordered (hdistinct : package.PrecedenceDistinct)
    (h : package.Reordered package') : package'.PrecedenceDistinct := by
  apply package'.versions.nodup_entries.pairwise_of_forall_ne
  intro e' he' f' hf' hne heq
  obtain ⟨e, he, hekey, hev⟩ := h.versions.exists_partner he'
  obtain ⟨f, hf, hfkey, hfv⟩ := h.versions.exists_partner hf'
  have hsame : e = f := by
    apply hdistinct.eq htrans he hf
    rw [← hev.version, ← hfv.version, heq]
  subst hsame
  exact hne (KeyedMap.eq_of_mem_of_beq he' hf' (BEq.trans (BEq.symm hekey) hfkey))

/-- The greatest version in another order is the greatest version. -/
theorem Package.IsGreatest.exists_reordered (hdistinct : package.PrecedenceDistinct)
    (h : package.Reordered package') {satisfies : V → Bool}
    {found : Option (PackageVersion V I)} (hgreatest : package.IsGreatest satisfies found) :
    ∃ found', Option.Rel PackageVersion.Reordered found found' ∧
      package'.IsGreatest satisfies found' := by
  cases found with
  | none =>
      refine ⟨none, .none, fun e' he' => ?_⟩
      obtain ⟨e, he, -, hev⟩ := h.versions.exists_partner he'
      rw [hev.version]
      exact hgreatest e he
  | some p =>
      obtain ⟨⟨key, hp⟩, hsatisfies, hmax⟩ := hgreatest
      obtain ⟨p', hget, hpp'⟩ := h.versions.2 _ hp
      have hp' : (key, p') ∈ package'.versions.entries := KeyedMap.get_eq_some_iff.mp hget
      refine ⟨some p', .some hpp', ⟨key, hp'⟩, ?_, fun e' he' hs => ?_⟩
      · rw [hpp'.version]
        exact hsatisfies
      · obtain ⟨e, he, -, hev⟩ := h.versions.exists_partner he'
        rw [hev.version] at hs ⊢
        rw [hpp'.version]
        refine (hmax e he hs).imp_left fun hep => ?_
        have heq : SemverRange.compare e'.2.version p'.version = .eq := by
          rw [hev.version, hpp'.version, hep]
          exact Std.ReflCmp.compare_self
        have hdistinct' := hdistinct.of_reordered htrans h
        exact congrArg Prod.snd (hdistinct'.eq htrans he' hp' heq)

theorem Package.pinnedVersion_reordered (hdistinct : package.PrecedenceDistinct)
    (h : package.Reordered package') (versionRange : Text) :
    Results.Rel (Option.Rel PackageVersion.Reordered) (package.pinnedVersion versionRange)
      (package'.pinnedVersion versionRange) := by
  cases hrange : SemverRange.range (V := V) versionRange with
  | none =>
      simp only [Package.pinnedVersion, hrange]
      exact .error _
  | some satisfies =>
      obtain ⟨found, hfound, hgreatest⟩ :=
        package.pinnedVersion_isGreatest htrans hdistinct hrange
      obtain ⟨found', hfound', hgreatest'⟩ :=
        package'.pinnedVersion_isGreatest htrans (hdistinct.of_reordered htrans h) hrange
      obtain ⟨partner, hrel, hpartner⟩ := hgreatest.exists_reordered htrans hdistinct h
      rw [hfound, hfound', hgreatest'.unique htrans hpartner]
      exact .ok hrel

variable [NodeSemver V]

omit [SemverRange V] htrans in
theorem Package.versionByTag_reordered (h : package.Reordered package') (tag : PackageTag V) :
    Results.Rel PackageVersion.Reordered (package.versionByTag tag)
      (package'.versionByTag tag) := by
  cases tag with
  | version version =>
      have hget := h.versions.get (NodeSemver.display version)
      simp only [Package.versionByTag, h.name]
      generalize package.versions.get (NodeSemver.display version) = found,
        package'.versions.get (NodeSemver.display version) = found' at hget ⊢
      cases hget with
      | none => exact .error _
      | some hp => exact .ok hp
  | latest =>
      simp only [Package.versionByTag, h.distTags.get_eq, h.name]
      cases package.distTags.get "latest".toList with
      | none => exact .error _
      | some version =>
          have hget := h.versions.get version
          simp only
          generalize package.versions.get version = found,
            package'.versions.get version = found' at hget ⊢
          cases hget with
          | none => exact .error _
          | some hp => exact .ok hp

theorem Package.versionBySpecifier_reordered (hdistinct : package.PrecedenceDistinct)
    (h : package.Reordered package') (versionRange : Text) :
    Results.Rel PackageVersion.Reordered (package.versionBySpecifier versionRange)
      (package'.versionBySpecifier versionRange) := by
  unfold Package.versionBySpecifier
  split
  · exact Package.versionByTag_reordered h _
  · refine (package.pinnedVersion_reordered htrans hdistinct h versionRange).bind fun a b hab => ?_
    cases hab with
    | none =>
        rw [h.name]
        exact .error _
    | some hp => exact .ok hp

/-- What a name and a specifier are resolved to does not depend on the order of the maps. -/
theorem Registry.resolve_reordered {registry registry' : Registry V I}
    (hdistinct : ∀ e ∈ registry.entries, e.2.PrecedenceDistinct)
    (h : registry.Reordered registry') (name versionRange : Text) :
    Results.Rel PackageVersion.Reordered (registry.resolve name versionRange)
      (registry'.resolve name versionRange) := by
  have hget := KeyedMap.Same.get h name
  unfold Registry.resolve Registry.fetchPackageMetadata
  cases hpackage : registry.get name with
  | none =>
      rw [hpackage] at hget
      generalize registry'.get name = found at hget ⊢
      cases hget
      exact .error _
  | some package =>
      rw [hpackage] at hget
      generalize registry'.get name = found at hget ⊢
      cases hget with
      | some hp =>
          have hmem := KeyedMap.get_eq_some_iff.mp hpackage
          exact package.versionBySpecifier_reordered htrans (hdistinct _ hmem) hp versionRange

end Resolution

end Npnpm
