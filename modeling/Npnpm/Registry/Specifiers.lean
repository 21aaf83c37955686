import Npnpm.Registry.CoreRange

/-!
# Specifiers that can be read

A specifier is the tag `latest`, a version or a range. Any other text, such as another
tag or an alias, reaches the call of `unwrap` on a range that could not be parsed.
-/

namespace Npnpm

section Readable

variable {V I : Type} [NodeSemver V] [SemverRange V]

variable (V) in
/-- The specifier is the tag `latest`, a version or a range. -/
def ReadableSpecifier (specifier : Text) : Prop :=
  (PackageTag.fromStr specifier : Except Text (PackageTag V)).isOk = true ∨
    (SemverRange.range specifier : Option (V → Bool)).isSome = true

theorem readableSpecifier_latest : ReadableSpecifier V "latest".toList := by
  apply Or.inl
  rw [PackageTag.fromStr, if_pos rfl]
  rfl

omit [SemverRange V] in
theorem Package.versionByTag_ne {package : Package V I} {tag : PackageTag V} (text : Text) :
    package.versionByTag tag ≠ .error (.invalidRange text) := by
  unfold Package.versionByTag
  cases tag with
  | latest =>
      simp only
      cases package.distTags.get "latest".toList with
      | none => simp
      | some version => cases hrelease : package.versions.get version <;> simp [hrelease]
  | version version =>
      cases hrelease : package.versions.get (NodeSemver.display version) <;> simp [hrelease]

/-- Only a range that cannot be read makes the call of `unwrap` panic. -/
theorem Package.versionBySpecifier_eq_invalidRange_iff {package : Package V I}
    {specifier text : Text} :
    package.versionBySpecifier specifier = .error (.invalidRange text) ↔
      text = specifier ∧ ¬ ReadableSpecifier V specifier := by
  unfold Package.versionBySpecifier
  cases htag : (PackageTag.fromStr specifier : Except Text (PackageTag V)) with
  | ok tag =>
      have hreadable : ReadableSpecifier V specifier := Or.inl (by rw [htag]; rfl)
      constructor
      · exact fun h => absurd h (versionByTag_ne text)
      · exact fun h => absurd hreadable h.2
  | error error =>
      have hreadable : ReadableSpecifier V specifier ↔
          (SemverRange.range specifier : Option (V → Bool)).isSome = true := by
        rw [ReadableSpecifier, htag]
        simp [Except.isOk, Except.toBool]
      rw [hreadable]
      simp only [Package.pinnedVersion]
      cases hrange : (SemverRange.range specifier : Option (V → Bool)) with
      | none =>
          simp only [bind, Except.bind, Except.error.injEq, RegistryStop.invalidRange.injEq]
          simp [eq_comm]
      | some satisfies =>
          simp only [bind, Except.bind]
          split <;> simp

theorem Registry.resolve_ne {registry : Registry V I} {name specifier : Text}
    (h : ReadableSpecifier V specifier) (text : Text) :
    registry.resolve name specifier ≠ .error (.invalidRange text) := by
  apply Results.bind_ne
  · unfold Registry.fetchPackageMetadata
    split <;> simp
  · intro package _ hstop
    exact (Package.versionBySpecifier_eq_invalidRange_iff.mp hstop).2 h

/-- The call returns one of the versions of the package, or an error. -/
def Package.Answers (package : Package V I) (specifier : Text) : Prop :=
  (∃ p key, package.versionBySpecifier specifier = .ok p ∧
    (key, p) ∈ package.versions.entries) ∨
    ∃ error, package.versionBySpecifier specifier = .error (.error error)

theorem Package.answers_iff (package : Package V I) (specifier : Text) :
    package.Answers specifier ↔ ReadableSpecifier V specifier := by
  constructor
  · intro h
    by_contra hnot
    have hstop : package.versionBySpecifier specifier = .error (.invalidRange specifier) :=
      versionBySpecifier_eq_invalidRange_iff.mpr ⟨rfl, hnot⟩
    obtain ⟨p, key, hok, -⟩ | ⟨error, herror⟩ := h
    · rw [hstop] at hok
      cases hok
    · rw [hstop] at herror
      cases herror
  · intro h
    cases hfound : package.versionBySpecifier specifier with
    | ok p =>
        obtain ⟨key, hkey⟩ := versionBySpecifier_mem hfound
        exact Or.inl ⟨p, key, hfound, hkey⟩
    | error stop =>
        cases stop with
        | error error => exact Or.inr ⟨error, hfound⟩
        | invalidRange text =>
            exact absurd h (versionBySpecifier_eq_invalidRange_iff.mp hfound).2

end Readable

end Npnpm
