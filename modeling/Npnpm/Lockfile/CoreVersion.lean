import Npnpm.Lockfile.Serialize

/-!
# Core versions

An instance of the version and integrity parameters with which the model can be
run: versions `major.minor.patch` without pre-release and build parts, and
integrity texts of one hash.
-/

namespace Npnpm

/-- `major.minor.patch`, kept as its text. -/
structure CoreVersion where
  text : Text
  plain : ∀ c ∈ text, c.isDigit ∨ c = '.'
deriving DecidableEq

def isNumber (s : Text) : Bool := s ≠ [] && s.all Char.isDigit

/-- Three numbers separated by dots. -/
def isCore (s : Text) : Bool :=
  match Text.splitOnce '.' s with
  | none => false
  | some (major, rest) =>
      match Text.splitOnce '.' rest with
      | none => false
      | some (minor, patch) => isNumber major && isNumber minor && isNumber patch

theorem isNumber_plain {s : Text} (h : isNumber s) : ∀ c ∈ s, c.isDigit ∨ c = '.' := by
  simp only [isNumber, Bool.and_eq_true, List.all_eq_true] at h
  exact fun c hc => Or.inl (h.2 c hc)

theorem isCore_plain {s : Text} (h : isCore s) : ∀ c ∈ s, c.isDigit ∨ c = '.' := by
  unfold isCore at h
  split at h
  · cases h
  · rename_i major rest hs
    split at h
    · cases h
    · rename_i minor patch hr
      obtain ⟨_, hsplit⟩ := (Text.splitOnce_eq_some_iff '.' s major rest).mp hs
      obtain ⟨_, hrest⟩ := (Text.splitOnce_eq_some_iff '.' rest minor patch).mp hr
      simp only [Bool.and_eq_true] at h
      intro c hc
      rw [hsplit, hrest] at hc
      simp only [List.mem_append, List.mem_cons] at hc
      rcases hc with hc | rfl | hc | rfl | hc
      · exact isNumber_plain h.1.1 c hc
      · exact Or.inr rfl
      · exact isNumber_plain h.1.2 c hc
      · exact Or.inr rfl
      · exact isNumber_plain h.2 c hc

instance : NodeSemver CoreVersion where
  parse s := if h : isCore s then .ok ⟨s, isCore_plain h⟩ else .error "No valid ranges".toList
  display v := v.text

/-- The version `1.0.0`. -/
def firstVersion : CoreVersion := ⟨"1.0.0".toList, isCore_plain rfl⟩

/-- The version `2.0.0`. -/
def otherVersion : CoreVersion := ⟨"2.0.0".toList, isCore_plain rfl⟩

instance : PlainSemver CoreVersion where
  plain v c hc := by
    have h := v.plain c hc
    refine ⟨?_, ?_, ?_, ?_, ?_⟩ <;> rintro rfl <;> exact absurd h (by decide)

/-- `{algorithm}-{digest}` -/
structure HashIntegrity where
  algorithm : Text
  digest : Text
deriving DecidableEq

instance : SsriParse HashIntegrity where
  parse s :=
    match Text.splitOnce '-' s with
    | none => .error "Failed to parse subresource integrity string".toList
    | some (algorithm, digest) =>
        if algorithm ∈ ["sha1".toList, "sha256".toList, "sha384".toList, "sha512".toList] then
          .ok ⟨algorithm, digest⟩
        else .error "Failed to parse subresource integrity string".toList

instance : SsriDisplay HashIntegrity where
  display integrity := integrity.algorithm ++ '-' :: integrity.digest

end Npnpm
