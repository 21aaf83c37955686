import Npnpm.PackageManager.ManifestCommands

/-!
# Reading package specs

A spec on the command line is cut at its last `@`, a lockfile key at its first one.
The two agree as long as the specifier holds no `@` of its own.
-/

namespace Npnpm

open Npnpm.Text

/-- A package name as npm has it: `bare` or `@scope/bare`, with no other `@`. -/
inductive IsPackageName : Text → Prop
  | bare {bare : Text} (hbare : bare ≠ []) (hat : '@' ∉ bare) : IsPackageName bare
  | inScope {scope bare : Text} (hscope : scope ≠ []) (hbare : bare ≠ []) (hat : '@' ∉ scope)
      (hat' : '@' ∉ bare) : IsPackageName ('@' :: scope ++ '/' :: bare)

/-- Behind the first character of a name no `@` follows. -/
theorem IsPackageName.exists_cons {name : Text} (h : IsPackageName name) :
    ∃ c rest, name = c :: rest ∧ '@' ∉ rest := by
  cases h with
  | bare hbare hat =>
      obtain ⟨c, rest, rfl⟩ := List.exists_cons_of_ne_nil hbare
      exact ⟨c, rest, rfl, fun hmem => hat (List.mem_cons_of_mem c hmem)⟩
  | inScope _ _ hat hat' =>
      refine ⟨'@', _, rfl, ?_⟩
      simp [hat, hat']

/-- A specifier that was read holds no `@`, since the spec is cut at the last one. -/
theorem ParsedPackageSpec.notMem_of_parse {input name specifier : Text}
    (h : ParsedPackageSpec.parse input = ⟨name, some specifier⟩) : '@' ∉ specifier := by
  unfold ParsedPackageSpec.parse at h
  cases input with
  | nil => cases h
  | cons c rest =>
      simp only at h
      split at h
      · rename_i d after before hsplit
        cases h
        rw [List.mem_reverse]
        exact ((splitOnce_eq_some_iff _ _ _ _).mp hsplit).1
      · cases h

/-- A spec whose specifier holds no `@` is cut before it. -/
theorem ParsedPackageSpec.parse_of_notMem {name specifier : Text} (hname : name ≠ [])
    (hspecifier : specifier ≠ []) (hat : '@' ∉ specifier) :
    ParsedPackageSpec.parse (name ++ '@' :: specifier) = ⟨name, some specifier⟩ := by
  obtain ⟨c, rest, rfl⟩ := List.exists_cons_of_ne_nil hname
  have hsplit : splitOnce '@' (rest ++ '@' :: specifier).reverse =
      some (specifier.reverse, rest.reverse) := by
    rw [splitOnce_eq_some_iff]
    refine ⟨by simpa using hat, by simp⟩
  obtain ⟨d, after, hcons⟩ := List.exists_cons_of_ne_nil
    (mt List.reverse_eq_nil_iff.mp hspecifier)
  rw [List.cons_append, ParsedPackageSpec.parse, hsplit, hcons]
  simp only
  rw [← hcons, List.reverse_reverse, List.reverse_reverse]

theorem ParsedPackageSpec.parse_name {c : Char} {rest : Text} (hat : '@' ∉ rest) :
    ParsedPackageSpec.parse (c :: rest) = ⟨c :: rest, none⟩ := by
  have hsplit : splitOnce '@' rest.reverse = none := by
    rw [splitOnce_eq_none_iff]
    simpa using hat
  rw [ParsedPackageSpec.parse, hsplit]

/-- The two readers cut a text at the same place, or both find no specifier. -/
def ParsedPackageSpec.Agrees (text : Text) : Prop :=
  match PkgNameSuffix.splitName (E := Text) text with
  | .ok (name, suffix) => ParsedPackageSpec.parse text = ⟨name, some suffix⟩
  | .error _ => (ParsedPackageSpec.parse text).specifier = none

theorem IsPackageName.splitName {name : Text} (h : IsPackageName name) (specifier : Text) :
    PkgNameSuffix.splitName (E := Text) (name ++ '@' :: specifier) = .ok (name, specifier) := by
  cases h with
  | bare hbare hat =>
      obtain ⟨c, rest, rfl⟩ := List.exists_cons_of_ne_nil hbare
      have hc : c ≠ '@' := by
        rintro rfl
        exact hat List.mem_cons_self
      have hsplit : splitOnce '@' (c :: (rest ++ '@' :: specifier)) =
          some (c :: rest, specifier) := (splitOnce_eq_some_iff _ _ _ _).mpr ⟨hat, rfl⟩
      rw [List.cons_append, PkgNameSuffix.splitName, if_neg hc, hsplit]
  | @inScope scope bare _ _ hat hat' =>
      have hsplit : splitOnce '@' (scope ++ '/' :: bare ++ '@' :: specifier) =
          some (scope ++ '/' :: bare, specifier) :=
        (splitOnce_eq_some_iff _ _ _ _).mpr ⟨by simp [hat, hat'], rfl⟩
      rw [List.cons_append, List.cons_append, PkgNameSuffix.splitName, if_pos rfl, hsplit]

theorem IsPackageName.splitName_alone {name : Text} (h : IsPackageName name) :
    PkgNameSuffix.splitName (E := Text) name = .error .missingSuffix := by
  cases h with
  | bare hbare hat =>
      obtain ⟨c, rest, rfl⟩ := List.exists_cons_of_ne_nil hbare
      have hc : c ≠ '@' := by
        rintro rfl
        exact hat List.mem_cons_self
      rw [PkgNameSuffix.splitName, if_neg hc, (splitOnce_eq_none_iff _ _).mpr hat]
  | @inScope scope bare _ _ hat hat' =>
      have hnone : splitOnce '@' (scope ++ '/' :: bare) = none :=
        (splitOnce_eq_none_iff _ _).mpr (by simp [hat, hat'])
      rw [List.cons_append, PkgNameSuffix.splitName, if_pos rfl, hnone]

/-- A name alone is read back, and a name with a specifier exactly when the specifier
holds no `@`; it is then cut where a lockfile key is cut. -/
theorem ParsedPackageSpec.parse_iff {name specifier : Text} (hname : IsPackageName name)
    (hspecifier : specifier ≠ []) :
    (ParsedPackageSpec.parse (name ++ '@' :: specifier) = ⟨name, some specifier⟩ ∧
      ParsedPackageSpec.parse name = ⟨name, none⟩ ∧
      ParsedPackageSpec.Agrees (name ++ '@' :: specifier) ∧ ParsedPackageSpec.Agrees name) ↔
      '@' ∉ specifier := by
  obtain ⟨c, rest, hcons, hat⟩ := hname.exists_cons
  have halone : ParsedPackageSpec.parse name = ⟨name, none⟩ := by
    rw [hcons]
    exact ParsedPackageSpec.parse_name hat
  constructor
  · rintro ⟨hparse, -⟩
    exact ParsedPackageSpec.notMem_of_parse hparse
  · intro hno
    have hne : name ≠ [] := by
      rw [hcons]
      exact List.cons_ne_nil c rest
    have hparse := ParsedPackageSpec.parse_of_notMem hne hspecifier hno
    refine ⟨hparse, halone, ?_, ?_⟩
    · rw [ParsedPackageSpec.Agrees, hname.splitName]
      exact hparse
    · rw [ParsedPackageSpec.Agrees, hname.splitName_alone, halone]

theorem ParsedPackageSpec.parse_iff_types :
    ParsedPackageSpec.parse ("@types/node".toList ++ '@' :: "^20".toList) =
      ⟨"@types/node".toList, some "^20".toList⟩ := by
  have hname : IsPackageName ('@' :: "types".toList ++ '/' :: "node".toList) :=
    .inScope (by decide) (by decide) (by decide) (by decide)
  exact ((ParsedPackageSpec.parse_iff hname (by decide)).mpr (by decide)).1

/-- An alias is cut inside its specifier. -/
theorem ParsedPackageSpec.not_parse_alias :
    IsPackageName "lodash".toList ∧
      ParsedPackageSpec.parse "lodash@npm:lodash-es@4".toList =
        ⟨"lodash@npm:lodash-es".toList, some "4".toList⟩ ∧
      ¬ ParsedPackageSpec.Agrees "lodash@npm:lodash-es@4".toList := by
  refine ⟨.bare (by decide) (by decide), by decide, fun hagrees => ?_⟩
  have hsplit : PkgNameSuffix.splitName (E := Text) "lodash@npm:lodash-es@4".toList =
      .ok ("lodash".toList, "npm:lodash-es@4".toList) := by rfl
  rw [ParsedPackageSpec.Agrees, hsplit] at hagrees
  exact absurd hagrees (by decide)

end Npnpm
