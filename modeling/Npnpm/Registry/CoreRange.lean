import Npnpm.Lockfile.CoreVersion
import Npnpm.Registry.Package

/-!
# Ranges of core versions

The instances with which the registry can be run: ranges of core versions, and
versions with build metadata, which their `==` ignores.
-/

namespace Npnpm

section Core

/-- The three numbers. -/
def CoreVersion.numbers (version : CoreVersion) : List Nat :=
  (version.text.splitOn '.').map fun number =>
    number.foldl (fun n c => 10 * n + (c.toNat - '0'.toNat)) 0

/-- The ranges `*`, `^major.minor.patch` and `major.minor.patch`. -/
instance : SemverRange CoreVersion where
  range
    | ['*'] => some fun _ => true
    | '^' :: rest =>
        (NodeSemver.parse rest : Except Text CoreVersion).toOption.map fun least version =>
          version.numbers.head? == least.numbers.head? &&
            compare version.numbers least.numbers != .lt
    | text => (NodeSemver.parse text : Except Text CoreVersion).toOption.map fun v version =>
        version == v
  compare a b := compare a.numbers b.numbers

end Core

section Build

/-- A core version followed by `+` and build metadata, if there is any. -/
structure BuildVersion where
  core : CoreVersion
  build : Text

instance : BEq BuildVersion where
  beq a b := a.core == b.core

theorem BuildVersion.beq_iff (a b : BuildVersion) : (a == b) = true ↔ a.core = b.core := by
  change (a.core == b.core) = true ↔ _
  exact beq_iff_eq

instance : EquivBEq BuildVersion where
  rfl := (BuildVersion.beq_iff _ _).mpr rfl
  symm {a b} h := (BuildVersion.beq_iff b a).mpr ((BuildVersion.beq_iff a b).mp h).symm
  trans {a b c} h h' := (BuildVersion.beq_iff a c).mpr
    (((BuildVersion.beq_iff a b).mp h).trans ((BuildVersion.beq_iff b c).mp h'))

instance : NodeSemver BuildVersion where
  parse s :=
    match Text.splitOnce '+' s with
    | none => (NodeSemver.parse s).map fun core => ⟨core, []⟩
    | some (core, build) => (NodeSemver.parse core).map fun core => ⟨core, build⟩
  display v := NodeSemver.display v.core ++ if v.build = [] then [] else '+' :: v.build

instance : SemverRange BuildVersion where
  range text := (SemverRange.range text).map fun satisfies version => satisfies version.core
  compare a b := SemverRange.compare a.core b.core

end Build

end Npnpm
