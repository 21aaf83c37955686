import Npnpm.Library.Path
import Npnpm.Library.Results
import Npnpm.PackageManifest.Dependencies

/-!
# Bins of a manifest

The field `bin` of `package.json` is one path, whose name is then the last part of the name
of the package, or an object from names to paths. Nothing is required of the strings.

## Implementation notes

The entries of an object go through a hash map, so their order is any order.
-/

namespace Npnpm

inductive PackageBin
  | string (path : Text)
  | map (entries : KeyedMap Text Text)

/-- What `serde` reports when no variant of an untagged enumeration fits. -/
def noVariant : Text :=
  "data did not match any variant of untagged enum PackageBin".toList

/-- `serde_json::from_value::<PackageBin>` -/
def PackageBin.fromValue : ManifestField → Except PackageManifestError PackageBin
  | .string path => .ok (.string path)
  | .object entries =>
      match entries.entries.mapM fun e => e.2.asStr.map fun path => (e.1, path) with
      | some entries => .ok (.map (.ofList entries))
      | none => .error (.serialization noVariant)
  | .other _ => .error (.serialization noVariant)

def ManifestField.asStr : ManifestField → Option Text
  | .string text => some text
  | _ => none

def PackageManifest.name (manifest : PackageManifest) : Option Text :=
  (manifest.value.get "name".toList).bind ManifestField.asStr

/-- `package_name.rsplit('/').next()` -/
def defaultBinName (packageName : Text) : Option Text := (Path.segments packageName).getLast?

def PackageManifest.binEntries (manifest : PackageManifest) :
    Except PackageManifestError (List (Text × Text)) :=
  match manifest.value.get "bin".toList with
  | none => .ok []
  | some bin => do
      match ← PackageBin.fromValue bin with
      | .string path =>
          .ok (((manifest.name.bind defaultBinName).map fun name => [(name, path)]).getD [])
      | .map entries => .ok entries.entries

/-- A manifest declares no name twice. -/
theorem PackageManifest.binEntries_nodup {manifest : PackageManifest} {entries : List (Text × Text)}
    (h : manifest.binEntries = .ok entries) : (entries.map Prod.fst).Nodup := by
  unfold PackageManifest.binEntries at h
  split at h
  · cases h
    exact List.nodup_nil
  · obtain ⟨bin, -, h⟩ := Results.bind_ok h
    cases bin with
    | string path =>
        cases h
        cases manifest.name.bind defaultBinName with
        | none => exact List.nodup_nil
        | some name => exact List.pairwise_singleton _ _
    | map bins =>
        cases h
        exact bins.nodup_keys

end Npnpm
