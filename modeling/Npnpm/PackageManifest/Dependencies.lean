import Npnpm.Lockfile.Snapshot

/-!
# Dependencies of a manifest

The part of `package.json` that an install reads and writes: under the field of
each group an object from names to specifiers. Values that are not of this form
are passed over when the dependencies are listed.

## Implementation notes

An object of `serde_json` keeps its entries in the order of insertion, which the
entries of a map do as well. A value that no function looks into is kept as its text.
-/

namespace Npnpm

/-- A value in the object of a group. -/
inductive ManifestSpecifier
  | string (specifier : Text)
  | other (json : Text)
deriving DecidableEq

/-- The value of a field. -/
inductive ManifestField
  | object (entries : KeyedMap Text ManifestSpecifier)
  | string (text : Text)
  | other (json : Text)

/-- The root of the document. -/
inductive ManifestRoot
  | object (fields : KeyedMap Text ManifestField)
  | null
  | other (json : Text)

structure PackageManifest where
  value : ManifestRoot

inductive PackageManifestError
  | serialization (error : Text)
  | invalidAttribute (message : Text)
  | noScript (command : Text)
  /-- indexing a root that is neither an object nor null panics -/
  | rootPanic
deriving DecidableEq

/-- The field of a group. -/
def DependencyGroup.field : DependencyGroup → Text
  | .prod => "dependencies".toList
  | .dev => "devDependencies".toList
  | .optional => "optionalDependencies".toList
  | .peer => "peerDependencies".toList

def ManifestRoot.get (value : ManifestRoot) (field : Text) : Option ManifestField :=
  match value with
  | .object fields => fields.get field
  | _ => none

def ManifestField.asObject : ManifestField → Option (KeyedMap Text ManifestSpecifier)
  | .object entries => some entries
  | _ => none

def ManifestSpecifier.asStr : ManifestSpecifier → Option Text
  | .string specifier => some specifier
  | .other _ => none

/-- The dependencies of one group: names with specifiers that are strings. -/
def PackageManifest.groupDependencies (manifest : PackageManifest) (group : DependencyGroup) :
    List (Text × Text) :=
  match (manifest.value.get group.field).bind ManifestField.asObject with
  | some dependencies =>
      dependencies.entries.filterMap fun e => e.2.asStr.map fun specifier => (e.1, specifier)
  | none => []

def PackageManifest.dependencies (manifest : PackageManifest) (groups : List DependencyGroup) :
    List (Text × Text) :=
  groups.flatMap manifest.groupDependencies

def PackageManifest.setField (manifest : PackageManifest) (field : Text) (value : ManifestField) :
    Except PackageManifestError PackageManifest :=
  match manifest.value with
  | .object fields => .ok ⟨.object (fields.insert field value)⟩
  | .null => .ok ⟨.object (KeyedMap.empty.insert field value)⟩
  | .other _ => .error .rootPanic

def PackageManifest.addDependency (manifest : PackageManifest) (name version : Text)
    (group : DependencyGroup) : Except PackageManifestError PackageManifest :=
  match manifest.value.get group.field with
  | some (.object dependencies) =>
      manifest.setField group.field (.object (dependencies.insert name (.string version)))
  | some _ =>
      .error (.invalidAttribute "dependencies attribute should be an object".toList)
  | none =>
      manifest.setField group.field
        (.object (KeyedMap.empty.insert name (.string version)))

/-- The names of one group are different. -/
theorem PackageManifest.groupDependencies_nodup (manifest : PackageManifest)
    (group : DependencyGroup) : ((manifest.groupDependencies group).map Prod.fst).Nodup := by
  unfold PackageManifest.groupDependencies
  split
  · rename_i dependencies _
    have hpairs : (dependencies.entries.filterMap fun e =>
        e.2.asStr.map fun specifier => (e.1, specifier)).Pairwise fun a b => a.1 ≠ b.1 := by
      rw [List.pairwise_filterMap]
      refine dependencies.distinct.imp fun {a b} hab p hp q hq => ?_
      obtain ⟨s, -, rfl⟩ := Option.map_eq_some_iff.mp hp
      obtain ⟨s', -, rfl⟩ := Option.map_eq_some_iff.mp hq
      exact fun h => absurd (beq_of_eq h) (by simp [hab])
    exact List.pairwise_map.mpr hpairs
  · exact List.nodup_nil

end Npnpm
