import Npnpm.Library.Path
import Npnpm.PackageManifest.Dependencies

/-!
# The file of a manifest

`package.json` is read from its file, and written where there is none. Writing opens the
file first, which cuts it, and a run that stops in the middle leaves it so.

## Implementation notes

A file is given by the document in it. The documents of manifests are objects, and no
beginning of an object reads as a document, so a cut file is one that does not parse.
-/

namespace Npnpm

/-- What stands under the name of a file: nothing, a beginning of a content, or all of it. -/
inductive Disk (α : Type)
  | absent
  | cut
  | whole (content : α)
deriving DecidableEq

def Disk.map {α β : Type} (f : α → β) : Disk α → Disk β
  | .absent => .absent
  | .cut => .cut
  | .whole content => .whole (f content)

def Disk.whole? {α : Type} : Disk α → Option α
  | .whole content => some content
  | _ => none

/-- The file after a run that has left this content, or none that is complete. -/
def Disk.LeftAs {α : Type} (before : Disk α) (content : Option α) (after : Disk α) : Prop :=
  match content with
  | some a => after = .whole a
  | none => after = .cut ∨ before = .absent ∧ after = .absent

/-- The errors of the functions that touch the file. -/
inductive ManifestFileError
  | serialization
  | io
  | alreadyExist
  | noImporterManifestFound (path : Text)
deriving DecidableEq

namespace PackageManifest

open Npnpm.Path

def createInitPackageJson (name : Text) : PackageManifest where
  value := .object (.ofList [
    ("name".toList, .string name),
    ("version".toList, .string "1.0.0".toList),
    ("description".toList, .string []),
    ("main".toList, .string "index.js".toList),
    ("scripts".toList, .object (.ofList [
      ("test".toList, .string "echo \"Error: no test specified\" && exit 1".toList)])),
    ("keywords".toList, .other "[]".toList),
    ("author".toList, .string []),
    ("license".toList, .string "ISC".toList)])

/-- The name of the folder that the file is in, empty when the folder has none. -/
def folderName (path : Text) : Text :=
  match (parent (components path)).bind List.getLast? with
  | some (.normal name) => name
  | _ => []

/-- `write_to_file`, when it comes to its end. -/
def writeToFile (path : Text) : PackageManifest := createInitPackageJson (folderName path)

def readFromFile : Disk PackageManifest → Except ManifestFileError PackageManifest
  | .absent => .error .io
  | .cut => .error .serialization
  | .whole manifest => .ok manifest

/-- The file after `init`. -/
def init (path : Text) : Disk PackageManifest → Except ManifestFileError (Disk PackageManifest)
  | .absent => .ok (.whole (writeToFile path))
  | _ => .error .alreadyExist

def fromPath (path : Text) : Disk PackageManifest → Except ManifestFileError PackageManifest
  | .absent => .error (.noImporterManifestFound path)
  | file => readFromFile file

/-- The manifest, with the file after the call. -/
def createIfNeeded (path : Text) :
    Disk PackageManifest → Except ManifestFileError (PackageManifest × Disk PackageManifest)
  | .absent => .ok (writeToFile path, .whole (writeToFile path))
  | file => (readFromFile file).map fun manifest => (manifest, file)

example : (writeToFile "/home/me/demo/package.json".toList).value.get "name".toList =
    some (.string "demo".toList) := rfl

theorem fromPath_eq_ok_iff {path : Text} {file : Disk PackageManifest}
    {manifest : PackageManifest} :
    fromPath path file = .ok manifest ↔ file = .whole manifest := by
  cases file <;> simp [fromPath, readFromFile]

/-- A manifest that was created reads as it was made, from then on. -/
theorem createIfNeeded_eq_ok_iff {path : Text} {file file' : Disk PackageManifest}
    {manifest : PackageManifest} :
    createIfNeeded path file = .ok (manifest, file') ↔
      file' = .whole manifest ∧
        (file = file' ∨ file = .absent ∧ manifest = writeToFile path) := by
  cases file with
  | absent =>
      simp only [createIfNeeded, Except.ok.injEq, Prod.mk.injEq, true_and]
      constructor
      · rintro ⟨rfl, rfl⟩
        exact ⟨rfl, Or.inr rfl⟩
      · rintro ⟨rfl, h | rfl⟩
        · cases h
        · exact ⟨rfl, rfl⟩
  | cut =>
      simp only [createIfNeeded, readFromFile, Except.map, reduceCtorEq, false_and, or_false,
        false_iff, not_and]
      rintro rfl h
      cases h
  | whole manifest' =>
      simp only [createIfNeeded, readFromFile, Except.map, Except.ok.injEq, Prod.mk.injEq,
        reduceCtorEq, false_and, or_false]
      constructor
      · rintro ⟨rfl, rfl⟩
        exact ⟨rfl, rfl⟩
      · rintro ⟨rfl, h⟩
        cases h
        exact ⟨rfl, rfl⟩

end PackageManifest

end Npnpm
