import Npnpm.Library.Path
import Npnpm.Library.KeyedMap
import Npnpm.Library.Results
import Npnpm.Lockfile.Deserialize

/-!
# The store directory

Files are addressed by the hexadecimal form of a hash. The index file of a
tarball lists the paths inside the package with the integrity of each file, and
is addressed by the integrity of the tarball.

## Implementation notes

Hashing, decompression and archive parsing belong to other crates and are the
parameter `TarballLibs`. A call that panics aborts; it is kept apart from the
errors that a caller can handle.
-/

namespace Npnpm

/-- `ssri::Algorithm` -/
inductive Algorithm
  | sha512
  | sha384
  | sha256
  | sha1
  | xxh3
deriving DecidableEq

/-- An entry of a tar archive with contents of type `B`. A missing part is one
that the reader fails on; `path` is the stored path, not sanitised. -/
structure TarEntry (B : Type) where
  path : Option Text
  isDir : Bool
  mode : Option Nat
  data : Option B
  size : Option Nat

/-- What is used of `ssri`, `sha2`, `base64`, `zune_inflate` and `tar`. -/
class TarballLibs (I B : Type) extends SsriParse I where
  /-- The algorithm and the hexadecimal digest of the first hash, if it has one. -/
  toHex : I → Option (Algorithm × Text)
  check : I → B → Except Text Unit
  decodeGzip : B → Option Nat → Except Text B
  tarEntries : B → Except Text (List (Option (TarEntry B)))
  sha512Hex : B → Text
  sha512Base64 : B → Text

inductive TarballError
  | fetchTarball (url error : Text)
  | readTarballEntries (error : Text)
  | checksum (url error : Text)
  | decodeGzip (error : Text)
  | writeCasFile (error : Text)
  | writeTarballIndexFile (error : Text)
  | readTarballIndexFile (error : Text)
  | parseFileIntegrity (error : Text)
  | offlineCacheMiss (url : Text)
deriving DecidableEq

def TarballError.display : TarballError → Text
  | .fetchTarball url error => "Failed to fetch ".toList ++ url ++ ": ".toList ++ error
  | .readTarballEntries error => error
  | .checksum url error =>
      "Failed to verify the integrity of ".toList ++ url ++ ": ".toList ++ error
  | .decodeGzip error => "Failed to decode gzip: ".toList ++ error
  | .writeCasFile error => "Failed to write cafs: ".toList ++ error
  | .writeTarballIndexFile error => "Failed to write tarball index: ".toList ++ error
  | .readTarballIndexFile error => "Failed to read tarball index: ".toList ++ error
  | .parseFileIntegrity error =>
      "Failed to parse file integrity from tarball index: ".toList ++ error
  | .offlineCacheMiss url => "Package is missing from the store while offline: ".toList ++ url

/-- Why a call does not return a value. -/
inductive Abort
  | panic
  | error (error : TarballError)
deriving DecidableEq

structure PackageFileInfo where
  checkedAt : Option Nat
  integrity : Text
  mode : Nat
  size : Option Nat
deriving DecidableEq

structure PackageFilesIndex where
  files : KeyedMap Text PackageFileInfo

/-- What a path of the store holds. An index is kept as the value its JSON text
denotes. -/
inductive StoredFile (B : Type)
  | cas (content : B)
  | index (content : PackageFilesIndex)
  | malformed (error : Text)
  | unreadable (error : Text)

/-- The files below the store directory. Writing to a path of `failing` fails. -/
structure StoreFiles (B : Type) where
  files : Text → Option (StoredFile B)
  failing : Text → Option Text

section Paths

def execMask : Nat := 0o111

/-- Whether a file mode has all executable bits. -/
def isAllExec (mode : Nat) : Bool := mode &&& execMask == execMask

/-- The first two digits of the address name a directory. -/
def filePathByHexStr (storeDir hex suffix : Text) : Except Abort Text :=
  if hex.length < 2 then .error .panic
  else
    let files := Path.join (Path.join storeDir "v3".toList) "files".toList
    .ok (Path.join (Path.join files (hex.take 2)) (hex.drop 2 ++ suffix))

def execSuffix (executable : Bool) : Text := if executable then "-exec".toList else []

variable {I B : Type} [TarballLibs I B]

variable (I) in
def casFilePath (storeDir : Text) (content : B) (executable : Bool) : Except Abort Text :=
  filePathByHexStr storeDir (TarballLibs.sha512Hex I content) (execSuffix executable)

variable (B) in
def casFilePathByIntegrity (storeDir : Text) (integrity : I) (executable : Bool) :
    Except Abort Text :=
  match TarballLibs.toHex B integrity with
  | none => .error .panic
  | some (_, hex) => filePathByHexStr storeDir hex (execSuffix executable)

variable (B) in
/-- Only SHA-1 and SHA-512 are supported. -/
def indexFilePath (storeDir : Text) (integrity : I) : Except Abort Text :=
  match TarballLibs.toHex B integrity with
  | some (.sha512, hex) => filePathByHexStr storeDir hex "-index.json".toList
  | some (.sha1, hex) => filePathByHexStr storeDir hex "-index.json".toList
  | _ => .error .panic

end Paths

section Files

variable {I B : Type} [TarballLibs I B]

/-- Write unless the path exists. -/
def ensureFile (store : StoreFiles B) (path : Text) (file : StoredFile B) :
    Except Text (StoreFiles B) :=
  match store.files path with
  | some _ => .ok store
  | none =>
      match store.failing path with
      | some error => .error error
      | none => .ok { store with files := fun p => if p = path then some file else store.files p }

variable (I) in
/-- Returns the path and the digest of the content. -/
def writeCasFile (storeDir : Text) (store : StoreFiles B) (buffer : B) (executable : Bool) :
    Except Abort (Text × StoreFiles B) := do
  let path ← casFilePath I storeDir buffer executable
  match ensureFile store path (.cas buffer) with
  | .error error => .error (.error (.writeCasFile error))
  | .ok store => .ok (path, store)

def writeIndexFile (storeDir : Text) (store : StoreFiles B) (integrity : I)
    (index : PackageFilesIndex) : Except Abort (StoreFiles B) := do
  let path ← indexFilePath B storeDir integrity
  match ensureFile store path (.index index) with
  | .error error => .error (.error (.writeTarballIndexFile error))
  | .ok store => .ok store

def readIndexFile (storeDir : Text) (store : StoreFiles B) (integrity : I) :
    Except Abort (Option PackageFilesIndex) := do
  let path ← indexFilePath B storeDir integrity
  match store.files path with
  | none => .ok none
  | some (.index index) => .ok (some index)
  | some (.cas _) => .error (.error (.readTarballIndexFile "expected value".toList))
  | some (.malformed error) => .error (.error (.readTarballIndexFile error))
  | some (.unreadable error) => .error (.error (.readTarballIndexFile error))

end Files

end Npnpm
