import Mathlib.Data.List.Sort
import Npnpm.PackageManager.LinkPackages

/-!
# Creating the bin links

After an install the `.bin` directories are made anew: one in the modules
directory and one beside the packages of each directory of the virtual store.

## Implementation notes

Which bins a `package.json` declares is a function of its text, or an error; here
any function will do. Directory listings are sorted by name before they are used.
-/

namespace Npnpm

open Npnpm.Path Npnpm.FileTree

inductive CreateBinsError
  | readDir (dir : Text) (error : IoError)
  | readDirEntry (dir : Text) (error : IoError)
  | createBinDir (dir : Text) (error : IoError)
  | removeBinDir (dir : Text) (error : IoError)
  | loadManifest (path : Text) (error : Text)
  | createBinLink (target link : Text) (error : IoError)
deriving DecidableEq

/-- The bins that a manifest declares: names and relative targets. -/
abbrev BinEntries := Text → Except Text (List (Text × Text))

def textLe (a b : Text) : Bool := !List.lex b a fun c d => c < d

/-- The entries of a directory, sorted by file name. -/
def sortedEntries (t : Tree) (dir : Text) : Except CreateBinsError (List Text) := do
  let names ← (readDir t (components dir)).mapError (.readDir dir)
  .ok (names.insertionSort fun a b => textLe a b)

/-- `file_type` of a directory entry, which does not follow a link. -/
def fileType (t : Tree) (path : Text) : Except IoError Node :=
  symlinkMetadata t (components path)

def isDirOrLink (t : Tree) (path : Text) : Bool :=
  match fileType t path with
  | .ok .dir => true
  | .ok (.link _) => true
  | _ => false

/-- The package directories of one entry: those of a scope, or itself. -/
def entryPackageDirs (t : Tree) (nodeModulesDir name : Text) :
    Except CreateBinsError (List Text) := do
  let path := join nodeModulesDir name
  let type ← (fileType t path).mapError (.readDirEntry nodeModulesDir)
  if name.head? = some '.' then .ok []
  else if name.head? = some '@' ∧ type = .dir then do
    let scopedNames ← sortedEntries t path
    .ok ((scopedNames.map (join path)).filter (isDirOrLink t))
  else if isDirOrLink t path then .ok [path]
  else .ok []

def immediatePackageDirs (t : Tree) (nodeModulesDir : Text) :
    Except CreateBinsError (List Text) := do
  let names ← sortedEntries t nodeModulesDir
  let packageDirs ← names.mapM (entryPackageDirs t nodeModulesDir)
  .ok packageDirs.flatten

/-- The bins of one package; those of a package without manifest are none. -/
def packageBins (binEntries : BinEntries) (t : Tree) (packageDir : Text) :
    Except CreateBinsError (List (Text × Text)) :=
  let manifestPath := join packageDir "package.json".toList
  if pathExists t (components manifestPath) then
    match readFile t (components manifestPath) with
    | .error _ => .error (.loadManifest manifestPath [])
    | .ok content => do
        let entries ← (binEntries content).mapError (.loadManifest manifestPath)
        .ok ((entries.insertionSort fun a b =>
          textLe a.1 b.1 && (a.1 != b.1 || textLe a.2 b.2)).map
            fun e => (e.1, join packageDir e.2))
  else .ok []

/-- The first declaration of each bin, sorted by name. -/
def collectBins (bins : List (Text × Text)) : List (Text × Text) :=
  let links : KeyedMap Text Text := bins.foldl
    (fun links e => if (links.get e.1).isSome then links else links.insert e.1 e.2) .empty
  links.entries.insertionSort fun a b => textLe a.1 b.1

/-- `symlink_file`; a path that is taken is left alone. -/
def createBinLink (binDir : Text) (t : Tree) (bin : Text × Text) : Except CreateBinsError Tree :=
  let link := join binDir bin.1
  match symlink t bin.2 (components link) with
  | .ok t' => .ok t'
  | .error .alreadyExists => .ok t
  | .error error => .error (.createBinLink bin.2 link error)

def createBinLinksForNodeModules (binEntries : BinEntries) (t : Tree) (nodeModulesDir : Text) :
    Except CreateBinsError Tree := do
  let packageDirs ← immediatePackageDirs t nodeModulesDir
  let bins ← packageDirs.mapM (packageBins binEntries t)
  let binDir := join nodeModulesDir ".bin".toList
  let t ← if pathExists t (components binDir) then
      (removeDirAll t (components binDir)).mapError (.removeBinDir binDir)
    else .ok t
  match collectBins bins.flatten with
  | [] => .ok t
  | links => do
      let t ← (createDirAll t (components binDir)).mapError (.createBinDir binDir)
      links.foldlM (createBinLink binDir) t

def collectVirtualStoreNodeModulesDirs (t : Tree) (root : Text) :
    Except CreateBinsError (List Text) := do
  let names ← sortedEntries t root
  let directories := names.filter fun name =>
    (fileType t (join root name)).toOption == some .dir
  .ok ((directories.map fun name => join (join root name) "node_modules".toList).filter
    fun dir => pathExists t (components dir))

def CreateBins.run (binEntries : BinEntries) (modulesDir virtualStoreDir : Text) (t : Tree) :
    Except CreateBinsError Tree := do
  let t ← if pathExists t (components modulesDir) then
      createBinLinksForNodeModules binEntries t modulesDir
    else .ok t
  if pathExists t (components virtualStoreDir) then do
    let dirs ← collectVirtualStoreNodeModulesDirs t virtualStoreDir
    dirs.foldlM (createBinLinksForNodeModules binEntries) t
  else .ok t

end Npnpm
