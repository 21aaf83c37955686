import Npnpm.Tarball.StoreDir

/-!
# Downloading and extracting a tarball

`run_without_mem_cache` checks the response, extracts its entries into the store
and writes the index file; `load_from_store` answers from an index file that is
already there. Both return the map from paths inside the package to files of the
store, and a package is imported by joining those paths to its directory.
-/

namespace Npnpm

inductive NetworkMode
  | online
  | offline
deriving DecidableEq

structure DownloadTarballToStore (I : Type) where
  storeDir : Text
  packageIntegrity : I
  packageUnpackedSize : Option Nat
  packageUrl : Text
  networkMode : NetworkMode

abbrev CasPaths := KeyedMap Text Text

section Store

variable {I B : Type} [TarballLibs I B]

/-- The file of the store for one entry of an index. -/
def indexedFile (I B : Type) [TarballLibs I B] (storeDir : Text) (e : Text × PackageFileInfo) :
    Except Abort (Text × Text) :=
  match SsriParse.parse (I := I) e.2.integrity with
  | .error error => .error (.error (.parseFileIntegrity error))
  | .ok integrity =>
      (casFilePathByIntegrity B storeDir integrity (isAllExec e.2.mode)).map fun path => (e.1, path)

def loadFromStore (call : DownloadTarballToStore I) (store : StoreFiles B) :
    Except Abort (Option CasPaths) := do
  match ← readIndexFile call.storeDir store call.packageIntegrity with
  | none => return none
  | some index =>
      let casPaths ← index.files.entries.mapM (indexedFile I B call.storeDir)
      return some (KeyedMap.ofList casPaths)

end Store

section Extract

variable {I B : Type} [TarballLibs I B]

/-- The path without its first component, collected again. -/
def cleanedEntryPath (path : Text) : Text := Path.collect ((Path.components path).drop 1)

structure Extracted (B : Type) where
  casPaths : CasPaths
  index : PackageFilesIndex
  store : StoreFiles B

variable (I) in
/-- The body of the loop over the entries that are no directories. -/
def extractEntry (storeDir : Text) (now : Option Nat) (acc : Extracted B) (entry : TarEntry B) :
    Except Abort (Extracted B) :=
  match entry.mode, entry.data, entry.path with
  | some mode, some buffer, some path => do
      let executable := isAllExec mode
      let (filePath, store) ← writeCasFile I storeDir acc.store buffer executable
      let integrity := "sha512-".toList ++ TarballLibs.sha512Base64 I buffer
      return {
        casPaths := acc.casPaths.insert (cleanedEntryPath path) filePath
        index := ⟨acc.index.files.insert (cleanedEntryPath path)
          ⟨now, integrity, mode, entry.size⟩⟩
        store := store }
  | _, _, _ => .error .panic

variable (I) in
def extractEntries (storeDir : Text) (now : Option Nat) (acc : Extracted B) :
    List (Option (TarEntry B)) → Except Abort (Extracted B)
  | [] => .ok acc
  | none :: _ => .error .panic
  | some entry :: rest =>
      if entry.isDir then extractEntries storeDir now acc rest
      else do
        let acc ← extractEntry I storeDir now acc entry
        extractEntries storeDir now acc rest

variable (I) in
/-- The entries of a response that was decompressed and opened. -/
def archiveEntries (unpackedSize : Option Nat) (response : B) :
    Except Abort (List (Option (TarEntry B))) :=
  match TarballLibs.decodeGzip I response unpackedSize with
  | .error error => .error (.error (.decodeGzip error))
  | .ok archive =>
      match TarballLibs.tarEntries I archive with
      | .error error => .error (.error (.readTarballEntries error))
      | .ok entries => .ok entries

/-- The task that is spawned on a response: verify, extract, write the index. -/
def extractResponse (call : DownloadTarballToStore I) (now : Option Nat) (store : StoreFiles B)
    (response : B) : Except Abort (Extracted B) :=
  match TarballLibs.check call.packageIntegrity response with
  | .error error => .error (.error (.checksum call.packageUrl error))
  | .ok () => do
      let entries ← archiveEntries I call.packageUnpackedSize response
      let extracted ← extractEntries I call.storeDir now ⟨.empty, ⟨.empty⟩, store⟩ entries
      let store ← writeIndexFile call.storeDir extracted.store call.packageIntegrity
        extracted.index
      return { extracted with store := store }

def runWithoutMemCache (call : DownloadTarballToStore I) (now : Option Nat)
    (store : StoreFiles B) (response : Except Text B) : Except Abort (Extracted B) :=
  match response with
  | .error error => .error (.error (.fetchTarball call.packageUrl error))
  | .ok response => extractResponse call now store response

end Extract

end Npnpm
