import Npnpm.Library.Listings
import Npnpm.Tarball.Prune

/-!
# The store on a file tree

`StoreDir::prune` and `StoreDir::status` look for the index files in the directories below
`files`, read them, and compute the paths of the files that they list. The one removes the
other files, and empties the temporary directory. The other checks each listed file.

## Implementation notes

The bytes of a file are kept as a text with one character for a byte, so that reading an
index has two ways to fail: the bytes may be no UTF-8, or no index. The entries of a
directory come in the order of the tree, and those of a map in the order of the map, which
can be any. Reading and removing fail only where the tree has nothing to read or remove. A
prune that fails keeps the tree that it has come to.
-/

namespace Npnpm

open Npnpm.Path Npnpm.FileTree

/-- The number of hexadecimal digits in a digest. -/
def Algorithm.hexLength : Algorithm → Nat
  | .sha512 => 128
  | .sha384 => 96
  | .sha256 => 64
  | .sha1 => 40
  | .xxh3 => 32

theorem Algorithm.hexLength_injective : Function.Injective Algorithm.hexLength := by
  intro a b h
  cases a <;> cases b <;> first | rfl | cases h

theorem Algorithm.hexLength_ge (algorithm : Algorithm) : 32 ≤ algorithm.hexLength := by
  cases algorithm <;> decide

/-- What is wrong with the bytes of an index file. -/
inductive IndexFault
  | invalidData
  | json (error : Text)

/-- What is used of the standard library and `serde_json` besides. -/
class StoreLibs (I : Type) extends TarballLibs I Text where
  parseIndex : Text → Except IndexFault PackageFilesIndex
  displayIo : IoError → Text

inductive PruneError
  | readDir (dir : List Component) (error : IoError)
  | parseIndexFile (path : List Component) (error : Text)
  | parseIntegrity (path : List Component) (error : Text)
  | removePath (path : List Component) (error : IoError)

inductive StoreStatusError
  | readDir (dir : List Component) (error : IoError)
  | parseIndexFile (path : List Component) (error : Text)
  | parseIntegrity (path : List Component) (error : Text)
  | readStoreFile (path : List Component) (error : IoError)
  | verifyStoreFile (path : List Component) (error : Text)

/-- The errors that the two commands have in common. -/
class IndexErrors (ε : Type) where
  readDir : List Component → IoError → ε
  parseIndexFile : List Component → Text → ε
  parseIntegrity : List Component → Text → ε

instance : IndexErrors PruneError := ⟨.readDir, .parseIndexFile, .parseIntegrity⟩

instance : IndexErrors StoreStatusError := ⟨.readDir, .parseIndexFile, .parseIntegrity⟩

/-- Why a command of the store does not return a value. -/
inductive Stop (ε : Type)
  | panic
  | error (error : ε)

namespace StoreDir

/-- `{store}/v3` -/
def v3 (storeDir : Text) : Text := join storeDir "v3".toList

def files (storeDir : Text) : Text := join (v3 storeDir) "files".toList

def tmp (storeDir : Text) : Text := join (v3 storeDir) "tmp".toList

section Indexes

variable (ε : Type) [IndexErrors ε]

def readDirNames (t : Tree) (dir : List Component) : Except (Stop ε) (List Text) :=
  (readDir t dir).mapError fun error => .error (IndexErrors.readDir dir error)

/-- The index files in the directory of a head. -/
def headIndexPaths (t : Tree) (filesDir : List Component) (head : Text) :
    Except (Stop ε) (List (List Component)) :=
  let headPath := filesDir ++ [.normal head]
  if isDir t headPath then do
    let names ← readDirNames ε t headPath
    .ok ((names.filter fun name =>
      isFile t (headPath ++ [.normal name]) && Prune.isIndexPath name).map fun name =>
        headPath ++ [.normal name])
  else .ok []

def indexPaths (t : Tree) (storeDir : Text) : Except (Stop ε) (List (List Component)) :=
  let filesDir := components (files storeDir)
  if pathExists t filesDir then do
    let heads ← readDirNames ε t filesDir
    let paths ← heads.mapM (headIndexPaths ε t filesDir)
    .ok paths.flatten
  else .ok []

variable (I : Type) [StoreLibs I]

def readIndex (t : Tree) (indexPath : List Component) : Except (Stop ε) PackageFilesIndex :=
  match readFile t indexPath with
  | .error error => .error (.error (IndexErrors.readDir indexPath error))
  | .ok contents =>
      match StoreLibs.parseIndex I contents with
      | .ok index => .ok index
      | .error .invalidData => .error (.error (IndexErrors.readDir indexPath .other))
      | .error (.json error) => .error (.error (IndexErrors.parseIndexFile indexPath error))

/-- The path of a listed file, with its integrity. -/
def storePath (storeDir : Text) (indexPath : List Component) (fileInfo : PackageFileInfo) :
    Except (Stop ε) (List Component × I) :=
  match SsriParse.parse (I := I) fileInfo.integrity with
  | .error error => .error (.error (IndexErrors.parseIntegrity indexPath error))
  | .ok integrity =>
      let isExecutable := fileInfo.mode &&& 0o111 == 0o111
      match casFilePathByIntegrity Text storeDir integrity isExecutable with
      | .ok path => .ok (components path, integrity)
      | .error _ => .error .panic

def listedPaths (t : Tree) (storeDir : Text) (indexPath : List Component) :
    Except (Stop ε) (List (List Component × I)) := do
  let index ← readIndex ε I t indexPath
  index.files.entries.mapM fun e => storePath ε I storeDir indexPath e.2

end Indexes

section Prune

def pruneIndexFilePaths (t : Tree) (storeDir : Text) :
    Except (Stop PruneError) (List (List Component)) := indexPaths PruneError t storeDir

variable (I : Type) [StoreLibs I]

def referencedStoreFiles (t : Tree) (storeDir : Text) :
    Except (Stop PruneError) (List (List Component)) := do
  let indexPaths ← pruneIndexFilePaths t storeDir
  let listed ← indexPaths.mapM (listedPaths PruneError I t storeDir)
  .ok (listed.flatten.map Prod.fst)

/-- An error with the tree at that time. -/
abbrev PruneStop := Stop PruneError × Tree

def removeOrphan (referenced : List (List Component)) (headPath : List Component) (t : Tree)
    (name : Text) : Except PruneStop Tree :=
  let path := headPath ++ [.normal name]
  if isFile t path = false ∨ Prune.isIndexPath name = true ∨ path ∈ referenced then .ok t
  else (removeFile t path).mapError fun error => (.error (.removePath path error), t)

def removeOrphansOf (referenced : List (List Component)) (filesDir : List Component) (t : Tree)
    (head : Text) : Except PruneStop Tree :=
  let headPath := filesDir ++ [.normal head]
  if isDir t headPath then do
    let names ← (readDirNames PruneError t headPath).mapError fun stop => (stop, t)
    names.foldlM (removeOrphan referenced headPath) t
  else .ok t

def removeOrphanCasFiles (t : Tree) (storeDir : Text) (referenced : List (List Component)) :
    Except PruneStop Tree :=
  let filesDir := components (files storeDir)
  if pathExists t filesDir then do
    let heads ← (readDirNames PruneError t filesDir).mapError fun stop => (stop, t)
    heads.foldlM (removeOrphansOf referenced filesDir) t
  else .ok t

def clearTmpEntry (tmpDir : List Component) (t : Tree) (name : Text) : Except PruneStop Tree :=
  let path := tmpDir ++ [.normal name]
  (if isDir t path then removeDirAll t path else removeFile t path).mapError fun error =>
    (.error (.removePath path error), t)

def clearTmpDir (t : Tree) (storeDir : Text) : Except PruneStop Tree :=
  let tmpDir := components (tmp storeDir)
  if pathExists t tmpDir then do
    let names ← (readDirNames PruneError t tmpDir).mapError fun stop => (stop, t)
    names.foldlM (clearTmpEntry tmpDir) t
  else .ok t

def prune (t : Tree) (storeDir : Text) : Except PruneStop Tree := do
  let referenced ← (referencedStoreFiles I t storeDir).mapError fun stop => (stop, t)
  let t' ← removeOrphanCasFiles t storeDir referenced
  clearTmpDir t' storeDir

end Prune

section Status

structure StoreStatus where
  checkedPackages : Nat
  checkedFiles : Nat

def indexFilePaths (t : Tree) (storeDir : Text) :
    Except (Stop StoreStatusError) (List (List Component)) :=
  indexPaths StoreStatusError t storeDir

variable (I : Type) [StoreLibs I]

/-- The first integrity that is listed for a path stays. -/
def uniqueFiles (listed : List (List Component × I)) : KeyedMap (List Component) I :=
  listed.foldl (fun unique e => if (unique.get e.1).isSome then unique else unique.insert e.1 e.2)
    .empty

def checkStoreFile (t : Tree) (e : List Component × I) : Except (Stop StoreStatusError) Unit :=
  match readFile t e.1 with
  | .error error => .error (.error (.readStoreFile e.1 error))
  | .ok contents =>
      (TarballLibs.check e.2 contents).mapError fun error => .error (.verifyStoreFile e.1 error)

def status (t : Tree) (storeDir : Text) : Except (Stop StoreStatusError) StoreStatus := do
  let indexPaths ← indexFilePaths t storeDir
  let listed ← indexPaths.mapM (listedPaths StoreStatusError I t storeDir)
  let unique := uniqueFiles I listed.flatten
  let _ ← unique.entries.mapM (checkStoreFile I t)
  .ok ⟨indexPaths.length, unique.entries.length⟩

end Status

section View

variable {I : Type} [StoreLibs I]

/-- The store as the extraction of tarballs sees it. -/
def storeView (I : Type) [StoreLibs I] (t : Tree) : StoreFiles Text where
  files path :=
    match canonicalize t (components path) with
    | .error .notFound => none
    | .error error => some (.unreadable (StoreLibs.displayIo I error))
    | .ok q =>
        match t.get q with
        | some (.file contents) =>
            if Prune.isIndexPath path then
              match StoreLibs.parseIndex I contents with
              | .ok index => some (.index index)
              | .error .invalidData => some (.unreadable (StoreLibs.displayIo I .other))
              | .error (.json error) => some (.malformed error)
            else some (.cas contents)
        | _ => some (.unreadable (StoreLibs.displayIo I .isADirectory))
  failing _ := none

end View

section Listing

variable {ε : Type} [IndexErrors ε] {t : Tree} {storeDir : Text}

/-- A path that the commands take for an index file. -/
def IsIndexFile (t : Tree) (storeDir : Text) (path : List Component) : Prop :=
  ∃ head name, path = components (files storeDir) ++ [.normal head, .normal name] ∧
    isFile t path = true ∧ Prune.isIndexPath name = true

/-- What is in place of the directory of files can be listed. -/
def FilesReadable (t : Tree) (storeDir : Text) : Prop :=
  pathExists t (components (files storeDir)) = true → isDir t (components (files storeDir)) = true

theorem readDirNames_ok_iff {dir : List Component} {names : List Text} :
    readDirNames ε t dir = .ok names ↔
      ∃ q, canonicalize t dir = .ok q ∧ t.get q = some .dir ∧ t.children q = names := by
  rw [← readDir_ok_iff]
  constructor
  · exact Results.mapError_ok
  · intro h
    rw [readDirNames, h]
    rfl

theorem exists_readDirNames {dir : List Component} (h : isDir t dir = true) :
    ∃ names, readDirNames ε t dir = .ok names := by
  obtain ⟨q, hq, hdir⟩ := isDir_iff.mp h
  exact ⟨_, readDirNames_ok_iff.mpr ⟨q, hq, hdir, rfl⟩⟩

/-- The index files in the directory of a head, without repetition. -/
theorem headIndexPaths_ok {filesDir : List Component} {head : Text}
    {paths : List (List Component)} (h : headIndexPaths ε t filesDir head = .ok paths) :
    paths.Nodup ∧ ∀ path, path ∈ paths ↔
      ∃ name, path = filesDir ++ [.normal head, .normal name] ∧ isFile t path = true ∧
        Prune.isIndexPath name = true := by
  have hcons : ∀ name, filesDir ++ [Component.normal head, .normal name] =
      filesDir ++ [.normal head] ++ [.normal name] := fun name => by simp
  unfold headIndexPaths at h
  simp only at h
  split at h
  · obtain ⟨names, hnames, h⟩ := Results.bind_ok h
    cases h
    obtain ⟨d, hd, -, rfl⟩ := readDirNames_ok_iff.mp hnames
    constructor
    · refine List.Nodup.map (fun name other heq => ?_)
        ((Tree.children_nodup t d).filter _)
      simpa using heq
    · intro path
      rw [List.mem_map]
      constructor
      · rintro ⟨name, hname, rfl⟩
        rw [List.mem_filter, Bool.and_eq_true] at hname
        exact ⟨name, (hcons name).symm, hname.2⟩
      · rintro ⟨name, rfl, hfile, hindex⟩
        rw [hcons] at hfile ⊢
        obtain ⟨q, contents, hq, -⟩ := isFile_iff.mp hfile
        refine ⟨name, ?_, rfl⟩
        rw [List.mem_filter, Tree.mem_children, Bool.and_eq_true]
        exact ⟨taken_of_canonicalize hd hq, hfile, hindex⟩
  · rename_i hnot
    cases h
    refine ⟨List.nodup_nil, fun path => iff_of_false List.not_mem_nil ?_⟩
    rintro ⟨name, rfl, hfile, -⟩
    rw [hcons] at hfile
    obtain ⟨q, contents, hq, -⟩ := isFile_iff.mp hfile
    obtain ⟨d, hd, hdir⟩ := canonicalize_front hq
    exact hnot (isDir_iff.mpr ⟨d, hd, hdir⟩)

theorem exists_headIndexPaths (filesDir : List Component) (head : Text) :
    ∃ paths, headIndexPaths ε t filesDir head = .ok paths := by
  unfold headIndexPaths
  simp only
  split
  · rename_i hdir
    obtain ⟨names, hnames⟩ : ∃ names, readDirNames ε t (filesDir ++ [.normal head]) = .ok names :=
      exists_readDirNames hdir
    exact ⟨_, Results.ok_bind hnames rfl⟩
  · exact ⟨[], rfl⟩

/-- The lists of two heads have nothing in common. -/
theorem nodup_headIndexPaths {filesDir : List Component} {heads : List Text}
    {lists : List (List (List Component))}
    (hall : List.Forall₂ (fun head paths => headIndexPaths ε t filesDir head = .ok paths) heads
      lists) (hheads : heads.Nodup) : lists.flatten.Nodup := by
  induction hall with
  | nil => exact List.nodup_nil
  | @cons head list heads lists hhead hrest ih =>
      obtain ⟨hnot, hheads⟩ := List.nodup_cons.mp hheads
      obtain ⟨hlist, hmem⟩ := headIndexPaths_ok hhead
      rw [List.flatten_cons]
      refine hlist.append (ih hheads) fun path hfirst hother => ?_
      obtain ⟨name, rfl, -⟩ := (hmem path).mp hfirst
      obtain ⟨list', hlist', hpath⟩ := List.mem_flatten.mp hother
      obtain ⟨head', hhead', hsame⟩ :=
        Results.exists_of_mem_mapM ((Results.mapM_ok_iff _ _ _).mpr hrest) hlist'
      obtain ⟨name', heq, -⟩ := ((headIndexPaths_ok hsame).2 _).mp hpath
      have hnames := List.append_cancel_left heq
      simp only [List.cons.injEq, Component.normal.injEq, and_true] at hnames
      exact hnot (hnames.1 ▸ hhead')

/-- The listing has every index file once. -/
theorem indexPaths_ok {paths : List (List Component)} (h : indexPaths ε t storeDir = .ok paths) :
    paths.Nodup ∧ ∀ path, path ∈ paths ↔ IsIndexFile t storeDir path := by
  unfold indexPaths at h
  simp only at h
  split at h
  · obtain ⟨heads, hheads, h⟩ := Results.bind_ok h
    obtain ⟨lists, hlists, h⟩ := Results.bind_ok h
    cases h
    obtain ⟨d, hd, -, rfl⟩ := readDirNames_ok_iff.mp hheads
    constructor
    · exact nodup_headIndexPaths ((Results.mapM_ok_iff _ _ _).mp hlists) (Tree.children_nodup t d)
    · intro path
      rw [List.mem_flatten]
      constructor
      · rintro ⟨list, hlist, hpath⟩
        obtain ⟨head, -, hhead⟩ := Results.exists_of_mem_mapM hlists hlist
        obtain ⟨name, rfl, hfile⟩ := ((headIndexPaths_ok hhead).2 path).mp hpath
        exact ⟨head, name, rfl, hfile⟩
      · rintro ⟨head, name, rfl, hfile, hindex⟩
        have hcons : components (files storeDir) ++ [Component.normal head, .normal name] =
            components (files storeDir) ++ [.normal head] ++ [.normal name] := by simp
        have hhead : head ∈ t.children d := by
          rw [hcons] at hfile
          obtain ⟨q, contents, hq, -⟩ := isFile_iff.mp hfile
          obtain ⟨e, he, -⟩ := canonicalize_front hq
          exact Tree.mem_children.mpr (taken_of_canonicalize hd he)
        obtain ⟨list, hlist, hpaths⟩ := Results.exists_mem_of_mapM hlists hhead
        exact ⟨list, hlist, ((headIndexPaths_ok hpaths).2 _).mpr ⟨name, rfl, hfile, hindex⟩⟩
  · rename_i hnot
    cases h
    refine ⟨List.nodup_nil, fun path => iff_of_false List.not_mem_nil ?_⟩
    rintro ⟨head, name, rfl, hfile, -⟩
    rw [show components (files storeDir) ++ [Component.normal head, .normal name] =
      components (files storeDir) ++ [.normal head] ++ [.normal name] by simp] at hfile
    obtain ⟨q, contents, hq, -⟩ := isFile_iff.mp hfile
    obtain ⟨e, he, -⟩ := canonicalize_front hq
    obtain ⟨d, hd, -⟩ := canonicalize_front he
    exact hnot (pathExists_iff.mpr ⟨d, hd⟩)

theorem exists_indexPaths (h : FilesReadable t storeDir) :
    ∃ paths, indexPaths ε t storeDir = .ok paths := by
  unfold indexPaths
  simp only
  split
  · rename_i hexists
    obtain ⟨heads, hheads⟩ : ∃ heads, readDirNames ε t (components (files storeDir)) = .ok heads :=
      exists_readDirNames (h hexists)
    obtain ⟨lists, hlists⟩ := (Results.exists_mapM_ok_iff
      (headIndexPaths ε t (components (files storeDir))) heads).mpr
        fun head _ => exists_headIndexPaths _ head
    exact ⟨_, Results.ok_bind hheads (Results.ok_bind hlists rfl)⟩
  · exact ⟨[], rfl⟩

variable {I : Type} [StoreLibs I]

/-- The index in a file. -/
def IndexAt (I : Type) [StoreLibs I] (t : Tree) (path : List Component)
    (index : PackageFilesIndex) : Prop :=
  ∃ contents, readFile t path = .ok contents ∧ StoreLibs.parseIndex I contents = .ok index

/-- The file that an entry of an index is for: its integrity, and its path as the
installation computes it. -/
def StoreFile (I : Type) [StoreLibs I] (storeDir : Text) (info : PackageFileInfo)
    (integrity : I) (path : Text) : Prop :=
  SsriParse.parse info.integrity = .ok integrity ∧
    casFilePathByIntegrity Text storeDir integrity (isAllExec info.mode) = .ok path

/-- Some index of the store lists the file. -/
def Listed (I : Type) [StoreLibs I] (t : Tree) (storeDir : Text) (info : PackageFileInfo) : Prop :=
  ∃ path index name, IsIndexFile t storeDir path ∧ IndexAt I t path index ∧
    (name, info) ∈ index.files.entries

/-- The paths of all files that an index lists. -/
def listedCasPaths (I : Type) [StoreLibs I] (t : Tree) (storeDir : Text) : Set (List Component) :=
  {path | ∃ (info : PackageFileInfo) (integrity : I) (text : Text), Listed I t storeDir info ∧
    StoreFile I storeDir info integrity text ∧ components text = path}

theorem IndexAt.unique {path : List Component} {index index' : PackageFilesIndex}
    (h : IndexAt I t path index) (h' : IndexAt I t path index') : index = index' := by
  obtain ⟨contents, hread, hparse⟩ := h
  obtain ⟨contents', hread', hparse'⟩ := h'
  rw [hread, Except.ok.injEq] at hread'
  subst hread'
  rw [hparse, Except.ok.injEq] at hparse'
  exact hparse'

theorem StoreFile.unique {storeDir text text' : Text} {info : PackageFileInfo}
    {integrity integrity' : I} (h : StoreFile I storeDir info integrity text)
    (h' : StoreFile I storeDir info integrity' text') : integrity = integrity' ∧ text = text' := by
  obtain ⟨hparse, hpath⟩ := h
  obtain ⟨hparse', hpath'⟩ := h'
  rw [hparse, Except.ok.injEq] at hparse'
  subst hparse'
  rw [hpath, Except.ok.injEq] at hpath'
  exact ⟨rfl, hpath'⟩

theorem readIndex_ok_iff {path : List Component} {index : PackageFilesIndex} :
    readIndex ε I t path = .ok index ↔ IndexAt I t path index := by
  unfold readIndex IndexAt
  cases hread : readFile t path with
  | error e => simp
  | ok contents =>
      simp only [Except.ok.injEq, exists_eq_left']
      split
      · rename_i index' hparse
        simp only [hparse, Except.ok.injEq]
      · rename_i hparse
        simp [hparse]
      · rename_i error hparse
        simp [hparse]

theorem storePath_ok_iff {indexPath path : List Component} {info : PackageFileInfo}
    {integrity : I} : storePath ε I storeDir indexPath info = .ok (path, integrity) ↔
      ∃ text, StoreFile I storeDir info integrity text ∧ components text = path := by
  unfold storePath StoreFile
  change (match SsriParse.parse (I := I) info.integrity with
    | .error error => _
    | .ok integrity' => match casFilePathByIntegrity Text storeDir integrity'
        (isAllExec info.mode) with
      | .ok path => _
      | .error _ => _) = _ ↔ _
  cases SsriParse.parse (I := I) info.integrity with
  | error e => simp
  | ok integrity' =>
      simp only [Except.ok.injEq]
      cases hpath : casFilePathByIntegrity Text storeDir integrity' (isAllExec info.mode) with
      | error e =>
          simp only [reduceCtorEq, false_iff, not_exists, not_and]
          rintro text ⟨rfl, hcas⟩
          rw [hpath] at hcas
          cases hcas
      | ok text =>
          simp only [Except.ok.injEq, Prod.mk.injEq]
          constructor
          · rintro ⟨rfl, rfl⟩
            exact ⟨text, ⟨rfl, hpath⟩, rfl⟩
          · rintro ⟨text', ⟨rfl, hcas⟩, rfl⟩
            rw [hpath, Except.ok.injEq] at hcas
            exact ⟨by rw [hcas], rfl⟩

/-- Every index file is an index, whose files have a path. -/
def AllListed (I : Type) [StoreLibs I] (t : Tree) (storeDir : Text) : Prop :=
  ∀ path, IsIndexFile t storeDir path → ∃ index, IndexAt I t path index ∧
    ∀ e ∈ index.files.entries, ∃ integrity text, StoreFile I storeDir e.2 integrity text

variable {paths : List (List Component)} (hpaths : ∀ path, path ∈ paths ↔
  IsIndexFile t storeDir path)

include hpaths

theorem exists_listedPaths_iff :
    (∃ listed, paths.mapM (listedPaths ε I t storeDir) = .ok listed) ↔ AllListed I t storeDir := by
  rw [Results.exists_mapM_ok_iff]
  have hone : ∀ path, (∃ listed, listedPaths ε I t storeDir path = .ok listed) ↔
      ∃ index, IndexAt I t path index ∧
        ∀ e ∈ index.files.entries, ∃ integrity text, StoreFile I storeDir e.2 integrity text := by
    intro path
    constructor
    · rintro ⟨listed, hlisted⟩
      obtain ⟨index, hindex, hlisted⟩ := Results.bind_ok hlisted
      refine ⟨index, readIndex_ok_iff.mp hindex, fun e he => ?_⟩
      obtain ⟨⟨path', integrity⟩, -, hpath⟩ := Results.exists_mem_of_mapM hlisted he
      obtain ⟨text, hfile, -⟩ := storePath_ok_iff.mp hpath
      exact ⟨integrity, text, hfile⟩
    · rintro ⟨index, hindex, hall⟩
      obtain ⟨listed, hlisted⟩ := (Results.exists_mapM_ok_iff
        (fun e => storePath ε I storeDir path e.2) index.files.entries).mpr fun e he => by
          obtain ⟨integrity, text, hfile⟩ := hall e he
          exact ⟨_, storePath_ok_iff.mpr ⟨text, hfile, rfl⟩⟩
      exact ⟨listed, Results.ok_bind (readIndex_ok_iff.mpr hindex) hlisted⟩
  exact ⟨fun h path hpath => (hone path).mp (h path ((hpaths path).mpr hpath)),
    fun h path hpath => (hone path).mpr (h path ((hpaths path).mp hpath))⟩

theorem mem_listedPaths_iff {listed : List (List (List Component × I))}
    (h : paths.mapM (listedPaths ε I t storeDir) = .ok listed) (e : List Component × I) :
    e ∈ listed.flatten ↔ ∃ info text, Listed I t storeDir info ∧
      StoreFile I storeDir info e.2 text ∧ components text = e.1 := by
  rw [List.mem_flatten]
  constructor
  · rintro ⟨list, hlist, he⟩
    obtain ⟨path, hpath, hlisted⟩ := Results.exists_of_mem_mapM h hlist
    obtain ⟨index, hindex, hlisted⟩ := Results.bind_ok hlisted
    obtain ⟨⟨name, info⟩, hinfo, hstore⟩ := Results.exists_of_mem_mapM hlisted he
    obtain ⟨text, hfile, htext⟩ := storePath_ok_iff.mp hstore
    exact ⟨info, text, ⟨path, index, name, (hpaths path).mp hpath, readIndex_ok_iff.mp hindex,
      hinfo⟩, hfile, htext⟩
  · rintro ⟨info, text, ⟨path, index, name, hpath, hindex, hinfo⟩, hfile, htext⟩
    obtain ⟨list, hlist, hlisted⟩ :=
      Results.exists_mem_of_mapM h ((hpaths path).mpr hpath)
    obtain ⟨index', hindex', hentries⟩ := Results.bind_ok hlisted
    have hsame := hindex.unique (readIndex_ok_iff.mp hindex')
    subst hsame
    obtain ⟨e', he', hstore⟩ := Results.exists_mem_of_mapM hentries hinfo
    rw [storePath_ok_iff.mpr ⟨text, hfile, htext⟩, Except.ok.injEq] at hstore
    subst hstore
    exact ⟨list, hlist, he'⟩

end Listing

section Names

theorem filesDir_ne_nil (storeDir : Text) : filesDir storeDir ≠ [] := by
  intro hnil
  have hlast : (filesDir storeDir).getLast? = some 's' := getLast?_join rfl (by decide)
  rw [hnil] at hlast
  cases hlast

/-- A name of hexadecimal digits and a suffix is a component. -/
theorem plain_of_hex {hex suffix : Text} (hhex : IsHex hex) (hsuffix : StoreSuffix suffix)
    (hne : hex ++ suffix ≠ []) : (Component.normal (hex ++ suffix)).Plain := by
  have hdot : '.' ∉ hex := hhex.notMem (by decide)
  have hslash : '/' ∉ hex := hhex.notMem (by decide)
  have hlen : hex ++ suffix ≠ ['.'] ∧ hex ++ suffix ≠ ['.', '.'] := by
    cases hex with
    | nil => cases hsuffix <;> decide
    | cons c rest =>
        have hc : c ≠ '.' := fun heq => hdot (by rw [heq]; exact List.mem_cons_self)
        simp [hc]
  refine ⟨fun hmem => ?_, hne, hlen.1, hlen.2⟩
  rcases List.mem_append.mp hmem with hmem | hmem
  · exact hslash hmem
  · cases hsuffix with
    | plain => cases hmem
    | exec => exact absurd hmem (by decide)
    | index => exact absurd hmem (by decide)

/-- A stored file has a name in the directory of its head. -/
theorem components_of_hex {storeDir hex suffix path : Text} (hhex : IsHex hex)
    (hsuffix : StoreSuffix suffix) (hne : hex.drop 2 ++ suffix ≠ [])
    (h : filePathByHexStr storeDir hex suffix = .ok path) :
    components path = components (files storeDir) ++
      [.normal (hex.take 2), .normal (hex.drop 2 ++ suffix)] := by
  obtain ⟨hlen, rfl⟩ := filePathByHexStr_ok hhex hsuffix h
  have hhead : (Component.normal (hex.take 2)).Plain := by
    have htake : hex.take 2 ++ [] ≠ [] := by
      intro hnil
      have hzero := congrArg List.length hnil
      rw [List.append_nil, List.length_take, List.length_nil] at hzero
      omega
    have hplain := plain_of_hex (fun c hc => hhex c (List.mem_of_mem_take hc)) .plain htake
    rwa [List.append_nil] at hplain
  have htail := plain_of_hex (hhex.drop 2) hsuffix hne
  rw [components_append_slash (filesDir_ne_nil storeDir), body_append_slash]
  have hbody := body_text hhead
  have hbody' := body_text htail
  rw [Component.text] at hbody hbody'
  rw [hbody, hbody']
  rfl

variable {I : Type} [StoreLibs I] {integrity : I} {algorithm : Algorithm} {hex text : Text}
  {executable : Bool}

/-- A digest of full length gives a path. -/
theorem exists_casPath (hhex : TarballLibs.toHex Text integrity = some (algorithm, hex))
    (hlen : hex.length = algorithm.hexLength) (storeDir : Text) (executable : Bool) :
    ∃ text, casFilePathByIntegrity Text storeDir integrity executable = .ok text := by
  have hge := algorithm.hexLength_ge
  rw [casFilePathByIntegrity, hhex]
  simp only [filePathByHexStr, if_neg (show ¬ hex.length < 2 by omega)]
  exact ⟨_, rfl⟩

/-- The path of a listed file is made of its digest. -/
theorem components_casPath {storeDir : Text}
    (hhex : TarballLibs.toHex Text integrity = some (algorithm, hex)) (hdigits : IsHex hex)
    (hlen : hex.length = algorithm.hexLength)
    (h : casFilePathByIntegrity Text storeDir integrity executable = .ok text) :
    components text = components (files storeDir) ++
      [.normal (hex.take 2), .normal (hex.drop 2 ++ execSuffix executable)] := by
  rw [casFilePathByIntegrity, hhex] at h
  refine components_of_hex hdigits (storeSuffix_execSuffix _) (fun hnil => ?_) h
  have hdrop := congrArg List.length (List.append_eq_nil_iff.mp hnil).1
  have hge := algorithm.hexLength_ge
  rw [List.length_drop, List.length_nil] at hdrop
  omega

end Names

section Samples

/-- The digest of the empty file, the only one that the samples need. -/
def sampleDigest : Algorithm → Text → Text
  | .sha512, [] => base64ToHex SampleBytes.empty.sha512
  | _, _ => []

def sampleIndex : PackageFilesIndex where
  files := ⟨[("index.js".toList,
    ⟨none, "sha512-".toList ++ SampleBytes.empty.sha512, 0o644, some 0⟩)], by simp⟩

def sampleIndexText : Text :=
  "\x7b\"files\":\x7b\"index.js\":\x7b\"integrity\":\"sha512-".toList ++
    SampleBytes.empty.sha512 ++ "\",\"mode\":420,\"size\":0\x7d\x7d\x7d".toList

instance : StoreLibs HashIntegrity where
  toHex integrity := some (algorithmOf integrity.algorithm, base64ToHex integrity.digest)
  check integrity contents :=
    if sampleDigest (algorithmOf integrity.algorithm) contents = base64ToHex integrity.digest then
      .ok ()
    else .error "Integrity check failed".toList
  decodeGzip _ _ := .error "Bad gzip header".toList
  tarEntries _ := .ok []
  sha512Hex := sampleDigest .sha512
  sha512Base64 contents := if contents = [] then SampleBytes.empty.sha512 else []
  parseIndex contents :=
    if contents = sampleIndexText then .ok sampleIndex
    else .error (.json "expected value at line 1 column 1".toList)
  displayIo _ := "I/O error".toList

/-- A new file, with the directories above it. -/
def writeFile (t : Tree) (path contents : Text) : Except IoError Tree := do
  let t' ← createDirAll t (components path).dropLast
  makeTarget t' (components path) (.file contents)

def sampleIndexPath : Text :=
  ((indexFilePath Text "/store".toList
    (sampleCall "package/index.js".toList).packageIntegrity).toOption).getD []

def sampleCasPath : Text :=
  ((filePathByHexStr "/store".toList (sampleDigest .sha512 []) []).toOption).getD []

/-- A store with the index of one tarball and the file that it lists. -/
def sampleStore : Tree :=
  ((writeFile .empty sampleIndexPath sampleIndexText).bind fun t =>
    writeFile t sampleCasPath []).toOption.getD .empty

theorem sampleInfo_parse :
    SsriParse.parse ("sha512-".toList ++ SampleBytes.empty.sha512) =
      .ok (⟨"sha512".toList, SampleBytes.empty.sha512⟩ : HashIntegrity) := by
  have hsplit : Text.splitOnce '-' ("sha512-".toList ++ SampleBytes.empty.sha512) =
      some ("sha512".toList, SampleBytes.empty.sha512) :=
    (Text.splitOnce_eq_some_iff '-' _ _ _).mpr ⟨by decide, rfl⟩
  simp only [SsriParse.parse, hsplit]
  rfl

theorem sampleDigest_length :
    (base64ToHex SampleBytes.empty.sha512).length = Algorithm.sha512.hexLength := by
  rfl

theorem sampleIndex_of_indexAt {t : Tree} {path : List Component} {index : PackageFilesIndex}
    (h : IndexAt HashIntegrity t path index) : index = sampleIndex := by
  obtain ⟨contents, -, hparse⟩ := h
  simp only [StoreLibs.parseIndex] at hparse
  split at hparse
  · exact (Except.ok.inj hparse).symm
  · cases hparse

end Samples

end StoreDir

end Npnpm
