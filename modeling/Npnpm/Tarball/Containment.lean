import Npnpm.Lockfile.CoreVersion
import Npnpm.Tarball.Extract

/-!
# Where the files of a package end up

The paths of a package are the paths of its archive without their first
component. They are joined to the directory of the package when it is imported,
from the map of the extraction as well as from the index file it wrote.
-/

namespace Npnpm

open Npnpm.Path

section Keys

variable {I B : Type} [TarballLibs I B]

/-- The path of an archive entry that is extracted. -/
def ExtractedPath (entries : List (Option (TarEntry B))) (path : Text) : Prop :=
  ∃ entry, some entry ∈ entries ∧ entry.isDir = false ∧ entry.path = some path

theorem extractEntry_keys {storeDir : Text} {now : Option Nat} {acc out : Extracted B}
    {entry : TarEntry B} (h : extractEntry I storeDir now acc entry = .ok out) :
    ∃ path, entry.path = some path ∧
      (∀ k, k ∈ out.casPaths.keys ↔ k = cleanedEntryPath path ∨ k ∈ acc.casPaths.keys) ∧
      ∀ k, k ∈ out.index.files.keys ↔ k = cleanedEntryPath path ∨ k ∈ acc.index.files.keys := by
  unfold extractEntry at h
  split at h
  · rename_i path _ _ hpath
    obtain ⟨written, -, h⟩ := Results.bind_ok h
    cases h
    exact ⟨path, hpath, fun k => KeyedMap.mem_keys_insert _ _ _ k,
      fun k => KeyedMap.mem_keys_insert _ _ _ k⟩
  · cases h

/-- The keys of the map and of the index are the cleaned paths of the entries. -/
theorem extractEntries_keys {storeDir : Text} {now : Option Nat}
    {entries : List (Option (TarEntry B))} {acc out : Extracted B}
    (h : extractEntries I storeDir now acc entries = .ok out) (k : Text) :
    (k ∈ out.casPaths.keys ↔ k ∈ acc.casPaths.keys ∨
      ∃ path, ExtractedPath entries path ∧ cleanedEntryPath path = k) ∧
    (k ∈ out.index.files.keys ↔ k ∈ acc.index.files.keys ∨
      ∃ path, ExtractedPath entries path ∧ cleanedEntryPath path = k) := by
  induction entries generalizing acc with
  | nil =>
      cases h
      simp [ExtractedPath]
  | cons e rest ih =>
      cases e with
      | none => cases h
      | some entry =>
          by_cases hdir : entry.isDir
          · rw [extractEntries, if_pos hdir] at h
            have hpaths : ∀ path, ExtractedPath (some entry :: rest) path ↔
                ExtractedPath rest path := by
              intro path
              simp [ExtractedPath, hdir]
            simpa only [hpaths] using ih h
          · rw [extractEntries, if_neg hdir] at h
            obtain ⟨mid, hmid, h⟩ := Results.bind_ok h
            obtain ⟨path, hpath, hcas, hidx⟩ := extractEntry_keys hmid
            have hpaths : ∀ p, ExtractedPath (some entry :: rest) p ↔
                p = path ∨ ExtractedPath rest p := by
              intro p
              simp only [ExtractedPath, List.mem_cons, Option.some.injEq, exists_eq_or_imp,
                hpath, eq_comm (a := path)]
              simp [hdir]
            obtain ⟨hcas', hidx'⟩ := ih h
            rw [hcas] at hcas'
            rw [hidx] at hidx'
            simp only [hpaths, or_and_right, exists_or, exists_eq_left]
            exact ⟨by rw [hcas']; grind, by rw [hidx']; grind⟩

variable (I) in
/-- The path of an extracted entry of a response. -/
def ArchivePath (unpackedSize : Option Nat) (response : B) (path : Text) : Prop :=
  ∃ entries, archiveEntries I unpackedSize response = .ok entries ∧ ExtractedPath entries path

theorem extractResponse_keys {call : DownloadTarballToStore I} {now : Option Nat}
    {store : StoreFiles B} {response : B} {extracted : Extracted B}
    (h : extractResponse call now store response = .ok extracted) (k : Text) :
    (k ∈ extracted.casPaths.keys ↔
      ∃ path, ArchivePath I call.packageUnpackedSize response path ∧
        cleanedEntryPath path = k) ∧
    (k ∈ extracted.index.files.keys ↔
      ∃ path, ArchivePath I call.packageUnpackedSize response path ∧
        cleanedEntryPath path = k) := by
  unfold extractResponse at h
  split at h
  · cases h
  · obtain ⟨entries, hentries, h⟩ := Results.bind_ok h
    obtain ⟨out, hout, h⟩ := Results.bind_ok h
    obtain ⟨store', -, h⟩ := Results.bind_ok h
    cases h
    have harch : ∀ path, ArchivePath I call.packageUnpackedSize response path ↔
        ExtractedPath entries path := by
      intro path
      simp [ArchivePath, hentries]
    have hkeys := extractEntries_keys hout k
    simpa [harch, KeyedMap.keys] using hkeys

theorem indexedFile_fst {storeDir : Text} {e : Text × PackageFileInfo} {r : Text × Text}
    (h : indexedFile I B storeDir e = .ok r) : r.1 = e.1 := by
  unfold indexedFile at h
  split at h
  · cases h
  · obtain ⟨path, -, rfl⟩ := Results.map_ok h
    rfl

/-- What is loaded from an index has the keys of the index. -/
theorem loadFromStore_keys {call : DownloadTarballToStore I} {store : StoreFiles B}
    {index : PackageFilesIndex} {map : CasPaths}
    (hindex : readIndexFile call.storeDir store call.packageIntegrity = .ok (some index))
    (h : loadFromStore call store = .ok (some map)) (k : Text) :
    k ∈ map.keys ↔ k ∈ index.files.keys := by
  unfold loadFromStore at h
  obtain ⟨found, hfound, h⟩ := Results.bind_ok h
  rw [hindex] at hfound
  cases hfound
  obtain ⟨casPaths, hcas, h⟩ := Results.bind_ok h
  cases h
  rw [KeyedMap.mem_keys_ofList]
  have hfst : casPaths.map Prod.fst = index.files.entries.map Prod.fst :=
    Results.map_eq_of_mapM (fun e r he => indexedFile_fst he) hcas
  rw [hfst]
  rfl

end Keys

section Containment

variable {I B : Type} [TarballLibs I B]

/-- The maps a package is imported from: the one its extraction returned, and
those loaded later from the index file of the extraction. -/
inductive PackageMap (extracted : Extracted B) : CasPaths → Prop
  | cold : PackageMap extracted extracted.casPaths
  | warm {call : DownloadTarballToStore I} {store : StoreFiles B} {map : CasPaths}
      (hindex : readIndexFile call.storeDir store call.packageIntegrity =
        .ok (some extracted.index))
      (h : loadFromStore call store = .ok (some map)) : PackageMap extracted map

theorem body_cleanedEntryPath (path : Text) :
    body (cleanedEntryPath path) = (components path).drop 1 ∧
      isAbsolute (cleanedEntryPath path) = false :=
  collect_spec fun _ hc => plain_of_mem_components_drop hc

/-- Every file of a package lands in its directory, wherever that is and however
the package is imported, exactly when no entry of the archive climbs above its
first component. -/
theorem package_paths_within_iff {call : DownloadTarballToStore I} {now : Option Nat}
    {store : StoreFiles B} {response : B} {extracted : Extracted B}
    (h : extractResponse call now store response = .ok extracted) :
    (∀ map, PackageMap (I := I) extracted map →
      ∀ key ∈ map.keys, ∀ dirPath, Within dirPath (join dirPath key)) ↔
      ∀ path, ArchivePath I call.packageUnpackedSize response path →
        Descends 0 ((components path).drop 1) := by
  have hkeys := extractResponse_keys h
  have hwithin : ∀ path, (∀ dirPath, Within dirPath (join dirPath (cleanedEntryPath path))) ↔
      Descends 0 ((components path).drop 1) := by
    intro path
    obtain ⟨hbody, habs⟩ := body_cleanedEntryPath path
    rw [forall_within_join_iff, hbody, habs]
    simp
  constructor
  · intro hall path hpath
    rw [← hwithin]
    exact hall _ .cold _ ((hkeys _).1.mpr ⟨path, hpath, rfl⟩)
  · intro hall map hmap key hkey
    have hcleaned : ∃ path, ArchivePath I call.packageUnpackedSize response path ∧
        cleanedEntryPath path = key := by
      cases hmap with
      | cold => exact (hkeys key).1.mp hkey
      | warm hindex hload => exact (hkeys key).2.mp ((loadFromStore_keys hindex hload key).mp hkey)
    obtain ⟨path, hpath, rfl⟩ := hcleaned
    exact (hwithin path).mpr (hall path hpath)

end Containment

section Sample

/-- The value of a base64 digit. -/
def sextet (c : Char) : Nat :=
  if c.isUpper then c.toNat - 'A'.toNat
  else if c.isLower then c.toNat - 'a'.toNat + 26
  else if c.isDigit then c.toNat - '0'.toNat + 52
  else if c = '+' then 62
  else 63

/-- Two base64 digits hold three hexadecimal ones. -/
def nibbles : List Nat → List Nat
  | [] => []
  | [a] => [a / 4]
  | a :: b :: rest => a / 4 :: (a % 4 * 4 + b / 16) :: b % 16 :: nibbles rest

/-- The hexadecimal form of the bytes of a base64 text. -/
def base64ToHex (s : Text) : Text :=
  let digits := s.filter fun c => c ≠ '='
  ((nibbles (digits.map sextet)).take (digits.length * 6 / 8 * 2)).map fun n =>
    if n < 10 then Char.ofNat ('0'.toNat + n) else Char.ofNat ('a'.toNat + n - 10)

def algorithmOf (name : Text) : Algorithm :=
  if name = "sha512".toList then .sha512
  else if name = "sha384".toList then .sha384
  else if name = "sha256".toList then .sha256
  else .sha1

/-- Byte strings to run the extraction on: the empty file, a tar archive of one
empty file, and the same archive compressed. -/
inductive SampleBytes
  | empty
  | tar (path : Text)
  | gz (path : Text)

/-- The SHA-512 digests of the byte strings that are hashed, in base64. -/
def SampleBytes.sha512 : SampleBytes → Text
  | .empty => ("z4PhNX7vuL3xVChQ1m2AB9Yg5AULVxXcg/SpIdNs6c5H0NE8XYXysP+DGNKHfuwvY7kxvUdB" ++
      "eoGlODJ6+SfaPg==").toList
  | .gz path =>
      if path = "package/index.js".toList then
        ("rQYyzJCuj9ZVDSmNkrT8UGMlEw6dC8A1wyCO67IJ1FIj9jcuV7lb2B8Gp/8bNwc7vR4WzbyU" ++
          "vOay05dTFTghPA==").toList
      else if path = "package/../../evil.js".toList then
        ("zenLw80OFCRKecOShLsucnVUwckVCa2QYBniPrHt3Mq0VO2aCxfOjD+sM5fdOF4UQdEHI4pX" ++
          "AC62Swgsmk9/Fw==").toList
      else []
  | .tar _ => []

instance : TarballLibs HashIntegrity SampleBytes where
  toHex integrity := some (algorithmOf integrity.algorithm, base64ToHex integrity.digest)
  check integrity bytes :=
    if integrity.algorithm = "sha512".toList ∧ integrity.digest = bytes.sha512 then .ok ()
    else .error "Integrity check failed".toList
  decodeGzip bytes _ :=
    match bytes with
    | .gz path => .ok (.tar path)
    | _ => .error "Bad gzip header".toList
  tarEntries bytes :=
    match bytes with
    | .tar path => .ok [some ⟨some path, false, some 0o644, some .empty, some 0⟩]
    | _ => .ok []
  sha512Hex bytes := base64ToHex bytes.sha512
  sha512Base64 bytes := bytes.sha512

def emptyStore : StoreFiles SampleBytes := ⟨fun _ => none, fun _ => none⟩

/-- The download of a sample archive, with its integrity. -/
def sampleCall (path : Text) : DownloadTarballToStore HashIntegrity where
  storeDir := "/store".toList
  packageIntegrity := ⟨"sha512".toList, (SampleBytes.gz path).sha512⟩
  packageUnpackedSize := none
  packageUrl := "https://registry.npmjs.com/a/-/a-1.0.0.tgz".toList
  networkMode := .online

/-- The same download without a network. -/
def offlineCall : DownloadTarballToStore HashIntegrity :=
  { sampleCall "package/index.js".toList with networkMode := .offline }

/-- The download of another tarball. -/
def otherCall : DownloadTarballToStore HashIntegrity :=
  { offlineCall with packageUrl := "https://registry.npmjs.com/b/-/b-1.0.0.tgz".toList }

/-- The same tarball, expected to be another archive. -/
def otherIntegrityCall : DownloadTarballToStore HashIntegrity :=
  { sampleCall "package/index.js".toList with
    packageIntegrity := ⟨"sha512".toList, (SampleBytes.gz "package/../../evil.js".toList).sha512⟩ }

theorem sampleCall_keys :
    (extractResponse (sampleCall "package/index.js".toList) none emptyStore
      (.gz "package/index.js".toList)).toOption.map (fun e => e.casPaths.keys) =
        some ["index.js".toList] := by decide +kernel

theorem package_paths_within_index :
    ∃ extracted, extractResponse (sampleCall "package/index.js".toList) none emptyStore
        (.gz "package/index.js".toList) = .ok extracted ∧
      extracted.casPaths.keys = ["index.js".toList] ∧
      ((∀ map, PackageMap (I := HashIntegrity) extracted map →
        ∀ key ∈ map.keys, ∀ dirPath, Within dirPath (join dirPath key)) ↔
        ∀ path, ArchivePath HashIntegrity none (SampleBytes.gz "package/index.js".toList) path →
          Descends 0 ((components path).drop 1)) := by
  obtain ⟨extracted, hok, hkeys⟩ := Results.exists_of_toOption_map sampleCall_keys
  exact ⟨extracted, hok, hkeys, package_paths_within_iff hok⟩

/-- A verified archive whose file is written beside the package directory. -/
theorem package_path_escapes :
    ∃ extracted, extractResponse (sampleCall "package/../../evil.js".toList) none emptyStore
        (.gz "package/../../evil.js".toList) = .ok extracted ∧
      ∃ key ∈ extracted.casPaths.keys,
        ¬ Within "/project/node_modules/.pnpm/a@1.0.0/node_modules/a".toList
          (join "/project/node_modules/.pnpm/a@1.0.0/node_modules/a".toList key) := by
  have hkeys : (extractResponse (sampleCall "package/../../evil.js".toList) none emptyStore
      (.gz "package/../../evil.js".toList)).toOption.map (fun e => e.casPaths.keys) =
        some ["../../evil.js".toList] := by decide +kernel
  obtain ⟨extracted, hok, hkeys⟩ := Results.exists_of_toOption_map hkeys
  refine ⟨extracted, hok, "../../evil.js".toList, by rw [hkeys]; simp, ?_⟩
  rintro ⟨rest, hrest⟩
  have hjoined : (place (join "/project/node_modules/.pnpm/a@1.0.0/node_modules/a".toList
      "../../evil.js".toList)).names.length = 5 := by decide
  have hdir : (place "/project/node_modules/.pnpm/a@1.0.0/node_modules/a".toList).names.length =
      6 := by decide
  have hlen := congrArg (fun p => p.names.length) hrest
  simp only [List.length_append, hjoined, hdir] at hlen
  omega

end Sample

end Npnpm
