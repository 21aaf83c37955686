import Npnpm.Library.ByteTexts
import Npnpm.Tarball.StoreTree

/-!
# Addresses of the store

A file of the store is addressed by the SHA-512 hash of its content and a flag, and an
index by the integrity of its tarball. An address is split after two digits, and a suffix
follows. Different addresses have different paths, whichever function computes them.

## Implementation notes

Paths are compared by their components, as `PathBuf` does. A hash carries its length, and
so does the digest of an integrity.
-/

namespace Npnpm

open Npnpm.Path Npnpm.ByteTexts Npnpm.StoreDir

/-- `FileHash`: the bytes of a SHA-512 digest. -/
structure FileHash where
  bytes : List UInt8
  full : bytes.length = 64
deriving DecidableEq

/-- `StoreDir::cas_file_path` -/
def FileHash.casFilePath (storeDir : Text) (hash : FileHash) (executable : Bool) :
    Except Abort Text :=
  filePathByHexStr storeDir (hex hash.bytes) (execSuffix executable)

/-- What the index of a tarball records for a file with the hash. -/
def FileHash.fileIntegrity (hash : FileHash) : Text := "sha512-".toList ++ base64 hash.bytes

/-- What is relied on of `sha2`, `base64` and `ssri`: digests are written in lowercase
hexadecimal and in base64, and the integrity that is recorded for a hash has its digest. -/
class SsriDigests (I B : Type) extends TarballLibs I B where
  sha512 : B → FileHash
  /-- The algorithm and the bytes of the first hash, if it has one. -/
  digest : I → Option (Algorithm × List UInt8)
  sha512Hex_eq : ∀ content : B, TarballLibs.sha512Hex I content = hex (sha512 content).bytes
  sha512Base64_eq : ∀ content : B,
    TarballLibs.sha512Base64 I content = base64 (sha512 content).bytes
  toHex_eq : ∀ integrity : I,
    TarballLibs.toHex B integrity = (digest integrity).map fun d => (d.1, hex d.2)
  parse_fileIntegrity : ∀ hash : FileHash, ∃ integrity : I,
    SsriParse.parse hash.fileIntegrity = .ok integrity ∧
      digest integrity = some (.sha512, hash.bytes)

section Addresses

/-- An integrity whose first hash is one of SHA-1 or SHA-512. -/
structure TarballIntegrity (I B : Type) [SsriDigests I B] where
  integrity : I
  algorithm : Algorithm
  digest : List UInt8
  digest_eq : SsriDigests.digest B integrity = some (algorithm, digest)
  supported : algorithm = .sha512 ∨ algorithm = .sha1
  full : 2 * digest.length = algorithm.hexLength

/-- The ways to ask the store for a path. -/
inductive StoreAddress (I B : Type) [SsriDigests I B]
  | cas (hash : FileHash) (executable : Bool)
  | casByIntegrity (integrity : TarballIntegrity I B) (executable : Bool)
  | index (integrity : TarballIntegrity I B)

/-- What is kept under an address. -/
inductive Addressed
  | file (algorithm : Algorithm) (digest : List UInt8) (executable : Bool)
  | index (algorithm : Algorithm) (digest : List UInt8)
deriving DecidableEq

def Addressed.algorithm : Addressed → Algorithm
  | .file algorithm _ _ => algorithm
  | .index algorithm _ => algorithm

def Addressed.digest : Addressed → List UInt8
  | .file _ digest _ => digest
  | .index _ digest => digest

def Addressed.suffix : Addressed → Text
  | .file _ _ executable => execSuffix executable
  | .index _ _ => "-index.json".toList

theorem Addressed.storeSuffix (addressed : Addressed) : StoreSuffix addressed.suffix := by
  cases addressed with
  | file algorithm digest executable => exact storeSuffix_execSuffix executable
  | index algorithm digest => exact .index

theorem execSuffix_injective : Function.Injective execSuffix := by
  intro a b h
  cases a <;> cases b <;> first | rfl | exact absurd h (by decide)

theorem Addressed.ext_parts {a b : Addressed} (halgorithm : a.algorithm = b.algorithm)
    (hdigest : a.digest = b.digest) (hsuffix : a.suffix = b.suffix) : a = b := by
  cases a with
  | file algorithm digest executable =>
      cases b with
      | file algorithm' digest' executable' =>
          cases halgorithm
          cases hdigest
          rw [execSuffix_injective hsuffix]
      | index algorithm' digest' => exact absurd hsuffix (execSuffix_ne_index executable)
  | index algorithm digest =>
      cases b with
      | file algorithm' digest' executable' =>
          exact absurd hsuffix.symm (execSuffix_ne_index executable')
      | index algorithm' digest' =>
          cases halgorithm
          cases hdigest
          rfl

variable {I B : Type} [SsriDigests I B]

def StoreAddress.path (storeDir : Text) : StoreAddress I B → Except Abort Text
  | .cas hash executable => hash.casFilePath storeDir executable
  | .casByIntegrity integrity executable =>
      casFilePathByIntegrity B storeDir integrity.integrity executable
  | .index integrity => indexFilePath B storeDir integrity.integrity

def StoreAddress.addressed : StoreAddress I B → Addressed
  | .cas hash executable => .file .sha512 hash.bytes executable
  | .casByIntegrity integrity executable =>
      .file integrity.algorithm integrity.digest executable
  | .index integrity => .index integrity.algorithm integrity.digest

theorem TarballIntegrity.toHex (integrity : TarballIntegrity I B) :
    TarballLibs.toHex B integrity.integrity = some (integrity.algorithm, hex integrity.digest) := by
  rw [SsriDigests.toHex_eq, integrity.digest_eq]
  rfl

/-- Each of the functions splits the digest of what it addresses. -/
theorem StoreAddress.path_eq (storeDir : Text) (address : StoreAddress I B) :
    address.path storeDir = filePathByHexStr storeDir (hex address.addressed.digest)
      address.addressed.suffix := by
  cases address with
  | cas hash executable => rfl
  | casByIntegrity integrity executable =>
      rw [path, casFilePathByIntegrity, integrity.toHex]
      rfl
  | index integrity =>
      rw [path, indexFilePath, integrity.toHex]
      obtain hsha | hsha := integrity.supported
      · rw [hsha]
        rfl
      · rw [hsha]
        rfl

theorem StoreAddress.length_hex (address : StoreAddress I B) :
    (hex address.addressed.digest).length = address.addressed.algorithm.hexLength := by
  rw [ByteTexts.length_hex]
  cases address with
  | cas hash executable =>
      change 2 * hash.bytes.length = 128
      rw [hash.full]
  | casByIntegrity integrity executable => exact integrity.full
  | index integrity => exact integrity.full

theorem isHex_hex (bytes : List UInt8) : IsHex (hex bytes) := by
  have hdigits : hexDigits.all isHexDigit = true := rfl
  exact fun c hc => List.all_eq_true.mp hdigits c (mem_hexDigits_of_mem_hex hc)

theorem StoreAddress.exists_path (storeDir : Text) (address : StoreAddress I B) :
    ∃ path, address.path storeDir = .ok path := by
  have hlength := address.length_hex
  have hge := address.addressed.algorithm.hexLength_ge
  rw [address.path_eq, filePathByHexStr, if_neg (by omega)]
  exact ⟨_, rfl⟩

theorem StoreAddress.components_path {storeDir path : Text} {address : StoreAddress I B}
    (h : address.path storeDir = .ok path) :
    components path = components (files storeDir) ++
      [.normal ((hex address.addressed.digest).take 2),
        .normal ((hex address.addressed.digest).drop 2 ++ address.addressed.suffix)] := by
  have hlength := address.length_hex
  have hge := address.addressed.algorithm.hexLength_ge
  rw [address.path_eq] at h
  refine components_of_hex (isHex_hex _) address.addressed.storeSuffix (fun hnil => ?_) h
  have hdrop := congrArg List.length (List.append_eq_nil_iff.mp hnil).1
  rw [List.length_drop, List.length_nil] at hdrop
  omega

/-- Paths are the same exactly when they keep the same. -/
theorem StoreAddress.components_eq_iff {storeDir path path' : Text}
    {address address' : StoreAddress I B} (h : address.path storeDir = .ok path)
    (h' : address'.path storeDir = .ok path') :
    components path = components path' ↔ address.addressed = address'.addressed := by
  rw [components_path h, components_path h']
  constructor
  · intro heq
    have hnames := List.append_cancel_left heq
    simp only [List.cons.injEq, Component.normal.injEq, and_true] at hnames
    obtain ⟨htake, hrest⟩ := hnames
    obtain ⟨hdrop, hsuffix⟩ := StoreSuffix.append_inj ((isHex_hex _).drop 2)
      ((isHex_hex _).drop 2) address.addressed.storeSuffix address'.addressed.storeSuffix hrest
    have hhex : hex address.addressed.digest = hex address'.addressed.digest := by
      rw [← List.take_append_drop 2 (hex address.addressed.digest), htake, hdrop,
        List.take_append_drop]
    have halgorithm : address.addressed.algorithm = address'.addressed.algorithm := by
      apply Algorithm.hexLength_injective
      rw [← address.length_hex, ← address'.length_hex, hhex]
    exact Addressed.ext_parts halgorithm (hex_injective hhex) hsuffix
  · intro heq
    rw [heq]

theorem FileHash.exists_integrity (hash : FileHash) :
    ∃ integrity : TarballIntegrity I B,
      SsriParse.parse hash.fileIntegrity = .ok integrity.integrity ∧
        integrity.algorithm = .sha512 ∧ integrity.digest = hash.bytes := by
  obtain ⟨integrity, hparse, hdigest⟩ :=
    SsriDigests.parse_fileIntegrity (I := I) (B := B) hash
  have hfull : 2 * hash.bytes.length = Algorithm.sha512.hexLength := by
    rw [hash.full]
    rfl
  exact ⟨⟨integrity, .sha512, hash.bytes, hdigest, Or.inl rfl, hfull⟩, hparse, rfl, rfl⟩

variable (I B) in
/-- Every address has a path. Two paths are the same exactly when they keep the same, and
the integrity that is recorded for the hash of a content leads back to its path. -/
theorem storeAddress_path_injective (storeDir : Text) :
    (∀ address : StoreAddress I B, ∃ path, address.path storeDir = .ok path) ∧
    (∀ (address address' : StoreAddress I B) (path path' : Text),
      address.path storeDir = .ok path → address'.path storeDir = .ok path' →
        (components path = components path' ↔ address.addressed = address'.addressed)) ∧
    (∀ (hash : FileHash) (executable : Bool), ∃ integrity : TarballIntegrity I B,
      SsriParse.parse hash.fileIntegrity = .ok integrity.integrity ∧
        casFilePathByIntegrity B storeDir integrity.integrity executable =
          hash.casFilePath storeDir executable) ∧
    ∀ (content : B) (executable : Bool),
      casFilePath I storeDir content executable =
          (SsriDigests.sha512 I content).casFilePath storeDir executable ∧
        "sha512-".toList ++ TarballLibs.sha512Base64 I content =
          (SsriDigests.sha512 I content).fileIntegrity := by
  refine ⟨StoreAddress.exists_path storeDir, ?_, ?_, ?_⟩
  · exact fun _ _ _ _ h h' => StoreAddress.components_eq_iff h h'
  · intro hash executable
    obtain ⟨integrity, hparse, -, hdigest⟩ := hash.exists_integrity (I := I) (B := B)
    refine ⟨integrity, hparse, ?_⟩
    rw [casFilePathByIntegrity, integrity.toHex, hdigest]
    rfl
  · intro content executable
    constructor
    · rw [casFilePath, SsriDigests.sha512Hex_eq]
      rfl
    · rw [SsriDigests.sha512Base64_eq]
      rfl

end Addresses

section Sample

/-- An integrity with one hash, whose digest has been read. -/
structure DigestIntegrity where
  algorithm : Algorithm
  digest : List UInt8

instance : SsriParse DigestIntegrity where
  parse s :=
    match Text.splitOnce '-' s with
    | none => .error "Failed to parse subresource integrity string".toList
    | some (algorithm, digest) =>
        match unbase64 digest with
        | some digest => .ok ⟨algorithmOf algorithm, digest⟩
        | none => .error "Failed to parse subresource integrity string".toList

/-- The hash of the empty file. -/
def emptyHash : FileHash where
  bytes := [
    0xcf, 0x83, 0xe1, 0x35, 0x7e, 0xef, 0xb8, 0xbd, 0xf1, 0x54, 0x28, 0x50, 0xd6, 0x6d, 0x80, 0x07,
    0xd6, 0x20, 0xe4, 0x05, 0x0b, 0x57, 0x15, 0xdc, 0x83, 0xf4, 0xa9, 0x21, 0xd3, 0x6c, 0xe9, 0xce,
    0x47, 0xd0, 0xd1, 0x3c, 0x5d, 0x85, 0xf2, 0xb0, 0xff, 0x83, 0x18, 0xd2, 0x87, 0x7e, 0xec, 0x2f,
    0x63, 0xb9, 0x31, 0xbd, 0x47, 0x41, 0x7a, 0x81, 0xa5, 0x38, 0x32, 0x7a, 0xf9, 0x27, 0xda, 0x3e]
  full := rfl

/-- The one content is the empty file. -/
instance : TarballLibs DigestIntegrity Unit where
  toHex integrity := some (integrity.algorithm, hex integrity.digest)
  check integrity _ :=
    if integrity.algorithm = .sha512 ∧ integrity.digest = emptyHash.bytes then .ok ()
    else .error "Integrity check failed".toList
  decodeGzip _ _ := .error "Bad gzip header".toList
  tarEntries _ := .ok []
  sha512Hex _ := hex emptyHash.bytes
  sha512Base64 _ := base64 emptyHash.bytes

instance : SsriDigests DigestIntegrity Unit where
  sha512 _ := emptyHash
  digest integrity := some (integrity.algorithm, integrity.digest)
  sha512Hex_eq _ := rfl
  sha512Base64_eq _ := rfl
  toHex_eq _ := rfl
  parse_fileIntegrity hash := by
    have hsplit : Text.splitOnce '-' hash.fileIntegrity =
        some ("sha512".toList, base64 hash.bytes) :=
      (Text.splitOnce_eq_some_iff '-' _ _ _).mpr ⟨by decide, rfl⟩
    refine ⟨⟨.sha512, hash.bytes⟩, ?_, rfl⟩
    simp only [SsriParse.parse, hsplit, unbase64_base64]
    rfl

/-- The plain and the executable file of one hash are kept apart. -/
theorem storeAddress_path_injective_empty :
    ∃ path path', emptyHash.casFilePath "/store".toList false = .ok path ∧
      emptyHash.casFilePath "/store".toList true = .ok path' ∧
      components path ≠ components path' := by
  obtain ⟨hpaths, hinjective, -, -⟩ :=
    storeAddress_path_injective DigestIntegrity Unit "/store".toList
  obtain ⟨path, hpath⟩ := hpaths (.cas emptyHash false)
  obtain ⟨path', hpath'⟩ := hpaths (.cas emptyHash true)
  refine ⟨path, path', hpath, hpath', fun heq => ?_⟩
  cases (hinjective _ _ path path' hpath hpath').mp heq

end Sample

end Npnpm
