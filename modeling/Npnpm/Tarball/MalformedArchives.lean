import Npnpm.Tarball.StorePaths

/-!
# Archives that cannot be read

The task that extracts a response returns the errors of the check, of the decompression
and of the writes. An entry that the reader fails on, or one without a readable mode,
contents or path, makes it panic, and so does an integrity whose algorithm has no index
address. Here is when `run_without_mem_cache` comes to one of them.

## Implementation notes

Contents that cannot be read are those of a truncated archive, and those for whose size,
as the header has it, no buffer can be allocated. An entry is reached when the files of
all entries before it can be written.
-/

namespace Npnpm

section Reports

variable {α : Type}

/-- A value or an error is returned. -/
def Reports (result : Except Abort α) : Prop :=
  (∃ a, result = .ok a) ∨ ∃ error, result = .error (.error error)

theorem reports_iff {result : Except Abort α} : Reports result ↔ result ≠ .error .panic := by
  cases result with
  | ok a => simp [Reports]
  | error abort =>
      cases abort with
      | panic => simp [Reports]
      | error error => simp [Reports]

end Reports

section Entries

variable {I B : Type} [TarballLibs I B]

/-- A write to the path fails. -/
def StoreFiles.blocked (store : StoreFiles B) (path : Text) : Bool :=
  (store.files path).isNone && (store.failing path).isSome

/-- The entry is a directory, or its mode, contents and path can be read. -/
def TarEntry.readable (entry : TarEntry B) : Bool :=
  entry.isDir || (entry.mode.isSome && entry.data.isSome && entry.path.isSome)

variable (I) in
/-- The file of the entry cannot be written. -/
def TarEntry.unwritable (storeDir : Text) (blocked : Text → Bool) (entry : TarEntry B) : Bool :=
  match entry.isDir, entry.mode, entry.data with
  | false, some mode, some buffer =>
      match casFilePath I storeDir buffer (isAllExec mode) with
      | .ok path => blocked path
      | .error _ => false
  | _, _, _ => false

def itemReadable (item : Option (TarEntry B)) : Bool := item.any TarEntry.readable

variable (I) in
def itemUnwritable (storeDir : Text) (blocked : Text → Bool) (item : Option (TarEntry B)) :
    Bool :=
  item.any (TarEntry.unwritable I storeDir blocked)

variable (I) in
/-- The loop comes to an item when the files of all items before it can be written. -/
inductive ComesTo (storeDir : Text) (blocked : Text → Bool) :
    List (Option (TarEntry B)) → Option (TarEntry B) → Prop
  | here (item rest) : ComesTo storeDir blocked (item :: rest) item
  | later {first rest item} (hwritable : itemUnwritable I storeDir blocked first = false)
      (h : ComesTo storeDir blocked rest item) : ComesTo storeDir blocked (first :: rest) item

variable (I) in
/-- How the loop over the entries ends: it comes to an item that cannot be read, it fails
to write a file, or it comes to the end. -/
inductive LoopEnds (storeDir : Text) (blocked : Text → Bool)
    (items : List (Option (TarEntry B))) : Except Abort (Extracted B) → Prop
  | panic {item} (hcomes : ComesTo I storeDir blocked items item)
      (hitem : itemReadable item = false) : LoopEnds storeDir blocked items (.error .panic)
  | failed {item error} (hreadable : ∀ item, ComesTo I storeDir blocked items item →
        itemReadable item = true)
      (hmem : item ∈ items) (hitem : itemUnwritable I storeDir blocked item = true) :
      LoopEnds storeDir blocked items (.error (.error error))
  | done {acc} (hreadable : ∀ item, ComesTo I storeDir blocked items item →
        itemReadable item = true)
      (hwritable : ∀ item ∈ items, itemUnwritable I storeDir blocked item = false) :
      LoopEnds storeDir blocked items (.ok acc)

/-- The loop ends as on the rest, where the first item can be read and written. -/
theorem LoopEnds.later {storeDir : Text} {blocked : Text → Bool}
    {first : Option (TarEntry B)} {rest : List (Option (TarEntry B))}
    {result : Except Abort (Extracted B)} (hfirst : itemReadable first = true)
    (hwritable : itemUnwritable I storeDir blocked first = false)
    (hends : LoopEnds I storeDir blocked rest result) :
    LoopEnds I storeDir blocked (first :: rest) result := by
  have hall : (∀ item, ComesTo I storeDir blocked rest item → itemReadable item = true) →
      ∀ item, ComesTo I storeDir blocked (first :: rest) item → itemReadable item = true := by
    intro hreadable item hcomes
    cases hcomes with
    | here => exact hfirst
    | later _ hcomes => exact hreadable item hcomes
  cases hends with
  | panic hcomes hitem => exact .panic (.later hwritable hcomes) hitem
  | failed hreadable hmem hitem =>
      exact .failed (hall hreadable) (List.mem_cons_of_mem _ hmem) hitem
  | done hreadable hitems =>
      exact .done (hall hreadable) (List.forall_mem_cons.mpr ⟨hwritable, hitems⟩)

/-- The loop does not come further than to an item that cannot be written. -/
theorem LoopEnds.here {storeDir : Text} {blocked : Text → Bool}
    {first : Option (TarEntry B)} {rest : List (Option (TarEntry B))} {error : TarballError}
    (hfirst : itemReadable first = true)
    (hunwritable : itemUnwritable I storeDir blocked first = true) :
    LoopEnds (B := B) I storeDir blocked (first :: rest) (.error (.error error)) := by
  refine .failed (fun item hcomes => ?_) List.mem_cons_self hunwritable
  cases hcomes with
  | here => exact hfirst
  | later hwritable _ =>
      rw [hunwritable] at hwritable
      cases hwritable

theorem ensureFile_blocked {store store' : StoreFiles B} {path : Text} {file : StoredFile B}
    (h : ensureFile store path file = .ok store') : store'.blocked = store.blocked := by
  unfold ensureFile at h
  split at h
  · cases h
    rfl
  · split at h
    · cases h
    · rename_i hfailing
      cases h
      funext p
      simp only [StoreFiles.blocked]
      split
      · rename_i hp
        rw [hp, hfailing]
        simp
      · rfl

theorem ensureFile_error_iff (store : StoreFiles B) (path : Text) (file : StoredFile B) :
    (∃ error, ensureFile store path file = .error error) ↔ store.blocked path = true := by
  unfold ensureFile StoreFiles.blocked
  cases hfile : store.files path with
  | some found => simp
  | none =>
      cases hfailing : store.failing path with
      | some error => simp
      | none => simp

variable {entry : TarEntry B}

theorem extractEntry_unreadable (storeDir : Text) (now : Option Nat) (acc : Extracted B)
    (hdir : entry.isDir = false) (h : entry.readable = false) :
    extractEntry I storeDir now acc entry = .error .panic := by
  unfold extractEntry
  split
  · rename_i mode buffer path hmode hdata hpath
    simp [TarEntry.readable, hdir, hmode, hdata, hpath] at h
  · rfl

variable (hdigits : ∀ content : B, 2 ≤ (TarballLibs.sha512Hex I content).length)
include hdigits

/-- The file of a readable entry is written, or an error is returned. -/
theorem extractEntry_readable (storeDir : Text) (now : Option Nat) (acc : Extracted B)
    (hdir : entry.isDir = false) (h : entry.readable = true) :
    (entry.unwritable I storeDir acc.store.blocked = true ∧
      ∃ error, extractEntry I storeDir now acc entry = .error (.error error)) ∨
    entry.unwritable I storeDir acc.store.blocked = false ∧
      ∃ acc', extractEntry I storeDir now acc entry = .ok acc' ∧
        acc'.store.blocked = acc.store.blocked := by
  simp only [TarEntry.readable, hdir, Bool.false_or, Bool.and_eq_true,
    Option.isSome_iff_exists] at h
  obtain ⟨⟨⟨mode, hmode⟩, buffer, hdata⟩, path, hpath⟩ := h
  obtain ⟨filePath, hfile⟩ : ∃ filePath,
      casFilePath I storeDir buffer (isAllExec mode) = .ok filePath := by
    rw [casFilePath, filePathByHexStr, if_neg (Nat.not_lt.mpr (hdigits buffer))]
    exact ⟨_, rfl⟩
  have hunwritable : entry.unwritable I storeDir acc.store.blocked =
      acc.store.blocked filePath := by
    simp only [TarEntry.unwritable, hdir, hmode, hdata, hfile]
  rw [hunwritable]
  unfold extractEntry
  simp only [hmode, hdata, hpath, writeCasFile, hfile, bind, Except.bind]
  cases hensure : ensureFile acc.store filePath (.cas buffer) with
  | error error => exact Or.inl ⟨(ensureFile_error_iff _ _ _).mp ⟨error, hensure⟩, _, rfl⟩
  | ok store' =>
      refine Or.inr ⟨?_, _, rfl, ensureFile_blocked hensure⟩
      by_contra hblocked
      obtain ⟨error, herror⟩ := (ensureFile_error_iff acc.store filePath (.cas buffer)).mpr
        (Bool.not_eq_false _ ▸ hblocked)
      rw [hensure] at herror
      cases herror

theorem extractEntries_ends (storeDir : Text) (now : Option Nat) (acc : Extracted B)
    (items : List (Option (TarEntry B))) :
    LoopEnds I storeDir acc.store.blocked items (extractEntries I storeDir now acc items) := by
  induction items generalizing acc with
  | nil =>
      refine .done (fun item hcomes => ?_) fun item hmem => ?_
      · cases hcomes
      · cases hmem
  | cons first rest ih =>
      cases first with
      | none => exact .panic (.here none rest) rfl
      | some entry =>
          rw [extractEntries]
          cases hdir : entry.isDir with
          | true =>
              rw [if_pos rfl]
              refine .later ?_ ?_ (ih acc)
              · simp [itemReadable, TarEntry.readable, hdir]
              · simp [itemUnwritable, TarEntry.unwritable, hdir]
          | false =>
              rw [if_neg Bool.false_ne_true]
              cases hread : entry.readable with
              | false =>
                  rw [extractEntry_unreadable storeDir now acc hdir hread]
                  exact .panic (.here _ rest) hread
              | true =>
                  obtain ⟨hblocked, error, herror⟩ | ⟨hwritable, acc', hacc', hsame⟩ :=
                    extractEntry_readable hdigits storeDir now acc hdir hread
                  · rw [herror]
                    exact .here hread hblocked
                  · rw [hacc']
                    exact .later hread hwritable (hsame ▸ ih acc')

end Entries

section Responses

variable {I B : Type} [TarballLibs I B]

theorem archiveEntries_ne_panic {unpackedSize : Option Nat} {response : B} :
    archiveEntries I unpackedSize response ≠ .error .panic := by
  unfold archiveEntries
  split
  · simp
  · split
    · simp
    · simp

theorem writeIndexFile_ne_panic_iff (storeDir : Text) (store : StoreFiles B) (integrity : I)
    (index : PackageFilesIndex) :
    writeIndexFile storeDir store integrity index ≠ .error .panic ↔
      indexFilePath B storeDir integrity ≠ .error .panic := by
  unfold writeIndexFile
  cases indexFilePath B storeDir integrity with
  | error abort => simp [bind, Except.bind]
  | ok path =>
      simp only [bind, Except.bind]
      split
      · simp
      · simp

/-- A response that passes the check is answered with a value or an error exactly when
every entry that the loop comes to can be read and, if all files can be written, the
integrity has an index address. -/
theorem runWithoutMemCache_reports_iff
    (hdigits : ∀ content : B, 2 ≤ (TarballLibs.sha512Hex I content).length)
    (call : DownloadTarballToStore I) (now : Option Nat) (store : StoreFiles B) (response : B)
    (hcheck : TarballLibs.check call.packageIntegrity response = .ok ()) :
    Reports (runWithoutMemCache call now store (.ok response)) ↔
      ∀ items, archiveEntries I call.packageUnpackedSize response = .ok items →
        (∀ item, ComesTo I call.storeDir store.blocked items item →
          itemReadable item = true) ∧
        ((∀ item ∈ items, itemUnwritable I call.storeDir store.blocked item = false) →
          indexFilePath B call.storeDir call.packageIntegrity ≠ .error .panic) := by
  rw [reports_iff, runWithoutMemCache]
  simp only [extractResponse, hcheck]
  cases harchive : archiveEntries I call.packageUnpackedSize response with
  | error abort =>
      have hne : abort ≠ .panic := by
        rintro rfl
        exact archiveEntries_ne_panic harchive
      simpa [bind, Except.bind] using hne
  | ok items =>
      simp only [bind, Except.bind, Except.ok.injEq, forall_eq']
      have hends := extractEntries_ends hdigits call.storeDir now
        ⟨.empty, ⟨.empty⟩, store⟩ items
      cases hloop : extractEntries I call.storeDir now ⟨.empty, ⟨.empty⟩, store⟩ items with
      | error abort =>
          rw [hloop] at hends
          cases hends with
          | panic hcomes hitem =>
              refine iff_of_false (fun h => h rfl) fun h => ?_
              rw [h.1 _ hcomes] at hitem
              cases hitem
          | failed hreadable hmem hitem =>
              refine iff_of_true (by simp) ⟨hreadable, fun h => ?_⟩
              rw [h _ hmem] at hitem
              cases hitem
      | ok extracted =>
          rw [hloop] at hends
          cases hends with
          | done hreadable hwritable =>
              have hindex := writeIndexFile_ne_panic_iff call.storeDir extracted.store
                call.packageIntegrity extracted.index
              rw [and_iff_right hreadable, forall_prop_of_true hwritable, ← hindex]
              cases hwrite : writeIndexFile call.storeDir extracted.store
                  call.packageIntegrity extracted.index with
              | error abort => simp [hwrite]
              | ok store' => simp [hwrite, pure, Except.pure]

end Responses

section Sample

/-- Byte strings to run the extraction on: the empty file, a tar archive of one empty file
whose mode is a number or is none, and the same archive compressed. -/
inductive ArchiveBytes
  | empty
  | tar (numeric : Bool)
  | gz (numeric : Bool)

/-- Their SHA-512 digests, in base64. -/
def ArchiveBytes.sha512 : ArchiveBytes → Text
  | .empty =>
      "z4PhNX7vuL3xVChQ1m2AB9Yg5AULVxXcg/SpIdNs6c5H0NE8XYXysP+DGNKHfuwvY7kxvU".toList ++
        "dBeoGlODJ6+SfaPg==".toList
  | .tar true =>
      "oAOitzcePsK+H4ch32Eq1Sj50G/FkHGQbbbNO9Rif/tqwXCGq39LxHcacdYyy9YdN9tnoN".toList ++
        "TMiefHpmOvQqHRXg==".toList
  | .gz true =>
      "QtYRBj4YYidTn2GXRFc+wdX6wXe9hUdXygW+tv0Gn8U9G4gpJ/ufhH5TsQF1eV2ZIf5Ir/".toList ++
        "kpdI3GblO/NNIZJw==".toList
  | .tar false =>
      "j6ykKVRAfc4RPZbegWGEW37xn9xRL3REySkv8c5n/4TdEZXafj/NTlt7+Dppxv7S3eKTCN".toList ++
        "bi6fzFbIgsUicqDg==".toList
  | .gz false =>
      "Wpq5sDUIwBwU8kavUBhFk5o0vmrNkBXyicKKNSQWxNKeSa+j7p7CuqJhCCd1DKLxqBC8Ve".toList ++
        "Q3W1NSSpb2yMnJhA==".toList

instance : TarballLibs HashIntegrity ArchiveBytes where
  toHex integrity := some (algorithmOf integrity.algorithm, base64ToHex integrity.digest)
  check integrity bytes :=
    if integrity.algorithm = "sha512".toList ∧ integrity.digest = bytes.sha512 then .ok ()
    else .error "Integrity check failed".toList
  decodeGzip bytes _ :=
    match bytes with
    | .gz numeric => .ok (.tar numeric)
    | _ => .error "Bad gzip header".toList
  tarEntries bytes :=
    match bytes with
    | .tar numeric => .ok [some ⟨some "package/index.js".toList, false,
        if numeric then some 0o644 else none, some .empty, some 0⟩]
    | _ => .ok []
  sha512Hex bytes := base64ToHex bytes.sha512
  sha512Base64 bytes := bytes.sha512

/-- The download of a sample archive, with its integrity. -/
def archiveCall (numeric : Bool) : DownloadTarballToStore HashIntegrity where
  storeDir := "/store".toList
  packageIntegrity := ⟨"sha512".toList, (ArchiveBytes.gz numeric).sha512⟩
  packageUnpackedSize := none
  packageUrl := "https://registry.npmjs.com/a/-/a-1.0.0.tgz".toList
  networkMode := .online

/-- Two base64 digits make a byte. -/
theorem two_le_length_base64ToHex {a b : Char} (ha : a ≠ '=') (hb : b ≠ '=') (rest : Text) :
    2 ≤ (base64ToHex (a :: b :: rest)).length := by
  have hdigits : (a :: b :: rest).filter (fun c => decide (c ≠ '=')) =
      a :: b :: rest.filter fun c => decide (c ≠ '=') := by
    rw [List.filter_cons_of_pos (by simpa using ha), List.filter_cons_of_pos (by simpa using hb)]
  simp only [base64ToHex, hdigits, List.map_cons, nibbles, List.length_map, List.length_take,
    List.length_cons]
  omega

theorem length_sha512Hex (content : ArchiveBytes) :
    2 ≤ (TarballLibs.sha512Hex HashIntegrity content).length := by
  cases content with
  | empty => exact two_le_length_base64ToHex (by decide) (by decide) _
  | tar numeric =>
      cases numeric with
      | true => exact two_le_length_base64ToHex (by decide) (by decide) _
      | false => exact two_le_length_base64ToHex (by decide) (by decide) _
  | gz numeric =>
      cases numeric with
      | true => exact two_le_length_base64ToHex (by decide) (by decide) _
      | false => exact two_le_length_base64ToHex (by decide) (by decide) _

theorem runWithoutMemCache_reports_iff_numeric :
    Reports (runWithoutMemCache (archiveCall true) none ⟨fun _ => none, fun _ => none⟩
      (.ok (ArchiveBytes.gz true))) := by
  apply (runWithoutMemCache_reports_iff length_sha512Hex (archiveCall true) none
    ⟨fun _ => none, fun _ => none⟩ (ArchiveBytes.gz true) (if_pos ⟨rfl, rfl⟩)).mpr
  intro items hitems
  cases hitems
  refine ⟨fun item hcomes => ?_, fun _ => ?_⟩
  · cases hcomes with
    | here => rfl
    | later _ hcomes => cases hcomes
  · intro hpanic
    have hlength : 2 ≤ (base64ToHex (ArchiveBytes.gz true).sha512).length :=
      length_sha512Hex (ArchiveBytes.gz true)
    rw [show indexFilePath ArchiveBytes (archiveCall true).storeDir
      (archiveCall true).packageIntegrity = filePathByHexStr (archiveCall true).storeDir
        (base64ToHex (ArchiveBytes.gz true).sha512) "-index.json".toList from rfl,
      filePathByHexStr, if_neg (Nat.not_lt.mpr hlength)] at hpanic
    cases hpanic

/-- An archive that passes the check, and whose one entry has a mode that is no number. -/
theorem not_runWithoutMemCache_reports_mode :
    TarballLibs.check (archiveCall false).packageIntegrity (ArchiveBytes.gz false) = .ok () ∧
      ¬ Reports (runWithoutMemCache (archiveCall false) none ⟨fun _ => none, fun _ => none⟩
        (.ok (ArchiveBytes.gz false))) := by
  have hcheck : TarballLibs.check (archiveCall false).packageIntegrity
      (ArchiveBytes.gz false) = .ok () := if_pos ⟨rfl, rfl⟩
  refine ⟨hcheck, ?_⟩
  rw [reports_iff, not_not, runWithoutMemCache]
  simp only [extractResponse, hcheck]
  rfl

end Sample

end Npnpm
