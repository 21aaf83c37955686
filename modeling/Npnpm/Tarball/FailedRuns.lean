import Npnpm.Tarball.WarmPath

/-!
# Runs that fail

`run_without_mem_cache` writes the files of an archive one by one and the index last. A run
that fails leaves files behind, but no index, and a response that does not match its
integrity is not even unpacked.

## Implementation notes

The runs of the extraction keep the store of a success only. Here the store of every run is
followed. A write that fails may leave anything at its own path, the file that it had
opened included; what it leaves is a parameter.
-/

namespace Npnpm

section Effects

variable {I B : Type} [TarballLibs I B]

/-- The store with something else at one path. -/
def StoreFiles.leave (store : StoreFiles B) (path : Text) (file : Option (StoredFile B)) :
    StoreFiles B :=
  { store with files := fun p => if p = path then file else store.files p }

/-- What a write leaves at paths where it fails. -/
abbrev Leaves (B : Type) := Text → Option (StoredFile B)

def ensureFileStore (leaves : Leaves B) (store : StoreFiles B) (path : Text)
    (file : StoredFile B) : StoreFiles B :=
  match ensureFile store path file with
  | .ok store => store
  | .error _ => store.leave path (leaves path)

variable (I) in
def writeCasFileStore (leaves : Leaves B) (storeDir : Text) (store : StoreFiles B) (buffer : B)
    (executable : Bool) : StoreFiles B :=
  match casFilePath I storeDir buffer executable with
  | .error _ => store
  | .ok path => ensureFileStore leaves store path (.cas buffer)

def writeIndexFileStore (leaves : Leaves B) (storeDir : Text) (store : StoreFiles B)
    (integrity : I) (index : PackageFilesIndex) : StoreFiles B :=
  match indexFilePath B storeDir integrity with
  | .error _ => store
  | .ok path => ensureFileStore leaves store path (.index index)

variable (I) in
def extractEntryStore (leaves : Leaves B) (storeDir : Text) (acc : Extracted B)
    (entry : TarEntry B) : StoreFiles B :=
  match entry.mode, entry.data, entry.path with
  | some mode, some buffer, some _ =>
      writeCasFileStore I leaves storeDir acc.store buffer (isAllExec mode)
  | _, _, _ => acc.store

variable (I) in
/-- The store when the loop over the entries ends or fails. -/
def extractEntriesStore (leaves : Leaves B) (storeDir : Text) (now : Option Nat)
    (acc : Extracted B) : List (Option (TarEntry B)) → StoreFiles B
  | [] => acc.store
  | none :: _ => acc.store
  | some entry :: rest =>
      if entry.isDir then extractEntriesStore leaves storeDir now acc rest
      else
        match extractEntry I storeDir now acc entry with
        | .error _ => extractEntryStore I leaves storeDir acc entry
        | .ok acc => extractEntriesStore leaves storeDir now acc rest

/-- The store after the task that is spawned on a response. -/
def extractResponseStore (leaves : Leaves B) (call : DownloadTarballToStore I)
    (now : Option Nat) (store : StoreFiles B) (response : B) : StoreFiles B :=
  match TarballLibs.check call.packageIntegrity response with
  | .error _ => store
  | .ok () =>
      match archiveEntries I call.packageUnpackedSize response with
      | .error _ => store
      | .ok entries =>
          match extractEntries I call.storeDir now ⟨.empty, ⟨.empty⟩, store⟩ entries with
          | .error _ =>
              extractEntriesStore I leaves call.storeDir now ⟨.empty, ⟨.empty⟩, store⟩ entries
          | .ok extracted =>
              writeIndexFileStore leaves call.storeDir extracted.store call.packageIntegrity
                extracted.index

/-- The store after `run_without_mem_cache`, whatever it returns. -/
def runWithoutMemCacheStore (leaves : Leaves B) (call : DownloadTarballToStore I)
    (now : Option Nat) (store : StoreFiles B) (response : Except Text B) : StoreFiles B :=
  match response with
  | .error _ => store
  | .ok response => extractResponseStore leaves call now store response

end Effects

section Successes

variable {I B : Type} [TarballLibs I B] {leaves : Leaves B} {storeDir : Text}
  {now : Option Nat} {store store' : StoreFiles B}

theorem writeCasFileStore_of_ok {buffer : B} {executable : Bool} {path : Text}
    (h : writeCasFile I storeDir store buffer executable = .ok (path, store')) :
    writeCasFileStore I leaves storeDir store buffer executable = store' := by
  obtain ⟨path', hpath, h⟩ := Results.bind_ok h
  rw [writeCasFileStore, hpath]
  simp only [ensureFileStore]
  cases hensure : ensureFile store path' (.cas buffer) with
  | error error => simp [hensure] at h
  | ok s =>
      simp only [hensure] at h
      cases h
      rfl

theorem extractEntriesStore_of_ok {acc extracted : Extracted B}
    {entries : List (Option (TarEntry B))}
    (h : extractEntries I storeDir now acc entries = .ok extracted) :
    extractEntriesStore I leaves storeDir now acc entries = extracted.store := by
  induction entries generalizing acc with
  | nil =>
      cases h
      rfl
  | cons entry rest ih =>
      cases entry with
      | none => cases h
      | some entry =>
          rw [extractEntries] at h
          rw [extractEntriesStore]
          split at h
          · rename_i hdir
            rw [if_pos hdir]
            exact ih h
          · rename_i hdir
            rw [if_neg hdir]
            obtain ⟨acc', hacc, hrest⟩ := Results.bind_ok h
            rw [hacc]
            exact ih hrest

end Successes

section Failures

variable {I B : Type} [TarballLibs I B] {leaves : Leaves B} {storeDir : Text}
  {now : Option Nat} {store store' store'' : StoreFiles B}

variable (I) in
/-- The stores hold the same at every path that is no path of a content. -/
def CasOnly (storeDir : Text) (store store' : StoreFiles B) : Prop :=
  ∀ p, (∀ f : FileEntry B, f.casPath I storeDir ≠ .ok p) → store'.files p = store.files p

theorem CasOnly.refl (storeDir : Text) (store : StoreFiles B) : CasOnly I storeDir store store :=
  fun _ _ => rfl

theorem CasOnly.trans (h : CasOnly I storeDir store store')
    (h' : CasOnly I storeDir store' store'') : CasOnly I storeDir store store'' :=
  fun p hp => (h' p hp).trans (h p hp)

theorem casOnly_writeCasFileStore (f : FileEntry B) :
    CasOnly I storeDir store
      (writeCasFileStore I leaves storeDir store f.buffer (isAllExec f.mode)) := by
  intro p hp
  unfold writeCasFileStore
  cases hpath : casFilePath I storeDir f.buffer (isAllExec f.mode) with
  | error abort => rfl
  | ok path =>
      have hne : p ≠ path := by
        rintro rfl
        exact hp f hpath
      simp only [ensureFileStore]
      cases hensure : ensureFile store path (.cas f.buffer) with
      | error error => simp [StoreFiles.leave, hne]
      | ok s =>
          unfold ensureFile at hensure
          split at hensure
          · cases hensure
            rfl
          · split at hensure
            · cases hensure
            · cases hensure
              simp [hne]

theorem casOnly_extractEntryStore (acc : Extracted B) (entry : TarEntry B) :
    CasOnly I storeDir acc.store (extractEntryStore I leaves storeDir acc entry) := by
  unfold extractEntryStore
  split
  · rename_i mode buffer path _ _ _
    exact casOnly_writeCasFileStore ⟨cleanedEntryPath path, mode, buffer, entry.size⟩
  · exact .refl storeDir acc.store

theorem extractEntryStore_of_ok {acc acc' : Extracted B} {entry : TarEntry B}
    (h : extractEntry I storeDir now acc entry = .ok acc') :
    extractEntryStore I leaves storeDir acc entry = acc'.store := by
  unfold extractEntry at h
  split at h
  · rename_i mode buffer path hmode hdata hpath
    obtain ⟨⟨filePath, s⟩, hwrite, hacc⟩ := Results.bind_ok h
    cases hacc
    simp only [extractEntryStore, hmode, hdata, hpath]
    exact writeCasFileStore_of_ok hwrite
  · cases h

/-- The loop over the entries writes contents only, however it ends. -/
theorem casOnly_extractEntriesStore (acc : Extracted B) (entries : List (Option (TarEntry B))) :
    CasOnly I storeDir acc.store (extractEntriesStore I leaves storeDir now acc entries) := by
  induction entries generalizing acc with
  | nil => exact .refl storeDir acc.store
  | cons entry rest ih =>
      cases entry with
      | none => exact .refl storeDir acc.store
      | some entry =>
          rw [extractEntriesStore]
          split
          · exact ih acc
          · have hentry : CasOnly I storeDir acc.store
                (extractEntryStore I leaves storeDir acc entry) :=
              casOnly_extractEntryStore acc entry
            split
            · exact hentry
            · rename_i acc' hacc
              rw [extractEntryStore_of_ok hacc] at hentry
              exact hentry.trans (ih acc')

theorem writeIndexFileStore_of_error {integrity : I} {index : PackageFilesIndex} {abort : Abort}
    (h : writeIndexFile storeDir store integrity index = .error abort)
    (hindex : ∀ error, abort ≠ .error (.writeTarballIndexFile error)) :
    writeIndexFileStore leaves storeDir store integrity index = store := by
  unfold writeIndexFile at h
  unfold writeIndexFileStore
  cases hpath : indexFilePath B storeDir integrity with
  | error e => rfl
  | ok path =>
      rw [hpath] at h
      cases hensure : ensureFile store path (.index index) with
      | error error =>
          simp only [bind, Except.bind, hensure] at h
          cases h
          exact absurd rfl (hindex error)
      | ok s => simp [bind, Except.bind, hensure] at h

/-- Up to the writing of the index, a run that fails has written contents only. -/
theorem casOnly_of_failed {call : DownloadTarballToStore I} {response : Except Text B}
    {abort : Abort} (h : runWithoutMemCache call now store response = .error abort)
    (hindex : ∀ error, abort ≠ .error (.writeTarballIndexFile error)) :
    CasOnly I call.storeDir store (runWithoutMemCacheStore leaves call now store response) := by
  cases response with
  | error error => exact .refl _ _
  | ok response =>
      rw [runWithoutMemCache, extractResponse] at h
      rw [runWithoutMemCacheStore, extractResponseStore]
      cases hcheck : TarballLibs.check call.packageIntegrity response with
      | error error => exact .refl _ _
      | ok checked =>
          simp only [hcheck] at h ⊢
          cases hentries : archiveEntries I call.packageUnpackedSize response with
          | error e => exact .refl _ _
          | ok entries =>
              have hloop : CasOnly I call.storeDir store (extractEntriesStore I leaves call.storeDir
                  now ⟨.empty, ⟨.empty⟩, store⟩ entries) :=
                casOnly_extractEntriesStore ⟨.empty, ⟨.empty⟩, store⟩ entries
              cases hextracted : extractEntries I call.storeDir now ⟨.empty, ⟨.empty⟩, store⟩
                  entries with
              | error e =>
                  simp only [hextracted]
                  exact hloop
              | ok extracted =>
                  rw [extractEntriesStore_of_ok hextracted] at hloop
                  have hwrite : writeIndexFile call.storeDir extracted.store
                      call.packageIntegrity extracted.index = .error abort := by
                    rw [hentries] at h
                    simp only [bind, Except.bind, hextracted] at h
                    cases hw : writeIndexFile call.storeDir extracted.store
                        call.packageIntegrity extracted.index with
                    | error e => simpa [hw] using h
                    | ok s => simp [hw, pure, Except.pure] at h
                  simp only [hextracted, writeIndexFileStore_of_error hwrite hindex]
                  exact hloop

theorem filePathByHexStr_ne {hex suffix : Text} {error : TarballError} :
    filePathByHexStr storeDir hex suffix ≠ .error (.error error) := by
  unfold filePathByHexStr
  split
  · exact nofun
  · exact nofun

theorem extractEntry_ne {acc : Extracted B} {entry : TarEntry B} {url error : Text} :
    extractEntry I storeDir now acc entry ≠ .error (.error (.checksum url error)) := by
  unfold extractEntry
  split
  · refine Results.bind_ne (Results.bind_ne filePathByHexStr_ne fun path _ => ?_) fun _ _ => nofun
    split
    · exact nofun
    · exact nofun
  · exact nofun

theorem extractEntries_ne {acc : Extracted B} {entries : List (Option (TarEntry B))}
    {url error : Text} :
    extractEntries I storeDir now acc entries ≠ .error (.error (.checksum url error)) := by
  induction entries generalizing acc with
  | nil => exact nofun
  | cons entry rest ih =>
      cases entry with
      | none => exact nofun
      | some entry =>
          rw [extractEntries]
          split
          · exact ih
          · exact Results.bind_ne extractEntry_ne fun _ _ => ih

theorem archiveEntries_ne {unpackedSize : Option Nat} {response : B} {url error : Text} :
    archiveEntries I unpackedSize response ≠ .error (.error (.checksum url error)) := by
  unfold archiveEntries
  split
  · exact nofun
  · split
    · exact nofun
    · exact nofun

theorem writeIndexFile_ne {integrity : I} {index : PackageFilesIndex} {url error : Text} :
    writeIndexFile storeDir store integrity index ≠ .error (.error (.checksum url error)) := by
  refine Results.bind_ne ?_ fun path _ => ?_
  · unfold indexFilePath
    split
    · exact filePathByHexStr_ne
    · exact filePathByHexStr_ne
    · exact nofun
  · split
    · exact nofun
    · exact nofun

/-- The error of the check comes from the check. -/
theorem check_of_checksum {call : DownloadTarballToStore I} {response : B} {url error : Text}
    (h : extractResponse call now store response = .error (.error (.checksum url error))) :
    ∃ e, TarballLibs.check call.packageIntegrity response = .error e := by
  cases hcheck : TarballLibs.check call.packageIntegrity response with
  | error e => exact ⟨e, rfl⟩
  | ok checked =>
      rw [extractResponse, hcheck] at h
      exact absurd h (Results.bind_ne archiveEntries_ne fun _ _ =>
        Results.bind_ne extractEntries_ne fun _ _ =>
          Results.bind_ne writeIndexFile_ne fun _ _ => nofun)

/-- A run that fails before the writing of the index leaves the index as it was, so the
tarball is as much in the store as before. One that fails at the check of the integrity
leaves the whole store as it was. -/
theorem failedRun_keeps_index (laws : DigestLaws I B) {call : DownloadTarballToStore I}
    {response : Except Text B} {abort : Abort}
    (h : runWithoutMemCache call now store response = .error abort)
    (hindex : ∀ error, abort ≠ .error (.writeTarballIndexFile error)) :
    (∀ path, indexFilePath B call.storeDir call.packageIntegrity = .ok path →
      (runWithoutMemCacheStore leaves call now store response).files path = store.files path) ∧
    loadFromStore call (runWithoutMemCacheStore leaves call now store response) =
      loadFromStore call store ∧
    ∀ url error, abort = .error (.checksum url error) →
      runWithoutMemCacheStore leaves call now store response = store := by
  have hkept : ∀ path, indexFilePath B call.storeDir call.packageIntegrity = .ok path →
      (runWithoutMemCacheStore leaves call now store response).files path = store.files path :=
    fun path hpath => casOnly_of_failed h hindex path fun f hf =>
      laws.casPath_ne_index hf hpath rfl
  refine ⟨hkept, ?_, ?_⟩
  · unfold loadFromStore readIndexFile
    cases hpath : indexFilePath B call.storeDir call.packageIntegrity with
    | error e => rfl
    | ok path =>
        simp only [bind, Except.bind]
        rw [hkept path hpath]
  · rintro url error rfl
    cases response with
    | error e => cases h
    | ok response =>
        obtain ⟨e, hcheck⟩ := check_of_checksum h
        rw [runWithoutMemCacheStore, extractResponseStore, hcheck]

end Failures

section Samples

/-- An empty store on a full disk. -/
def fullStore : StoreFiles SampleBytes :=
  ⟨fun _ => none, fun _ => some "No space left on device".toList⟩

/-- The write of the only file fails and leaves a part of it; the tarball is still not in the
store. -/
theorem failedRun_keeps_index_full :
    loadFromStore (sampleCall "package/index.js".toList)
        (runWithoutMemCacheStore (fun _ => some (.cas (.tar []))) (sampleCall
          "package/index.js".toList) none fullStore (.ok (.gz "package/index.js".toList))) =
      loadFromStore (sampleCall "package/index.js".toList) fullStore := by
  have hfull : (match runWithoutMemCache (sampleCall "package/index.js".toList) none fullStore
      (.ok (.gz "package/index.js".toList)) with
    | .ok _ => none
    | .error abort => some abort) =
      some (.error (.writeCasFile "No space left on device".toList)) := by decide +kernel
  have hrun : ∃ abort, runWithoutMemCache (sampleCall "package/index.js".toList) none fullStore
      (.ok (.gz "package/index.js".toList)) = .error abort ∧
        abort = .error (.writeCasFile "No space left on device".toList) := by
    split at hfull
    · cases hfull
    · rename_i abort habort
      exact ⟨abort, habort, Option.some.inj hfull⟩
  obtain ⟨abort, hrun, rfl⟩ := hrun
  exact (failedRun_keeps_index sampleDigestLaws hrun fun _ => nofun).2.1

end Samples

end Npnpm
