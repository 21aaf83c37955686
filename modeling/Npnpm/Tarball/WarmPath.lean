import Npnpm.Tarball.StorePaths

/-!
# The warm path answers like the cold path

Extraction keeps two maps in step: the files of the store, found by the digest of
the content and the mode of the entry, and the index, which holds the digest in
base64 and the mode. Loading the index computes the first map again from the
second one.

What the map points to is another matter: a file that is already in the store is
not written again, whatever it holds.
-/

namespace Npnpm

section Laws

variable (I B : Type) [TarballLibs I B]

/-- What the store relies on: digests are written in lowercase hexadecimal, and the
base64 form of a digest is parsed back to the digest. -/
structure DigestLaws : Prop where
  hex : ∀ (integrity : I) algorithm hex, TarballLibs.toHex B integrity = some (algorithm, hex) →
    IsHex hex
  parse : ∀ b : B, ∃ integrity : I,
    SsriParse.parse ("sha512-".toList ++ TarballLibs.sha512Base64 I b) = .ok integrity ∧
      TarballLibs.toHex B integrity = some (.sha512, TarballLibs.sha512Hex I b)

variable {I B}

theorem DigestLaws.isHex (laws : DigestLaws I B) (b : B) : IsHex (TarballLibs.sha512Hex I b) := by
  obtain ⟨integrity, -, h⟩ := laws.parse b
  exact laws.hex integrity _ _ h

end Laws

section Files

variable {I B : Type} [TarballLibs I B]

/-- A file of an archive, under its path inside the package. -/
structure FileEntry (B : Type) where
  name : Text
  mode : Nat
  buffer : B
  size : Option Nat

def TarEntry.file? (entry : TarEntry B) : Option (FileEntry B) :=
  match entry.mode, entry.data, entry.path with
  | some mode, some buffer, some path => some ⟨cleanedEntryPath path, mode, buffer, entry.size⟩
  | _, _, _ => none

/-- The files of an archive, in its order. -/
def archiveFiles (entries : List (Option (TarEntry B))) : List (FileEntry B) :=
  entries.filterMap fun e => e.bind fun entry => if entry.isDir then none else entry.file?

/-- The last file with a name. -/
def lastFile (files : List (FileEntry B)) (name : Text) : Option (FileEntry B) :=
  files.reverse.find? fun f => f.name == name

variable (I) in
/-- The file of the store that the content belongs to. -/
def FileEntry.casPath (storeDir : Text) (f : FileEntry B) : Except Abort Text :=
  casFilePath I storeDir f.buffer (isAllExec f.mode)

variable (I) in
def FileEntry.info (now : Option Nat) (f : FileEntry B) : PackageFileInfo :=
  ⟨now, "sha512-".toList ++ TarballLibs.sha512Base64 I f.buffer, f.mode, f.size⟩

theorem lastFile_append (files : List (FileEntry B)) (f : FileEntry B) (name : Text) :
    lastFile (files ++ [f]) name = if name = f.name then some f else lastFile files name := by
  by_cases h : name = f.name
  · simp [lastFile, h]
  · have hne : (f.name == name) = false := by simpa using Ne.symm h
    simp [lastFile, hne, h]

theorem lastFile_mem {files : List (FileEntry B)} {name : Text} {f : FileEntry B}
    (h : lastFile files name = some f) : f ∈ files ∧ f.name = name := by
  refine ⟨by simpa using List.mem_of_find?_eq_some h, ?_⟩
  simpa using List.find?_some h

/-- The integrity in the index leads to the file of the content. -/
theorem indexedFile_info (laws : DigestLaws I B) {storeDir path : Text} {f : FileEntry B}
    (now : Option Nat) (h : f.casPath I storeDir = .ok path) :
    indexedFile I B storeDir (f.name, f.info I now) = .ok (f.name, path) := by
  obtain ⟨integrity, hparse, hhex⟩ := laws.parse f.buffer
  have hpath : casFilePathByIntegrity B storeDir integrity (isAllExec f.mode) = .ok path := by
    rw [casFilePathByIntegrity, hhex]
    exact h
  unfold indexedFile FileEntry.info
  simp only [hparse, hpath, Except.map]

end Files

section Steps

variable {I B : Type} [TarballLibs I B] {storeDir : Text} {now : Option Nat}

/-- What is in the store at a path after a file was written unless it was there. -/
theorem writeCasFile_ok {store store' : StoreFiles B} {buffer : B} {executable : Bool}
    {path : Text} (h : writeCasFile I storeDir store buffer executable = .ok (path, store')) :
    casFilePath I storeDir buffer executable = .ok path ∧
      ∀ p, store'.files p = if p = path then (store.files path).or (some (.cas buffer))
        else store.files p := by
  unfold writeCasFile at h
  obtain ⟨path', hpath, h⟩ := Results.bind_ok h
  unfold ensureFile at h
  cases hfile : store.files path' with
  | some file =>
      simp only [hfile] at h
      cases h
      refine ⟨hpath, fun p => ?_⟩
      by_cases hp : p = path <;> simp [hp, hfile]
  | none =>
      cases hfailing : store.failing path' with
      | some error => simp [hfile, hfailing] at h
      | none =>
          simp only [hfile, hfailing] at h
          cases h
          refine ⟨hpath, fun p => ?_⟩
          by_cases hp : p = path <;> simp [hp, hfile]

theorem forall₂_insertEntry {K V W : Type*} [BEq K] {R : K × V → K × W → Prop}
    (hkey : ∀ a b, R a b → b.1 = a.1) {k : K} {v : V} {w : W}
    (hnew : ∀ k', (k' == k) = true ∨ k' = k → R (k', v) (k', w)) {l : List (K × V)}
    {l' : List (K × W)} (h : List.Forall₂ R l l') :
    List.Forall₂ R (KeyedMap.insertEntry k v l) (KeyedMap.insertEntry k w l') := by
  induction h with
  | nil => exact .cons (hnew k (Or.inr rfl)) .nil
  | @cons a b rest rest' hab hrest ih =>
      have hb := hkey a b hab
      by_cases hk : a.1 == k
      · simp only [KeyedMap.insertEntry, hb, if_pos hk]
        exact .cons (hnew a.1 (Or.inl hk)) hrest
      · simp only [KeyedMap.insertEntry, hb, if_neg hk]
        exact .cons hab ih

/-- What the extraction has built from the files that it has passed. -/
structure ExtractedFrom (I : Type) [TarballLibs I B] (storeDir : Text) (start : StoreFiles B)
    (files : List (FileEntry B)) (acc : Extracted B) : Prop where
  /-- the index leads to the files of the map, entry by entry -/
  inStep : List.Forall₂ (fun i c => indexedFile I B storeDir i = .ok c)
    acc.index.files.entries acc.casPaths.entries
  /-- the map leads to the file of the last entry with a name -/
  casPaths : ∀ name path, acc.casPaths.get name = some path ↔
    ∃ f, lastFile files name = some f ∧ f.casPath I storeDir = .ok path
  /-- a file of the store that was there is kept -/
  kept : ∀ p x, start.files p = some x → acc.store.files p = some x
  /-- a new file holds the content of an entry that belongs there -/
  written : ∀ p, start.files p = none → acc.store.files p = none ∨
    ∃ f ∈ files, f.casPath I storeDir = .ok p ∧ acc.store.files p = some (.cas f.buffer)
  /-- every entry has its file -/
  present : ∀ f ∈ files, ∃ p, f.casPath I storeDir = .ok p ∧ acc.store.files p ≠ none

theorem ExtractedFrom.initial (start : StoreFiles B) :
    ExtractedFrom I storeDir start [] ⟨.empty, ⟨.empty⟩, start⟩ where
  inStep := .nil
  casPaths name path := by simp [lastFile, KeyedMap.get]
  kept _ _ h := h
  written _ h := Or.inl h
  present := by simp

theorem ExtractedFrom.step (laws : DigestLaws I B) {start : StoreFiles B}
    {files : List (FileEntry B)} {acc out : Extracted B} {entry : TarEntry B}
    (h : ExtractedFrom I storeDir start files acc)
    (hstep : extractEntry I storeDir now acc entry = .ok out) :
    ∃ f, entry.file? = some f ∧ ExtractedFrom I storeDir start (files ++ [f]) out := by
  unfold extractEntry at hstep
  cases hmode : entry.mode with
  | none => simp [hmode] at hstep
  | some mode =>
  cases hdata : entry.data with
  | none => simp [hmode, hdata] at hstep
  | some buffer =>
  cases hpath : entry.path with
  | none => simp [hmode, hdata, hpath] at hstep
  | some path =>
  simp only [hmode, hdata, hpath] at hstep
  obtain ⟨⟨filePath, store⟩, hwrite, hout⟩ := Results.bind_ok hstep
  cases hout
  obtain ⟨hcas, hfiles⟩ := writeCasFile_ok hwrite
  refine ⟨⟨cleanedEntryPath path, mode, buffer, entry.size⟩,
    by simp [TarEntry.file?, hmode, hdata, hpath], ?_⟩
  have hf : (⟨cleanedEntryPath path, mode, buffer, entry.size⟩ : FileEntry B).casPath I storeDir =
      .ok filePath := hcas
  have hindexed := indexedFile_info laws now hf
  have hmono : ∀ p x, acc.store.files p = some x → store.files p = some x := by
    intro p x hx
    rw [hfiles]
    by_cases hp : p = filePath
    · simp [hp, hp ▸ hx]
    · simp [hp, hx]
  constructor
  · apply forall₂_insertEntry (fun a b hab => indexedFile_fst hab) _ h.inStep
    intro k hk
    obtain rfl : k = cleanedEntryPath path := hk.elim eq_of_beq id
    exact hindexed
  · intro name p
    rw [KeyedMap.get_insert_eq_ite, lastFile_append]
    by_cases hname : name = cleanedEntryPath path
    · simp only [hname, if_true, Option.some.injEq, exists_eq_left', hf, Except.ok.injEq]
    · simp only [hname, if_false, h.casPaths]
  · exact fun p x hx => hmono p x (h.kept p x hx)
  · intro p hnone
    rcases h.written p hnone with hold | ⟨f, hmem, hfp, hold⟩
    · by_cases hp : p = filePath
      · subst hp
        exact Or.inr ⟨_, by simp, hf, by simp [hfiles, hold]⟩
      · exact Or.inl (by simp [hfiles, hp, hold])
    · exact Or.inr ⟨f, by simp [hmem], hfp, hmono p _ hold⟩
  · intro f hmem
    rcases List.mem_append.mp hmem with hmem | hmem
    · obtain ⟨p, hp, hthere⟩ := h.present f hmem
      obtain ⟨x, hx⟩ := Option.ne_none_iff_exists'.mp hthere
      exact ⟨p, hp, by simp [hmono p x hx]⟩
    · obtain rfl := List.mem_singleton.mp hmem
      refine ⟨filePath, hf, ?_⟩
      rw [hfiles]
      cases hx : acc.store.files filePath <;> simp

theorem ExtractedFrom.run (laws : DigestLaws I B) {start : StoreFiles B}
    {entries : List (Option (TarEntry B))} {files : List (FileEntry B)} {acc out : Extracted B}
    (h : ExtractedFrom I storeDir start files acc)
    (hrun : extractEntries I storeDir now acc entries = .ok out) :
    ExtractedFrom I storeDir start (files ++ archiveFiles entries) out := by
  induction entries generalizing acc files with
  | nil =>
      cases hrun
      simpa [archiveFiles] using h
  | cons e rest ih =>
      cases e with
      | none => cases hrun
      | some entry =>
          by_cases hdir : entry.isDir
          · rw [extractEntries, if_pos hdir] at hrun
            have hrest := ih h hrun
            simpa [archiveFiles, hdir] using hrest
          · rw [extractEntries, if_neg hdir] at hrun
            obtain ⟨mid, hmid, hrun⟩ := Results.bind_ok hrun
            obtain ⟨f, hf, hnext⟩ := h.step laws hmid
            have hrest := ih hnext hrun
            simpa [archiveFiles, hdir, hf] using hrest

end Steps

section WarmPath

variable {I B : Type} [TarballLibs I B]

/-- What is loaded for the same integrity afterwards is the map itself, and each of
its paths holds the bytes of the last entry with its name. -/
structure WarmAsCold (call : DownloadTarballToStore I) (files : List (FileEntry B))
    (extracted : Extracted B) : Prop where
  load : loadFromStore call extracted.store = .ok (some extracted.casPaths)
  holds : ∀ name path, extracted.casPaths.get name = some path →
    ∃ f, lastFile files name = some f ∧ extracted.store.files path = some (.cas f.buffer)

/-- No file is in the store with other bytes at the place of an entry that is the
last one with its name. -/
def StoredIntact (call : DownloadTarballToStore I) (store : StoreFiles B)
    (files : List (FileEntry B)) : Prop :=
  ∀ name f, lastFile files name = some f → ∀ path, f.casPath I call.storeDir = .ok path →
    ∀ x, store.files path = some x → x = .cas f.buffer

/-- The entries that a response was extracted from, and the index written last. -/
theorem extractResponse_ok {call : DownloadTarballToStore I} {now : Option Nat}
    {store : StoreFiles B} {response : B} {extracted : Extracted B}
    (h : extractResponse call now store response = .ok extracted) :
    ∃ entries built, archiveEntries I call.packageUnpackedSize response = .ok entries ∧
      extractEntries I call.storeDir now ⟨.empty, ⟨.empty⟩, store⟩ entries = .ok built ∧
      writeIndexFile call.storeDir built.store call.packageIntegrity built.index =
        .ok extracted.store ∧
      extracted.casPaths = built.casPaths ∧ extracted.index = built.index := by
  unfold extractResponse at h
  cases hcheck : TarballLibs.check call.packageIntegrity response with
  | error error => simp [hcheck] at h
  | ok checked =>
      simp only [hcheck] at h
      obtain ⟨entries, hentries, h⟩ := Results.bind_ok h
      obtain ⟨built, hbuilt, h⟩ := Results.bind_ok h
      obtain ⟨store', hindex, h⟩ := Results.bind_ok h
      cases h
      exact ⟨entries, built, hentries, hbuilt, hindex, rfl, rfl⟩

theorem indexFilePath_ok {storeDir path : Text} {integrity : I}
    (h : indexFilePath B storeDir integrity = .ok path) :
    ∃ algorithm hex, TarballLibs.toHex B integrity = some (algorithm, hex) ∧
      filePathByHexStr storeDir hex "-index.json".toList = .ok path := by
  unfold indexFilePath at h
  split at h
  · exact ⟨_, _, ‹_›, h⟩
  · exact ⟨_, _, ‹_›, h⟩
  · cases h

/-- No content-addressed file is an index. -/
theorem DigestLaws.casPath_ne_index (laws : DigestLaws I B) {storeDir p q : Text}
    {integrity : I} {f : FileEntry B} (hf : f.casPath I storeDir = .ok p)
    (hindex : indexFilePath B storeDir integrity = .ok q) : p ≠ q := by
  rintro rfl
  obtain ⟨algorithm, hex, hhex, hpath⟩ := indexFilePath_ok hindex
  have hsuffix := (filePathByHexStr_inj (laws.isHex f.buffer) (laws.hex integrity _ _ hhex)
    (storeSuffix_execSuffix _) .index hf hpath).2
  exact execSuffix_ne_index _ hsuffix

theorem writeIndexFile_ok {storeDir : Text} {store store' : StoreFiles B} {integrity : I}
    {index : PackageFilesIndex}
    (hnew : ∀ p, indexFilePath B storeDir integrity = .ok p → store.files p = none)
    (h : writeIndexFile storeDir store integrity index = .ok store') :
    ∃ path, indexFilePath B storeDir integrity = .ok path ∧
      ∀ p, store'.files p = if p = path then some (.index index) else store.files p := by
  unfold writeIndexFile at h
  obtain ⟨path, hpath, h⟩ := Results.bind_ok h
  unfold ensureFile at h
  have hnone := hnew path hpath
  cases hfailing : store.failing path with
  | some error => simp [hnone, hfailing] at h
  | none =>
      simp only [hnone, hfailing] at h
      cases h
      exact ⟨path, hpath, fun p => rfl⟩

theorem loadFromStore_of_index {call : DownloadTarballToStore I} {store : StoreFiles B}
    {path : Text} {index : PackageFilesIndex} {casPaths : CasPaths}
    (hpath : indexFilePath B call.storeDir call.packageIntegrity = .ok path)
    (hfile : store.files path = some (.index index))
    (hall : List.Forall₂ (fun i c => indexedFile I B call.storeDir i = .ok c)
      index.files.entries casPaths.entries) :
    loadFromStore call store = .ok (some casPaths) := by
  have hread : readIndexFile call.storeDir store call.packageIntegrity = .ok (some index) := by
    unfold readIndexFile
    rw [hpath]
    simp only [bind, Except.bind, hfile]
  unfold loadFromStore
  rw [hread]
  simp only [bind, Except.bind, (Results.mapM_ok_iff _ _ _).mpr hall, KeyedMap.ofList_entries]
  rfl

/-- After an extraction into a store without the index, loading gives the map that
the extraction has returned, and the paths hold the last entries if and only if the
store has held no other bytes at their places. -/
theorem warmAsCold_iff (laws : DigestLaws I B) {call : DownloadTarballToStore I}
    {now : Option Nat} {store : StoreFiles B} {response : B} {extracted : Extracted B}
    {entries : List (Option (TarEntry B))}
    (hentries : archiveEntries I call.packageUnpackedSize response = .ok entries)
    (hnoindex : ∀ p, indexFilePath B call.storeDir call.packageIntegrity = .ok p →
      store.files p = none)
    (hdigest : ∀ f ∈ archiveFiles entries, ∀ g ∈ archiveFiles entries,
      TarballLibs.sha512Hex I f.buffer = TarballLibs.sha512Hex I g.buffer → f.buffer = g.buffer)
    (hrun : runWithoutMemCache call now store (.ok response) = .ok extracted) :
    WarmAsCold call (archiveFiles entries) extracted ↔
      StoredIntact call store (archiveFiles entries) := by
  obtain ⟨entries', built, hentries', hbuilt, hindex, hmap, -⟩ := extractResponse_ok hrun
  obtain rfl : entries = entries' := by simpa [hentries] using hentries'
  have hfrom : ExtractedFrom I call.storeDir store (archiveFiles entries) built := by
    simpa using (ExtractedFrom.initial store).run laws hbuilt
  have hnew : ∀ p, indexFilePath B call.storeDir call.packageIntegrity = .ok p →
      built.store.files p = none := by
    intro p hp
    apply (hfrom.written p (hnoindex p hp)).resolve_right
    rintro ⟨f, -, hf, -⟩
    exact laws.casPath_ne_index hf hp rfl
  obtain ⟨path, hpath, hfiles⟩ := writeIndexFile_ok hnew hindex
  have hload : loadFromStore call extracted.store = .ok (some extracted.casPaths) := by
    rw [hmap]
    exact loadFromStore_of_index hpath (by simp [hfiles]) hfrom.inStep
  have hcas : ∀ f : FileEntry B, ∀ p, f.casPath I call.storeDir = .ok p →
      extracted.store.files p = built.store.files p := by
    intro f p hf
    simp [hfiles, laws.casPath_ne_index hf hpath]
  constructor
  · rintro ⟨-, hholds⟩ name f hlast p hf x hx
    obtain ⟨g, hg, hfile⟩ := hholds name p (by
      rw [hmap]
      exact (hfrom.casPaths name p).mpr ⟨f, hlast, hf⟩)
    obtain rfl : f = g := by simpa [hlast] using hg
    rw [hcas f p hf, hfrom.kept p x hx] at hfile
    exact Option.some.inj hfile
  · intro hintact
    refine ⟨hload, fun name p hget => ?_⟩
    rw [hmap] at hget
    obtain ⟨f, hlast, hf⟩ := (hfrom.casPaths name p).mp hget
    refine ⟨f, hlast, ?_⟩
    rw [hcas f p hf]
    cases hstart : store.files p with
    | some x =>
        rw [hfrom.kept p x hstart, hintact name f hlast p hf x hstart]
    | none =>
        obtain ⟨q, hq, hthere⟩ := hfrom.present f (lastFile_mem hlast).1
        obtain rfl : p = q := by simpa [hf] using hq
        obtain ⟨g, hg, hgp, hfile⟩ := (hfrom.written p hstart).resolve_left hthere
        have hsame := (filePathByHexStr_inj (laws.isHex f.buffer) (laws.isHex g.buffer)
          (storeSuffix_execSuffix _) (storeSuffix_execSuffix _) hf hgp).1
        rw [hfile, hdigest f (lastFile_mem hlast).1 g hg hsame]

end WarmPath

section Samples

theorem sextet_lt (c : Char) : sextet c < 64 := by
  unfold sextet
  split
  · rename_i h
    have hbound : c.val ≤ 'Z'.val := (of_decide_eq_true h).2
    have hle : c.toNat ≤ 90 := UInt32.le_iff_toNat_le.mp hbound
    have hA : 'A'.toNat = 65 := rfl
    omega
  · split
    · rename_i h
      have hbound : c.val ≤ 'z'.val := of_decide_eq_true (Bool.and_eq_true_iff.mp h).2
      have hle : c.toNat ≤ 122 := UInt32.le_iff_toNat_le.mp hbound
      have hA : 'a'.toNat = 97 := rfl
      omega
    · split
      · rename_i h
        simp only [Char.isDigit, Bool.and_eq_true, decide_eq_true_eq, UInt32.le_iff_toNat_le] at h
        have hle : c.toNat ≤ 57 := h.2
        have h0 : '0'.toNat = 48 := rfl
        omega
      · split <;> omega

theorem nibbles_lt {digits : List Nat} (h : ∀ d ∈ digits, d < 64) :
    ∀ n ∈ nibbles digits, n < 16 := by
  induction digits using nibbles.induct with
  | case1 => simp [nibbles]
  | case2 a =>
      have ha := h a (by simp)
      simp only [nibbles, List.mem_singleton, forall_eq]
      omega
  | case3 a b rest ih =>
      have ha := h a (by simp)
      have hb := h b (by simp)
      have hrest := ih fun d hd => h d (by simp [hd])
      intro n hn
      simp only [nibbles, List.mem_cons] at hn
      rcases hn with rfl | rfl | rfl | hn
      · omega
      · omega
      · omega
      · exact hrest n hn

theorem isHex_base64ToHex (s : Text) : IsHex (base64ToHex s) := by
  have hdigit : ∀ n < 16, isHexDigit (if n < 10 then Char.ofNat ('0'.toNat + n)
      else Char.ofNat ('a'.toNat + n - 10)) = true := by decide
  intro c hc
  obtain ⟨n, hn, rfl⟩ := List.mem_map.mp hc
  refine hdigit n (nibbles_lt ?_ n (List.mem_of_mem_take hn))
  intro d hd
  obtain ⟨c, -, rfl⟩ := List.mem_map.mp hd
  exact sextet_lt c

theorem sampleDigestLaws : DigestLaws HashIntegrity SampleBytes where
  hex integrity algorithm hex h := by
    cases h
    exact isHex_base64ToHex _
  parse b := by
    have hsplit : Text.splitOnce '-' ("sha512-".toList ++ b.sha512) =
        some ("sha512".toList, b.sha512) :=
      (Text.splitOnce_eq_some_iff '-' _ _ _).mpr ⟨by decide, rfl⟩
    refine ⟨⟨"sha512".toList, b.sha512⟩, ?_, rfl⟩
    change SsriParse.parse ("sha512-".toList ++ b.sha512) = _
    simp only [SsriParse.parse, hsplit]
    rfl

/-- The entries of a sample archive. -/
def sampleEntries (path : Text) : List (Option (TarEntry SampleBytes)) :=
  [some ⟨some path, false, some 0o644, some .empty, some 0⟩]

theorem archiveEntries_gz (path : Text) :
    archiveEntries HashIntegrity none (.gz path) = .ok (sampleEntries path) := rfl

theorem warmAsCold_index :
    ∃ extracted, runWithoutMemCache (sampleCall "package/index.js".toList) none emptyStore
        (.ok (.gz "package/index.js".toList)) = .ok extracted ∧
      (WarmAsCold (sampleCall "package/index.js".toList)
          (archiveFiles (sampleEntries "package/index.js".toList)) extracted ↔
        StoredIntact (sampleCall "package/index.js".toList) emptyStore
          (archiveFiles (sampleEntries "package/index.js".toList))) := by
  obtain ⟨extracted, hok, -⟩ := Results.exists_of_toOption_map sampleCall_keys
  refine ⟨extracted, hok, warmAsCold_iff sampleDigestLaws (archiveEntries_gz _) ?_ ?_ hok⟩
  · intro p _
    rfl
  · intro f hf g hg _
    obtain rfl := List.mem_singleton.mp hf
    obtain rfl := List.mem_singleton.mp hg
    rfl

/-- A store in which other bytes are left at every path but those of indexes. -/
def dirtyStore : StoreFiles SampleBytes :=
  ⟨fun p => if "-index.json".toList.isSuffixOf p then none else some (.cas (.tar [])),
    fun _ => none⟩

def StoredFile.isTar : StoredFile SampleBytes → Bool
  | .cas (.tar _) => true
  | _ => false

/-- The bytes that were left are taken for the file of the package. -/
theorem not_warmAsCold_dirty :
    (∀ p, indexFilePath SampleBytes (sampleCall "package/index.js".toList).storeDir
        (sampleCall "package/index.js".toList).packageIntegrity = .ok p →
      dirtyStore.files p = none) ∧
    ∃ extracted, runWithoutMemCache (sampleCall "package/index.js".toList) none dirtyStore
        (.ok (.gz "package/index.js".toList)) = .ok extracted ∧
      ¬ WarmAsCold (sampleCall "package/index.js".toList)
        (archiveFiles (sampleEntries "package/index.js".toList)) extracted := by
  constructor
  · intro p hp
    have hsuffix : ((indexFilePath SampleBytes (sampleCall "package/index.js".toList).storeDir
        (sampleCall "package/index.js".toList).packageIntegrity).toOption.all fun p =>
          "-index.json".toList.isSuffixOf p) = true := by decide +kernel
    rw [hp] at hsuffix
    exact if_pos hsuffix
  · have hrun : (runWithoutMemCache (sampleCall "package/index.js".toList) none dirtyStore
        (.ok (.gz "package/index.js".toList))).toOption.map (fun e =>
          (e.casPaths.get "index.js".toList).any fun p =>
            (e.store.files p).any StoredFile.isTar) = some true := by decide +kernel
    obtain ⟨extracted, hok, htar⟩ := Results.exists_of_toOption_map hrun
    refine ⟨extracted, hok, ?_⟩
    rintro ⟨-, hholds⟩
    cases hget : extracted.casPaths.get "index.js".toList with
    | none =>
        rw [hget] at htar
        cases htar
    | some p =>
    rw [hget, Option.any_some] at htar
    obtain ⟨f, hlast, hfile⟩ := hholds _ _ hget
    have hf := List.mem_singleton.mp (lastFile_mem hlast).1
    rw [hfile, hf] at htar
    cases htar

end Samples

end Npnpm
