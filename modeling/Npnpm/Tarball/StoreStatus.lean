import Mathlib.Data.Set.Card
import Npnpm.Tarball.StoreTree

/-!
# What the status of the store tells

`StoreDir::status` collects the listed files by their paths and checks each path once,
against the integrity that it met first. The path has the hexadecimal digest but not the
algorithm. Digests of full length tell their algorithm, so two integrities that are listed
for one path are the same check.
-/

namespace Npnpm

open Npnpm.Path Npnpm.FileTree

/-- The hashes of an integrity with their digests, and the digest of the bytes of a file,
in hexadecimal. -/
class SsriHashes (I : Type) where
  hashes : I → List (Algorithm × Text)
  digest : Algorithm → Text → Text

/-- An integrity that is one hash gives the digest of this hash, and accepts the bytes that
have this digest. -/
structure SsriLaws (I : Type) [StoreLibs I] [SsriHashes I] : Prop where
  isHex : ∀ (integrity : I) algorithm hex, SsriHashes.hashes integrity = [(algorithm, hex)] →
    IsHex hex
  toHex : ∀ (integrity : I) algorithm hex, SsriHashes.hashes integrity = [(algorithm, hex)] →
    TarballLibs.toHex Text integrity = some (algorithm, hex)
  check : ∀ (integrity : I) algorithm hex, SsriHashes.hashes integrity = [(algorithm, hex)] →
    ∀ contents : Text, TarballLibs.check integrity contents = .ok () ↔
      SsriHashes.digest I algorithm contents = hex

namespace StoreDir

section Unique

variable {I : Type} {listed : List (List Component × I)}

/-- The map has the listed paths, each once, with an integrity that is listed for it. -/
theorem uniqueFiles_spec (listed : List (List Component × I)) :
    (∀ e ∈ (uniqueFiles I listed).entries, e ∈ listed) ∧
      ∀ path, ((uniqueFiles I listed).get path).isSome ↔
        ∃ integrity, (path, integrity) ∈ listed := by
  induction listed using List.reverseRecOn with
  | nil =>
      refine ⟨fun e he => absurd he List.not_mem_nil, fun path => ?_⟩
      simp [uniqueFiles, KeyedMap.get]
  | append_singleton front e ih =>
      obtain ⟨hentries, hpaths⟩ := ih
      have hstep : uniqueFiles I (front ++ [e]) =
          if ((uniqueFiles I front).get e.1).isSome then uniqueFiles I front
          else (uniqueFiles I front).insert e.1 e.2 := by
        rw [uniqueFiles, List.foldl_append]
        rfl
      have hold : ∀ path, (∃ integrity, (path, integrity) ∈ front ++ [e]) ↔
          path = e.1 ∨ ∃ integrity, (path, integrity) ∈ front := by
        intro path
        constructor
        · rintro ⟨integrity, hmem⟩
          rcases List.mem_append.mp hmem with hmem | hmem
          · exact Or.inr ⟨integrity, hmem⟩
          · exact Or.inl (by rw [← List.mem_singleton.mp hmem])
        · rintro (rfl | ⟨integrity, hmem⟩)
          · exact ⟨e.2, by simp⟩
          · exact ⟨integrity, List.mem_append_left _ hmem⟩
      rw [hstep]
      split
      · rename_i hseen
        refine ⟨fun f hf => List.mem_append_left _ (hentries f hf), fun path => ?_⟩
        rw [hold, hpaths]
        refine ⟨Or.inr, fun h => h.elim (fun heq => ?_) id⟩
        rw [heq]
        exact (hpaths e.1).mp hseen
      · refine ⟨fun f hf => ?_, fun path => ?_⟩
        · rcases KeyedMap.mem_entries_insert hf with rfl | hf
          · simp
          · exact List.mem_append_left _ (hentries f hf)
        · rw [hold, KeyedMap.get_insert_eq_ite, ← hpaths]
          split
          · rename_i heq
            simp [heq]
          · rename_i hne
            simp [hne]

/-- The number of entries is the number of different paths. -/
theorem uniqueFiles_length (listed : List (List Component × I)) :
    (uniqueFiles I listed).entries.length =
      {path | ∃ integrity, (path, integrity) ∈ listed}.ncard := by
  have hnodup : (uniqueFiles I listed).keys.Nodup := by
    refine List.pairwise_map.mpr ((uniqueFiles I listed).distinct.imp fun hne heq => ?_)
    rw [heq, beq_self_eq_true] at hne
    cases hne
  have hset : {path | ∃ integrity, (path, integrity) ∈ listed} =
      ((uniqueFiles I listed).keys.toFinset : Set (List Component)) := by
    ext path
    rw [Set.mem_ofPred_eq, ← (uniqueFiles_spec listed).2 path, List.coe_toFinset,
      Set.mem_ofPred_eq, KeyedMap.mem_keys]
    constructor
    · intro hsome
      obtain ⟨integrity, hget⟩ := Option.isSome_iff_exists.mp hsome
      exact ⟨integrity, KeyedMap.get_eq_some_iff.mp hget⟩
    · rintro ⟨integrity, hmem⟩
      rw [KeyedMap.get_eq_some_iff.mpr hmem]
      rfl
  rw [hset, Set.ncard_coe_finset, List.toFinset_card_of_nodup hnodup, KeyedMap.keys,
    List.length_map]

end Unique

section Status

variable {I : Type} [StoreLibs I] [SsriHashes I]

/-- A store on a file tree. What stands in place of its directory of files can be listed. -/
structure StoreState where
  tree : Tree
  storeDir : Text
  readable : FilesReadable tree storeDir

/-- Every listed integrity is one hash with a digest of full length. -/
def SingleDigests (I : Type) [StoreLibs I] [SsriHashes I] (store : StoreState) : Prop :=
  ∀ info, Listed I store.tree store.storeDir info →
    ∃ (integrity : I) (algorithm : Algorithm) (hex : Text),
      SsriParse.parse info.integrity = .ok integrity ∧
        SsriHashes.hashes integrity = [(algorithm, hex)] ∧ hex.length = algorithm.hexLength

/-- The stored file of an entry is there, with the bytes that its integrity is for. -/
def Intact (I : Type) [StoreLibs I] (t : Tree) (storeDir : Text) (info : PackageFileInfo) : Prop :=
  ∃ (integrity : I) (text contents : Text), StoreFile I storeDir info integrity text ∧
    readFile t (components text) = .ok contents ∧ TarballLibs.check integrity contents = .ok ()

variable {store : StoreState}

/-- The path of a listed file is made of its digest. -/
theorem storeFile_components (laws : SsriLaws I) {storeDir text hex : Text}
    {info : PackageFileInfo} {integrity : I} {algorithm : Algorithm}
    (hhashes : SsriHashes.hashes integrity = [(algorithm, hex)])
    (hlen : hex.length = algorithm.hexLength)
    (h : StoreFile I storeDir info integrity text) :
    components text = components (files storeDir) ++
      [.normal (hex.take 2), .normal (hex.drop 2 ++ execSuffix (isAllExec info.mode))] := by
  exact components_casPath (laws.toHex integrity algorithm hex hhashes)
    (laws.isHex integrity algorithm hex hhashes) hlen h.2

theorem exists_storeFile (laws : SsriLaws I) (hsingle : SingleDigests I store)
    {info : PackageFileInfo} (h : Listed I store.tree store.storeDir info) :
    ∃ (integrity : I) (text : Text), StoreFile I store.storeDir info integrity text := by
  obtain ⟨integrity, algorithm, hex, hparse, hhashes, hlen⟩ := hsingle info h
  obtain ⟨text, htext⟩ := exists_casPath (laws.toHex integrity algorithm hex hhashes) hlen
    store.storeDir (isAllExec info.mode)
  exact ⟨integrity, text, hparse, htext⟩

/-- Two entries with one path are the same check. -/
theorem check_congr (laws : SsriLaws I) (hsingle : SingleDigests I store)
    {info info' : PackageFileInfo} {integrity integrity' : I} {text text' : Text}
    (hlisted : Listed I store.tree store.storeDir info)
    (hlisted' : Listed I store.tree store.storeDir info')
    (h : StoreFile I store.storeDir info integrity text)
    (h' : StoreFile I store.storeDir info' integrity' text')
    (hsame : components text = components text') (contents : Text) :
    TarballLibs.check integrity contents = .ok () ↔
      TarballLibs.check integrity' contents = .ok () := by
  have hone : ∀ {info : PackageFileInfo} {integrity : I} {text : Text},
      Listed I store.tree store.storeDir info → StoreFile I store.storeDir info integrity text →
      ∃ algorithm hex, SsriHashes.hashes integrity = [(algorithm, hex)] ∧
        hex.length = algorithm.hexLength := by
    intro info integrity text hlisted hfile
    obtain ⟨parsed, algorithm, hex, hparse, hhashes, hlen⟩ := hsingle info hlisted
    rw [hfile.1, Except.ok.injEq] at hparse
    subst hparse
    exact ⟨algorithm, hex, hhashes, hlen⟩
  obtain ⟨algorithm, hex, hhashes, hlen⟩ := hone hlisted h
  obtain ⟨algorithm', hex', hhashes', hlen'⟩ := hone hlisted' h'
  rw [storeFile_components laws hhashes hlen h, storeFile_components laws hhashes' hlen' h']
    at hsame
  have hnames := List.append_cancel_left hsame
  simp only [List.cons.injEq, Component.normal.injEq, and_true] at hnames
  obtain ⟨htake, hrest⟩ := hnames
  obtain ⟨hdrop, -⟩ := StoreSuffix.append_inj ((laws.isHex integrity _ _ hhashes).drop 2)
    ((laws.isHex integrity' _ _ hhashes').drop 2) (storeSuffix_execSuffix _)
    (storeSuffix_execSuffix _) hrest
  have hhex : hex = hex' := by
    rw [← List.take_append_drop 2 hex, htake, hdrop, List.take_append_drop]
  subst hhex
  have halgorithm := Algorithm.hexLength_injective (hlen.symm.trans hlen')
  subst halgorithm
  rw [laws.check integrity _ _ hhashes, laws.check integrity' _ _ hhashes']

omit [SsriHashes I] in
theorem checkStoreFile_ok_iff {t : Tree} {e : List Component × I} :
    checkStoreFile I t e = .ok () ↔
      ∃ contents, readFile t e.1 = .ok contents ∧ TarballLibs.check e.2 contents = .ok () := by
  unfold checkStoreFile
  cases readFile t e.1 with
  | error error => simp
  | ok contents =>
      simp only [Except.ok.injEq, exists_eq_left']
      constructor
      · exact Results.mapError_ok
      · intro h
        rw [h]
        rfl

section Collected

variable {paths : List (List Component)} {listed : List (List (List Component × I))}
  (hpaths : indexPaths StoreStatusError store.tree store.storeDir = .ok paths)
  (hlisted : paths.mapM (listedPaths StoreStatusError I store.tree store.storeDir) = .ok listed)

include hpaths hlisted

omit [SsriHashes I] in
theorem status_eq : status I store.tree store.storeDir =
    ((uniqueFiles I listed.flatten).entries.mapM (checkStoreFile I store.tree)).map fun _ =>
      ⟨paths.length, (uniqueFiles I listed.flatten).entries.length⟩ := by
  unfold status indexFilePaths
  rw [hpaths]
  simp only [bind, Except.bind, hlisted]
  cases (uniqueFiles I listed.flatten).entries.mapM (checkStoreFile I store.tree) <;> rfl

/-- The checks succeed exactly when every listed file is intact: for each path one of its
integrities is checked, which is as good as all of them. -/
theorem exists_checks_iff (laws : SsriLaws I) (hsingle : SingleDigests I store) :
    (∃ checks, (uniqueFiles I listed.flatten).entries.mapM (checkStoreFile I store.tree) =
      .ok checks) ↔
      ∀ info, Listed I store.tree store.storeDir info →
        Intact I store.tree store.storeDir info := by
  have hmem := mem_listedPaths_iff (indexPaths_ok hpaths).2 hlisted
  obtain ⟨hentries, hpathsOf⟩ := uniqueFiles_spec listed.flatten
  rw [Results.exists_mapM_ok_iff]
  constructor
  · intro h info hinfo
    obtain ⟨integrity, text, hfile⟩ := exists_storeFile laws hsingle hinfo
    have hthere := (hpathsOf (components text)).mpr
      ⟨integrity, (hmem _).mpr ⟨info, text, hinfo, hfile, rfl⟩⟩
    obtain ⟨checked, hget⟩ := Option.isSome_iff_exists.mp hthere
    have hentry := KeyedMap.get_eq_some_iff.mp hget
    obtain ⟨⟨⟩, hok⟩ := h _ hentry
    obtain ⟨contents, hread, hcheck⟩ := checkStoreFile_ok_iff.mp hok
    obtain ⟨info', text', hinfo', hfile', hsame⟩ := (hmem _).mp (hentries _ hentry)
    refine ⟨integrity, text, contents, hfile, hread, ?_⟩
    exact (check_congr laws hsingle hinfo' hinfo hfile' hfile hsame contents).mp hcheck
  · rintro h ⟨path, integrity⟩ hentry
    obtain ⟨info, text, hinfo, hfile, rfl⟩ := (hmem _).mp (hentries _ hentry)
    obtain ⟨integrity', text', contents, hfile', hread, hcheck⟩ := h info hinfo
    obtain ⟨rfl, rfl⟩ := hfile.unique hfile'
    exact ⟨(), checkStoreFile_ok_iff.mpr ⟨contents, hread, hcheck⟩⟩

omit [SsriHashes I] in
theorem checked_counts : paths.length =
      {path | IsIndexFile store.tree store.storeDir path}.ncard ∧
    (uniqueFiles I listed.flatten).entries.length =
      (listedCasPaths I store.tree store.storeDir).ncard := by
  obtain ⟨hnodup, hindex⟩ := indexPaths_ok hpaths
  constructor
  · have hset : {path | IsIndexFile store.tree store.storeDir path} =
        (paths.toFinset : Set (List Component)) := by
      ext path
      rw [Set.mem_ofPred_eq, ← hindex, List.coe_toFinset, Set.mem_ofPred_eq]
    rw [hset, Set.ncard_coe_finset, List.toFinset_card_of_nodup hnodup]
  · have hset : {path | ∃ integrity, (path, integrity) ∈ listed.flatten} =
        listedCasPaths I store.tree store.storeDir := by
      ext path
      rw [Set.mem_ofPred_eq, listedCasPaths, Set.mem_ofPred_eq]
      constructor
      · rintro ⟨integrity, hmem⟩
        obtain ⟨info, text, h⟩ := (mem_listedPaths_iff hindex hlisted _).mp hmem
        exact ⟨info, integrity, text, h⟩
      · rintro ⟨info, integrity, text, h⟩
        exact ⟨integrity, (mem_listedPaths_iff hindex hlisted _).mpr ⟨info, text, h⟩⟩
    rw [uniqueFiles_length, hset]

end Collected

/-- The status is given exactly when every index can be read and every listed file is intact,
and it counts the indexes and the files. -/
theorem status_ok_iff (laws : SsriLaws I) (hsingle : SingleDigests I store) :
    ((∃ counts, status I store.tree store.storeDir = .ok counts) ↔
      (∀ path, IsIndexFile store.tree store.storeDir path →
        ∃ index, IndexAt I store.tree path index) ∧
      ∀ info, Listed I store.tree store.storeDir info →
        Intact I store.tree store.storeDir info) ∧
    ∀ counts, status I store.tree store.storeDir = .ok counts →
      counts.checkedPackages = {path | IsIndexFile store.tree store.storeDir path}.ncard ∧
        counts.checkedFiles = (listedCasPaths I store.tree store.storeDir).ncard := by
  obtain ⟨paths, hpaths⟩ : ∃ paths,
      indexPaths StoreStatusError store.tree store.storeDir = .ok paths :=
    exists_indexPaths store.readable
  have hindex := (indexPaths_ok hpaths).2
  have hall : (∃ listed, paths.mapM
      (listedPaths StoreStatusError I store.tree store.storeDir) = .ok listed) ↔
      ∀ path, IsIndexFile store.tree store.storeDir path →
        ∃ index, IndexAt I store.tree path index := by
    rw [exists_listedPaths_iff hindex]
    constructor
    · intro h path hpath
      obtain ⟨index, hat, -⟩ := h path hpath
      exact ⟨index, hat⟩
    · intro h path hpath
      obtain ⟨index, hat⟩ := h path hpath
      exact ⟨index, hat, fun e he =>
        exists_storeFile laws hsingle ⟨path, index, e.1, hpath, hat, he⟩⟩
  by_cases hlisted : ∃ listed, paths.mapM
      (listedPaths StoreStatusError I store.tree store.storeDir) = .ok listed
  · obtain ⟨listed, hlisted⟩ := hlisted
    rw [status_eq hpaths hlisted, ← exists_checks_iff hpaths hlisted laws hsingle]
    constructor
    · constructor
      · rintro ⟨counts, hcounts⟩
        obtain ⟨checks, hchecks, -⟩ := Results.map_ok hcounts
        exact ⟨hall.mp ⟨listed, hlisted⟩, checks, hchecks⟩
      · rintro ⟨-, checks, hchecks⟩
        exact ⟨_, by rw [hchecks]; rfl⟩
    · intro counts hcounts
      obtain ⟨checks, -, rfl⟩ := Results.map_ok hcounts
      exact checked_counts hpaths hlisted
  · have herror : ∀ counts, status I store.tree store.storeDir ≠ .ok counts := by
      intro counts hcounts
      unfold status indexFilePaths at hcounts
      obtain ⟨paths', hpaths', hcounts⟩ := Results.bind_ok hcounts
      rw [hpaths, Except.ok.injEq] at hpaths'
      subst hpaths'
      obtain ⟨listed, hok, -⟩ := Results.bind_ok hcounts
      exact hlisted ⟨listed, hok⟩
    refine ⟨iff_of_false (fun ⟨counts, h⟩ => herror counts h) fun h => hlisted (hall.mpr h.1), ?_⟩
    exact fun counts h => absurd h (herror counts)

end Status

section Samples

instance : SsriHashes HashIntegrity where
  hashes integrity := [(algorithmOf integrity.algorithm, base64ToHex integrity.digest)]
  digest := sampleDigest

theorem sampleSsriLaws : SsriLaws HashIntegrity where
  isHex integrity algorithm hex h := by
    cases h
    exact isHex_base64ToHex _
  toHex integrity algorithm hex h := by
    cases h
    rfl
  check integrity algorithm hex h contents := by
    cases h
    simp only [TarballLibs.check, SsriHashes.digest]
    split
    · rename_i hsame
      exact iff_of_true rfl hsame
    · rename_i hnot
      exact iff_of_false (fun h => by cases h) hnot

/-- The sample store as a store. -/
def sampleState : StoreState where
  tree := sampleStore
  storeDir := "/store".toList
  readable := fun _ => by decide +kernel

theorem sampleState_single : SingleDigests HashIntegrity sampleState := by
  rintro info ⟨path, index, name, -, hindex, hmem⟩
  obtain rfl := sampleIndex_of_indexAt hindex
  obtain ⟨-, rfl⟩ := Prod.mk.inj (List.mem_singleton.mp hmem)
  exact ⟨⟨"sha512".toList, SampleBytes.empty.sha512⟩, .sha512,
    base64ToHex SampleBytes.empty.sha512, sampleInfo_parse, rfl, sampleDigest_length⟩

/-- One index, and one file that is intact. -/
theorem sampleState_status :
    (∀ info, Listed HashIntegrity sampleState.tree sampleState.storeDir info →
      Intact HashIntegrity sampleState.tree sampleState.storeDir info) ∧
    {path | IsIndexFile sampleState.tree sampleState.storeDir path}.ncard = 1 ∧
      (listedCasPaths HashIntegrity sampleState.tree sampleState.storeDir).ncard = 1 := by
  have hcounts : (status HashIntegrity sampleState.tree sampleState.storeDir).toOption.map
      (fun counts => (counts.checkedPackages, counts.checkedFiles)) = some (1, 1) := by
    decide +kernel
  obtain ⟨counts, hstatus, hone⟩ := Results.exists_of_toOption_map hcounts
  obtain ⟨hok, hnumbers⟩ := status_ok_iff sampleSsriLaws sampleState_single
  obtain ⟨hpackages, hfiles⟩ := hnumbers counts hstatus
  obtain ⟨hpackages', hfiles'⟩ := Prod.mk.inj hone
  exact ⟨(hok.mp ⟨counts, hstatus⟩).2, hpackages.symm.trans hpackages',
    hfiles.symm.trans hfiles'⟩

end Samples

end StoreDir

end Npnpm
