import Npnpm.Tarball.WarmPath
import Npnpm.Library.Run

/-!
# Pruning a store that is in use

An extraction puts the files of a tarball into the store and writes the index that
lists them last. `StoreDir::prune` reads the indexes first and removes the files
that none of them lists afterwards. The two take their steps on the same store in
any order.

## Implementation notes

Extractions and prunes are known by numbers. A step is one test, write, reading or
removal of a file. The listing of a directory shows every file that is there from
its beginning to its end, and may show files that come while it lasts. The
temporary directory is outside of the files and is left out.
-/

namespace Npnpm

namespace Prune

section Definitions

variable {I B : Type} [TarballLibs I B]

inductive ExtractionPhase
  /-- before the test for the next file, or for the index after the last one -/
  | testing
  | writing
  | writingIndex
  | finished

/-- `passed` are the files that have been found or written. -/
structure Extraction (I B : Type) where
  integrity : I
  now : Option Nat
  passed : List (FileEntry B)
  rest : List (FileEntry B)
  phase : ExtractionPhase

inductive PrunePhase
  | listing (found : List Text)
  | reading (todo : List Text) (read : List (Text × PackageFilesIndex))
  | removing (read : List (Text × PackageFilesIndex))
  | unlinking (read : List (Text × PackageFilesIndex)) (path : Text)
  | finished

/-- `known` are the indexes that were in the store when the prune began. -/
structure PruneCall where
  known : Text → Bool
  phase : PrunePhase

structure State (I B : Type) where
  files : Text → Option (StoredFile B)
  extractions : Nat → Option (Extraction I B)
  prunes : Nat → Option PruneCall

/-- `file_name` ends with `-index.json`. -/
def isIndexPath (path : Text) : Bool := "-index.json".toList.isSuffixOf path

/-- An entry of one of the directories in the directory of the files. -/
def HeadEntry (storeDir path : Text) : Prop :=
  ∃ head name, '/' ∉ head ∧ '/' ∉ name ∧
    path = filesDir storeDir ++ '/' :: (head ++ '/' :: name)

def State.initial (files : Text → Option (StoredFile B)) : State I B :=
  ⟨files, fun _ => none, fun _ => none⟩

/-- Every extraction and every prune has ended. -/
def State.Finished (s : State I B) : Prop :=
  (∀ i x, s.extractions i = some x → x.phase = .finished) ∧
    ∀ k c, s.prunes k = some c → c.phase = .finished

variable (I B) in
/-- The files of the store that an index lists. -/
def listedFiles (storeDir : Text) (index : PackageFilesIndex) : List Text :=
  index.files.entries.filterMap fun e => (indexedFile I B storeDir e).toOption.map Prod.snd

variable (I B) in
def referencedFiles (storeDir : Text) (read : List (Text × PackageFilesIndex)) : List Text :=
  read.flatMap fun e => listedFiles I B storeDir e.2

/-- The index of the files that were passed; a later file replaces an earlier one. -/
def Extraction.index (x : Extraction I B) : PackageFilesIndex :=
  ⟨KeyedMap.ofList (x.passed.map fun f => (f.name, f.info I x.now))⟩

def Extraction.setPhase (x : Extraction I B) (phase : ExtractionPhase) : Extraction I B :=
  { x with phase := phase }

/-- The next file is in the store. -/
def Extraction.pass (x : Extraction I B) (f : FileEntry B) (rest : List (FileEntry B)) :
    Extraction I B :=
  { x with passed := x.passed ++ [f], rest := rest, phase := .testing }

def State.setFile (s : State I B) (p : Text) (file : Option (StoredFile B)) : State I B :=
  { s with files := fun q => if q = p then file else s.files q }

def State.setExtraction (s : State I B) (i : Nat) (x : Extraction I B) : State I B :=
  { s with extractions := fun j => if j = i then some x else s.extractions j }

def State.setPrune (s : State I B) (k : Nat) (known : Text → Bool) (phase : PrunePhase) :
    State I B :=
  { s with prunes := fun j => if j = k then some ⟨known, phase⟩ else s.prunes j }

inductive Event
  | extract (i : Nat)
  | found (i : Nat)
  | missing (i : Nat)
  | wrote (i : Nat)
  | indexFound (i : Nat)
  | indexMissing (i : Nat)
  | indexWrote (i : Nat)
  | prune (k : Nat)
  | list (k : Nat) (path : Text)
  | listed (k : Nat)
  | read (k : Nat)
  | collected (k : Nat)
  | pick (k : Nat) (path : Text)
  | remove (k : Nat) (path : Text)
  | pruned (k : Nat)

inductive Step (storeDir : Text) (s : State I B) : Event → State I B → Prop
  | extract (i integrity now files) (h : s.extractions i = none) :
      Step storeDir s (.extract i) (s.setExtraction i ⟨integrity, now, [], files, .testing⟩)
  | found {i x f rest p} (h : s.extractions i = some x) (hphase : x.phase = .testing)
      (hrest : x.rest = f :: rest) (hpath : f.casPath I storeDir = .ok p)
      (hfile : s.files p ≠ none) :
      Step storeDir s (.found i) (s.setExtraction i (x.pass f rest))
  | missing {i x f rest p} (h : s.extractions i = some x) (hphase : x.phase = .testing)
      (hrest : x.rest = f :: rest) (hpath : f.casPath I storeDir = .ok p)
      (hfile : s.files p = none) :
      Step storeDir s (.missing i) (s.setExtraction i (x.setPhase .writing))
  | wrote {i x f rest p} (h : s.extractions i = some x) (hphase : x.phase = .writing)
      (hrest : x.rest = f :: rest) (hpath : f.casPath I storeDir = .ok p) :
      Step storeDir s (.wrote i)
        ((s.setFile p (some (.cas f.buffer))).setExtraction i (x.pass f rest))
  | indexFound {i x q} (h : s.extractions i = some x) (hphase : x.phase = .testing)
      (hrest : x.rest = []) (hpath : indexFilePath B storeDir x.integrity = .ok q)
      (hfile : s.files q ≠ none) :
      Step storeDir s (.indexFound i) (s.setExtraction i (x.setPhase .finished))
  | indexMissing {i x q} (h : s.extractions i = some x) (hphase : x.phase = .testing)
      (hrest : x.rest = []) (hpath : indexFilePath B storeDir x.integrity = .ok q)
      (hfile : s.files q = none) :
      Step storeDir s (.indexMissing i) (s.setExtraction i (x.setPhase .writingIndex))
  | indexWrote {i x q} (h : s.extractions i = some x) (hphase : x.phase = .writingIndex)
      (hpath : indexFilePath B storeDir x.integrity = .ok q) :
      Step storeDir s (.indexWrote i)
        ((s.setFile q (some (.index x.index))).setExtraction i (x.setPhase .finished))
  | prune (k) (h : s.prunes k = none) :
      Step storeDir s (.prune k)
        (s.setPrune k (fun p => (s.files p).isSome && isIndexPath p) (.listing []))
  | list {k known found p} (h : s.prunes k = some ⟨known, .listing found⟩)
      (hfile : s.files p ≠ none) (hplace : HeadEntry storeDir p) (hindex : isIndexPath p = true) :
      Step storeDir s (.list k p) (s.setPrune k known (.listing (found ++ [p])))
  | listed {k known found} (h : s.prunes k = some ⟨known, .listing found⟩)
      (hall : ∀ p, known p = true → HeadEntry storeDir p → s.files p ≠ none → p ∈ found) :
      Step storeDir s (.listed k) (s.setPrune k known (.reading found []))
  | read {k known p todo read index} (h : s.prunes k = some ⟨known, .reading (p :: todo) read⟩)
      (hfile : s.files p = some (.index index))
      (hparsed : ∀ e ∈ index.files.entries, ∃ r, indexedFile I B storeDir e = .ok r) :
      Step storeDir s (.read k) (s.setPrune k known (.reading todo (read ++ [(p, index)])))
  | collected {k known read} (h : s.prunes k = some ⟨known, .reading [] read⟩) :
      Step storeDir s (.collected k) (s.setPrune k known (.removing read))
  | pick {k known read p} (h : s.prunes k = some ⟨known, .removing read⟩)
      (hfile : s.files p ≠ none) (hplace : HeadEntry storeDir p) (hindex : isIndexPath p = false)
      (hreferenced : p ∉ referencedFiles I B storeDir read) :
      Step storeDir s (.pick k p) (s.setPrune k known (.unlinking read p))
  | remove {k known read p} (h : s.prunes k = some ⟨known, .unlinking read p⟩)
      (hfile : s.files p ≠ none) :
      Step storeDir s (.remove k p)
        ((s.setFile p none).setPrune k known (.removing read))
  | pruned {k known read} (h : s.prunes k = some ⟨known, .removing read⟩) :
      Step storeDir s (.pruned k) (s.setPrune k known .finished)

end Definitions

section Safety

variable {I B : Type} [TarballLibs I B]

variable (I) in
/-- Every file that an index of the store lists is in the store. -/
def Consistent (storeDir : Text) (files : Text → Option (StoredFile B)) : Prop :=
  ∀ q index, files q = some (.index index) → ∀ p ∈ listedFiles I B storeDir index,
    files p ≠ none

/-- A file is removed that no extraction under way has passed, and the indexes that
list it now are among those that this prune has read. -/
def SafeRemoval (storeDir : Text) (x : State I B × Event × State I B) : Prop :=
  ∀ k p, x.2.1 = .remove k p →
    (∀ i e, x.1.extractions i = some e → e.phase ≠ .finished →
      ∀ f ∈ e.passed, f.casPath I storeDir ≠ .ok p) ∧
    ∀ known read, x.1.prunes k = some ⟨known, .unlinking read p⟩ →
      ∀ q index, x.1.files q = some (.index index) → p ∈ listedFiles I B storeDir index →
        (q, index) ∈ read

variable {storeDir : Text} {s s' : State I B}

/-- What an index under construction lists are the files that were passed. -/
theorem listedFiles_index (laws : DigestLaws I B) {x : Extraction I B}
    (hpassed : ∀ f ∈ x.passed, ∃ p, f.casPath I storeDir = .ok p) {p : Text}
    (h : p ∈ listedFiles I B storeDir x.index) :
    ∃ f ∈ x.passed, f.casPath I storeDir = .ok p := by
  obtain ⟨e, he, hp⟩ := List.mem_filterMap.mp h
  have hentry : ∃ f ∈ x.passed, e = (f.name, f.info I x.now) := by
    have hmem := KeyedMap.mem_of_mem_entries_ofList he
    obtain ⟨f, hf, rfl⟩ := List.mem_map.mp hmem
    exact ⟨f, hf, rfl⟩
  obtain ⟨f, hf, rfl⟩ := hentry
  obtain ⟨path, hpath⟩ := hpassed f hf
  rw [indexedFile_info laws x.now hpath] at hp
  obtain rfl : path = p := by simpa [Except.toOption] using hp
  exact ⟨f, hf, hpath⟩

/-- What the extractions have passed and what the prunes are about to remove. -/
structure Inv (storeDir : Text) (s : State I B) : Prop where
  consistent : Consistent I storeDir s.files
  passed : ∀ i x, s.extractions i = some x → x.phase ≠ .finished →
    ∀ f ∈ x.passed, ∃ p, f.casPath I storeDir = .ok p ∧ s.files p ≠ none
  picked : ∀ k known read p, s.prunes k = some ⟨known, .unlinking read p⟩ →
    p ∉ referencedFiles I B storeDir read

theorem Inv.initial (hstart : Consistent I storeDir s.files)
    (hextractions : ∀ i, s.extractions i = none) (hprunes : ∀ k, s.prunes k = none) :
    Inv storeDir s where
  consistent := hstart
  passed i x h := by simp [hextractions] at h
  picked k known read p h := by simp [hprunes] at h

/-- An extraction goes on and the files stay. -/
theorem Inv.setExtraction (hinv : Inv storeDir s) {i : Nat} {x : Extraction I B}
    (hx : x.phase ≠ .finished →
      ∀ f ∈ x.passed, ∃ p, f.casPath I storeDir = .ok p ∧ s.files p ≠ none) :
    Inv storeDir (s.setExtraction i x) where
  consistent := hinv.consistent
  passed j y h hphase := by
    by_cases hj : j = i
    · obtain rfl : x = y := by simpa [State.setExtraction, hj] using h
      exact hx hphase
    · exact hinv.passed j y (by simpa [State.setExtraction, hj] using h) hphase
  picked := hinv.picked

theorem Inv.setPrune (hinv : Inv storeDir s) {k : Nat} {known : Text → Bool}
    {phase : PrunePhase}
    (hphase : ∀ read p, phase = .unlinking read p → p ∉ referencedFiles I B storeDir read) :
    Inv storeDir (s.setPrune k known phase) where
  consistent := hinv.consistent
  passed := hinv.passed
  picked j known' read p h := by
    by_cases hj : j = k
    · obtain ⟨-, hread⟩ : known = known' ∧ phase = .unlinking read p := by
        simpa [State.setPrune, hj] using h
      exact hphase read p hread
    · exact hinv.picked j known' read p (by simpa [State.setPrune, hj] using h)

/-- Writing a file hides none, and an index is written when its files are there. -/
theorem Inv.setFile (hinv : Inv storeDir s) {q : Text} {file : StoredFile B}
    (hindex : ∀ index, file = .index index →
      ∀ p ∈ listedFiles I B storeDir index, s.files p ≠ none) :
    Inv storeDir (s.setFile q (some file)) := by
  have hthere : ∀ p, s.files p ≠ none → (s.setFile q (some file)).files p ≠ none := by
    intro p hp
    by_cases hpq : p = q <;> simp [State.setFile, hpq]
    simpa [hpq] using hp
  constructor
  · intro q' index hq' p hp
    apply hthere
    by_cases hqq : q' = q
    · obtain rfl : file = .index index := by simpa [State.setFile, hqq] using hq'
      exact hindex index rfl p hp
    · exact hinv.consistent q' index (by simpa [State.setFile, hqq] using hq') p hp
  · intro i x h hphase f hf
    obtain ⟨p, hp, hfile⟩ := hinv.passed i x h hphase f hf
    exact ⟨p, hp, hthere p hfile⟩
  · exact hinv.picked

/-- A safe removal takes no file that an index lists: the indexes that this prune
has read do not list what it picks. -/
theorem Inv.remove (hinv : Inv storeDir s) {k : Nat} {known : Text → Bool}
    {read : List (Text × PackageFilesIndex)} {p : Text}
    (h : s.prunes k = some ⟨known, .unlinking read p⟩)
    (hpassed : ∀ i e, s.extractions i = some e → e.phase ≠ .finished →
      ∀ f ∈ e.passed, f.casPath I storeDir ≠ .ok p)
    (hread : ∀ q index, s.files q = some (.index index) →
      p ∈ listedFiles I B storeDir index → (q, index) ∈ read) :
    Inv storeDir (s.setFile p none) := by
  have hother : ∀ q, q ≠ p → (s.setFile p none).files q = s.files q := by
    intro q hq
    simp [State.setFile, hq]
  constructor
  · intro q index hq p' hp'
    have hqp : q ≠ p := by
      rintro rfl
      simp [State.setFile] at hq
    rw [hother q hqp] at hq
    have hne : p' ≠ p := by
      rintro rfl
      exact hinv.picked k known read p' h
        (List.mem_flatMap.mpr ⟨(q, index), hread q index hq hp', hp'⟩)
    rw [hother p' hne]
    exact hinv.consistent q index hq p' hp'
  · intro i x hx hphase f hf
    obtain ⟨p', hp', hfile⟩ := hinv.passed i x hx hphase f hf
    have hne : p' ≠ p := by
      rintro rfl
      exact hpassed i x hx hphase f hf hp'
    exact ⟨p', hp', by rw [hother p' hne]; exact hfile⟩
  · exact hinv.picked

theorem Inv.pass (hinv : Inv storeDir s) {i : Nat} {x : Extraction I B} {f : FileEntry B}
    {rest : List (FileEntry B)} {p : Text} (h : s.extractions i = some x)
    (hphase : x.phase ≠ .finished) (hpath : f.casPath I storeDir = .ok p)
    (hfile : s.files p ≠ none) : Inv storeDir (s.setExtraction i (x.pass f rest)) := by
  apply hinv.setExtraction
  intro _ g hg
  rcases List.mem_append.mp hg with hg | hg
  · exact hinv.passed i x h hphase g hg
  · obtain rfl := List.mem_singleton.mp hg
    exact ⟨p, hpath, hfile⟩

theorem Inv.step (laws : DigestLaws I B) {e : Event} (hinv : Inv storeDir s)
    (h : Step storeDir s e s') (hsafe : SafeRemoval storeDir (s, e, s')) : Inv storeDir s' := by
  cases h with
  | extract => exact hinv.setExtraction fun _ f hf => by simp at hf
  | found h hphase hrest hpath hfile => exact hinv.pass h (by simp [hphase]) hpath hfile
  | @missing i x f rest p h hphase =>
      exact hinv.setExtraction fun _ => hinv.passed i x h (by simp [hphase])
  | @wrote i x f rest p h hphase hrest hpath =>
      have hset : Inv storeDir (s.setFile p (some (.cas f.buffer))) := hinv.setFile (by simp)
      exact hset.pass h (by simp [hphase]) hpath (by simp [State.setFile])
  | indexFound => exact hinv.setExtraction fun hfinished => absurd rfl hfinished
  | @indexMissing i x q h hphase =>
      exact hinv.setExtraction fun _ => hinv.passed i x h (by simp [hphase])
  | @indexWrote i x q h hphase hpath =>
      have hpassed := hinv.passed i x h (by simp [hphase])
      have hlisted : ∀ p ∈ listedFiles I B storeDir x.index, s.files p ≠ none := by
        intro p hp
        have hcas : ∀ f ∈ x.passed, ∃ p, f.casPath I storeDir = .ok p := fun f hf =>
          (hpassed f hf).imp fun _ h => h.1
        obtain ⟨f, hf, hfp⟩ := listedFiles_index laws hcas hp
        obtain ⟨p', hp', hfile⟩ := hpassed f hf
        obtain rfl : p = p' := by simpa [hfp] using hp'
        exact hfile
      have hset : Inv storeDir (s.setFile q (some (.index x.index))) := by
        apply hinv.setFile
        rintro index hindex
        cases hindex
        exact hlisted
      exact hset.setExtraction fun hfinished => absurd rfl hfinished
  | prune | list | listed | read | collected | pruned => exact hinv.setPrune (by simp)
  | pick h hfile hplace hindex hreferenced =>
      apply hinv.setPrune
      rintro read p hphase
      cases hphase
      exact hreferenced
  | @remove k known read p h hfile =>
      obtain ⟨hpassed, hread⟩ := hsafe k p rfl
      exact (hinv.remove h hpassed (hread known read h)).setPrune (by simp)

end Safety

section Places

variable {I B : Type} [TarballLibs I B] {storeDir p : Text}

theorem headEntry_of_filePathByHexStr {hex suffix : Text} (hhex : IsHex hex)
    (hsuffix : StoreSuffix suffix) (h : filePathByHexStr storeDir hex suffix = .ok p) :
    HeadEntry storeDir p := by
  obtain ⟨-, rfl⟩ := filePathByHexStr_ok hhex hsuffix h
  refine ⟨hex.take 2, hex.drop 2 ++ suffix, ?_, ?_, rfl⟩
  · exact fun hmem => hhex.notMem (by decide) (List.mem_of_mem_take hmem)
  · intro hmem
    rcases List.mem_append.mp hmem with hmem | hmem
    · exact hhex.notMem (by decide) (List.mem_of_mem_drop hmem)
    · cases hsuffix with
      | plain => cases hmem
      | exec => exact absurd hmem (by decide)
      | index => exact absurd hmem (by decide)

/-- A file of an archive is stored in a head directory. -/
theorem headEntry_casPath (laws : DigestLaws I B) {f : FileEntry B}
    (h : f.casPath I storeDir = .ok p) : HeadEntry storeDir p :=
  headEntry_of_filePathByHexStr (laws.isHex f.buffer) (storeSuffix_execSuffix _) h

end Places

section Schedules

variable {I B : Type} [TarballLibs I B] {storeDir : Text} {s : State I B}

/-- An extraction of one file runs up to its index. -/
theorem exists_fileWritten (i : Nat) (integrity : I) (now : Option Nat) {f : FileEntry B}
    {p : Text} (hnew : s.extractions i = none) (hpath : f.casPath I storeDir = .ok p)
    (hfile : s.files p = none) :
    ∃ s', Run (Step storeDir) s [.extract i, .missing i, .wrote i] s' ∧
      s'.files = (s.setFile p (some (.cas f.buffer))).files ∧ s'.prunes = s.prunes ∧
      s'.extractions = (s.setExtraction i ⟨integrity, now, [f], [], .testing⟩).extractions := by
  have hnil : Run (Step storeDir) s [] s := .nil
  have hextract := hnil.snoc (.extract i integrity now [f] hnew)
  have hmissing := hextract.snoc (.missing (i := i) (p := p) (if_pos rfl) rfl rfl hpath hfile)
  have hwrote := hmissing.snoc (.wrote (i := i) (p := p) (if_pos rfl) rfl rfl hpath)
  refine ⟨_, hwrote, rfl, rfl, ?_⟩
  funext j
  by_cases hj : j = i <;>
    simp [State.setExtraction, State.setFile, Extraction.pass, Extraction.setPhase, hj]

/-- It goes on and writes the index. -/
theorem exists_indexWritten {i : Nat} {x : Extraction I B} {q : Text}
    (h : s.extractions i = some x) (hphase : x.phase = .testing) (hrest : x.rest = [])
    (hpath : indexFilePath B storeDir x.integrity = .ok q) (hfile : s.files q = none) :
    ∃ s', Run (Step storeDir) s [.indexMissing i, .indexWrote i] s' ∧
      s'.files = (s.setFile q (some (.index x.index))).files ∧ s'.prunes = s.prunes ∧
      s'.extractions = (s.setExtraction i (x.setPhase .finished)).extractions := by
  have hnil : Run (Step storeDir) s [] s := .nil
  have hmissing := hnil.snoc (.indexMissing (i := i) h hphase hrest hpath hfile)
  have hwrote := hmissing.snoc (.indexWrote (i := i) (q := q) (if_pos rfl) rfl hpath)
  refine ⟨_, hwrote, rfl, rfl, ?_⟩
  funext j
  by_cases hj : j = i <;> simp [State.setExtraction, State.setFile, Extraction.setPhase, hj]

/-- A prune that begins when no index is there removes any other file of a head directory. The
extractions stay as they are, and no file comes. -/
theorem exists_removed (k : Nat) {p : Text} (hnew : s.prunes k = none)
    (hnone : ∀ r, isIndexPath r = true → s.files r = none) (hplace : HeadEntry storeDir p)
    (hindex : isIndexPath p = false)
    (hfile : s.files p ≠ none) :
    ∃ trace s', Run (Traced (Step storeDir)) s trace s' ∧
      s'.files = (s.setFile p none).files ∧ s'.extractions = s.extractions ∧
      s'.prunes = (s.setPrune k (fun p => (s.files p).isSome && isIndexPath p)
        .finished).prunes ∧ (∃ x ∈ trace, x.2.1 = .remove k p) ∧
      ∀ x ∈ trace, x.1.extractions = s.extractions ∧
        ∀ r file, x.1.files r = some file → s.files r = some file := by
  have hknown : ∀ r, ((s.files r).isSome && isIndexPath r) = true → HeadEntry storeDir r →
      s.files r ≠ none → r ∈ [] := by
    intro r hr _ hsome
    exact absurd (hnone r (Bool.and_eq_true_iff.mp hr).2) hsome
  have hnil : Run (Traced (Step storeDir)) s [] s := .nil
  have hprune := hnil.snoc_traced (.prune k hnew)
  have hlisted := hprune.snoc_traced (.listed (k := k) (if_pos rfl) hknown)
  have hcollected := hlisted.snoc_traced (.collected (k := k) (if_pos rfl))
  have hpick := hcollected.snoc_traced
    (.pick (k := k) (p := p) (if_pos rfl) hfile hplace hindex (by simp [referencedFiles]))
  have hremove := hpick.snoc_traced (.remove (k := k) (if_pos rfl) hfile)
  have hpruned := hremove.snoc_traced (.pruned (k := k) (if_pos rfl))
  refine ⟨_, _, hpruned, rfl, rfl, ?_, ?_, ?_⟩
  · funext j
    by_cases hj : j = k <;> simp [State.setPrune, State.setFile, hj]
  · exact ⟨_, List.mem_append_left _ (List.mem_append_right _ (List.mem_singleton_self _)), rfl⟩
  · intro x hx
    simp only [List.nil_append, List.cons_append, List.mem_cons, List.not_mem_nil,
      or_false] at hx
    rcases hx with rfl | rfl | rfl | rfl | rfl | rfl <;>
      refine ⟨rfl, fun r file hr => ?_⟩ <;> try exact hr
    by_cases hrp : r = p <;> simp_all [State.setPrune, State.setFile]

theorem mem_listedFiles_index (laws : DigestLaws I B) {x : Extraction I B} {f : FileEntry B}
    {p : Text} (hpassed : x.passed = [f]) (hpath : f.casPath I storeDir = .ok p) :
    p ∈ listedFiles I B storeDir x.index := by
  have hentries : x.index.files.entries = [(f.name, f.info I x.now)] := by
    simp [Extraction.index, hpassed, KeyedMap.ofList, KeyedMap.insert,
      KeyedMap.insertEntry, KeyedMap.empty]
  simp [listedFiles, hentries, indexedFile_info laws x.now hpath, Except.toOption]

/-- A prune that reads the indexes between a file and its index takes the file. -/
theorem exists_lost (laws : DigestLaws I B) {integrity : I} {f : FileEntry B} {p q : Text}
    (hp : f.casPath I storeDir = .ok p) (hq : indexFilePath B storeDir integrity = .ok q)
    (hpindex : isIndexPath p = false) (hqindex : isIndexPath q = true) :
    ∃ events, ∃ s : State I B, Run (Step storeDir) (State.initial fun _ => none) events s ∧
      s.Finished ∧ ¬ Consistent I storeDir s.files := by
  have hqp : q ≠ p := by
    rintro rfl
    simp [hpindex] at hqindex
  obtain ⟨s₁, hrun₁, hfiles₁, hprunes₁, hextractions₁⟩ :=
    exists_fileWritten (s := State.initial (I := I) (B := B) fun _ => none) 0 integrity none
      rfl hp rfl
  have hother₁ : ∀ r, r ≠ p → s₁.files r = none := by
    intro r hr
    simp [hfiles₁, State.setFile, State.initial, hr]
  obtain ⟨trace, s₂, hrun₂, hfiles₂, hextractions₂, hprunes₂, -⟩ :=
    exists_removed (s := s₁) 0 (by simp [hprunes₁, State.initial])
      (fun r hr => hother₁ r (by rintro rfl; simp [hpindex] at hr)) (headEntry_casPath laws hp)
      hpindex
      (by simp [hfiles₁, State.setFile])
  obtain ⟨s₃, hrun₃, hfiles₃, hprunes₃, hextractions₃⟩ :=
    exists_indexWritten (s := s₂) (i := 0) (x := ⟨integrity, none, [f], [], .testing⟩) (q := q)
      (by simp [hextractions₂, hextractions₁, State.setExtraction]) rfl rfl hq
      (by simp [hfiles₂, State.setFile, hqp, hother₁ q hqp])
  refine ⟨_, s₃, (hrun₁.append hrun₂.of_traced).append hrun₃, ⟨?_, ?_⟩, ?_⟩
  · intro i x hx
    by_cases hi : i = 0
    · obtain rfl : _ = x := by simpa [hextractions₃, State.setExtraction, hi] using hx
      rfl
    · simp [hextractions₃, hextractions₂, hextractions₁, State.setExtraction, State.initial,
        hi] at hx
  · intro k c hc
    by_cases hk : k = 0
    · obtain rfl : _ = c := by simpa [hprunes₃, hprunes₂, State.setPrune, hk] using hc
      rfl
    · simp [hprunes₃, hprunes₂, hprunes₁, State.setPrune, State.initial, hk] at hc
  · intro hconsistent
    have hindex : s₃.files q =
        some (.index (Extraction.mk integrity none [f] [] .testing).index) := by
      simp [hfiles₃, State.setFile]
    apply hconsistent q _ hindex p (mem_listedFiles_index laws rfl hp)
    simp [hfiles₃, hfiles₂, State.setFile, hqp.symm]

end Schedules

section Samples

/-- The store `/store`, a file of a package and the integrity of its archive. -/
def sampleFile : FileEntry SampleBytes := ⟨"index.js".toList, 0o644, .empty, some 0⟩

theorem sampleFile_path : ∃ p, sampleFile.casPath HashIntegrity "/store".toList = .ok p ∧
    isIndexPath p = false :=
  Results.exists_of_toOption_map (by decide +kernel)

theorem sampleIndex_path : ∃ q, indexFilePath SampleBytes "/store".toList
    (sampleCall "package/index.js".toList).packageIntegrity = .ok q ∧ isIndexPath q = true :=
  Results.exists_of_toOption_map (by decide +kernel)

/-- A file in a head directory that belongs to no package. -/
def junkPath : Text := "/store/v3/files/aa/bb".toList

theorem headEntry_junkPath : HeadEntry "/store".toList junkPath :=
  ⟨"aa".toList, "bb".toList, by decide, by decide, by decide⟩

end Samples

end Prune

end Npnpm
