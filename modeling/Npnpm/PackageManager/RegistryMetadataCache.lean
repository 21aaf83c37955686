import Npnpm.PackageManager.Install
import Npnpm.Library.Run

/-!
# The cache of registry metadata

A fetch of the metadata of a name is answered from memory, from the file of an
earlier process, or by the registry, whose answer is then saved. The file is
written by `ensure_file`, which keeps a file that is already there: what the first
fetch saved is what all later processes read.

## Implementation notes

The cell of a name lets one fetch in at a time, so a fetch is one step. The memory
is lost when a process ends. A save that fails can leave anything behind in the
file it has created. JSON and hashing belong to other crates.
-/

namespace Npnpm

/-- What is used of `serde_json` and `sha2`. -/
class MetadataLibs (P : Type) where
  toVec : P → Except Text (List UInt8)
  fromStr : List UInt8 → Except Text P
  sha512Hex : Text → Text

inductive MetadataFile
  | contents (bytes : List UInt8)
  | unreadable (error : Text)

inductive MetadataError
  | io (error : Text)
  | serialization (error : Text)
  | network (error : Text)

/-- How the write of a missing file ends. -/
inductive WriteOutcome
  | done
  | failed (error : Text) (leftover : Option MetadataFile)

namespace RegistryMetadataCache

structure State (P : Type) where
  memory : Text → Option P
  files : Text → Option MetadataFile

/-- Where the answer comes from. `warning` is the failure that kept the metadata
from being saved. -/
inductive Answer (P : Type)
  | memory (package : P)
  | disk (package : P)
  | registry (package : P) (warning : Option Text)
  | error (error : MetadataError)

section Definitions

variable {P : Type} [MetadataLibs P]

def cacheKey (registry name : Text) : Text := registry ++ '\n' :: name

variable (P) in
def registryMetadataFilePath (storeDir registry name : Text) : Text :=
  let hex := MetadataLibs.sha512Hex P (cacheKey registry name)
  let metadata := Path.join (Path.join storeDir "v3".toList) "metadata".toList
  Path.join (Path.join metadata (hex.take 2)) (hex.drop 2 ++ ".json".toList)

def loadPackageMetadataFromDisk (files : Text → Option MetadataFile) (path : Text) :
    Except MetadataError (Option P) :=
  match files path with
  | none => .ok none
  | some (.unreadable error) => .error (.io error)
  | some (.contents bytes) =>
      match MetadataLibs.fromStr bytes with
      | .error error => .error (.serialization error)
      | .ok package => .ok (some package)

def putFile (files : Text → Option MetadataFile) (path : Text) (file : MetadataFile) :
    Text → Option MetadataFile :=
  fun p => if p = path then some file else files p

/-- `ensure_file`: a file that is there is kept. -/
def ensureMetadataFile (files : Text → Option MetadataFile) (path : Text)
    (contents : List UInt8) (outcome : WriteOutcome) :
    (Text → Option MetadataFile) × Option Text :=
  match files path with
  | some _ => (files, none)
  | none =>
      match outcome with
      | .done => (putFile files path (.contents contents), none)
      | .failed error none => (files, some error)
      | .failed error (some leftover) => (putFile files path leftover, some error)

def savePackageMetadataToDisk (files : Text → Option MetadataFile) (path : Text) (package : P)
    (outcome : WriteOutcome) : (Text → Option MetadataFile) × Option Text :=
  match MetadataLibs.toVec package with
  | .error error => (files, some error)
  | .ok contents => ensureMetadataFile files path contents outcome

def State.remember (s : State P) (key : Text) (package : P) : State P :=
  { s with memory := fun k => if k = key then some package else s.memory k }

/-- Ask the registry, save its answer and remember it. -/
def fetchFromRegistry (storeDir registry name : Text) (response : Except Text P)
    (outcome : WriteOutcome) (s : State P) : Answer P × State P :=
  match response with
  | .error error => (.error (.network error), s)
  | .ok package =>
      let saved := savePackageMetadataToDisk s.files
        (registryMetadataFilePath P storeDir registry name) package outcome
      (.registry package saved.2,
        ({ s with files := saved.1 } : State P).remember (cacheKey registry name) package)

/-- A cell is filled once; an error leaves it empty. -/
def fetchPackageMetadata (storeDir registry name : Text) (mode : RegistryMetadataMode)
    (response : Except Text P) (outcome : WriteOutcome) (s : State P) : Answer P × State P :=
  match s.memory (cacheKey registry name) with
  | some package => (.memory package, s)
  | none =>
      match mode with
      | .online => fetchFromRegistry storeDir registry name response outcome s
      | .preferOffline =>
          match loadPackageMetadataFromDisk (P := P) s.files
              (registryMetadataFilePath P storeDir registry name) with
          | .error error => (.error error, s)
          | .ok (some package) =>
              (.disk package, s.remember (cacheKey registry name) package)
          | .ok none => fetchFromRegistry storeDir registry name response outcome s

inductive Event (P : Type)
  | process
  | fetch (registry name : Text) (mode : RegistryMetadataMode) (answer : Answer P)

/-- A process starts with an empty memory; the registry may answer anything. -/
inductive Step (storeDir : Text) (s : State P) : Event P → State P → Prop
  | process : Step storeDir s .process { s with memory := fun _ => none }
  | fetch {registry name mode answer s'} (response outcome)
      (h : fetchPackageMetadata storeDir registry name mode response outcome s = (answer, s')) :
      Step storeDir s (.fetch registry name mode answer) s'

end Definitions

section Runs

variable {P : Type} [MetadataLibs P] {storeDir registry name : Text}

/-- A fetch that the registry has answered in online mode. -/
def OnlineFetch (registry name : Text) (package : P) (warning : Option Text) (e : Event P) :
    Prop :=
  e = .fetch registry name .online (.registry package warning)

/-- A fetch that prefers the disk and was answered from it. -/
def AnsweredFromDisk (registry name : Text) (package : P) (e : Event P) : Prop :=
  e = .fetch registry name .preferOffline (.disk package)

/-- The last successful online fetch in a trace, which was saved without a warning. -/
def LastOnlineFetch (registry name : Text) (package : P)
    (trace : List (State P × Event P × State P)) (o : State P × Event P × State P) : Prop :=
  ∃ before after, trace = before ++ o :: after ∧ OnlineFetch registry name package none o.2.1 ∧
    ∀ x ∈ after, ∀ package' warning, ¬ OnlineFetch registry name package' warning x.2.1

/-- The file holds the JSON of the metadata. -/
def Holds (files : Text → Option MetadataFile) (path : Text) (package : P) : Prop :=
  ∃ bytes, files path = some (.contents bytes) ∧ MetadataLibs.fromStr bytes = .ok package

/-- Whenever a fetch is answered from disk, the last successful online fetch of the
same metadata has found no file, or one that holds what it has fetched. -/
def FetchedFresh (storeDir registry name : Text)
    (trace : List (State P × Event P × State P)) : Prop :=
  ∀ before x after, trace = before ++ x :: after →
    ∀ q : P, AnsweredFromDisk registry name q x.2.1 →
      ∀ p o, LastOnlineFetch registry name p before o →
        o.1.files (registryMetadataFilePath P storeDir registry name) = none ∨
          Holds o.1.files (registryMetadataFilePath P storeDir registry name) p

theorem loadPackageMetadataFromDisk_some {files : Text → Option MetadataFile} {path : Text}
    {package : P} (h : loadPackageMetadataFromDisk files path = .ok (some package)) :
    Holds files path package := by
  unfold loadPackageMetadataFromDisk at h
  cases hfile : files path with
  | none => simp [hfile] at h
  | some file =>
      cases file with
      | unreadable error => simp [hfile] at h
      | contents bytes =>
          cases hread : MetadataLibs.fromStr (P := P) bytes with
          | error error => simp [hfile, hread] at h
          | ok read =>
              obtain rfl : read = package := by simpa [hfile, hread] using h
              exact ⟨bytes, hfile, hread⟩

theorem Holds.unique {files : Text → Option MetadataFile} {path : Text} {p q : P}
    (hp : Holds files path p) (hq : Holds files path q) : p = q := by
  obtain ⟨bytes, hfile, hread⟩ := hp
  obtain ⟨bytes', hfile', hread'⟩ := hq
  obtain rfl : bytes = bytes' := by simpa [hfile] using hfile'
  simpa [hread] using hread'

section Files

variable {files : Text → Option MetadataFile} {path : Text}

theorem ensureMetadataFile_kept {contents : List UInt8} {outcome : WriteOutcome} {q : Text}
    {file : MetadataFile} (h : files q = some file) :
    (ensureMetadataFile files path contents outcome).1 q = some file := by
  have hput : files path = none → ∀ next, putFile files path next q = some file := by
    intro hnone next
    have hne : q ≠ path := by
      rintro rfl
      simp [hnone] at h
    simp [putFile, hne, h]
  unfold ensureMetadataFile
  cases hfile : files path with
  | some _ => exact h
  | none =>
      cases outcome with
      | done => exact hput hfile _
      | failed error leftover =>
          cases leftover with
          | none => exact h
          | some leftover => exact hput hfile _

theorem savePackageMetadataToDisk_kept {package : P} {outcome : WriteOutcome} {q : Text}
    {file : MetadataFile} (h : files q = some file) :
    (savePackageMetadataToDisk files path package outcome).1 q = some file := by
  unfold savePackageMetadataToDisk
  cases MetadataLibs.toVec package with
  | error error => exact h
  | ok contents => exact ensureMetadataFile_kept h

/-- A save without a warning leaves a file: its own, or the one that was there. -/
theorem savePackageMetadataToDisk_done {package : P} {outcome : WriteOutcome}
    (h : (savePackageMetadataToDisk files path package outcome).2 = none) :
    ∃ contents, MetadataLibs.toVec package = .ok contents ∧
      (files path = none →
        (savePackageMetadataToDisk files path package outcome).1 path =
          some (.contents contents)) := by
  unfold savePackageMetadataToDisk at h ⊢
  cases hvec : MetadataLibs.toVec package with
  | error error => simp [hvec] at h
  | ok contents =>
      refine ⟨contents, rfl, fun hnone => ?_⟩
      cases outcome with
      | done => simp [ensureMetadataFile, hnone, putFile]
      | failed error leftover => cases leftover <;> simp [hvec, ensureMetadataFile, hnone] at h

end Files

variable {s s' : State P}

theorem fetchFromRegistry_kept {response : Except Text P} {outcome : WriteOutcome} {q : Text}
    {file : MetadataFile} (h : s.files q = some file) :
    (fetchFromRegistry storeDir registry name response outcome s).2.files q = some file := by
  unfold fetchFromRegistry
  cases response with
  | error error => exact h
  | ok package => exact savePackageMetadataToDisk_kept h

/-- A fetch that does not come to the registry leaves the files alone. -/
theorem fetchPackageMetadata_cases (storeDir registry name : Text) (mode : RegistryMetadataMode)
    (response : Except Text P) (outcome : WriteOutcome) (s : State P) :
    fetchPackageMetadata storeDir registry name mode response outcome s =
        fetchFromRegistry storeDir registry name response outcome s ∨
      (fetchPackageMetadata storeDir registry name mode response outcome s).2.files = s.files ∧
        ∀ package warning,
          (fetchPackageMetadata storeDir registry name mode response outcome s).1 ≠
            .registry package warning := by
  unfold fetchPackageMetadata
  cases hmemory : s.memory (cacheKey registry name) with
  | some package => exact Or.inr ⟨rfl, fun _ _ => by simp⟩
  | none =>
      cases mode with
      | online => exact Or.inl rfl
      | preferOffline =>
          cases hload : loadPackageMetadataFromDisk (P := P) s.files
              (registryMetadataFilePath P storeDir registry name) with
          | error error => exact Or.inr ⟨rfl, fun _ _ => by simp⟩
          | ok loaded =>
              cases loaded with
              | none => exact Or.inl rfl
              | some package => exact Or.inr ⟨rfl, fun _ _ => by simp⟩

/-- What is on disk stays on disk. -/
theorem Step.files_kept {e : Event P} (h : Step storeDir s e s') {q : Text}
    {file : MetadataFile} (hfile : s.files q = some file) : s'.files q = some file := by
  cases h with
  | process => exact hfile
  | @fetch registry name mode _ _ response outcome h =>
      obtain rfl := congrArg Prod.snd h
      rcases fetchPackageMetadata_cases storeDir registry name mode response outcome s with
        heq | ⟨heq, -⟩
      · rw [heq]
        exact fetchFromRegistry_kept hfile
      · rw [heq]
        exact hfile

theorem Step.saved {e : Event P} {package : P} (h : Step storeDir s e s')
    (he : OnlineFetch registry name package none e) :
    ∃ contents, MetadataLibs.toVec package = .ok contents ∧
      (s.files (registryMetadataFilePath P storeDir registry name) = none →
        s'.files (registryMetadataFilePath P storeDir registry name) =
          some (.contents contents)) := by
  rw [he] at h
  cases h with
  | fetch response outcome h =>
      rcases fetchPackageMetadata_cases storeDir registry name .online response outcome s with
        heq | ⟨-, hne⟩
      · rw [heq] at h
        unfold fetchFromRegistry at h
        cases response with
        | error error => simp at h
        | ok fetched =>
            simp only [Prod.mk.injEq, Answer.registry.injEq] at h
            obtain ⟨⟨rfl, hdone⟩, rfl⟩ := h
            exact savePackageMetadataToDisk_done hdone
      · exact absurd (congrArg Prod.fst h) (hne package none)

theorem Step.read {e : Event P} {package : P} (h : Step storeDir s e s')
    (he : AnsweredFromDisk registry name package e) :
    Holds s.files (registryMetadataFilePath P storeDir registry name) package := by
  rw [he] at h
  cases h with
  | fetch response outcome h =>
      unfold fetchPackageMetadata at h
      cases hmemory : s.memory (cacheKey registry name) with
      | some remembered => simp [hmemory] at h
      | none =>
          cases hload : loadPackageMetadataFromDisk (P := P) s.files
              (registryMetadataFilePath P storeDir registry name) with
          | error error => simp [hmemory, hload] at h
          | ok loaded =>
              cases loaded with
              | none => cases response <;> simp [hmemory, hload, fetchFromRegistry] at h
              | some read =>
                  simp only [hmemory, hload, Prod.mk.injEq, Answer.disk.injEq] at h
                  obtain ⟨rfl, -⟩ := h
                  exact loadPackageMetadataFromDisk_some hload

theorem files_kept_of_run {events : List (Event P)} (run : Run (Step storeDir) s events s')
    {q : Text} {file : MetadataFile} (hfile : s.files q = some file) :
    s'.files q = some file :=
  run.invariant (fun t => t.files q = some file) hfile fun _ _ _ ht hstep =>
    hstep.files_kept ht

/-- A fetch that is answered from disk returns what the last successful online
fetch, saved without a warning, has returned if and only if that fetch has found
no file or one that holds what it returned. -/
theorem disk_answers_latest_iff {start : State P}
    {trace : List (State P × Event P × State P)}
    (hjson : ∀ (p : P) bytes, MetadataLibs.toVec p = .ok bytes → MetadataLibs.fromStr bytes = .ok p)
    (run : Run (Traced (Step storeDir)) start trace s) (registry name : Text) :
    (∀ before x after, trace = before ++ x :: after →
        ∀ q : P, AnsweredFromDisk registry name q x.2.1 →
          ∀ p o, LastOnlineFetch registry name p before o → q = p) ↔
      FetchedFresh storeDir registry name trace := by
  have hbetween : ∀ before x after, trace = before ++ x :: after →
      ∀ p o, LastOnlineFetch registry name p before o →
        Step storeDir x.1 x.2.1 x.2.2 ∧ Step storeDir o.1 o.2.1 o.2.2 ∧
          ∃ events, Run (Step storeDir) o.2.2 events x.1 := by
    rintro before x after rfl p o ⟨early, late, rfl, -, -⟩
    obtain ⟨hbefore, hx, -⟩ := run.split_trace
    obtain ⟨-, ho, hlate⟩ := hbefore.split_trace
    exact ⟨hx, ho, _, hlate.of_traced⟩
  constructor
  · intro hlatest before x after htrace q hq p o ho
    obtain rfl := hlatest before x after htrace q hq p o ho
    obtain ⟨hx, hstep, events, hrun⟩ := hbetween before x after htrace q o ho
    cases hfile : o.1.files (registryMetadataFilePath P storeDir registry name) with
    | none => exact Or.inl rfl
    | some file =>
        right
        obtain ⟨bytes, hbytes, hread⟩ := hx.read hq
        have hkept := files_kept_of_run hrun (hstep.files_kept hfile)
        rw [hbytes] at hkept
        exact ⟨bytes, hfile.trans hkept.symm, hread⟩
  · intro hfresh before x after htrace q hq p o ho
    obtain ⟨hx, hstep, events, hrun⟩ := hbetween before x after htrace p o ho
    have hlast : Holds o.2.2.files (registryMetadataFilePath P storeDir registry name) p := by
      rcases hfresh before x after htrace q hq p o ho with hnone | ⟨bytes, hbytes, hread⟩
      · obtain ⟨_, _, _, honline, -⟩ := ho
        obtain ⟨contents, hvec, hsaved⟩ := hstep.saved honline
        exact ⟨contents, hsaved hnone, hjson p contents hvec⟩
      · exact ⟨bytes, hstep.files_kept hbytes, hread⟩
    obtain ⟨bytes, hbytes, hread⟩ := hlast
    exact (hx.read hq).unique ⟨bytes, files_kept_of_run hrun hbytes, hread⟩

section Samples

/-- Metadata kept as the bytes of its JSON. -/
structure RawMetadata where
  json : List UInt8

/-- The digest of the key of `a` at the registry `r`. -/
def sampleHex : Text :=
  "c9f84409e92ff5ee81e1ff7d391834a2245cd27f277a77db042e035fe4cceda1".toList ++
    "8d12dcf72d742fd1ce47bb8915e72b7d406b545d462387009a7bb03f0f04fbd6".toList

instance : MetadataLibs RawMetadata where
  toVec package := .ok package.json
  fromStr bytes := .ok ⟨bytes⟩
  sha512Hex key := if key = cacheKey ['r'] ['a'] then sampleHex else key

def emptyCache : State RawMetadata := ⟨fun _ => none, fun _ => none⟩

set_option maxRecDepth 4000 in
/-- One process fetches online, and the next one reads what it has saved. -/
theorem disk_answers_latest_twoProcesses :
    ∃ (p : RawMetadata) (s : State RawMetadata)
      (trace : List (State RawMetadata × Event RawMetadata × State RawMetadata)),
      Run (Traced (Step [])) emptyCache trace s ∧
        trace.map (·.2.1) = [.fetch ['r'] ['a'] .online (.registry p none), .process,
          .fetch ['r'] ['a'] .preferOffline (.disk p)] ∧
        ((∀ before x after, trace = before ++ x :: after →
            ∀ q : RawMetadata, AnsweredFromDisk ['r'] ['a'] q x.2.1 →
              ∀ p o, LastOnlineFetch ['r'] ['a'] p before o → q = p) ↔
          FetchedFresh [] ['r'] ['a'] trace) := by
  have run : Run (Step []) emptyCache [] emptyCache := .nil
  have run := run.snoc (e := .fetch ['r'] ['a'] .online _) (.fetch (.ok ⟨[49]⟩) .done rfl)
  have run := run.snoc .process
  have run := run.snoc (e := .fetch ['r'] ['a'] .preferOffline _) (.fetch (.ok ⟨[49]⟩) .done rfl)
  obtain ⟨trace, htrace, hmap⟩ := run.exists_trace
  exact ⟨⟨[49]⟩, _, trace, htrace, hmap, disk_answers_latest_iff
    (fun p bytes h => by cases h; rfl) htrace ['r'] ['a']⟩

set_option maxRecDepth 4000 in
/-- The second online fetch finds the file of the first one and does not replace
it, so the third process reads metadata that is two fetches old. -/
theorem disk_answers_first :
    ¬ ∀ (s : State RawMetadata)
      (trace : List (State RawMetadata × Event RawMetadata × State RawMetadata)),
      Run (Traced (Step [])) emptyCache trace s →
        ∀ before x after, trace = before ++ x :: after →
          ∀ q : RawMetadata, AnsweredFromDisk ['r'] ['a'] q x.2.1 →
            ∀ p o, LastOnlineFetch ['r'] ['a'] p before o → q = p := by
  intro hall
  have run : Run (Step []) emptyCache [] emptyCache := .nil
  have run := run.snoc (e := .fetch ['r'] ['a'] .online _) (.fetch (.ok ⟨[49]⟩) .done rfl)
  have run := run.snoc .process
  have run := run.snoc (e := .fetch ['r'] ['a'] .online _) (.fetch (.ok ⟨[50]⟩) .done rfl)
  have run := run.snoc .process
  have run := run.snoc (e := .fetch ['r'] ['a'] .preferOffline _) (.fetch (.ok ⟨[51]⟩) .done rfl)
  obtain ⟨trace, htrace, hmap⟩ := run.exists_trace
  obtain ⟨x₁, rest, rfl, h₁, hmap⟩ := List.map_eq_cons_iff.mp hmap
  obtain ⟨x₂, rest, rfl, h₂, hmap⟩ := List.map_eq_cons_iff.mp hmap
  obtain ⟨x₃, rest, rfl, h₃, hmap⟩ := List.map_eq_cons_iff.mp hmap
  obtain ⟨x₄, rest, rfl, h₄, hmap⟩ := List.map_eq_cons_iff.mp hmap
  obtain ⟨x₅, rest, rfl, h₅, hmap⟩ := List.map_eq_cons_iff.mp hmap
  obtain rfl := List.map_eq_nil_iff.mp hmap
  have heq := hall _ _ htrace [x₁, x₂, x₃, x₄] x₅ [] rfl ⟨[49]⟩ h₅ ⟨[50]⟩ x₃
    ⟨[x₁, x₂], [x₄], rfl, h₃, by simp [OnlineFetch, h₄]⟩
  cases heq

end Samples

end Runs

end RegistryMetadataCache

end Npnpm
