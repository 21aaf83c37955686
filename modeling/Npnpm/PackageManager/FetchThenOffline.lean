import Npnpm.PackageManager.FetchSelection
import Npnpm.PackageManager.OfflineRun
import Npnpm.Tarball.OneCall
import Npnpm.Tarball.StoreSessions

/-!
# Fetch, then install offline

`fetch` fills the store so that an offline install of the same lockfile needs no network.
Between the two other commands may use the store, and what they leave of it is enough.
-/

namespace Npnpm

open Prune

section WholeStore

variable {I B : Type} [TarballLibs I B] {call : DownloadTarballToStore I}
  {store store' : StoreFiles B} {storeDir : Text}

variable (I) in
/-- Indexes are where indexes belong, and every file that one lists is there. -/
structure StoreFiles.Whole (storeDir : Text) (store : StoreFiles B) : Prop where
  placed : IndexesPlaced storeDir store.files
  consistent : Consistent I storeDir store.files

/-- An index is written after its files, so an extraction leaves a whole store. -/
theorem extractResponse_whole (laws : DigestLaws I B) {now : Option Nat} {response : B}
    {extracted : Extracted B} (h : extractResponse call now store response = .ok extracted)
    (hwhole : store.Whole I call.storeDir) : extracted.store.Whole I call.storeDir := by
  obtain ⟨entries, built, -, hentries, hindex, -, -⟩ := extractResponse_ok h
  have hbuilt := (ExtractedFrom.initial store).run laws hentries
  obtain ⟨path, hpath, hindex⟩ := Results.bind_ok hindex
  have hfiles : ∀ p, extracted.store.files p =
      if p = path then (built.store.files path).or (some (.index built.index))
      else built.store.files p := by
    split at hindex
    · cases hindex
    · rename_i store' hensure
      cases hindex
      exact ensureFile_ok hensure
  have hkept : ∀ p, built.store.files p ≠ none → extracted.store.files p ≠ none := by
    intro p hp
    rw [hfiles]
    split
    · simp
    · exact hp
  -- an index of the store is an old one, or the one that was written last
  have hcases : ∀ q index, extracted.store.files q = some (.index index) →
      store.files q = some (.index index) ∨ q = path ∧ index = built.index := by
    intro q index hq
    have hold : built.store.files q = some (.index index) →
        store.files q = some (.index index) := by
      intro hbuiltq
      cases hstore : store.files q with
      | some x =>
          rw [hbuilt.kept q x hstore] at hbuiltq
          exact hbuiltq
      | none =>
          rcases hbuilt.written q hstore with hnone | ⟨f, -, -, hcas⟩
          · rw [hnone] at hbuiltq
            cases hbuiltq
          · rw [hcas] at hbuiltq
            cases hbuiltq
    rw [hfiles] at hq
    split at hq
    · rename_i heq
      cases hpathfile : built.store.files path with
      | some x =>
          rw [hpathfile, Option.some_or] at hq
          exact Or.inl (hold (by rw [heq, hpathfile, hq]))
      | none =>
          rw [hpathfile, Option.none_or] at hq
          cases hq
          exact Or.inr ⟨heq, rfl⟩
    · exact Or.inl (hold hq)
  constructor
  · intro q index hq
    rcases hcases q index hq with hold | ⟨rfl, -⟩
    · exact hwhole.placed q index hold
    · exact indexFilePath_placed laws hpath
  · intro q index hq p hp
    apply hkept
    rcases hcases q index hq with hold | ⟨-, rfl⟩
    · obtain ⟨x, hx⟩ := Option.ne_none_iff_exists'.mp (hwhole.consistent q index hold p hp)
      rw [hbuilt.kept p x hx]
      simp
    · obtain ⟨e, he, hlisted⟩ := List.mem_filterMap.mp hp
      obtain ⟨c, hc, hindexed⟩ := Results.exists_of_mem_forall₂ hbuilt.inStep.flip he
      obtain rfl : c.2 = p := by simpa [hindexed, Except.toOption] using hlisted
      obtain ⟨f, hf, hcas⟩ := (hbuilt.casPaths c.1 c.2).mp (KeyedMap.get_of_mem hc)
      obtain ⟨p', hp', hthere⟩ := hbuilt.present f (lastFile_mem hf).1
      rwa [Except.ok.inj (hcas.symm.trans hp')]

variable {calls : List (DownloadTarballToStore I)} {shard : Text → Nat}
  {events : List (CacheEvent B)} {s s' : CacheState B} {e : CacheEvent B}

theorem CacheStep.whole (laws : DigestLaws I B) (hdir : ∀ call ∈ calls, call.storeDir = storeDir)
    (h : s.store.Whole I storeDir) (hown : e ≠ .external)
    (hstep : CacheStep calls shard s e s') : s'.store.Whole I storeDir := by
  cases hstep with
  | @fetched i call now response next store hcall _ _ hnext =>
      have hstore : (s.setStore store).store.Whole I storeDir := by
        unfold fetchedPhase at hnext
        cases hrun : runWithoutMemCache call now s.store response with
        | error stop =>
            rw [hrun] at hnext
            cases stop with
            | panic => cases hnext
            | error error =>
                cases hnext
                exact h
        | ok extracted =>
            rw [hrun] at hnext
            cases hnext
            unfold runWithoutMemCache at hrun
            split at hrun
            · cases hrun
            · have hcalldir := hdir call (List.mem_of_getElem? hcall)
              rw [← hcalldir] at h ⊢
              exact extractResponse_whole laws hrun h
      exact hstore
  | external => exact absurd rfl hown
  | hit => exact h
  | miss => exact h
  | block => exact h
  | lock => exact h
  | wake => exact h
  | reread => exact h
  | publish => exact h

/-- Calls that share a cache leave a whole store. -/
theorem CacheRun.whole (laws : DigestLaws I B) (hdir : ∀ call ∈ calls, call.storeDir = storeDir)
    (hown : .external ∉ events) (run : CacheRun calls shard store events s)
    (hwhole : store.Whole I storeDir) : s.store.Whole I storeDir := by
  have hevents : ∀ e ∈ events, e ≠ .external := fun e he heq => hown (heq ▸ he)
  exact run.invariant_of_forall (fun s => s.store.Whole I storeDir) hevents hwhole
    fun t e t' ht hok hstep => CacheStep.whole laws hdir ht hok hstep

/-- What calls return that the store answers is loaded from the store. -/
theorem exists_load_of_returned (hanswered : ∀ call ∈ calls, call.Answered store)
    (hown : .external ∉ events) (run : CacheRun calls shard store events s) {i : Nat}
    (hcall : calls[i]? = some call) {casPaths : CasPaths}
    (hreturned : s.phases i = .returned (.ok casPaths)) :
    ∃ other ∈ calls, loadFromStore other store = .ok (some casPaths) := by
  obtain ⟨trace, htrace, rfl⟩ := run.exists_trace
  -- the calls have found the store as it is, and none was downloading
  have hwarm : ∀ t e t', (t, e, t') ∈ trace → Warm store t ∧ CacheStep calls shard t e t' := by
    intro t e t' hx
    obtain ⟨before, hbefore, hbelow, hstep⟩ := htrace.exists_of_mem_trace hx
    refine ⟨Warm.run hanswered (fun hmem => hown ?_) hbefore.of_traced, hstep⟩
    exact (hbelow.map _).subset hmem
  obtain ⟨j, other, -, -, -, hobtained⟩ := (Provenance.run run).returned i call casPaths hcall
    hreturned
  cases hobtained with
  | @index k owner found howner _ hevent hload =>
      obtain ⟨⟨t, _, t'⟩, hx, rfl⟩ := List.mem_map.mp hevent
      obtain ⟨hwarmed, hstep⟩ := hwarm t _ t' hx
      have hfound : found = store := by
        rw [← hwarmed.store]
        cases hstep
        rfl
      exact ⟨owner, List.mem_of_getElem? howner, hfound ▸ hload⟩
  | @download k owner _ _ _ _ howner _ hevent _ _ _ =>
      obtain ⟨⟨t, _, t'⟩, hx, rfl⟩ := List.mem_map.mp hevent
      obtain ⟨hwarmed, hstep⟩ := hwarm t _ t' hx
      cases hstep with
      | fetched _ _ hphase _ => exact absurd hphase (hwarmed.idle k)

end WholeStore

section Session

variable {I B : Type} [TarballLibs I B] {storeDir : Text}
  {files files' : Text → Option (StoredFile B)}

/-- Commands that use a store one after the other keep its indexes and what these list. -/
theorem Prune.Keeps.of_session (laws : DigestLaws I B) (hplaced : IndexesPlaced storeDir files)
    (hconsistent : Consistent I storeDir files)
    (h : Relation.ReflTransGen (Command I storeDir) files files') :
    Keeps I storeDir files files' ∧ IndexesPlaced storeDir files' ∧
      Consistent I storeDir files' := by
  induction h with
  | refl => exact ⟨⟨fun _ _ h => h, fun _ _ _ _ _ => rfl⟩, hplaced, hconsistent⟩
  | tail _ hcommand ih =>
      obtain ⟨hkeeps, hplaced', hconsistent'⟩ := ih
      obtain ⟨hkeeps', hrest⟩ := hcommand.keeps laws hplaced' hconsistent'
      exact ⟨hkeeps.trans hkeeps', hrest⟩

end Session

section Fetched

variable {V I B : Type} [NodeSemver V] [BEq V]

/-- The calls for the tarballs of the packages that `Fetch` installs. -/
def Fetch.calls (config : Npmrc) (packages : Packages V I) (selected : List (DependencyPath V)) :
    List (DownloadTarballToStore I) :=
  selected.filterMap fun path => (packages.get path).bind fun snapshot =>
    (InstallPackageBySnapshot.request config path snapshot).toOption.map fun request =>
      ⟨config.storeDir, request.packageIntegrity, none, request.packageUrl, .online⟩

theorem Fetch.storeDir_of_mem {config : Npmrc} {packages : Packages V I}
    {selected : List (DependencyPath V)} {call : DownloadTarballToStore I}
    (h : call ∈ Fetch.calls config packages selected) : call.storeDir = config.storeDir := by
  obtain ⟨path, -, hcall⟩ := List.mem_filterMap.mp h
  obtain ⟨snapshot, -, hcall⟩ := Option.bind_eq_some_iff.mp hcall
  obtain ⟨request, -, rfl⟩ := Option.map_eq_some_iff.mp hcall
  rfl

/-- Where the groups reach every package, each call of the install has one of the fetch with
its integrity. -/
theorem Fetch.exists_call [EquivBEq V] (config : Npmrc) {lockfile : Lockfile V I}
    {packages : Packages V I} (hpackages : lockfile.packages = some packages)
    {groups : List DependencyGroup} {selected : List (DependencyPath V)}
    (hfetch : Fetch.selected lockfile groups = some (.ok selected))
    (hall : ∀ key ∈ packages.keys, ∃ path,
      Wanted lockfile.projectSnapshot packages groups path ∧ (path == key) = true)
    {networkMode : NetworkMode} {call : DownloadTarballToStore I}
    (hcall : call ∈ lockfile.downloadCalls config networkMode) :
    ∃ fetched ∈ Fetch.calls config packages selected, fetched.storeDir = call.storeDir ∧
      fetched.packageIntegrity = call.packageIntegrity := by
  obtain ⟨e, he, hcall⟩ := List.mem_filterMap.mp hcall
  obtain ⟨request, hrequest, rfl⟩ := Option.map_eq_some_iff.mp hcall
  have hrequested := Results.toOption_eq_some hrequest
  rw [Lockfile.packageEntries, hpackages] at he
  simp only [Fetch.selected, hpackages] at hfetch
  obtain ⟨path, hwanted, hpath⟩ := hall e.1 (KeyedMap.mem_keys.mpr ⟨e.2, he⟩)
  obtain ⟨v, hv, -, hselected⟩ := (collectSelectedPackages_spec hfetch).2 path hwanted
  have hdownloadable : e.2.resolution.Downloadable :=
    (InstallPackageBySnapshot.exists_request_iff config e.1 e.2).mp ⟨request, hrequested⟩
  have hpathget : packages.get path = some e.2 := by
    rw [packages.get_congr hpath]
    exact KeyedMap.get_of_mem he
  have hget : packages.get v = some e.2 := by
    rw [packages.get_congr hv]
    exact hpathget
  have hmem := hselected (isSelected_of_downloadable hpathget hdownloadable)
  obtain ⟨fetched, hfetched⟩ :=
    (InstallPackageBySnapshot.exists_request_iff config v e.2).mpr hdownloadable
  refine ⟨⟨config.storeDir, fetched.packageIntegrity, none, fetched.packageUrl, .online⟩,
    List.mem_filterMap.mpr ⟨v, hmem, ?_⟩, rfl, Option.some.inj ?_⟩
  · rw [hget, Option.bind_some, hfetched]
    rfl
  · rw [← InstallPackageBySnapshot.integrity_of_request hfetched,
      InstallPackageBySnapshot.integrity_of_request hrequested]

variable [TarballLibs I B]

/-- All calls have returned a map. -/
def AllReturned (calls : List (DownloadTarballToStore I)) (s : CacheState B) : Prop :=
  ∀ i call, calls[i]? = some call → ∃ casPaths, s.phases i = .returned (.ok casPaths)

/-- After a fetch that has finished and whose groups reach every package of the lockfile,
whatever commands use the store, an offline install asks no network, leaves the store as it is,
and has from every call files that are in the store as the fetch left them. -/
theorem Fetch.offline_install_served [EquivBEq V] (laws : DigestLaws I B) (config : Npmrc)
    {lockfile : Lockfile V I} {packages : Packages V I}
    (hpackages : lockfile.packages = some packages) {groups : List DependencyGroup}
    {selected : List (DependencyPath V)}
    (hfetch : Fetch.selected lockfile groups = some (.ok selected))
    (hall : ∀ key ∈ packages.keys, ∃ path,
      Wanted lockfile.projectSnapshot packages groups path ∧ (path == key) = true)
    (hurls : ∀ a ∈ Fetch.calls config packages selected,
      ∀ b ∈ Fetch.calls config packages selected, a.packageUrl = b.packageUrl →
        a.packageIntegrity = b.packageIntegrity)
    {start : StoreFiles B} (hwhole : start.Whole I config.storeDir) {shard : Text → Nat}
    {events : List (CacheEvent B)} {s : CacheState B} (hown : .external ∉ events)
    (hrun : CacheRun (Fetch.calls config packages selected) shard start events s)
    (hreturned : AllReturned (Fetch.calls config packages selected) s) {later : StoreFiles B}
    (hsession : Relation.ReflTransGen (Command I config.storeDir) s.store.files later.files)
    {shard' : Text → Nat} {events' : List (CacheEvent B)} {t : CacheState B}
    (hown' : .external ∉ events')
    (hrun' : CacheRun (lockfile.downloadCalls config .offline) shard' later events' t) :
    t.store = later ∧ (∀ i, t.phases i ≠ .fetching) ∧
      ∀ i call result, (lockfile.downloadCalls config .offline)[i]? = some call →
        t.phases i = .returned result → ∃ casPaths, result = .ok casPaths ∧
          ∀ e ∈ casPaths.entries, later.files e.2 ≠ none ∧ later.files e.2 = s.store.files e.2 := by
  have hdir : ∀ call ∈ Fetch.calls config packages selected, call.storeDir = config.storeDir :=
    fun call hcall => Fetch.storeDir_of_mem hcall
  have hstored := CacheRun.whole laws hdir hown hrun hwhole
  have hkeeps := (Keeps.of_session laws hstored.placed hstored.consistent hsession).1
  have hfetched : ∀ call ∈ lockfile.downloadCalls config .offline, call.Answered s.store := by
    intro call hcall
    obtain ⟨fetched, hmem, hsamedir, hintegrity⟩ :=
      Fetch.exists_call config hpackages hfetch hall hcall
    obtain ⟨i, hi⟩ := List.getElem?_of_mem hmem
    obtain ⟨casPaths, hphase⟩ := hreturned i fetched hi
    exact (answered_of_returned laws hdir hurls hown hrun hi hphase).congr hsamedir.symm
      hintegrity.symm
  have hanswered : ∀ call ∈ lockfile.downloadCalls config .offline, call.Answered later := by
    intro call hcall
    obtain ⟨path, index, hpath, hfile, hloads⟩ := (hfetched call hcall).index
    exact answered_of_index hpath (hkeeps.index path index hfile) hloads
  have hwarm := Warm.run hanswered hown' hrun'
  refine ⟨hwarm.store, hwarm.idle, fun i call result hcall hphase => ?_⟩
  obtain ⟨casPaths, rfl⟩ := hwarm.answers i result hphase
  refine ⟨casPaths, rfl, fun e he => ?_⟩
  obtain ⟨other, hother, hload⟩ := exists_load_of_returned hanswered hown' hrun' hcall hphase
  obtain ⟨path, index, hpath, hfile, hlisted⟩ := listed_of_load hload
  obtain ⟨path', index', hpath', hfile', -⟩ := (hfetched other hother).index
  obtain rfl := Except.ok.inj (hpath.symm.trans hpath')
  obtain rfl : index' = index := by
    rw [hkeeps.index path index' hfile'] at hfile
    simpa using hfile
  have hdir' : other.storeDir = config.storeDir := by
    obtain ⟨fetched, hmem, hsamedir, -⟩ :=
      Fetch.exists_call config hpackages hfetch hall hother
    exact hsamedir.symm.trans (hdir fetched hmem)
  have hmem := hlisted e he
  rw [hdir'] at hmem
  have hsame := hkeeps.listed path index' hfile' e.2 hmem
  exact ⟨hsame ▸ hstored.consistent path index' hfile' e.2 hmem, hsame⟩

end Fetched

section Samples

/-- A lockfile with one package. -/
def fetchPackages : Packages CoreVersion HashIntegrity :=
  ⟨[(⟨none, coreSpecifier "a".toList⟩, .plain
    (.registry ⟨(sampleCall "package/index.js".toList).packageIntegrity⟩) none none)], by simp⟩

def fetchLockfile : Lockfile CoreVersion HashIntegrity :=
  { devLockfile with
    projectSnapshot := .single ⟨none, some (directDependency "a".toList), none, none, none, none⟩
    packages := some fetchPackages }

/-- A file of another package. -/
def otherFile : FileEntry SampleBytes := ⟨"cli.js".toList, 0o755, .empty, some 0⟩

def otherPath : Text := (otherFile.casPath HashIntegrity "/store".toList).toOption.getD []

theorem otherFile_path : otherFile.casPath HashIntegrity "/store".toList = .ok otherPath := by
  have hmade : (otherFile.casPath HashIntegrity "/store".toList).isOk = true := by decide +kernel
  unfold otherPath
  generalize otherFile.casPath HashIntegrity "/store".toList = made at hmade
  exact Results.eq_getD_of_isOk [] hmade

/-- The store with this file. -/
def withOther (store : StoreFiles SampleBytes) : StoreFiles SampleBytes :=
  { store with files := fun p => if p = otherPath then some (.cas .empty) else store.files p }

/-- An extraction that is killed after it has written its first file. -/
theorem command_withOther {store : StoreFiles SampleBytes} (hnone : store.files otherPath = none) :
    Command HashIntegrity "/store".toList store.files (withOther store).files := by
  obtain ⟨s, hrun, hfiles, -⟩ := exists_fileWritten
    (s := State.initial (I := HashIntegrity) store.files) 0
    (sampleCall "package/index.js".toList).packageIntegrity none rfl otherFile_path hnone
  refine .extractions hrun ?_ hfiles
  intro e he
  simp only [List.mem_cons, List.not_mem_nil, or_false] at he
  rcases he with rfl | rfl | rfl <;> trivial

/-- The package is fetched into an empty store, into which another command puts a file, and
installed offline from what is there. -/
theorem Fetch.offline_install_served_one :
    ∃ (s t : CacheState SampleBytes) (casPaths : CasPaths), s.store.files otherPath = none ∧
      t.store = withOther s.store ∧ t.phases 0 = .returned (.ok casPaths) ∧
      ∀ e ∈ casPaths.entries, (withOther s.store).files e.2 ≠ none ∧
        (withOther s.store).files e.2 = s.store.files e.2 := by
  let network : TarballNetwork SampleBytes :=
    ⟨fun _ => .ok (.gz "package/index.js".toList), fun _ => none⟩
  have hok : ((sampleCall "package/index.js".toList).runWithMemCache network
      ⟨fun _ => none, emptyStore⟩).toOption.bind (fun x =>
        (offlineCall.runWithMemCache network ⟨fun _ => none, withOther x.2.store⟩).toOption.map
          fun _ => (x.2.store.files otherPath).isNone) = some true := by
    decide +kernel
  obtain ⟨fetched, hfetched, hok⟩ := Option.bind_eq_some_iff.mp hok
  obtain ⟨loaded, hoffline, hnone⟩ := Results.exists_of_toOption_map hok
  have hselected : Fetch.selected fetchLockfile [.prod] =
      some (.ok [⟨none, coreSpecifier "a".toList⟩]) := rfl
  have hall : ∀ key ∈ fetchPackages.keys, ∃ path,
      Wanted fetchLockfile.projectSnapshot fetchPackages [.prod] path ∧ (path == key) = true := by
    intro key hkey
    obtain rfl := List.mem_singleton.mp hkey
    have hcollected : collectSelectedPackages fetchLockfile.projectSnapshot fetchPackages
        (.new fetchPackages) [.prod] = some (.ok [⟨none, coreSpecifier "a".toList⟩]) := hselected
    have hwanted := (collectSelectedPackages_spec hcollected).1 _ List.mem_cons_self
    exact ⟨_, hwanted.1, BEq.rfl⟩
  have hcalls : Fetch.calls defaultNpmrc fetchPackages [⟨none, coreSpecifier "a".toList⟩] =
      [sampleCall "package/index.js".toList] := rfl
  have hcall : [sampleCall "package/index.js".toList][0]? =
      some (sampleCall "package/index.js".toList) := rfl
  have hcall' : [offlineCall][0]? = some offlineCall := rfl
  have hpackages : fetchLockfile.packages = some fetchPackages := rfl
  obtain ⟨events, s, hrun, hown, hreturned, hbetween⟩ :=
    (BetweenCalls.initial emptyStore).exists_run (fun _ => 0) hcall
      (Results.toOption_eq_some hfetched)
  have hstore := hbetween.store
  have hmissing : s.store.files otherPath = none := by
    rw [hstore]
    exact Option.isNone_iff_eq_none.mp hnone
  obtain ⟨events', t, hrun', hown', hreturned', -⟩ :=
    (BetweenCalls.initial (withOther s.store)).exists_run (fun _ => 0) hcall' (hstore ▸ hoffline)
  have hnoindex : ∀ q index, emptyStore.files q ≠ some (.index index) :=
    fun q index => by simp [emptyStore]
  have hwhole : emptyStore.Whole HashIntegrity defaultNpmrc.storeDir :=
    ⟨fun q index h => absurd h (hnoindex q index), fun q index h => absurd h (hnoindex q index)⟩
  have hall' : AllReturned (Fetch.calls defaultNpmrc fetchPackages
      [⟨none, coreSpecifier "a".toList⟩]) s := by
    intro i call hcall
    rw [hcalls] at hcall
    cases i with
    | zero => exact ⟨_, hreturned⟩
    | succ i => simp at hcall
  obtain ⟨hsame, -, hserved⟩ := Fetch.offline_install_served sampleDigestLaws defaultNpmrc
    hpackages hselected hall (by rw [hcalls]; simp) hwhole hown
    (hcalls ▸ hrun) hall' (.single (command_withOther hmissing)) hown' hrun'
  obtain ⟨casPaths', hsome, hfiles⟩ := hserved 0 offlineCall _ rfl hreturned'
  obtain rfl := Except.ok.inj hsome
  exact ⟨s, t, loaded.1, hmissing, hsame, hreturned', hfiles⟩

end Samples

end Npnpm
