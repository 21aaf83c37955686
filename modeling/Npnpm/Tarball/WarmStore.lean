import Npnpm.Tarball.MemCacheProvenance
import Npnpm.Tarball.WarmPath

/-!
# What a run leaves for the next one

The store only grows while calls extract into it, and an index is written when all its
files are. So the store answers every call that has returned a map, whenever it is asked
again, and calls that the store answers neither download anything nor write to it.
-/

namespace Npnpm

section Store

variable {I B : Type} [TarballLibs I B]

/-- The store answers the call. -/
def DownloadTarballToStore.Answered (call : DownloadTarballToStore I) (store : StoreFiles B) :
    Prop :=
  ∃ casPaths, loadFromStore call store = .ok (some casPaths)

variable (I B) in
/-- Every file that the index lists has its place in the store. -/
def IndexLoads (storeDir : Text) (index : PackageFilesIndex) : Prop :=
  ∃ files, index.files.entries.mapM (indexedFile I B storeDir) = .ok files

variable (I) in
/-- The store has kept its files, and the new ones are content-addressed or an index
that can be loaded. -/
structure StoreGrows (storeDir : Text) (store store' : StoreFiles B) : Prop where
  kept : ∀ p x, store.files p = some x → store'.files p = some x
  new : ∀ p x, store.files p = none → store'.files p = some x →
    (∃ f : FileEntry B, f.casPath I storeDir = .ok p) ∨
      ∃ index, x = .index index ∧ IndexLoads I B storeDir index

variable {call : DownloadTarballToStore I} {store store' store'' : StoreFiles B} {storeDir : Text}

theorem StoreGrows.refl (store : StoreFiles B) : StoreGrows I storeDir store store where
  kept _ _ h := h
  new _ _ hnone hsome := by
    rw [hnone] at hsome
    cases hsome

theorem StoreGrows.trans (h : StoreGrows I storeDir store store')
    (h' : StoreGrows I storeDir store' store'') : StoreGrows I storeDir store store'' where
  kept p x hx := h'.kept p x (h.kept p x hx)
  new p x hnone hsome := by
    cases hmid : store'.files p with
    | none => exact h'.new p x hmid hsome
    | some y =>
        obtain rfl : y = x := by
          rw [h'.kept p y hmid] at hsome
          exact Option.some.inj hsome
        exact h.new p y hnone hmid

/-- An index that is there and can be loaded answers the call. -/
theorem answered_of_index {path : Text} {index : PackageFilesIndex}
    (hpath : indexFilePath B call.storeDir call.packageIntegrity = .ok path)
    (hfile : store.files path = some (.index index))
    (hloads : IndexLoads I B call.storeDir index) : call.Answered store := by
  obtain ⟨files, hfiles⟩ := hloads
  have hread : readIndexFile call.storeDir store call.packageIntegrity = .ok (some index) := by
    unfold readIndexFile
    rw [hpath]
    simp only [bind, Except.bind, hfile]
  refine ⟨KeyedMap.ofList files, ?_⟩
  unfold loadFromStore
  rw [hread]
  simp only [bind, Except.bind, hfiles]
  rfl

/-- A call is answered from an index of the store. -/
theorem DownloadTarballToStore.Answered.index (h : call.Answered store) :
    ∃ path index, indexFilePath B call.storeDir call.packageIntegrity = .ok path ∧
      store.files path = some (.index index) ∧ IndexLoads I B call.storeDir index := by
  obtain ⟨casPaths, hload⟩ := h
  obtain ⟨read, hread, hload⟩ := Results.bind_ok hload
  cases read with
  | none => cases hload
  | some index =>
      obtain ⟨files, hfiles, -⟩ := Results.bind_ok hload
      obtain ⟨path, hpath, hread⟩ := Results.bind_ok hread
      refine ⟨path, index, hpath, ?_, files, hfiles⟩
      split at hread
      · cases hread
      · rename_i found hfound
        cases hread
        exact hfound
      · cases hread
      · cases hread
      · cases hread

theorem DownloadTarballToStore.Answered.of_kept (h : call.Answered store)
    (hkept : ∀ p x, store.files p = some x → store'.files p = some x) : call.Answered store' := by
  obtain ⟨path, index, hpath, hfile, hloads⟩ := h.index
  exact answered_of_index hpath (hkept path _ hfile) hloads

/-- The answer depends on the integrity and the store directory only. -/
theorem DownloadTarballToStore.Answered.congr {other : DownloadTarballToStore I}
    (h : call.Answered store) (hdir : other.storeDir = call.storeDir)
    (hintegrity : other.packageIntegrity = call.packageIntegrity) : other.Answered store := by
  obtain ⟨path, index, hpath, hfile, hloads⟩ := h.index
  rw [← hdir] at hpath hloads
  rw [← hintegrity] at hpath
  exact answered_of_index hpath hfile hloads

/-- A call without an answer that is no error has no index in the store. -/
theorem index_missing_of_load {path : Text} (hload : loadFromStore call store = .ok none)
    (hpath : indexFilePath B call.storeDir call.packageIntegrity = .ok path) :
    store.files path = none := by
  obtain ⟨read, hread, hload⟩ := Results.bind_ok hload
  cases read with
  | some index =>
      obtain ⟨files, -, hload⟩ := Results.bind_ok hload
      cases hload
  | none =>
      obtain ⟨path', hpath', hread⟩ := Results.bind_ok hread
      rw [hpath] at hpath'
      cases hpath'
      split at hread
      · assumption
      · cases hread
      · cases hread
      · cases hread
      · cases hread

theorem ensureFile_ok {path : Text} {file : StoredFile B}
    (h : ensureFile store path file = .ok store') :
    ∀ p, store'.files p = if p = path then (store.files path).or (some file)
      else store.files p := by
  unfold ensureFile at h
  cases hfile : store.files path with
  | some x =>
      simp only [hfile] at h
      cases h
      intro p
      by_cases hp : p = path <;> simp [hp, hfile]
  | none =>
      cases hfailing : store.failing path with
      | some error => simp [hfile, hfailing] at h
      | none =>
          simp only [hfile, hfailing] at h
          cases h
          intro p
          by_cases hp : p = path <;> simp [hp]

/-- An extraction lets the store grow and leaves an index for the call. -/
theorem extractResponse_grows (laws : DigestLaws I B) {now : Option Nat} {response : B}
    {extracted : Extracted B} (h : extractResponse call now store response = .ok extracted) :
    StoreGrows I call.storeDir store extracted.store ∧
      ∃ path index, indexFilePath B call.storeDir call.packageIntegrity = .ok path ∧
        (store.files path = none → extracted.store.files path = some (.index index) ∧
          IndexLoads I B call.storeDir index) := by
  obtain ⟨entries, built, -, hentries, hindex, -, -⟩ := extractResponse_ok h
  have hbuilt := (ExtractedFrom.initial store).run laws hentries
  obtain ⟨path, hpath, hindex⟩ := Results.bind_ok hindex
  have hfiles : ∀ p, extracted.store.files p =
      if p = path then (built.store.files path).or (some (.index built.index))
      else built.store.files p := by
    split at hindex
    · cases hindex
    · rename_i store' hensure
      cases hindex
      exact ensureFile_ok hensure
  have hloads : IndexLoads I B call.storeDir built.index :=
    ⟨_, (Results.mapM_ok_iff _ _ _).mpr hbuilt.inStep⟩
  have hfirst : StoreGrows I call.storeDir store built.store := by
    refine ⟨hbuilt.kept, fun p x hnone hsome => ?_⟩
    rcases hbuilt.written p hnone with hnone' | ⟨f, -, hf, -⟩
    · rw [hnone'] at hsome
      cases hsome
    · exact Or.inl ⟨f, hf⟩
  have hlast : StoreGrows I call.storeDir built.store extracted.store := by
    constructor
    · intro p x hx
      rw [hfiles]
      by_cases hp : p = path
      · subst hp
        simp [hx]
      · simpa [hp] using hx
    · intro p x hnone hsome
      rw [hfiles] at hsome
      by_cases hp : p = path
      · subst hp
        rw [if_pos rfl, hnone, Option.none_or] at hsome
        exact Or.inr ⟨built.index, (Option.some.inj hsome).symm, hloads⟩
      · rw [if_neg hp, hnone] at hsome
        cases hsome
  refine ⟨hfirst.trans hlast, path, built.index, hpath, fun hnone => ⟨?_, hloads⟩⟩
  rw [hfiles, if_pos rfl]
  rcases hbuilt.written path hnone with hnone' | ⟨f, -, hf, -⟩
  · rw [hnone', Option.none_or]
  · exact absurd rfl (laws.casPath_ne_index hf hpath)

end Store

section Run

variable {I B : Type} [TarballLibs I B]

/-- The event gives the call a map of its own. -/
def CacheEvent.Obtains (i : Nat) : CacheEvent B → Prop
  | .miss j _ (.publishing _) => j = i
  | .fetched j _ (.publishing _) => j = i
  | _ => False

omit [TarballLibs I B] in
theorem obtains_miss {i j : Nat} {store : StoreFiles B} {next : Phase}
    (h : (CacheEvent.miss i store next).Obtains j) :
    i = j ∧ ∃ casPaths, next = .publishing casPaths := by
  cases next with
  | publishing casPaths => exact ⟨h, casPaths, rfl⟩
  | start => exact h.elim
  | locking => exact h.elim
  | waiting => exact h.elim
  | reading => exact h.elim
  | fetching => exact h.elim
  | returned => exact h.elim

omit [TarballLibs I B] in
theorem obtains_fetched {i j : Nat} {response : Except Text B} {next : Phase}
    (h : (CacheEvent.fetched i response next).Obtains j) :
    i = j ∧ ∃ casPaths, next = .publishing casPaths := by
  cases next with
  | publishing casPaths => exact ⟨h, casPaths, rfl⟩
  | start => exact h.elim
  | locking => exact h.elim
  | waiting => exact h.elim
  | reading => exact h.elim
  | fetching => exact h.elim
  | returned => exact h.elim

/-- What a run of calls with one store directory has done to the store. -/
structure Extracting (calls : List (DownloadTarballToStore I)) (storeDir : Text)
    (start : StoreFiles B) (events : List (CacheEvent B)) (s : CacheState B) : Prop where
  grows : StoreGrows I storeDir start s.store
  /-- a call downloads when the store has no index for it at the start -/
  fetching : ∀ i call path, calls[i]? = some call → s.phases i = .fetching →
    indexFilePath B storeDir call.packageIntegrity = .ok path → start.files path = none
  /-- the store answers the calls that have obtained a map -/
  answered : ∀ i call, calls[i]? = some call → (∃ e ∈ events, e.Obtains i) → call.Answered s.store

variable {calls : List (DownloadTarballToStore I)} {shard : Text → Nat} {storeDir : Text}
  {start : StoreFiles B} {events : List (CacheEvent B)} {s s' : CacheState B} {e : CacheEvent B}

theorem Extracting.initial (calls : List (DownloadTarballToStore I)) (storeDir : Text)
    (start : StoreFiles B) : Extracting calls storeDir start [] (CacheState.initial start) where
  grows := .refl start
  fetching _ _ _ _ h := by cases h
  answered _ _ _ h := by
    obtain ⟨e, he, -⟩ := h
    cases he

/-- A step that obtains no map and begins no download. -/
theorem Extracting.idle (h : Extracting calls storeDir start events s)
    (hobtains : ∀ i, ¬ e.Obtains i) (hstore : s'.store = s.store)
    (hphases : ∀ i, s'.phases i = .fetching → s.phases i = .fetching) :
    Extracting calls storeDir start (events ++ [e]) s' where
  grows := hstore ▸ h.grows
  fetching i call path hcall hphase := h.fetching i call path hcall (hphases i hphase)
  answered i call hcall := by
    rintro ⟨e', he', hi⟩
    rw [hstore]
    rcases List.mem_append.mp he' with he' | he'
    · exact h.answered i call hcall ⟨e', he', hi⟩
    · rw [List.mem_singleton.mp he'] at hi
      exact absurd hi (hobtains i)

theorem lookupPhase_fetching {call : DownloadTarballToStore I} {store : StoreFiles B}
    (h : lookupPhase call store = some .fetching) : loadFromStore call store = .ok none := by
  unfold lookupPhase at h
  split at h
  · cases h
  · assumption
  · cases h
  · cases h

theorem Extracting.miss (h : Extracting calls storeDir start events s)
    (hdir : ∀ call ∈ calls, call.storeDir = storeDir) {i : Nat}
    {call : DownloadTarballToStore I} {next : Phase} (hcall : calls[i]? = some call)
    (hnext : lookupPhase call s.store = some next) :
    Extracting calls storeDir start (events ++ [.miss i s.store next])
      (((s.setEntry call.packageUrl i).setCell i ⟨.inProgress, 0⟩).setPhase i next) where
  grows := h.grows
  fetching j callj path hcallj hphase hpath := by
    by_cases hj : j = i
    · subst hj
      rw [hcall, Option.some.injEq] at hcallj
      subst hcallj
      rw [CacheState.setPhase_phases, Function.update_self] at hphase
      subst hphase
      rw [← hdir call (List.mem_of_getElem? hcall)] at hpath
      have hnone := index_missing_of_load (lookupPhase_fetching hnext) hpath
      by_contra hne
      obtain ⟨x, hx⟩ := Option.ne_none_iff_exists'.mp hne
      rw [h.grows.kept path x hx] at hnone
      cases hnone
    · rw [CacheState.setPhase_phases, Function.update_of_ne hj] at hphase
      exact h.fetching j callj path hcallj hphase hpath
  answered j callj hcallj := by
    rintro ⟨e', he', hobtains⟩
    rcases List.mem_append.mp he' with he' | he'
    · exact h.answered j callj hcallj ⟨e', he', hobtains⟩
    · obtain rfl := List.mem_singleton.mp he'
      obtain ⟨rfl, casPaths, rfl⟩ := obtains_miss hobtains
      rw [hcall, Option.some.injEq] at hcallj
      subst hcallj
      exact ⟨casPaths, loadFromStore_of_lookupPhase hnext⟩

theorem Extracting.fetched (h : Extracting calls storeDir start events s)
    (laws : DigestLaws I B) (hdir : ∀ call ∈ calls, call.storeDir = storeDir) {i : Nat}
    {call : DownloadTarballToStore I} {now : Option Nat} {response : Except Text B}
    {next : Phase} {store : StoreFiles B} (hcall : calls[i]? = some call)
    (hphase : s.phases i = .fetching)
    (hnext : fetchedPhase call now s.store response = some (next, store)) :
    Extracting calls storeDir start (events ++ [.fetched i response next])
      ((s.setStore store).setPhase i next) := by
  have hcallDir := hdir call (List.mem_of_getElem? hcall)
  have hnot : next ≠ .fetching := by
    rcases fetchedPhase_cases hnext with hp | ⟨error, rfl⟩
    · rintro rfl
      unfold fetchedPhase at hnext
      split at hnext <;> cases hnext
    · simp
  have hlast : StoreGrows I storeDir s.store store ∧
      (next.producing = true → call.Answered store) := by
    unfold fetchedPhase at hnext
    split at hnext
    · rename_i extracted hrun
      cases hnext
      cases response with
      | error error => cases hrun
      | ok body =>
          obtain ⟨hgrows, path, index, hpath, hmade⟩ := extractResponse_grows laws hrun
          rw [hcallDir] at hgrows
          refine ⟨hgrows, fun _ => ?_⟩
          have hstart := h.fetching i call path hcall hphase (hcallDir ▸ hpath)
          cases hold : s.store.files path with
          | none => exact answered_of_index hpath (hmade hold).1 (hmade hold).2
          | some x =>
              -- another call has written the index in the meantime
              rcases h.grows.new path x hstart hold with ⟨f, hf⟩ | ⟨other, rfl, hloads⟩
              · exact absurd rfl (laws.casPath_ne_index hf (hcallDir ▸ hpath))
              · exact answered_of_index hpath (hgrows.kept path _ hold) (hcallDir ▸ hloads)
    · cases hnext
      exact ⟨.refl _, fun hp => by cases hp⟩
    · cases hnext
  constructor
  · exact h.grows.trans hlast.1
  · intro j callj path hcallj hphasej
    exact h.fetching j callj path hcallj (fetching_of_setPhase hnot hphasej)
  · intro j callj hcallj
    rintro ⟨e', he', hobtains⟩
    rcases List.mem_append.mp he' with he' | he'
    · exact (h.answered j callj hcallj ⟨e', he', hobtains⟩).of_kept hlast.1.kept
    · obtain rfl := List.mem_singleton.mp he'
      obtain ⟨rfl, casPaths, rfl⟩ := obtains_fetched hobtains
      rw [hcall, Option.some.injEq] at hcallj
      subst hcallj
      exact hlast.2 rfl

theorem Extracting.step (h : Extracting calls storeDir start events s) (laws : DigestLaws I B)
    (hdir : ∀ call ∈ calls, call.storeDir = storeDir) (hown : e ≠ .external)
    (hstep : CacheStep calls shard s e s') :
    Extracting calls storeDir start (events ++ [e]) s' := by
  cases hstep with
  | hit => exact h.idle (fun _ => id) rfl fun j => fetching_of_setPhase (by simp)
  | miss hcall _ _ _ _ hnext => exact h.miss hdir hcall hnext
  | block => exact h.idle (fun _ => id) rfl fun _ => id
  | fetched hcall _ hphase hnext => exact h.fetched laws hdir hcall hphase hnext
  | lock =>
      exact h.idle (fun _ => id) rfl fun j => fetching_of_setPhase (lockedPhase_ne_fetching _ _)
  | wake => exact h.idle (fun _ => id) rfl fun j => fetching_of_setPhase (by simp)
  | reread => exact h.idle (fun _ => id) rfl fun j => fetching_of_setPhase (by simp)
  | publish =>
      exact h.idle (fun _ => id) rfl fun j hj => fetching_of_setPhase (s := s) (by simp) hj
  | external => exact absurd rfl hown

theorem Extracting.run (laws : DigestLaws I B) (hdir : ∀ call ∈ calls, call.storeDir = storeDir)
    (hown : .external ∉ events) (run : CacheRun calls shard start events s) :
    Extracting calls storeDir start events s := by
  refine run.invariant_with_events
    (fun es s => .external ∉ es → Extracting calls storeDir start es s)
    (fun _ => .initial calls storeDir start) (fun es t e t' ht hstep hes => ?_) hown
  exact (ht fun hmem => hes (by simp [hmem])).step laws hdir
    (fun he => hes (by simp [he])) hstep

/-- After a run in which equal URLs have equal integrities the store answers every call
that has returned a map. -/
theorem answered_of_returned (laws : DigestLaws I B)
    (hdir : ∀ call ∈ calls, call.storeDir = storeDir)
    (hintegrity : ∀ a ∈ calls, ∀ b ∈ calls, a.packageUrl = b.packageUrl →
      a.packageIntegrity = b.packageIntegrity)
    (hown : .external ∉ events) (run : CacheRun calls shard start events s) {i : Nat}
    {call : DownloadTarballToStore I} {casPaths : CasPaths} (hcall : calls[i]? = some call)
    (hreturned : s.phases i = .returned (.ok casPaths)) : call.Answered s.store := by
  have hrun := Extracting.run laws hdir hown run
  obtain ⟨j, other, hother, hurl, -, hobtained⟩ :=
    (Provenance.run run).returned i call casPaths hcall hreturned
  have hsame := hintegrity other (List.mem_of_getElem? hother) call
    (List.mem_of_getElem? hcall) hurl
  have hanswer : ∀ (k : Nat) (owner : DownloadTarballToStore I), calls[k]? = some owner →
      owner.packageIntegrity = other.packageIntegrity → (∃ e ∈ events, e.Obtains k) →
      call.Answered s.store := by
    intro k owner howner heq hobtains
    have hdirs := (hdir call (List.mem_of_getElem? hcall)).trans
      (hdir owner (List.mem_of_getElem? howner)).symm
    exact (hrun.answered k owner howner hobtains).congr hdirs (hsame.symm.trans heq.symm)
  cases hobtained with
  | index howner heq hevent _ => exact hanswer _ _ howner heq ⟨_, hevent, rfl⟩
  | download howner heq hevent _ _ _ => exact hanswer _ _ howner heq ⟨_, hevent, rfl⟩

end Run

section Warm

variable {I B : Type} {start : StoreFiles B} {s s' : CacheState B}

/-- A store that answers the calls is left as it is, and nothing is downloaded. -/
structure Warm (store : StoreFiles B) (s : CacheState B) : Prop where
  store : s.store = store
  idle : ∀ i, s.phases i ≠ .fetching
  answers : ∀ i result, s.phases i = .returned result → ∃ casPaths, result = .ok casPaths

theorem Warm.setPhase (h : Warm start s) {i : Nat} {next : Phase} (hnext : next ≠ .fetching)
    (hreturned : ∀ result, next = .returned result → ∃ casPaths, result = .ok casPaths) :
    Warm start (s.setPhase i next) where
  store := h.store
  idle j hj := h.idle j (fetching_of_setPhase hnext hj)
  answers j result hj := by
    by_cases hji : j = i
    · subst hji
      rw [CacheState.setPhase_phases, Function.update_self] at hj
      exact hreturned result hj
    · rw [CacheState.setPhase_phases, Function.update_of_ne hji] at hj
      exact h.answers j result hj

variable [TarballLibs I B] {calls : List (DownloadTarballToStore I)} {shard : Text → Nat}
  {events : List (CacheEvent B)} {e : CacheEvent B}

theorem Warm.step (h : Warm start s) (hanswered : ∀ call ∈ calls, call.Answered start)
    (hown : e ≠ .external) (hstep : CacheStep calls shard s e s') : Warm start s' := by
  cases hstep with
  | hit => exact h.setPhase (by simp) (by simp)
  | @miss i call next hcall _ _ _ _ hnext =>
      obtain ⟨casPaths, hload⟩ := hanswered call (List.mem_of_getElem? hcall)
      unfold lookupPhase at hnext
      rw [h.store, hload] at hnext
      cases hnext
      have hset : Warm start ((s.setEntry call.packageUrl i).setCell i ⟨.inProgress, 0⟩) :=
        ⟨h.store, h.idle, h.answers⟩
      exact hset.setPhase (by simp) (by simp)
  | block => exact ⟨h.store, h.idle, h.answers⟩
  | fetched _ _ hphase _ => exact absurd hphase (h.idle _)
  | @lock i cell _ _ =>
      refine h.setPhase (lockedPhase_ne_fetching _ _) fun result hresult => ?_
      rcases lockedPhase_cases cell (s.cells cell) with ⟨casPaths, -, hl⟩ | ⟨-, hl⟩
      · rw [hl] at hresult
        cases hresult
        exact ⟨casPaths, rfl⟩
      · rw [hl] at hresult
        cases hresult
  | wake => exact h.setPhase (by simp) (by simp)
  | @reread i cell casPaths _ _ _ =>
      refine h.setPhase (by simp) fun result hresult => ?_
      cases hresult
      exact ⟨casPaths, rfl⟩
  | @publish i casPaths _ _ =>
      have hset : Warm start
          (s.setCell i ⟨.available casPaths, (s.cells i).notified + 1⟩) :=
        ⟨h.store, h.idle, h.answers⟩
      refine hset.setPhase (by simp) fun result hresult => ?_
      cases hresult
      exact ⟨casPaths, rfl⟩
  | external => exact absurd rfl hown

theorem Warm.run (hanswered : ∀ call ∈ calls, call.Answered start) (hown : .external ∉ events)
    (run : CacheRun calls shard start events s) : Warm start s := by
  have hstart : Warm start (CacheState.initial start) := by
    refine ⟨rfl, fun i h => ?_, fun i result h => ?_⟩
    · cases h
    · cases h
  have hevents : ∀ e ∈ events, e ≠ .external := by
    rintro e he rfl
    exact hown he
  exact run.invariant_of_forall (Warm start) hevents hstart
    fun t e t' ht hok hstep => ht.step hanswered hok hstep

end Warm

end Npnpm
