import Npnpm.Tarball.Containment
import Npnpm.Tarball.MemCacheInvariant

/-!
# Whose integrity the files were checked against

A call verifies what it downloads against its own integrity, and the cache hands
the result to every call with the same URL. So a call is given files that were
verified for its URL, under the integrity of the call that came first.
-/

namespace Npnpm

section Integrity

variable {I B : Type} [TarballLibs I B]

/-- The map comes from the run, from the store index or from a checked response
of a call with this integrity. -/
inductive ObtainedUnder (calls : List (DownloadTarballToStore I)) (events : List (CacheEvent B))
    (integrity : I) (casPaths : CasPaths) : Prop
  | index {j call store} (hcall : calls[j]? = some call)
      (hintegrity : call.packageIntegrity = integrity)
      (hevent : .miss j store (.publishing casPaths) ∈ events)
      (hload : loadFromStore call store = .ok (some casPaths))
  | download {j call now store response extracted} (hcall : calls[j]? = some call)
      (hintegrity : call.packageIntegrity = integrity)
      (hevent : .fetched j (.ok response) (.publishing casPaths) ∈ events)
      (hcheck : TarballLibs.check integrity response = .ok ())
      (hextract : extractResponse call now store response = .ok extracted)
      (hmap : extracted.casPaths = casPaths)

variable {calls : List (DownloadTarballToStore I)} {shard : Text → Nat} {s s' : CacheState B}
  {events : List (CacheEvent B)} {e : CacheEvent B}

theorem ObtainedUnder.append {integrity : I} {casPaths : CasPaths}
    (h : ObtainedUnder calls events integrity casPaths) (e : CacheEvent B) :
    ObtainedUnder calls (events ++ [e]) integrity casPaths := by
  cases h with
  | index hcall hintegrity hevent hload =>
      exact .index hcall hintegrity (by simp [hevent]) hload
  | download hcall hintegrity hevent hcheck hextract hmap =>
      exact .download hcall hintegrity (by simp [hevent]) hcheck hextract hmap

theorem loadFromStore_of_lookupPhase {call : DownloadTarballToStore I} {store : StoreFiles B}
    {casPaths : CasPaths} (h : lookupPhase call store = some (.publishing casPaths)) :
    loadFromStore call store = .ok (some casPaths) := by
  unfold lookupPhase at h
  split at h
  · rename_i hload
    cases h
    exact hload
  · split at h <;> cases h
  · cases h
  · cases h

/-- A download that yields a map has passed the check of its own integrity. -/
theorem extract_of_fetchedPhase {call : DownloadTarballToStore I} {now : Option Nat}
    {store store' : StoreFiles B} {result : Except Text B} {casPaths : CasPaths}
    (h : fetchedPhase call now store result = some (.publishing casPaths, store')) :
    ∃ response extracted, result = .ok response ∧
      TarballLibs.check call.packageIntegrity response = .ok () ∧
      extractResponse call now store response = .ok extracted ∧
      extracted.casPaths = casPaths := by
  unfold fetchedPhase at h
  split at h
  · rename_i extracted hrun
    cases h
    cases result with
    | error error => cases hrun
    | ok response =>
        refine ⟨response, extracted, rfl, ?_, hrun, rfl⟩
        simp only [runWithoutMemCache, extractResponse] at hrun
        split at hrun
        · cases hrun
        · assumption
  · cases h
  · cases h

/-- Where the maps in the cache come from. -/
structure Provenance (calls : List (DownloadTarballToStore I)) (events : List (CacheEvent B))
    (s : CacheState B) : Prop where
  inv : CacheInv calls s
  /-- a call publishes what it obtained itself -/
  publishing : ∀ i call casPaths, calls[i]? = some call → s.phases i = .publishing casPaths →
    ObtainedUnder calls events call.packageIntegrity casPaths
  /-- a cell holds what the call that inserted it obtained -/
  available : ∀ url c call casPaths, s.entries url = some c → calls[c]? = some call →
    (s.cells c).value = .available casPaths →
      ObtainedUnder calls events call.packageIntegrity casPaths
  /-- a call returns what some call with its URL obtained -/
  returned : ∀ i call casPaths, calls[i]? = some call → s.phases i = .returned (.ok casPaths) →
    ∃ (j : Nat) (other : DownloadTarballToStore I), calls[j]? = some other ∧
      other.packageUrl = call.packageUrl ∧ other.Supported B ∧
        ObtainedUnder calls events other.packageIntegrity casPaths

theorem Provenance.initial (calls : List (DownloadTarballToStore I)) (store : StoreFiles B) :
    Provenance calls [] (CacheState.initial store) where
  inv := CacheInv.initial calls store
  publishing _ _ _ _ h := by cases h
  available _ _ _ _ h := by cases h
  returned _ _ _ _ h := by cases h

theorem Provenance.append (h : Provenance calls events s) (e : CacheEvent B) :
    Provenance calls (events ++ [e]) s where
  inv := h.inv
  publishing i call casPaths hcall hphase := (h.publishing i call casPaths hcall hphase).append e
  available url c call casPaths hentry hcall hvalue :=
    (h.available url c call casPaths hentry hcall hvalue).append e
  returned i call casPaths hcall hphase := by
    obtain ⟨j, other, hj, hurl, hsupported, hobtained⟩ := h.returned i call casPaths hcall hphase
    exact ⟨j, other, hj, hurl, hsupported, hobtained.append e⟩

/-- A call changes its phase and the cache stays as it is. -/
theorem Provenance.setPhase (h : Provenance calls events s) {i : Nat} {next : Phase}
    (hinv : CacheInv calls (s.setPhase i next))
    (hpublishing : ∀ call casPaths, calls[i]? = some call → next = .publishing casPaths →
      ObtainedUnder calls events call.packageIntegrity casPaths)
    (hreturned : ∀ call casPaths, calls[i]? = some call → next = .returned (.ok casPaths) →
      ∃ (j : Nat) (other : DownloadTarballToStore I), calls[j]? = some other ∧
        other.packageUrl = call.packageUrl ∧ other.Supported B ∧
          ObtainedUnder calls events other.packageIntegrity casPaths) :
    Provenance calls events (s.setPhase i next) where
  inv := hinv
  publishing j call casPaths hcall hphase := by
    by_cases hj : j = i
    · subst hj
      simp only [CacheState.setPhase_phases, Function.update_self] at hphase
      exact hpublishing call casPaths hcall hphase
    · simp only [CacheState.setPhase_phases, Function.update_of_ne hj] at hphase
      exact h.publishing j call casPaths hcall hphase
  available url c call casPaths hentry hcall hvalue :=
    h.available url c call casPaths hentry hcall hvalue
  returned j call casPaths hcall hphase := by
    by_cases hj : j = i
    · subst hj
      simp only [CacheState.setPhase_phases, Function.update_self] at hphase
      exact hreturned call casPaths hcall hphase
    · simp only [CacheState.setPhase_phases, Function.update_of_ne hj] at hphase
      exact h.returned j call casPaths hcall hphase

/-- What a call finds in the cell it borrows was obtained for its URL. -/
theorem Provenance.borrowed (h : Provenance calls events s) {i c : Nat}
    {call : DownloadTarballToStore I} {casPaths : CasPaths} (hcall : calls[i]? = some call)
    (hborrow : (s.phases i).borrowed = some c)
    (hvalue : (s.cells c).value = .available casPaths) :
    ∃ (j : Nat) (other : DownloadTarballToStore I), calls[j]? = some other ∧
      other.packageUrl = call.packageUrl ∧ other.Supported B ∧
        ObtainedUnder calls events other.packageIntegrity casPaths := by
  obtain ⟨call', hcall', hentry⟩ := h.inv.borrowed i c hborrow
  rw [hcall, Option.some.injEq] at hcall'
  subst hcall'
  obtain ⟨⟨other, hother, hurl, hsupported⟩, -⟩ := h.inv.entry _ c hentry
  exact ⟨c, other, hother, hurl, hsupported,
    h.available _ c other casPaths hentry hother hvalue⟩

theorem Provenance.miss (h : Provenance calls events s) {i : Nat}
    {call : DownloadTarballToStore I} {next : Phase} (hcall : calls[i]? = some call)
    (hphase : s.phases i = .start) (hentry : s.entries call.packageUrl = none)
    (hnext : lookupPhase call s.store = some next) :
    Provenance calls (events ++ [.miss i s.store next])
      (((s.setEntry call.packageUrl i).setCell i ⟨.inProgress, 0⟩).setPhase i next) where
  inv := h.inv.miss hcall hphase hentry hnext
  publishing j callj casPaths hcallj hphasej := by
    by_cases hj : j = i
    · subst hj
      rw [hcall, Option.some.injEq] at hcallj
      subst hcallj
      simp only [CacheState.setPhase_phases, Function.update_self] at hphasej
      subst hphasej
      exact .index hcall rfl (by simp) (loadFromStore_of_lookupPhase hnext)
    · simp only [CacheState.setPhase_phases, Function.update_of_ne hj, CacheState.setCell_phases,
        CacheState.setEntry_phases] at hphasej
      exact (h.publishing j callj casPaths hcallj hphasej).append _
  available url c callc casPaths hc hcallc hvalue := by
    by_cases hci : c = i
    · subst hci
      simp at hvalue
    · by_cases hurl : url = call.packageUrl
      · subst hurl
        simp only [CacheState.setPhase_entries, CacheState.setCell_entries,
          CacheState.setEntry_entries, Function.update_self, Option.some.injEq] at hc
        exact absurd hc.symm hci
      · simp only [CacheState.setPhase_entries, CacheState.setCell_entries,
          CacheState.setEntry_entries, Function.update_of_ne hurl] at hc
        simp only [CacheState.setPhase_cells, CacheState.setCell_cells,
          CacheState.setEntry_cells, Function.update_of_ne hci] at hvalue
        exact (h.available url c callc casPaths hc hcallc hvalue).append _
  returned j callj casPaths hcallj hphasej := by
    by_cases hj : j = i
    · subst hj
      simp only [CacheState.setPhase_phases, Function.update_self] at hphasej
      subst hphasej
      rcases lookupPhase_cases hnext with hp | ⟨error, hp⟩ <;> cases hp
    · simp only [CacheState.setPhase_phases, Function.update_of_ne hj, CacheState.setCell_phases,
        CacheState.setEntry_phases] at hphasej
      exact ((h.append _).returned j callj casPaths hcallj hphasej)

theorem Provenance.publish (h : Provenance calls events s) {i : Nat} {casPaths : CasPaths}
    (hphase : s.phases i = .publishing casPaths) :
    Provenance calls events
      ((s.setCell i ⟨.available casPaths, (s.cells i).notified + 1⟩).setPhase i
        (.returned (.ok casPaths))) where
  inv := h.inv.publish hphase
  publishing j call paths hcall hphasej := by
    by_cases hj : j = i
    · subst hj
      simp at hphasej
    · simp only [CacheState.setPhase_phases, Function.update_of_ne hj,
        CacheState.setCell_phases] at hphasej
      exact h.publishing j call paths hcall hphasej
  available url c call paths hentry hcall hvalue := by
    by_cases hc : c = i
    · subst hc
      simp only [CacheState.setPhase_cells, CacheState.setCell_cells, Function.update_self,
        CacheValue.available.injEq] at hvalue
      subst hvalue
      exact h.publishing c call _ hcall hphase
    · simp only [CacheState.setPhase_cells, CacheState.setCell_cells,
        Function.update_of_ne hc] at hvalue
      exact h.available url c call paths hentry hcall hvalue
  returned j call paths hcall hphasej := by
    by_cases hj : j = i
    · subst hj
      simp only [CacheState.setPhase_phases, Function.update_self, Phase.returned.injEq,
        Except.ok.injEq] at hphasej
      subst hphasej
      obtain ⟨⟨call', hcall', hentry⟩, -⟩ := h.inv.producing j (by rw [hphase]; rfl)
      obtain ⟨⟨other, hother, -, hsupported⟩, -⟩ := h.inv.entry _ j hentry
      rw [hcall, Option.some.injEq] at hother
      subst hother
      exact ⟨j, call, hcall, rfl, hsupported, h.publishing j call _ hcall hphase⟩
    · simp only [CacheState.setPhase_phases, Function.update_of_ne hj,
        CacheState.setCell_phases] at hphasej
      exact h.returned j call paths hcall hphasej

theorem Provenance.step (h : Provenance calls events s) (hstep : CacheStep calls shard s e s') :
    Provenance calls (events ++ [e]) s' := by
  have hinv := h.inv.step hstep
  cases hstep with
  | hit => exact (h.append _).setPhase hinv (by simp) (by simp)
  | miss hcall _ hphase hentry _ hnext => exact h.miss hcall hphase hentry hnext
  | block => exact ⟨hinv, (h.append _).publishing, (h.append _).available, (h.append _).returned⟩
  | @fetched i call now response next store hcall _ hphase hnext =>
      have hstore : Provenance calls (events ++ [.fetched i response next]) (s.setStore store) :=
        ⟨h.inv.setStore store, (h.append _).publishing, (h.append _).available,
          (h.append _).returned⟩
      refine hstore.setPhase hinv (fun call' casPaths hcall' hn => ?_) (fun _ casPaths _ hn => ?_)
      · rw [hcall, Option.some.injEq] at hcall'
        subst hcall' hn
        obtain ⟨body, extracted, rfl, hcheck, hextract, hmap⟩ := extract_of_fetchedPhase hnext
        exact .download hcall rfl (by simp) hcheck hextract hmap
      · rcases fetchedPhase_cases hnext with hp | ⟨error, hp⟩
        · rw [hn] at hp
          cases hp
        · rw [hn] at hp
          cases hp
  | @lock i cell _ hphase =>
      refine (h.append _).setPhase hinv (fun _ casPaths _ hn => ?_) (fun call paths hcall hn => ?_)
      · rcases lockedPhase_cases cell (s.cells cell) with ⟨_, -, hl⟩ | ⟨-, hl⟩ <;>
          (rw [hl] at hn; cases hn)
      · rcases lockedPhase_cases cell (s.cells cell) with ⟨paths', hvalue, hl⟩ | ⟨-, hl⟩
        · rw [hl] at hn
          cases hn
          exact (h.append _).borrowed hcall (by rw [hphase]; rfl) hvalue
        · rw [hl] at hn
          cases hn
  | wake => exact (h.append _).setPhase hinv (by simp) (by simp)
  | @reread i cell casPaths _ hphase hvalue =>
      refine (h.append _).setPhase hinv (by simp) (fun call paths hcall hn => ?_)
      cases hn
      exact (h.append _).borrowed hcall (by rw [hphase]; rfl) hvalue
  | publish _ hphase => exact (h.append _).publish hphase
  | external => exact ⟨hinv, (h.append _).publishing, (h.append _).available, (h.append _).returned⟩

/-- In every run a call is given files that some call with its URL obtained. -/
theorem Provenance.run {store : StoreFiles B} (run : CacheRun calls shard store events s) :
    Provenance calls events s :=
  run.invariant_with_events (Provenance calls) (Provenance.initial calls store)
    fun _ _ _ _ h hstep => h.step hstep

variable (B) in
/-- Two calls with one URL and different integrities, one of them with a hash the
store supports. -/
def IntegrityClash (calls : List (DownloadTarballToStore I)) : Prop :=
  ∃ (i j : Nat) (ci cj : DownloadTarballToStore I), calls[i]? = some ci ∧
    calls[j]? = some cj ∧ ci.Supported B ∧ cj.packageUrl = ci.packageUrl ∧
    cj.packageIntegrity ≠ ci.packageIntegrity

/-- The store answers the first of two such calls, and the second is given the
same files. -/
theorem exists_shared_of_clash (store : StoreFiles B) (h : IntegrityClash B calls) :
    ∃ (events : List (CacheEvent B)) (s : CacheState B) (j : Nat)
      (call : DownloadTarballToStore I) (casPaths : CasPaths),
      CacheRun calls shard store events s ∧ calls[j]? = some call ∧
        s.phases j = .returned (.ok casPaths) ∧
        ¬ ObtainedUnder calls events call.packageIntegrity casPaths := by
  obtain ⟨i, j, ci, cj, hi, hj, ⟨path, hpath⟩, hurl, hintegrity⟩ := h
  have hij : j ≠ i := by
    rintro rfl
    rw [hi, Option.some.injEq] at hj
    exact hintegrity (by rw [hj])
  -- a store whose index for the first call lists no files
  let indexed : StoreFiles B := ⟨fun _ => some (.index ⟨.empty⟩), store.failing⟩
  have hlookup : lookupPhase ci indexed = some (.publishing (KeyedMap.ofList [])) := by
    have hload : loadFromStore ci indexed = .ok (some (KeyedMap.ofList [])) := by
      unfold loadFromStore readIndexFile
      rw [hpath]
      rfl
    rw [lookupPhase, hload]
  have hfree : ∀ t : CacheState B, (∀ m, t.phases m = .start) →
      ¬ ShardHeld calls shard t (shard ci.packageUrl) := by
    rintro t ht ⟨m, c, -, hm, -⟩
    rw [ht m] at hm
    cases hm
  have hexternal : CacheStep calls shard (CacheState.initial store) .external
      ((CacheState.initial store).setStore indexed) := .external
  have hmiss := (Run.nil.snoc hexternal).snoc
    (.miss hi rfl rfl rfl (hfree _ fun _ => rfl) hlookup)
  have hpublish := hmiss.snoc (.publish (i := i) rfl (by
    rw [CacheState.setPhase_phases, Function.update_self]))
  have hhit := hpublish.snoc (.hit (i := j) hj rfl
    (by simp [Function.update_of_ne hij, CacheState.initial])
    (show _ = some i by simp [hurl]))
  have hlock := hhit.snoc (.lock (i := j) rfl (show _ = Phase.locking i by simp))
  refine ⟨_, _, j, cj, KeyedMap.ofList [], hlock, hj, by simp [lockedPhase], ?_⟩
  intro hobtained
  cases hobtained with
  | @index k call store' hcall hsame hevent _ =>
      simp only [List.nil_append, List.cons_append, List.mem_cons, List.not_mem_nil,
        reduceCtorEq, or_false, false_or, CacheEvent.miss.injEq] at hevent
      obtain ⟨rfl, -⟩ := hevent
      rw [hi, Option.some.injEq] at hcall
      exact hintegrity (by rw [← hsame, hcall])
  | download _ _ hevent _ _ _ => simp at hevent

variable (calls shard) in
/-- In every run each call returns files that were verified under its own
integrity exactly when calls with one URL agree on the integrity. -/
theorem returned_obtainedUnder_iff (store : StoreFiles B) :
    (∀ (events : List (CacheEvent B)) (s : CacheState B) (i : Nat)
      (call : DownloadTarballToStore I) (casPaths : CasPaths),
      CacheRun calls shard store events s → calls[i]? = some call →
        s.phases i = .returned (.ok casPaths) →
          ObtainedUnder calls events call.packageIntegrity casPaths) ↔
      ¬ IntegrityClash B calls := by
  constructor
  · intro hall hclash
    obtain ⟨events, s, j, call, casPaths, run, hj, hreturned, hnot⟩ :=
      exists_shared_of_clash store hclash
    exact hnot (hall events s j call casPaths run hj hreturned)
  · intro hclash events s i call casPaths run hcall hreturned
    obtain ⟨j, other, hother, hurl, hsupported, hobtained⟩ :=
      (Provenance.run run).returned i call casPaths hcall hreturned
    have hsame : call.packageIntegrity = other.packageIntegrity := by
      by_contra hne
      exact hclash ⟨j, i, other, call, hother, hcall, hsupported, hurl.symm, hne⟩
    rw [hsame]
    exact hobtained

/-- The second call asks for another integrity and gets the files of the first. -/
theorem returned_under_other_integrity :
    ∃ (events : List (CacheEvent SampleBytes)) (s : CacheState SampleBytes) (j : Nat)
      (call : DownloadTarballToStore HashIntegrity) (casPaths : CasPaths),
      CacheRun [sampleCall "package/index.js".toList, otherIntegrityCall] (fun _ => 0) emptyStore
        events s ∧
      [sampleCall "package/index.js".toList, otherIntegrityCall][j]? = some call ∧
      s.phases j = .returned (.ok casPaths) ∧
      ¬ ObtainedUnder [sampleCall "package/index.js".toList, otherIntegrityCall] events
        call.packageIntegrity casPaths :=
  exists_shared_of_clash emptyStore ⟨0, 1, _, _, rfl, rfl, sampleCall_supported, rfl, by
    decide⟩

end Integrity

end Npnpm
