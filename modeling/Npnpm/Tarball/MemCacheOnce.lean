import Npnpm.Tarball.MemCacheSafety

/-!
# One producer for each URL

An entry of the cache stays once it is made, so only one call ever looks a URL up
in the store or downloads it. The cell of the entry holds what that call returns,
and the calls that found the entry return what the cell holds.
-/

namespace Npnpm

section Producers

variable {I B : Type} [TarballLibs I B]

variable (calls : List (DownloadTarballToStore I))

/-- Whether a call is for the URL. -/
def callsUrl (url : Text) (i : Nat) : Bool := calls[i]?.any fun call => call.packageUrl == url

/-- A call inserts a cell for the URL and looks the tarball up in the store. -/
def CacheEvent.looksUp (url : Text) : CacheEvent B → Bool
  | .miss i _ _ => callsUrl calls url i
  | _ => false

/-- A call downloads the tarball at the URL. -/
def CacheEvent.downloads (url : Text) : CacheEvent B → Bool
  | .fetched i _ _ => callsUrl calls url i
  | _ => false

variable {calls} {shard : Text → Nat} {s s' : CacheState B} {e : CacheEvent B}
  {events : List (CacheEvent B)} {url : Text}

theorem callsUrl_eq {i : Nat} {call : DownloadTarballToStore I} (h : calls[i]? = some call) :
    callsUrl calls url i = (call.packageUrl == url) := by
  simp [callsUrl, h]

/-- How often the URL has been looked up and downloaded: at most once each, and
not at all while it has no entry. -/
structure ProducedOnce (calls : List (DownloadTarballToStore I)) (url : Text)
    (events : List (CacheEvent B)) (s : CacheState B) : Prop where
  lookups : events.countP (CacheEvent.looksUp calls url) ≤ 1
  downloads : events.countP (CacheEvent.downloads calls url) ≤ 1
  absent : s.entries url = none → events.countP (CacheEvent.looksUp calls url) = 0 ∧
    events.countP (CacheEvent.downloads calls url) = 0
  fetching : ∀ c, s.entries url = some c → s.phases c = .fetching →
    events.countP (CacheEvent.downloads calls url) = 0

omit [TarballLibs I B] in
theorem ProducedOnce.initial (store : StoreFiles B) :
    ProducedOnce calls url [] (CacheState.initial store) where
  lookups := by simp
  downloads := by simp
  absent _ := by simp
  fetching _ h := by cases h

omit [TarballLibs I B] in
/-- A step of another kind, after which no call has begun to fetch. -/
theorem ProducedOnce.other (h : ProducedOnce calls url events s)
    (hlook : e.looksUp calls url = false) (hdown : e.downloads calls url = false)
    (hentries : s'.entries url = s.entries url)
    (hfetching : ∀ c, s'.entries url = some c → s'.phases c = .fetching →
      s.phases c = .fetching) :
    ProducedOnce calls url (events ++ [e]) s' where
  lookups := by simpa [List.countP_append, hlook] using h.lookups
  downloads := by simpa [List.countP_append, hdown] using h.downloads
  absent hnone := by
    rw [hentries] at hnone
    simpa [List.countP_append, hlook, hdown] using h.absent hnone
  fetching c hc hphase := by
    have hold := hfetching c hc hphase
    rw [hentries] at hc
    simpa [List.countP_append, hdown] using h.fetching c hc hold

theorem ProducedOnce.step (h : ProducedOnce calls url events s) (hinv : CacheInv calls s)
    (hstep : CacheStep calls shard s e s') : ProducedOnce calls url (events ++ [e]) s' := by
  have hset : ∀ {i : Nat} {next : Phase}, next ≠ .fetching → ∀ c,
      (s.setPhase i next).phases c = .fetching → s.phases c = .fetching := by
    intro i next hnext c hc
    by_cases hci : c = i
    · subst hci
      simp [hnext] at hc
    · simpa [Function.update_of_ne hci] using hc
  cases hstep with
  | hit => exact h.other rfl rfl rfl fun c _ => hset (by simp) c
  | block => exact h.other rfl rfl rfl fun c _ hc => hc
  | wake => exact h.other rfl rfl rfl fun c _ => hset (by simp) c
  | reread => exact h.other rfl rfl rfl fun c _ => hset (by simp) c
  | publish => exact h.other rfl rfl rfl fun c _ => hset (by simp) c
  | external => exact h.other rfl rfl rfl fun c _ hc => hc
  | @lock i cell =>
      refine h.other rfl rfl rfl fun c _ => hset ?_ c
      rcases lockedPhase_cases cell (s.cells cell) with ⟨_, -, heq⟩ | ⟨-, heq⟩ <;> simp [heq]
  | @miss i call next hcall _ hphase hentry _ hnext =>
      by_cases hurl : call.packageUrl = url
      · subst hurl
        obtain ⟨hlookups, hdownloads⟩ := h.absent hentry
        have hlook : CacheEvent.looksUp calls call.packageUrl (.miss i s.store next) = true := by
          simp [CacheEvent.looksUp, callsUrl_eq hcall]
        exact {
          lookups := by simp [List.countP_append, hlookups, hlook]
          downloads := by simp [List.countP_append, hdownloads, CacheEvent.downloads]
          absent := by simp
          fetching := by simp [List.countP_append, hdownloads, CacheEvent.downloads] }
      · have hne : url ≠ call.packageUrl := Ne.symm hurl
        refine h.other ?_ rfl (by simp [Function.update_of_ne hne]) fun c hc hfetch => ?_
        · simp [CacheEvent.looksUp, callsUrl_eq hcall, hurl]
        · have hold : s.entries url = some c := by simpa [Function.update_of_ne hne] using hc
          have hci := hinv.entry_ne_start hphase hold
          simpa [Function.update_of_ne hci] using hfetch
  | @fetched i call now response next store hcall _ hphase hnext =>
      have hnot : next ≠ .fetching := by
        unfold fetchedPhase at hnext
        split at hnext <;> cases hnext <;> simp
      obtain ⟨⟨owner, howner, hentry⟩, -⟩ := hinv.producing i (by rw [hphase]; rfl)
      obtain rfl : call = owner := by simpa [hcall] using howner
      by_cases hurl : call.packageUrl = url
      · subst hurl
        have hdown := h.fetching i hentry hphase
        have hlook : (CacheEvent.fetched i response next).looksUp calls call.packageUrl =
            false := rfl
        exact {
          lookups := by simpa [List.countP_append, hlook] using h.lookups
          downloads := by
            simp only [List.countP_append, hdown, List.countP_singleton]
            split <;> omega
          absent := by
            intro hnone
            have : s.entries call.packageUrl = none := hnone
            simp [hentry] at this
          fetching := by
            intro c hc hfetch
            have hc : s.entries call.packageUrl = some c := hc
            obtain rfl : i = c := by simpa [hentry] using hc
            simp [hnot] at hfetch }
      · refine h.other rfl ?_ rfl fun c _ => hset hnot c
        simp [CacheEvent.downloads, callsUrl_eq hcall, hurl]

end Producers

section Results

variable {I B : Type} [TarballLibs I B]

/-- What the calls have returned and what the cells hold. -/
structure Settled (calls : List (DownloadTarballToStore I)) (s : CacheState B) : Prop where
  /-- a cell is available when the call that inserted it has returned its map -/
  owner : ∀ url c casPaths, s.entries url = some c →
    ((s.cells c).value = .available casPaths ↔ s.phases c = .returned (.ok casPaths))
  /-- every other call that has returned has returned what the cell of its URL holds -/
  returned : ∀ i call result, calls[i]? = some call → s.phases i = .returned result →
    ∃ c, s.entries call.packageUrl = some c ∧
      (c = i ∨ ∃ casPaths, result = .ok casPaths ∧ (s.cells c).value = .available casPaths)
  /-- a call that was notified finds the value -/
  reading : ∀ i c, s.phases i = .reading c → ∃ casPaths, (s.cells c).value = .available casPaths

variable {calls : List (DownloadTarballToStore I)} {shard : Text → Nat} {s s' : CacheState B}
  {e : CacheEvent B}

omit [TarballLibs I B] in
theorem Settled.initial (store : StoreFiles B) : Settled calls (CacheState.initial store) where
  owner _ _ _ h := by cases h
  returned _ _ _ _ h := by cases h
  reading _ _ h := by cases h

omit [TarballLibs I B] in
/-- A call goes from one phase to the next without touching the cache. -/
theorem Settled.setPhase (h : Settled calls s) {i : Nat} {next : Phase}
    (howner : ∀ url casPaths, s.entries url = some i →
      ((s.cells i).value = .available casPaths ↔ next = .returned (.ok casPaths)))
    (hreturned : ∀ call result, calls[i]? = some call → next = .returned result →
      ∃ c, s.entries call.packageUrl = some c ∧
        (c = i ∨ ∃ casPaths, result = .ok casPaths ∧ (s.cells c).value = .available casPaths))
    (hreading : ∀ c, next = .reading c → ∃ casPaths, (s.cells c).value = .available casPaths) :
    Settled calls (s.setPhase i next) where
  owner url c casPaths hc := by
    by_cases hci : c = i
    · subst hci
      simpa using howner url casPaths hc
    · simpa [Function.update_of_ne hci] using h.owner url c casPaths hc
  returned j call result hcall hphase := by
    by_cases hj : j = i
    · subst hj
      exact hreturned call result hcall (by simpa using hphase)
    · exact h.returned j call result hcall (by simpa [Function.update_of_ne hj] using hphase)
  reading j c hphase := by
    by_cases hj : j = i
    · subst hj
      exact hreading c (by simpa using hphase)
    · exact h.reading j c (by simpa [Function.update_of_ne hj] using hphase)

/-- A new cell is in progress and its call has not returned a map. -/
theorem Settled.miss (h : Settled calls s) (hinv : CacheInv calls s) {i : Nat}
    {call : DownloadTarballToStore I} {next : Phase} (hcall : calls[i]? = some call)
    (hphase : s.phases i = .start) (hentry : s.entries call.packageUrl = none)
    (hnext : lookupPhase call s.store = some next) :
    Settled calls
      (((s.setEntry call.packageUrl i).setCell i ⟨.inProgress, 0⟩).setPhase i next) := by
  have hnot : (∀ casPaths, next ≠ .returned (.ok casPaths)) ∧ ∀ c, next ≠ .reading c := by
    rcases lookupPhase_cases hnext with hp | ⟨error, rfl⟩
    · constructor <;> (rintro _ rfl; simp [Phase.producing] at hp)
    · simp
  have hborrowed : ∀ j c, (s.phases j).borrowed = some c → c ≠ i := by
    intro j c hc
    obtain ⟨_, _, hold⟩ := hinv.borrowed j c hc
    exact hinv.entry_ne_start hphase hold
  constructor
  · intro url c casPaths hc
    by_cases hurl : url = call.packageUrl
    · subst hurl
      obtain rfl : i = c := by simpa using hc
      simp [hnot.1]
    · have hold : s.entries url = some c := by simpa [Function.update_of_ne hurl] using hc
      have hci := hinv.entry_ne_start hphase hold
      simpa [Function.update_of_ne hci] using h.owner url c casPaths hold
  · intro j callj result hcallj hreturned
    by_cases hj : j = i
    · subst hj
      obtain rfl : call = callj := by simpa [hcall] using hcallj
      exact ⟨j, by simp, Or.inl rfl⟩
    · have hold : s.phases j = .returned result := by
        simpa [Function.update_of_ne hj] using hreturned
      obtain ⟨c, hc, hcase⟩ := h.returned j callj result hcallj hold
      have hurl : callj.packageUrl ≠ call.packageUrl := by
        intro heq
        rw [heq, hentry] at hc
        cases hc
      have hci := hinv.entry_ne_start hphase hc
      exact ⟨c, by simpa [Function.update_of_ne hurl] using hc,
        by simpa [Function.update_of_ne hci] using hcase⟩
  · intro j c hreading
    by_cases hj : j = i
    · subst hj
      exact absurd (by simpa using hreading) (hnot.2 c)
    · have hold : s.phases j = .reading c := by
        simpa [Function.update_of_ne hj] using hreading
      have hci := hborrowed j c (by rw [hold]; rfl)
      simpa [Function.update_of_ne hci] using h.reading j c hold

/-- The owner of a cell makes it available and returns the same map. -/
theorem Settled.publish (h : Settled calls s) (hinv : CacheInv calls s) {i : Nat}
    {casPaths : CasPaths} (hphase : s.phases i = .publishing casPaths) :
    Settled calls ((s.setCell i ⟨.available casPaths, (s.cells i).notified + 1⟩).setPhase i
      (.returned (.ok casPaths))) := by
  obtain ⟨⟨own, hown, hentry⟩, hprogress⟩ := hinv.producing i (by rw [hphase]; rfl)
  have hcells : ∀ c map, (s.cells c).value = .available map → c ≠ i := by
    rintro c map hc rfl
    rw [hprogress] at hc
    cases hc
  constructor
  · intro url c map hc
    by_cases hci : c = i
    · subst hci
      simp
    · simpa [Function.update_of_ne hci] using h.owner url c map hc
  · intro j callj result hcallj hreturned
    by_cases hj : j = i
    · subst hj
      obtain rfl : own = callj := by simpa [hown] using hcallj
      exact ⟨j, hentry, Or.inl rfl⟩
    · have hold : s.phases j = .returned result := by
        simpa [Function.update_of_ne hj] using hreturned
      obtain ⟨c, hc, hcase⟩ := h.returned j callj result hcallj hold
      refine ⟨c, hc, hcase.imp_right ?_⟩
      rintro ⟨map, rfl, hvalue⟩
      exact ⟨map, rfl, by simpa [Function.update_of_ne (hcells c map hvalue)] using hvalue⟩
  · intro j c hreading
    by_cases hj : j = i
    · subst hj
      simp at hreading
    · have hold : s.phases j = .reading c := by
        simpa [Function.update_of_ne hj] using hreading
      obtain ⟨map, hvalue⟩ := h.reading j c hold
      exact ⟨map, by simpa [Function.update_of_ne (hcells c map hvalue)] using hvalue⟩

theorem Settled.step (h : Settled calls s) (hinv : CacheInv calls s)
    (hstep : CacheStep calls shard s e s') : Settled calls s' := by
  have hborrower : ∀ {i b : Nat} {next : Phase}, (s.phases i).borrowed = some b →
      ∀ url casPaths, s.entries url = some i →
        ((s.cells i).value = .available casPaths ↔ next = .returned (.ok casPaths)) :=
    fun hb url casPaths hc => absurd rfl (hinv.entry_ne_borrowed hb hc)
  cases hstep with
  | hit _ _ hphase =>
      exact h.setPhase (fun _ _ hc => absurd rfl (hinv.entry_ne_start hphase hc))
        (by simp) (by simp)
  | miss hcall _ hphase hentry _ hnext => exact h.miss hinv hcall hphase hentry hnext
  | block => exact ⟨h.owner, h.returned, h.reading⟩
  | external => exact ⟨h.owner, h.returned, h.reading⟩
  | @fetched i call now response next store hcall _ hphase hnext =>
      obtain ⟨⟨own, hown, hentry⟩, hprogress⟩ := hinv.producing i (by rw [hphase]; rfl)
      have hstored : Settled calls (s.setStore store) := ⟨h.owner, h.returned, h.reading⟩
      have hnot : (∀ casPaths, next ≠ .returned (.ok casPaths)) ∧ ∀ c, next ≠ .reading c := by
        rcases fetchedPhase_cases hnext with hp | ⟨error, rfl⟩
        · constructor <;> (rintro _ rfl; simp [Phase.producing] at hp)
        · simp
      apply hstored.setPhase
      · intro url casPaths _
        simp [hprogress, hnot.1]
      · intro callj result hcallj _
        obtain rfl : own = callj := by simpa [hown] using hcallj
        exact ⟨i, hentry, Or.inl rfl⟩
      · exact fun c hc => absurd hc (hnot.2 c)
  | @lock i cell _ hphase =>
      have hb : (s.phases i).borrowed = some cell := by rw [hphase]; rfl
      apply h.setPhase (hborrower hb)
      · intro call result hcall hreturned
        obtain ⟨own, hown, hentry⟩ := hinv.borrowed i cell hb
        obtain rfl : own = call := by simpa [hown] using hcall
        rcases lockedPhase_cases cell (s.cells cell) with ⟨casPaths, hvalue, heq⟩ | ⟨-, heq⟩
        · rw [heq] at hreturned
          cases hreturned
          exact ⟨cell, hentry, Or.inr ⟨casPaths, rfl, hvalue⟩⟩
        · simp [heq] at hreturned
      · intro c hc
        rcases lockedPhase_cases cell (s.cells cell) with ⟨_, -, heq⟩ | ⟨-, heq⟩ <;>
          simp [heq] at hc
  | @wake i cell seen _ hphase hnotified =>
      have hb : (s.phases i).borrowed = some cell := by rw [hphase]; rfl
      apply h.setPhase (hborrower hb) (by simp)
      intro c hc
      obtain rfl : cell = c := by simpa using hc
      obtain ⟨_, _, hentry⟩ := hinv.borrowed i cell hb
      cases hvalue : (s.cells cell).value with
      | available casPaths => exact ⟨casPaths, rfl⟩
      | inProgress =>
          have hzero := (hinv.notified _ cell hentry).mp hvalue
          omega
  | @reread i cell casPaths _ hphase hvalue =>
      have hb : (s.phases i).borrowed = some cell := by rw [hphase]; rfl
      apply h.setPhase (hborrower hb) _ (by simp)
      intro call result hcall hreturned
      obtain ⟨own, hown, hentry⟩ := hinv.borrowed i cell hb
      obtain rfl : own = call := by simpa [hown] using hcall
      cases hreturned
      exact ⟨cell, hentry, Or.inr ⟨casPaths, rfl, hvalue⟩⟩
  | publish _ hphase => exact h.publish hinv hphase

/-- One call works for a URL, and all others get what it has made. -/
structure OneProducer (calls : List (DownloadTarballToStore I)) (events : List (CacheEvent B))
    (s : CacheState B) : Prop where
  /-- one call looks the URL up in the store -/
  lookups : ∀ url, events.countP (CacheEvent.looksUp calls url) ≤ 1
  /-- the URL is downloaded at most once -/
  downloads : ∀ url, events.countP (CacheEvent.downloads calls url) ≤ 1
  /-- where the call that inserted the cell has succeeded, every call for the URL that
  returns returns its map -/
  result : ∀ i call c casPaths result, calls[i]? = some call →
    s.entries call.packageUrl = some c → s.phases c = .returned (.ok casPaths) →
      s.phases i = .returned result → result = .ok casPaths
  /-- a call that waits for an available cell has a notification to come -/
  woken : ∀ i c seen casPaths, s.phases i = .waiting c seen →
    (s.cells c).value = .available casPaths → seen < (s.cells c).notified
  /-- a call that was notified finds the map -/
  reread : ∀ i c, s.phases i = .reading c → ∃ casPaths, (s.cells c).value = .available casPaths

/-- In every run each URL has one producer, and no wake-up is lost. -/
theorem oneProducer_of_run {store : StoreFiles B} {events : List (CacheEvent B)}
    (run : CacheRun calls shard store events s) : OneProducer calls events s := by
  have hinv : ∀ url, CacheInv calls s ∧ Settled calls s ∧ ProducedOnce calls url events s := by
    intro url
    apply run.invariant_with_events
      (fun es t => CacheInv calls t ∧ Settled calls t ∧ ProducedOnce calls url es t)
    · exact ⟨CacheInv.initial calls store, Settled.initial store, ProducedOnce.initial store⟩
    · rintro es t e t' ⟨hinv, hsettled, honce⟩ hstep
      exact ⟨hinv.step hstep, hsettled.step hinv hstep, honce.step hinv hstep⟩
  obtain ⟨hcache, hsettled, -⟩ := hinv []
  refine ⟨fun url => (hinv url).2.2.lookups, fun url => (hinv url).2.2.downloads, ?_, ?_,
    hsettled.reading⟩
  · intro i call c casPaths result hcall hentry howner hreturned
    obtain ⟨c', hc', hcase⟩ := hsettled.returned i call result hcall hreturned
    obtain rfl : c = c' := by simpa [hentry] using hc'
    rcases hcase with rfl | ⟨map, rfl, hvalue⟩
    · rw [howner] at hreturned
      simpa using hreturned.symm
    · have hmap := (hsettled.owner _ c casPaths hentry).mpr howner
      rw [hvalue] at hmap
      cases hmap
      rfl
  · intro i c seen casPaths hphase hvalue
    obtain ⟨call, _, hentry⟩ := hcache.borrowed i c (by rw [hphase]; rfl)
    have hseen := hcache.waiting i c seen hphase
    have hnotified : (s.cells c).notified ≠ 0 := by
      intro hzero
      rw [(hcache.notified _ c hentry).mpr hzero] at hvalue
      cases hvalue
    omega

/-- The second call for a URL waits for the first one. -/
theorem oneProducer_twoCalls :
    ∃ s, CacheRun [sampleCall "package/index.js".toList, sampleCall "package/index.js".toList]
        (fun _ => 0) emptyStore [.miss 0 emptyStore .fetching, .hit 1, .lock 1] s ∧
      s.phases 1 = .waiting 0 0 ∧
      OneProducer [sampleCall "package/index.js".toList, sampleCall "package/index.js".toList]
        [.miss 0 emptyStore .fetching, .hit 1, .lock 1] s := by
  have hnext : lookupPhase (sampleCall "package/index.js".toList) emptyStore = some .fetching :=
    lookupPhase_of_supported sampleCall_supported _
  have hfree : ¬ ShardHeld [sampleCall "package/index.js".toList,
      sampleCall "package/index.js".toList] (fun _ => 0) (CacheState.initial emptyStore) 0 := by
    rintro ⟨i, call, -, hborrow, -⟩
    cases hborrow
  have hmiss : CacheRun [sampleCall "package/index.js".toList,
      sampleCall "package/index.js".toList] (fun _ => 0) emptyStore _ _ :=
    Run.nil.snoc (.miss (i := 0) rfl rfl rfl rfl hfree hnext)
  have hhit := hmiss.snoc (.hit (i := 1) rfl rfl rfl (show _ = some 0 from rfl))
  have hlock := hhit.snoc (.lock (i := 1) rfl (show _ = Phase.locking 0 from rfl))
  exact ⟨_, hlock, rfl, oneProducer_of_run hlock⟩

end Results

end Npnpm
