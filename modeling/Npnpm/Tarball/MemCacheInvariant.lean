import Npnpm.Tarball.Containment
import Npnpm.Tarball.MemCache

/-!
# The invariant of the cache

What holds between polls, whatever the calls are and however they interleave:
an entry belongs to a call that inserted it, a call that waits borrows the entry
of its own URL, and a call that still produces is the one its entry names.
-/

namespace Npnpm

section Phases

variable {I B : Type} [TarballLibs I B]

variable (B) in
/-- The index path of the call exists: its hash is SHA-1 or SHA-512. -/
def DownloadTarballToStore.Supported (call : DownloadTarballToStore I) : Prop :=
  ∃ path, indexFilePath B call.storeDir call.packageIntegrity = .ok path

theorem indexFilePath_error {storeDir : Text} {integrity : I} {abort : Abort}
    (h : indexFilePath B storeDir integrity = .error abort) : abort = .panic := by
  have hhex : ∀ hex, filePathByHexStr storeDir hex "-index.json".toList = .error abort →
      abort = .panic := by
    intro hex hpath
    unfold filePathByHexStr at hpath
    split at hpath
    · cases hpath
      rfl
    · cases hpath
  unfold indexFilePath at h
  split at h
  · exact hhex _ h
  · exact hhex _ h
  · cases h
    rfl

theorem supported_of_lookupPhase {call : DownloadTarballToStore I} {store : StoreFiles B}
    {next : Phase} (h : lookupPhase call store = some next) : call.Supported B := by
  cases hpath : indexFilePath B call.storeDir call.packageIntegrity with
  | ok path => exact ⟨path, hpath⟩
  | error abort =>
      rw [indexFilePath_error hpath] at hpath
      have hload : loadFromStore call store = .error .panic := by
        unfold loadFromStore readIndexFile
        rw [hpath]
        rfl
      rw [lookupPhase, hload] at h
      cases h

/-- A call whose index is in no store goes on to the network or fails. -/
theorem lookupPhase_of_supported {call : DownloadTarballToStore I}
    (h : call.Supported B) (failing : Text → Option Text) :
    lookupPhase call (⟨fun _ => none, failing⟩ : StoreFiles B) =
      some (match call.networkMode with
        | .offline => .returned (.error (.offlineCacheMiss call.packageUrl))
        | .online => .fetching) := by
  obtain ⟨path, hpath⟩ := h
  have hload : loadFromStore call (⟨fun _ => none, failing⟩ : StoreFiles B) = .ok none := by
    unfold loadFromStore readIndexFile
    rw [hpath]
    rfl
  unfold lookupPhase
  rw [hload]
  cases call.networkMode <;> rfl

theorem sampleCall_supported :
    (sampleCall "package/index.js".toList).Supported SampleBytes := by
  have hok : (indexFilePath SampleBytes "/store".toList
      (sampleCall "package/index.js".toList).packageIntegrity).toOption.isSome := by
    decide +kernel
  obtain ⟨path, hpath⟩ := Option.isSome_iff_exists.mp hok
  obtain ⟨path', hpath', -⟩ := Results.exists_of_toOption_map (f := id) (by rw [hpath]; rfl)
  exact ⟨path', hpath'⟩

theorem offlineCall_supported : offlineCall.Supported SampleBytes := sampleCall_supported

/-- The phases after a miss: the call produces, or it has failed. -/
theorem lookupPhase_cases {call : DownloadTarballToStore I} {store : StoreFiles B}
    {next : Phase} (h : lookupPhase call store = some next) :
    next.producing = true ∨ ∃ error, next = .returned (.error error) := by
  unfold lookupPhase at h
  split at h
  · cases h
    exact Or.inl rfl
  · split at h
    · cases h
      exact Or.inr ⟨_, rfl⟩
    · cases h
      exact Or.inl rfl
  · cases h
    exact Or.inr ⟨_, rfl⟩
  · cases h

theorem fetchedPhase_cases {call : DownloadTarballToStore I} {now : Option Nat}
    {store store' : StoreFiles B} {response : Except Text B} {next : Phase}
    (h : fetchedPhase call now store response = some (next, store')) :
    next.producing = true ∨ ∃ error, next = .returned (.error error) := by
  unfold fetchedPhase at h
  split at h
  · cases h
    exact Or.inl rfl
  · cases h
    exact Or.inr ⟨_, rfl⟩
  · cases h

theorem lockedPhase_cases (cell : Nat) (content : Cell) :
    (∃ casPaths, content.value = .available casPaths ∧
      lockedPhase cell content = .returned (.ok casPaths)) ∨
    (content.value = .inProgress ∧ lockedPhase cell content = .waiting cell content.notified) := by
  unfold lockedPhase
  cases hvalue : content.value with
  | available casPaths => exact Or.inl ⟨casPaths, rfl, rfl⟩
  | inProgress => exact Or.inr ⟨rfl, rfl⟩

theorem lockedPhase_ne_fetching (cell : Nat) (content : Cell) :
    lockedPhase cell content ≠ .fetching := by
  unfold lockedPhase
  split <;> simp

/-- Changing the phase of one call to another than the download. -/
theorem fetching_of_setPhase {s : CacheState B} {i j : Nat} {next : Phase}
    (hnext : next ≠ .fetching) (h : (s.setPhase i next).phases j = .fetching) :
    s.phases j = .fetching := by
  by_cases hj : j = i
  · subst hj
    rw [CacheState.setPhase_phases, Function.update_self] at h
    exact absurd h hnext
  · rwa [CacheState.setPhase_phases, Function.update_of_ne hj] at h

theorem Phase.not_borrowed_of_producing {p : Phase} (h : p.producing = true) :
    p.borrowed = none ∧ p ≠ .start := by
  cases p <;> simp_all [Phase.producing, Phase.borrowed]

end Phases

section Invariant

variable {I B : Type} [TarballLibs I B]

structure CacheInv (calls : List (DownloadTarballToStore I)) (s : CacheState B) : Prop where
  /-- an entry names a call for its URL that is past its lookup and borrows nothing -/
  entry : ∀ url c, s.entries url = some c →
    (∃ call, calls[c]? = some call ∧ call.packageUrl = url ∧ call.Supported B) ∧
      s.phases c ≠ .start ∧ (s.phases c).borrowed = none
  /-- a borrowed cell is the entry of the call's own URL -/
  borrowed : ∀ i c, (s.phases i).borrowed = some c →
    ∃ call, calls[i]? = some call ∧ s.entries call.packageUrl = some c
  /-- a producing call owns the entry of its URL, which is in progress -/
  producing : ∀ i, (s.phases i).producing = true →
    (∃ call, calls[i]? = some call ∧ s.entries call.packageUrl = some i) ∧
      (s.cells i).value = .inProgress
  /-- a cell is notified when its value becomes available, not before -/
  notified : ∀ url c, s.entries url = some c →
    ((s.cells c).value = .inProgress ↔ (s.cells c).notified = 0)
  /-- waiting starts before the first notification -/
  waiting : ∀ i c seen, s.phases i = .waiting c seen → seen = 0

variable {calls : List (DownloadTarballToStore I)} {s : CacheState B}

theorem CacheInv.initial (calls : List (DownloadTarballToStore I)) (store : StoreFiles B) :
    CacheInv calls (CacheState.initial store) where
  entry _ _ h := by cases h
  borrowed _ _ h := by cases h
  producing _ h := by cases h
  notified _ _ h := by cases h
  waiting _ _ _ h := by cases h

/-- A call goes from one phase to the next without touching the cache. -/
theorem CacheInv.setPhase (hinv : CacheInv calls s) {i : Nat} {next : Phase}
    (hstart : next ≠ .start)
    (hborrow : ∀ c, next.borrowed = some c →
      ∃ call, calls[i]? = some call ∧ s.entries call.packageUrl = some c)
    (hkind : s.phases i ≠ .start → (s.phases i).borrowed = none → next.borrowed = none)
    (hproducing : next.producing = true → (s.phases i).producing = true)
    (hwaiting : ∀ c seen, next = .waiting c seen → seen = 0) :
    CacheInv calls (s.setPhase i next) where
  entry url c h := by
    obtain ⟨hcall, hphase, hfree⟩ := hinv.entry url c h
    refine ⟨hcall, ?_⟩
    by_cases hc : c = i
    · subst hc
      simpa using ⟨hstart, hkind hphase hfree⟩
    · simpa [Function.update_of_ne hc] using ⟨hphase, hfree⟩
  borrowed j c h := by
    by_cases hj : j = i
    · subst hj
      simp only [CacheState.setPhase_phases, Function.update_self] at h
      exact hborrow c h
    · simp only [CacheState.setPhase_phases, Function.update_of_ne hj] at h
      exact hinv.borrowed j c h
  producing j h := by
    by_cases hj : j = i
    · subst hj
      simp only [CacheState.setPhase_phases, Function.update_self] at h
      exact hinv.producing j (hproducing h)
    · simp only [CacheState.setPhase_phases, Function.update_of_ne hj] at h
      exact hinv.producing j h
  notified url c h := hinv.notified url c h
  waiting j c seen h := by
    by_cases hj : j = i
    · subst hj
      simp only [CacheState.setPhase_phases, Function.update_self] at h
      exact hwaiting c seen h
    · simp only [CacheState.setPhase_phases, Function.update_of_ne hj] at h
      exact hinv.waiting j c seen h

theorem CacheInv.setStore (hinv : CacheInv calls s) (store : StoreFiles B) :
    CacheInv calls (s.setStore store) :=
  ⟨hinv.entry, hinv.borrowed, hinv.producing, hinv.notified, hinv.waiting⟩

/-- A call that has not started owns no entry. -/
theorem CacheInv.entry_ne_start (hinv : CacheInv calls s) {i c : Nat} {url : Text}
    (hstart : s.phases i = .start) (hentry : s.entries url = some c) : c ≠ i := by
  rintro rfl
  exact (hinv.entry url c hentry).2.1 hstart

/-- A call that borrows an entry owns none. -/
theorem CacheInv.entry_ne_borrowed (hinv : CacheInv calls s) {i c b : Nat} {url : Text}
    (hborrow : (s.phases i).borrowed = some b) (hentry : s.entries url = some c) : c ≠ i := by
  rintro rfl
  rw [(hinv.entry url c hentry).2.2] at hborrow
  cases hborrow

theorem CacheInv.miss (hinv : CacheInv calls s) {i : Nat} {call : DownloadTarballToStore I}
    {next : Phase} (hcall : calls[i]? = some call) (hphase : s.phases i = .start)
    (hentry : s.entries call.packageUrl = none)
    (hnext : lookupPhase call s.store = some next) :
    CacheInv calls
      (((s.setEntry call.packageUrl i).setCell i ⟨.inProgress, 0⟩).setPhase i next) := by
  have hfree : next.borrowed = none ∧ next ≠ .start := by
    rcases lookupPhase_cases hnext with h | ⟨error, rfl⟩
    · exact Phase.not_borrowed_of_producing h
    · exact ⟨rfl, by simp⟩
  have hother : ∀ url c, url ≠ call.packageUrl →
      Function.update s.entries call.packageUrl (some i) url = some c →
        s.entries url = some c ∧ c ≠ i := by
    intro url c hurl h
    rw [Function.update_of_ne hurl] at h
    exact ⟨h, hinv.entry_ne_start hphase h⟩
  have hkept : ∀ url c, s.entries url = some c →
      Function.update s.entries call.packageUrl (some i) url = some c := by
    intro url c h
    have hurl : url ≠ call.packageUrl := by
      rintro rfl
      rw [hentry] at h
      cases h
    rwa [Function.update_of_ne hurl]
  constructor
  · intro url c h
    by_cases hurl : url = call.packageUrl
    · subst hurl
      simp only [CacheState.setPhase_entries, CacheState.setCell_entries,
        CacheState.setEntry_entries, Function.update_self, Option.some.injEq] at h
      subst h
      refine ⟨⟨call, hcall, rfl, supported_of_lookupPhase hnext⟩, ?_⟩
      simpa using ⟨hfree.2, hfree.1⟩
    · obtain ⟨hold, hne⟩ := hother url c hurl h
      simpa [Function.update_of_ne hne] using hinv.entry url c hold
  · intro j c h
    have hj : j ≠ i := by
      rintro rfl
      simp [hfree.1] at h
    simp only [CacheState.setPhase_phases, Function.update_of_ne hj, CacheState.setCell_phases,
      CacheState.setEntry_phases] at h
    obtain ⟨callj, hcallj, hentryj⟩ := hinv.borrowed j c h
    exact ⟨callj, hcallj, hkept _ _ hentryj⟩
  · intro j h
    by_cases hj : j = i
    · subst hj
      exact ⟨⟨call, hcall, by simp⟩, by simp⟩
    · simp only [CacheState.setPhase_phases, Function.update_of_ne hj, CacheState.setCell_phases,
        CacheState.setEntry_phases] at h
      obtain ⟨⟨callj, hcallj, hentryj⟩, hvalue⟩ := hinv.producing j h
      exact ⟨⟨callj, hcallj, hkept _ _ hentryj⟩, by simpa [Function.update_of_ne hj] using hvalue⟩
  · intro url c h
    by_cases hurl : url = call.packageUrl
    · subst hurl
      simp only [CacheState.setPhase_entries, CacheState.setCell_entries,
        CacheState.setEntry_entries, Function.update_self, Option.some.injEq] at h
      subst h
      simp
    · obtain ⟨hold, hne⟩ := hother url c hurl h
      simpa [Function.update_of_ne hne] using hinv.notified url c hold
  · intro j c seen h
    have hj : j ≠ i := by
      rintro rfl
      simp only [CacheState.setPhase_phases, Function.update_self] at h
      rw [h] at hfree
      cases hfree.1
    simp only [CacheState.setPhase_phases, Function.update_of_ne hj, CacheState.setCell_phases,
      CacheState.setEntry_phases] at h
    exact hinv.waiting j c seen h

theorem CacheInv.publish (hinv : CacheInv calls s) {i : Nat} {casPaths : CasPaths}
    (hphase : s.phases i = .publishing casPaths) :
    CacheInv calls ((s.setCell i ⟨.available casPaths, (s.cells i).notified + 1⟩).setPhase i
      (.returned (.ok casPaths))) := by
  have hphases : ∀ j, j ≠ i →
      ((s.setCell i ⟨.available casPaths, (s.cells i).notified + 1⟩).setPhase i
        (.returned (.ok casPaths))).phases j = s.phases j := fun j hj => by
    simp [Function.update_of_ne hj]
  constructor
  · intro url c h
    obtain ⟨hcall, hstart, hfree⟩ := hinv.entry url c h
    refine ⟨hcall, ?_⟩
    by_cases hc : c = i
    · subst hc
      simp [Phase.borrowed]
    · rw [hphases c hc]
      exact ⟨hstart, hfree⟩
  · intro j c h
    by_cases hj : j = i
    · subst hj
      simp [Phase.borrowed] at h
    · rw [hphases j hj] at h
      exact hinv.borrowed j c h
  · intro j h
    by_cases hj : j = i
    · subst hj
      simp [Phase.producing] at h
    · rw [hphases j hj] at h
      obtain ⟨hcall, hvalue⟩ := hinv.producing j h
      exact ⟨hcall, by simpa [Function.update_of_ne hj] using hvalue⟩
  · intro url c h
    by_cases hc : c = i
    · subst hc
      simp
    · simpa [Function.update_of_ne hc] using hinv.notified url c h
  · intro j c seen h
    by_cases hj : j = i
    · subst hj
      simp at h
    · rw [hphases j hj] at h
      exact hinv.waiting j c seen h

/-- Every step keeps the invariant. -/
theorem CacheInv.step {shard : Text → Nat} {e : CacheEvent B} {s' : CacheState B}
    (hinv : CacheInv calls s) (h : CacheStep calls shard s e s') : CacheInv calls s' := by
  cases h with
  | @hit i call cell hcall _ hphase hentry =>
      exact hinv.setPhase (by simp)
        (fun c hc => ⟨call, hcall, by rw [hentry]; exact hc⟩)
        (fun hne => absurd hphase hne) (by simp [Phase.producing]) (by simp)
  | miss hcall _ hphase hentry _ hnext => exact hinv.miss hcall hphase hentry hnext
  | block => exact ⟨hinv.entry, hinv.borrowed, hinv.producing, hinv.notified, hinv.waiting⟩
  | @fetched i call now response next store hcall _ hphase hnext =>
      have hfree : next.borrowed = none ∧ next ≠ .start := by
        rcases fetchedPhase_cases hnext with h | ⟨error, rfl⟩
        · exact Phase.not_borrowed_of_producing h
        · exact ⟨rfl, by simp⟩
      refine (hinv.setStore store).setPhase hfree.2 (fun c hc => ?_) (fun _ _ => hfree.1)
        (fun _ => ?_) (fun c seen hw => ?_)
      · rw [hfree.1] at hc
        cases hc
      · simp [hphase, Phase.producing]
      · rw [hw] at hfree
        cases hfree.1
  | @lock i cell _ hphase =>
      obtain ⟨call, hcall, hentry⟩ := hinv.borrowed i cell (by rw [hphase]; rfl)
      rcases lockedPhase_cases cell (s.cells cell) with ⟨casPaths, -, h⟩ | ⟨hvalue, h⟩ <;> rw [h]
      · exact hinv.setPhase (by simp) (by simp [Phase.borrowed]) (by simp [Phase.borrowed])
          (by simp [Phase.producing]) (by simp)
      · refine hinv.setPhase (by simp) (fun c hc => ⟨call, hcall, by rw [hentry]; exact hc⟩)
          (fun _ hb => ?_) (by simp [Phase.producing]) (fun c seen hw => ?_)
        · rw [hphase] at hb
          cases hb
        · cases hw
          exact (hinv.notified _ _ hentry).mp hvalue
  | @wake i cell seen _ hphase _ =>
      obtain ⟨call, hcall, hentry⟩ := hinv.borrowed i cell (by rw [hphase]; rfl)
      refine hinv.setPhase (by simp) (fun c hc => ⟨call, hcall, by rw [hentry]; exact hc⟩)
        (fun _ hb => ?_) (by simp [Phase.producing]) (by simp)
      rw [hphase] at hb
      cases hb
  | reread =>
      exact hinv.setPhase (by simp) (by simp [Phase.borrowed]) (by simp [Phase.borrowed])
        (by simp [Phase.producing]) (by simp)
  | publish _ hphase => exact hinv.publish hphase
  | external => exact hinv.setStore _

end Invariant

end Npnpm
