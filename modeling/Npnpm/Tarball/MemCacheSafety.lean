import Npnpm.Tarball.Containment
import Npnpm.Tarball.MemCacheInvariant

/-!
# What the cache promises

Two promises of the cache, with the runs that keep them: an entry in progress is
being worked on, and the thread is never blocked.
-/

namespace Npnpm

section Progress

variable {I B : Type} [TarballLibs I B]

/-- A step in which a call that inserted a cell returns an error. -/
def CacheEvent.Fails : CacheEvent B → Prop
  | .miss _ _ (.returned (.error _)) => True
  | .fetched _ _ (.returned (.error _)) => True
  | _ => False

/-- Every entry in progress has a producing call that has not returned, and every
waiting call waits for one or has been notified. -/
structure Served (s : CacheState B) : Prop where
  entry : ∀ url c, s.entries url = some c → (s.cells c).value = .inProgress →
    (s.phases c).producing = true
  waiter : ∀ i c seen, s.phases i = .waiting c seen →
    (s.phases c).producing = true ∨ seen < (s.cells c).notified

/-- An entry whose call has failed: it stays in progress for good. -/
def Stuck (s : CacheState B) : Prop :=
  ∃ url i error, s.entries url = some i ∧ (s.cells i).value = .inProgress ∧
    s.phases i = .returned (.error error)

variable {calls : List (DownloadTarballToStore I)} {shard : Text → Nat} {s s' : CacheState B}
  {e : CacheEvent B}

theorem CacheInv.served_of_entry (hinv : CacheInv calls s)
    (hentry : ∀ url c, s.entries url = some c → (s.cells c).value = .inProgress →
      (s.phases c).producing = true) : Served s where
  entry := hentry
  waiter i c seen h := by
    obtain ⟨call, _, hc⟩ := hinv.borrowed i c (by rw [h]; rfl)
    by_cases hvalue : (s.cells c).value = .inProgress
    · exact Or.inl (hentry _ c hc hvalue)
    · have hseen := hinv.waiting i c seen h
      have hnotified : (s.cells c).notified ≠ 0 := fun h0 =>
        hvalue ((hinv.notified _ c hc).mpr h0)
      exact Or.inr (by omega)

/-- A call that owns no entry changes its phase. -/
theorem entry_served_setPhase {i : Nat} {next : Phase}
    (hother : ∀ url c, s.entries url = some c → c ≠ i)
    (hserved : ∀ url c, s.entries url = some c → (s.cells c).value = .inProgress →
      (s.phases c).producing = true) :
    ∀ url c, (s.setPhase i next).entries url = some c →
      ((s.setPhase i next).cells c).value = .inProgress →
        ((s.setPhase i next).phases c).producing = true := by
  intro url c hc hvalue
  simpa [Function.update_of_ne (hother url c hc)] using hserved url c hc hvalue

/-- Every step but a failure keeps the entries served. -/
theorem CacheInv.entry_served_step (hinv : CacheInv calls s) (h : CacheStep calls shard s e s')
    (hok : ¬ e.Fails)
    (hserved : ∀ url c, s.entries url = some c → (s.cells c).value = .inProgress →
      (s.phases c).producing = true) :
    ∀ url c, s'.entries url = some c → (s'.cells c).value = .inProgress →
      (s'.phases c).producing = true := by
  cases h with
  | hit _ _ hphase _ =>
      exact entry_served_setPhase (fun _ _ hc => hinv.entry_ne_start hphase hc) hserved
  | @miss i call next hcall _ hphase hentry _ hnext =>
      intro url c hc hvalue
      by_cases hurl : url = call.packageUrl
      · subst hurl
        simp only [CacheState.setPhase_entries, CacheState.setCell_entries,
          CacheState.setEntry_entries, Function.update_self, Option.some.injEq] at hc
        subst hc
        rcases lookupPhase_cases hnext with hp | ⟨error, rfl⟩
        · simpa using hp
        · exact absurd trivial hok
      · simp only [CacheState.setPhase_entries, CacheState.setCell_entries,
          CacheState.setEntry_entries, Function.update_of_ne hurl] at hc
        have hne := hinv.entry_ne_start hphase hc
        simp only [CacheState.setPhase_cells, CacheState.setCell_cells,
          CacheState.setEntry_cells, Function.update_of_ne hne] at hvalue
        simpa [Function.update_of_ne hne] using hserved url c hc hvalue
  | block => exact hserved
  | @fetched i call now response next store _ _ hphase hnext =>
      intro url c hc hvalue
      by_cases hci : c = i
      · subst hci
        rcases fetchedPhase_cases hnext with hp | ⟨error, rfl⟩
        · simpa using hp
        · exact absurd trivial hok
      · simpa [Function.update_of_ne hci] using hserved url c hc hvalue
  | @lock i cell _ hphase =>
      exact entry_served_setPhase
        (fun _ _ hc => hinv.entry_ne_borrowed (by rw [hphase]; rfl) hc) hserved
  | @wake i cell seen _ hphase _ =>
      exact entry_served_setPhase
        (fun _ _ hc => hinv.entry_ne_borrowed (by rw [hphase]; rfl) hc) hserved
  | @reread i cell casPaths _ hphase _ =>
      exact entry_served_setPhase
        (fun _ _ hc => hinv.entry_ne_borrowed (by rw [hphase]; rfl) hc) hserved
  | @publish i casPaths _ hphase =>
      intro url c hc hvalue
      by_cases hci : c = i
      · subst hci
        simp at hvalue
      · simp only [CacheState.setPhase_cells, CacheState.setCell_cells,
          Function.update_of_ne hci] at hvalue
        simpa [Function.update_of_ne hci] using hserved url c hc hvalue
  | external => exact hserved

/-- A failure leaves its entry behind. -/
theorem CacheInv.stuck_of_fails (hinv : CacheInv calls s) (h : CacheStep calls shard s e s')
    (hfails : e.Fails) : Stuck s' := by
  cases h with
  | hit => exact hfails.elim
  | @miss i call next _ _ _ _ _ hnext =>
      rcases lookupPhase_cases hnext with hp | ⟨error, rfl⟩
      · cases next <;> simp_all [Phase.producing, CacheEvent.Fails]
      · exact ⟨call.packageUrl, i, error, by simp, by simp, by simp⟩
  | block => exact hfails.elim
  | @fetched i call now response next store _ _ hphase hnext =>
      rcases fetchedPhase_cases hnext with hp | ⟨error, rfl⟩
      · cases next <;> simp_all [Phase.producing, CacheEvent.Fails]
      · obtain ⟨⟨call', _, hentry⟩, hvalue⟩ := hinv.producing i (by rw [hphase]; rfl)
        exact ⟨call'.packageUrl, i, error, by simpa using hentry, by simpa using hvalue, by simp⟩
  | lock => exact hfails.elim
  | wake => exact hfails.elim
  | reread => exact hfails.elim
  | publish => exact hfails.elim
  | external => exact hfails.elim

theorem stuck_setPhase {i : Nat} {next : Phase}
    (hphase : ∀ result, s.phases i ≠ .returned result) (h : Stuck s) :
    Stuck (s.setPhase i next) := by
  obtain ⟨url, j, error, hentry, hvalue, hj⟩ := h
  have hne : j ≠ i := by
    rintro rfl
    exact hphase _ hj
  exact ⟨url, j, error, hentry, hvalue, by simpa [Function.update_of_ne hne] using hj⟩

/-- No step completes what a failed call left behind. -/
theorem stuck_step (h : CacheStep calls shard s e s') (hstuck : Stuck s) : Stuck s' := by
  cases h with
  | hit _ _ hphase _ => exact stuck_setPhase (by simp [hphase]) hstuck
  | @miss i call next hcall _ hphase hentry _ hnext =>
      obtain ⟨url, j, error, hj, hvalue, hreturned⟩ := hstuck
      have hne : j ≠ i := by
        rintro rfl
        rw [hphase] at hreturned
        cases hreturned
      have hurl : url ≠ call.packageUrl := by
        rintro rfl
        rw [hentry] at hj
        cases hj
      exact ⟨url, j, error, by simpa [Function.update_of_ne hurl] using hj,
        by simpa [Function.update_of_ne hne] using hvalue,
        by simpa [Function.update_of_ne hne] using hreturned⟩
  | block => exact hstuck
  | fetched _ _ hphase _ =>
      exact stuck_setPhase (s := s.setStore _) (by simp [hphase]) hstuck
  | lock _ hphase => exact stuck_setPhase (by simp [hphase]) hstuck
  | wake _ hphase _ => exact stuck_setPhase (by simp [hphase]) hstuck
  | reread _ hphase _ => exact stuck_setPhase (by simp [hphase]) hstuck
  | @publish i casPaths _ hphase =>
      obtain ⟨url, j, error, hj, hvalue, hreturned⟩ := hstuck
      have hne : j ≠ i := by
        rintro rfl
        rw [hphase] at hreturned
        cases hreturned
      exact ⟨url, j, error, hj, by simpa [Function.update_of_ne hne] using hvalue,
        by simpa [Function.update_of_ne hne] using hreturned⟩
  | external => exact hstuck

/-- In every run, the entries in progress are being worked on exactly as long as
no call that inserted one has failed. -/
theorem served_iff_no_failure (calls : List (DownloadTarballToStore I)) (shard : Text → Nat)
    (store : StoreFiles B) (events : List (CacheEvent B)) (s : CacheState B)
    (run : CacheRun calls shard store events s) :
    Served s ↔ ∀ e ∈ events, ¬ e.Fails := by
  constructor
  · intro hserved e he hfails
    have hstuck : (∃ e ∈ events, e.Fails) → Stuck s :=
      (run.invariant_with_events
        (fun es t => CacheInv calls t ∧ ((∃ e ∈ es, e.Fails) → Stuck t))
        ⟨CacheInv.initial calls store, by simp⟩
        (fun es t e t' hinv h => ⟨hinv.1.step h, fun hbad => by
          by_cases he : e.Fails
          · exact hinv.1.stuck_of_fails h he
          · obtain ⟨e', he', hf⟩ := hbad
            rcases List.mem_append.mp he' with hin | hin
            · exact stuck_step h (hinv.2 ⟨e', hin, hf⟩)
            · rw [List.mem_singleton.mp hin] at hf
              exact absurd hf he⟩)).2
    obtain ⟨url, i, error, hentry, hvalue, hphase⟩ := hstuck ⟨e, he, hfails⟩
    have hproducing := hserved.entry url i hentry hvalue
    rw [hphase] at hproducing
    cases hproducing
  · intro hok
    have hboth := run.invariant_of_forall (fun t => CacheInv calls t ∧
        ∀ url c, t.entries url = some c → (t.cells c).value = .inProgress →
          (t.phases c).producing = true) hok
      ⟨CacheInv.initial calls store, fun _ _ h => by cases h⟩
      (fun t e t' hinv hok h => ⟨hinv.1.step h, hinv.1.entry_served_step h hok hinv.2⟩)
    exact hboth.1.served_of_entry hboth.2

theorem served_fetching :
    ∃ s, CacheRun [sampleCall "package/index.js".toList] (fun _ => 0) emptyStore
        [.miss 0 emptyStore .fetching] s ∧
      (Served s ↔ ∀ e ∈ [CacheEvent.miss 0 emptyStore .fetching], ¬ e.Fails) := by
  have hnext : lookupPhase (sampleCall "package/index.js".toList) emptyStore = some .fetching :=
    lookupPhase_of_supported sampleCall_supported _
  have hfree : ¬ ShardHeld [sampleCall "package/index.js".toList] (fun _ => 0)
      (CacheState.initial emptyStore) 0 := by
    rintro ⟨i, call, -, hborrow, -⟩
    cases hborrow
  have run : CacheRun [sampleCall "package/index.js".toList] (fun _ => 0) emptyStore
      [.miss 0 emptyStore .fetching] _ := Run.nil.snoc (.miss (i := 0) rfl rfl rfl rfl hfree hnext)
  exact ⟨_, run, served_iff_no_failure _ _ _ _ _ run⟩

/-- Offline and without the index, the first call fails and the second waits for
a call that has returned. -/
theorem not_served_offline :
    ∃ events s, CacheRun [offlineCall, offlineCall] (fun _ => 0) emptyStore events s ∧
      s.phases 0 = .returned (.error (.offlineCacheMiss offlineCall.packageUrl)) ∧
      s.phases 1 = .waiting 0 0 ∧ ¬ Served s := by
  have hnext : lookupPhase offlineCall emptyStore =
      some (.returned (.error (.offlineCacheMiss offlineCall.packageUrl))) :=
    lookupPhase_of_supported offlineCall_supported _
  have hfree : ¬ ShardHeld [offlineCall, offlineCall] (fun _ => 0)
      (CacheState.initial emptyStore) 0 := by
    rintro ⟨i, call, -, hborrow, -⟩
    cases hborrow
  have hmiss : CacheRun [offlineCall, offlineCall] (fun _ => 0) emptyStore _ _ :=
    Run.nil.snoc (.miss (i := 0) rfl rfl rfl rfl hfree hnext)
  have hhit := hmiss.snoc (.hit (i := 1) rfl rfl rfl (show _ = some 0 from rfl))
  have hlock := hhit.snoc (.lock (i := 1) rfl (show _ = Phase.locking 0 from rfl))
  refine ⟨_, _, hlock, rfl, rfl, ?_⟩
  intro hserved
  exact Bool.noConfusion (hserved.entry offlineCall.packageUrl 0 rfl rfl)

end Progress

section Blocking

variable {I B : Type} [TarballLibs I B]

variable (B) in
/-- Two calls with one URL, one of them with a hash the store supports, and a
call with another URL in the same shard. -/
def ShardClash (calls : List (DownloadTarballToStore I)) (shard : Text → Nat) : Prop :=
  ∃ (i j k : Nat) (ci cj ck : DownloadTarballToStore I), i ≠ j ∧ calls[i]? = some ci ∧
    calls[j]? = some cj ∧ calls[k]? = some ck ∧ ci.Supported B ∧
    cj.packageUrl = ci.packageUrl ∧ ck.packageUrl ≠ ci.packageUrl ∧
    shard ck.packageUrl = shard ci.packageUrl

variable {calls : List (DownloadTarballToStore I)} {shard : Text → Nat} {s : CacheState B}

/-- A shard is held where a new URL wants to go: that takes three calls. -/
theorem CacheInv.clash_of_shardHeld (hinv : CacheInv calls s) {k : Nat}
    {ck : DownloadTarballToStore I} (hk : calls[k]? = some ck)
    (hentry : s.entries ck.packageUrl = none)
    (hheld : ShardHeld calls shard s (shard ck.packageUrl)) : ShardClash B calls shard := by
  obtain ⟨j, cj, hj, hborrow, hshard⟩ := hheld
  obtain ⟨c, hc⟩ := Option.isSome_iff_exists.mp hborrow
  obtain ⟨cj', hj', hcell⟩ := hinv.borrowed j c hc
  rw [hj, Option.some.injEq] at hj'
  subst hj'
  obtain ⟨⟨ci, hi, hurl, hsupported⟩, -, hfree⟩ := hinv.entry _ c hcell
  refine ⟨c, j, k, ci, cj, ck, ?_, hi, hj, hk, hsupported, hurl.symm, ?_, ?_⟩
  · rintro rfl
    rw [hfree] at hc
    cases hc
  · intro heq
    rw [heq, hurl, hcell] at hentry
    cases hentry
  · rw [hurl, hshard]

/-- Three such calls can block the thread: the first inserts, the second borrows
its entry, and the third wants to insert beside it. -/
theorem exists_blocked_of_clash (store : StoreFiles B) (h : ShardClash B calls shard) :
    ∃ events s, CacheRun calls shard store events s ∧ s.blocked ≠ none := by
  obtain ⟨i, j, k, ci, cj, ck, hij, hi, hj, hk, hsupported, hurl, hother, hshard⟩ := h
  have hnext := lookupPhase_of_supported hsupported store.failing
  have hki : k ≠ i := by
    rintro rfl
    rw [hi, Option.some.injEq] at hk
    exact hother (by rw [hk])
  have hkj : k ≠ j := by
    rintro rfl
    rw [hj, Option.some.injEq] at hk
    exact hother (by rw [← hk, hurl])
  have hnobody : ∀ t : CacheState B, (∀ m, t.phases m = .start) →
      ¬ ShardHeld calls shard t (shard ci.packageUrl) := by
    rintro t ht ⟨m, c, -, hm, -⟩
    rw [ht m] at hm
    cases hm
  have hexternal : CacheStep calls shard (CacheState.initial store) .external
      ((CacheState.initial store).setStore ⟨fun _ => none, store.failing⟩) := .external
  have hmiss := (Run.nil.snoc hexternal).snoc
    (.miss hi rfl rfl rfl (hnobody _ fun _ => rfl) hnext)
  have hhit := hmiss.snoc (.hit hj rfl
    (by simp [Function.update_of_ne hij.symm, CacheState.initial])
    (show _ = some i by simp [hurl]))
  have hblock := hhit.snoc (.block hk rfl
    (by simp [Function.update_of_ne hki, Function.update_of_ne hkj, CacheState.initial])
    (by simp [Function.update_of_ne hother, CacheState.initial])
    ⟨j, cj, hj, by simp [Phase.borrowed], by rw [hurl, hshard]⟩)
  exact ⟨_, _, hblock, by simp⟩

variable (calls shard) in
/-- No reachable state is deadlocked exactly when no three calls clash. -/
theorem never_blocked_iff (store : StoreFiles B) :
    (∀ events s, CacheRun calls shard store events s → s.blocked = none) ↔
      ¬ ShardClash B calls shard := by
  constructor
  · intro hfree hclash
    obtain ⟨events, s, run, hblocked⟩ := exists_blocked_of_clash store hclash
    exact hblocked (hfree events s run)
  · intro hclash events s run
    have hboth := run.invariant (fun t => CacheInv calls t ∧ t.blocked = none)
      ⟨CacheInv.initial calls store, rfl⟩
      (fun t e t' hinv h => ⟨hinv.1.step h, by
        cases h with
        | block hcall _ _ hentry hshard =>
            exact absurd (hinv.1.clash_of_shardHeld hcall hentry hshard) hclash
        | hit => exact hinv.2
        | miss => exact hinv.2
        | fetched => exact hinv.2
        | lock => exact hinv.2
        | wake => exact hinv.2
        | reread => exact hinv.2
        | publish => exact hinv.2
        | external => exact hinv.2⟩)
    exact hboth.2

/-- Two calls for one tarball and one for another, in a cache of one shard. -/
theorem blocked_three_calls :
    ∃ events s, CacheRun [offlineCall, offlineCall, otherCall] (fun _ => 0) emptyStore events s ∧
      s.blocked ≠ none :=
  exists_blocked_of_clash emptyStore ⟨0, 1, 2, offlineCall, offlineCall, otherCall, by decide,
    rfl, rfl, rfl, offlineCall_supported, rfl, by decide, rfl⟩

end Blocking

end Npnpm
