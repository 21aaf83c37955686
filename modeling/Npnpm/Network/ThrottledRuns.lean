import Npnpm.Network.ThrottledClient
import Npnpm.Tarball.Containment

/-!
# What throttling changes

The permits decide when a request goes out and nothing else: the calls of the cache can do under
a throttled client exactly what they can do without one. A call that waits for a permit is
never what the others wait for.
-/

namespace Npnpm

section Runs

variable {I B M S : Type} [TarballLibs I B] [Semaphore S (Nat ⊕ M)]
  {calls : List (DownloadTarballToStore I)} {shard : Text → Nat} {s s' : ThrottledState B S}
  {e : ThrottledEvent B M}

theorem ThrottledStep.cacheStep (h : ThrottledStep calls shard s e s') :
    (∀ e', e.cacheEvent = some e' → CacheStep calls shard s.cache e' s'.cache) ∧
      (e.cacheEvent = none → s'.cache = s.cache) := by
  cases h with
  | poll h _ _ => exact ⟨fun e' he => Option.some.inj he ▸ h, fun he => (by cases he)⟩
  | request h _ => exact ⟨fun e' he => Option.some.inj he ▸ h, fun he => (by cases he)⟩
  | failed h _ => exact ⟨fun e' he => Option.some.inj he ▸ h, fun he => (by cases he)⟩
  | sent _ _ => exact ⟨fun e' he => (by cases he), fun _ => rfl⟩
  | ask _ _ => exact ⟨fun e' he => (by cases he), fun _ => rfl⟩
  | answer _ _ => exact ⟨fun e' he => (by cases he), fun _ => rfl⟩

/-- No step loses a permit or makes one up. -/
theorem ThrottledStep.permits (h : ThrottledStep calls shard s e s') :
    Semaphore.permits s'.semaphore = Semaphore.permits s.semaphore := by
  cases h with
  | poll _ _ _ => rfl
  | request _ hnew => exact Semaphore.permits_acquire hnew
  | sent _ hheld => exact Semaphore.permits_release hheld
  | failed _ hheld => exact Semaphore.permits_release hheld
  | ask _ hnew => exact Semaphore.permits_acquire hnew
  | answer _ hheld => exact Semaphore.permits_release hheld

theorem ThrottledRun.permits_pos {cpus : Nat} {store : StoreFiles B}
    {events : List (ThrottledEvent B M)} (run : ThrottledRun calls shard cpus store events s) :
    0 < Semaphore.permits s.semaphore := by
  refine run.invariant (fun t => 0 < Semaphore.permits t.semaphore) ?_
    fun _ _ _ hpos h => by rwa [h.permits]
  change 0 < Semaphore.permits (Semaphore.new (max cpus 16) : S)
  rw [Semaphore.permits_new]
  exact Nat.lt_of_lt_of_le (by decide) (Nat.le_max_right cpus 16)

variable (calls shard) in
/-- What holds a permit can give it back, while the calls stay where they are. -/
theorem exists_release (hfree : s.cache.blocked = none) {c : Nat ⊕ M}
    (hc : c ∈ Semaphore.holders s.semaphore) :
    ∃ e : ThrottledEvent B M, e.cacheEvent = none ∧
      ThrottledStep calls shard s e ⟨s.cache, Semaphore.release s.semaphore c hc⟩ := by
  cases c with
  | inl i => exact ⟨.sent i, rfl, .sent hfree hc⟩
  | inr m => exact ⟨.answer m, rfl, .answer hfree hc⟩

variable (calls shard) in
/-- All requests can be answered before any call goes on. -/
theorem exists_drained (n : Nat) : ∀ s : ThrottledState B S, Semaphore.pending s.semaphore = n →
    s.cache.blocked = none → 0 < Semaphore.permits s.semaphore →
    ∃ (events : List (ThrottledEvent B M)) (semaphore : S),
      Run (ThrottledStep calls shard) s events ⟨s.cache, semaphore⟩ ∧
        events.filterMap ThrottledEvent.cacheEvent = [] ∧ Semaphore.Idle semaphore ∧
        Semaphore.permits semaphore = Semaphore.permits s.semaphore := by
  induction n using Nat.strongRecOn with
  | ind n ih =>
      intro s hn hfree hpermits
      cases hholders : Semaphore.holders s.semaphore with
      | nil =>
          have havail : 0 < Semaphore.available s.semaphore := by
            rwa [Semaphore.available_of_holders_nil hholders]
          exact ⟨[], s.semaphore, .nil, rfl,
            ⟨hholders, Semaphore.waiters_of_free _ havail⟩, rfl⟩
      | cons c rest =>
          have hc : c ∈ Semaphore.holders s.semaphore := by
            rw [hholders]
            exact List.mem_cons_self
          obtain ⟨e, he, hstep⟩ := exists_release calls shard hfree hc
          have hkept := Semaphore.permits_release hc
          obtain ⟨events, semaphore, hrun, hevents, hidle, htotal⟩ :=
            ih _ (hn ▸ Semaphore.pending_release hc)
              ⟨s.cache, Semaphore.release s.semaphore c hc⟩ rfl hfree (by rwa [hkept])
          refine ⟨e :: events, semaphore, ?_, ?_, hidle, htotal.trans hkept⟩
          · exact (Run.nil.snoc hstep).append hrun
          · rw [List.filterMap_cons_none he, hevents]

/-- With no request out, a step of the cache is taken as it is; a new download is answered at
once. -/
theorem exists_step_of_idle (hidle : Semaphore.Idle s.semaphore)
    (hpermits : 0 < Semaphore.permits s.semaphore) {e : CacheEvent B} {cache : CacheState B}
    (h : CacheStep calls shard s.cache e cache) :
    ∃ (events : List (ThrottledEvent B M)) (semaphore : S),
      Run (ThrottledStep calls shard) s events ⟨cache, semaphore⟩ ∧
        events.filterMap ThrottledEvent.cacheEvent = [e] := by
  cases hbegins : e.begins with
  | none =>
      exact ⟨[.poll e], s.semaphore,
        Run.nil.snoc (.poll h hbegins fun i _ => hidle.not_knows (.inl i)), rfl⟩
  | some i =>
      obtain ⟨store, rfl⟩ : ∃ store, e = .miss i store .fetching := by
        cases e with
        | miss call store next =>
            cases next <;> simp_all [CacheEvent.begins]
        | _ => cases hbegins
      have hnew := hidle.not_knows (.inl i)
      have havail : 0 < Semaphore.available s.semaphore := by
        rwa [Semaphore.available_of_holders_nil hidle.1]
      have hrequest := Run.nil.snoc (ThrottledStep.request h hnew)
      have hfree : cache.blocked = none := by
        cases h with
        | miss _ hfree _ _ _ _ => exact hfree
      have hheld : .inl i ∈ Semaphore.holders (Semaphore.acquire s.semaphore (.inl i) hnew) :=
        (Semaphore.acquire_of_free _ _ hnew havail).2.1.mem_iff.mpr List.mem_cons_self
      exact ⟨_, _, hrequest.snoc (.sent hfree hheld), rfl⟩

/-- A step that the cache can take is taken after some answers, whatever the requests that are
out or wait. -/
theorem exists_steps (hpermits : 0 < Semaphore.permits s.semaphore) {e : CacheEvent B}
    {cache : CacheState B} (h : CacheStep calls shard s.cache e cache) :
    ∃ (events : List (ThrottledEvent B M)) (s' : ThrottledState B S),
      Run (ThrottledStep calls shard) s events s' ∧
        events.filterMap ThrottledEvent.cacheEvent = [e] ∧ s'.cache = cache := by
  by_cases hfree : s.cache.blocked = none
  · obtain ⟨answers, semaphore, hdrain, hanswers, hidle, htotal⟩ :=
      exists_drained calls shard _ s rfl hfree hpermits
    obtain ⟨events, semaphore', hrun, hevents⟩ :=
      exists_step_of_idle (s := ⟨s.cache, semaphore⟩) hidle (htotal ▸ hpermits) h
    exact ⟨answers ++ events, _, hdrain.append hrun,
      by rw [List.filterMap_append, hanswers, hevents, List.nil_append], rfl⟩
  · have hexternal : e.begins = none ∧ e.ends = none := by
      cases h with
      | external => exact ⟨rfl, rfl⟩
      | _ => simp_all
    exact ⟨[.poll e], ⟨cache, s.semaphore⟩,
      Run.nil.snoc (.poll h hexternal.1 fun i hi => by simp [hexternal.2] at hi), rfl, rfl⟩

/-- Whatever requests are out or wait, the calls can go on exactly as they could without a
limit. -/
theorem ThrottledRun.goes_on_iff (calls : List (DownloadTarballToStore I)) (shard : Text → Nat)
    (cpus : Nat) (store : StoreFiles B) (before : List (ThrottledEvent B M))
    (s : ThrottledState B S) (run : ThrottledRun calls shard cpus store before s)
    (events : List (CacheEvent B)) (cache : CacheState B) :
    (∃ (after : List (ThrottledEvent B M)) (s' : ThrottledState B S),
        Run (ThrottledStep calls shard) s after s' ∧
        after.filterMap ThrottledEvent.cacheEvent = events ∧ s'.cache = cache) ↔
      Run (CacheStep calls shard) s.cache events cache := by
  constructor
  · rintro ⟨after, s', hafter, rfl, rfl⟩
    exact hafter.project ThrottledState.cache ThrottledEvent.cacheEvent
      (fun _ _ _ _ h => h.cacheStep.1 _) (fun _ _ _ h => h.cacheStep.2)
  · intro hcache
    induction hcache with
    | nil => exact ⟨[], s, .nil, rfl, rfl⟩
    | snoc _ h ih =>
        obtain ⟨after, t, hafter, hevents, rfl⟩ := ih
        have hpermits := ThrottledRun.permits_pos (run.append hafter)
        obtain ⟨more, s', hmore, hstep, hs'⟩ := exists_steps hpermits h
        exact ⟨after ++ more, s', hafter.append hmore,
          by rw [List.filterMap_append, hevents, hstep], hs'⟩

end Runs

section Samples

/-- One download on a machine of four processors, with its request out. -/
theorem exists_requestRun :
    ∃ s : ThrottledState SampleBytes (FairQueue (Nat ⊕ Nat)),
      ThrottledRun [sampleCall "package/index.js".toList] (fun _ => 0) 4 emptyStore
        [.request 0 emptyStore] s ∧ s.semaphore.holders = [.inl 0] := by
  have hnext : lookupPhase (sampleCall "package/index.js".toList) emptyStore = some .fetching :=
    lookupPhase_of_supported sampleCall_supported _
  have hfree : ¬ ShardHeld [sampleCall "package/index.js".toList] (fun _ => 0)
      (CacheState.initial emptyStore) 0 := by
    rintro ⟨i, call, -, hborrow, -⟩
    cases hborrow
  have hnew : ¬ Semaphore.Knows
      (ThrottledState.initial (FairQueue (Nat ⊕ Nat)) 4 emptyStore).semaphore (.inl 0) :=
    List.not_mem_nil
  have hpermits : 0 < max 4 16 := by decide
  have hmiss : CacheStep [sampleCall "package/index.js".toList] (fun _ => 0)
      (ThrottledState.initial (FairQueue (Nat ⊕ Nat)) 4 emptyStore).cache
      (.miss 0 emptyStore .fetching) _ :=
    .miss (i := 0) rfl rfl rfl rfl hfree hnext
  exact ⟨_, Run.nil.snoc (.request hmiss hnew), (FairQueue.acquire_of_free _ hpermits).2.1⟩

theorem ThrottledRun.goes_on_request :
    ∃ s : ThrottledState SampleBytes (FairQueue (Nat ⊕ Nat)), s.semaphore.holders = [.inl 0] ∧
      ∀ events cache,
        (∃ (after : List (ThrottledEvent SampleBytes Nat)) (s' : ThrottledState SampleBytes _),
          Run (ThrottledStep [sampleCall "package/index.js".toList] (fun _ => 0)) s after s' ∧
          after.filterMap ThrottledEvent.cacheEvent = events ∧ s'.cache = cache) ↔
        Run (CacheStep [sampleCall "package/index.js".toList] (fun _ => 0)) s.cache events
          cache := by
  obtain ⟨s, run, hheld⟩ := exists_requestRun
  exact ⟨s, hheld, fun events cache => ThrottledRun.goes_on_iff _ _ _ _ _ s run events cache⟩

end Samples

end Npnpm
