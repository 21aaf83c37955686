import Npnpm.Tarball.WarmStore

/-!
# One call at a time

A program that awaits each call of `run_with_mem_cache` before it makes the next one
never finds a cell in progress. A call is answered by the cache or by the store, or it
downloads; the calls together are a run of the shared cache.

## Implementation notes

A call that fails leaves its cell in progress. The program gives up then, so the cache
between two calls has available values only. A URL is downloaded at most once, so what
the network answers is a function of the URL.
-/

namespace Npnpm

/-- What calls share: the values of the cache, and the store. -/
structure TarballState (B : Type) where
  memCache : Text → Option CasPaths
  store : StoreFiles B

/-- What the network answers for a URL, and the time of the extraction. -/
structure TarballNetwork (B : Type) where
  response : Text → Except Text B
  now : Text → Option Nat

section Call

variable {I B : Type} [TarballLibs I B]

/-- The value that a call computes for its own cell, and the store it leaves. -/
def DownloadTarballToStore.obtain (call : DownloadTarballToStore I) (network : TarballNetwork B)
    (store : StoreFiles B) : Except Abort (CasPaths × StoreFiles B) := do
  match ← loadFromStore call store with
  | some casPaths => .ok (casPaths, store)
  | none =>
      match call.networkMode with
      | .offline => .error (.error (.offlineCacheMiss call.packageUrl))
      | .online => do
          let extracted ← runWithoutMemCache call (network.now call.packageUrl) store
            (network.response call.packageUrl)
          .ok (extracted.casPaths, extracted.store)

/-- `run_with_mem_cache` while no other call is under way. -/
def DownloadTarballToStore.runWithMemCache (call : DownloadTarballToStore I)
    (network : TarballNetwork B) (s : TarballState B) :
    Except Abort (CasPaths × TarballState B) :=
  match s.memCache call.packageUrl with
  | some casPaths => .ok (casPaths, s)
  | none => do
      let (casPaths, store) ← call.obtain network s.store
      .ok (casPaths, ⟨Function.update s.memCache call.packageUrl (some casPaths), store⟩)

variable {call : DownloadTarballToStore I} {network : TarballNetwork B}
  {store store' : StoreFiles B} {s s' : TarballState B} {casPaths : CasPaths}

/-- The store has the value, or a download has. -/
theorem DownloadTarballToStore.obtain_ok (h : call.obtain network store = .ok (casPaths, store')) :
    (loadFromStore call store = .ok (some casPaths) ∧ store' = store) ∨
      loadFromStore call store = .ok none ∧ call.networkMode = .online ∧ ∃ extracted,
        runWithoutMemCache call (network.now call.packageUrl) store
          (network.response call.packageUrl) = .ok extracted ∧
        casPaths = extracted.casPaths ∧ store' = extracted.store := by
  obtain ⟨loaded, hload, h⟩ := Results.bind_ok h
  cases loaded with
  | some found =>
      cases h
      exact Or.inl ⟨hload, rfl⟩
  | none =>
      cases hmode : call.networkMode with
      | offline =>
          simp only [hmode] at h
          cases h
      | online =>
          simp only [hmode] at h
          obtain ⟨extracted, hextracted, h⟩ := Results.bind_ok h
          cases h
          exact Or.inr ⟨hload, rfl, extracted, hextracted, rfl, rfl⟩

/-- The cache has the value, or it has been obtained. -/
theorem DownloadTarballToStore.runWithMemCache_ok
    (h : call.runWithMemCache network s = .ok (casPaths, s')) :
    (s.memCache call.packageUrl = some casPaths ∧ s' = s) ∨
      s.memCache call.packageUrl = none ∧ ∃ store,
        call.obtain network s.store = .ok (casPaths, store) ∧
        s' = ⟨Function.update s.memCache call.packageUrl (some casPaths), store⟩ := by
  unfold DownloadTarballToStore.runWithMemCache at h
  cases hcache : s.memCache call.packageUrl with
  | some found =>
      simp only [hcache] at h
      cases h
      exact Or.inl ⟨rfl, rfl⟩
  | none =>
      simp only [hcache] at h
      obtain ⟨⟨found, store⟩, hobtain, h⟩ := Results.bind_ok h
      cases h
      exact Or.inr ⟨rfl, store, hobtain, rfl⟩

/-- A call that obtains a value leaves a store that answers it, with all that was there. -/
theorem DownloadTarballToStore.obtain_answered (laws : DigestLaws I B)
    (h : call.obtain network store = .ok (casPaths, store')) :
    (∀ p x, store.files p = some x → store'.files p = some x) ∧ call.Answered store' := by
  obtain ⟨hload, rfl⟩ | ⟨hload, -, extracted, hrun, -, rfl⟩ := obtain_ok h
  · exact ⟨fun _ _ hx => hx, casPaths, hload⟩
  · unfold runWithoutMemCache at hrun
    split at hrun
    · cases hrun
    · obtain ⟨hgrows, path, index, hpath, hmade⟩ := extractResponse_grows laws hrun
      obtain ⟨hindex, hloads⟩ := hmade (index_missing_of_load hload hpath)
      exact ⟨hgrows.kept, answered_of_index hpath hindex hloads⟩

end Call

section Shared

variable {I B : Type} [TarballLibs I B]

/-- The first calls have returned, the others have not begun, and the cells hold what
the cache has. -/
structure BetweenCalls (n : Nat) (s : TarballState B) (c : CacheState B) : Prop where
  free : c.blocked = none
  store : c.store = s.store
  returned : ∀ i < n, ∃ result, c.phases i = .returned result
  start : ∀ i, n ≤ i → c.phases i = .start
  missing : ∀ url, s.memCache url = none → c.entries url = none
  cached : ∀ url casPaths, s.memCache url = some casPaths →
    ∃ cell < n, c.entries url = some cell ∧ (c.cells cell).value = .available casPaths

variable {calls : List (DownloadTarballToStore I)} {shard : Text → Nat}
  {network : TarballNetwork B} {n : Nat} {s s' : TarballState B} {c : CacheState B}
  {call : DownloadTarballToStore I} {casPaths : CasPaths}

omit [TarballLibs I B] in
theorem BetweenCalls.initial (store : StoreFiles B) :
    BetweenCalls 0 ⟨fun _ => none, store⟩ (CacheState.initial store) where
  free := rfl
  store := rfl
  returned i hi := absurd hi (Nat.not_lt_zero i)
  start _ _ := rfl
  missing _ _ := rfl
  cached _ _ h := by cases h

omit [TarballLibs I B] in
/-- Nobody borrows an entry of the map between two calls. -/
theorem BetweenCalls.not_shardHeld (h : BetweenCalls n s c) (k : Nat) :
    ¬ ShardHeld calls shard c k := by
  rintro ⟨i, -, -, hborrowed, -⟩
  rcases Nat.lt_or_ge i n with hi | hi
  · obtain ⟨result, hresult⟩ := h.returned i hi
    rw [hresult] at hborrowed
    cases hborrowed
  · rw [h.start i hi] at hborrowed
    cases hborrowed

omit [TarballLibs I B] in
/-- The next call has returned, and all before it. -/
theorem BetweenCalls.phases (h : BetweenCalls n s c) (c' : CacheState B)
    (result : Except TarballError CasPaths) (hothers : ∀ i, i ≠ n → c'.phases i = c.phases i)
    (hown : c'.phases n = .returned result) :
    (∀ i < n + 1, ∃ result, c'.phases i = .returned result) ∧
      ∀ i, n + 1 ≤ i → c'.phases i = .start := by
  constructor
  · intro i hi
    rcases Nat.lt_succ_iff_lt_or_eq.mp hi with hi | rfl
    · rw [hothers i (Nat.ne_of_lt hi)]
      exact h.returned i hi
    · exact ⟨result, hown⟩
  · intro i hi
    have hne : i ≠ n := by omega
    rw [hothers i hne]
    exact h.start i (by omega)

/-- The next call returns what the cache has. -/
theorem BetweenCalls.hit (h : BetweenCalls n s c) (hcall : calls[n]? = some call)
    (hcached : s.memCache call.packageUrl = some casPaths) :
    ∃ events c', Run (CacheStep calls shard) c events c' ∧ .external ∉ events ∧
      c'.phases n = .returned (.ok casPaths) ∧ BetweenCalls (n + 1) s c' := by
  obtain ⟨cell, -, hentry, hvalue⟩ := h.cached _ _ hcached
  have hhit : CacheStep calls shard c (.hit n) (c.setPhase n (.locking cell)) :=
    .hit hcall h.free (h.start n (Nat.le_refl n)) hentry
  have hlock : CacheStep calls shard (c.setPhase n (.locking cell)) (.lock n)
      ((c.setPhase n (.locking cell)).setPhase n (lockedPhase cell (c.cells cell))) :=
    .lock h.free (by simp)
  have hlocked : lockedPhase cell (c.cells cell) = .returned (.ok casPaths) := by
    unfold lockedPhase
    rw [hvalue]
  rw [hlocked] at hlock
  refine ⟨_, _, (Run.nil.snoc hhit).snoc hlock, by simp, by simp, ?_⟩
  obtain ⟨hreturned, hstart⟩ := h.phases
    ((c.setPhase n (.locking cell)).setPhase n (.returned (.ok casPaths))) (.ok casPaths)
    (fun i hi => by simp [Function.update_of_ne hi]) (by simp)
  refine ⟨h.free, h.store, hreturned, hstart, h.missing, fun url found hfound => ?_⟩
  obtain ⟨cell, hcell, hentry, hvalue⟩ := h.cached url found hfound
  exact ⟨cell, Nat.lt_succ_of_lt hcell, hentry, hvalue⟩

/-- The next call publishes the value of its own cell. -/
theorem BetweenCalls.publish (calls : List (DownloadTarballToStore I)) (shard : Text → Nat)
    (h : BetweenCalls n s c) {c' : CacheState B} {url : Text}
    (hothers : ∀ i, i ≠ n → c'.phases i = c.phases i ∧ c'.cells i = c.cells i)
    (hentries : c'.entries = Function.update c.entries url (some n)) (hfree : c'.blocked = none)
    (hpublishing : c'.phases n = .publishing casPaths) :
    ∃ c'', CacheStep calls shard c' (.publish n) c'' ∧
      c''.phases n = .returned (.ok casPaths) ∧
      BetweenCalls (n + 1) ⟨Function.update s.memCache url (some casPaths), c'.store⟩ c'' := by
  refine ⟨_, .publish hfree hpublishing, by simp, ?_⟩
  obtain ⟨hreturned, hstart⟩ := h.phases
    ((c'.setCell n ⟨.available casPaths, (c'.cells n).notified + 1⟩).setPhase n
      (.returned (.ok casPaths))) (.ok casPaths)
    (fun i hi => by simp [Function.update_of_ne hi, (hothers i hi).1]) (by simp)
  refine ⟨hfree, rfl, hreturned, hstart, fun other hnone => ?_, fun other found hfound => ?_⟩
  · rw [CacheState.setPhase_entries, CacheState.setCell_entries, hentries]
    by_cases hother : other = url
    · subst hother
      simp at hnone
    · simp only [ne_eq, hother, not_false_eq_true, Function.update_of_ne] at hnone ⊢
      exact h.missing other hnone
  · rw [CacheState.setPhase_entries, CacheState.setCell_entries, hentries]
    by_cases hother : other = url
    · subst hother
      simp only [Function.update_self, Option.some.injEq] at hfound
      subst hfound
      exact ⟨n, Nat.lt_succ_self n, by simp, by simp⟩
    · simp only [ne_eq, hother, not_false_eq_true, Function.update_of_ne] at hfound ⊢
      obtain ⟨cell, hcell, hentry, hvalue⟩ := h.cached other found hfound
      have hne := Nat.ne_of_lt hcell
      refine ⟨cell, Nat.lt_succ_of_lt hcell, hentry, ?_⟩
      rwa [CacheState.setPhase_cells, CacheState.setCell_cells, Function.update_of_ne hne,
        (hothers cell hne).2]

/-- A call on its own is a run of the shared cache from one rest to the next. -/
theorem BetweenCalls.exists_run (h : BetweenCalls n s c) (shard : Text → Nat)
    (hcall : calls[n]? = some call)
    (hok : call.runWithMemCache network s = .ok (casPaths, s')) :
    ∃ events c', Run (CacheStep calls shard) c events c' ∧ .external ∉ events ∧
      c'.phases n = .returned (.ok casPaths) ∧ BetweenCalls (n + 1) s' c' := by
  obtain ⟨hcached, rfl⟩ | ⟨hnone, store, hobtain, rfl⟩ :=
    DownloadTarballToStore.runWithMemCache_ok hok
  · exact h.hit hcall hcached
  -- the call inserts its cell and goes on in the next phase
  let inserted (next : Phase) : CacheState B :=
    ((c.setEntry call.packageUrl n).setCell n ⟨.inProgress, 0⟩).setPhase n next
  have hothers : ∀ next i, i ≠ n →
      (inserted next).phases i = c.phases i ∧ (inserted next).cells i = c.cells i := by
    intro next i hi
    constructor
    · exact Function.update_of_ne hi _ _
    · exact Function.update_of_ne hi _ _
  have hown : ∀ next, (inserted next).phases n = next := fun next => Function.update_self n _ _
  have hmiss : ∀ next, lookupPhase call c.store = some next →
      CacheStep calls shard c (.miss n c.store next) (inserted next) := fun next hnext =>
    .miss hcall h.free (h.start n (Nat.le_refl n)) (h.missing _ hnone) (h.not_shardHeld _) hnext
  obtain ⟨hload, rfl⟩ | ⟨hload, honline, extracted, hrun, rfl, rfl⟩ :=
    DownloadTarballToStore.obtain_ok hobtain
  · have hnext : lookupPhase call c.store = some (.publishing casPaths) := by
      unfold lookupPhase
      rw [h.store, hload]
    obtain ⟨c', hpublish, hreturned, hbetween⟩ := h.publish calls shard
      (hothers _) rfl h.free (hown (.publishing casPaths))
    have hstore : (inserted (.publishing casPaths)).store = s.store := h.store
    rw [hstore] at hbetween
    exact ⟨_, c', (Run.nil.snoc (hmiss _ hnext)).snoc hpublish, by simp, hreturned, hbetween⟩
  · have hnext : lookupPhase call c.store = some .fetching := by
      unfold lookupPhase
      rw [h.store, hload, honline]
    have hfetch : fetchedPhase call (network.now call.packageUrl) (inserted .fetching).store
        (network.response call.packageUrl) =
          some (.publishing extracted.casPaths, extracted.store) := by
      have hstore : (inserted .fetching).store = s.store := h.store
      unfold fetchedPhase
      rw [hstore, hrun]
    let fetched : CacheState B :=
      ((inserted .fetching).setStore extracted.store).setPhase n (.publishing extracted.casPaths)
    have hfetched : CacheStep calls shard (inserted .fetching) (.fetched n _ _) fetched :=
      .fetched hcall h.free (hown _) hfetch
    have hfetchedOthers : ∀ i, i ≠ n → fetched.phases i = c.phases i ∧
        fetched.cells i = c.cells i := by
      intro i hi
      refine ⟨?_, (hothers .fetching i hi).2⟩
      exact (Function.update_of_ne hi _ _).trans (hothers .fetching i hi).1
    obtain ⟨c', hpublish, hreturned, hbetween⟩ := h.publish calls shard
      hfetchedOthers rfl h.free (Function.update_self n _ _)
    exact ⟨_, c', ((Run.nil.snoc (hmiss _ hnext)).snoc hfetched).snoc hpublish, by simp,
      hreturned, hbetween⟩

/-- Calls made one after the other are a run of the shared cache. -/
theorem BetweenCalls.exists_runs {before rest : List (DownloadTarballToStore I)}
    {s s' : TarballState B} {c : CacheState B} (h : BetweenCalls before.length s c)
    (shard : Text → Nat)
    (hok : rest.foldlM (fun s call => (call.runWithMemCache network s).map Prod.snd) s = .ok s') :
    ∃ events c', Run (CacheStep (before ++ rest) shard) c events c' ∧ .external ∉ events ∧
      BetweenCalls (before ++ rest).length s' c' := by
  induction rest generalizing before s c with
  | nil =>
      cases hok
      exact ⟨[], c, .nil, by simp, by simpa using h⟩
  | cons call rest ih =>
      rw [List.foldlM_cons] at hok
      obtain ⟨s₁, hfirst, hrest⟩ := Results.bind_ok hok
      obtain ⟨⟨casPaths, s₂⟩, hrun, rfl⟩ := Results.map_ok hfirst
      have hcall : (before ++ call :: rest)[before.length]? = some call := by simp
      obtain ⟨events, c₁, hsteps, hown, -, hbetween⟩ := h.exists_run shard hcall hrun
      have hlength : (before ++ [call]).length = before.length + 1 := by simp
      rw [← hlength] at hbetween
      obtain ⟨events', c₂, hsteps', hown', hbetween'⟩ := ih hbetween hrest
      rw [List.append_assoc, List.singleton_append] at hsteps' hbetween'
      refine ⟨events ++ events', c₂, hsteps.append hsteps', ?_, hbetween'⟩
      simp [hown, hown']

end Shared

end Npnpm
