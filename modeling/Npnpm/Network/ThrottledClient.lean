import Npnpm.Library.Semaphore
import Npnpm.Tarball.MemCacheInvariant

/-!
# The throttled client

`ThrottledClient` runs every request under a permit: `run_with_permit` acquires one, sends the
request and drops the permit when the head of the response is there. All downloads of a cache
and all requests for metadata go through one client.

## Implementation notes

The runs of the cache are refined: where a call downloads, it asks for a permit, holds it until
its request is answered, and then reads the body. A request that fails gives its permit back in
the poll in which the call fails. The requests of `M` are those of other tasks. The semaphore
is any fair one.
-/

namespace Npnpm

/-- As many permits as there are processors, and at least 16. -/
def ThrottledClient.newFromCpuCount {C : Type} (S : Type) [Semaphore S C] (cpus : Nat) : S :=
  Semaphore.new (max cpus 16)

structure ThrottledState (B S : Type) where
  cache : CacheState B
  semaphore : S

inductive ThrottledEvent (B M : Type)
  /-- a step of a call that neither begins nor ends a request -/
  | poll (event : CacheEvent B)
  /-- a call misses the cache and the store, and asks for a permit -/
  | request (call : Nat) (store : StoreFiles B)
  /-- the head of the response has come -/
  | sent (call : Nat)
  /-- the request of a call has failed -/
  | failed (call : Nat) (error : Text) (next : Phase)
  /-- another task asks for a permit -/
  | ask (other : M)
  /-- and has its answer, or its error -/
  | answer (other : M)

namespace ThrottledEvent

variable {B M : Type}

/-- What the cache sees. -/
def cacheEvent : ThrottledEvent B M → Option (CacheEvent B)
  | .poll event => some event
  | .request call store => some (.miss call store .fetching)
  | .failed call error next => some (.fetched call (.error error) next)
  | .sent _ => none
  | .ask _ => none
  | .answer _ => none

end ThrottledEvent

/-- The call that the event makes download. -/
def CacheEvent.begins {B : Type} : CacheEvent B → Option Nat
  | .miss call _ .fetching => some call
  | _ => none

/-- The call whose download the event ends. -/
def CacheEvent.ends {B : Type} : CacheEvent B → Option Nat
  | .fetched call _ _ => some call
  | _ => none

section Steps

variable {I B M : Type} [TarballLibs I B]

section Initial

variable (S : Type) [Semaphore S (Nat ⊕ M)]

def ThrottledState.initial (cpus : Nat) (store : StoreFiles B) : ThrottledState B S where
  cache := .initial store
  semaphore := ThrottledClient.newFromCpuCount S cpus

end Initial

variable {S : Type} [Semaphore S (Nat ⊕ M)]
  (calls : List (DownloadTarballToStore I)) (shard : Text → Nat)

/-- One task runs from one await to the next, and has a permit for each request. -/
inductive ThrottledStep :
    ThrottledState B S → ThrottledEvent B M → ThrottledState B S → Prop
  | poll {s e cache} (h : CacheStep calls shard s.cache e cache) (hbegins : e.begins = none)
      (hends : ∀ i, e.ends = some i → ¬Semaphore.Knows s.semaphore (.inl i)) :
      ThrottledStep s (.poll e) ⟨cache, s.semaphore⟩
  | request {s i store cache} (h : CacheStep calls shard s.cache (.miss i store .fetching) cache)
      (hnew : ¬Semaphore.Knows s.semaphore (.inl i)) :
      ThrottledStep s (.request i store) ⟨cache, Semaphore.acquire s.semaphore (.inl i) hnew⟩
  | sent {s i} (hfree : s.cache.blocked = none) (hheld : .inl i ∈ Semaphore.holders s.semaphore) :
      ThrottledStep s (.sent i) ⟨s.cache, Semaphore.release s.semaphore (.inl i) hheld⟩
  | failed {s i error next cache}
      (h : CacheStep calls shard s.cache (.fetched i (.error error) next) cache)
      (hheld : .inl i ∈ Semaphore.holders s.semaphore) :
      ThrottledStep s (.failed i error next) ⟨cache, Semaphore.release s.semaphore (.inl i) hheld⟩
  | ask {s m} (hfree : s.cache.blocked = none) (hnew : ¬Semaphore.Knows s.semaphore (.inr m)) :
      ThrottledStep s (.ask m) ⟨s.cache, Semaphore.acquire s.semaphore (.inr m) hnew⟩
  | answer {s m} (hfree : s.cache.blocked = none)
      (hheld : .inr m ∈ Semaphore.holders s.semaphore) :
      ThrottledStep s (.answer m) ⟨s.cache, Semaphore.release s.semaphore (.inr m) hheld⟩

/-- The runs of the calls on an empty cache, with a new client. -/
abbrev ThrottledRun (cpus : Nat) (store : StoreFiles B) :
    List (ThrottledEvent B M) → ThrottledState B S → Prop :=
  Run (ThrottledStep calls shard) (ThrottledState.initial S cpus store)

end Steps

end Npnpm
