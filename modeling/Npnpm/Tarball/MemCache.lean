import Mathlib.Logic.Function.Basic
import Npnpm.Library.Run
import Npnpm.Tarball.Extract

/-!
# The in-memory cache of tarballs

Calls of `run_with_mem_cache` share one map from URLs to cells. The first call
for a URL inserts a cell that is in progress and computes its value; later calls
find the cell and wait for it. The calls run on one thread and give way to each
other where they await, so a step runs one call from one await to the next.

## Implementation notes

A cell is numbered by the call that inserted it. `notified` counts the calls of
`notify_waiters` on the cell; a waiter remembers the count it started from, as
`Notified` does. The write and read locks of a cell are free whenever a call
asks for them, because no call holds one across an await; asking is still an
await. A call that found a cell holds the read lock of its shard until it
returns, and inserting into a shard that is held blocks the thread. A panic ends
the program and is no step. Events of the outside world change the store.
-/

namespace Npnpm

inductive CacheValue
  | inProgress
  | available (casPaths : CasPaths)

structure Cell where
  value : CacheValue
  notified : Nat

/-- Where a call stands between two polls. -/
inductive Phase
  | start
  /-- found a cell, asks for its write lock -/
  | locking (cell : Nat)
  /-- waits for a notification after the first `seen` -/
  | waiting (cell seen : Nat)
  /-- was notified, asks for the read lock -/
  | reading (cell : Nat)
  /-- inserted its own cell, downloads and extracts -/
  | fetching
  /-- has the value of its own cell, asks for the write lock -/
  | publishing (casPaths : CasPaths)
  | returned (result : Except TarballError CasPaths)

/-- The cell whose map entry a suspended call borrows. -/
def Phase.borrowed : Phase → Option Nat
  | .locking cell => some cell
  | .waiting cell _ => some cell
  | .reading cell => some cell
  | _ => none

/-- A call that is to complete its own cell. -/
def Phase.producing : Phase → Bool
  | .fetching => true
  | .publishing _ => true
  | _ => false

structure CacheState (B : Type) where
  phases : Nat → Phase
  entries : Text → Option Nat
  cells : Nat → Cell
  store : StoreFiles B
  /-- The call in which the thread is blocked. -/
  blocked : Option Nat

inductive CacheEvent (B : Type)
  | hit (call : Nat)
  | miss (call : Nat) (store : StoreFiles B) (next : Phase)
  | block (call : Nat)
  | fetched (call : Nat) (response : Except Text B) (next : Phase)
  | lock (call : Nat)
  | wake (call : Nat)
  | reread (call : Nat)
  | publish (call : Nat)
  | external

namespace CacheState

variable {B : Type}

def initial (store : StoreFiles B) : CacheState B where
  phases _ := .start
  entries _ := none
  cells _ := ⟨.inProgress, 0⟩
  store := store
  blocked := none

def setPhase (s : CacheState B) (i : Nat) (phase : Phase) : CacheState B :=
  { s with phases := Function.update s.phases i phase }

def setStore (s : CacheState B) (store : StoreFiles B) : CacheState B := { s with store := store }

def setCell (s : CacheState B) (i : Nat) (cell : Cell) : CacheState B :=
  { s with cells := Function.update s.cells i cell }

def setEntry (s : CacheState B) (url : Text) (i : Nat) : CacheState B :=
  { s with entries := Function.update s.entries url (some i) }

section Fields

variable (s : CacheState B) (i : Nat)

@[simp] theorem setPhase_phases (p : Phase) :
    (s.setPhase i p).phases = Function.update s.phases i p := rfl
@[simp] theorem setPhase_entries (p : Phase) : (s.setPhase i p).entries = s.entries := rfl
@[simp] theorem setPhase_cells (p : Phase) : (s.setPhase i p).cells = s.cells := rfl
@[simp] theorem setPhase_blocked (p : Phase) : (s.setPhase i p).blocked = s.blocked := rfl
@[simp] theorem setStore_phases (f : StoreFiles B) : (s.setStore f).phases = s.phases := rfl
@[simp] theorem setStore_entries (f : StoreFiles B) : (s.setStore f).entries = s.entries := rfl
@[simp] theorem setStore_cells (f : StoreFiles B) : (s.setStore f).cells = s.cells := rfl
@[simp] theorem setStore_blocked (f : StoreFiles B) : (s.setStore f).blocked = s.blocked := rfl
@[simp] theorem setCell_phases (c : Cell) : (s.setCell i c).phases = s.phases := rfl
@[simp] theorem setCell_entries (c : Cell) : (s.setCell i c).entries = s.entries := rfl
@[simp] theorem setCell_cells (c : Cell) :
    (s.setCell i c).cells = Function.update s.cells i c := rfl
@[simp] theorem setCell_blocked (c : Cell) : (s.setCell i c).blocked = s.blocked := rfl
@[simp] theorem setEntry_phases (url : Text) : (s.setEntry url i).phases = s.phases := rfl
@[simp] theorem setEntry_entries (url : Text) :
    (s.setEntry url i).entries = Function.update s.entries url (some i) := rfl
@[simp] theorem setEntry_cells (url : Text) : (s.setEntry url i).cells = s.cells := rfl
@[simp] theorem setEntry_blocked (url : Text) : (s.setEntry url i).blocked = s.blocked := rfl

end Fields

end CacheState

section Steps

variable {I B : Type} [TarballLibs I B]

/-- From inserting the cell to the next await: the store answers, the call
fails, or the download begins. -/
def lookupPhase (call : DownloadTarballToStore I) (store : StoreFiles B) : Option Phase :=
  match loadFromStore call store with
  | .ok (some casPaths) => some (.publishing casPaths)
  | .ok none =>
      match call.networkMode with
      | .offline => some (.returned (.error (.offlineCacheMiss call.packageUrl)))
      | .online => some .fetching
  | .error (.error error) => some (.returned (.error error))
  | .error .panic => none

/-- The end of the download, with the store it leaves. -/
def fetchedPhase (call : DownloadTarballToStore I) (now : Option Nat) (store : StoreFiles B)
    (response : Except Text B) : Option (Phase × StoreFiles B) :=
  match runWithoutMemCache call now store response with
  | .ok extracted => some (.publishing extracted.casPaths, extracted.store)
  | .error (.error error) => some (.returned (.error error), store)
  | .error .panic => none

/-- What a call does once it has the write lock of a cell it found. -/
def lockedPhase (cell : Nat) (content : Cell) : Phase :=
  match content.value with
  | .available casPaths => .returned (.ok casPaths)
  | .inProgress => .waiting cell content.notified

variable (calls : List (DownloadTarballToStore I)) (shard : Text → Nat)

/-- A suspended call holds the read lock of the shard. -/
def ShardHeld (s : CacheState B) (n : Nat) : Prop :=
  ∃ i call, calls[i]? = some call ∧ (s.phases i).borrowed.isSome ∧ shard call.packageUrl = n

/-- One call runs from one await to the next. -/
inductive CacheStep : CacheState B → CacheEvent B → CacheState B → Prop
  | hit {s i call cell} (hcall : calls[i]? = some call) (hfree : s.blocked = none)
      (hphase : s.phases i = .start) (hentry : s.entries call.packageUrl = some cell) :
      CacheStep s (.hit i) (s.setPhase i (.locking cell))
  | miss {s i call next} (hcall : calls[i]? = some call) (hfree : s.blocked = none)
      (hphase : s.phases i = .start) (hentry : s.entries call.packageUrl = none)
      (hshard : ¬ ShardHeld calls shard s (shard call.packageUrl))
      (hnext : lookupPhase call s.store = some next) :
      CacheStep s (.miss i s.store next)
        (((s.setEntry call.packageUrl i).setCell i ⟨.inProgress, 0⟩).setPhase i next)
  | block {s i call} (hcall : calls[i]? = some call) (hfree : s.blocked = none)
      (hphase : s.phases i = .start) (hentry : s.entries call.packageUrl = none)
      (hshard : ShardHeld calls shard s (shard call.packageUrl)) :
      CacheStep s (.block i) { s with blocked := some i }
  | fetched {s i call now response next store} (hcall : calls[i]? = some call)
      (hfree : s.blocked = none) (hphase : s.phases i = .fetching)
      (hnext : fetchedPhase call now s.store response = some (next, store)) :
      CacheStep s (.fetched i response next) ((s.setStore store).setPhase i next)
  | lock {s i cell} (hfree : s.blocked = none) (hphase : s.phases i = .locking cell) :
      CacheStep s (.lock i) (s.setPhase i (lockedPhase cell (s.cells cell)))
  | wake {s i cell seen} (hfree : s.blocked = none) (hphase : s.phases i = .waiting cell seen)
      (hnotified : seen < (s.cells cell).notified) :
      CacheStep s (.wake i) (s.setPhase i (.reading cell))
  | reread {s i cell casPaths} (hfree : s.blocked = none) (hphase : s.phases i = .reading cell)
      (hvalue : (s.cells cell).value = .available casPaths) :
      CacheStep s (.reread i) (s.setPhase i (.returned (.ok casPaths)))
  | publish {s i casPaths} (hfree : s.blocked = none) (hphase : s.phases i = .publishing casPaths) :
      CacheStep s (.publish i)
        ((s.setCell i ⟨.available casPaths, (s.cells i).notified + 1⟩).setPhase i
          (.returned (.ok casPaths)))
  | external {s store} : CacheStep s .external (s.setStore store)

/-- The runs of the calls on an empty cache. -/
abbrev CacheRun (store : StoreFiles B) :
    List (CacheEvent B) → CacheState B → Prop :=
  Run (CacheStep calls shard) (CacheState.initial store)

end Steps

end Npnpm
