import Mathlib.Data.List.Nodup
import Mathlib.Data.List.Perm.Basic

/-!
# Fair semaphores

A semaphore hands out a fixed number of permits. Who finds none free queues up, and a permit
that comes back goes to the client that has waited longest. So no permit is lost or made up,
and when all permits have come back in turn, nobody waits.
-/

namespace Npnpm

universe u v

/-- The semaphores of `S`, with the clients who hold their permits or wait for one. -/
class Semaphore (S : Type u) (C : outParam (Type v)) where
  /-- A semaphore whose permits are all free. -/
  new : Nat → S
  available : S → Nat
  holders : S → List C
  /-- Who waits, the first of them at the head. -/
  waiters : S → List C
  /-- A client that neither holds a permit nor waits asks for one. -/
  acquire : (s : S) → (c : C) → c ∉ holders s ++ waiters s → S
  /-- A client gives back the permit that it holds. -/
  release : (s : S) → (c : C) → c ∈ holders s → S
  new_free : ∀ n, available (new n) = n ∧ holders (new n) = [] ∧ waiters (new n) = []
  /-- Nobody waits while a permit is free. -/
  waiters_of_free : ∀ s, 0 < available s → waiters s = []
  /-- A free permit is taken at once. -/
  acquire_of_free : ∀ s c h, 0 < available s →
    available (acquire s c h) + 1 = available s ∧
      (holders (acquire s c h)).Perm (c :: holders s) ∧ waiters (acquire s c h) = waiters s
  /-- Without one the client waits behind the others. -/
  acquire_of_taken : ∀ s c h, available s = 0 →
    available (acquire s c h) = 0 ∧ (holders (acquire s c h)).Perm (holders s) ∧
      waiters (acquire s c h) = waiters s ++ [c]
  /-- A permit that comes back is free when nobody waits. -/
  release_of_nil : ∀ s c h, waiters s = [] →
    available (release s c h) = available s + 1 ∧
      (c :: holders (release s c h)).Perm (holders s) ∧ waiters (release s c h) = []
  /-- Otherwise the first who waits gets it. -/
  release_of_cons : ∀ s c h w rest, waiters s = w :: rest →
    available (release s c h) = available s ∧
      (c :: holders (release s c h)).Perm (w :: holders s) ∧ waiters (release s c h) = rest

namespace Semaphore

variable {S : Type u} {C : Type v} [Semaphore S C]

/-- All the permits, free or not. -/
def permits (s : S) : Nat := available s + (holders s).length

/-- The client has asked for a permit and has not given it back. -/
def Knows (s : S) (c : C) : Prop := c ∈ holders s ++ waiters s

/-- Nobody holds a permit or waits for one. -/
def Idle (s : S) : Prop := holders s = [] ∧ waiters s = []

/-- The clients who hold a permit or wait for one. -/
def pending (s : S) : Nat := (holders s).length + (waiters s).length

variable {s : S} {c : C}

theorem Idle.not_knows (h : Idle s) (c : C) : ¬Knows s c := by
  simp [Knows, h.1, h.2]

theorem permits_new (n : Nat) : permits (new n : S) = n := by
  obtain ⟨havail, hholders, -⟩ := new_free (S := S) n
  rw [permits, havail, hholders]
  rfl

/-- Where nobody holds a permit all of them are free. -/
theorem available_of_holders_nil (h : holders s = []) : available s = permits s := by
  rw [permits, h]
  rfl

theorem permits_acquire (h : ¬Knows s c) : permits (acquire s c h) = permits s := by
  unfold permits
  rcases Nat.eq_zero_or_pos (available s) with htaken | hfree
  · obtain ⟨havail, hholders, -⟩ := acquire_of_taken s c h htaken
    rw [havail, htaken, hholders.length_eq]
  · obtain ⟨havail, hholders, -⟩ := acquire_of_free s c h hfree
    rw [hholders.length_eq, List.length_cons]
    omega

theorem permits_release (h : c ∈ holders s) : permits (release s c h) = permits s := by
  unfold permits
  cases hw : waiters s with
  | nil =>
      obtain ⟨havail, hholders, -⟩ := release_of_nil s c h hw
      have hlength := hholders.length_eq
      rw [List.length_cons] at hlength
      omega
  | cons w rest =>
      obtain ⟨havail, hholders, -⟩ := release_of_cons s c h w rest hw
      have hlength := hholders.length_eq
      rw [List.length_cons, List.length_cons] at hlength
      omega

/-- With every permit that comes back there is less to wait for. -/
theorem pending_release (h : c ∈ holders s) : pending (release s c h) < pending s := by
  unfold pending
  cases hw : waiters s with
  | nil =>
      obtain ⟨-, hholders, hwaiters⟩ := release_of_nil s c h hw
      have hlength := hholders.length_eq
      rw [List.length_cons] at hlength
      rw [hwaiters, List.length_nil]
      omega
  | cons w rest =>
      obtain ⟨-, hholders, hwaiters⟩ := release_of_cons s c h w rest hw
      have hlength := hholders.length_eq
      rw [List.length_cons, List.length_cons] at hlength
      rw [hwaiters, List.length_cons]
      omega

end Semaphore

/-- A semaphore that keeps its clients in two lists. -/
structure FairQueue (C : Type u) where
  available : Nat
  holders : List C
  waiters : List C
  taken : 0 < available → waiters = []

namespace FairQueue

variable {C : Type u}

theorem taken_nil {n : Nat} (_ : 0 < n) : ([] : List C) = [] := rfl

theorem taken_pred {q : FairQueue C} (h : 0 < q.available - 1) : q.waiters = [] :=
  q.taken (Nat.lt_of_lt_of_le h (Nat.sub_le _ _))

theorem taken_hand {q : FairQueue C} {w : C} {rest : List C} (hw : q.waiters = w :: rest)
    (h : 0 < q.available) : rest = [] := by
  rw [q.taken h] at hw
  cases hw

theorem taken_of_not {q : FairQueue C} {waiters : List C} (hfree : ¬0 < q.available)
    (h : 0 < q.available) : waiters = [] := absurd h hfree

/-- A free permit is taken at once; without one the client queues up. -/
def acquire (q : FairQueue C) (c : C) : FairQueue C :=
  if hfree : 0 < q.available then
    ⟨q.available - 1, c :: q.holders, q.waiters, taken_pred⟩
  else
    ⟨q.available, q.holders, q.waiters ++ [c], taken_of_not hfree⟩

/-- The permit goes to the head of the queue, and is free when nobody waits. -/
def release [DecidableEq C] (q : FairQueue C) (c : C) : FairQueue C :=
  match hw : q.waiters with
  | [] => ⟨q.available + 1, q.holders.erase c, [], taken_nil⟩
  | w :: rest => ⟨q.available, w :: q.holders.erase c, rest, taken_hand hw⟩

theorem acquire_of_free {q : FairQueue C} (c : C) (h : 0 < q.available) :
    (q.acquire c).available + 1 = q.available ∧ (q.acquire c).holders = c :: q.holders ∧
      (q.acquire c).waiters = q.waiters := by
  rw [acquire, dif_pos h]
  exact ⟨Nat.sub_add_cancel h, rfl, rfl⟩

theorem acquire_of_taken {q : FairQueue C} (c : C) (h : q.available = 0) :
    (q.acquire c).available = 0 ∧ (q.acquire c).holders = q.holders ∧
      (q.acquire c).waiters = q.waiters ++ [c] := by
  rw [acquire, dif_neg (Nat.not_lt.mpr (Nat.le_of_eq h))]
  exact ⟨h, rfl, rfl⟩

variable [DecidableEq C]

theorem release_of_nil {q : FairQueue C} (c : C) (h : q.waiters = []) :
    (q.release c).available = q.available + 1 ∧ (q.release c).holders = q.holders.erase c ∧
      (q.release c).waiters = [] := by
  unfold release
  split
  · exact ⟨rfl, rfl, rfl⟩
  · simp_all

theorem release_of_cons {q : FairQueue C} (c : C) {w : C} {rest : List C}
    (h : q.waiters = w :: rest) :
    (q.release c).available = q.available ∧ (q.release c).holders = w :: q.holders.erase c ∧
      (q.release c).waiters = rest := by
  unfold release
  split
  · simp_all
  · next _ _ hw =>
      rw [h, List.cons.injEq] at hw
      obtain ⟨rfl, rfl⟩ := hw
      exact ⟨rfl, rfl, rfl⟩

instance : Semaphore (FairQueue C) C where
  new n := ⟨n, [], [], taken_nil⟩
  available := FairQueue.available
  holders := FairQueue.holders
  waiters := FairQueue.waiters
  acquire q c _ := q.acquire c
  release q c _ := q.release c
  new_free _ := ⟨rfl, rfl, rfl⟩
  waiters_of_free := FairQueue.taken
  acquire_of_free _ c _ h :=
    ⟨(acquire_of_free c h).1, .of_eq (acquire_of_free c h).2.1, (acquire_of_free c h).2.2⟩
  acquire_of_taken _ c _ h :=
    ⟨(acquire_of_taken c h).1, .of_eq (acquire_of_taken c h).2.1, (acquire_of_taken c h).2.2⟩
  release_of_nil _ c hc h := by
    obtain ⟨havail, hholders, hwaiters⟩ := release_of_nil c h
    rw [hholders]
    exact ⟨havail, (List.perm_cons_erase hc).symm, hwaiters⟩
  release_of_cons _ c hc w _ h := by
    obtain ⟨havail, hholders, hwaiters⟩ := release_of_cons c h
    rw [hholders]
    exact ⟨havail, (List.Perm.swap w c _).trans ((List.perm_cons_erase hc).symm.cons w), hwaiters⟩

end FairQueue

end Npnpm
