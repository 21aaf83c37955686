import Mathlib.Algebra.GroupWithZero.Nat
import Mathlib.Data.List.Basic

/-!
# Text

Strings are lists of characters. The functions below are the standard-library
operations the lockfile syntax is read with. A split never loses a character,
so each of them is described by the equation that puts the pieces together.
-/

namespace Npnpm

abbrev Text := List Char

instance : LawfulBEq Text := inferInstanceAs (LawfulBEq (List Char))

namespace Text

/-- Split at the first `c`, which stays at the head of the second part. -/
def breakAt (c : Char) : Text → Option (Text × Text)
  | [] => none
  | x :: rest =>
      if x = c then some ([], x :: rest)
      else (breakAt c rest).map fun p => (x :: p.1, p.2)

theorem breakAt_eq_none_iff (c : Char) (s : Text) : breakAt c s = none ↔ c ∉ s := by
  induction s with
  | nil => simp [breakAt]
  | cons x rest ih =>
      by_cases hx : x = c
      · simp [breakAt, hx]
      · simp [breakAt, hx, ih, Ne.symm hx]

theorem breakAt_append (c : Char) (a b : Text) (ha : c ∉ a) :
    breakAt c (a ++ c :: b) = some (a, c :: b) := by
  induction a with
  | nil => simp [breakAt]
  | cons x rest ih =>
      simp only [List.mem_cons, not_or] at ha
      simp [breakAt, Ne.symm ha.1, ih ha.2]

theorem breakAt_eq_some_iff (c : Char) (s a t : Text) :
    breakAt c s = some (a, t) ↔ c ∉ a ∧ ∃ b, t = c :: b ∧ s = a ++ c :: b := by
  constructor
  · intro h
    induction s generalizing a t with
    | nil => simp [breakAt] at h
    | cons x rest ih =>
        by_cases hx : x = c
        · simp only [breakAt, if_pos hx, Option.some.injEq, Prod.mk.injEq] at h
          obtain ⟨rfl, rfl⟩ := h
          exact ⟨by simp, rest, by rw [hx], by rw [hx]; rfl⟩
        · simp only [breakAt, if_neg hx, Option.map_eq_some_iff, Prod.mk.injEq] at h
          obtain ⟨p, hp, rfl, rfl⟩ := h
          obtain ⟨hc, b, hb, hs⟩ := ih p.1 p.2 hp
          refine ⟨?_, b, hb, by rw [hs]; rfl⟩
          simp only [List.mem_cons, not_or]
          exact ⟨Ne.symm hx, hc⟩
  · rintro ⟨hc, b, rfl, rfl⟩
    exact breakAt_append c a b hc

/-- `str::split_once`: the text before and after the first `c`. -/
def splitOnce (c : Char) (s : Text) : Option (Text × Text) :=
  (breakAt c s).map fun p => (p.1, p.2.tail)

theorem splitOnce_eq_none_iff (c : Char) (s : Text) : splitOnce c s = none ↔ c ∉ s := by
  simp [splitOnce, breakAt_eq_none_iff]

theorem splitOnce_eq_some_iff (c : Char) (s a b : Text) :
    splitOnce c s = some (a, b) ↔ c ∉ a ∧ s = a ++ c :: b := by
  simp only [splitOnce, Option.map_eq_some_iff, Prod.mk.injEq, Prod.exists]
  constructor
  · rintro ⟨a', t, h, rfl, rfl⟩
    obtain ⟨hc, b', rfl, hs⟩ := (breakAt_eq_some_iff c s a' t).mp h
    exact ⟨hc, hs⟩
  · rintro ⟨hc, rfl⟩
    exact ⟨a, c :: b, breakAt_append c a b hc, rfl, rfl⟩

/-- Two texts cut at their first `c` agree exactly when both pieces agree. -/
theorem append_cons_inj {c : Char} {a a' b b' : Text} (ha : c ∉ a) (ha' : c ∉ a') :
    a ++ c :: b = a' ++ c :: b' ↔ a = a' ∧ b = b' := by
  constructor
  · intro h
    have h₁ := breakAt_append c a b ha
    rw [h, breakAt_append c a' b' ha'] at h₁
    simp only [Option.some.injEq, Prod.mk.injEq, List.cons.injEq, true_and] at h₁
    exact ⟨h₁.1.symm, h₁.2.symm⟩
  · rintro ⟨rfl, rfl⟩
    rfl

/-- What stands before a character that `a` does not hold begins with `a`. -/
theorem exists_before {c d : Char} {a a' b b' : Text} (ha : d ∉ a) (hcd : c ≠ d)
    (h : a ++ c :: b = a' ++ d :: b') : ∃ between, a' = a ++ c :: between := by
  rcases List.append_eq_append_iff.mp h with ⟨t, rfl, hcons⟩ | ⟨t, rfl, hcons⟩
  · cases t with
    | nil => exact absurd (List.cons.inj hcons).1 hcd
    | cons x t =>
        rw [List.cons_append, List.cons.injEq] at hcons
        exact ⟨t, by rw [← hcons.1]⟩
  · cases t with
    | nil => exact absurd (List.cons.inj hcons).1.symm hcd
    | cons x t =>
        rw [List.cons_append, List.cons.injEq] at hcons
        exact absurd (by simp [hcons.1]) ha

theorem getLast?_append_cons (a : Text) (c : Char) {b : Text} (hb : b ≠ []) :
    (a ++ c :: b).getLast? = b.getLast? := by
  rw [List.getLast?_append_of_ne_nil _ (List.cons_ne_nil c b), List.getLast?_cons_of_ne_nil hb]

end Text

end Npnpm
