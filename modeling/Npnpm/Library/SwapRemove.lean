import Mathlib.Data.List.TakeWhile
import Npnpm.Library.KeyedMap

/-!
# Removal by a swap

A map that keeps the order of insertion removes an entry in one step when the last
entry takes its place. The other entries stay where they are, so the order of what
remains is the old one exactly when at most one entry followed the removed one.
-/

namespace Npnpm.KeyedMap

section Lists

variable {α : Type*}

/-- The last element moves to the front. -/
def lastFirst (l : List α) : List α := l.getLast?.toList ++ l.dropLast

theorem lastFirst_concat (l : List α) (a : α) : lastFirst (l ++ [a]) = a :: l := by
  simp [lastFirst]

theorem lastFirst_perm (l : List α) : (lastFirst l).Perm l := by
  rcases List.eq_nil_or_concat l with rfl | ⟨front, a, rfl⟩
  · rfl
  · rw [List.concat_eq_append, lastFirst_concat]
    exact (List.perm_append_singleton a front).symm

theorem lastFirst_map {β : Type*} (f : α → β) (l : List α) :
    (lastFirst l).map f = lastFirst (l.map f) := by
  rcases List.eq_nil_or_concat l with rfl | ⟨front, a, rfl⟩
  · rfl
  · rw [List.concat_eq_append, lastFirst_concat, List.map_append, List.map_singleton,
      lastFirst_concat, List.map_cons]

/-- In a list without repetition the last element moves, unless it is the first. -/
theorem lastFirst_eq_iff {l : List α} (h : l.Nodup) : lastFirst l = l ↔ l.length ≤ 1 := by
  rcases List.eq_nil_or_concat l with rfl | ⟨front, a, rfl⟩
  · simp [lastFirst]
  · rw [List.concat_eq_append] at h ⊢
    rw [lastFirst_concat]
    constructor
    · intro heq
      cases front with
      | nil => exact le_refl 1
      | cons b front =>
          have hab : a = b := (List.cons.inj heq).1
          have hnot :=
            (List.nodup_append.mp h).2.2 b List.mem_cons_self a (List.mem_singleton_self a)
          exact absurd hab.symm hnot
    · intro hlength
      have hfront : front = [] := by
        rw [← List.length_eq_zero_iff]
        simpa using hlength
      rw [hfront]
      rfl

/-- What is left of a list is in its order exactly when nothing has to move. -/
theorem lastFirst_sublist_iff {before after : List α} {a : α}
    (h : (before ++ a :: after).Nodup) :
    (before ++ lastFirst after).Sublist (before ++ a :: after) ↔ after.length ≤ 1 := by
  obtain ⟨ha, hafter⟩ := List.nodup_cons.mp (List.nodup_append.mp h).2.1
  rw [List.append_sublist_append_left, ← lastFirst_eq_iff hafter]
  constructor
  · intro hsub
    have hnot : a ∉ lastFirst after := fun hmem => ha ((lastFirst_perm after).mem_iff.mp hmem)
    rcases List.sublist_cons_iff.mp hsub with hsub | ⟨rest, hrest, -⟩
    · exact hsub.eq_of_length (lastFirst_perm after).length_eq
    · exact absurd (hrest ▸ List.mem_cons_self) hnot
  · intro heq
    rw [heq]
    exact List.sublist_cons_self a after

end Lists

variable {K V : Type*} [BEq K]

theorem ext {m n : KeyedMap K V} (h : m.entries = n.entries) : m = n := by
  obtain ⟨entries, distinct⟩ := m
  obtain ⟨entries', distinct'⟩ := n
  cases h
  rfl

/-- Replace the entry of an equal key by the last entry. -/
def swapRemoveEntry (k : K) : List (K × V) → List (K × V)
  | [] => []
  | e :: rest => if e.1 == k then lastFirst rest else e :: swapRemoveEntry k rest

/-- The entries after the one of an equal key, and that one. -/
def entriesFrom (m : KeyedMap K V) (k : K) : List (K × V) :=
  m.entries.dropWhile fun e => !(e.1 == k)

section Split

variable {k : K} {before after l : List (K × V)} {e : K × V}

theorem swapRemoveEntry_of_free (h : ∀ e ∈ l, (e.1 == k) = false) :
    swapRemoveEntry k l = l := by
  induction l with
  | nil => rfl
  | cons a rest ih =>
      rw [swapRemoveEntry, h a List.mem_cons_self, if_neg (by simp),
        ih fun e he => h e (List.mem_cons_of_mem _ he)]

theorem swapRemoveEntry_split (hbefore : ∀ e ∈ before, (e.1 == k) = false)
    (he : (e.1 == k) = true) :
    swapRemoveEntry k (before ++ e :: after) = before ++ lastFirst after := by
  induction before with
  | nil => rw [List.nil_append, swapRemoveEntry, if_pos he, List.nil_append]
  | cons a rest ih =>
      rw [List.cons_append, swapRemoveEntry, hbefore a List.mem_cons_self, if_neg (by simp),
        ih fun e he => hbefore e (List.mem_cons_of_mem _ he), List.cons_append]

theorem swapRemoveEntry_perm (k : K) (l : List (K × V)) :
    (swapRemoveEntry k l).Perm (l.eraseP fun e => e.1 == k) := by
  induction l with
  | nil => rfl
  | cons e rest ih =>
      rw [swapRemoveEntry, List.eraseP_cons]
      cases he : e.1 == k with
      | true => exact lastFirst_perm rest
      | false => exact ih.cons e

end Split

variable [LawfulBEq K] {m : KeyedMap K V} {k a : K} {v : V}

/-- `swap_remove` -/
def swapRemove (m : KeyedMap K V) (k : K) : KeyedMap K V :=
  ⟨swapRemoveEntry k m.entries, by
    have hsymm : Std.Symm fun a b : K × V => (a.1 == b.1) = false :=
      ⟨fun a b hab => by rw [← hab]; exact BEq.comm⟩
    exact (m.distinct.sublist List.eraseP_sublist).perm (swapRemoveEntry_perm k m.entries).symm
      fun h => hsymm.symm _ _ h⟩

theorem entries_swapRemove (m : KeyedMap K V) (k : K) :
    (m.swapRemove k).entries = swapRemoveEntry k m.entries := rfl

/-- An entry of the map, with what stands before and after it. -/
theorem exists_split (h : m.get k = some v) : ∃ before after,
    m.entries = before ++ (k, v) :: after ∧ (∀ e ∈ before, (e.1 == k) = false) ∧
      ∀ e ∈ after, (e.1 == k) = false := by
  obtain ⟨before, after, hsplit⟩ := List.append_of_mem (get_eq_some_iff.mp h)
  have hdistinct := m.distinct
  rw [hsplit, List.pairwise_append, List.pairwise_cons] at hdistinct
  refine ⟨before, after, hsplit, fun e he => ?_, fun e he => ?_⟩
  · exact hdistinct.2.2 e he _ List.mem_cons_self
  · rw [BEq.comm]
    exact hdistinct.2.1.1 e he

theorem swapRemove_of_none (h : m.get k = none) : m.swapRemove k = m :=
  ext (swapRemoveEntry_of_free fun e he => get_eq_none_iff.mp h e.1 (mem_keys.mpr ⟨e.2, he⟩))

theorem mem_swapRemove {e : K × V} :
    e ∈ (m.swapRemove k).entries ↔ e ∈ m.entries ∧ e.1 ≠ k := by
  cases h : m.get k with
  | none =>
      rw [swapRemove_of_none h]
      refine ⟨fun he => ⟨he, ?_⟩, And.left⟩
      rintro rfl
      exact absurd (get_eq_none_iff.mp h e.1 (mem_keys.mpr ⟨e.2, he⟩)) (by simp)
  | some v =>
      obtain ⟨before, after, hsplit, hbefore, hafter⟩ := exists_split h
      have hentries : (m.swapRemove k).entries = before ++ lastFirst after := by
        rw [entries_swapRemove, hsplit]
        exact swapRemoveEntry_split hbefore (beq_self_eq_true k)
      rw [hentries, hsplit, List.mem_append, List.mem_append, List.mem_cons,
        (lastFirst_perm after).mem_iff]
      constructor
      · rintro (he | he)
        · exact ⟨Or.inl he, ne_of_beq_false (hbefore e he)⟩
        · exact ⟨Or.inr (Or.inr he), ne_of_beq_false (hafter e he)⟩
      · rintro ⟨he | rfl | he, hne⟩
        · exact Or.inl he
        · exact absurd rfl hne
        · exact Or.inr he

theorem get_swapRemove [DecidableEq K] :
    (m.swapRemove k).get a = if a = k then none else m.get a := by
  ext v
  rw [get_eq_some_iff, mem_swapRemove]
  split
  · rename_i hak
    simp [hak]
  · rename_i hak
    simp [hak, get_eq_some_iff]

omit [LawfulBEq K] in
theorem entriesFrom_of_none (h : m.get k = none) : m.entriesFrom k = [] := by
  rw [entriesFrom, List.dropWhile_eq_nil_iff]
  intro e he
  rw [get_eq_none_iff.mp h e.1 (mem_keys.mpr ⟨e.2, he⟩)]
  rfl

theorem entriesFrom_of_split {before after : List (K × V)}
    (hsplit : m.entries = before ++ (k, v) :: after) (hbefore : ∀ e ∈ before, (e.1 == k) = false) :
    m.entriesFrom k = (k, v) :: after := by
  rw [entriesFrom, hsplit, List.dropWhile_append_of_pos fun e he => by simp [hbefore e he]]
  simp

/-- When the names that remain are in their order, at most one entry followed. -/
theorem length_of_keys_sublist (h : (m.swapRemove k).keys.Sublist m.keys) :
    (m.entriesFrom k).length ≤ 2 := by
  cases hget : m.get k with
  | none =>
      rw [entriesFrom_of_none hget]
      exact Nat.zero_le 2
  | some v =>
      obtain ⟨before, after, hsplit, hbefore, -⟩ := exists_split hget
      have hkeys : m.keys = before.map Prod.fst ++ k :: after.map Prod.fst := by
        rw [keys, hsplit, List.map_append, List.map_cons]
      have hremoved : (m.swapRemove k).keys =
          before.map Prod.fst ++ lastFirst (after.map Prod.fst) := by
        rw [keys, entries_swapRemove, hsplit, swapRemoveEntry_split hbefore (beq_self_eq_true k),
          List.map_append, lastFirst_map]
      have hnodup := nodup_keys m
      rw [hkeys] at hnodup
      rw [hremoved, hkeys, lastFirst_sublist_iff hnodup, List.length_map] at h
      rw [entriesFrom_of_split hsplit hbefore, List.length_cons]
      exact Nat.succ_le_succ h

/-- When at most one entry followed, the entries that remain are in their order. -/
theorem swapRemove_sublist (h : (m.entriesFrom k).length ≤ 2) :
    (m.swapRemove k).entries.Sublist m.entries := by
  cases hget : m.get k with
  | none =>
      exact (swapRemove_of_none hget).symm ▸ List.Sublist.refl m.entries
  | some v =>
      obtain ⟨before, after, hsplit, hbefore, -⟩ := exists_split hget
      rw [entriesFrom_of_split hsplit hbefore, List.length_cons] at h
      have hnodup : (before ++ (k, v) :: after).Nodup := by
        rw [← hsplit]
        exact m.nodup_entries
      rw [entries_swapRemove, hsplit, swapRemoveEntry_split hbefore (beq_self_eq_true k),
        lastFirst_sublist_iff hnodup]
      exact Nat.le_of_succ_le_succ h

theorem entries_insert_of_split {before after : List (K × V)} (w : V)
    (hsplit : m.entries = before ++ (k, v) :: after) (hbefore : ∀ e ∈ before, (e.1 == k) = false) :
    (m.insert k w).entries = before ++ (k, w) :: after := by
  change insertEntry k w m.entries = _
  rw [hsplit]
  clear hsplit
  induction before with
  | nil => simp [insertEntry]
  | cons a rest ih =>
      rw [List.cons_append, insertEntry, hbefore a List.mem_cons_self, if_neg (by simp),
        ih fun e he => hbefore e (List.mem_cons_of_mem _ he), List.cons_append]

theorem keys_insert_of_get (h : m.get k = some v) (w : V) : (m.insert k w).keys = m.keys := by
  obtain ⟨before, after, hsplit, hbefore, -⟩ := exists_split h
  rw [keys, keys, entries_insert_of_split w hsplit hbefore, hsplit, List.map_append,
    List.map_append, List.map_cons, List.map_cons]

/-- An entry that is written with the value it has. -/
theorem insert_of_get (h : m.get k = some v) : m.insert k v = m := by
  obtain ⟨before, after, hsplit, hbefore, -⟩ := exists_split h
  apply ext
  rw [entries_insert_of_split v hsplit hbefore, hsplit]

theorem insert_insert (m : KeyedMap K V) (k : K) (v w : V) :
    (m.insert k v).insert k w = m.insert k w := by
  cases h : m.get k with
  | none =>
      have hnone : ∀ e ∈ m.entries, (e.1 == k) = false := fun e he =>
        get_eq_none_iff.mp h e.1 (mem_keys.mpr ⟨e.2, he⟩)
      apply ext
      rw [entries_insert_of_split w (entries_insert_of_none h v) hnone,
        entries_insert_of_none h w]
  | some u =>
      obtain ⟨before, after, hsplit, hbefore, -⟩ := exists_split h
      apply ext
      rw [entries_insert_of_split w (entries_insert_of_split v hsplit hbefore) hbefore,
        entries_insert_of_split w hsplit hbefore]

/-- An entry that was just added is the last one, and its removal moves nothing. -/
theorem swapRemove_insert_of_none (h : m.get k = none) (v : V) :
    (m.insert k v).swapRemove k = m := by
  apply ext
  rw [entries_swapRemove, entries_insert_of_none h v, swapRemoveEntry_split
    (fun e he => get_eq_none_iff.mp h e.1 (mem_keys.mpr ⟨e.2, he⟩)) (beq_self_eq_true k)]
  exact List.append_nil _

end Npnpm.KeyedMap
