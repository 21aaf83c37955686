import Mathlib.Data.List.Pairwise
import Mathlib.Tactic.Tauto

/-!
# Hash maps as lists of entries

The order of the list is the order in which the map happens to iterate, so a
statement about every map is a statement about every iteration order. Keys are
compared with `==`, which need not be equality: a key type may hold data that
its comparison ignores.
-/

namespace Npnpm

/-- A map whose entries carry pairwise different keys. -/
structure KeyedMap (K V : Type*) [BEq K] where
  entries : List (K × V)
  distinct : entries.Pairwise fun a b => (a.1 == b.1) = false

namespace KeyedMap

variable {K V : Type*} [BEq K]

def empty : KeyedMap K V := ⟨[], List.Pairwise.nil⟩

instance : Inhabited (KeyedMap K V) := ⟨empty⟩

def keys (m : KeyedMap K V) : List K := m.entries.map Prod.fst

def isEmpty (m : KeyedMap K V) : Bool := m.entries.isEmpty

def get (m : KeyedMap K V) (k : K) : Option V :=
  (m.entries.find? fun e => e.1 == k).map Prod.snd

/-- Replace the value at an equal key, which keeps the old key, or append. -/
def insertEntry (k : K) (v : V) : List (K × V) → List (K × V)
  | [] => [(k, v)]
  | e :: rest => if e.1 == k then (e.1, v) :: rest else e :: insertEntry k v rest

theorem mem_insertEntry_fst {k : K} {v : V} {l : List (K × V)} {e : K × V}
    (h : e ∈ insertEntry k v l) : e.1 = k ∨ ∃ e' ∈ l, e'.1 = e.1 := by
  induction l with
  | nil =>
      simp only [insertEntry, List.mem_singleton] at h
      exact Or.inl (by rw [h])
  | cons a rest ih =>
      by_cases ha : a.1 == k
      · simp only [insertEntry, if_pos ha, List.mem_cons] at h
        rcases h with rfl | h
        · exact Or.inr ⟨a, by simp, rfl⟩
        · exact Or.inr ⟨e, by simp [h], rfl⟩
      · simp only [insertEntry, if_neg ha, List.mem_cons] at h
        rcases h with rfl | h
        · exact Or.inr ⟨e, by simp, rfl⟩
        · rcases ih h with hk | ⟨e', he', hf⟩
          · exact Or.inl hk
          · exact Or.inr ⟨e', by simp [he'], hf⟩

theorem pairwise_insertEntry (k : K) (v : V) (l : List (K × V))
    (h : l.Pairwise fun a b => (a.1 == b.1) = false) :
    (insertEntry k v l).Pairwise fun a b => (a.1 == b.1) = false := by
  induction l with
  | nil => simp [insertEntry]
  | cons a rest ih =>
      obtain ⟨hhead, htail⟩ := List.pairwise_cons.mp h
      by_cases ha : a.1 == k
      · simp only [insertEntry, if_pos ha]
        exact List.pairwise_cons.mpr ⟨hhead, htail⟩
      · simp only [insertEntry, if_neg ha]
        refine List.pairwise_cons.mpr ⟨fun e he => ?_, ih htail⟩
        rcases mem_insertEntry_fst he with hk | ⟨e', he', hf⟩
        · rw [hk]
          simpa using ha
        · rw [← hf]
          exact hhead e' he'

def insert (m : KeyedMap K V) (k : K) (v : V) : KeyedMap K V :=
  ⟨insertEntry k v m.entries, pairwise_insertEntry k v m.entries m.distinct⟩

/-- Collect pairs in order: a later pair replaces the value of an equal key. -/
def ofList (l : List (K × V)) : KeyedMap K V :=
  l.foldl (fun m e => m.insert e.1 e.2) empty

@[simp] theorem entries_empty : (empty : KeyedMap K V).entries = [] := rfl

@[simp] theorem mem_keys {m : KeyedMap K V} {k : K} :
    k ∈ m.keys ↔ ∃ v, (k, v) ∈ m.entries := by
  simp [keys]

theorem exists_of_get_eq_some {m : KeyedMap K V} {k : K} {v : V} (h : m.get k = some v) :
    ∃ k', (k', v) ∈ m.entries ∧ (k' == k) = true := by
  simp only [get, Option.map_eq_some_iff, Prod.exists] at h
  obtain ⟨k', v', hfind, rfl⟩ := h
  exact ⟨k', List.mem_of_find?_eq_some hfind, by simpa using List.find?_some hfind⟩

theorem get_eq_none_iff {m : KeyedMap K V} {k : K} :
    m.get k = none ↔ ∀ k' ∈ m.keys, (k' == k) = false := by
  simp [get]

/-- An entry is found under its own key: the entries before it have other keys. -/
theorem get_of_mem [ReflBEq K] {m : KeyedMap K V} {k : K} {v : V}
    (h : (k, v) ∈ m.entries) : m.get k = some v := by
  obtain ⟨before, after, hsplit⟩ := List.append_of_mem h
  have hbefore : ∀ e ∈ before, (e.1 == k) = false := by
    intro e he
    have hd := m.distinct
    rw [hsplit] at hd
    exact (List.pairwise_append.mp hd).2.2 e he (k, v) (by simp)
  simp only [get, hsplit, List.find?_append]
  have hnone : before.find? (fun e => e.1 == k) = none := by
    rw [List.find?_eq_none]
    intro e he
    simp [hbefore e he]
  simp [hnone]

theorem nodup_entries [ReflBEq K] (m : KeyedMap K V) : m.entries.Nodup := by
  apply m.distinct.imp
  rintro a b h rfl
  simp at h

theorem nodup_keys [ReflBEq K] (m : KeyedMap K V) : m.keys.Nodup := by
  refine List.pairwise_map.mpr (m.distinct.imp ?_)
  intro a b hab
  exact ne_of_beq_false hab

/-- Equal keys find the same value. -/
theorem get_congr [PartialEquivBEq K] (m : KeyedMap K V) {a b : K} (h : (a == b) = true) :
    m.get a = m.get b := by
  have hfun : (fun e : K × V => e.1 == a) = fun e => e.1 == b :=
    funext fun e => Bool.eq_iff_iff.mpr
      ⟨fun ha => BEq.trans ha h, fun hb => BEq.trans hb (BEq.symm h)⟩
  simp only [get, hfun]

theorem exists_mem_insertEntry_iff (p : K → Prop) (k : K) (v : V) (l : List (K × V))
    (hp : ∀ a b, (a == b) = true → (p a ↔ p b)) :
    (∃ e ∈ insertEntry k v l, p e.1) ↔ p k ∨ ∃ e ∈ l, p e.1 := by
  induction l with
  | nil => simp [insertEntry]
  | cons a rest ih =>
      by_cases ha : a.1 == k
      · simp only [insertEntry, if_pos ha, List.mem_cons, exists_eq_or_imp, hp a.1 k ha]
        tauto
      · simp only [insertEntry, if_neg ha, List.mem_cons, exists_eq_or_imp, ih]
        tauto

/-- Collecting pairs keeps every key, up to `==`, and adds none. -/
theorem exists_mem_ofList_iff (p : K → Prop) (l : List (K × V))
    (hp : ∀ a b, (a == b) = true → (p a ↔ p b)) :
    (∃ k ∈ (ofList l).keys, p k) ↔ ∃ e ∈ l, p e.1 := by
  have hfold : ∀ (m : KeyedMap K V),
      (∃ e ∈ (l.foldl (fun m e => m.insert e.1 e.2) m).entries, p e.1) ↔
        (∃ e ∈ m.entries, p e.1) ∨ ∃ e ∈ l, p e.1 := by
    induction l with
    | nil => simp
    | cons a rest ih =>
        intro m
        rw [List.foldl_cons, ih]
        simp only [insert, exists_mem_insertEntry_iff p a.1 a.2 m.entries hp,
          List.mem_cons, exists_eq_or_imp]
        rw [or_assoc, or_left_comm]
  have h := hfold empty
  simp only [entries_empty, List.not_mem_nil, false_and, exists_false, false_or] at h
  rw [← h]
  simp only [keys, List.mem_map, exists_exists_and_eq_and, ofList]

/-- Every collected key comes from the list, also when `==` merges keys. -/
theorem exists_mem_of_mem_keys_ofList {l : List (K × V)} {k : K} (h : k ∈ (ofList l).keys) :
    ∃ e ∈ l, e.1 = k := by
  have hfold : ∀ (l : List (K × V)) (m : KeyedMap K V),
      k ∈ (l.foldl (fun m e => m.insert e.1 e.2) m).keys → k ∈ m.keys ∨ ∃ e ∈ l, e.1 = k := by
    intro l
    induction l with
    | nil => exact fun m hm => Or.inl hm
    | cons a rest ih =>
        intro m hm
        rcases ih (m.insert a.1 a.2) hm with hin | ⟨e, he, hk⟩
        · obtain ⟨v, hv⟩ := mem_keys.mp hin
          rcases mem_insertEntry_fst hv with ha | ⟨e', he', hk⟩
          · exact Or.inr ⟨a, by simp, ha.symm⟩
          · exact Or.inl (List.mem_map.mpr ⟨e', he', hk⟩)
        · exact Or.inr ⟨e, by simp [he], hk⟩
  rcases hfold l empty h with hin | hin
  · simp [keys] at hin
  · exact hin

theorem insertEntry_of_free {k : K} {v : V} {l : List (K × V)}
    (h : ∀ e ∈ l, (e.1 == k) = false) : insertEntry k v l = l ++ [(k, v)] := by
  induction l with
  | nil => rfl
  | cons a rest ih =>
      have ha : (a.1 == k) = false := h a List.mem_cons_self
      rw [insertEntry, ha, ih fun e he => h e (List.mem_cons_of_mem _ he)]
      rfl

theorem entries_insert_of_none {m : KeyedMap K V} {k : K} (h : m.get k = none) (v : V) :
    (m.insert k v).entries = m.entries ++ [(k, v)] :=
  insertEntry_of_free fun e he => get_eq_none_iff.mp h e.1 (mem_keys.mpr ⟨e.2, he⟩)

/-- Pairs with different keys are collected as they are. -/
theorem entries_ofList {l : List (K × V)} (h : l.Pairwise fun a b => (a.1 == b.1) = false) :
    (ofList l).entries = l := by
  have hfold : ∀ (l : List (K × V)) (m : KeyedMap K V),
      (m.entries ++ l).Pairwise (fun a b => (a.1 == b.1) = false) →
        (l.foldl (fun m e => m.insert e.1 e.2) m).entries = m.entries ++ l := by
    intro l
    induction l with
    | nil => exact fun m _ => (List.append_nil _).symm
    | cons a rest ih =>
        intro m hm
        have hinsert : (m.insert a.1 a.2).entries = m.entries ++ [a] :=
          insertEntry_of_free fun e he =>
            (List.pairwise_append.mp hm).2.2 e he a List.mem_cons_self
        rw [List.foldl_cons, ih, hinsert, List.append_assoc, List.singleton_append]
        rwa [hinsert, List.append_assoc, List.singleton_append]
  exact hfold l empty h

theorem ofList_entries (m : KeyedMap K V) : ofList m.entries = m := by
  obtain ⟨entries, distinct⟩ := m
  have h := entries_ofList distinct
  revert h
  generalize ofList entries = m'
  rintro rfl
  rfl

@[simp] theorem mem_keys_insert [LawfulBEq K] (m : KeyedMap K V) (k : K) (v : V) (a : K) :
    a ∈ (m.insert k v).keys ↔ a = k ∨ a ∈ m.keys := by
  have h := exists_mem_insertEntry_iff (fun x => x = a) k v m.entries
    (fun x y hxy => by rw [eq_of_beq hxy])
  simpa [keys, insert, eq_comm] using h

section Forall

variable {p : K → Prop} {q : V → Prop}

/-- Every key satisfies one condition and every value another. -/
def Forall (p : K → Prop) (q : V → Prop) (m : KeyedMap K V) : Prop :=
  ∀ e ∈ m.entries, p e.1 ∧ q e.2

theorem forall_empty : (empty : KeyedMap K V).Forall p q := by simp [Forall]

theorem Forall.insert {m : KeyedMap K V} (h : m.Forall p q) {k : K} {v : V} (hk : p k)
    (hv : q v) : (m.insert k v).Forall p q := by
  have hlist : ∀ l : List (K × V), (∀ e ∈ l, p e.1 ∧ q e.2) →
      ∀ e ∈ insertEntry k v l, p e.1 ∧ q e.2 := by
    intro l
    induction l with
    | nil =>
        intro _ e he
        rw [List.mem_singleton.mp he]
        exact ⟨hk, hv⟩
    | cons a rest ih =>
        intro hl
        obtain ⟨ha, hrest⟩ := List.forall_mem_cons.mp hl
        rw [insertEntry]
        split
        · exact List.forall_mem_cons.mpr ⟨⟨ha.1, hv⟩, hrest⟩
        · exact List.forall_mem_cons.mpr ⟨ha, ih hrest⟩
  exact hlist m.entries h

theorem forall_ofList {l : List (K × V)} (h : ∀ e ∈ l, p e.1 ∧ q e.2) :
    (ofList l).Forall p q := by
  have hfold : ∀ (l : List (K × V)) (m : KeyedMap K V), (∀ e ∈ l, p e.1 ∧ q e.2) →
      m.Forall p q → (l.foldl (fun m e => m.insert e.1 e.2) m).Forall p q := by
    intro l
    induction l with
    | nil => exact fun m _ hm => hm
    | cons a rest ih =>
        intro m hl hm
        obtain ⟨ha, hrest⟩ := List.forall_mem_cons.mp hl
        exact ih _ hrest (hm.insert ha.1 ha.2)
  exact hfold l empty h forall_empty

end Forall

section Modify

/-- Change the value at an equal key, if there is one. -/
def modify (m : KeyedMap K V) (k : K) (f : V → V) : KeyedMap K V :=
  ⟨m.entries.map fun e => if e.1 == k then (e.1, f e.2) else e, by
    refine List.pairwise_map.mpr (m.distinct.imp fun {a b} hab => ?_)
    split <;> split <;> exact hab⟩

@[simp] theorem keys_modify (m : KeyedMap K V) (k : K) (f : V → V) :
    (m.modify k f).keys = m.keys := by
  simp only [keys, modify, List.map_map]
  refine List.map_congr_left fun e _ => ?_
  simp only [Function.comp]
  split <;> rfl

theorem get_modify (m : KeyedMap K V) (k : K) (f : V → V) (a : K)
    [PartialEquivBEq K] :
    (m.modify k f).get a = if (a == k) = true then (m.get a).map f else m.get a := by
  have hfind : ∀ l : List (K × V),
      ((l.map fun e => if e.1 == k then (e.1, f e.2) else e).find? fun e => e.1 == a).map
          Prod.snd =
        if (a == k) = true then ((l.find? fun e => e.1 == a).map Prod.snd).map f
        else (l.find? fun e => e.1 == a).map Prod.snd := by
    intro l
    induction l with
    | nil => simp
    | cons e rest ih =>
        have hfst : (if e.1 == k then (e.1, f e.2) else e).1 = e.1 := by split <;> rfl
        cases hea : e.1 == a with
        | false => simpa only [List.map_cons, List.find?_cons, hfst, hea] using ih
        | true =>
            have hkey : (e.1 == k) = (a == k) := Bool.eq_iff_iff.mpr
              ⟨fun h => BEq.trans (BEq.symm hea) h, fun h => BEq.trans hea h⟩
            simp only [List.map_cons, List.find?_cons, hfst, hea, Option.map_some]
            rw [hkey]
            split <;> rfl
  exact hfind m.entries

theorem Forall.modify {p : K → Prop} {q : V → Prop} {m : KeyedMap K V} (h : m.Forall p q)
    (k : K) {f : V → V} (hf : ∀ v, q v → q (f v)) : (m.modify k f).Forall p q := by
  intro e he
  obtain ⟨e', he', rfl⟩ := List.mem_map.mp he
  obtain ⟨hkey, hvalue⟩ := h e' he'
  split
  · exact ⟨hkey, hf _ hvalue⟩
  · exact ⟨hkey, hvalue⟩

end Modify

/-- The value of an equal key is replaced, or the key is added; nothing else changes. -/
theorem get_insert [PartialEquivBEq K] (m : KeyedMap K V) (k : K) (v : V) (a : K) :
    (m.insert k v).get a = if (k == a) = true then some v else m.get a := by
  have hfind : ∀ l : List (K × V), ((insertEntry k v l).find? fun e => e.1 == a).map Prod.snd =
      if (k == a) = true then some v else (l.find? fun e => e.1 == a).map Prod.snd := by
    intro l
    induction l with
    | nil =>
        rw [insertEntry, List.find?_cons]
        cases hka : k == a <;> simp
    | cons e rest ih =>
        rw [insertEntry]
        cases hek : e.1 == k with
        | true =>
            have hkey : (e.1 == a) = (k == a) := Bool.eq_iff_iff.mpr
              ⟨fun h => BEq.trans (BEq.symm hek) h, fun h => BEq.trans hek h⟩
            rw [if_pos rfl, List.find?_cons, List.find?_cons, hkey]
            cases hka : k == a <;> simp
        | false =>
            rw [if_neg (by simp), List.find?_cons, List.find?_cons]
            cases hea : e.1 == a with
            | false => exact ih
            | true =>
                have hka : (k == a) = false := Bool.eq_false_iff.mpr fun h =>
                  absurd (BEq.trans hea (BEq.symm h)) (by simp [hek])
                simp [hka]
  exact hfind m.entries

section Lawful

variable [LawfulBEq K] {m : KeyedMap K V} {k a : K} {v w : V}

theorem get_eq_some_iff : m.get k = some v ↔ (k, v) ∈ m.entries := by
  constructor
  · intro h
    obtain ⟨k', hmem, hk⟩ := exists_of_get_eq_some h
    rwa [eq_of_beq hk] at hmem
  · exact get_of_mem

theorem mem_entries_insert {e : K × V} (h : e ∈ (m.insert k v).entries) :
    e = (k, v) ∨ e ∈ m.entries := by
  have hlist : ∀ l : List (K × V), e ∈ insertEntry k v l → e = (k, v) ∨ e ∈ l := by
    intro l
    induction l with
    | nil => exact fun h => Or.inl (List.mem_singleton.mp h)
    | cons a rest ih =>
        intro h
        rw [insertEntry] at h
        split at h
        · rename_i hak
          rcases List.mem_cons.mp h with rfl | h
          · exact Or.inl (by rw [eq_of_beq hak])
          · exact Or.inr (List.mem_cons_of_mem _ h)
        · rcases List.mem_cons.mp h with rfl | h
          · exact Or.inr List.mem_cons_self
          · exact (ih h).imp_right (List.mem_cons_of_mem _)
  exact hlist m.entries h

theorem get_insert_eq_ite [DecidableEq K] (m : KeyedMap K V) (k : K) (v : V) (a : K) :
    (m.insert k v).get a = if a = k then some v else m.get a := by
  rw [get_insert]
  exact if_congr (beq_iff_eq.trans eq_comm) rfl rfl

/-- Collecting pairs adds no entry that is not among them. -/
theorem mem_of_mem_entries_ofList {l : List (K × V)} {e : K × V}
    (h : e ∈ (ofList l).entries) : e ∈ l := by
  have hfold : ∀ (l : List (K × V)) (m : KeyedMap K V),
      e ∈ (l.foldl (fun m e => m.insert e.1 e.2) m).entries → e ∈ m.entries ∨ e ∈ l := by
    intro l
    induction l with
    | nil => exact fun m h => Or.inl h
    | cons a rest ih =>
        intro m h
        rcases ih _ h with hmem | hmem
        · rcases mem_entries_insert hmem with rfl | hmem
          · exact Or.inr List.mem_cons_self
          · exact Or.inl hmem
        · exact Or.inr (List.mem_cons_of_mem _ hmem)
  exact (hfold l empty h).resolve_left (by simp)

/-- Of several pairs with one key, the last one is collected. -/
theorem get_ofList (l : List (K × V)) (k : K) :
    (ofList l).get k = (l.reverse.find? fun e => e.1 == k).map Prod.snd := by
  have hfold : ∀ (l : List (K × V)) (m : KeyedMap K V),
      (l.foldl (fun m e => m.insert e.1 e.2) m).get k =
        ((l.reverse.find? fun e => e.1 == k).map Prod.snd).or (m.get k) := by
    intro l
    induction l with
    | nil => exact fun m => rfl
    | cons e rest ih =>
        intro m
        rw [List.foldl_cons, ih, List.reverse_cons, List.find?_append, get_insert]
        cases hrest : rest.reverse.find? fun e => e.1 == k with
        | some e' => rfl
        | none =>
            rw [List.find?_singleton]
            cases hek : e.1 == k with
            | true => rfl
            | false => rfl
  rw [ofList, hfold]
  exact Option.or_none

/-- An entry of a map is also found from behind. -/
theorem find?_reverse_entries (m : KeyedMap K V) (k : K) :
    (m.entries.reverse.find? fun e => e.1 == k).map Prod.snd = m.get k := by
  rw [← get_ofList, ofList_entries]

end Lawful

/-- Keep the entries whose key passes the test. -/
def filter (m : KeyedMap K V) (p : K → Bool) : KeyedMap K V :=
  ⟨m.entries.filter fun e => p e.1, m.distinct.filter _⟩

theorem get_filter [LawfulBEq K] (m : KeyedMap K V) (p : K → Bool) (k : K) :
    (m.filter p).get k = if p k then m.get k else none := by
  apply Option.ext
  intro v
  rw [get_eq_some_iff, filter, List.mem_filter]
  split
  · rename_i hk
    simp only [hk, and_true, get_eq_some_iff]
  · rename_i hk
    simp only [hk, and_false, reduceCtorEq, Bool.false_eq_true]

/-- With lawful keys, collecting pairs gives exactly the keys of the list. -/
theorem mem_keys_ofList [LawfulBEq K] (l : List (K × V)) (k : K) :
    k ∈ (ofList l).keys ↔ k ∈ l.map Prod.fst := by
  have h := exists_mem_ofList_iff (fun x => x = k) l (fun a b hab => by rw [eq_of_beq hab])
  simpa [eq_comm] using h

end KeyedMap

end Npnpm
