import Npnpm.Library.OneWay
import Npnpm.Library.Results

/-!
# Maps that are iterated in another order

Equal hash maps need not iterate in one order. What is looked up in them is equal, and maps in
which equal values are looked up are equal.
-/

namespace Npnpm

section Lookups

variable {K V W : Type*} [BEq K] [EquivBEq K] {same : V → V → Prop} {m n : KeyedMap K V}

/-- A map has as many entries as another at least, if it has all its keys. -/
theorem KeyedMap.length_le_of_keys (h : ∀ e ∈ m.entries, (n.get e.1).isSome) :
    m.entries.length ≤ n.entries.length := by
  have hpartner : ∀ a ∈ m.entries, ∃ b ∈ n.entries, (b.1 == a.1) = true := by
    intro a ha
    obtain ⟨v, hv⟩ := Option.isSome_iff_exists.mp (h a ha)
    obtain ⟨k, hk, heq⟩ := KeyedMap.exists_of_get_eq_some hv
    exact ⟨(k, v), hk, heq⟩
  choose f hmem hkey using hpartner
  have hnodup : (m.entries.pmap f fun _ ha => ha).Nodup := by
    apply m.nodup_entries.pmap
    intro a ha b hb heq
    have hb' := hkey b hb
    rw [← heq] at hb'
    exact KeyedMap.eq_of_mem_of_beq ha hb (BEq.trans (BEq.symm (hkey a ha)) hb')
  have hsub : (m.entries.pmap f fun _ ha => ha) ⊆ n.entries := by
    intro b hb
    obtain ⟨a, ha, rfl⟩ := List.mem_pmap.mp hb
    exact hmem a ha
  calc m.entries.length = (m.entries.pmap f fun _ ha => ha).length := by simp
    _ ≤ n.entries.length := (List.subperm_of_subset hnodup hsub).length_le

/-- Equal values are looked up in equal maps. -/
theorem KeyedMap.Same.get (h : m.Same same n) (k : K) :
    Option.Rel same (m.get k) (n.get k) := by
  cases hm : m.get k with
  | some v =>
      obtain ⟨k', hmem, hk⟩ := KeyedMap.exists_of_get_eq_some hm
      obtain ⟨w, hw, hsame⟩ := h.2 _ hmem
      rw [KeyedMap.get_congr n hk] at hw
      rw [hw]
      exact .some hsame
  | none =>
      cases hn : n.get k with
      | none => exact .none
      | some w =>
          obtain ⟨k', hmem, hk⟩ := KeyedMap.exists_of_get_eq_some hn
          obtain ⟨a, ha, hak, -⟩ := h.exists_partner hmem
          have hget : m.get a.1 = some a.2 := KeyedMap.get_of_mem ha
          rw [KeyedMap.get_congr m (BEq.trans hak hk), hm] at hget
          cases hget

/-- Maps in which equal values are looked up are equal. -/
theorem KeyedMap.Same.of_get (h : ∀ k, Option.Rel same (m.get k) (n.get k)) : m.Same same n := by
  have hforth : ∀ e ∈ m.entries, ∃ v, n.get e.1 = some v ∧ same e.2 v := by
    intro e he
    have hrel := h e.1
    rw [KeyedMap.get_of_mem (v := e.2) he] at hrel
    generalize n.get e.1 = found at hrel
    cases hrel with
    | some hsame => exact ⟨_, rfl, hsame⟩
  have hback : ∀ e ∈ n.entries, (m.get e.1).isSome := by
    intro e he
    have hrel := h e.1
    rw [KeyedMap.get_of_mem (v := e.2) he] at hrel
    generalize m.get e.1 = found at hrel ⊢
    cases hrel
    rfl
  refine ⟨Nat.le_antisymm (KeyedMap.length_le_of_keys hback) ?_, hforth⟩
  apply KeyedMap.length_le_of_keys
  intro e he
  obtain ⟨v, hv, -⟩ := hforth e he
  simp [hv]

omit [EquivBEq K] in
theorem optionRel_symm {same' : V → V → Prop} (hsymm : ∀ a b, same a b → same' b a)
    {a b : Option V} (h : Option.Rel same a b) : Option.Rel same' b a := by
  cases h with
  | none => exact .none
  | some h => exact .some (hsymm _ _ h)

theorem KeyedMap.Same.symm {same' : V → V → Prop} (hsymm : ∀ a b, same a b → same' b a)
    (h : m.Same same n) : n.Same same' m :=
  .of_get fun k => optionRel_symm hsymm (h.get k)

/-- Maps of plain values are looked up alike. -/
theorem KeyedMap.Same.get_eq (h : m.Same (· = ·) n) (k : K) : n.get k = m.get k := by
  have hrel := h.get k
  generalize m.get k = a, n.get k = b at hrel
  cases hrel with
  | none => rfl
  | some h => exact congrArg some h.symm

/-- Maps that differ in the value of their first key, where these are equal, are equal. -/
theorem KeyedMap.Same.of_first (hrefl : ∀ v, same v v) {after : List (K × V)} {k : K} {v v' : V}
    (hm : m.entries = (k, v) :: after) (hn : n.entries = (k, v') :: after) (hv : same v v') :
    m.Same same n := by
  have hsplit : m.entries = [] ++ (k, v) :: after := hm
  obtain ⟨⟨entries, _⟩, hentries, hsame⟩ := KeyedMap.Same.of_replace hrefl hsplit BEq.rfl hv
  obtain ⟨entries', _⟩ := n
  obtain rfl : entries = entries' := hentries.trans hn.symm
  exact hsame

/-- The values are changed, and the keys stay. -/
def KeyedMap.mapValues (f : V → W) (m : KeyedMap K V) : KeyedMap K W :=
  ⟨m.entries.map fun e => (e.1, f e.2), List.pairwise_map.mpr m.distinct⟩

omit [EquivBEq K] in
theorem KeyedMap.get_mapValues (f : V → W) (m : KeyedMap K V) (k : K) :
    (m.mapValues f).get k = (m.get k).map f := by
  simp only [KeyedMap.get, mapValues, List.find?_map, Option.map_map]
  rfl

omit [EquivBEq K] in
theorem KeyedMap.Same.mapValues {same : W → W → Prop} {f : V → W}
    (h : m.Same (fun a b => same (f a) (f b)) n) : (m.mapValues f).Same same (n.mapValues f) := by
  refine ⟨by simpa [KeyedMap.mapValues] using h.1, fun e he => ?_⟩
  obtain ⟨e', he', rfl⟩ := List.mem_map.mp he
  obtain ⟨v, hv, hsame⟩ := h.2 e' he'
  refine ⟨f v, ?_, hsame⟩
  rw [KeyedMap.get_mapValues, hv]
  rfl

end Lookups

namespace Results

variable {ε α β γ δ : Type} {R : α → β → Prop} {S : γ → δ → Prop}

/-- Two computations end in one error, or in related results. -/
inductive Rel (R : α → β → Prop) : Except ε α → Except ε β → Prop
  | error (e : ε) : Rel R (.error e) (.error e)
  | ok {a b} (h : R a b) : Rel R (.ok a) (.ok b)

theorem Rel.bind {x : Except ε α} {y : Except ε β} {f : α → Except ε γ} {g : β → Except ε δ}
    (hxy : Rel R x y) (hfg : ∀ a b, R a b → Rel S (f a) (g b)) : Rel S (x >>= f) (y >>= g) := by
  cases hxy with
  | error e => exact .error e
  | ok h => exact hfg _ _ h

theorem Rel.exists_ok {x : Except ε α} {y : Except ε β} (h : Rel R x y) {a : α}
    (hx : x = .ok a) : ∃ b, y = .ok b ∧ R a b := by
  subst hx
  cases h with
  | ok h => exact ⟨_, rfl, h⟩

theorem Rel.of_error {x : Except ε α} {y : Except ε β} (h : Rel R x y) {e : ε}
    (hx : x = .error e) : y = .error e := by
  subst hx
  cases h
  rfl

end Results

end Npnpm
