import Npnpm.Library.SerdeRoundTrip
import Mathlib.Data.List.Perm.Subperm
import Mathlib.Tactic.Choose

/-!
# Values that are written in one way

A type may compare values that hold their data differently: equal hash maps need
not iterate in one order. A value is written in one way when everything that
equals it is written as it is. For a map this says that no two of its entries are
written differently, since they can be iterated in either order.
-/

namespace Npnpm

open Npnpm.Serde

section OneWay

variable {α β D : Type*}

/-- Whatever equals the value is written as the value is. -/
def OneWay (same : α → α → Prop) (write : α → D) (x : α) : Prop :=
  ∀ y, same x y → write y = write x

theorem oneWay_eq (write : α → D) (x : α) : OneWay (· = ·) write x := by
  rintro y rfl
  rfl

theorem optionRel_refl {same : α → α → Prop} (hrefl : ∀ x, same x x) (o : Option α) :
    Option.Rel same o o := by
  cases o with
  | none => exact .none
  | some x => exact .some (hrefl x)

theorem oneWay_option_iff {same : α → α → Prop} {write : α → D} {o : Option α} :
    OneWay (Option.Rel same) (Option.map write) o ↔ ∀ x ∈ o, OneWay same write x := by
  cases o with
  | none =>
      refine ⟨fun _ x hx => absurd hx (by simp), fun _ y hy => ?_⟩
      cases hy
      rfl
  | some x =>
      constructor
      · intro h x' hx' y hy
        obtain rfl : x = x' := by simpa using hx'
        simpa using h (some y) (.some hy)
      · intro h y hy
        cases hy with
        | some hxy => exact congrArg some (h x rfl _ hxy)

end OneWay

section Maps

variable {K V D : Type*} [BEq K]

/-- `HashMap::eq`: as many entries, and each is found in the other map. -/
def KeyedMap.Same (same : V → V → Prop) (m n : KeyedMap K V) : Prop :=
  n.entries.length = m.entries.length ∧
    ∀ e ∈ m.entries, ∃ v, n.get e.1 = some v ∧ same e.2 v

/-- No two entries are written differently. -/
def KeyedMap.Alike (key : Encoder K) (value : Encoder V) (m : KeyedMap K V) : Prop :=
  ∀ a ∈ m.entries, ∀ b ∈ m.entries, key a.1 = key b.1 ∧ value a.2 = value b.2

theorem KeyedMap.Same.refl [ReflBEq K] {same : V → V → Prop} (hrefl : ∀ v, same v v)
    (m : KeyedMap K V) : m.Same same m :=
  ⟨rfl, fun e he => ⟨e.2, KeyedMap.get_of_mem he, hrefl e.2⟩⟩

/-- Where different keys are written differently, maps have at most one entry. -/
theorem KeyedMap.alike_iff_length_le_one [ReflBEq K] {key : Encoder K} {value : Encoder V}
    {m : KeyedMap K V} (hkey : ∀ a ∈ m.keys, ∀ b ∈ m.keys, key a = key b → (a == b) = true) :
    m.Alike key value ↔ m.entries.length ≤ 1 := by
  constructor
  · intro h
    obtain ⟨entries, hdistinct⟩ := m
    rcases entries with _ | ⟨a, _ | ⟨b, rest⟩⟩
    · simp
    · simp
    · have hne := (List.pairwise_cons.mp hdistinct).1 b (by simp)
      have heq := hkey a.1 (by simp [KeyedMap.keys]) b.1 (by simp [KeyedMap.keys])
        (h a (by simp) b (by simp)).1
      simp [heq] at hne
  · intro h a ha b hb
    obtain ⟨entries, hdistinct⟩ := m
    rcases entries with _ | ⟨c, _ | ⟨d, rest⟩⟩
    · simp at ha
    · obtain rfl : a = c := by simpa using ha
      obtain rfl : b = a := by simpa using hb
      exact ⟨rfl, rfl⟩
    · simp at h

variable [EquivBEq K] {same : V → V → Prop} {key : Encoder K} {value : Encoder V}

theorem KeyedMap.eq_of_mem_of_beq {m : KeyedMap K V} {a b : K × V} (ha : a ∈ m.entries)
    (hb : b ∈ m.entries) (h : (a.1 == b.1) = true) : a = b := by
  have hsymm : Std.Symm fun a b : K × V => (a.1 == b.1) = false :=
    ⟨fun a b hab => by rw [← hab]; exact BEq.comm⟩
  by_contra hne
  have hdiff := m.distinct.forall ha hb hne
  rw [h] at hdiff
  cases hdiff

/-- The entries of an equal map are the partners of the entries. -/
theorem KeyedMap.Same.exists_partner {m n : KeyedMap K V} (h : m.Same same n) {b : K × V}
    (hb : b ∈ n.entries) : ∃ a ∈ m.entries, (a.1 == b.1) = true ∧ same a.2 b.2 := by
  have hpartner : ∀ a ∈ m.entries, ∃ b ∈ n.entries, (a.1 == b.1) = true ∧ same a.2 b.2 := by
    intro a ha
    obtain ⟨v, hv, hsame⟩ := h.2 a ha
    obtain ⟨k, hk, heq⟩ := KeyedMap.exists_of_get_eq_some hv
    exact ⟨(k, v), hk, BEq.symm heq, hsame⟩
  choose f hmem hkey hval using hpartner
  have hnodup : (m.entries.pmap f fun _ ha => ha).Nodup := by
    apply m.nodup_entries.pmap
    intro a ha c hc heq
    have hc' := hkey c hc
    rw [← heq] at hc'
    exact KeyedMap.eq_of_mem_of_beq ha hc (BEq.trans (hkey a ha) (BEq.symm hc'))
  have hsub : (m.entries.pmap f fun _ ha => ha) ⊆ n.entries := by
    intro c hc
    obtain ⟨a, ha, rfl⟩ := List.mem_pmap.mp hc
    exact hmem a ha
  have hperm := (List.subperm_of_subset hnodup hsub).perm_of_length_le (by simp [h.1])
  obtain ⟨a, ha, rfl⟩ := List.mem_pmap.mp (hperm.mem_iff.mpr hb)
  exact ⟨a, ha, hkey a ha, hval a ha⟩

/-- Iterating in another order gives an equal map. -/
theorem KeyedMap.Same.of_perm {m : KeyedMap K V} (hrefl : ∀ v, same v v) {l : List (K × V)}
    (hl : l.Perm m.entries) : ∃ n : KeyedMap K V, n.entries = l ∧ m.Same same n := by
  have hsymm : ∀ {a b : K × V}, (a.1 == b.1) = false → (b.1 == a.1) = false := by
    intro a b hab
    rw [← hab]
    exact BEq.comm
  refine ⟨⟨l, (hl.pairwise_iff hsymm).mpr m.distinct⟩, rfl, hl.length_eq, ?_⟩
  intro e he
  exact ⟨e.2, KeyedMap.get_of_mem (hl.mem_iff.mpr he), hrefl e.2⟩

/-- Replacing one entry by an equal one gives an equal map. -/
theorem KeyedMap.Same.of_replace {m : KeyedMap K V} (hrefl : ∀ v, same v v)
    {before after : List (K × V)} {k k' : K} {v v' : V}
    (hm : m.entries = before ++ (k, v) :: after) (hk : (k == k') = true) (hv : same v v') :
    ∃ n : KeyedMap K V, n.entries = before ++ (k', v') :: after ∧ m.Same same n := by
  have hd := m.distinct
  rw [hm, List.pairwise_append, List.pairwise_cons] at hd
  obtain ⟨hbefore, ⟨hhead, hafter⟩, hcross⟩ := hd
  have hdistinct : (before ++ (k', v') :: after).Pairwise
      fun a b => (a.1 == b.1) = false := by
    rw [List.pairwise_append, List.pairwise_cons]
    refine ⟨hbefore, ⟨fun e he => ?_, hafter⟩, fun a ha b hb => ?_⟩
    · rw [← BEq.congr_left hk]
      exact hhead e he
    · rcases List.mem_cons.mp hb with rfl | hb
      · rw [← BEq.congr_right hk]
        exact hcross a ha (k, v) (by simp)
      · exact hcross a ha b (List.mem_cons_of_mem _ hb)
  refine ⟨⟨_, hdistinct⟩, rfl, by simp [hm], ?_⟩
  intro e he
  rw [hm, List.mem_append, List.mem_cons] at he
  rcases he with he | rfl | he
  · exact ⟨e.2, KeyedMap.get_of_mem (by simp [he]), hrefl e.2⟩
  · refine ⟨v', ?_, hv⟩
    rw [KeyedMap.get_congr _ hk]
    exact KeyedMap.get_of_mem (by simp)
  · exact ⟨e.2, KeyedMap.get_of_mem (by simp [he]), hrefl e.2⟩

/-- A map is written in one way if and only if its keys and values are and no two
of its entries are written differently. -/
theorem oneWay_encodeMap_iff (hrefl : ∀ v, same v v) (m : KeyedMap K V) :
    OneWay (KeyedMap.Same same) (encodeMap key value) m ↔
      (∀ e ∈ m.entries, OneWay (fun a b => (a == b) = true) key e.1 ∧
        OneWay same value e.2) ∧ m.Alike key value := by
  constructor
  · intro h
    have hentry : ∀ e ∈ m.entries, ∀ k v, (e.1 == k) = true → same e.2 v →
        key k = key e.1 ∧ value v = value e.2 := by
      intro e he k v hk hv
      obtain ⟨before, after, hsplit⟩ := List.append_of_mem he
      obtain ⟨n, hn, hsame⟩ := KeyedMap.Same.of_replace hrefl hsplit hk hv
      have heq := h n hsame
      simpa [encodeMap, hn, hsplit] using heq
    refine ⟨fun e he => ⟨fun k hk => ?_, fun v hv => ?_⟩, fun a ha b hb => ?_⟩
    · exact (hentry e he k e.2 hk (hrefl _)).1
    · exact (hentry e he e.1 v BEq.rfl hv).2
    · -- Either entry can be the first one that is iterated.
      have hfirst : ∀ e ∈ m.entries, (m.entries.map fun e => (key e.1, value e.2)).head? =
          some (key e.1, value e.2) := by
        intro e he
        obtain ⟨before, after, hsplit⟩ := List.append_of_mem he
        have hperm : (e :: (before ++ after)).Perm m.entries := by
          rw [hsplit]
          exact List.perm_middle.symm
        obtain ⟨n, hn, hsame⟩ := KeyedMap.Same.of_perm hrefl hperm
        have heq := h n hsame
        simp only [encodeMap, Document.map.injEq] at heq
        rw [← heq, hn]
        rfl
      have hab := (hfirst a ha).symm.trans (hfirst b hb)
      simpa using hab
  · rintro ⟨hentries, halike⟩ n hsame
    cases hm : m.entries with
    | nil =>
        have hn : n.entries = [] := by
          have := hsame.1
          rw [hm] at this
          exact List.length_eq_zero_iff.mp this
        simp [encodeMap, hm, hn]
    | cons c rest =>
        have hall : ∀ e ∈ m.entries, (key e.1, value e.2) = (key c.1, value c.2) := by
          intro e he
          obtain ⟨hk, hv⟩ := halike e he c (by simp [hm])
          rw [hk, hv]
        have hnall : ∀ e ∈ n.entries, (key e.1, value e.2) = (key c.1, value c.2) := by
          intro e he
          obtain ⟨a, ha, hk, hv⟩ := hsame.exists_partner he
          rw [← hall a ha, (hentries a ha).1 e.1 hk, (hentries a ha).2 e.2 hv]
        have hconst : ∀ l : List (K × V),
            (∀ e ∈ l, (key e.1, value e.2) = (key c.1, value c.2)) →
              l.map (fun e => (key e.1, value e.2)) =
                List.replicate l.length (key c.1, value c.2) := by
          intro l hl
          rw [← List.map_const']
          exact List.map_congr_left hl
        simp only [encodeMap]
        rw [hconst _ hnall, hconst _ hall, hsame.1]

/-- Keys whose comparison ignores nothing. -/
theorem oneWay_encodeMap_iff_of_lawful {K : Type*} [BEq K] [LawfulBEq K] {key : Encoder K}
    (hrefl : ∀ v, same v v) (m : KeyedMap K V) :
    OneWay (KeyedMap.Same same) (encodeMap key value) m ↔
      (∀ e ∈ m.entries, OneWay same value e.2) ∧ m.Alike key value := by
  rw [oneWay_encodeMap_iff hrefl]
  apply and_congr_left
  intro _
  constructor
  · exact fun h e he => (h e he).2
  · refine fun h e he => ⟨fun k hk => ?_, h e he⟩
    rw [eq_of_beq hk]

/-- Texts are written as they are. -/
theorem oneWay_textMap_iff (hrefl : ∀ v, same v v) (m : KeyedMap Text V) :
    OneWay (KeyedMap.Same same) (encodeMap Document.str value) m ↔
      (∀ e ∈ m.entries, OneWay same value e.2) ∧ m.entries.length ≤ 1 := by
  have hkey : ∀ a ∈ m.keys, ∀ b ∈ m.keys, Document.str a = Document.str b →
      (a == b) = true := by
    intro a _ b _ h
    simpa [Document.str] using h
  rw [oneWay_encodeMap_iff_of_lawful hrefl, KeyedMap.alike_iff_length_le_one hkey]

/-- Values that are compared as they are. -/
theorem oneWay_plainMap_iff (value : Encoder V) (m : KeyedMap Text V) :
    OneWay (KeyedMap.Same (· = ·)) (encodeMap Document.str value) m ↔
      m.entries.length ≤ 1 :=
  (oneWay_textMap_iff (fun _ => rfl) m).trans
    (and_iff_right fun e _ => oneWay_eq value e.2)

end Maps

section Records

/-- A record is known from what it is written as: its fields have fixed names. -/
theorem encodeFields_injective {l l' : List (Text × Option Document)}
    (hnames : l.map Prod.fst = l'.map Prod.fst) (hnodup : (l.map Prod.fst).Nodup)
    (h : encodeFields l = encodeFields l') : l = l' := by
  have hpresent : present l = present l' := by
    have hinj : Function.Injective fun f : Text × Document => (Document.str f.1, f.2) := by
      rintro ⟨a, b⟩ ⟨c, d⟩ heq
      simpa [Document.str] using heq
    have heq : keyed (present l) = keyed (present l') := by
      simpa [encodeFields] using h
    exact List.map_injective_iff.mpr hinj heq
  clear h
  induction l generalizing l' with
  | nil => simpa using hnames
  | cons f rest ih =>
      cases l' with
      | nil => simp at hnames
      | cons f' rest' =>
          obtain ⟨name, d⟩ := f
          obtain ⟨name', d'⟩ := f'
          simp only [List.map_cons, List.cons.injEq] at hnames
          obtain ⟨rfl, hrest⟩ := hnames
          simp only [List.map_cons, List.nodup_cons] at hnodup
          have hnotin : ∀ {l : List (Text × Option Document)} {x : Document},
              name ∉ l.map Prod.fst → (name, x) ∉ present l := by
            intro l x hl hmem
            simp only [present, List.mem_filterMap, Option.map_eq_some_iff] at hmem
            obtain ⟨f, hf, _, _, heq⟩ := hmem
            obtain ⟨rfl, -⟩ := Prod.mk.inj heq
            exact hl (List.mem_map_of_mem hf)
          have hd : d = d' := by
            cases d with
            | none =>
                cases d' with
                | none => rfl
                | some x' =>
                    have hmem : (name, x') ∈ present rest := by
                      have : present rest = (name, x') :: present rest' := by
                        simpa [present] using hpresent
                      simp [this]
                    exact absurd hmem (hnotin hnodup.1)
            | some x =>
                cases d' with
                | none =>
                    have hmem : (name, x) ∈ present rest' := by
                      have : (name, x) :: present rest = present rest' := by
                        simpa [present] using hpresent
                      simp [← this]
                    exact absurd hmem (hnotin (hrest ▸ hnodup.1))
                | some x' =>
                    have : x = x' ∧ present rest = present rest' := by
                      simpa [present] using hpresent
                    rw [this.1]
          subst hd
          have hpres : present rest = present rest' := by
            cases d <;> simpa [present] using hpresent
          rw [ih hrest hnodup.2 hpres]

theorem oneWay_encodeFields_iff {α : Type*} {same : α → α → Prop}
    {toFields : α → List (Text × Option Document)} {x : α}
    (hnames : ∀ y, same x y → (toFields y).map Prod.fst = (toFields x).map Prod.fst)
    (hnodup : ((toFields x).map Prod.fst).Nodup) :
    OneWay same (fun x => encodeFields (toFields x)) x ↔ OneWay same toFields x := by
  constructor
  · intro h y hy
    have hy' := hnames y hy
    exact encodeFields_injective hy' (hy' ▸ hnodup) (h y hy)
  · intro h y hy
    exact congrArg encodeFields (h y hy)

end Records

end Npnpm
