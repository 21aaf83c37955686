import Mathlib.Data.List.Basic
import Mathlib.Logic.Relation

/-!
# Depth-first walks

A walk handles a list of labelled nodes in order. A node that was not seen before
is followed at once by its successors, whose labels are computed from its own; a
node that was seen, or that counts as a seen one, is only visited. Where nodes
count as themselves only, the label under which a node is found is that of the
first way to it.

## Implementation notes

The walk is a relation: it says nothing of walks that do not end. The nodes found
by a part of the walk are kept in the order of their discovery.
-/

namespace Npnpm.DepthFirst

variable {α L E : Type}

section Walk

/-- Labelled edges, the label that an edge leads to, and which nodes count as one. -/
structure Graph (α L E : Type) where
  edges : α → List (E × α)
  label : L → E → L
  same : α → α → Prop

variable (g : Graph α L E)

/-- The successors of a node, labelled from the label of the node. -/
def Graph.successors (a : L × α) : List (L × α) :=
  (g.edges a.2).map fun e => (g.label a.1 e.1, e.2)

/-- The walk along `todo` from the nodes of `seen`, with its visits and the nodes
it found. -/
inductive Walk : List α → List (L × α) → List (L × α) → List (L × α) → Prop
  | nil {seen} : Walk seen [] [] []
  | again {seen a rest visits found} (hseen : ∃ s ∈ seen, g.same s a.2)
      (hrest : Walk seen rest visits found) : Walk seen (a :: rest) (a :: visits) found
  | fresh {seen a rest v₁ f₁ v₂ f₂} (hnew : ∀ s ∈ seen, ¬ g.same s a.2)
      (hbelow : Walk (a.2 :: seen) (g.successors a) v₁ f₁)
      (hrest : Walk (f₁.map Prod.snd ++ a.2 :: seen) rest v₂ f₂) :
      Walk seen (a :: rest) (a :: v₁ ++ v₂) (a :: f₁ ++ f₂)

variable {g} {seen : List α} {todo visits found : List (L × α)}

/-- The seen nodes matter as a set. -/
theorem Walk.congr {seen' : List α} (h : Walk g seen todo visits found)
    (hseen : ∀ x, x ∈ seen ↔ x ∈ seen') : Walk g seen' todo visits found := by
  induction h generalizing seen' with
  | nil => exact .nil
  | again hold _ ih =>
      obtain ⟨s, hs, hsame⟩ := hold
      exact .again ⟨s, (hseen s).mp hs, hsame⟩ (ih hseen)
  | fresh hnew _ _ ih₁ ih₂ =>
      refine .fresh (fun s hs => hnew s ((hseen s).mpr hs)) (ih₁ fun x => ?_) (ih₂ fun x => ?_)
      · rw [List.mem_cons, List.mem_cons, hseen]
      · rw [List.mem_append, List.mem_append, List.mem_cons, List.mem_cons, hseen]

/-- A walk depends on nothing but its start. -/
theorem Walk.functional {visits' found' : List (L × α)} (h : Walk g seen todo visits found)
    (h' : Walk g seen todo visits' found') : visits = visits' ∧ found = found' := by
  induction h generalizing visits' found' with
  | nil =>
      cases h'
      exact ⟨rfl, rfl⟩
  | again hseen _ ih =>
      cases h' with
      | again _ hrest =>
          obtain ⟨rfl, rfl⟩ := ih hrest
          exact ⟨rfl, rfl⟩
      | fresh hnew _ _ =>
          obtain ⟨s, hs, hsame⟩ := hseen
          exact absurd hsame (hnew s hs)
  | fresh hnew _ _ ih₁ ih₂ =>
      cases h' with
      | again hseen _ =>
          obtain ⟨s, hs, hsame⟩ := hseen
          exact absurd hsame (hnew s hs)
      | fresh _ hbelow hrest =>
          obtain ⟨rfl, rfl⟩ := ih₁ hbelow
          obtain ⟨rfl, rfl⟩ := ih₂ hrest
          exact ⟨rfl, rfl⟩

/-- Every visit is of a start or of a successor of a found node, and all of these
are visited. -/
theorem Walk.mem_visits_iff (h : Walk g seen todo visits found) (a : L × α) :
    a ∈ visits ↔ a ∈ todo ∨ ∃ b ∈ found, a ∈ g.successors b := by
  induction h with
  | nil => simp
  | again _ _ ih => simp only [List.mem_cons, ih, or_assoc]
  | fresh _ _ _ ih₁ ih₂ =>
      simp only [List.cons_append, List.mem_cons, List.mem_append, ih₁, ih₂, or_and_right,
        exists_or, exists_eq_left]
      grind

/-- What is found is visited. -/
theorem Walk.found_subset (h : Walk g seen todo visits found) {a : L × α} (ha : a ∈ found) :
    a ∈ visits := by
  induction h with
  | nil => cases ha
  | again _ _ ih => exact List.mem_cons_of_mem _ (ih ha)
  | fresh _ _ _ ih₁ ih₂ =>
      simp only [List.cons_append, List.mem_cons, List.mem_append] at ha ⊢
      exact ha.imp id (Or.imp ih₁ ih₂)

/-- What is visited counts as a node that was seen or found. -/
theorem Walk.exists_same (h : Walk g seen todo visits found) {a : L × α} (ha : a ∈ visits) :
    ∃ s, (s ∈ seen ∨ s ∈ found.map Prod.snd) ∧ (s = a.2 ∨ g.same s a.2) := by
  induction h with
  | nil => cases ha
  | again hseen _ ih =>
      rcases List.mem_cons.mp ha with rfl | ha
      · obtain ⟨s, hs, hsame⟩ := hseen
        exact ⟨s, Or.inl hs, Or.inr hsame⟩
      · exact ih ha
  | @fresh seen b rest v₁ f₁ v₂ f₂ _ _ _ ih₁ ih₂ =>
      simp only [List.cons_append, List.mem_cons, List.mem_append] at ha
      have hmem : ∀ s, s ∈ (b :: f₁ ++ f₂).map Prod.snd ↔
          s = b.2 ∨ s ∈ f₁.map Prod.snd ∨ s ∈ f₂.map Prod.snd := by
        intro s
        rw [List.cons_append, List.map_cons, List.map_append, List.mem_cons, List.mem_append]
      rcases ha with rfl | ha | ha
      · exact ⟨a.2, Or.inr ((hmem a.2).mpr (Or.inl rfl)), Or.inl rfl⟩
      · obtain ⟨s, hs, hsame⟩ := ih₁ ha
        refine ⟨s, ?_, hsame⟩
        rcases hs with hs | hs
        · rcases List.mem_cons.mp hs with rfl | hs
          · exact Or.inr ((hmem b.2).mpr (Or.inl rfl))
          · exact Or.inl hs
        · exact Or.inr ((hmem s).mpr (Or.inr (Or.inl hs)))
      · obtain ⟨s, hs, hsame⟩ := ih₂ ha
        refine ⟨s, ?_, hsame⟩
        rcases hs with hs | hs
        · rcases List.mem_append.mp hs with hs | hs
          · exact Or.inr ((hmem s).mpr (Or.inr (Or.inl hs)))
          · rcases List.mem_cons.mp hs with rfl | hs
            · exact Or.inr ((hmem b.2).mpr (Or.inl rfl))
            · exact Or.inl hs
        · exact Or.inr ((hmem s).mpr (Or.inr (Or.inr hs)))

/-- No node is found that counts as a seen one or as one found before. -/
theorem Walk.found_new (h : Walk g seen todo visits found) :
    (found.map Prod.snd).Pairwise (fun x y => ¬ g.same x y) ∧
      ∀ x ∈ found.map Prod.snd, ∀ s ∈ seen, ¬ g.same s x := by
  induction h with
  | nil => simp
  | again _ _ ih => exact ih
  | @fresh seen a rest v₁ f₁ v₂ f₂ hnew _ _ ih₁ ih₂ =>
      simp only [List.cons_append, List.map_cons, List.map_append, List.pairwise_cons,
        List.pairwise_append, List.mem_append, List.mem_cons]
      refine ⟨⟨?_, ih₁.1, ih₂.1, ?_⟩, ?_⟩
      · rintro x (hx | hx)
        · exact ih₁.2 x hx a.2 List.mem_cons_self
        · exact ih₂.2 x hx a.2 (List.mem_append_right _ List.mem_cons_self)
      · exact fun x hx y hy => ih₂.2 y hy x (List.mem_append_left _ hx)
      · rintro x (rfl | hx | hx) s hs
        · exact hnew s hs
        · exact ih₁.2 x hx s (List.mem_cons_of_mem _ hs)
        · exact ih₂.2 x hx s (List.mem_append_right _ (List.mem_cons_of_mem _ hs))

/-- Two lists are walked one after the other. -/
theorem Walk.append {l₁ l₂ v₁ f₁ v₂ f₂ : List (L × α)} (h₁ : Walk g seen l₁ v₁ f₁)
    (h₂ : Walk g (f₁.map Prod.snd ++ seen) l₂ v₂ f₂) :
    Walk g seen (l₁ ++ l₂) (v₁ ++ v₂) (f₁ ++ f₂) := by
  induction h₁ with
  | nil => exact h₂
  | again hseen _ ih => exact .again hseen (ih h₂)
  | @fresh seen a rest v₁ f₁ v₁' f₁' hnew hbelow _ _ ih =>
      have hrest := ih (h₂.congr fun x => by
        simp only [List.map_append, List.map_cons, List.cons_append, List.mem_append,
          List.mem_cons]
        tauto)
      rw [List.append_assoc, List.append_assoc]
      exact .fresh hnew hbelow hrest

theorem Walk.split {l₁ l₂ : List (L × α)} (h : Walk g seen (l₁ ++ l₂) visits found) :
    ∃ v₁ f₁ v₂ f₂, Walk g seen l₁ v₁ f₁ ∧ Walk g (f₁.map Prod.snd ++ seen) l₂ v₂ f₂ ∧
      visits = v₁ ++ v₂ ∧ found = f₁ ++ f₂ := by
  induction l₁ generalizing seen visits found with
  | nil => exact ⟨[], [], visits, found, .nil, h, rfl, rfl⟩
  | cons a l₁ ih =>
      rw [List.cons_append] at h
      cases h with
      | again hseen hrest =>
          obtain ⟨v₁, f₁, v₂, f₂, h₁, h₂, rfl, rfl⟩ := ih hrest
          exact ⟨a :: v₁, f₁, v₂, f₂, .again hseen h₁, h₂, rfl, rfl⟩
      | @fresh _ _ _ w₁ e₁ _ _ hnew hbelow hrest =>
          obtain ⟨v₁, f₁, v₂, f₂, h₁, h₂, rfl, rfl⟩ := ih hrest
          refine ⟨a :: w₁ ++ v₁, a :: e₁ ++ f₁, v₂, f₂, .fresh hnew hbelow h₁, h₂.congr ?_,
            by simp, by simp⟩
          intro x
          simp only [List.map_append, List.map_cons, List.cons_append, List.mem_append,
            List.mem_cons]
          tauto

end Walk

section Free

variable (g : Graph α L E)

/-- There is a way from a node to another that passes none of the given nodes. -/
inductive Free (passed : α → Prop) : α → α → Prop
  | refl {a} (h : ¬ passed a) : Free passed a a
  | step {a b e} (h : ¬ passed a) (hedge : e ∈ g.edges a) (hrest : Free passed e.2 b) :
      Free passed a b

variable {g} {passed : α → Prop}

theorem Free.start {a b : α} (h : Free g passed a b) : ¬ passed a := by
  cases h with
  | refl h => exact h
  | step h _ _ => exact h

theorem Free.trans {a b c : α} (h : Free g passed a b) (h' : Free g passed b c) :
    Free g passed a c := by
  induction h with
  | refl _ => exact h'
  | step hnot hedge _ ih => exact .step hnot hedge (ih h')

theorem Free.mono {passed' : α → Prop} (hle : ∀ x, passed' x → passed x) {a b : α}
    (h : Free g passed a b) : Free g passed' a b := by
  induction h with
  | refl hnot => exact .refl fun hp => hnot (hle _ hp)
  | step hnot hedge _ ih => exact .step (fun hp => hnot (hle _ hp)) hedge ih

/-- A way that ends outside of a closed set passes none of it. -/
theorem Free.outside {more : α → Prop} (hclosed : ∀ y z, more y → Free g passed y z → more z)
    {a b : α} (h : Free g passed a b) (hb : ¬ more b) :
    Free g (fun y => more y ∨ passed y) a b := by
  induction h with
  | refl hnot => exact .refl (not_or.mpr ⟨hb, hnot⟩)
  | @step a b e hnot hedge hrest ih =>
      refine .step (not_or.mpr ⟨fun ha => hb ?_, hnot⟩) hedge (ih hb)
      exact hclosed a b ha (.step hnot hedge hrest)

/-- A way can be cut so that it does not come back to its start. -/
theorem Free.iff_eq_or_step {a b : α} (ha : ¬ passed a) :
    Free g passed a b ↔
      b = a ∨ ∃ e ∈ g.edges a, Free g (fun x => x = a ∨ passed x) e.2 b := by
  constructor
  · intro h
    have hcut : ∀ {x}, Free g passed x b →
        Free g (fun x => x = a ∨ passed x) x b ∨ b = a ∨
          ∃ e ∈ g.edges a, Free g (fun x => x = a ∨ passed x) e.2 b := by
      intro x hx
      induction hx with
      | @refl x hnot =>
          by_cases hxa : x = a
          · exact Or.inr (Or.inl hxa)
          · exact Or.inl (.refl (by simp [hxa, hnot]))
      | @step x b e hnot hedge hrest ih =>
          rcases ih h with hfree | hdone
          · by_cases hxa : x = a
            · exact Or.inr (Or.inr ⟨e, hxa ▸ hedge, hfree⟩)
            · exact Or.inl (.step (by simp [hxa, hnot]) hedge hfree)
          · exact Or.inr hdone
    rcases hcut h with hfree | hdone
    · exact absurd hfree.start (by simp)
    · exact hdone
  · rintro (rfl | ⟨e, hedge, hfree⟩)
    · exact .refl ha
    · exact .step ha hedge (hfree.mono fun x hx => Or.inr hx)

end Free

section FirstWay

variable (g : Graph α L E)

/-- The first way to a node: it begins at the first start from which the node can
be reached without the nodes passed before, and goes on in the same manner. -/
inductive FirstWay : (α → Prop) → List (L × α) → L × α → Prop
  | here {passed a rest} (h : ¬ passed a.2) : FirstWay passed (a :: rest) a
  | through {passed a rest x} (h : ¬ passed a.2)
      (hrest : FirstWay (fun y => y = a.2 ∨ passed y) (g.successors a) x) :
      FirstWay passed (a :: rest) x
  | later {passed a rest x} (h : ¬ Free g passed a.2 x.2) (hrest : FirstWay passed rest x) :
      FirstWay passed (a :: rest) x

variable {g} {passed : α → Prop}

variable (g) in
theorem exists_successor_iff (a : L × α) (p : α → Prop) :
    (∃ c ∈ g.successors a, p c.2) ↔ ∃ e ∈ g.edges a.2, p e.2 := by
  simp only [Graph.successors, List.mem_map, exists_exists_and_eq_and]

/-- A first way leads to a node that can be reached. -/
theorem FirstWay.free {starts : List (L × α)} {x : L × α} (h : FirstWay g passed starts x) :
    ∃ a ∈ starts, Free g passed a.2 x.2 := by
  induction h with
  | here h => exact ⟨_, List.mem_cons_self, .refl h⟩
  | through h _ ih =>
      refine ⟨_, List.mem_cons_self, (Free.iff_eq_or_step h).mpr (Or.inr ?_)⟩
      exact (exists_successor_iff g _ fun y => Free g _ y _).mp ih
  | later _ _ ih =>
      obtain ⟨a, ha, hfree⟩ := ih
      exact ⟨a, List.mem_cons_of_mem _ ha, hfree⟩

theorem FirstWay.not_passed {starts : List (L × α)} {x : L × α}
    (h : FirstWay g passed starts x) : ¬ passed x.2 := by
  induction h with
  | here h => exact h
  | through _ _ ih => exact fun hp => ih (Or.inr hp)
  | later _ _ ih => exact ih

/-- Passing also a set that is closed under free ways does not change the first
way to a node outside of it. -/
theorem FirstWay.passed_iff {more : α → Prop} {starts : List (L × α)} {x : L × α}
    (hclosed : ∀ y z, more y → Free g passed y z → more z) (hx : ¬ more x.2) :
    FirstWay g (fun y => more y ∨ passed y) starts x ↔ FirstWay g passed starts x := by
  constructor
  · intro h
    generalize hp : (fun y => more y ∨ passed y) = both at h
    induction h generalizing passed with
    | here h =>
        subst hp
        exact .here fun hpa => h (Or.inr hpa)
    | @through _ a _ x h _ ih =>
        subst hp
        refine .through (fun hpa => h (Or.inr hpa)) (ih (fun y z hy hyz => ?_) hx ?_)
        · exact hclosed y z hy (hyz.mono fun w hw => Or.inr hw)
        · funext y
          exact propext or_left_comm
    | later h _ ih =>
        subst hp
        exact .later (fun hf => h (hf.outside hclosed hx)) (ih hclosed hx rfl)
  · intro h
    induction h with
    | here h => exact .here (not_or.mpr ⟨hx, h⟩)
    | @through passed a rest x h hrest ih =>
        have hreach : Free g passed a.2 x.2 :=
          (Free.iff_eq_or_step h).mpr (Or.inr
            ((exists_successor_iff g a fun y => Free g _ y x.2).mp hrest.free))
        refine .through (not_or.mpr ⟨fun ha => hx (hclosed _ _ ha hreach), h⟩) ?_
        have hbelow := ih (fun y z hy hyz => hclosed y z hy (hyz.mono fun w hw => Or.inr hw)) hx
        have hcomm : (fun y => more y ∨ y = a.2 ∨ passed y) =
            fun y => y = a.2 ∨ more y ∨ passed y := funext fun y => propext or_left_comm
        rwa [hcomm] at hbelow
    | later h _ ih =>
        exact .later (fun hf => h (hf.mono fun y hy => Or.inr hy)) (ih hclosed hx)

end FirstWay

section Found

variable {g : Graph α L E} {seen : List α} {todo visits found : List (L × α)}

theorem exists_same_iff (hsame : ∀ x y, g.same x y ↔ x = y) (a : α) :
    (∃ s ∈ seen, g.same s a) ↔ a ∈ seen := by
  simp only [hsame, exists_eq_right]

theorem notMem_of_new (hsame : ∀ x y, g.same x y ↔ x = y) {a : α}
    (hnew : ∀ s ∈ seen, ¬ g.same s a) : a ∉ seen :=
  fun ha => hnew a ha ((hsame a a).mpr rfl)

theorem free_congr {p q : α → Prop} (h : ∀ x, p x ↔ q x) {a b : α} :
    Free g p a b ↔ Free g q a b :=
  ⟨fun hf => hf.mono fun x hx => (h x).mpr hx, fun hf => hf.mono fun x hx => (h x).mp hx⟩

/-- A node and what is found below it are what can be reached from it. -/
theorem free_iff_of_below {a : L × α} {f : List (L × α)} (hnew : a.2 ∉ seen)
    (hbelow : ∀ y, (∃ l, (l, y) ∈ f) ↔
      ∃ b ∈ g.successors a, Free g (· ∈ a.2 :: seen) b.2 y) (y : α) :
    Free g (· ∈ seen) a.2 y ↔ y = a.2 ∨ ∃ l, (l, y) ∈ f := by
  rw [Free.iff_eq_or_step hnew, hbelow, exists_successor_iff g a fun z => Free g _ z y]
  simp only [List.mem_cons]

theorem mem_mid_iff {a : L × α} {f : List (L × α)} (hnew : a.2 ∉ seen)
    (hbelow : ∀ y, (∃ l, (l, y) ∈ f) ↔
      ∃ b ∈ g.successors a, Free g (· ∈ a.2 :: seen) b.2 y) (y : α) :
    y ∈ f.map Prod.snd ++ a.2 :: seen ↔ Free g (· ∈ seen) a.2 y ∨ y ∈ seen := by
  rw [free_iff_of_below hnew hbelow]
  simp only [List.mem_append, List.mem_map, List.mem_cons, Prod.exists, exists_eq_right]
  tauto

/-- A walk finds the nodes that can be reached without those seen before. -/
theorem Walk.found_iff_free (hsame : ∀ x y, g.same x y ↔ x = y)
    (h : Walk g seen todo visits found) (x : α) :
    (∃ l, (l, x) ∈ found) ↔ ∃ a ∈ todo, Free g (· ∈ seen) a.2 x := by
  induction h generalizing x with
  | nil => simp
  | @again seen a rest visits found hseen _ ih =>
      rw [exists_same_iff hsame] at hseen
      rw [ih]
      simp only [List.mem_cons, exists_eq_or_imp]
      exact ⟨Or.inr, fun h => h.resolve_left fun hf => hf.start hseen⟩
  | @fresh seen a rest v₁ f₁ v₂ f₂ hnew hbelow hrest ih₁ ih₂ =>
      replace hnew := notMem_of_new hsame hnew
      have hsplit : (∃ l, (l, x) ∈ a :: f₁ ++ f₂) ↔
          (x = a.2 ∨ ∃ l, (l, x) ∈ f₁) ∨ ∃ l, (l, x) ∈ f₂ := by
        obtain ⟨l, n⟩ := a
        simp only [List.cons_append, List.mem_cons, List.mem_append, Prod.mk.injEq, exists_or]
        simp only [exists_and_right, exists_eq, true_and, or_assoc]
      rw [hsplit, ← free_iff_of_below hnew ih₁, ih₂]
      simp only [List.mem_cons, exists_eq_or_imp]
      refine or_congr_right' fun hnot => exists_congr fun r => and_congr_right fun _ => ?_
      rw [free_congr (mem_mid_iff hnew ih₁)]
      constructor
      · exact fun hf => hf.mono fun y hy => Or.inr hy
      · exact fun hf => hf.outside (fun y z hy hyz => hy.trans hyz) hnot

/-- A node is found under the label of the first way to it. -/
theorem Walk.found_iff_firstWay (hsame : ∀ x y, g.same x y ↔ x = y)
    (h : Walk g seen todo visits found) (x : L × α) :
    x ∈ found ↔ FirstWay g (· ∈ seen) todo x := by
  induction h generalizing x with
  | nil => exact ⟨fun hx => (nomatch hx), fun hx => (nomatch hx)⟩
  | @again seen a rest visits found hseen _ ih =>
      rw [exists_same_iff hsame] at hseen
      rw [ih]
      constructor
      · exact fun hx => .later (fun hf => hf.start hseen) hx
      · intro hx
        cases hx with
        | here h => exact absurd hseen h
        | through h _ => exact absurd hseen h
        | later _ hrest => exact hrest
  | @fresh seen a rest v₁ f₁ v₂ f₂ hnew hbelow hrest ih₁ ih₂ =>
      replace hnew := notMem_of_new hsame hnew
      have hcons : (fun y => y ∈ a.2 :: seen) = fun y => y = a.2 ∨ y ∈ seen :=
        funext fun y => propext List.mem_cons
      have hmid : (fun y => y ∈ f₁.map Prod.snd ++ a.2 :: seen) =
          fun y => Free g (· ∈ seen) a.2 y ∨ y ∈ seen :=
        funext fun y => propext (mem_mid_iff hnew (hbelow.found_iff_free hsame) y)
      have hclosed : ∀ y z, Free g (· ∈ seen) a.2 y → Free g (· ∈ seen) y z →
          Free g (· ∈ seen) a.2 z := fun y z hy hyz => hy.trans hyz
      rw [hcons] at ih₁
      rw [hmid] at ih₂
      rw [List.cons_append, List.mem_cons, List.mem_append, ih₁, ih₂]
      constructor
      · rintro (rfl | hx | hx)
        · exact .here hnew
        · exact .through hnew hx
        · have hnot : ¬ Free g (· ∈ seen) a.2 x.2 := fun hf => hx.not_passed (Or.inl hf)
          exact .later hnot ((FirstWay.passed_iff hclosed hnot).mp hx)
      · intro hx
        cases hx with
        | here _ => exact Or.inl rfl
        | through _ hrest => exact Or.inr (Or.inl hrest)
        | later hnot hrest => exact Or.inr (Or.inr ((FirstWay.passed_iff hclosed hnot).mpr hrest))

end Found

section Way

variable (g : Graph α L E)

/-- A node is reached with a label along some way from the starts. -/
inductive Way (starts : List (L × α)) : L × α → Prop
  | start {a} (h : a ∈ starts) : Way starts a
  | step {a c} (h : Way starts a) (hc : c ∈ g.successors a) : Way starts c

variable {g} {starts : List (L × α)} {visits found : List (L × α)}

theorem FirstWay.way {passed : α → Prop} {x : L × α} (h : FirstWay g passed starts x) :
    Way g starts x := by
  have hsub : ∀ {todo : List (L × α)} {x}, FirstWay g passed todo x →
      ∀ {starts}, (∀ a ∈ todo, Way g starts a) → Way g starts x := by
    clear h
    intro todo x h
    induction h with
    | here _ => exact fun hstarts => hstarts _ List.mem_cons_self
    | through _ _ ih =>
        exact fun hstarts => ih fun c hc => (hstarts _ List.mem_cons_self).step hc
    | later _ _ ih => exact fun hstarts => ih fun a ha => hstarts a (List.mem_cons_of_mem _ ha)
  exact hsub h fun a ha => .start ha

/-- Every visit is at the end of a way. -/
theorem Walk.way_of_visit (h : Walk g seen todo visits found)
    (htodo : ∀ a ∈ todo, Way g starts a) {a : L × α} (ha : a ∈ visits) : Way g starts a := by
  induction h generalizing a with
  | nil => cases ha
  | again _ _ ih =>
      rcases List.mem_cons.mp ha with rfl | ha
      · exact htodo _ List.mem_cons_self
      · exact ih (fun b hb => htodo b (List.mem_cons_of_mem _ hb)) ha
  | fresh _ _ _ ih₁ ih₂ =>
      have hstart := htodo _ List.mem_cons_self
      simp only [List.cons_append, List.mem_cons, List.mem_append] at ha
      rcases ha with rfl | ha | ha
      · exact hstart
      · exact ih₁ (fun b hb => hstart.step hb) ha
      · exact ih₂ (fun b hb => htodo b (List.mem_cons_of_mem _ hb)) ha

/-- A walk from nothing finds what some way leads to. -/
theorem Walk.found_iff_way (hsame : ∀ x y, g.same x y ↔ x = y)
    (h : Walk g [] starts visits found) (x : α) :
    (∃ l, (l, x) ∈ found) ↔ ∃ l, Way g starts (l, x) := by
  constructor
  · rintro ⟨l, hx⟩
    exact ⟨l, h.way_of_visit (fun a ha => .start ha) (h.found_subset hx)⟩
  · rintro ⟨l, hx⟩
    rw [h.found_iff_free hsame]
    generalize hy : (l, x) = y at hx
    induction hx generalizing l x with
    | start ha =>
        subst hy
        exact ⟨_, ha, .refl (by simp)⟩
    | @step a c _ hc ih =>
        obtain ⟨b, hb, hfree⟩ := ih a.2 a.1 rfl
        refine ⟨b, hb, hfree.trans ?_⟩
        obtain ⟨e, he, hec⟩ := List.mem_map.mp hc
        have hx : e.2 = x := congrArg Prod.snd (hec.trans hy.symm)
        exact .step (by simp) he (hx ▸ .refl (by simp))

end Way

section Count

/-- Marking a node leaves fewer that are not marked. -/
theorem countP_lt_countP {p q : α → Bool} (hsub : ∀ x, q x = true → p x = true) {l : List α} {a : α}
    (ha : a ∈ l) (hp : p a = true) (hq : q a = false) : l.countP q < l.countP p := by
  obtain ⟨before, after, rfl⟩ := List.append_of_mem ha
  have hbefore := List.countP_mono_left (l := before) fun x _ => hsub x
  have hafter := List.countP_mono_left (l := after) fun x _ => hsub x
  simp only [List.countP_append, List.countP_cons, hp, hq, if_true, Bool.false_eq_true, if_false]
  omega

end Count

end Npnpm.DepthFirst
