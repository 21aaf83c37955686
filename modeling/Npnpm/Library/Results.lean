import Mathlib.Data.List.Forall2

/-!
# Lists of results

Collecting results into a result: all of them succeed, or the first error is
returned.
-/

namespace Npnpm.Results

variable {α β ε : Type}

theorem bind_ok {x : Except ε α} {f : α → Except ε β} {b : β} (h : (x >>= f) = .ok b) :
    ∃ a, x = .ok a ∧ f a = .ok b := by
  cases x with
  | error e => cases h
  | ok a => exact ⟨a, rfl, h⟩

theorem ok_bind {x : Except ε α} {f : α → Except ε β} {a : α} {b : β} (hx : x = .ok a)
    (hf : f a = .ok b) : (x >>= f) = .ok b := by
  rw [hx]
  exact hf

theorem map_ok {x : Except ε α} {f : α → β} {b : β} (h : x.map f = .ok b) :
    ∃ a, x = .ok a ∧ f a = b := by
  cases x with
  | error e => cases h
  | ok a => exact ⟨a, rfl, Except.ok.inj h⟩

theorem bind_eq_ok_iff {x : Except ε α} {f : α → Except ε β} {b : β} :
    (x >>= f) = .ok b ↔ ∃ a, x = .ok a ∧ f a = .ok b := by
  constructor
  · exact bind_ok
  · rintro ⟨a, hx, hf⟩
    exact ok_bind hx hf

theorem map_eq_ok_iff {x : Except ε α} {f : α → β} {b : β} :
    x.map f = .ok b ↔ ∃ a, x = .ok a ∧ f a = b := by
  constructor
  · exact map_ok
  · rintro ⟨a, rfl, rfl⟩
    rfl

theorem exists_of_toOption_map {x : Except ε α} {f : α → β} {b : β}
    (h : x.toOption.map f = some b) : ∃ a, x = .ok a ∧ f a = b := by
  cases x with
  | error e => cases h
  | ok a => exact ⟨a, rfl, Option.some.inj h⟩

theorem toOption_eq_some {x : Except ε α} {a : α} (h : x.toOption = some a) : x = .ok a := by
  cases x with
  | error e => cases h
  | ok a' => rw [Option.some.inj h]

theorem eq_getD_of_isOk {x : Except ε α} (default : α) (h : x.isOk = true) :
    x = .ok (x.toOption.getD default) := by
  cases x with
  | error e => cases h
  | ok a => rfl

theorem mapError_of_ok {ε' : Type} {x : Except ε α} {f : ε → ε'} {a : α} (h : x = .ok a) :
    x.mapError f = .ok a := by
  rw [h]
  rfl

theorem mapError_ok {ε' : Type} {x : Except ε α} {f : ε → ε'} {a : α}
    (h : x.mapError f = .ok a) : x = .ok a := by
  cases x with
  | error e => cases h
  | ok a' =>
      cases h
      rfl

/-- What every step of a fold keeps holds at its end. -/
theorem foldlM_invariant {σ : Type} {f : σ → α → Except ε σ} (inv : σ → Prop) {l : List α}
    {s s' : σ} (h : l.foldlM f s = .ok s') (hstart : inv s)
    (hstep : ∀ a ∈ l, ∀ s s', inv s → f s a = .ok s' → inv s') : inv s' := by
  induction l generalizing s with
  | nil =>
      cases h
      exact hstart
  | cons a rest ih =>
      rw [List.foldlM_cons] at h
      obtain ⟨s₁, hs₁, hrest⟩ := bind_ok h
      exact ih hrest (hstep a (by simp) s s₁ hstart hs₁)
        fun b hb => hstep b (List.mem_cons_of_mem _ hb)

/-- A fold whose rounds all leave the state alone leaves it alone. -/
theorem foldlM_fixed {σ : Type} {f : σ → α → Except ε σ} {l : List α} {s : σ}
    (h : ∀ a ∈ l, f s a = .ok s) : l.foldlM f s = .ok s := by
  induction l with
  | nil => rfl
  | cons a rest ih =>
      rw [List.foldlM_cons]
      exact ok_bind (h a List.mem_cons_self) (ih fun b hb => h b (List.mem_cons_of_mem _ hb))

/-- A fold whose every step goes on from the states it comes to. -/
theorem exists_foldlM {σ : Type} {f : σ → α → Except ε σ} (inv : σ → Prop) {l : List α} {s : σ}
    (hstart : inv s) (hstep : ∀ a ∈ l, ∀ s, inv s → ∃ s', f s a = .ok s' ∧ inv s') :
    ∃ s', l.foldlM f s = .ok s' ∧ inv s' := by
  induction l generalizing s with
  | nil => exact ⟨s, rfl, hstart⟩
  | cons a rest ih =>
      obtain ⟨s₁, hs₁, hinv⟩ := hstep a List.mem_cons_self s hstart
      obtain ⟨s', hs', hlast⟩ := ih hinv fun b hb => hstep b (List.mem_cons_of_mem _ hb)
      refine ⟨s', ?_, hlast⟩
      rw [List.foldlM_cons, hs₁]
      exact hs'

/-- When each round of a fold updates a part of the state with a value that fits the
element, the fold updates it with a list of values that fit the list. -/
theorem foldlM_view {σ τ : Type} {f : σ → α → Except ε σ} (view : σ → τ) (update : τ → β → τ)
    (fits : α → β → Prop) {l : List α} {s s' : σ} (h : l.foldlM f s = .ok s')
    (hround : ∀ a s s', f s a = .ok s' → ∃ b, fits a b ∧ view s' = update (view s) b) :
    ∃ bs, List.Forall₂ fits l bs ∧ view s' = bs.foldl update (view s) := by
  induction l generalizing s with
  | nil =>
      cases h
      exact ⟨[], .nil, rfl⟩
  | cons a rest ih =>
      rw [List.foldlM_cons] at h
      obtain ⟨s₁, hs₁, hrest⟩ := bind_ok h
      obtain ⟨b, hb, hview⟩ := hround a s s₁ hs₁
      obtain ⟨bs, hbs, hend⟩ := ih hrest
      exact ⟨b :: bs, .cons hb hbs, by rw [hend, hview, List.foldl_cons]⟩

theorem map_eq_of_forall₂ {γ : Type} {fits : α → β → Prop} {f : α → γ} {g : β → γ}
    {l : List α} {bs : List β} (h : List.Forall₂ fits l bs)
    (hfits : ∀ a b, fits a b → g b = f a) : bs.map g = l.map f := by
  induction h with
  | nil => rfl
  | cons hab _ ih => rw [List.map_cons, List.map_cons, hfits _ _ hab, ih]

/-- What a list of partners holds has a partner. -/
theorem exists_of_mem_forall₂ {R : α → β → Prop} {l : List α} {l' : List β}
    (h : List.Forall₂ R l l') {b : β} (hb : b ∈ l') : ∃ a ∈ l, R a b := by
  induction h with
  | nil => cases hb
  | cons hab _ ih =>
      rcases List.mem_cons.mp hb with rfl | hb
      · exact ⟨_, List.mem_cons_self, hab⟩
      · obtain ⟨a, ha, hr⟩ := ih hb
        exact ⟨a, List.mem_cons_of_mem _ ha, hr⟩

/-- The partner of what is found is found. -/
theorem find?_forall₂ {R : α → β → Prop} {p : α → Bool} {q : β → Bool} {l : List α}
    {l' : List β} (h : List.Forall₂ R l l') (hpq : ∀ a b, R a b → p a = q b) {a : α}
    (ha : l.find? p = some a) : ∃ b, l'.find? q = some b ∧ R a b := by
  induction h with
  | nil => cases ha
  | @cons a' b' l l' hab _ ih =>
      rw [List.find?_cons] at ha ⊢
      rw [← hpq a' b' hab]
      cases hp : p a' with
      | true =>
          rw [hp] at ha
          cases ha
          exact ⟨b', rfl, hab⟩
      | false =>
          rw [hp] at ha
          exact ih ha

theorem bind_ne {e : ε} {x : Except ε α} {f : α → Except ε β} (hx : x ≠ .error e)
    (hf : ∀ a, x = .ok a → f a ≠ .error e) : (x >>= f) ≠ .error e := by
  cases x with
  | error e' => exact fun h => hx (by cases h; rfl)
  | ok a => exact hf a rfl

theorem mapError_ne {ε' : Type} {e : ε'} {x : Except ε α} {f : ε → ε'} (hf : ∀ e', f e' ≠ e) :
    x.mapError f ≠ .error e := by
  cases x with
  | error e' => exact fun h => hf e' (Except.error.inj h)
  | ok a => exact nofun

/-- A fold whose steps avoid an error avoids it. -/
theorem foldlM_ne {σ : Type} {e : ε} {f : σ → α → Except ε σ} (inv : σ → Prop) {l : List α}
    {s : σ} (hstart : inv s) (hstep : ∀ a ∈ l, ∀ s, inv s → f s a ≠ .error e)
    (hinv : ∀ a ∈ l, ∀ s s', inv s → f s a = .ok s' → inv s') : l.foldlM f s ≠ .error e := by
  induction l generalizing s with
  | nil => exact fun h => nomatch h
  | cons a rest ih =>
      rw [List.foldlM_cons]
      refine bind_ne (hstep a (by simp) s hstart) fun s₁ hs₁ => ?_
      exact ih (hinv a (by simp) s s₁ hstart hs₁)
        (fun b hb => hstep b (List.mem_cons_of_mem _ hb))
        fun b hb => hinv b (List.mem_cons_of_mem _ hb)

/-- `y` answers as `x` does, where `x` does not end in the error. -/
def Extends (e : ε) (x y : Except ε α) : Prop := x ≠ .error e → y = x

theorem Extends.bind {e : ε} {x y : Except ε α} {f g : α → Except ε β} (hxy : Extends e x y)
    (hfg : ∀ a, Extends e (f a) (g a)) : Extends e (x >>= f) (y >>= g) := by
  intro h
  have hx : x ≠ .error e := by
    rintro rfl
    exact h rfl
  rw [hxy hx]
  cases x with
  | error e' => rfl
  | ok a => exact hfg a h

theorem Extends.foldlM {σ : Type} {e : ε} {f g : σ → α → Except ε σ}
    (hfg : ∀ s a, Extends e (f s a) (g s a)) (l : List α) (s : σ) :
    Extends e (l.foldlM f s) (l.foldlM g s) := by
  induction l generalizing s with
  | nil => exact fun _ => rfl
  | cons a rest ih =>
      rw [List.foldlM_cons, List.foldlM_cons]
      exact (hfg s a).bind ih

theorem mapM_ok_iff (f : α → Except ε β) (l : List α) (r : List β) :
    l.mapM f = .ok r ↔ List.Forall₂ (fun a b => f a = .ok b) l r := by
  induction l generalizing r with
  | nil =>
      rw [List.mapM_nil, List.forall₂_nil_left_iff]
      exact ⟨fun h => (Except.ok.inj h).symm, fun h => by rw [h]; rfl⟩
  | cons a rest ih =>
      rw [List.mapM_cons, List.forall₂_cons_left_iff]
      cases ha : f a with
      | error e =>
          constructor
          · intro h
            cases h
          · rintro ⟨b, _, hb, -, -⟩
            cases hb
      | ok b =>
          cases hr : rest.mapM f with
          | error e =>
              constructor
              · intro h
                cases h
              · rintro ⟨b', r', -, hr', -⟩
                rw [(ih r').mpr hr'] at hr
                cases hr
          | ok r' =>
              constructor
              · intro h
                obtain rfl : b :: r' = r := Except.ok.inj h
                exact ⟨b, r', rfl, (ih r').mp hr, rfl⟩
              · rintro ⟨b', r'', hb, hr'', rfl⟩
                cases hb
                have h := (ih r'').mpr hr''
                rw [hr] at h
                cases h
                rfl

theorem mapM_ne {e : ε} {f : α → Except ε β} {l : List α} (h : ∀ a ∈ l, f a ≠ .error e) :
    l.mapM f ≠ .error e := by
  induction l with
  | nil =>
      intro hnil
      cases hnil
  | cons a rest ih =>
      rw [List.mapM_cons]
      refine bind_ne (h a List.mem_cons_self) fun b _ => ?_
      refine bind_ne (ih fun c hc => h c (List.mem_cons_of_mem _ hc)) fun bs _ => ?_
      intro hok
      cases hok

/-- What each success keeps of its argument, the list of successes keeps. -/
theorem map_eq_of_mapM {γ : Type} {f : α → Except ε β} {g : α → γ} {g' : β → γ}
    (hf : ∀ a b, f a = .ok b → g' b = g a) {l : List α} {r : List β}
    (h : l.mapM f = .ok r) : r.map g' = l.map g :=
  map_eq_of_forall₂ ((mapM_ok_iff f l r).mp h) hf

theorem exists_of_mem_mapM {f : α → Except ε β} {l : List α} {r : List β}
    (h : l.mapM f = .ok r) {b : β} (hb : b ∈ r) : ∃ a ∈ l, f a = .ok b :=
  exists_of_mem_forall₂ ((mapM_ok_iff f l r).mp h) hb

theorem exists_mem_of_mapM {f : α → Except ε β} {l : List α} {r : List β}
    (h : l.mapM f = .ok r) {a : α} (ha : a ∈ l) : ∃ b ∈ r, f a = .ok b :=
  exists_of_mem_forall₂ ((mapM_ok_iff f l r).mp h).flip ha

/-- A fold passes each element, from a state to a state. -/
theorem foldlM_at {σ : Type} {f : σ → α → Except ε σ} {l : List α} {s s' : σ}
    (h : l.foldlM f s = .ok s') {a : α} (ha : a ∈ l) :
    ∃ before after s₁ s₂, l = before ++ a :: after ∧ before.foldlM f s = .ok s₁ ∧
      f s₁ a = .ok s₂ ∧ after.foldlM f s₂ = .ok s' := by
  obtain ⟨before, after, rfl⟩ := List.append_of_mem ha
  rw [List.foldlM_append] at h
  obtain ⟨s₁, hbefore, hrest⟩ := bind_ok h
  obtain ⟨s₂, hat, hafter⟩ := bind_ok hrest
  exact ⟨before, after, s₁, s₂, rfl, hbefore, hat, hafter⟩

theorem exists_mapM_ok_iff (f : α → Except ε β) (l : List α) :
    (∃ r, l.mapM f = .ok r) ↔ ∀ a ∈ l, ∃ b, f a = .ok b := by
  simp only [mapM_ok_iff]
  induction l with
  | nil => exact ⟨fun _ a ha => by simp at ha, fun _ => ⟨[], .nil⟩⟩
  | cons a rest ih =>
      constructor
      · rintro ⟨r, hr⟩
        cases hr with
        | cons hb hrest =>
            intro a' ha'
            rcases List.mem_cons.mp ha' with rfl | ha'
            · exact ⟨_, hb⟩
            · exact ih.mp ⟨_, hrest⟩ a' ha'
      · intro h
        obtain ⟨b, hb⟩ := h a (by simp)
        obtain ⟨r, hr⟩ := ih.mpr fun a' ha' => h a' (by simp [ha'])
        exact ⟨b :: r, .cons hb hr⟩

theorem mapM_congr {f g : α → Except ε β} {l : List α} (h : ∀ a ∈ l, f a = g a) :
    l.mapM f = l.mapM g := by
  induction l with
  | nil => rfl
  | cons a rest ih =>
      rw [List.mapM_cons, List.mapM_cons, h a List.mem_cons_self,
        ih fun b hb => h b (List.mem_cons_of_mem _ hb)]

/-- Elements that give nothing may be left out. -/
theorem mapM_flatten_filter {f : α → Except ε (List β)} {keep : α → Bool} {l : List α}
    (h : ∀ a ∈ l, keep a = false → f a = .ok []) :
    (l.mapM f).map List.flatten = ((l.filter keep).mapM f).map List.flatten := by
  induction l with
  | nil => rfl
  | cons a rest ih =>
      have hrest := ih fun b hb => h b (List.mem_cons_of_mem _ hb)
      cases hkeep : keep a with
      | false =>
          rw [List.filter_cons_of_neg (by simp [hkeep]), ← hrest, List.mapM_cons,
            h a List.mem_cons_self hkeep]
          cases rest.mapM f <;> rfl
      | true =>
          rw [List.filter_cons_of_pos hkeep, List.mapM_cons, List.mapM_cons]
          cases f a with
          | error e => rfl
          | ok b =>
              cases hl : rest.mapM f with
              | error e =>
                  cases hr : (rest.filter keep).mapM f with
                  | error e' =>
                      rw [hl, hr] at hrest
                      cases hrest
                      rfl
                  | ok bs =>
                      rw [hl, hr] at hrest
                      cases hrest
              | ok bs =>
                  cases hr : (rest.filter keep).mapM f with
                  | error e' =>
                      rw [hl, hr] at hrest
                      cases hrest
                  | ok bs' =>
                      rw [hl, hr] at hrest
                      have hflat : bs.flatten = bs'.flatten := Except.ok.inj hrest
                      simp only [bind, Except.bind, pure, Except.pure, Except.map,
                        List.flatten_cons, hflat]

end Npnpm.Results
