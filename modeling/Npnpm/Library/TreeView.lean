import Mathlib.Data.List.Nodup
import Npnpm.Library.FileTree

/-!
# Reading beside a zone

Two file trees that agree outside a zone give the same answers to all that does not
enter the zone. A walk does not enter it as long as neither the names on its path nor
those on the paths of the links that it meets lead into the zone.
-/

namespace Npnpm.FileTree

open Npnpm.Path

section Frames

/-- Outside the zone nothing is changed. -/
def SameOutside (zone : Loc → Prop) (t t' : Tree) : Prop := ∀ q, ¬ zone q → t'.get q = t.get q

variable {zone zone' : Loc → Prop} {t t' t'' : Tree}

theorem SameOutside.refl (t : Tree) : SameOutside zone t t := fun _ _ => rfl

theorem SameOutside.trans (h : SameOutside zone t t') (h' : SameOutside zone t' t'') :
    SameOutside zone t t'' := fun q hq => (h' q hq).trans (h q hq)

theorem SameOutside.mono (h : SameOutside zone t t') (hsub : ∀ q, zone q → zone' q) :
    SameOutside zone' t t' := fun q hq => h q fun hz => hq (hsub q hz)

theorem SameOutside.of_create {d : Loc} {name : Text} {node : Node}
    (h : t.create d name node = .ok t') (hz : zone (d ++ [name])) : SameOutside zone t t' := by
  obtain ⟨-, -, hget⟩ := Tree.create_ok h
  intro q hq
  rw [hget, if_neg]
  rintro rfl
  exact hq hz

theorem SameOutside.of_remove {d : Loc} (hd : d ≠ []) (hz : ∀ q, d <+: q → zone q) :
    SameOutside zone t (t.remove d) := by
  intro q hq
  rw [Tree.get_remove t hd, if_neg]
  exact fun hp => hq (hz q hp)

end Frames

section Walks

/-- Stepping over the component does not lead into the zone. -/
def Avoids (zone : Loc → Prop) (c : Component) : Prop := ∀ d, ¬ zone d → ¬ zone (land d c)

/-- No link stands on the way to the location. -/
def ClearAbove (t : Tree) (q : Loc) : Prop :=
  ∀ r, r <+: q → r ≠ q → ∀ target, t.get r ≠ some (.link target)

/-- No component of the path leads into the zone, but for the names of a place outside it
that no link stands on the way to. -/
def StaysOut (zone : Loc → Prop) (t : Tree) (p : List Component) : Prop :=
  (∀ c ∈ p, Avoids zone c) ∨
    ∃ q rest, p = pathOf q ++ rest ∧ ClearAbove t q ∧ (∀ r, r <+: q → ¬ zone r) ∧
      ∀ c ∈ rest, Avoids zone c

/-- No link outside the zone leads into it. -/
def LinksStayOut (zone : Loc → Prop) (t : Tree) : Prop :=
  ∀ q target, ¬ zone q → t.get q = some (.link target) → StaysOut zone t (components target)

/-- The two give the same result, which is a place outside the zone. -/
def SameResult (zone : Loc → Prop) (x x' : Except IoError Loc) : Prop :=
  x' = x ∧ ∀ r, x = .ok r → ¬ zone r

variable {zone : Loc → Prop} {t t' : Tree} {p : List Component} {d : Loc}

theorem SameResult.of_error (e : IoError) : SameResult zone (.error e) (.error e) :=
  ⟨rfl, fun _ hr => by cases hr⟩

theorem StaysOut.append {rest : List Component} (h : StaysOut zone t p)
    (hrest : ∀ c ∈ rest, Avoids zone c) : StaysOut zone t (p ++ rest) := by
  have happend : ∀ {front : List Component}, (∀ c ∈ front, Avoids zone c) →
      ∀ c ∈ front ++ rest, Avoids zone c :=
    fun hfront c hc => (List.mem_append.mp hc).elim (hfront c) (hrest c)
  rcases h with h | ⟨q, more, rfl, hclear, hq, hmore⟩
  · exact Or.inl (happend h)
  · exact Or.inr ⟨q, more ++ rest, by rw [List.append_assoc], hclear, hq, happend hmore⟩

/-- Two walks take the same step to a place outside the zone. -/
theorem walkWith_step_same (hsame : SameOutside zone t t')
    {follow follow' : Loc → List Component → Except IoError Loc} {c : Component}
    (hd : ¬ zone d) (hland : ¬ zone (land d c))
    (hlink : ∀ target, t.get (land d c) = some (.link target) →
      SameResult zone (follow d (components target ++ p)) (follow' d (components target ++ p)))
    (hrest : SameResult zone (walkWith t follow (land d c) p) (walkWith t' follow' (land d c) p)) :
    SameResult zone (walkWith t follow d (c :: p)) (walkWith t' follow' d (c :: p)) := by
  rw [walkWith, walkWith, hsame d hd, hsame _ hland]
  by_cases hnone : t.get d = none
  · rw [if_pos hnone, if_pos hnone]
    exact .of_error _
  · by_cases hdir : t.get d ≠ some .dir
    · rw [if_neg hnone, if_pos hdir, if_neg hnone, if_pos hdir]
      exact .of_error _
    · rw [if_neg hnone, if_neg hdir, if_neg hnone, if_neg hdir]
      cases hnode : t.get (land d c) with
      | none => exact hrest
      | some node =>
          cases node with
          | dir => exact hrest
          | file content => exact hrest
          | link target => exact hlink target hnode

variable (hsame : SameOutside zone t t') (hlinks : LinksStayOut zone t)
  {follow follow' : Loc → List Component → Except IoError Loc}
  (hfollow : ∀ d p, ¬ zone d → StaysOut zone t p → SameResult zone (follow d p) (follow' d p))

include hsame hlinks hfollow in
theorem walkWith_same_of_avoids (hd : ¬ zone d) (hp : ∀ c ∈ p, Avoids zone c) :
    SameResult zone (walkWith t follow d p) (walkWith t' follow' d p) := by
  induction p generalizing d with
  | nil => exact ⟨rfl, fun r hr => by cases hr; exact hd⟩
  | cons c rest ih =>
      have hland : ¬ zone (land d c) := hp c List.mem_cons_self d hd
      have hrest : ∀ c ∈ rest, Avoids zone c := fun c hc => hp c (List.mem_cons_of_mem _ hc)
      refine walkWith_step_same hsame hd hland (fun target htarget => ?_) (ih hland hrest)
      exact hfollow d _ hd ((hlinks _ target hland htarget).append hrest)

include hsame hlinks hfollow in
theorem walkWith_same_of_clear {names : Loc} (hclear : ClearAbove t (d ++ names))
    (hout : ∀ r, d <+: r → r <+: d ++ names → ¬ zone r) (hp : ∀ c ∈ p, Avoids zone c) :
    SameResult zone (walkWith t follow d (names.map .normal ++ p))
      (walkWith t' follow' d (names.map .normal ++ p)) := by
  have hd := hout d List.prefix_rfl (List.prefix_append _ _)
  induction names generalizing d with
  | nil => exact walkWith_same_of_avoids hsame hlinks hfollow hd hp
  | cons name names ih =>
      have hstep : d ++ name :: names = (d ++ [name]) ++ names := by simp
      rw [hstep] at hclear hout
      have hname : ¬ zone (d ++ [name]) := hout _ (List.prefix_append _ _) (List.prefix_append _ _)
      refine walkWith_step_same hsame hd hname (fun target htarget => ?_) ?_
      · -- a link on the way stands at its end
        cases names with
        | nil => exact hfollow d _ hd ((hlinks _ target hname htarget).append hp)
        | cons next names =>
            exact absurd htarget (hclear _ (List.prefix_append _ _) (by simp) target)
      · exact ih hclear (fun r hr => hout r ((List.prefix_append _ _).trans hr)) hname

include hsame hlinks hfollow in
theorem walkWith_same (hroot : ¬ zone []) (hd : ¬ zone d) (hp : StaysOut zone t p) :
    SameResult zone (walkWith t follow d p) (walkWith t' follow' d p) := by
  rcases hp with hp | ⟨q, rest, rfl, hclear, hout, hrest⟩
  · exact walkWith_same_of_avoids hsame hlinks hfollow hd hp
  · refine walkWith_step_same hsame hd hroot (fun target htarget => ?_) ?_
    · simp [land] at htarget
    · exact walkWith_same_of_clear hsame hlinks hfollow hclear (fun r _ hr => hout r hr) hrest

include hsame hlinks in
theorem walk_same (hroot : ¬ zone []) (n : Nat) (hd : ¬ zone d) (hp : StaysOut zone t p) :
    SameResult zone (walk t n d p) (walk t' n d p) := by
  induction n generalizing d p with
  | zero => exact walkWith_same hsame hlinks (fun _ _ _ _ => .of_error _) hroot hd hp
  | succ n ih => exact walkWith_same hsame hlinks (fun d p hd hp => ih hd hp) hroot hd hp

variable (hroot : ¬ zone []) (hp : StaysOut zone t p)
include hsame hlinks hroot hp

/-- A path that stays outside the zone leads to the same place. -/
theorem canonicalize_same : SameResult zone (canonicalize t p) (canonicalize t' p) := by
  obtain ⟨heq, hout⟩ := walk_same hsame hlinks hroot maxLinks hroot hp
  unfold canonicalize locate
  rw [heq]
  cases hr : walk t maxLinks [] p with
  | error e => exact .of_error e
  | ok r =>
      have hzone := hout r hr
      simp only [bind, Except.bind, hsame r hzone]
      by_cases hnone : t.get r = none
      · rw [if_pos hnone]
        exact .of_error _
      · rw [if_neg hnone]
        exact ⟨rfl, fun r' hr' => by cases hr'; exact hzone⟩

theorem pathExists_same : pathExists t' p = pathExists t p := by
  rw [pathExists, pathExists, (canonicalize_same hsame hlinks hroot hp).1]

theorem readFile_same : readFile t' p = readFile t p := by
  obtain ⟨heq, hout⟩ := canonicalize_same hsame hlinks hroot hp
  unfold readFile
  rw [heq]
  cases hr : canonicalize t p with
  | error e => rfl
  | ok r => simp only [bind, Except.bind, hsame r (hout r hr)]

end Walks

section Children

/-- The names in a directory are different. -/
theorem Tree.children_nodup (t : Tree) (d : Loc) : (t.children d).Nodup := by
  have hkeys : t.nodes.keys.Nodup := by
    rw [KeyedMap.keys, List.nodup_iff_pairwise_ne, List.pairwise_map]
    exact t.nodes.distinct.imp fun h heq => by simp [heq] at h
  refine hkeys.filterMap fun p q name hp hq => ?_
  rw [Option.mem_def] at hp hq
  split at hp
  · rename_i hpd
    split at hq
    · rename_i hqd
      rw [← List.dropLast_append_getLast? name hp, ← List.dropLast_append_getLast? name hq, hpd,
        hqd]
    · cases hq
  · cases hp

/-- Where the same names are taken the listings differ in their order only. -/
theorem Tree.children_perm {t t' : Tree} {d : Loc} {keep : Text → Bool}
    (h : ∀ name, keep name = true → (t'.get (d ++ [name]) = none ↔ t.get (d ++ [name]) = none)) :
    ((t'.children d).filter keep).Perm ((t.children d).filter keep) := by
  apply (List.perm_ext_iff_of_nodup ((t'.children_nodup d).filter _)
    ((t.children_nodup d).filter _)).mpr
  intro name
  rw [List.mem_filter, List.mem_filter, Tree.mem_children, Tree.mem_children]
  exact and_congr_left fun hkeep => not_congr (h name hkeep)

end Children

end Npnpm.FileTree
