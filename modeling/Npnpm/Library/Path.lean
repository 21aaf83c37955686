import Mathlib.Data.List.Induction
import Npnpm.Library.Text

/-!
# Paths as texts

The path operations of the standard library on a POSIX system: `components`,
`push` and `join`, and collecting components into a path again. A path is also
read lexically, where `..` takes back the name before it; this is where a joined
path ends up when no link is involved.
-/

namespace Npnpm.Path

open Npnpm

inductive Component
  | rootDir
  | curDir
  | parentDir
  | normal (name : Text)
deriving DecidableEq

def Component.text : Component → Text
  | .rootDir => ['/']
  | .curDir => ['.']
  | .parentDir => ['.', '.']
  | .normal name => name

section Components

/-- The pieces between the slashes. -/
def segments : Text → List Text
  | [] => [[]]
  | c :: rest =>
      if c = '/' then [] :: segments rest
      else
        match segments rest with
        | [] => [[c]]
        | s :: ss => (c :: s) :: ss

/-- Empty pieces and single dots name nothing. -/
def classify : Text → Option Component
  | [] => none
  | ['.'] => none
  | ['.', '.'] => some .parentDir
  | s => some (.normal s)

def isAbsolute (p : Text) : Bool := p.head? = some '/'

/-- The components after the root or a leading dot. -/
def body (p : Text) : List Component := (segments p).filterMap classify

def components (p : Text) : List Component :=
  if isAbsolute p then .rootDir :: body p
  else if (segments p).head? = some ['.'] then .curDir :: body p
  else body p

def push (buf path : Text) : Text :=
  if isAbsolute path then path
  else if buf ≠ [] ∧ buf.getLast? ≠ some '/' then buf ++ '/' :: path
  else buf ++ path

def join (dir path : Text) : Text := push dir path

def collect (cs : List Component) : Text := cs.foldl (fun buf c => push buf c.text) []

/-- The path without its last component; the root and the empty path have none. -/
def parent (cs : List Component) : Option (List Component) :=
  match cs.getLast? with
  | none => none
  | some .rootDir => none
  | some _ => some cs.dropLast

theorem mem_of_mem_parent {cs up : List Component} (h : parent cs = some up) :
    ∀ c ∈ up, c ∈ cs := by
  unfold parent at h
  split at h
  · cases h
  · cases h
  · cases h
    exact fun _ hc => (List.dropLast_subset cs) hc

/-- `join` on components. -/
def joinComponents (dir cs : List Component) : List Component :=
  if cs.head? = some .rootDir then cs else dir ++ cs.filter (· ≠ .curDir)

theorem segments_ne_nil (p : Text) : segments p ≠ [] := by
  cases p with
  | nil => simp [segments]
  | cons c rest =>
      unfold segments
      split
      · simp
      · split <;> simp

theorem segments_append_slash (a b : Text) :
    segments (a ++ '/' :: b) = segments a ++ segments b := by
  induction a with
  | nil => simp [segments]
  | cons c rest ih =>
      by_cases hc : c = '/'
      · simp [segments, hc, ih]
      · simp only [List.cons_append, segments, if_neg hc, ih]
        cases hs : segments rest with
        | nil => exact absurd hs (segments_ne_nil rest)
        | cons s ss => simp

theorem segments_of_notMem {s : Text} (h : '/' ∉ s) : segments s = [s] := by
  induction s with
  | nil => rfl
  | cons c rest ih =>
      simp only [List.mem_cons, not_or] at h
      simp [segments, Ne.symm h.1, ih h.2]

theorem notMem_of_mem_segments {p s : Text} (h : s ∈ segments p) : '/' ∉ s := by
  induction p generalizing s with
  | nil =>
      simp only [segments, List.mem_singleton] at h
      simp [h]
  | cons c rest ih =>
      by_cases hc : c = '/'
      · simp only [segments, if_pos hc, List.mem_cons] at h
        rcases h with rfl | h
        · simp
        · exact ih h
      · simp only [segments, if_neg hc] at h
        cases hs : segments rest with
        | nil => exact absurd hs (segments_ne_nil rest)
        | cons t ts =>
            simp only [hs, List.mem_cons] at h
            rcases h with rfl | h
            · simp only [List.mem_cons, not_or]
              exact ⟨Ne.symm hc, ih (by simp [hs])⟩
            · exact ih (by simp [hs, h])

theorem body_append_slash (a b : Text) : body (a ++ '/' :: b) = body a ++ body b := by
  simp [body, segments_append_slash]

theorem components_append_slash {dir : Text} (hdir : dir ≠ []) (path : Text) :
    components (dir ++ '/' :: path) = components dir ++ body path := by
  have habs : isAbsolute (dir ++ '/' :: path) = isAbsolute dir := by
    obtain ⟨c, rest, rfl⟩ := List.exists_cons_of_ne_nil hdir
    rfl
  have hhead : (segments (dir ++ '/' :: path)).head? = (segments dir).head? := by
    obtain ⟨s, ss, hss⟩ := List.exists_cons_of_ne_nil (segments_ne_nil dir)
    rw [segments_append_slash, hss]
    rfl
  unfold components
  rw [habs, hhead, body_append_slash]
  split
  · rfl
  · split
    · rfl
    · rfl

@[simp] theorem body_nil : body [] = [] := rfl

/-- Joining a relative path appends its components. -/
theorem body_push (dir path : Text) (h : isAbsolute path = false) :
    body (push dir path) = body dir ++ body path := by
  unfold push
  rw [h]
  simp only [Bool.false_eq_true, if_false]
  split
  · exact body_append_slash dir path
  · rename_i hdir
    by_cases hnil : dir = []
    · simp [hnil]
    · have hlast : dir.getLast? = some '/' := by
        by_contra hne
        exact hdir ⟨hnil, hne⟩
      obtain ⟨front, rfl⟩ := List.getLast?_eq_some_iff.mp hlast
      rw [List.append_assoc, List.singleton_append, body_append_slash, body_append_slash,
        body_nil, List.append_nil]

theorem isAbsolute_push (dir path : Text) (h : isAbsolute path = false) :
    isAbsolute (push dir path) = isAbsolute dir := by
  unfold push
  rw [h]
  simp only [Bool.false_eq_true, if_false]
  cases dir with
  | nil => simpa [isAbsolute] using h
  | cons c rest => split <;> simp [isAbsolute]

theorem isAbsolute_join {dir path : Text} (h : isAbsolute dir = true) :
    isAbsolute (join dir path) = true := by
  by_cases hpath : isAbsolute path = true
  · rwa [join, push, if_pos hpath]
  · rw [join, isAbsolute_push _ _ (Bool.not_eq_true _ ▸ hpath), h]

end Components

section Valid

/-- Components that a relative path has after its leading dot. -/
def Component.Plain : Component → Prop
  | .rootDir => False
  | .curDir => False
  | .parentDir => True
  | .normal name => '/' ∉ name ∧ name ≠ [] ∧ name ≠ ['.'] ∧ name ≠ ['.', '.']

instance : ∀ c : Component, Decidable c.Plain
  | .rootDir => isFalse id
  | .curDir => isFalse id
  | .parentDir => isTrue trivial
  | .normal name => inferInstanceAs
      (Decidable ('/' ∉ name ∧ name ≠ [] ∧ name ≠ ['.'] ∧ name ≠ ['.', '.']))

theorem plain_of_mem_body {p : Text} {c : Component} (h : c ∈ body p) : c.Plain := by
  obtain ⟨s, hs, hc⟩ := List.mem_filterMap.mp h
  have hslash := notMem_of_mem_segments hs
  unfold classify at hc
  split at hc
  · cases hc
  · cases hc
  · cases hc
    trivial
  · rename_i h₁ h₂ h₃
    cases hc
    exact ⟨hslash, h₁, h₂, h₃⟩

theorem body_text {c : Component} (h : c.Plain) : body c.text = [c] := by
  cases c with
  | rootDir => exact h.elim
  | curDir => exact h.elim
  | parentDir => rfl
  | normal name =>
      obtain ⟨hslash, h₁, h₂, h₃⟩ := h
      simp only [Component.text, body, segments_of_notMem hslash]
      simp only [List.filterMap_cons, List.filterMap_nil]
      have hclass : classify name = some (.normal name) := by
        unfold classify
        split
        · exact absurd rfl h₁
        · exact absurd rfl h₂
        · exact absurd rfl h₃
        · rfl
      rw [hclass]

theorem isAbsolute_text {c : Component} (h : c.Plain) : isAbsolute c.text = false := by
  cases c with
  | rootDir => exact h.elim
  | curDir => exact h.elim
  | parentDir => rfl
  | normal name =>
      cases name with
      | nil => exact absurd rfl h.2.1
      | cons x rest =>
          have hx : '/' ≠ x := fun hx => h.1 (by rw [hx]; exact List.mem_cons_self ..)
          simpa [Component.text, isAbsolute] using Ne.symm hx

/-- Collected components are the components of a relative path. -/
theorem collect_spec {cs : List Component} (h : ∀ c ∈ cs, c.Plain) :
    body (collect cs) = cs ∧ isAbsolute (collect cs) = false := by
  have hfold : ∀ (cs : List Component) (buf : Text), (∀ c ∈ cs, c.Plain) →
      isAbsolute buf = false →
        body (cs.foldl (fun buf c => push buf c.text) buf) = body buf ++ cs ∧
          isAbsolute (cs.foldl (fun buf c => push buf c.text) buf) = false := by
    intro cs
    induction cs with
    | nil => simp
    | cons c rest ih =>
        intro buf hcs hbuf
        have hc := hcs c (by simp)
        have habs := isAbsolute_text hc
        obtain ⟨hbody, hrel⟩ := ih (push buf c.text) (fun c hc => hcs c (by simp [hc]))
          (by rw [isAbsolute_push _ _ habs, hbuf])
        rw [body_push _ _ habs, body_text hc] at hbody
        exact ⟨by rw [List.foldl_cons, hbody]; simp, hrel⟩
  simpa [collect] using hfold cs [] h rfl

theorem plain_of_mem_components_drop {p : Text} {c : Component}
    (h : c ∈ (components p).drop 1) : c.Plain := by
  unfold components at h
  split at h
  · exact plain_of_mem_body h
  · split at h
    · exact plain_of_mem_body h
    · exact plain_of_mem_body (List.mem_of_mem_drop h)

end Valid

section Lexical

/-- Where a path leads when `..` takes back the name before it: `ups` steps above
the start of a relative path, then down the names. -/
structure Place where
  absolute : Bool
  ups : Nat
  names : List Text
deriving DecidableEq

def Place.step (place : Place) : Component → Place
  | .rootDir => ⟨true, 0, []⟩
  | .curDir => place
  | .parentDir =>
      if place.names ≠ [] then { place with names := place.names.dropLast }
      else if place.absolute then place
      else { place with ups := place.ups + 1 }
  | .normal name => { place with names := place.names ++ [name] }

def place (p : Text) : Place := (components p).foldl Place.step ⟨false, 0, []⟩

theorem place_eq (p : Text) : place p = (body p).foldl Place.step ⟨isAbsolute p, 0, []⟩ := by
  unfold place components
  split
  · rename_i h
    rw [h]
    rfl
  · rename_i h
    rw [Bool.not_eq_true] at h
    rw [h]
    split <;> rfl

/-- The second path is the first one or lies below it. -/
def Within (dir p : Text) : Prop :=
  ∃ rest, place p = { place dir with names := (place dir).names ++ rest }

theorem place_join (dir path : Text) (h : isAbsolute path = false) :
    place (join dir path) = (body path).foldl Place.step (place dir) := by
  rw [place_eq, place_eq, join, isAbsolute_push dir path h, body_push dir path h,
    List.foldl_append]

/-- Components that never go above where they start, from a depth. -/
def Descends : Nat → List Component → Prop
  | _, [] => True
  | depth, .normal _ :: rest => Descends (depth + 1) rest
  | 0, .parentDir :: _ => False
  | depth + 1, .parentDir :: rest => Descends depth rest
  | depth, .curDir :: rest => Descends depth rest
  | _, .rootDir :: _ => False

def decideDescends : ∀ depth cs, Decidable (Descends depth cs)
  | _, [] => isTrue trivial
  | depth, .normal _ :: rest => decideDescends (depth + 1) rest
  | 0, .parentDir :: _ => isFalse id
  | depth + 1, .parentDir :: rest => decideDescends depth rest
  | 0, .curDir :: rest => decideDescends 0 rest
  | depth + 1, .curDir :: rest => decideDescends (depth + 1) rest
  | 0, .rootDir :: _ => isFalse id
  | _ + 1, .rootDir :: _ => isFalse id

instance (depth : Nat) (cs : List Component) : Decidable (Descends depth cs) :=
  decideDescends depth cs

/-- What is above the start does not matter to components that never go there. -/
theorem foldl_step_frame {cs : List Component} (start : Place) (below : List Text)
    (h : Descends below.length cs) :
    cs.foldl Place.step { start with names := start.names ++ below } =
      { start with names := start.names ++ (cs.foldl Place.step ⟨false, 0, below⟩).names } := by
  induction cs generalizing below with
  | nil => rfl
  | cons c cs ih =>
      cases c with
      | rootDir => cases below <;> exact h.elim
      | curDir =>
          apply ih below
          cases below <;> exact h
      | normal name =>
          have h' : Descends (below ++ [name]).length cs := by
            rw [List.length_append]
            exact h
          rw [List.foldl_cons, List.foldl_cons, Place.step, Place.step, ← ih (below ++ [name]) h',
            List.append_assoc]
      | parentDir =>
          cases below using List.reverseRecOn with
          | nil => exact h.elim
          | append_singleton front last =>
              rw [List.length_append] at h
              have hne : start.names ++ (front ++ [last]) ≠ [] := by simp
              have hne' : front ++ [last] ≠ [] := by simp
              rw [List.foldl_cons, List.foldl_cons, Place.step, Place.step, if_pos hne, if_pos hne',
                ← List.append_assoc, List.dropLast_concat, List.dropLast_concat, ih front h]

theorem foldl_step_of_descends {cs : List Component} (start : Place) (below : List Text)
    (h : Descends below.length cs) :
    ∃ rest, cs.foldl Place.step { start with names := start.names ++ below } =
      { start with names := start.names ++ rest } :=
  ⟨_, foldl_step_frame start below h⟩

/-- A place that left the directory `mark` and does not lead back into it. -/
def Astray (mark : Text) (p : Place) : Prop := p.ups ≠ 0 ∨ p.names.head? ≠ some mark

theorem astray_foldl {mark : Text} {cs : List Component} (hroot : Component.rootDir ∉ cs)
    (hmark : Component.normal mark ∉ cs) {p : Place} (h : Astray mark p) :
    Astray mark (cs.foldl Place.step p) := by
  induction cs generalizing p with
  | nil => exact h
  | cons c cs ih =>
      simp only [List.mem_cons, not_or] at hroot hmark
      apply ih hroot.2 hmark.2
      cases c with
      | rootDir => exact absurd rfl hroot.1
      | curDir => exact h
      | normal name =>
          rcases h with h | h
          · exact Or.inl h
          · apply Or.inr
            cases hn : p.names with
            | nil =>
                have hne : name ≠ mark := fun heq => hmark.1 (by rw [heq])
                simpa [Place.step, hn] using hne
            | cons x xs =>
                rw [hn] at h
                simpa [Place.step, hn] using h
      | parentDir =>
          cases hn : p.names with
          | nil =>
              cases ha : p.absolute with
              | true =>
                  simp only [Place.step, hn, ha, ne_eq, not_true_eq_false, if_false, if_true]
                  exact h
              | false => exact Or.inl (by simp [Place.step, hn, ha])
          | cons x xs =>
              rcases h with h | h
              · exact Or.inl (by simpa [Place.step, hn] using h)
              · apply Or.inr
                rw [hn] at h
                cases xs with
                | nil => simp [Place.step, hn]
                | cons y ys => simpa [Place.step, hn] using h

/-- Components that go above their start leave the directory they start in for
good, if they do not name it. -/
theorem astray_of_not_descends {mark : Text} {cs : List Component}
    (hroot : Component.rootDir ∉ cs) (hmark : Component.normal mark ∉ cs) (below : List Text)
    (absolute : Bool) (h : ¬ Descends below.length cs) :
    Astray mark (cs.foldl Place.step ⟨absolute, 0, mark :: below⟩) := by
  induction cs generalizing below with
  | nil => exact absurd trivial h
  | cons c cs ih =>
      simp only [List.mem_cons, not_or] at hroot hmark
      rw [List.foldl_cons]
      cases c with
      | rootDir => exact absurd rfl hroot.1
      | curDir =>
          refine ih hroot.2 hmark.2 below fun hd => h ?_
          cases below <;> exact hd
      | normal name =>
          refine ih hroot.2 hmark.2 (below ++ [name]) fun hd => h ?_
          rw [List.length_append] at hd
          exact hd
      | parentDir =>
          cases below using List.reverseRecOn with
          | nil =>
              -- the first step above the start: the mark is gone
              exact astray_foldl hroot.2 hmark.2 (Or.inr (by simp [Place.step]))
          | append_singleton front last =>
              have hstep : Place.step ⟨absolute, 0, mark :: (front ++ [last])⟩ .parentDir =
                  ⟨absolute, 0, mark :: front⟩ := by
                have hne : mark :: front ++ [last] ≠ [] := by simp
                simp only [Place.step, ← List.cons_append, if_pos hne, List.dropLast_concat]
              rw [hstep]
              refine ih hroot.2 hmark.2 front fun hd => h ?_
              rw [List.length_append]
              exact hd

theorem length_le_of_mem_segments {p s : Text} (h : s ∈ segments p) : s.length ≤ p.length := by
  induction p generalizing s with
  | nil =>
      simp only [segments, List.mem_singleton] at h
      simp [h]
  | cons c rest ih =>
      by_cases hc : c = '/'
      · simp only [segments, if_pos hc, List.mem_cons] at h
        rcases h with rfl | h
        · simp
        · exact Nat.le_succ_of_le (ih h)
      · simp only [segments, if_neg hc] at h
        cases hs : segments rest with
        | nil => exact absurd hs (segments_ne_nil rest)
        | cons t ts =>
            simp only [hs, List.mem_cons] at h
            rcases h with rfl | h
            · simpa using ih (s := t) (by simp [hs])
            · have hmem : s ∈ segments rest := by simp [hs, h]
              exact Nat.le_succ_of_le (ih hmem)

/-- A name longer than the whole path is not one of its components. -/
def freshName (p : Text) : Text := List.replicate (p.length + 1) 'd'

theorem normal_freshName_notMem (p : Text) : Component.normal (freshName p) ∉ body p := by
  intro h
  obtain ⟨s, hs, hc⟩ := List.mem_filterMap.mp h
  have hlen := length_le_of_mem_segments hs
  unfold classify at hc
  split at hc
  · cases hc
  · cases hc
  · cases hc
  · cases hc
    rw [freshName, List.length_replicate] at hlen
    omega

theorem place_freshName (p : Text) : place ('/' :: freshName p) = ⟨true, 0, [freshName p]⟩ := by
  have hplain : (Component.normal (freshName p)).Plain := by
    refine ⟨?_, ?_, ?_, ?_⟩ <;> simp [freshName, List.replicate_succ]
  have hbody : body ('/' :: freshName p) = [.normal (freshName p)] := by
    have h := body_append_slash [] (freshName p)
    rw [List.nil_append] at h
    rw [h, body_nil, List.nil_append]
    exact body_text hplain
  rw [place_eq, hbody]
  rfl

theorem not_within_of_astray {dir p mark : Text} (hdir : place dir = ⟨true, 0, [mark]⟩)
    (h : Astray mark (place p)) : ¬ Within dir p := by
  rintro ⟨rest, hrest⟩
  rw [hrest, hdir] at h
  rcases h with h | h
  · exact h rfl
  · exact h (by simp)

theorem rootDir_notMem_body (p : Text) : Component.rootDir ∉ body p :=
  fun h => plain_of_mem_body h

/-- A path stays below every directory it is joined to exactly when it is
relative and never climbs above its start. -/
theorem forall_within_join_iff (path : Text) :
    (∀ dir, Within dir (join dir path)) ↔
      isAbsolute path = false ∧ Descends 0 (body path) := by
  constructor
  · intro h
    have hdir := place_freshName path
    have hroot := rootDir_notMem_body path
    have hmark := normal_freshName_notMem path
    have hwithin := h ('/' :: freshName path)
    cases habs : isAbsolute path with
    | true =>
        -- the join is the path itself, which does not know the directory
        rw [join, push, if_pos habs] at hwithin
        refine absurd hwithin (not_within_of_astray hdir ?_)
        rw [place_eq]
        exact astray_foldl hroot hmark (Or.inr (by simp))
    | false =>
        refine ⟨rfl, ?_⟩
        by_contra hnot
        refine absurd hwithin (not_within_of_astray hdir ?_)
        rw [place_join _ _ habs, hdir]
        exact astray_of_not_descends hroot hmark [] true hnot
  · rintro ⟨habs, hdesc⟩ dir
    obtain ⟨rest, hrest⟩ := foldl_step_of_descends (place dir) [] hdesc
    refine ⟨rest, ?_⟩
    rw [place_join dir path habs, ← hrest, List.append_nil]

/-- The second path is an entry of the first one. -/
def DirectlyInside (dir p : Text) : Prop :=
  ∃ name, place p = { place dir with names := (place dir).names ++ [name] }

/-- A path that leads from the directory `sub` to one of its entries and stays in the
directory above. -/
structure EntryPath (sub path : Text) : Prop where
  relative : isAbsolute path = false
  descends : Descends 1 (body path)
  entry : ∃ name, (body path).foldl Place.step ⟨false, 0, [sub]⟩ = ⟨false, 0, [sub, name]⟩

theorem place_join_name {sub : Text} (hsub : (Component.normal sub).Plain) (dir : Text) :
    place (join dir sub) = { place dir with names := (place dir).names ++ [sub] } := by
  have hbody : body sub = [.normal sub] := body_text hsub
  rw [place_join dir sub (isAbsolute_text hsub), hbody]
  rfl

/-- A path leads to an entry of `sub`, wherever that is, exactly in this case. -/
theorem forall_directlyInside_iff {sub : Text} (hsub : (Component.normal sub).Plain)
    (path : Text) :
    (∀ dir, DirectlyInside (join dir sub) (join (join dir sub) path)) ↔ EntryPath sub path := by
  constructor
  · intro h
    -- a directory whose name does not occur in the path
    have hdir : place (join ('/' :: freshName path) sub) = ⟨true, 0, [freshName path, sub]⟩ := by
      rw [place_join_name hsub, place_freshName]
      rfl
    have hroot := rootDir_notMem_body path
    have hmark := normal_freshName_notMem path
    obtain ⟨name, hname⟩ := h ('/' :: freshName path)
    have hentry : place (join (join ('/' :: freshName path) sub) path) =
        ⟨true, 0, [freshName path, sub, name]⟩ := by
      rw [hname, hdir]
      rfl
    have hnot :
        ¬Astray (freshName path) (place (join (join ('/' :: freshName path) sub) path)) := by
      rw [hentry]
      rintro (hups | hhead)
      · exact hups rfl
      · exact hhead rfl
    cases habs : isAbsolute path with
    | true =>
        -- the join is the path itself, which does not know the directory
        refine absurd ?_ hnot
        rw [join, push, if_pos habs, place_eq]
        exact astray_foldl hroot hmark (Or.inr (by simp))
    | false =>
        rw [place_join _ _ habs, hdir] at hnot hentry
        have hdescends : Descends 1 (body path) := by
          by_contra hclimbs
          exact hnot (astray_of_not_descends hroot hmark [sub] true hclimbs)
        refine ⟨habs, hdescends, name, ?_⟩
        have hframe := foldl_step_frame ⟨true, 0, [freshName path]⟩ [sub] hdescends
        have hframe' := foldl_step_frame ⟨false, 0, []⟩ [sub] hdescends
        have hnames := congrArg Place.names (hframe.symm.trans hentry)
        have hbelow : ((body path).foldl Place.step ⟨false, 0, [sub]⟩).names = [sub, name] :=
          (List.append_right_inj [freshName path]).mp hnames
        rw [hbelow] at hframe'
        exact hframe'
  · rintro ⟨habs, hdescends, name, hentry⟩ dir
    refine ⟨name, ?_⟩
    rw [place_join _ _ habs, place_join_name hsub, foldl_step_frame (place dir) [sub] hdescends,
      hentry, List.append_assoc]
    rfl

end Lexical

end Npnpm.Path
