import Npnpm.Library.TreeView

/-!
# Walks in a tree that loses nothing

A walk that ends at a node ends there in every tree that holds all nodes of the
first. A path whose last name is no link is walked like its parent.
-/

namespace Npnpm.FileTree

open Npnpm.Path

variable {t t' : Tree} {d q r : Loc} {p : List Component} {name : Text}

/-- `t'` holds what `t` holds. -/
def Holds (t t' : Tree) : Prop := ∀ q node, t.get q = some node → t'.get q = some node

theorem Holds.get_eq_none (h : Holds t t') (hq : t'.get q = none) : t.get q = none := by
  refine Option.eq_none_iff_forall_not_mem.mpr fun node hnode => ?_
  rw [h q node hnode] at hq
  cases hq

theorem Holds.of_remove (t : Tree) {q : Loc} (hq : q ≠ []) : Holds (t.remove q) t := by
  intro p node hp
  rw [Tree.get_remove t hq] at hp
  split at hp
  · cases hp
  · exact hp

/-- A tree holds another one, as the list of its nodes shows. -/
theorem Holds.of_entries (h : ∀ e ∈ t.nodes.entries, t'.nodes.get e.1 = some e.2) :
    Holds t t' := by
  intro q node hq
  by_cases hnil : q = []
  · subst hnil
    rw [Tree.get_nil] at hq ⊢
    exact hq
  · rw [Tree.get_of_ne_nil _ hnil] at hq ⊢
    exact h (q, node) (KeyedMap.get_eq_some_iff.mp hq)

theorem Holds.of_create {node : Node} (h : t.create d name node = .ok t') : Holds t t' := by
  obtain ⟨-, hfree, hget⟩ := Tree.create_ok h
  intro q node' hq
  rw [hget, if_neg, hq]
  rintro rfl
  rw [hfree] at hq
  cases hq

theorem walkWith_ok_iff {follow : Loc → List Component → Except IoError Loc} {c : Component}
    {rest : List Component} :
    walkWith t follow d (c :: rest) = .ok r ↔ t.get d = some .dir ∧
      ((∃ target, t.get (land d c) = some (.link target) ∧
          follow d (components target ++ rest) = .ok r) ∨
        (∀ target, t.get (land d c) ≠ some (.link target)) ∧
          walkWith t follow (land d c) rest = .ok r) := by
  rw [walkWith]
  by_cases hdir : t.get d = some .dir
  · simp only [hdir, reduceCtorEq, if_false, ne_eq, not_true_eq_false, true_and]
    split
    · rename_i target htarget
      simp [htarget]
    · rename_i hno
      constructor
      · exact fun h => Or.inr ⟨fun target => hno target, h⟩
      · rintro (⟨target, htarget, -⟩ | ⟨-, h⟩)
        · exact absurd htarget (hno target)
        · exact h
  · simp only [hdir, false_and, iff_false]
    split
    · intro h
      cases h
    · intro h
      cases h

theorem walkWith_of_holds {follow follow' : Loc → List Component → Except IoError Loc}
    (hkept : Holds t t') (hr : t.get r = none → ∀ target, t'.get r ≠ some (.link target))
    (hfollow : ∀ d p, follow d p = .ok r → follow' d p = .ok r)
    (h : walkWith t follow d p = .ok r) : walkWith t' follow' d p = .ok r := by
  induction p generalizing d with
  | nil => exact h
  | cons c rest ih =>
      rw [walkWith_ok_iff] at h ⊢
      obtain ⟨hdir, hstep⟩ := h
      refine ⟨hkept d _ hdir, ?_⟩
      rcases hstep with ⟨target, hlink, hrest⟩ | ⟨hno, hrest⟩
      · exact Or.inl ⟨target, hkept _ _ hlink, hfollow _ _ hrest⟩
      · refine Or.inr ⟨fun target hlink => ?_, ih hrest⟩
        -- what is free in the first tree is no directory, and the walk ends there
        cases hnode : t.get (land d c) with
        | some node =>
            rw [hkept _ _ hnode] at hlink
            exact hno target (hnode.trans hlink)
        | none =>
            cases rest with
            | nil =>
                cases hrest
                exact hr hnode target hlink
            | cons c' rest' =>
                rw [walkWith_ok_iff, hnode] at hrest
                cases hrest.1

theorem walk_of_holds {n : Nat} (hkept : Holds t t')
    (hr : t.get r = none → ∀ target, t'.get r ≠ some (.link target))
    (h : walk t n d p = .ok r) : walk t' n d p = .ok r := by
  induction n generalizing d p with
  | zero => exact walkWith_of_holds hkept hr (fun _ _ herror => by cases herror) h
  | succ n ih => exact walkWith_of_holds hkept hr (fun _ _ hok => ih hok) h

theorem locate_of_holds (hkept : Holds t t') (hr : t.get r ≠ none) (h : locate t p = .ok r) :
    locate t' p = .ok r :=
  walk_of_holds hkept (fun hnone => absurd hnone hr) h

/-- Also a free place stays where a path leads, as long as no link is put there. -/
theorem locate_of_grows (hgrow : Grows t t') (h : locate t p = .ok r) : locate t' p = .ok r := by
  refine walk_of_holds hgrow.kept (fun hnone target hlink => ?_) h
  rw [hgrow.noLink r target hlink] at hnone
  cases hnone

/-- What is reached through some links is reached when more may be passed. -/
theorem walk_succ {n : Nat} (h : walk t n d p = .ok r) : walk t (n + 1) d p = .ok r := by
  have hends : t.get r = none → ∀ target, t.get r ≠ some (.link target) := by
    intro hnone target hlink
    rw [hnone] at hlink
    cases hlink
  induction n generalizing d p with
  | zero => exact walkWith_of_holds (fun _ _ hq => hq) hends (fun _ _ herror => by cases herror) h
  | succ n ih => exact walkWith_of_holds (fun _ _ hq => hq) hends (fun _ _ hok => ih hok) h

theorem canonicalize_ok_iff : canonicalize t p = .ok q ↔ locate t p = .ok q ∧ t.get q ≠ none := by
  constructor
  · intro h
    obtain ⟨r, hr, hq⟩ := Results.bind_ok h
    split at hq
    · cases hq
    · rename_i hsome
      cases hq
      exact ⟨hr, hsome⟩
  · rintro ⟨hlocate, hsome⟩
    rw [canonicalize, hlocate]
    exact if_neg hsome

/-- A link leads nowhere but where its target leads. -/
theorem canonicalize_target {target : Text} (hd : t.get d = some .dir)
    (hlink : t.get (d ++ [name]) = some (.link target)) (habs : isAbsolute target = true)
    (h : canonicalize t (pathOf (d ++ [name])) = .ok q) :
    canonicalize t (components target) = .ok q := by
  obtain ⟨hlocate, hsome⟩ := canonicalize_ok_iff.mp h
  have hpass : walkWith t (walk t 39) [] (d.map .normal ++ [.normal name]) =
      walkWith t (walk t 39) d [.normal name] := walkWith_of_dir [.normal name] hd
  change walkWith t (walk t 39) [] _ = _ at hlocate
  rw [pathOf, List.map_append, List.map_singleton, walkWith_rootDir, hpass,
    walkWith_ok_iff] at hlocate
  rcases hlocate.2 with ⟨target', htarget, hfollow⟩ | ⟨hno, -⟩
  · obtain rfl : target = target' := by
      rw [land, hlink] at htarget
      exact Node.link.inj (Option.some.inj htarget)
    -- an absolute target is walked from the root
    have hroot : walk t 39 [] (components target) = .ok q := by
      rw [List.append_nil, components, if_pos habs] at hfollow
      obtain ⟨follow, hwalk⟩ := exists_walk_eq t 39
      rw [hwalk, walkWith_ok_iff] at hfollow
      rw [components, if_pos habs, hwalk, walkWith_rootDir]
      rcases hfollow.2 with ⟨_, hroot, -⟩ | ⟨-, hrest⟩
      · cases hroot
      · exact hrest
    exact canonicalize_ok_iff.mpr ⟨walk_succ hroot, hsome⟩
  · exact absurd hlink (hno target)

section Meet

variable {s s' : Tree}

/-- A walk that ends at a node looks at nodes only. -/
theorem walkWith_get_ne_none {follow : Loc → List Component → Except IoError Loc} {c : Component}
    {rest : List Component} (hr : t.get r ≠ none)
    (h : walkWith t follow (land d c) rest = .ok r) : t.get (land d c) ≠ none := by
  cases rest with
  | nil =>
      cases h
      exact hr
  | cons c' rest' =>
      rw [(walkWith_ok_iff.mp h).1]
      exact Option.some_ne_none Node.dir

/-- What two parts of a tree lead to, a part leads to that holds what both of them hold. -/
theorem walkWith_meet {follow follow' follow'' : Loc → List Component → Except IoError Loc}
    (hs : Holds s t) (hs' : Holds s' t) (ht' : Holds t' t)
    (hmeet : ∀ q node, s.get q = some node → s'.get q = some node → t'.get q = some node)
    (hr : s.get r ≠ none) (hr' : s'.get r ≠ none)
    (hfollow : ∀ d p, follow d p = .ok r → follow' d p = .ok r → follow'' d p = .ok r)
    (h : walkWith s follow d p = .ok r) (h' : walkWith s' follow' d p = .ok r) :
    walkWith t' follow'' d p = .ok r := by
  induction p generalizing d with
  | nil => exact h
  | cons c rest ih =>
      rw [walkWith_ok_iff] at h h' ⊢
      obtain ⟨hdir, hstep⟩ := h
      obtain ⟨hdir', hstep'⟩ := h'
      refine ⟨hmeet d _ hdir hdir', ?_⟩
      rcases hstep with ⟨target, hlink, hrest⟩ | ⟨hno, hrest⟩
      · rcases hstep' with ⟨target', hlink', hrest'⟩ | ⟨hno', hrest'⟩
        · have htarget := (hs _ _ hlink).symm.trans (hs' _ _ hlink')
          cases htarget
          exact Or.inl ⟨target, hmeet _ _ hlink hlink', hfollow _ _ hrest hrest'⟩
        · obtain ⟨node, hnode⟩ := Option.ne_none_iff_exists'.mp (walkWith_get_ne_none hr' hrest')
          have hsame := (hs' _ _ hnode).symm.trans (hs _ _ hlink)
          cases hsame
          exact absurd hnode (hno' target)
      · obtain ⟨node, hnode⟩ := Option.ne_none_iff_exists'.mp (walkWith_get_ne_none hr hrest)
        rcases hstep' with ⟨target', hlink', -⟩ | ⟨-, hrest'⟩
        · have hsame := (hs _ _ hnode).symm.trans (hs' _ _ hlink')
          cases hsame
          exact absurd hnode (hno target')
        · refine Or.inr ⟨fun target hlink => ?_, ih hrest hrest'⟩
          have hsame := (hs _ _ hnode).symm.trans (ht' _ _ hlink)
          cases hsame
          exact hno target hnode

theorem walk_meet {n : Nat} (hs : Holds s t) (hs' : Holds s' t) (ht' : Holds t' t)
    (hmeet : ∀ q node, s.get q = some node → s'.get q = some node → t'.get q = some node)
    (hr : s.get r ≠ none) (hr' : s'.get r ≠ none) (h : walk s n d p = .ok r)
    (h' : walk s' n d p = .ok r) : walk t' n d p = .ok r := by
  induction n generalizing d p with
  | zero =>
      exact walkWith_meet hs hs' ht' hmeet hr hr' (fun _ _ herror => by cases herror) h h'
  | succ n ih =>
      exact walkWith_meet hs hs' ht' hmeet hr hr' (fun _ _ hok hok' => ih hok hok') h h'

theorem canonicalize_meet (hs : Holds s t) (hs' : Holds s' t) (ht' : Holds t' t)
    (hmeet : ∀ q node, s.get q = some node → s'.get q = some node → t'.get q = some node)
    (h : canonicalize s p = .ok r) (h' : canonicalize s' p = .ok r) :
    canonicalize t' p = .ok r := by
  rw [canonicalize_ok_iff] at h h' ⊢
  obtain ⟨hwalk, hr⟩ := h
  obtain ⟨hwalk', hr'⟩ := h'
  refine ⟨walk_meet hs hs' ht' hmeet hr hr' hwalk hwalk', ?_⟩
  obtain ⟨node, hnode⟩ := Option.ne_none_iff_exists'.mp hr
  obtain ⟨node', hnode'⟩ := Option.ne_none_iff_exists'.mp hr'
  have hsame := (hs _ _ hnode).symm.trans (hs' _ _ hnode')
  cases hsame
  rw [hmeet _ _ hnode hnode']
  exact Option.some_ne_none node

end Meet

theorem canonicalize_of_holds (hkept : Holds t t') (h : canonicalize t p = .ok q) :
    canonicalize t' p = .ok q := by
  obtain ⟨hlocate, hsome⟩ := canonicalize_ok_iff.mp h
  obtain ⟨node, hnode⟩ := Option.ne_none_iff_exists'.mp hsome
  refine canonicalize_ok_iff.mpr ⟨locate_of_holds hkept hsome hlocate, ?_⟩
  rw [hkept q node hnode]
  exact Option.some_ne_none node

theorem pathExists_iff : pathExists t p = true ↔ ∃ q, canonicalize t p = .ok q := by
  unfold pathExists
  cases canonicalize t p <;> simp [Except.isOk, Except.toBool]

theorem pathExists_of_holds (hkept : Holds t t') (h : pathExists t p = true) :
    pathExists t' p = true := by
  obtain ⟨q, hq⟩ := pathExists_iff.mp h
  exact pathExists_iff.mpr ⟨q, canonicalize_of_holds hkept hq⟩

theorem readFile_ok_iff {content : Text} :
    readFile t p = .ok content ↔
      ∃ q, canonicalize t p = .ok q ∧ t.get q = some (.file content) := by
  constructor
  · intro h
    obtain ⟨q, hq, hnode⟩ := Results.bind_ok h
    split at hnode
    · rename_i found hfound
      cases hnode
      exact ⟨q, hq, hfound⟩
    · cases hnode
  · rintro ⟨q, hq, hnode⟩
    apply Results.ok_bind hq
    rw [hnode]

/-- A file that is read is read in every tree that holds as much. -/
theorem readFile_of_holds {content : Text} (hkept : Holds t t') (h : readFile t p = .ok content) :
    readFile t' p = .ok content := by
  obtain ⟨q, hq, hnode⟩ := readFile_ok_iff.mp h
  exact readFile_ok_iff.mpr ⟨q, canonicalize_of_holds hkept hq, hkept q _ hnode⟩

/-- What stands where a path leads is read in a larger tree only if it was before. -/
theorem readFile_of_larger {content : Text} (hkept : Holds t t') (hexists : pathExists t p = true)
    (h : readFile t' p = .ok content) : readFile t p = .ok content := by
  obtain ⟨q, hq⟩ := pathExists_iff.mp hexists
  obtain ⟨q', hq', hnode⟩ := readFile_ok_iff.mp h
  obtain rfl := Except.ok.inj ((canonicalize_of_holds hkept hq).symm.trans hq')
  obtain ⟨node, hsome⟩ := Option.ne_none_iff_exists'.mp (canonicalize_ok_iff.mp hq).2
  refine readFile_ok_iff.mpr ⟨q, hq, ?_⟩
  rw [hsome, ← hkept q node hsome, hnode]

section Last

theorem walkWith_append {follow follow' : Loc → List Component → Except IoError Loc}
    {c : Component} (hd : t.get r = some .dir)
    (hno : ∀ target, t.get (land r c) ≠ some (.link target))
    (hfollow : ∀ d p, follow d p = .ok r → follow' d (p ++ [c]) = .ok (land r c))
    (h : walkWith t follow d p = .ok r) : walkWith t follow' d (p ++ [c]) = .ok (land r c) := by
  induction p generalizing d with
  | nil =>
      cases h
      exact walkWith_ok_iff.mpr ⟨hd, Or.inr ⟨hno, rfl⟩⟩
  | cons c' rest ih =>
      rw [walkWith_ok_iff] at h
      rw [List.cons_append, walkWith_ok_iff]
      refine ⟨h.1, ?_⟩
      rcases h.2 with ⟨target, hlink, hrest⟩ | ⟨hlast, hrest⟩
      · refine Or.inl ⟨target, hlink, ?_⟩
        rw [← List.append_assoc]
        exact hfollow _ _ hrest
      · exact Or.inr ⟨hlast, ih hrest⟩

/-- One more component that leads over no link. -/
theorem walk_append {n : Nat} {c : Component} (hd : t.get r = some .dir)
    (hno : ∀ target, t.get (land r c) ≠ some (.link target)) (h : walk t n d p = .ok r) :
    walk t n d (p ++ [c]) = .ok (land r c) := by
  induction n generalizing d p with
  | zero => exact walkWith_append hd hno (fun _ _ herror => by cases herror) h
  | succ n ih => exact walkWith_append hd hno (fun _ _ hok => ih hok) h

/-- What stands under the last name of a path is where the path leads, unless it is a
link. -/
theorem canonicalize_of_last {node : Node} (hlast : p.getLast? = some (.normal name))
    (hd : locate t p.dropLast = .ok d) (hnode : t.get (d ++ [name]) = some node)
    (hno : ∀ target, node ≠ .link target) : canonicalize t p = .ok (d ++ [name]) := by
  have hdir : t.get d = some .dir := by simpa using Tree.get_dropLast hnode
  have hlink : ∀ target, t.get (land d (.normal name)) ≠ some (.link target) := by
    intro target htarget
    rw [land, hnode, Option.some.injEq] at htarget
    exact hno target htarget
  have happend : p = p.dropLast ++ [.normal name] :=
    (List.dropLast_append_getLast? (Component.normal name) hlast).symm
  rw [happend]
  refine canonicalize_ok_iff.mpr ⟨walk_append hdir hlink hd, ?_⟩
  rw [hnode]
  exact Option.some_ne_none node

theorem walkWith_front {follow follow' : Loc → List Component → Except IoError Loc} {c : Component}
    (hfollow : ∀ d p, follow d (p ++ [c]) = .ok r → ∃ e, follow' d p = .ok e ∧ t.get e = some .dir)
    (h : walkWith t follow d (p ++ [c]) = .ok r) :
    ∃ e, walkWith t follow' d p = .ok e ∧ t.get e = some .dir := by
  induction p generalizing d with
  | nil => exact ⟨d, rfl, (walkWith_ok_iff.mp h).1⟩
  | cons c' rest ih =>
      rw [List.cons_append, walkWith_ok_iff] at h
      obtain ⟨hdir, ⟨target, hlink, hrest⟩ | ⟨hno, hrest⟩⟩ := h
      · rw [← List.append_assoc] at hrest
        obtain ⟨e, he, hedir⟩ := hfollow _ _ hrest
        exact ⟨e, walkWith_ok_iff.mpr ⟨hdir, Or.inl ⟨target, hlink, he⟩⟩, hedir⟩
      · obtain ⟨e, he, hedir⟩ := ih hrest
        exact ⟨e, walkWith_ok_iff.mpr ⟨hdir, Or.inr ⟨hno, he⟩⟩, hedir⟩

/-- The way to a path goes through the directory of its last component. -/
theorem walk_front {n : Nat} {c : Component} (h : walk t n d (p ++ [c]) = .ok r) :
    ∃ e, walk t n d p = .ok e ∧ t.get e = some .dir := by
  induction n generalizing d p with
  | zero => exact walkWith_front (fun _ _ herror => by cases herror) h
  | succ n ih => exact walkWith_front (fun _ _ hok => ih hok) h

end Last

section Entries

theorem entry_of_last (hlast : p.getLast? = some (.normal name)) :
    entry t p = .ok q ↔ ∃ d, locate t p.dropLast = .ok d ∧ t.get d = some .dir ∧
      q = d ++ [name] := by
  rw [entry, hlast]
  constructor
  · intro h
    obtain ⟨d, hd, hq⟩ := Results.bind_ok h
    split at hq
    · cases hq
    · split at hq
      · cases hq
      · rename_i hdir
        cases hq
        exact ⟨d, hd, not_not.mp hdir, rfl⟩
  · rintro ⟨d, hd, hdir, rfl⟩
    apply Results.ok_bind hd
    rw [if_neg (by rw [hdir]; exact Option.some_ne_none Node.dir), if_neg (not_not.mpr hdir)]

theorem entry_of_not_last (hlast : ∀ name, p.getLast? ≠ some (.normal name)) :
    entry t p = canonicalize t p := by
  unfold entry
  split
  · rename_i name hname
    exact absurd hname (hlast name)
  · rfl

theorem entry_of_holds (hkept : Holds t t') (h : entry t p = .ok q) : entry t' p = .ok q := by
  by_cases hlast : ∃ name, p.getLast? = some (.normal name)
  · obtain ⟨name, hlast⟩ := hlast
    obtain ⟨d, hd, hdir, rfl⟩ := (entry_of_last hlast).mp h
    have hne : t.get d ≠ none := by
      rw [hdir]
      exact Option.some_ne_none Node.dir
    exact (entry_of_last hlast).mpr ⟨d, locate_of_holds hkept hne hd, hkept d _ hdir, rfl⟩
  · rw [entry_of_not_last fun name hname => hlast ⟨name, hname⟩] at h ⊢
    exact canonicalize_of_holds hkept h

theorem symlinkMetadata_ok_iff {node : Node} :
    symlinkMetadata t p = .ok node ↔ ∃ q, entry t p = .ok q ∧ t.get q = some node := by
  constructor
  · intro h
    obtain ⟨q, hq, hnode⟩ := Results.bind_ok h
    refine ⟨q, hq, ?_⟩
    split at hnode
    · rename_i node' hget
      cases hnode
      exact hget
    · cases hnode
  · rintro ⟨q, hq, hnode⟩
    rw [symlinkMetadata, hq]
    simp only [bind, Except.bind, hnode]

/-- A path that leads somewhere has an entry. -/
theorem exists_entry (h : canonicalize t p = .ok q) : ∃ node, symlinkMetadata t p = .ok node := by
  obtain ⟨hlocate, hq⟩ := canonicalize_ok_iff.mp h
  by_cases hlast : ∃ name, p.getLast? = some (.normal name)
  · obtain ⟨name, hlast⟩ := hlast
    have happend : p = p.dropLast ++ [.normal name] :=
      (List.dropLast_append_getLast? (Component.normal name) hlast).symm
    rw [happend] at hlocate
    obtain ⟨d, hd, hdir⟩ := walk_front hlocate
    have hentry : entry t p = .ok (d ++ [name]) := (entry_of_last hlast).mpr ⟨d, hd, hdir, rfl⟩
    cases hnode : t.get (d ++ [name]) with
    | some node => exact ⟨node, symlinkMetadata_ok_iff.mpr ⟨_, hentry, hnode⟩⟩
    | none =>
        have hfree : ∀ target, t.get (land d (.normal name)) ≠ some (.link target) := by
          simp [land, hnode]
        have hwalk := walk_append hdir hfree hd
        have heq := Except.ok.inj (hlocate.symm.trans hwalk)
        rw [heq] at hq
        exact absurd hnode hq
  · obtain ⟨node, hnode⟩ := Option.ne_none_iff_exists'.mp hq
    refine ⟨node, symlinkMetadata_ok_iff.mpr ⟨q, ?_, hnode⟩⟩
    rw [entry_of_not_last fun name hname => hlast ⟨name, hname⟩, h]

/-- The entry of a path that leads nowhere is a link or free. -/
theorem entry_link_of_not_exists {node : Node} (hno : pathExists t p = false)
    (h : symlinkMetadata t p = .ok node) : ∃ target, node = .link target := by
  obtain ⟨q, hq, hnode⟩ := symlinkMetadata_ok_iff.mp h
  have hnot : ∀ q, canonicalize t p ≠ .ok q := fun q hq => by
    rw [pathExists_iff.mpr ⟨q, hq⟩] at hno
    cases hno
  by_cases hlast : ∃ name, p.getLast? = some (.normal name)
  · obtain ⟨name, hlast⟩ := hlast
    obtain ⟨d, hd, -, rfl⟩ := (entry_of_last hlast).mp hq
    by_contra hlink
    exact hnot _ (canonicalize_of_last hlast hd hnode fun target heq => hlink ⟨target, heq⟩)
  · rw [entry_of_not_last fun name h => hlast ⟨name, h⟩] at hq
    exact absurd hq (hnot q)

/-- No walk says that something exists already. -/
theorem walkWith_ne {follow : Loc → List Component → Except IoError Loc}
    (hfollow : ∀ d p, follow d p ≠ .error .alreadyExists) :
    walkWith t follow d p ≠ .error .alreadyExists := by
  induction p generalizing d with
  | nil =>
      intro h
      cases h
  | cons c rest ih =>
      rw [walkWith]
      split
      · intro h
        cases h
      · split
        · intro h
          cases h
        · split
          · exact hfollow _ _
          · exact ih

theorem locate_ne : locate t p ≠ .error .alreadyExists := by
  have hwalk : ∀ n d p, walk t n d p ≠ .error .alreadyExists := by
    intro n
    induction n with
    | zero => exact fun d p => walkWith_ne fun _ _ h => by cases h
    | succ n ih => exact fun d p => walkWith_ne ih
  exact hwalk maxLinks [] p

theorem canonicalize_ne : canonicalize t p ≠ .error .alreadyExists := by
  refine Results.bind_ne locate_ne fun q _ => ?_
  split
  · intro h
    cases h
  · intro h
    cases h

/-- A place is taken for a new node only if a node is there. -/
theorem makeNode_alreadyExists {node : Node} (h : makeNode t p node = .error .alreadyExists) :
    ∃ other, symlinkMetadata t p = .ok other := by
  unfold makeNode at h
  split at h
  · cases h
  · rename_i name hlast
    cases hd : locate t p.dropLast with
    | error e =>
        rw [hd] at h
        cases h
        exact absurd hd locate_ne
    | ok d =>
        rw [hd] at h
        change t.create d name node = _ at h
        unfold Tree.create at h
        split at h
        · rename_i hdir
          split at h
          · cases h
          · rename_i htaken
            obtain ⟨other, hother⟩ := Option.ne_none_iff_exists'.mp htaken
            exact ⟨other, symlinkMetadata_ok_iff.mpr
              ⟨d ++ [name], (entry_of_last hlast).mpr ⟨d, hd, hdir, rfl⟩, hother⟩⟩
        · split at h <;> cases h
  · rename_i c hnot hlast
    cases hq : canonicalize t p with
    | error e =>
        rw [hq] at h
        cases h
        exact absurd hq canonicalize_ne
    | ok q =>
        obtain ⟨other, hother⟩ := Option.ne_none_iff_exists'.mp (canonicalize_ok_iff.mp hq).2
        refine ⟨other, symlinkMetadata_ok_iff.mpr ⟨q, ?_, hother⟩⟩
        rw [entry_of_not_last fun name hname => ?_, hq]
        rw [hlast, Option.some.injEq] at hname
        exact hnot name hname

/-- A node is made at a free place. -/
theorem symlinkMetadata_ne_of_makeNode {node other : Node} (h : makeNode t p node = .ok t') :
    symlinkMetadata t p ≠ .ok other := by
  obtain ⟨name, d, hlast, hd, hcreate⟩ := makeNode_ok h
  obtain ⟨-, hfree, -⟩ := Tree.create_ok hcreate
  intro hother
  obtain ⟨q, hq, htaken⟩ := symlinkMetadata_ok_iff.mp hother
  obtain ⟨d', hd', -, rfl⟩ := (entry_of_last hlast).mp hq
  rw [hd, Except.ok.injEq] at hd'
  rw [← hd', hfree] at htaken
  cases htaken

/-- A node that was made stands at its path. -/
theorem symlinkMetadata_of_makeNode {node : Node} (h : makeNode t p node = .ok t') :
    symlinkMetadata t' p = .ok node := by
  obtain ⟨name, d, hlast, hd, hcreate⟩ := makeNode_ok h
  obtain ⟨hdir, -, hget⟩ := Tree.create_ok hcreate
  have hentry : entry t p = .ok (d ++ [name]) :=
    (entry_of_last hlast).mpr ⟨d, hd, hdir, rfl⟩
  refine symlinkMetadata_ok_iff.mpr
    ⟨d ++ [name], entry_of_holds (Holds.of_create hcreate) hentry, ?_⟩
  rw [hget, if_pos rfl]

/-- A path leads to the file that was made under its last name. -/
theorem readFile_of_makeNode {content : Text} (h : makeNode t p (.file content) = .ok t') :
    readFile t' p = .ok content := by
  obtain ⟨name, d, hlast, hd, hcreate⟩ := makeNode_ok h
  obtain ⟨-, -, hget⟩ := Tree.create_ok hcreate
  have hno : ∀ target, Node.file content ≠ .link target := by simp
  have hnode : t'.get (d ++ [name]) = some (.file content) := by rw [hget, if_pos rfl]
  exact readFile_ok_iff.mpr ⟨d ++ [name],
    canonicalize_of_last hlast (locate_of_grows (.of_create hno hcreate) hd) hnode hno, hnode⟩

/-- A path leads to the file that was made where it leads. -/
theorem readFile_of_makeTarget {content : Text} (h : makeTarget t p (.file content) = .ok t') :
    readFile t' p = .ok content := by
  have hgrow := Grows.of_makeTarget (by simp) h
  obtain ⟨q, hq, hmade⟩ := Results.bind_ok h
  split at hmade
  · cases hmade
  · rename_i name hlast
    obtain ⟨-, -, hget⟩ := Tree.create_ok hmade
    have hqname : q = q.dropLast ++ [name] := (List.dropLast_append_getLast? name hlast).symm
    have hnode : t'.get q = some (.file content) := by rw [hget, if_pos hqname]
    refine readFile_ok_iff.mpr ⟨q, canonicalize_ok_iff.mpr ⟨locate_of_grows hgrow hq, ?_⟩, hnode⟩
    rw [hnode]
    exact Option.some_ne_none _

end Entries

end Npnpm.FileTree
