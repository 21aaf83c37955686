import Npnpm.PackageManager.SyncLinks

/-!
# What the synchronisation of direct links sweeps away

The sweep lists the modules directory in two levels. Whether an entry is the directory of a
scope is asked with `is_dir`, which follows links, so under the name of a scope a link to
any directory is taken for the scope: what the directory holds is listed, and removed where
it stands.
-/

namespace Npnpm

open Npnpm.Path Npnpm.FileTree

/-- The name of a scope that is a link to a directory. -/
def ScopeLink (t : Tree) (dir : List Component) (m : Loc) (scope : Text) (d : Loc) : Prop :=
  scope.head? = some '@' ∧ (∃ target, t.get (m ++ [scope]) = some (.link target)) ∧
    canonicalize t (dir ++ [.normal scope]) = .ok d ∧ t.get d = some .dir

section Rounds

variable {t t' s s' : Tree} {dir path : List Component} {m loc : Loc} {text : Text}
  {desired : List Text}

theorem removeDir_inv (h : removeDir s path = .ok s') :
    ∃ q, entry s path = .ok q ∧ q ≠ [] ∧ s.get q = some .dir ∧ s.children q = [] ∧
      s' = s.remove q := by
  obtain ⟨q, hq, hremove⟩ := Results.bind_ok h
  split at hremove
  · cases hremove
  · rename_i hdir
    split at hremove
    · cases hremove
    · rename_i hnil
      split at hremove
      · rename_i hempty
        cases hremove
        exact ⟨q, hq, hnil, hdir, hempty, rfl⟩
      · cases hremove
  · cases hremove

theorem parent_concat_normal (dir : List Component) (name : Text) :
    parent (dir ++ [.normal name]) = some dir := by
  rw [parent, getLast?_concat_normal, List.dropLast_concat]

/-- What a round did: it passed over a wanted entry, or removed the node of another one,
with the directory of its scope when that was a directory of its own and empty now. -/
inductive RoundOutcome (s : Tree) (dir : List Component) (m loc : Loc) (path : List Component) :
    Tree → Prop
  | removed
      (hleft : ∀ scope name, path = dir ++ [.normal scope, .normal name] →
        (readDir (s.remove loc) (dir ++ [.normal scope])).toOption ≠ some []) :
      RoundOutcome s dir m loc path (s.remove loc)
  | emptied {scope name : Text} (hpath : path = dir ++ [.normal scope, .normal name])
      (hloc : loc = m ++ [scope, name])
      (hleads : canonicalize (s.remove loc) (dir ++ [.normal scope]) = .ok (m ++ [scope]))
      (hscope : (s.remove loc).get (m ++ [scope]) = some .dir)
      (hempty : (s.remove loc).children (m ++ [scope]) = []) :
      RoundOutcome s dir m loc path ((s.remove loc).remove (m ++ [scope]))

theorem syncPackage_outcome (hdir : canonicalize t dir = .ok m) (hm : t.get m = some .dir)
    (hs : Holds s t) (hentry : SeenEntry t dir m text path loc) (hnot : text ∉ desired)
    (h : syncPackage dir desired s (text, path) = .ok s') :
    loc ≠ [] ∧ entry s path = .ok loc ∧ s.get loc ≠ none ∧
      RoundOutcome s dir m loc path s' := by
  unfold syncPackage at h
  rw [if_neg hnot] at h
  obtain ⟨s₁, hs₁, h⟩ := Results.bind_ok h
  have hstale := Results.mapError_ok hs₁
  obtain ⟨q, hq, hne, rfl⟩ := removeStale_ok hstale
  -- the path leads in the tree of the round where it leads in the first tree
  have hloc := entry_of_holds hs hq
  rw [hentry.entry hdir hm, Except.ok.injEq] at hloc
  subst hloc
  obtain ⟨metadata, hmetadata, -⟩ := Results.bind_ok hstale
  obtain ⟨r, hr, hnode⟩ := symlinkMetadata_ok_iff.mp hmetadata
  rw [hq, Except.ok.injEq] at hr
  subst hr
  refine ⟨hne, hq, by rw [hnode]; exact Option.some_ne_none metadata, ?_⟩
  have hs' : Holds (s.remove loc) t := fun q node hq => hs q node (Holds.of_remove s hne q node hq)
  cases hentry with
  | plain hdot hscope htaken =>
      simp only [parent_concat_normal, ne_eq, not_true_eq_false, false_and, if_false] at h
      cases h
      refine .removed fun scope other heq => ?_
      have hlen := congrArg List.length heq
      simp at hlen
  | @inScope scope name d hscope htaken hleads hd hscoped =>
      have hcons : dir ++ [.normal scope, .normal name] =
          dir ++ [.normal scope] ++ [.normal name] := by simp
      simp only [hcons, parent_concat_normal] at h
      split at h
      · rename_i hempty
        obtain ⟨r, hr, -, hrdir, hchildren, rfl⟩ := removeDir_inv (Results.mapError_ok h)
        have hentry := entry_of_holds hs' hr
        rw [entry_concat hdir hm, Except.ok.injEq] at hentry
        subst hentry
        -- a directory stands under the name of the scope, so that is where it leads
        have hown := canonicalize_concat hdir (hs' _ _ hrdir) (by simp)
        rw [hleads, Except.ok.injEq] at hown
        subst hown
        obtain ⟨r, hread, -⟩ := readDir_ok_iff.mp (Results.toOption_eq_some hempty.2)
        have hsame := canonicalize_of_holds hs' hread
        rw [hleads, Except.ok.injEq] at hsame
        subst hsame
        exact .emptied rfl (by simp) hread hrdir hchildren
      · rename_i hempty
        cases h
        refine .removed fun scope' name' heq hread => hempty ⟨?_, ?_⟩
        · intro hsame
          have hlen := congrArg List.length hsame
          simp at hlen
        · have hscopes := List.append_cancel_left heq
          simp only [List.cons.injEq, Component.normal.injEq, and_true] at hscopes
          rw [hscopes.1]
          exact hread

theorem RoundOutcome.holds (hne : loc ≠ []) (h : RoundOutcome s dir m loc path s') :
    Holds s' s := by
  cases h with
  | removed hleft => exact Holds.of_remove s hne
  | @emptied scope name hpath hloc hleads hscope hempty =>
      have hscope : m ++ [scope] ≠ [] := by simp
      exact fun q node hq => Holds.of_remove s hne q node (Holds.of_remove _ hscope q node hq)

theorem RoundOutcome.gone (hne : loc ≠ []) (h : RoundOutcome s dir m loc path s') :
    s'.get loc = none := by
  cases h with
  | removed hleft => rw [Tree.get_remove s hne, if_pos List.prefix_rfl]
  | @emptied scope name hpath hloc hleads hscope hempty =>
      have hscope : m ++ [scope] ≠ [] := by simp
      rw [Tree.get_remove _ hscope, Tree.get_remove s hne, if_pos List.prefix_rfl, ite_self]

/-- A round takes away what is at or below the entry, and at most the directory of a
scope. -/
theorem RoundOutcome.kept (hne : loc ≠ []) (h : RoundOutcome s dir m loc path s') {k : Loc}
    {node : Node} (hnode : s.get k = some node) (hloc : ¬ loc <+: k)
    (hscope : ∀ scope name, path = dir ++ [.normal scope, .normal name] →
      loc = m ++ [scope, name] → k ≠ m ++ [scope]) :
    s'.get k = some node := by
  have hfirst : (s.remove loc).get k = some node := by
    rw [Tree.get_remove s hne, if_neg hloc, hnode]
  cases h with
  | removed hleft => exact hfirst
  | @emptied scope name hpath heq hleads hdir hempty =>
      have hnil : m ++ [scope] ≠ [] := by simp
      rw [Tree.get_remove _ hnil, if_neg, hfirst]
      rintro ⟨rest, hrest⟩
      cases rest with
      | nil => exact hscope scope name hpath heq (by simpa using hrest.symm)
      | cons other rest =>
          -- something below the directory would be left in it
          have hother : (s.remove loc).get (m ++ [scope] ++ [other]) ≠ none := by
            intro hnone
            have hbelow := Tree.get_eq_none_of_above hnone
              (show m ++ [scope] ++ [other] <+: k from ⟨rest, by rw [← hrest]; simp⟩)
            rw [hfirst] at hbelow
            cases hbelow
          have hchild := Tree.mem_children.mpr hother
          rw [hempty] at hchild
          cases hchild

variable (hdir : canonicalize t dir = .ok m) (hm : t.get m = some .dir)

include hdir hm

/-- What every round keeps holds after any of them. -/
theorem rounds_invariant {part : List (Text × List Component)} (inv : Tree → Prop)
    (hpart : ∀ p ∈ part, ∃ loc, SeenEntry t dir m p.1 p.2 loc) (hs : Holds s t) (hstart : inv s)
    (hround : ∀ text path loc r r', SeenEntry t dir m text path loc → text ∉ desired → loc ≠ [] →
      entry r path = .ok loc → r.get loc ≠ none → Holds r t → inv r →
      RoundOutcome r dir m loc path r' → inv r')
    (hfold : part.foldlM (syncPackage dir desired) s = .ok s') : Holds s' t ∧ inv s' := by
  refine Results.foldlM_invariant (fun r => Holds r t ∧ inv r) hfold ⟨hs, hstart⟩ ?_
  rintro ⟨text, path⟩ hmem r r' ⟨hr, hinv⟩ h
  obtain ⟨loc, hentry⟩ := hpart _ hmem
  by_cases hdesired : text ∈ desired
  · unfold syncPackage at h
    rw [if_pos hdesired] at h
    cases h
    exact ⟨hr, hinv⟩
  · obtain ⟨hne, hleads, hthere, houtcome⟩ := syncPackage_outcome hdir hm hr hentry hdesired h
    refine ⟨fun q node hq => hr q node (houtcome.holds hne q node hq), ?_⟩
    exact hround text path loc r r' hentry hdesired hne hleads hthere hr hinv houtcome

omit hdir hm in
/-- The sweep of a modules directory that is there. -/
theorem sync_rounds {modulesDir : Text} (hexists : pathExists t (components modulesDir) = true)
    (h : syncDirectDependencyLinks t modulesDir desired = .ok t') :
    ∃ packages, currentDirectDependencyPaths t (components modulesDir) = .ok packages ∧
      packages.foldlM (syncPackage (components modulesDir) desired) t = .ok t' := by
  unfold syncDirectDependencyLinks at h
  simp only [hexists, if_true] at h
  exact Results.bind_ok h

variable {packages : List (Text × List Component)}
  (hpackages : currentDirectDependencyPaths t dir = .ok packages)
  (hfold : packages.foldlM (syncPackage dir desired) t = .ok t')

include hpackages hfold

theorem sweep_invariant (inv : Tree → Prop) (hstart : inv t)
    (hround : ∀ text path loc r r', SeenEntry t dir m text path loc → text ∉ desired → loc ≠ [] →
      entry r path = .ok loc → r.get loc ≠ none → Holds r t → inv r →
      RoundOutcome r dir m loc path r' → inv r') : Holds t' t ∧ inv t' :=
  rounds_invariant hdir hm inv
    (fun p hp => (mem_currentPaths_iff hdir hpackages p.1 p.2).mp hp) (fun _ _ hq => hq) hstart
    hround hfold

theorem sweep_holds : Holds t' t :=
  (sweep_invariant hdir hm hpackages hfold (fun _ => True) trivial
    fun _ _ _ _ _ _ _ _ _ _ _ _ _ => trivial).1

/-- The round of an entry that is not wanted: what is gone before is gone after, the entry
is there before and gone after. -/
theorem sweep_at (hentry : SeenEntry t dir m text path loc) (hnot : text ∉ desired) :
    ∃ before after s₁ s₂, packages = before ++ (text, path) :: after ∧
      before.foldlM (syncPackage dir desired) t = .ok s₁ ∧
      after.foldlM (syncPackage dir desired) s₂ = .ok t' ∧
      Holds s₁ t ∧ Holds s₂ t ∧ s₁.get loc ≠ none ∧ s₂.get loc = none := by
  obtain ⟨before, after, s₁, s₂, hsplit, hbefore, hround, hafter⟩ := Results.foldlM_at hfold
    ((mem_currentPaths_iff hdir hpackages text path).mpr ⟨loc, hentry⟩)
  have hs₁ := (rounds_invariant hdir hm (fun _ => True)
    (fun p hp => (mem_currentPaths_iff hdir hpackages p.1 p.2).mp (by simp [hsplit, hp]))
    (fun _ _ hq => hq) trivial (fun _ _ _ _ _ _ _ _ _ _ _ _ _ => trivial) hbefore).1
  obtain ⟨hne, -, hthere, houtcome⟩ := syncPackage_outcome hdir hm hs₁ hentry hnot hround
  exact ⟨before, after, s₁, s₂, hsplit, hbefore, hafter, hs₁,
    fun q node hq => hs₁ q node (houtcome.holds hne q node hq), hthere, houtcome.gone hne⟩

omit hfold in
/-- What is gone stays gone. -/
theorem rounds_gone {part : List (Text × List Component)} (hpart : ∀ p ∈ part, p ∈ packages)
    (hs : Holds s t) (hgone : s.get loc = none)
    (hrun : part.foldlM (syncPackage dir desired) s = .ok s') : s'.get loc = none := by
  refine (rounds_invariant hdir hm (fun r => r.get loc = none)
    (fun p hp => (mem_currentPaths_iff hdir hpackages p.1 p.2).mp (hpart p hp)) hs hgone ?_
    hrun).2
  intro _ _ _ r r' _ _ hne _ _ _ hinv hout
  exact (hout.holds hne).get_eq_none hinv

/-- An entry that is not wanted is removed, wherever its node stands. -/
theorem sweep_gone (hentry : SeenEntry t dir m text path loc) (hnot : text ∉ desired) :
    t'.get loc = none := by
  obtain ⟨before, after, s₁, s₂, hsplit, -, hafter, -, hs₂, -, hgone⟩ :=
    sweep_at hdir hm hpackages hfold hentry hnot
  exact rounds_gone hdir hm hpackages (fun p hp => by simp [hsplit, hp]) hs₂ hgone hafter

/-- A node that is not wanted is listed once, since it can be removed once. -/
theorem sweep_once {text' : Text} {path' : List Component}
    (hentry : SeenEntry t dir m text path loc) (hnot : text ∉ desired)
    (hentry' : SeenEntry t dir m text' path' loc) (hnot' : text' ∉ desired) : path' = path := by
  obtain ⟨before, after, s₁, s₂, hsplit, hbefore, hafter, hs₁, hs₂, hthere, hgone⟩ :=
    sweep_at hdir hm hpackages hfold hentry hnot
  have hlisted := (mem_currentPaths_iff hdir hpackages text' path').mpr ⟨loc, hentry'⟩
  have hround : ∀ (part : List (Text × List Component)) (s s' : Tree), Holds s t →
      (∀ p ∈ part, p ∈ packages) → (text', path') ∈ part →
      part.foldlM (syncPackage dir desired) s = .ok s' → s.get loc ≠ none ∧ s'.get loc = none := by
    intro part s s' hs hpart hmem hrun
    obtain ⟨front, rest, r₁, r₂, hsplit', hfront, hat, hrest⟩ := Results.foldlM_at hrun hmem
    have hseen : ∀ p ∈ part, ∃ loc, SeenEntry t dir m p.1 p.2 loc := fun p hp =>
      (mem_currentPaths_iff hdir hpackages p.1 p.2).mp (hpart p hp)
    obtain ⟨hr₁, hkept⟩ := rounds_invariant hdir hm (fun r => Holds r s)
      (fun p hp => hseen p (by simp [hsplit', hp])) hs (fun _ _ hq => hq)
      (fun _ _ _ r r' _ _ hne _ _ _ hinv hout q node hq =>
        hinv q node (hout.holds hne q node hq)) hfront
    obtain ⟨hne, -, hhere, hout⟩ := syncPackage_outcome hdir hm hr₁ hentry' hnot' hat
    obtain ⟨node, hnode⟩ := Option.ne_none_iff_exists'.mp hhere
    refine ⟨by rw [hkept _ _ hnode]; exact Option.some_ne_none node, ?_⟩
    exact rounds_gone hdir hm hpackages (fun p hp => hpart p (by simp [hsplit', hp]))
      (fun q node hq => hr₁ q node (hout.holds hne q node hq)) (hout.gone hne) hrest
  rw [hsplit, List.mem_append, List.mem_cons] at hlisted
  rcases hlisted with hmem | hsame | hmem
  · exact absurd (hround before t s₁ (fun _ _ hq => hq) (fun p hp => by simp [hsplit, hp]) hmem
      hbefore).2 hthere
  · exact (Prod.mk.inj hsame).2
  · exact absurd hgone (hround after s₂ t' hs₂ (fun p hp => by simp [hsplit, hp]) hmem hafter).1

/-- What is neither at or below an unwanted entry nor the directory of a scope stays. -/
theorem sweep_kept {k : Loc} {node : Node} (hnode : t.get k = some node)
    (hloc : ∀ text path loc, SeenEntry t dir m text path loc → text ∉ desired → ¬ loc <+: k)
    (hscope : ∀ text scope name,
      SeenEntry t dir m text (dir ++ [.normal scope, .normal name]) (m ++ [scope, name]) →
      text ∉ desired → k ≠ m ++ [scope]) : t'.get k = some node := by
  refine (sweep_invariant hdir hm hpackages hfold (fun r => r.get k = some node) hnode ?_).2
  intro text path loc r r' hentry hnot hne _ _ _ hinv hout
  refine hout.kept hne hinv (hloc text path loc hentry hnot) fun scope name hpath heq => ?_
  subst hpath heq
  exact hscope text scope name hentry hnot

end Rounds

section Exact

variable {t t' s s' : Tree} {dir path : List Component} {m loc : Loc} {text : Text}
  {desired : List Text}

/-- The locations that a synchronisation has to leave alone: what is outside the modules
directory, the directory itself, and the hidden and the wanted entries with all below. -/
inductive MustStay (t : Tree) (m : Loc) (desired : List Text) : Loc → Prop
  | outside {q : Loc} (houtside : ¬ m <+: q) : MustStay t m desired q
  | modulesDir : MustStay t m desired m
  | hidden {name : Text} (rest : Loc) (hdot : name.head? = some '.') :
      MustStay t m desired (m ++ name :: rest)
  | wanted {text : Text} {loc : Loc} (rest : Loc) (hentry : DirectEntry t m text loc)
      (hdesired : text ∈ desired) : MustStay t m desired (m ++ loc ++ rest)

/-- A directory of a scope that has entries, none of them wanted. -/
def ScopeUnwanted (t : Tree) (m : Loc) (desired : List Text) (scope : Text) : Prop :=
  scope.head? = some '@' ∧ (∃ name, t.get (m ++ [scope, name]) ≠ none) ∧
    ∀ name, t.get (m ++ [scope, name]) ≠ none → scope ++ '/' :: name ∉ desired

/-- The synchronisation of a modules directory that does what it is for. -/
structure SyncExact (t t' : Tree) (m : Loc) (desired : List Text) : Prop where
  entries : ∀ text loc, DirectEntry t' m text loc ↔ DirectEntry t m text loc ∧ text ∈ desired
  untouched : ∀ q, MustStay t m desired q → t'.get q = t.get q
  emptied : ∀ scope, scope.head? = some '@' → t.get (m ++ [scope]) = some .dir →
    (∃ name, t.get (m ++ [scope, name]) ≠ none) →
    (∀ name, t'.get (m ++ [scope, name]) = none) → t'.get (m ++ [scope]) = none

/-- A scope is a link to the modules directory, through which a name is not wanted. -/
def SweptThrough (t : Tree) (dir : List Component) (m : Loc) (desired : List Text)
    (name : Text) : Prop :=
  ∃ scope, ScopeLink t dir m scope m ∧ scope ++ '/' :: name ∉ desired

/-- The way to the modules directory does not go through the entries of a scope. -/
def LeadsWithout (t : Tree) (dir : List Component) (m : Loc) (scope : Text) : Prop :=
  ∃ s, Holds s t ∧ (∀ name, s.get (m ++ [scope, name]) = none) ∧ canonicalize s dir = .ok m

/-- The links in place of scopes lead to nothing that the sweep does harm to, and the path
of the modules directory does not depend on what is swept away. -/
structure SweepsCleanly (t : Tree) (dir : List Component) (m : Loc) (desired : List Text) :
    Prop where
  harmless : ∀ scope d, ScopeLink t dir m scope d → ∀ name, scope ++ '/' :: name ∉ desired →
    ∀ q, MustStay t m desired q → d ++ [name] <+: q → t.get q = none
  linkWanted : ∀ scope d, ScopeLink t dir m scope d →
    scope ∈ desired ∨ SweptThrough t dir m desired scope
  leads : ∀ scope, ScopeUnwanted t m desired scope →
    LeadsWithout t dir m scope ∨ SweptThrough t dir m desired scope

theorem ScopeLink.seen {scope name : Text} {d : Loc} (h : ScopeLink t dir m scope d)
    (htaken : t.get (d ++ [name]) ≠ none) :
    SeenEntry t dir m (scope ++ '/' :: name) (dir ++ [.normal scope, .normal name])
      (d ++ [name]) := by
  obtain ⟨hscope, ⟨target, hlink⟩, hleads, hd⟩ := h
  exact .inScope hscope (by rw [hlink]; exact Option.some_ne_none _) hleads hd htaken

/-- A link in place of a scope is an entry of its own. -/
theorem DirectEntry.of_link {scope target : Text} (hscope : scope.head? = some '@')
    (hlink : t.get (m ++ [scope]) = some (.link target)) : DirectEntry t m scope [scope] := by
  refine .plain ?_ (fun _ => ?_) ?_
  · rw [hscope]
    decide
  · rw [hlink]
    exact fun h => by cases h
  · rw [hlink]
    exact Option.some_ne_none _

/-- What the sweep lists are the direct entries, and what links in place of scopes lead to. -/
theorem SeenEntry.cases (hdir : canonicalize t dir = .ok m)
    (h : SeenEntry t dir m text path loc) :
    (∃ l, DirectEntry t m text l ∧ loc = m ++ l) ∨
      ∃ scope d name, ScopeLink t dir m scope d ∧ text = scope ++ '/' :: name ∧
        loc = d ++ [name] := by
  cases h with
  | plain hdot hscope htaken =>
      refine Or.inl ⟨[text], .plain hdot (fun hat hisdir => ?_) htaken, rfl⟩
      have hleads := canonicalize_concat hdir hisdir (by simp)
      rw [isDir_iff.mpr ⟨_, hleads, hisdir⟩] at hscope
      cases hscope hat
  | @inScope scope name d hscope htaken hleads hd hentry =>
      obtain ⟨node, hnode⟩ := Option.ne_none_iff_exists'.mp htaken
      by_cases hlink : ∃ target, node = .link target
      · obtain ⟨target, rfl⟩ := hlink
        exact Or.inr ⟨scope, d, name, ⟨hscope, ⟨target, hnode⟩, hleads, hd⟩, rfl, rfl⟩
      · have hown := canonicalize_concat hdir hnode (fun target heq => hlink ⟨target, heq⟩)
        rw [hleads, Except.ok.injEq] at hown
        subst hown
        refine Or.inl ⟨[scope, name], .inScope hscope hd ?_, by simp⟩
        rwa [List.append_assoc] at hentry

/-- A direct entry is listed, but for a link in place of a scope. -/
theorem DirectEntry.seen_or (hdir : canonicalize t dir = .ok m) {l : Loc}
    (h : DirectEntry t m text l) :
    (∃ path, SeenEntry t dir m text path (m ++ l)) ∨
      l = [text] ∧ ∃ d, ScopeLink t dir m text d := by
  cases h with
  | plain hdot hscope htaken =>
      by_cases hlisted : text.head? = some '@' → isDir t (dir ++ [.normal text]) = false
      · exact Or.inl ⟨_, .plain hdot hlisted htaken⟩
      · obtain ⟨hat, hisdir⟩ := Classical.not_imp.mp hlisted
        obtain ⟨d, hleads, hd⟩ := isDir_iff.mp (Bool.eq_true_of_not_eq_false hisdir)
        obtain ⟨node, hnode⟩ := Option.ne_none_iff_exists'.mp htaken
        refine Or.inr ⟨rfl, d, hat, ?_, hleads, hd⟩
        -- without a link the name would lead to a directory of the modules directory
        by_contra hlink
        have hown := canonicalize_concat hdir hnode
          (fun target heq => hlink ⟨target, by rw [hnode, heq]⟩)
        rw [hleads, Except.ok.injEq] at hown
        subst hown
        exact hscope hat hd
  | @inScope scope name hscope hd htaken =>
      have hleads := canonicalize_concat hdir hd (by simp)
      refine Or.inl ⟨dir ++ [.normal scope, .normal name], ?_⟩
      have hentry : t.get (m ++ [scope] ++ [name]) ≠ none := by
        rwa [List.append_assoc]
      have hseen := SeenEntry.inScope hscope (by rw [hd]; exact Option.some_ne_none _) hleads hd
        hentry
      rwa [List.append_assoc] at hseen

/-- An unwanted direct entry stands above nothing that must stay. -/
theorem DirectEntry.not_above {l q : Loc} (h : DirectEntry t m text l) (hnot : text ∉ desired)
    (hq : MustStay t m desired q) : ¬ m ++ l <+: q := by
  intro hp
  cases hq with
  | outside houtside => exact houtside ((List.prefix_append m l).trans hp)
  | modulesDir =>
      have hlen := hp.length_le
      have hne := List.length_pos_iff.mpr h.loc_ne_nil
      rw [List.length_append] at hlen
      omega
  | @hidden name rest hdot =>
      rw [List.prefix_append_right_inj] at hp
      cases h with
      | plain hdot' hscope htaken =>
          obtain ⟨rfl, -⟩ := List.cons_prefix_cons.mp hp
          exact hdot' hdot
      | inScope hscope hd htaken =>
          obtain ⟨rfl, -⟩ := List.cons_prefix_cons.mp hp
          rw [hscope] at hdot
          cases hdot
  | @wanted text' loc rest hentry hdesired =>
      rw [List.append_assoc, List.prefix_append_right_inj] at hp
      have heq : l = loc := by
        rcases List.prefix_or_prefix_of_prefix hp (List.prefix_append loc rest) with hab | hba
        · exact hentry.eq_of_above h hab
        · exact (h.eq_of_above hentry hba).symm
      subst heq
      exact hnot (h.text_unique hentry ▸ hdesired)

/-- The directory of a scope is nothing that must stay. -/
theorem MustStay.ne_scope {scope : Text} (hscope : scope.head? = some '@')
    (hd : t.get (m ++ [scope]) = some .dir) {q : Loc} (hq : MustStay t m desired q) :
    q ≠ m ++ [scope] := by
  intro heq
  cases hq with
  | outside houtside => exact houtside (heq ▸ List.prefix_append m [scope])
  | modulesDir => simp at heq
  | hidden rest hdot =>
      obtain ⟨rfl, -⟩ := List.cons.inj (List.append_cancel_left heq)
      rw [hscope] at hdot
      cases hdot
  | wanted rest hentry hdesired =>
      rw [List.append_assoc, List.append_cancel_left_eq] at heq
      cases hentry with
      | plain _ hnot _ =>
          obtain ⟨rfl, -⟩ := List.cons.inj heq
          exact hnot hscope hd
      | inScope _ _ _ => simp at heq

theorem SeenEntry.own_scope {scope name : Text}
    (h : SeenEntry t dir m text (dir ++ [.normal scope, .normal name]) (m ++ [scope, name])) :
    scope.head? = some '@' ∧ t.get (m ++ [scope]) = some .dir := by
  generalize hpath : dir ++ [.normal scope, .normal name] = path at h
  generalize hloc : m ++ [scope, name] = loc at h
  cases h with
  | plain hdot hscope htaken =>
      have hlen := congrArg List.length hpath
      simp at hlen
  | inScope hscope htaken hleads hd hentry =>
      have hnames := List.append_cancel_left hpath
      simp only [List.cons.injEq, Component.normal.injEq, and_true] at hnames
      obtain ⟨rfl, rfl⟩ := hnames
      rw [show m ++ [scope, name] = m ++ [scope] ++ [name] by simp,
        List.append_cancel_right_eq] at hloc
      rw [hloc]
      exact ⟨hscope, hd⟩

/-- The directory of a scope goes with its last entry. -/
theorem last_of_scope {u : Tree} {scope name : Text} {node : Node}
    (hdir : canonicalize t dir = .ok m) (hs : Holds s t)
    (hat : entry s (dir ++ [.normal scope, .normal name]) = .ok (m ++ [scope, name]))
    (hnode : s.get (m ++ [scope, name]) = some node) (hu : Holds u t)
    (hfree : ∀ name, u.get (m ++ [scope, name]) = none) (hleads : canonicalize u dir = .ok m)
    (hempty : ∀ name, s'.get (m ++ [scope, name]) = none)
    (hout : RoundOutcome s dir m (m ++ [scope, name]) (dir ++ [.normal scope, .normal name]) s') :
    s'.get (m ++ [scope]) = none := by
  cases hout with
  | @emptied scope' name' hpath hloc _ hd _ =>
      obtain ⟨rfl, -⟩ := List.cons.inj (List.append_cancel_left hloc)
      rw [Tree.get_remove _ (by simp), if_pos List.prefix_rfl]
  | removed hleft =>
      exfalso
      have hne : m ++ [scope, name] ≠ [] := by simp
      apply hleft scope name rfl
      have hcons : dir ++ [Component.normal scope, .normal name] =
          dir ++ [.normal scope] ++ [.normal name] := by simp
      rw [hcons] at hat
      -- the path of the modules directory leads there before the removal, and without the scope
      obtain ⟨d, hd, -⟩ := (entry_of_last (getLast?_concat_normal _ name)).mp hat
      rw [List.dropLast_concat] at hd
      have hbefore := canonicalize_of_front hdir hs hd
      have hremoved : Holds (s.remove (m ++ [scope, name])) t := fun q node hq =>
        hs q node (Holds.of_remove s hne q node hq)
      have hafter : canonicalize (s.remove (m ++ [scope, name])) dir = .ok m := by
        refine canonicalize_meet hs hu hremoved ?_ hbefore hleads
        intro q other hq hfromu
        rw [Tree.get_remove s hne, if_neg, hq]
        intro hp
        rw [Tree.get_eq_none_of_above (hfree name) hp] at hfromu
        cases hfromu
      have hscope : (s.remove (m ++ [scope, name])).get (m ++ [scope]) = some .dir := by
        rw [Tree.get_remove s hne, if_neg]
        · exact Tree.get_of_above hnode (by simp) (by simp)
        · rw [show m ++ [scope, name] = m ++ [scope] ++ [name] by simp]
          exact not_concat_above _ _
      have hnil : (s.remove (m ++ [scope, name])).children (m ++ [scope]) = [] := by
        refine List.eq_nil_iff_forall_not_mem.mpr fun other hother => ?_
        rw [Tree.mem_children, List.append_assoc] at hother
        exact hother (hempty other)
      rw [readDir_ok_iff.mpr ⟨_, canonicalize_concat hafter hscope (by simp), hscope, hnil⟩]
      rfl

/-- A round that takes the directory of a scope by itself has found the path of the modules
directory without the entries of the scope. -/
theorem RoundOutcome.leadsWithout (hdir : canonicalize t dir = .ok m) (hs : Holds s t)
    (hne : loc ≠ []) (hout : RoundOutcome s dir m loc path s') {scope : Text}
    (habove : ¬ loc <+: m ++ [scope]) (hthere : s.get (m ++ [scope]) ≠ none)
    (hnone : s'.get (m ++ [scope]) = none) : LeadsWithout t dir m scope := by
  have hremoved : (s.remove loc).get (m ++ [scope]) ≠ none := by
    rwa [Tree.get_remove s hne, if_neg habove]
  cases hout with
  | removed hleft => exact absurd hnone hremoved
  | @emptied scope' name hpath hloc hread hscope' hempty =>
      have hsame : m ++ [scope'] <+: m ++ [scope] := by
        by_contra hother
        rw [Tree.get_remove _ (by simp), if_neg hother] at hnone
        exact hremoved hnone
      rw [List.prefix_append_right_inj] at hsame
      obtain ⟨rfl, -⟩ := List.cons_prefix_cons.mp hsame
      have hholds : Holds (s.remove loc) t := fun q node hq =>
        hs q node (Holds.of_remove s hne q node hq)
      refine ⟨s.remove loc, hholds, fun name => ?_,
        canonicalize_of_front hdir hholds (canonicalize_ok_iff.mp hread).1⟩
      by_contra hchild
      have hmem := Tree.mem_children.mpr
        (show (s.remove loc).get (m ++ [scope'] ++ [name]) ≠ none by rwa [List.append_assoc])
      rw [hempty] at hmem
      cases hmem

variable (hdir : canonicalize t dir = .ok m) (hm : t.get m = some .dir)
  {packages : List (Text × List Component)}
  (hpackages : currentDirectDependencyPaths t dir = .ok packages)
  (hfold : packages.foldlM (syncPackage dir desired) t = .ok t')

include hdir hm hpackages hfold

/-- What must stay does so, when it is harmless to remove what links in place of scopes
lead to. -/
theorem sweep_untouched (hclean : SweepsCleanly t dir m desired) {q : Loc}
    (hq : MustStay t m desired q) : t'.get q = t.get q := by
  cases hnode : t.get q with
  | none => exact (sweep_holds hdir hm hpackages hfold).get_eq_none hnode
  | some node =>
      refine sweep_kept hdir hm hpackages hfold hnode ?_ ?_
      · intro text path loc hentry hnot hp
        rcases hentry.cases hdir with ⟨l, hdirect, rfl⟩ | ⟨scope, d, name, hlink, rfl, rfl⟩
        · exact hdirect.not_above hnot hq hp
        · rw [hclean.harmless scope d hlink name hnot q hq hp] at hnode
          cases hnode
      · intro text scope name hentry hnot
        obtain ⟨hscope, hd⟩ := hentry.own_scope
        exact hq.ne_scope hscope hd

/-- A scope is swept away as a whole only through a link to the modules directory. -/
theorem sweptThrough_of_above (hroot : t'.get m ≠ none) {scope : Text}
    (hat : scope.head? = some '@') (hisdir : isDir t (dir ++ [.normal scope]) = true)
    (hentry : SeenEntry t dir m text path loc) (hnot : text ∉ desired)
    (hp : loc <+: m ++ [scope]) : SweptThrough t dir m desired scope := by
  rcases List.prefix_concat_iff.mp hp with heq | habove
  · cases hentry with
    | plain hdot hscope htaken =>
        have hname := List.append_cancel_left heq
        cases hname
        rw [hisdir] at hscope
        cases hscope hat
    | @inScope other name d hother htaken hleads hd hbelow =>
        obtain ⟨rfl, hname⟩ := List.append_inj' heq rfl
        cases hname
        obtain ⟨node, hnode⟩ := Option.ne_none_iff_exists'.mp htaken
        refine ⟨other, ⟨hother, ?_, hleads, hd⟩, hnot⟩
        by_contra hlink
        have hown := canonicalize_concat hdir hnode
          (fun target heq => hlink ⟨target, by rw [hnode, heq]⟩)
        rw [hleads, Except.ok.injEq] at hown
        simp at hown
  · exact absurd (Tree.get_eq_none_of_above (sweep_gone hdir hm hpackages hfold hentry hnot)
      habove) hroot

/-- What a clean sweep leaves. -/
theorem sweep_entries (hclean : SweepsCleanly t dir m desired) (text : Text) (l : Loc) :
    DirectEntry t' m text l ↔ DirectEntry t m text l ∧ text ∈ desired := by
  have hholds := sweep_holds hdir hm hpackages hfold
  constructor
  · intro h
    have hold := h.of_shrinks hholds
    refine ⟨hold, ?_⟩
    by_contra hnot
    rcases hold.seen_or hdir with ⟨path, hseen⟩ | ⟨rfl, d, hlink⟩
    · exact h.taken (sweep_gone hdir hm hpackages hfold hseen hnot)
    · rcases hclean.linkWanted text d hlink with hdesired | ⟨scope, hthrough, hunwanted⟩
      · exact hnot hdesired
      · exact h.taken (sweep_gone hdir hm hpackages hfold (hthrough.seen hold.taken) hunwanted)
  · rintro ⟨h, hdesired⟩
    have hkept : ∀ rest, t'.get (m ++ l ++ rest) = t.get (m ++ l ++ rest) := fun rest =>
      sweep_untouched hdir hm hpackages hfold hclean (.wanted rest h hdesired)
    have hself := hkept []
    rw [List.append_nil] at hself
    cases h with
    | plain hdot hscope htaken =>
        rw [← hself] at htaken
        refine .plain hdot (fun hat => ?_) htaken
        rw [hself]
        exact hscope hat
    | @inScope scope name hscope hd htaken =>
        rw [← hself] at htaken
        obtain ⟨node, hnode⟩ := Option.ne_none_iff_exists'.mp htaken
        exact .inScope hscope (Tree.get_of_above hnode (by simp) (by simp)) htaken

/-- The directory of a scope goes with its last entry, as long as the path of the modules
directory leads there without it. -/
theorem sweep_scope (hclean : SweepsCleanly t dir m desired) {scope : Text}
    (hscope : scope.head? = some '@') (hd : t.get (m ++ [scope]) = some .dir)
    (hany : ∃ name, t.get (m ++ [scope, name]) ≠ none)
    (hgone : ∀ name, t'.get (m ++ [scope, name]) = none) : t'.get (m ++ [scope]) = none := by
  have hown : ∀ name, t.get (m ++ [scope, name]) ≠ none →
      SeenEntry t dir m (scope ++ '/' :: name) (dir ++ [.normal scope, .normal name])
        (m ++ [scope, name]) ∧ scope ++ '/' :: name ∉ desired := by
    intro name htaken
    have hdirect := DirectEntry.inScope hscope hd htaken
    refine ⟨?_, fun hdesired => htaken ?_⟩
    · have hleads := canonicalize_concat hdir hd (by simp)
      have hseen := SeenEntry.inScope hscope (by rw [hd]; exact Option.some_ne_none _) hleads hd
        (show t.get (m ++ [scope] ++ [name]) ≠ none by rwa [List.append_assoc])
      rwa [List.append_assoc] at hseen
    · have hstays := MustStay.wanted [] hdirect hdesired
      rw [List.append_nil] at hstays
      rw [← sweep_untouched hdir hm hpackages hfold hclean hstays, hgone]
  rcases hclean.leads scope ⟨hscope, hany, fun name htaken => (hown name htaken).2⟩ with
    ⟨u, hu, hfree, hleads⟩ | ⟨other, hlink, hnot⟩
  · -- as long as the directory is there, it has an entry
    have hinv := (sweep_invariant hdir hm hpackages hfold
      (fun r => r.get (m ++ [scope]) = none ∨ ∃ name, r.get (m ++ [scope, name]) ≠ none)
      (Or.inr hany) ?_).2
    · rcases hinv with hnone | ⟨name, hname⟩
      · exact hnone
      · exact absurd (hgone name) hname
    · intro text path loc r r' hentry hnot hne hat hthere hr hinv hout
      rcases hinv with hnone | ⟨name, hname⟩
      · exact Or.inl ((hout.holds hne).get_eq_none hnone)
      · refine or_iff_not_imp_right.mpr fun hempty => ?_
        have hempty : ∀ name, r'.get (m ++ [scope, name]) = none := fun name => by
          by_contra hleft
          exact hempty ⟨name, hleft⟩
        obtain ⟨node, hnode⟩ := Option.ne_none_iff_exists'.mp hname
        have hbelow : loc <+: m ++ [scope, name] := by
          by_contra hnot
          have hkept := hout.kept hne hnode hnot fun scope' name' _ _ heq => by
            have hlen := congrArg List.length heq
            simp at hlen
          rw [hempty] at hkept
          cases hkept
        rw [show m ++ [scope, name] = m ++ [scope] ++ [name] by simp] at hbelow
        rcases List.prefix_concat_iff.mp hbelow with heq | habove
        · rw [List.append_assoc] at heq
          subst heq
          obtain ⟨hseen, hunwanted⟩ := hown name hentry.taken
          obtain rfl := sweep_once hdir hm hpackages hfold hseen hunwanted hentry hnot
          exact last_of_scope hdir hr hat hnode hu hfree hleads hempty hout
        · exact Tree.get_eq_none_of_above (hout.gone hne) habove
  · exact sweep_gone hdir hm hpackages hfold
      (hlink.seen (by rw [hd]; exact Option.some_ne_none _)) hnot

omit hdir hpackages hfold in
theorem SyncExact.root (hexact : SyncExact t t' m desired) : t'.get m ≠ none := by
  rw [hexact.untouched m .modulesDir, hm]
  exact Option.some_ne_none _

theorem SyncExact.harmless (hexact : SyncExact t t' m desired) {scope : Text} {d : Loc}
    (hlink : ScopeLink t dir m scope d) {name : Text} (hnot : scope ++ '/' :: name ∉ desired)
    {q : Loc} (hq : MustStay t m desired q) (hp : d ++ [name] <+: q) : t.get q = none := by
  by_contra hne
  have htaken : t.get (d ++ [name]) ≠ none := fun hnone =>
    hne (Tree.get_eq_none_of_above hnone hp)
  have hgone := sweep_gone hdir hm hpackages hfold (hlink.seen htaken) hnot
  rw [← hexact.untouched q hq] at hne
  exact hne (Tree.get_eq_none_of_above hgone hp)

/-- A link in place of a scope that is not wanted is gone, so it is at or below something
that the sweep has removed. -/
theorem SyncExact.linkWanted (hexact : SyncExact t t' m desired) {scope : Text} {d : Loc}
    (hlink : ScopeLink t dir m scope d) :
    scope ∈ desired ∨ SweptThrough t dir m desired scope := by
  refine or_iff_not_imp_left.mpr fun hunwanted => ?_
  obtain ⟨target, hnode⟩ := hlink.2.1
  have hnone : t'.get (m ++ [scope]) ≠ some (.link target) := by
    intro hleft
    exact hunwanted ((hexact.entries scope [scope]).mp (.of_link hlink.1 hleft)).2
  by_contra hthrough
  refine hnone (sweep_kept hdir hm hpackages hfold hnode ?_ ?_)
  · intro text path loc hentry hnot hp
    exact hthrough (sweptThrough_of_above hdir hm hpackages hfold
      (hexact.root hm) hlink.1 (isDir_iff.mpr ⟨d, hlink.2.2⟩) hentry hnot hp)
  · intro text other name hentry _ heq
    obtain ⟨-, hd⟩ := hentry.own_scope
    rw [← heq, hnode] at hd
    cases hd

/-- The directory of a scope of which nothing is wanted is gone, so a round has taken it. -/
theorem SyncExact.leads (hexact : SyncExact t t' m desired) {scope : Text}
    (h : ScopeUnwanted t m desired scope) :
    LeadsWithout t dir m scope ∨ SweptThrough t dir m desired scope := by
  obtain ⟨hscope, ⟨name, hname⟩, hunwanted⟩ := h
  obtain ⟨node, hnode⟩ := Option.ne_none_iff_exists'.mp hname
  have hd : t.get (m ++ [scope]) = some .dir := Tree.get_of_above hnode (by simp) (by simp)
  have hleads := canonicalize_concat hdir hd (by simp)
  have hgone : ∀ name, t'.get (m ++ [scope, name]) = none := by
    intro name
    by_contra hleft
    have htaken : t.get (m ++ [scope, name]) ≠ none := fun hnone =>
      hleft ((sweep_holds hdir hm hpackages hfold).get_eq_none hnone)
    have hdirect := DirectEntry.inScope hscope hd htaken
    obtain ⟨path, hseen⟩ | ⟨hone, -⟩ := hdirect.seen_or hdir
    · exact hleft (sweep_gone hdir hm hpackages hfold hseen (hunwanted name htaken))
    · simp at hone
  -- the rounds keep: the directory is there, or the way that it was taken is known
  have hinv := (sweep_invariant hdir hm hpackages hfold
    (fun r => r.get (m ++ [scope]) ≠ none ∨
      (LeadsWithout t dir m scope ∨ SweptThrough t dir m desired scope))
    (Or.inl (by rw [hd]; exact Option.some_ne_none _)) ?_).2
  · obtain hleft | hgoal := hinv
    · exact absurd (hexact.emptied scope hscope hd ⟨name, hname⟩ hgone) hleft
    · exact hgoal
  · intro text path loc r r' hentry hnot hne _ _ hr hinv hout
    obtain hthere | hgoal := hinv
    · refine or_iff_not_imp_left.mpr fun hleft => ?_
      by_cases habove : loc <+: m ++ [scope]
      · exact Or.inr (sweptThrough_of_above hdir hm hpackages hfold
          (hexact.root hm) hscope (isDir_iff.mpr ⟨_, hleads, hd⟩) hentry hnot
          habove)
      · exact Or.inl (hout.leadsWithout hdir hr hne habove hthere (not_not.mp hleft))
    · exact Or.inr hgoal

/-- A sweep that does what it is for was clean. -/
theorem SweepsCleanly.of_exact (hexact : SyncExact t t' m desired) :
    SweepsCleanly t dir m desired where
  harmless _ _ hlink _ hnot _ hq hp :=
    hexact.harmless hdir hm hpackages hfold hlink hnot hq hp
  linkWanted _ _ hlink := hexact.linkWanted hdir hm hpackages hfold hlink
  leads _ hscope := hexact.leads hdir hm hpackages hfold hscope

omit hdir hm hpackages hfold in
/-- A synchronisation that succeeds does what it is for, exactly when the sweep is clean. -/
theorem sync_exact_iff {modulesDir : Text}
    (h : syncDirectDependencyLinks t modulesDir desired = .ok t') :
    (pathExists t (components modulesDir) = false → t' = t) ∧
      ∀ m, canonicalize t (components modulesDir) = .ok m →
        (SyncExact t t' m desired ↔ SweepsCleanly t (components modulesDir) m desired) := by
  constructor
  · intro hmissing
    unfold syncDirectDependencyLinks at h
    simp only [hmissing, Bool.false_eq_true, if_false] at h
    cases h
    rfl
  · intro m hdir
    obtain ⟨packages, hpackages, hfold⟩ := sync_rounds (pathExists_iff.mpr ⟨m, hdir⟩) h
    obtain ⟨names, hnames, -⟩ := Results.bind_ok hpackages
    obtain ⟨q, hq, hm, -⟩ := readDir_ok_iff.mp (Results.mapError_ok hnames)
    rw [hdir, Except.ok.injEq] at hq
    subst hq
    refine ⟨SweepsCleanly.of_exact hdir hm hpackages hfold, fun hclean => ?_⟩
    exact ⟨sweep_entries hdir hm hpackages hfold hclean,
      fun q hq => sweep_untouched hdir hm hpackages hfold hclean hq,
      fun scope hat hd hany hgone => sweep_scope hdir hm hpackages hfold hclean hat hd hany hgone⟩

end Exact

section Samples

/-- A modules directory and nothing else. -/
def emptyModules : Tree :=
  (createDirAll .empty (components "/m".toList)).toOption.getD .empty

/-- A plain package, and one in a scope. -/
def scopedModules : Tree :=
  ((symlinkPackage .empty "/store/x".toList "/m/@a/x".toList).bind fun t =>
    symlinkPackage t "/store/b".toList "/m/b".toList).toOption.getD .empty

/-- The same without the scope. -/
def sweptModules : Tree :=
  (syncDirectDependencyLinks scopedModules "/m".toList ["b".toList]).toOption.getD .empty

theorem sweptModules_eq :
    syncDirectDependencyLinks scopedModules "/m".toList ["b".toList] = .ok sweptModules := by
  have hmade : (syncDirectDependencyLinks scopedModules "/m".toList ["b".toList]).isOk =
      true := by decide +kernel
  unfold sweptModules
  generalize syncDirectDependencyLinks scopedModules "/m".toList ["b".toList] = made at hmade
  exact Results.eq_getD_of_isOk .empty hmade

theorem scopedModules_clean :
    SweepsCleanly scopedModules (components "/m".toList) ["m".toList] ["b".toList] := by
  have hscopes : ∀ e ∈ scopedModules.nodes.entries,
      e.1.length = 2 → e.1.getLast?.bind List.head? = some '@' → e.2 = .dir := by decide +kernel
  have hnone : ∀ scope d,
      ¬ ScopeLink scopedModules (components "/m".toList) ["m".toList] scope d := by
    rintro scope d ⟨hscope, ⟨target, hlink⟩, -⟩
    rw [Tree.get_of_ne_nil _ (by simp), KeyedMap.get_eq_some_iff] at hlink
    have hdir := hscopes _ hlink (by simp) (by simpa using hscope)
    cases hdir
  refine ⟨fun scope d hlink => absurd hlink (hnone scope d),
    fun scope d hlink => absurd hlink (hnone scope d), fun scope hunwanted => Or.inl ?_⟩
  refine ⟨emptyModules, .of_entries (by decide +kernel), fun name => ?_, by decide +kernel⟩
  have hshort : ∀ e ∈ emptyModules.nodes.entries, e.1.length = 1 := by decide +kernel
  refine Option.eq_none_iff_forall_not_mem.mpr fun node hnode => ?_
  rw [Option.mem_def, Tree.get_of_ne_nil _ (by simp), KeyedMap.get_eq_some_iff] at hnode
  have hlen := hshort _ hnode
  simp at hlen

theorem sweptModules_exact :
    SyncExact scopedModules sweptModules ["m".toList] ["b".toList] :=
  ((sync_exact_iff sweptModules_eq).2 ["m".toList] (by decide +kernel)).mpr scopedModules_clean

/-- A scope that is a link to a directory elsewhere, with one wanted package in it. -/
def linkedScope : Tree :=
  (do
    let t ← symlinkPackage .empty "/store/x".toList "/outside/x".toList
    let t ← symlinkPackage t "/store/y".toList "/outside/y".toList
    symlinkPackage t "/outside".toList "/m/@a".toList).toOption.getD .empty

def sweptOutside : Tree :=
  (syncDirectDependencyLinks linkedScope "/m".toList ["@a/y".toList]).toOption.getD .empty

/-- The other package is removed where it stands, outside the modules directory. -/
theorem sync_removes_outside :
    syncDirectDependencyLinks linkedScope "/m".toList ["@a/y".toList] = .ok sweptOutside ∧
      canonicalize linkedScope (components "/m".toList) = .ok ["m".toList] ∧
      linkedScope.get ["outside".toList, "x".toList] = some (.link "/store/x".toList) ∧
      sweptOutside.get ["outside".toList, "x".toList] = none ∧
      ¬ SyncExact linkedScope sweptOutside ["m".toList] ["@a/y".toList] := by
  have hthere : linkedScope.get ["outside".toList, "x".toList] =
      some (.link "/store/x".toList) := by decide +kernel
  have hgone : sweptOutside.get ["outside".toList, "x".toList] = none := by decide +kernel
  refine ⟨?_, by decide +kernel, hthere, hgone, fun hexact => ?_⟩
  · have hmade : (syncDirectDependencyLinks linkedScope "/m".toList ["@a/y".toList]).isOk =
        true := by decide +kernel
    unfold sweptOutside
    generalize syncDirectDependencyLinks linkedScope "/m".toList ["@a/y".toList] = made at hmade
    exact Results.eq_getD_of_isOk .empty hmade
  · have hkept := hexact.untouched ["outside".toList, "x".toList] (.outside (by decide))
    rw [hthere, hgone] at hkept
    cases hkept

end Samples

end Npnpm
