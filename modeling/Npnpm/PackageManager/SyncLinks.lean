import Npnpm.Library.Listings
import Npnpm.PackageManager.ProjectPlaces

/-!
# The synchronisation of direct links

`sync_direct_dependency_links` looks at each visible entry of the modules
directory. An entry whose name is wanted stays, and any other is removed, with
the directory of its scope when nothing is left in it.
-/

namespace Npnpm

open Npnpm.Path Npnpm.FileTree

section Seen

variable {t : Tree} {dir path : List Component} {m loc : Loc} {text : Text}

/-- An entry that the sweep lists: its name, the path it is known by, and the location of
its node. -/
inductive SeenEntry (t : Tree) (dir : List Component) (m : Loc) :
    Text → List Component → Loc → Prop
  | plain {name : Text} (hdot : name.head? ≠ some '.')
      (hscope : name.head? = some '@' → isDir t (dir ++ [.normal name]) = false)
      (htaken : t.get (m ++ [name]) ≠ none) :
      SeenEntry t dir m name (dir ++ [.normal name]) (m ++ [name])
  | inScope {scope name : Text} {d : Loc} (hscope : scope.head? = some '@')
      (htaken : t.get (m ++ [scope]) ≠ none)
      (hleads : canonicalize t (dir ++ [.normal scope]) = .ok d) (hdir : t.get d = some .dir)
      (hentry : t.get (d ++ [name]) ≠ none) :
      SeenEntry t dir m (scope ++ '/' :: name) (dir ++ [.normal scope, .normal name])
        (d ++ [name])

variable (hdir : canonicalize t dir = .ok m) (hm : t.get m = some .dir)

include hdir hm

theorem SeenEntry.entry (h : SeenEntry t dir m text path loc) : entry t path = .ok loc := by
  cases h with
  | plain hdot hscope htaken => exact entry_concat hdir hm _
  | @inScope scope name d hscope htaken hleads hd hentry =>
      have hpath := entry_concat hleads hd name
      rwa [List.append_assoc] at hpath

omit hdir hm in
theorem SeenEntry.taken (h : SeenEntry t dir m text path loc) : t.get loc ≠ none := by
  cases h with
  | plain hdot hscope htaken => exact htaken
  | inScope hscope htaken hleads hd hentry => exact hentry

omit hm in
/-- The listing has exactly these entries. -/
theorem mem_currentPaths_iff {packages : List (Text × List Component)}
    (h : currentDirectDependencyPaths t dir = .ok packages) (text : Text)
    (path : List Component) :
    (text, path) ∈ packages ↔ ∃ loc, SeenEntry t dir m text path loc := by
  obtain ⟨names, hnames, h⟩ := Results.bind_ok h
  obtain ⟨lists, hlists, h⟩ := Results.bind_ok h
  cases h
  obtain ⟨q, hq, -, rfl⟩ := readDir_ok_iff.mp (Results.mapError_ok hnames)
  rw [hdir, Except.ok.injEq] at hq
  subst hq
  rw [List.mem_flatten]
  constructor
  · rintro ⟨list, hlist, hmem⟩
    obtain ⟨name, hchild, hname⟩ := Results.exists_of_mem_mapM hlists hlist
    rw [Tree.mem_children] at hchild
    unfold directDependencyPaths at hname
    simp only at hname
    split at hname
    · cases hname
      cases hmem
    · rename_i hdot
      split at hname
      · rename_i hscope
        obtain ⟨scopedNames, hscoped, hname⟩ := Results.bind_ok hname
        cases hname
        obtain ⟨d, hleads, hd, rfl⟩ := readDir_ok_iff.mp (Results.mapError_ok hscoped)
        obtain ⟨scopedName, hscopedName, heq⟩ := List.mem_map.mp hmem
        cases heq
        rw [Tree.mem_children] at hscopedName
        rw [List.append_assoc]
        exact ⟨_, .inScope hscope.1 hchild hleads hd hscopedName⟩
      · rename_i hscope
        cases hname
        obtain ⟨rfl, rfl⟩ := Prod.mk.inj (List.mem_singleton.mp hmem)
        refine ⟨_, .plain hdot (fun hat => ?_) hchild⟩
        exact Bool.eq_false_iff.mpr fun hisdir => hscope ⟨hat, hisdir⟩
  · rintro ⟨loc, hentry⟩
    cases hentry with
    | plain hdot hscope htaken =>
        obtain ⟨list, hlist, hname⟩ :=
          Results.exists_mem_of_mapM hlists (Tree.mem_children.mpr htaken)
        refine ⟨list, hlist, ?_⟩
        unfold directDependencyPaths at hname
        simp only [if_neg hdot] at hname
        split at hname
        · rename_i hat
          rw [hscope hat.1] at hat
          cases hat.2
        · cases hname
          simp
    | @inScope scope name d hscope htaken hleads hd hscoped =>
        have hdot : scope.head? ≠ some '.' := by
          rw [hscope]
          decide
        have hisdir := isDir_iff.mpr ⟨d, hleads, hd⟩
        obtain ⟨list, hlist, hname⟩ :=
          Results.exists_mem_of_mapM hlists (Tree.mem_children.mpr htaken)
        refine ⟨list, hlist, ?_⟩
        unfold directDependencyPaths at hname
        simp only [if_neg hdot, if_pos (And.intro hscope hisdir),
          readDir_ok_iff.mpr ⟨d, hleads, hd, rfl⟩] at hname
        cases hname
        refine List.mem_map.mpr ⟨name, Tree.mem_children.mpr hscoped, ?_⟩
        rw [List.append_assoc]
        rfl

end Seen

/-- An entry that the synchronisation looks at: the name that it stands for, and its
location below the modules directory. -/
inductive DirectEntry (t : Tree) (m : Loc) : Text → Loc → Prop
  | plain {name : Text} (hdot : name.head? ≠ some '.')
      (hscope : name.head? = some '@' → t.get (m ++ [name]) ≠ some .dir)
      (htaken : t.get (m ++ [name]) ≠ none) : DirectEntry t m name [name]
  | inScope {scope name : Text} (hscope : scope.head? = some '@')
      (hdir : t.get (m ++ [scope]) = some .dir) (htaken : t.get (m ++ [scope, name]) ≠ none) :
      DirectEntry t m (scope ++ '/' :: name) [scope, name]

variable {t t' : Tree} {m : Loc}

theorem DirectEntry.taken {text : Text} {loc : Loc} (h : DirectEntry t m text loc) :
    t.get (m ++ loc) ≠ none := by
  cases h with
  | plain hdot hscope htaken => exact htaken
  | inScope hscope hdir htaken => exact htaken

theorem DirectEntry.loc_ne_nil {text : Text} {loc : Loc} (h : DirectEntry t m text loc) :
    loc ≠ [] := by
  rintro rfl
  cases h

theorem DirectEntry.text_unique {text text' : Text} {loc : Loc} (h : DirectEntry t m text loc)
    (h' : DirectEntry t m text' loc) : text = text' := by
  cases h with
  | plain =>
      cases h'
      rfl
  | inScope =>
      cases h'
      rfl

/-- No entry stands above another one. -/
theorem DirectEntry.eq_of_above {text text' : Text} {loc loc' : Loc}
    (h : DirectEntry t m text loc) (h' : DirectEntry t m text' loc') (hp : loc' <+: loc) :
    loc' = loc := by
  cases h with
  | plain hdot hscope htaken =>
      rcases List.prefix_concat_iff.mp (show loc' <+: [] ++ [text] from hp) with heq | hnil
      · exact heq
      · rw [List.prefix_nil.mp hnil] at h'
        cases h'
  | @inScope scope name hscope hdir htaken =>
      rcases List.prefix_concat_iff.mp (show loc' <+: [scope] ++ [name] from hp) with heq | hp
      · exact heq
      · rcases List.prefix_concat_iff.mp (show loc' <+: [] ++ [scope] from hp) with rfl | hnil
        · cases h' with
          | plain _ hnot _ => exact absurd hdir (hnot hscope)
        · rw [List.prefix_nil.mp hnil] at h'
          cases h'

/-- A visible name whose place is taken is an entry. -/
theorem directEntry_of_taken {name : PkgName} (hname : name.Visible)
    (htaken : t.get (m ++ name.loc) ≠ none) : DirectEntry t m name.display name.loc := by
  obtain ⟨hplain, hvisible⟩ := hname
  obtain ⟨scope, bare⟩ := name
  cases scope with
  | none =>
      obtain ⟨x, rest, hbare, hx⟩ := hplain.wellFormed
      simp only at hbare
      subst hbare
      exact .plain hvisible (fun hat => absurd (Option.some.inj hat) hx) htaken
  | some scope =>
      obtain ⟨node, hnode⟩ := Option.ne_none_iff_exists'.mp htaken
      refine .inScope rfl ?_ htaken
      refine Tree.get_of_above hnode ?_ ?_
      · simp [PkgName.loc]
      · simp [PkgName.loc]

/-- An entry below the directory of a scope is in the scope. -/
theorem DirectEntry.eq_of_scope_above {text text' : Text} {loc : Loc} {scope name : Text}
    (h : DirectEntry t m text loc) (h' : DirectEntry t m text' [scope, name])
    (hp : [scope] <+: loc) : ∃ other, loc = [scope, other] := by
  cases h' with
  | inScope hscope hdir htaken =>
      cases h with
      | plain hdot hnot htaken =>
          obtain ⟨rfl, -⟩ := List.cons_prefix_cons.mp hp
          exact absurd hdir (hnot hscope)
      | inScope _ _ _ =>
          obtain ⟨rfl, -⟩ := List.cons_prefix_cons.mp hp
          exact ⟨_, rfl⟩

/-- The listing has exactly the entries. -/
theorem mem_currentDirectDependencyPaths (hm : ModulesClear t m)
    {packages : List (Text × List Component)}
    (h : currentDirectDependencyPaths t (pathOf m) = .ok packages) (text : Text)
    (path : List Component) :
    (text, path) ∈ packages ↔ ∃ loc, DirectEntry t m text loc ∧ path = pathOf (m ++ loc) := by
  have hcanonical : canonicalize t (pathOf m) = .ok m := by
    obtain ⟨names, hnames, -⟩ := Results.bind_ok h
    obtain ⟨q, hq, -, -⟩ := readDir_ok_iff.mp (Results.mapError_ok hnames)
    rw [hq, canonicalize_of_clear hm.clear hq]
  rw [mem_currentPaths_iff hcanonical h]
  constructor
  · rintro ⟨loc, hseen⟩
    cases hseen with
    | plain hdot hscope htaken =>
        refine ⟨[text], .plain hdot (fun hat hdir => ?_) htaken, pathOf_concat m text⟩
        have hno := hscope hat
        rw [pathOf_concat, isDir_of_dir hdir] at hno
        cases hno
    | @inScope scope name d hscope htaken hleads hdir hentry =>
        rw [pathOf_concat] at hleads
        obtain rfl := canonicalize_of_clear (hm.scope hscope) hleads
        rw [List.append_assoc] at hentry
        exact ⟨_, .inScope hscope hdir hentry, by simp [pathOf]⟩
  · rintro ⟨loc, hentry, rfl⟩
    cases hentry with
    | plain hdot hscope htaken =>
        rw [← pathOf_concat]
        refine ⟨_, .plain hdot (fun hat => ?_) htaken⟩
        rw [pathOf_concat]
        exact Bool.eq_false_iff.mpr fun hisdir =>
          hscope hat (isDir_of_clear (hm.scope hat) hisdir)
    | @inScope scope name hscope hdir htaken =>
        have hseen := SeenEntry.inScope hscope
          (by rw [hdir]; exact Option.some_ne_none _)
          (canonicalize_concat hcanonical hdir (by simp)) hdir
          (show t.get (m ++ [scope] ++ [name]) ≠ none by rwa [List.append_assoc])
        exact ⟨_, by simpa [pathOf] using hseen⟩

/-- One round: an entry that is wanted is passed over, and any other is removed,
with the directory of its scope when that is left empty. -/
theorem syncPackage_cases {s s' : Tree} (hs : ModulesClear s m) {text : Text} {loc : Loc}
    (hentry : DirectEntry t m text loc) {desired : List Text}
    (h : syncPackage (pathOf m) desired s (text, pathOf (m ++ loc)) = .ok s') :
    (text ∈ desired ∧ s' = s) ∨
      (text ∉ desired ∧ s' = s.remove (m ++ loc)) ∨
      text ∉ desired ∧ ∃ scope name, loc = [scope, name] ∧
        (s.remove (m ++ loc)).children (m ++ [scope]) = [] ∧
        s' = (s.remove (m ++ loc)).remove (m ++ [scope]) := by
  unfold syncPackage at h
  split at h
  · rename_i hdesired
    cases h
    exact Or.inl ⟨hdesired, rfl⟩
  · rename_i hdesired
    apply Or.inr
    obtain ⟨s₁, hs₁, h⟩ := Results.bind_ok h
    obtain ⟨q, hq, hne, rfl⟩ := removeStale_ok (Results.mapError_ok hs₁)
    cases hentry with
    | plain hdot hscope htaken =>
        have hqe := entry_of_clear hs.clear hq
        subst hqe
        have hparent : parent (pathOf (m ++ [text])) = some (pathOf m) := by
          rw [parent, getLast?_pathOf_concat, dropLast_pathOf_concat]
        simp only [hparent, ne_eq, not_true_eq_false, false_and, if_false] at h
        cases h
        exact Or.inl ⟨hdesired, rfl⟩
    | @inScope scope name hscope hdir htaken =>
        have hcons : m ++ [scope, name] = m ++ [scope] ++ [name] := by simp
        rw [hcons] at hq h ⊢
        have hqe := entry_of_clear (hs.scope hscope) hq
        subst hqe
        have hparent : parent (pathOf (m ++ [scope] ++ [name])) = some (pathOf (m ++ [scope])) := by
          rw [parent, getLast?_pathOf_concat, dropLast_pathOf_concat]
        simp only [hparent] at h
        have hs' := hs.of_shrinks (shrinks_remove s hne)
        split at h
        · rename_i hempty
          obtain ⟨r, hr, -, rfl⟩ := removeDir_ok (Results.mapError_ok h)
          have hre := entry_of_clear hs'.clear hr
          subst hre
          refine Or.inr ⟨hdesired, scope, name, rfl, ?_, rfl⟩
          cases hread : readDir (s.remove (m ++ [scope] ++ [name])) (pathOf (m ++ [scope])) with
          | error _ =>
              rw [hread] at hempty
              cases hempty.2
          | ok names =>
              rw [hread] at hempty
              rw [← (readDir_of_clear (hs'.scope hscope) hread).2]
              exact Option.some.inj hempty.2
        · cases h
          exact Or.inl ⟨hdesired, rfl⟩

theorem syncPackage_shrinks {s s' : Tree} (hs : ModulesClear s m) {text : Text} {loc : Loc}
    (hentry : DirectEntry t m text loc) {desired : List Text}
    (h : syncPackage (pathOf m) desired s (text, pathOf (m ++ loc)) = .ok s') : Shrinks s s' := by
  have hnil : m ++ loc ≠ [] := by
    have hloc := hentry.loc_ne_nil
    simp [hloc]
  rcases syncPackage_cases hs hentry h with ⟨-, rfl⟩ | ⟨-, rfl⟩ | ⟨-, scope, name, -, -, rfl⟩
  · exact fun _ _ hq => hq
  · exact shrinks_remove s hnil
  · have hscope : m ++ [scope] ≠ [] := by simp
    exact fun q node hq => shrinks_remove s hnil q node (shrinks_remove _ hscope q node hq)

/-- The rounds of a synchronisation. -/
theorem syncDirectDependencyLinks_rounds {modulesDir : Text} {desired : List Text}
    (hpath : LeadsTo modulesDir m) (hm : ModulesClear t m)
    (h : syncDirectDependencyLinks t modulesDir desired = .ok t') :
    (t.get m ≠ some .dir ∧ t' = t) ∨
      ∃ packages : List (Text × List Component),
        (∀ text path, (text, path) ∈ packages ↔
          ∃ loc, DirectEntry t m text loc ∧ path = pathOf (m ++ loc)) ∧
        packages.foldlM (syncPackage (pathOf m) desired) t = .ok t' := by
  unfold syncDirectDependencyLinks at h
  simp only [LeadsTo] at hpath
  simp only [hpath] at h
  split at h
  · obtain ⟨packages, hpackages, h⟩ := Results.bind_ok h
    exact Or.inr ⟨packages, mem_currentDirectDependencyPaths hm hpackages, h⟩
  · rename_i hexists
    cases h
    refine Or.inl ⟨fun hdir => hexists ?_, rfl⟩
    rw [pathExists, canonicalize_of_dir hdir]
    rfl

/-- An entry that is wanted stays. -/
theorem sync_keeps {modulesDir : Text} {desired : List Text} (hpath : LeadsTo modulesDir m)
    (hm : ModulesClear t m) (h : syncDirectDependencyLinks t modulesDir desired = .ok t')
    {text : Text} {loc : Loc} (hentry : DirectEntry t m text loc) (hdesired : text ∈ desired)
    {node : Node} (hnode : t.get (m ++ loc) = some node) : t'.get (m ++ loc) = some node := by
  rcases syncDirectDependencyLinks_rounds hpath hm h with ⟨-, rfl⟩ | ⟨packages, hpackages, hfold⟩
  · exact hnode
  · refine (Results.foldlM_invariant
      (fun s => Shrinks t s ∧ s.get (m ++ loc) = some node) hfold ⟨fun _ _ hq => hq, hnode⟩ ?_).2
    rintro ⟨text', path⟩ hmem s s' ⟨hshrinks, hs⟩ hround
    obtain ⟨loc', hentry', rfl⟩ := (hpackages text' path).mp hmem
    have hne : text' ∉ desired → ¬ m ++ loc' <+: m ++ loc := by
      intro hnot hp
      rw [List.prefix_append_right_inj] at hp
      have hloc := hentry.eq_of_above hentry' hp
      subst hloc
      exact hnot (hentry.text_unique hentry' ▸ hdesired)
    have hnil : m ++ loc' ≠ [] := by
      have hloc' := hentry'.loc_ne_nil
      simp [hloc']
    have hs' := hm.of_shrinks hshrinks
    refine ⟨fun q node hq =>
      hshrinks q node (syncPackage_shrinks hs' hentry' hround q node hq), ?_⟩
    have hkept : text' ∉ desired → (s.remove (m ++ loc')).get (m ++ loc) = some node := by
      intro hnot
      rw [Tree.get_remove s hnil, if_neg (hne hnot), hs]
    rcases syncPackage_cases hs' hentry' hround with
      ⟨-, rfl⟩ | ⟨hnot, rfl⟩ | ⟨hnot, scope, name, rfl, hempty, rfl⟩
    · exact hs
    · exact hkept hnot
    · have hscope : m ++ [scope] ≠ [] := by simp
      rw [Tree.get_remove _ hscope, if_neg, hkept hnot]
      intro hp
      rw [List.prefix_append_right_inj] at hp
      obtain ⟨other, rfl⟩ := hentry.eq_of_scope_above hentry' hp
      -- the scope of an entry that stays is not empty
      have hchild : other ∈ (s.remove (m ++ [scope, name])).children (m ++ [scope]) := by
        rw [Tree.mem_children, List.append_assoc, List.singleton_append, hkept hnot]
        simp
      rw [hempty] at hchild
      cases hchild

theorem Shrinks.get_eq_none (h : Shrinks t t') {q : Loc} (hq : t.get q = none) :
    t'.get q = none := by
  refine Option.eq_none_iff_forall_not_mem.mpr fun node hnode => ?_
  rw [h q node hnode] at hq
  cases hq

/-- An entry that is not wanted is gone. -/
theorem sync_removes_entry {modulesDir : Text} {desired : List Text} (hpath : LeadsTo modulesDir m)
    (hm : ModulesClear t m) (h : syncDirectDependencyLinks t modulesDir desired = .ok t')
    {text : Text} {loc : Loc} (hentry : DirectEntry t m text loc) (hnot : text ∉ desired) :
    t'.get (m ++ loc) = none := by
  rcases syncDirectDependencyLinks_rounds hpath hm h with
    ⟨hdir, -⟩ | ⟨packages, hpackages, hfold⟩
  · obtain ⟨node, hnode⟩ := Option.ne_none_iff_exists'.mp hentry.taken
    exact absurd (Tree.get_of_above hnode (List.prefix_append _ _)
      (by simp [hentry.loc_ne_nil])) hdir
  · have hshrinks : ∀ {part : List (Text × List Component)} {s s' : Tree},
        (∀ package ∈ part, package ∈ packages) → ModulesClear s m →
        part.foldlM (syncPackage (pathOf m) desired) s = .ok s' → Shrinks s s' := by
      intro part s s' hpart hs hrun
      refine Results.foldlM_invariant (fun r => Shrinks s r) hrun (fun _ _ hq => hq) ?_
      rintro ⟨text, path⟩ hmem r r' hr hround q node hq
      obtain ⟨loc, hloc, rfl⟩ := (hpackages text path).mp (hpart _ hmem)
      exact hr q node ((syncPackage_shrinks (hs.of_shrinks hr) hloc hround) q node hq)
    obtain ⟨before, after, s₁, s₂, rfl, hbefore, hround, hafter⟩ :=
      Results.foldlM_at hfold ((hpackages _ _).mpr ⟨_, hentry, rfl⟩)
    have hs₁ := hm.of_shrinks (hshrinks (fun _ hp => by simp [hp]) hm hbefore)
    have hs₂ := hs₁.of_shrinks (syncPackage_shrinks hs₁ hentry hround)
    refine (hshrinks (fun _ hp => by simp [hp]) hs₂ hafter).get_eq_none ?_
    have hnil : m ++ loc ≠ [] := by simp [hentry.loc_ne_nil]
    rcases syncPackage_cases hs₁ hentry hround with
      ⟨hwanted, -⟩ | ⟨-, rfl⟩ | ⟨-, scope, last, hloc, -, rfl⟩
    · exact absurd hwanted hnot
    · rw [Tree.get_remove _ hnil, if_pos List.prefix_rfl]
    · have hscope : m ++ [scope] ≠ [] := by simp
      apply (shrinks_remove _ hscope).get_eq_none
      rw [Tree.get_remove _ hnil, if_pos List.prefix_rfl]

theorem sync_removes {modulesDir : Text} {desired : List Text} (hpath : LeadsTo modulesDir m)
    (hm : ModulesClear t m) (h : syncDirectDependencyLinks t modulesDir desired = .ok t')
    {name : PkgName} (hname : name.Visible) (hnot : name.display ∉ desired) :
    t'.get (m ++ name.loc) = none := by
  by_cases htaken : t.get (m ++ name.loc) = none
  · exact (syncDirectDependencyLinks_ok hpath hm h).1.get_eq_none htaken
  · exact sync_removes_entry hpath hm h (directEntry_of_taken hname htaken) hnot

/-- Only wanted names are in the modules directory. -/
def OnlyDesired (t : Tree) (m : Loc) (desired : List Text) : Prop :=
  ∀ text loc, DirectEntry t m text loc → text ∈ desired

/-- Where nothing is added there are no new entries. -/
theorem DirectEntry.of_shrinks (hs : Shrinks t t') {text : Text} {loc : Loc}
    (h : DirectEntry t' m text loc) : DirectEntry t m text loc := by
  have hkept : ∀ q, t'.get q ≠ none → t.get q = t'.get q := by
    intro q hq
    obtain ⟨node, hnode⟩ := Option.ne_none_iff_exists'.mp hq
    rw [hnode, hs q node hnode]
  cases h with
  | plain hdot hscope htaken =>
      refine .plain hdot ?_ ?_
      · rwa [hkept _ htaken]
      · rwa [hkept _ htaken]
  | inScope hscope hdir htaken =>
      refine .inScope hscope (hs _ _ hdir) ?_
      rwa [hkept _ htaken]

theorem sync_onlyDesired {modulesDir : Text} {desired : List Text} (hpath : LeadsTo modulesDir m)
    (hm : ModulesClear t m) (h : syncDirectDependencyLinks t modulesDir desired = .ok t') :
    OnlyDesired t' m desired := by
  intro text loc hentry
  by_contra hnot
  have hold := hentry.of_shrinks (syncDirectDependencyLinks_ok hpath hm h).1
  exact hentry.taken (sync_removes_entry hpath hm h hold hnot)

/-- After a synchronisation the modules directory is there or nothing is. -/
theorem sync_modules {modulesDir : Text} {desired : List Text} (hpath : LeadsTo modulesDir m)
    (hm : ModulesClear t m) (h : syncDirectDependencyLinks t modulesDir desired = .ok t') :
    t'.get m = none ∨ t'.get m = some .dir := by
  have hzone : ¬ SyncZone m m := by
    rintro ⟨name, rest, -, hm⟩
    simp at hm
  have hkept := (syncDirectDependencyLinks_ok hpath hm h).2.kept m
  unfold syncDirectDependencyLinks at h
  simp only [LeadsTo] at hpath
  simp only [hpath] at h
  split at h
  · obtain ⟨packages, hpackages, -⟩ := Results.bind_ok h
    obtain ⟨names, hnames, -⟩ := Results.bind_ok hpackages
    have hdir := (readDir_of_clear hm.clear (Results.mapError_ok hnames)).1
    exact Or.inr (hkept _ hdir hzone)
  · rename_i hmissing
    cases h
    cases hnode : t.get m with
    | none => exact Or.inl rfl
    | some node =>
        have hcan : canonicalize t (pathOf m) = .ok m := by
          cases node with
          | dir => exact canonicalize_of_dir hnode
          | file content => exact canonicalize_of_file hnode
          | link target => exact absurd hnode (hm.clear m List.prefix_rfl target)
        exact absurd (by rw [pathExists, hcan]; rfl) hmissing

end Npnpm
