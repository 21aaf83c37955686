import Npnpm.Library.FileTree

/-!
# The names in a file tree

A name in a directory is a path component. The operations keep it so, because
every name they give is a component of a path or of the target of a link.
-/

namespace Npnpm.FileTree

open Npnpm.Path

/-- A location whose names are path components. -/
def PlainLoc (q : Loc) : Prop := ∀ name ∈ q, (Component.normal name).Plain

/-- Every node of the tree is at such a location. -/
def Tree.PlainNames (t : Tree) : Prop := ∀ q node, t.get q = some node → PlainLoc q

/-- The names of a path are path components. -/
def PlainPath (p : List Component) : Prop :=
  ∀ name, .normal name ∈ p → (Component.normal name).Plain

variable {t t' : Tree} {p : List Component}

theorem plainPath_components (p : Text) : PlainPath (components p) := by
  intro name hname
  unfold components at hname
  split at hname
  · exact plain_of_mem_body (by simpa using hname)
  · split at hname
    · exact plain_of_mem_body (by simpa using hname)
    · exact plain_of_mem_body hname

theorem PlainPath.subset {p' : List Component} (h : PlainPath p) (hp : ∀ c ∈ p', c ∈ p) :
    PlainPath p' :=
  fun name hname => h name (hp _ hname)

theorem PlainLoc.concat {d : Loc} {name : Text} (hd : PlainLoc d)
    (hname : (Component.normal name).Plain) : PlainLoc (d ++ [name]) := by
  intro other hother
  rcases List.mem_append.mp hother with hother | hother
  · exact hd other hother
  · rw [List.mem_singleton.mp hother]
    exact hname

theorem PlainLoc.of_above {p q : Loc} (h : PlainLoc q) (hp : p <+: q) : PlainLoc p :=
  fun name hname => h name (hp.subset hname)

theorem plainLoc_land {d : Loc} {c : Component} (hd : PlainLoc d) (hc : PlainPath [c]) :
    PlainLoc (land d c) := by
  cases c with
  | rootDir => exact fun _ hname => by cases hname
  | curDir => exact hd
  | parentDir => exact hd.of_above (List.dropLast_prefix d)
  | normal name => exact hd.concat (hc name List.mem_cons_self)

/-- A walk along a path of plain names ends at one. -/
theorem plainLoc_walkWith {follow : Loc → List Component → Except IoError Loc}
    (hfollow : ∀ d cs r, PlainLoc d → PlainPath cs → follow d cs = .ok r → PlainLoc r)
    {d r : Loc} (hd : PlainLoc d) (hp : PlainPath p) (h : walkWith t follow d p = .ok r) :
    PlainLoc r := by
  induction p generalizing d with
  | nil =>
      cases h
      exact hd
  | cons c rest ih =>
      have hrest : PlainPath rest := hp.subset fun _ hc => List.mem_cons_of_mem _ hc
      rw [walkWith] at h
      split at h
      · cases h
      · split at h
        · cases h
        · split at h
          · rename_i target _
            refine hfollow d _ r hd (fun name hname => ?_) h
            rcases List.mem_append.mp hname with hname | hname
            · exact plainPath_components target name hname
            · exact hrest name hname
          · refine ih (plainLoc_land hd (hp.subset fun c hc => ?_)) hrest h
            rw [List.mem_singleton.mp hc]
            exact List.mem_cons_self

theorem plainLoc_walk {n : Nat} {d r : Loc} (hd : PlainLoc d) (hp : PlainPath p)
    (h : walk t n d p = .ok r) : PlainLoc r := by
  induction n generalizing d p r with
  | zero =>
      refine plainLoc_walkWith (fun _ _ _ _ _ hfollow => ?_) hd hp h
      cases hfollow
  | succ n ih => exact plainLoc_walkWith (fun _ _ _ hd hcs hfollow => ih hd hcs hfollow) hd hp h

theorem plainLoc_locate {r : Loc} (hp : PlainPath p) (h : locate t p = .ok r) : PlainLoc r :=
  plainLoc_walk (fun _ hname => by cases hname) hp h

theorem Tree.PlainNames.create (h : t.PlainNames) {d : Loc} {name : Text} {node : Node}
    (hname : (Component.normal name).Plain) (hcreate : t.create d name node = .ok t') :
    t'.PlainNames := by
  obtain ⟨hd, -, hget⟩ := Tree.create_ok hcreate
  intro q node' hq
  rw [hget] at hq
  split at hq
  · rename_i hcell
    rw [hcell]
    exact (h d .dir hd).concat hname
  · exact h q node' hq

theorem Tree.PlainNames.remove (h : t.PlainNames) {q : Loc} (hq : q ≠ []) :
    (t.remove q).PlainNames := by
  intro r node hr
  rw [Tree.get_remove t hq] at hr
  split at hr
  · cases hr
  · exact h r node hr

theorem Tree.PlainNames.makeNode (h : t.PlainNames) (hp : PlainPath p) {node : Node}
    (hmake : makeNode t p node = .ok t') : t'.PlainNames := by
  obtain ⟨name, d, hlast, -, hcreate⟩ := makeNode_ok hmake
  exact h.create (hp name (List.mem_of_getLast? hlast)) hcreate

theorem Tree.PlainNames.makeTarget (h : t.PlainNames) (hp : PlainPath p) {node : Node}
    (hmake : makeTarget t p node = .ok t') : t'.PlainNames := by
  obtain ⟨q, hq, hcreate⟩ := Results.bind_ok hmake
  split at hcreate
  · cases hcreate
  · rename_i name hlast
    exact h.create (plainLoc_locate hp hq name (List.mem_of_getLast? hlast)) hcreate

theorem Tree.PlainNames.createDirAll (h : t.PlainNames) (hp : PlainPath p)
    (hmake : createDirAll t p = .ok t') : t'.PlainNames := by
  unfold FileTree.createDirAll at hmake
  have hup : PlainPath p.reverse := hp.subset fun _ => List.mem_reverse.mp
  generalize p.reverse = up at hmake hup
  induction up generalizing t' with
  | nil =>
      cases hmake
      exact h
  | cons c up ih =>
      have hpath : PlainPath (c :: up).reverse := hup.subset fun _ => List.mem_reverse.mp
      simp only [createDirAllUp] at hmake
      split at hmake
      · rename_i hmk
        cases hmake
        exact h.makeNode hpath hmk
      · split at hmake
        · cases hmake
        · obtain ⟨s, hs, hlast⟩ := Results.bind_ok hmake
          have hplain := ih hs (hup.subset fun _ hc => List.mem_cons_of_mem _ hc)
          split at hlast
          · rename_i hmk
            cases hlast
            exact hplain.makeNode hpath hmk
          · split at hlast
            · cases hlast
              exact hplain
            · cases hlast
      · split at hmake
        · cases hmake
          exact h
        · cases hmake

end Npnpm.FileTree
