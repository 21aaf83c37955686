import Npnpm.Library.Walks

/-!
# Entries of a directory that a path leads to

The names that `read_dir` gives are joined to the path it was called with. Such a path leads
to the node under the name, or on through it when it is a link. Below a place without links
a path leads where its names say, whatever path leads to the place.
-/

namespace Npnpm.FileTree

open Npnpm.Path

variable {t t' s : Tree} {dir path : List Component} {m q r : Loc} {name : Text}

section Tests

/-- `is_file`, which follows links. -/
def isFile (t : Tree) (p : List Component) : Bool :=
  match canonicalize t p with
  | .ok q =>
      match t.get q with
      | some (.file _) => true
      | _ => false
  | .error _ => false

theorem isFile_iff : isFile t path = true ↔
    ∃ q contents, canonicalize t path = .ok q ∧ t.get q = some (.file contents) := by
  unfold isFile
  cases canonicalize t path with
  | error e => simp
  | ok q =>
      simp only [Except.ok.injEq, exists_and_left, exists_eq_left']
      split
      · rename_i contents hfile
        simp [hfile]
      · rename_i hno
        simp only [Bool.false_eq_true, false_iff, not_exists]
        exact hno

theorem isDir_iff : isDir t path = true ↔ ∃ q, canonicalize t path = .ok q ∧
    t.get q = some .dir := by
  unfold isDir
  cases canonicalize t path <;> simp

theorem readDir_ok_iff {names : List Text} : readDir t path = .ok names ↔
    ∃ q, canonicalize t path = .ok q ∧ t.get q = some .dir ∧ t.children q = names := by
  constructor
  · intro h
    obtain ⟨q, hq, hnames⟩ := Results.bind_ok h
    split at hnames
    · rename_i hdir
      cases hnames
      exact ⟨q, hq, hdir, rfl⟩
    · cases hnames
  · rintro ⟨q, hq, hdir, rfl⟩
    exact Results.ok_bind hq (if_pos hdir)

end Tests

section Concat

theorem getLast?_concat_normal (dir : List Component) (name : Text) :
    (dir ++ [Component.normal name]).getLast? = some (.normal name) := by simp

theorem entry_concat (hdir : canonicalize t dir = .ok m) (hm : t.get m = some .dir)
    (name : Text) : entry t (dir ++ [.normal name]) = .ok (m ++ [name]) := by
  refine (entry_of_last (getLast?_concat_normal dir name)).mpr ⟨m, ?_, hm, rfl⟩
  rw [List.dropLast_concat]
  exact (canonicalize_ok_iff.mp hdir).1

/-- What stands in a directory under a name is where the name leads, unless it is a link. -/
theorem canonicalize_concat (hdir : canonicalize t dir = .ok m) {node : Node}
    (hnode : t.get (m ++ [name]) = some node) (hno : ∀ target, node ≠ .link target) :
    canonicalize t (dir ++ [.normal name]) = .ok (m ++ [name]) := by
  refine canonicalize_of_last (getLast?_concat_normal dir name) ?_ hnode hno
  rw [List.dropLast_concat]
  exact (canonicalize_ok_iff.mp hdir).1

/-- Where an entry of a directory leads somewhere, so does the path of the directory. -/
theorem canonicalize_front {c : Component} (h : canonicalize t (dir ++ [c]) = .ok q) :
    ∃ m, canonicalize t dir = .ok m ∧ t.get m = some .dir := by
  obtain ⟨m, hm, hdir⟩ := walk_front (canonicalize_ok_iff.mp h).1
  exact ⟨m, canonicalize_ok_iff.mpr ⟨hm, by rw [hdir]; exact Option.some_ne_none _⟩, hdir⟩

theorem canonicalize_of_front (hdir : canonicalize t dir = .ok m) (hs : Holds s t)
    {c : Component} (h : locate s (dir ++ [c]) = .ok q) : canonicalize s dir = .ok m := by
  obtain ⟨e, he, hedir⟩ := walk_front h
  have hfront := canonicalize_ok_iff.mpr ⟨he, by rw [hedir]; exact Option.some_ne_none _⟩
  have hsame := canonicalize_of_holds hs hfront
  rw [hdir, Except.ok.injEq] at hsame
  rw [hfront, hsame]

/-- A name that leads somewhere is in the directory. -/
theorem taken_of_canonicalize (hdir : canonicalize t dir = .ok m)
    (h : canonicalize t (dir ++ [.normal name]) = .ok q) : t.get (m ++ [name]) ≠ none := by
  obtain ⟨node, hnode⟩ := exists_entry h
  obtain ⟨r, hr, hget⟩ := symlinkMetadata_ok_iff.mp hnode
  obtain ⟨d, hd, -, rfl⟩ := (entry_of_last (getLast?_concat_normal dir name)).mp hr
  rw [List.dropLast_concat, (canonicalize_ok_iff.mp hdir).1, Except.ok.injEq] at hd
  rw [hd, hget]
  exact Option.some_ne_none node

end Concat

section Ways

/-- A walk to a directory goes over directories and links only. -/
theorem walkWith_of_ways {follow follow' : Loc → List Component → Except IoError Loc} {d : Loc}
    (hdirs : ∀ q, s.get q = some .dir → t.get q = some .dir)
    (hlinks : ∀ q target, s.get q = some (.link target) → t.get q = some (.link target))
    (hr : s.get r = some .dir) (hfollow : ∀ d p, follow d p = .ok r → follow' d p = .ok r)
    (h : walkWith s follow d path = .ok r) : walkWith t follow' d path = .ok r := by
  induction path generalizing d with
  | nil => exact h
  | cons c rest ih =>
      rw [walkWith_ok_iff] at h ⊢
      obtain ⟨hdir, hstep⟩ := h
      refine ⟨hdirs d hdir, ?_⟩
      rcases hstep with ⟨target, hlink, hrest⟩ | ⟨hno, hrest⟩
      · exact Or.inl ⟨target, hlinks _ _ hlink, hfollow _ _ hrest⟩
      · refine Or.inr ⟨fun target hlink => ?_, ih hrest⟩
        have hland : s.get (land d c) = some .dir := by
          cases rest with
          | nil =>
              cases hrest
              exact hr
          | cons c' rest' => exact (walkWith_ok_iff.mp hrest).1
        rw [hdirs _ hland] at hlink
        cases hlink

theorem canonicalize_of_ways (hdirs : ∀ q, s.get q = some .dir → t.get q = some .dir)
    (hlinks : ∀ q target, s.get q = some (.link target) → t.get q = some (.link target))
    (hr : s.get r = some .dir) (h : canonicalize s path = .ok r) :
    canonicalize t path = .ok r := by
  have hwalk : ∀ n d p, walk s n d p = .ok r → walk t n d p = .ok r := by
    intro n
    induction n with
    | zero =>
        exact fun d p hwalk =>
          walkWith_of_ways hdirs hlinks hr (fun _ _ herror => by cases herror) hwalk
    | succ n ih =>
        exact fun d p hwalk => walkWith_of_ways hdirs hlinks hr (fun d p => ih d p) hwalk
  refine canonicalize_ok_iff.mpr ⟨hwalk _ _ _ (canonicalize_ok_iff.mp h).1, ?_⟩
  rw [hdirs r hr]
  exact Option.some_ne_none _

end Ways

section Below

/-- Nothing at or below the location is a link. -/
def NoLinksBelow (t : Tree) (m : Loc) : Prop := ∀ q target, m <+: q → t.get q ≠ some (.link target)

/-- The walk along names, where no link is met. -/
def walkNames (t : Tree) (m : Loc) (names : Loc) : Except IoError Loc :=
  walkWith t (fun _ _ => .error .filesystemLoop) m (names.map .normal)

theorem walkWith_names (hclear : NoLinksBelow t m) (names : Loc)
    (follow : Loc → List Component → Except IoError Loc) :
    walkWith t follow m (names.map .normal) = walkNames t m names := by
  induction names generalizing m with
  | nil => rfl
  | cons name names ih =>
      have hname : NoLinksBelow t (m ++ [name]) := fun q target hq =>
        hclear q target ((List.prefix_append _ _).trans hq)
      unfold walkNames
      rw [List.map_cons, walkWith, walkWith, land]
      split
      · rfl
      · split
        · rfl
        · split
          · rename_i target hlink
            exact absurd hlink (hclear _ target (List.prefix_append _ _))
          · exact ih hname

theorem walkNames_same {names : Loc} (hclear : NoLinksBelow t m)
    (hsame : ∀ k, k <+: names → t'.get (m ++ k) = t.get (m ++ k)) :
    walkNames t' m names = walkNames t m names := by
  induction names generalizing m with
  | nil => rfl
  | cons name names ih =>
      have hname : NoLinksBelow t (m ++ [name]) := fun q target hq =>
        hclear q target ((List.prefix_append _ _).trans hq)
      have hrest := ih hname fun k hk => by
        rw [List.append_assoc, List.singleton_append]
        exact hsame (name :: k) (List.cons_prefix_cons.mpr ⟨rfl, hk⟩)
      have hhere := hsame [] (List.nil_prefix)
      have hnext := hsame [name] (List.cons_prefix_cons.mpr ⟨rfl, List.nil_prefix⟩)
      rw [List.append_nil] at hhere
      unfold walkNames at hrest ⊢
      rw [List.map_cons, walkWith, walkWith, land, hhere, hnext, hrest]

theorem walkNames_ok {names : Loc} (h : walkNames t m names = .ok q) : q = m ++ names := by
  unfold walkNames at h
  induction names generalizing m with
  | nil =>
      rw [List.append_nil]
      exact (Except.ok.inj h).symm
  | cons name names ih =>
      rw [List.map_cons, walkWith_ok_iff] at h
      rcases h.2 with ⟨target, -, herror⟩ | ⟨-, hrest⟩
      · cases herror
      · rw [ih hrest, land, List.append_assoc, List.singleton_append]

theorem walkNames_of_node {names : Loc} {node : Node} (hclear : NoLinksBelow t m)
    (hnode : t.get (m ++ names) = some node) : walkNames t m names = .ok (m ++ names) := by
  unfold walkNames
  induction names generalizing m with
  | nil =>
      rw [List.append_nil]
      rfl
  | cons name names ih =>
      have hcons : m ++ name :: names = m ++ [name] ++ names := by simp
      rw [hcons] at hnode ⊢
      have hname : NoLinksBelow t (m ++ [name]) := fun q target hq =>
        hclear q target ((List.prefix_append _ _).trans hq)
      have hdir : t.get m = some .dir := by
        refine Tree.get_of_above hnode ?_ (by simp)
        rw [List.append_assoc]
        exact List.prefix_append _ _
      rw [List.map_cons]
      exact walkWith_ok_iff.mpr
        ⟨hdir, Or.inr ⟨fun target => hclear _ target (List.prefix_append _ _), ih hname hnode⟩⟩

theorem walkWith_below {follow follow' : Loc → List Component → Except IoError Loc} {d : Loc}
    (hclear : NoLinksBelow t m) (names : Loc)
    (hfollow : ∀ d p, follow d p = .ok m →
      follow' d (p ++ names.map .normal) = walkNames t m names)
    (h : walkWith t follow d path = .ok m) :
    walkWith t follow' d (path ++ names.map .normal) = walkNames t m names := by
  induction path generalizing d with
  | nil =>
      cases h
      exact walkWith_names hclear names follow'
  | cons c rest ih =>
      obtain ⟨hdir, hstep⟩ := walkWith_ok_iff.mp h
      rw [List.cons_append, walkWith, if_neg (by simp [hdir]), if_neg (by simp [hdir])]
      rcases hstep with ⟨target, hlink, hrest⟩ | ⟨hno, hrest⟩
      · have hnext := hfollow _ _ hrest
        rw [List.append_assoc] at hnext
        rw [hlink]
        exact hnext
      · split
        · rename_i target hlink
          exact absurd hlink (hno target)
        · exact ih hrest

/-- Below a place without links the names decide where a path leads. -/
theorem canonicalize_below (hclear : NoLinksBelow t m) (hdir : canonicalize t dir = .ok m)
    (names : Loc) : canonicalize t (dir ++ names.map .normal) =
      (walkNames t m names).bind fun q =>
        if t.get q = none then .error .notFound else .ok q := by
  have hwalk : ∀ n d p, walk t n d p = .ok m →
      walk t n d (p ++ names.map .normal) = walkNames t m names := by
    intro n
    induction n with
    | zero =>
        exact fun d p hwalk =>
          walkWith_below hclear names (fun _ _ herror => by cases herror) hwalk
    | succ n ih => exact fun d p hwalk => walkWith_below hclear names (fun d p => ih d p) hwalk
  unfold canonicalize locate
  rw [hwalk _ _ _ (canonicalize_ok_iff.mp hdir).1]
  rfl

theorem canonicalize_below_ok (hclear : NoLinksBelow t m) (hdir : canonicalize t dir = .ok m)
    {names : Loc} (h : canonicalize t (dir ++ names.map .normal) = .ok q) : q = m ++ names := by
  rw [canonicalize_below hclear hdir] at h
  obtain ⟨r, hr, h⟩ := Results.bind_ok h
  split at h
  · cases h
  · cases h
    exact walkNames_ok hr

theorem canonicalize_of_below (hclear : NoLinksBelow t m) (hdir : canonicalize t dir = .ok m)
    {names : Loc} {node : Node} (hnode : t.get (m ++ names) = some node) :
    canonicalize t (dir ++ names.map .normal) = .ok (m ++ names) := by
  rw [canonicalize_below hclear hdir, walkNames_of_node hclear hnode]
  simp [Except.bind, hnode]

/-- Where the nodes along the names are the same, a path leads to the same node. -/
theorem canonicalize_below_same {names : Loc} (hclear : NoLinksBelow t m)
    (hclear' : NoLinksBelow t' m) (hdir : canonicalize t dir = .ok m)
    (hdir' : canonicalize t' dir = .ok m)
    (hsame : ∀ k, k <+: names → t'.get (m ++ k) = t.get (m ++ k)) :
    canonicalize t' (dir ++ names.map .normal) = canonicalize t (dir ++ names.map .normal) := by
  rw [canonicalize_below hclear hdir, canonicalize_below hclear' hdir',
    walkNames_same hclear hsame]
  cases hwalk : walkNames t m names with
  | error e => rfl
  | ok q =>
      have hq := walkNames_ok hwalk
      subst hq
      have hend := hsame names List.prefix_rfl
      simp only [Except.bind, hend]

end Below

end Npnpm.FileTree
