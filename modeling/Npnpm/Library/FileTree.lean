import Npnpm.Library.KeyedMap
import Npnpm.Library.Path
import Npnpm.Library.Results

/-!
# File trees

The part of a POSIX file system that a program sees when it creates directories,
files and symbolic links, follows them, and removes them again. A location is
the list of names from the root down; a path is a list of components that is
walked from the root and may lead anywhere through links.

## Implementation notes

A tree carries the fact that whatever it holds stands in a directory, so that a
directory at the end of a direct path needs no further word about the way there.
Permissions, quotas and concurrent processes are not part of the tree, and a
relative path starts at the root.
-/

namespace Npnpm.FileTree

open Npnpm.Path

/-- Names from the root down. -/
abbrev Loc := List Text

inductive Node
  | dir
  | file (content : Text)
  | link (target : Text)
deriving DecidableEq

/-- The kinds of I/O errors that occur here. -/
inductive IoError
  | notFound
  | alreadyExists
  | notADirectory
  | isADirectory
  | directoryNotEmpty
  | filesystemLoop
  | other
deriving DecidableEq

/-- The nodes below the root, each of which stands in a directory. -/
structure Tree where
  nodes : KeyedMap Loc Node
  closed : ∀ q node, nodes.get q = some node →
    q ≠ [] ∧ (q.dropLast ≠ [] → nodes.get q.dropLast = some .dir)

namespace Tree

def empty : Tree := ⟨.empty, fun q node h => by simp [KeyedMap.get] at h⟩

def get (t : Tree) (q : Loc) : Option Node := if q = [] then some .dir else t.nodes.get q

@[simp] theorem get_nil (t : Tree) : t.get [] = some .dir := rfl

theorem get_of_ne_nil (t : Tree) {q : Loc} (h : q ≠ []) : t.get q = t.nodes.get q := if_neg h

theorem get_dropLast {t : Tree} {q : Loc} {node : Node} (h : t.get q = some node) :
    t.get q.dropLast = some .dir := by
  by_cases hq : q.dropLast = []
  · rw [hq, get_nil]
  · have hne : q ≠ [] := fun h => hq (by rw [h]; rfl)
    rw [get_of_ne_nil t hne] at h
    rw [get_of_ne_nil t hq]
    exact (t.closed q node h).2 hq

/-- Everything above a node is a directory. -/
theorem get_of_above {t : Tree} {p q : Loc} {node : Node} (h : t.get q = some node)
    (hp : p <+: q) (hne : p ≠ q) : t.get p = some .dir := by
  obtain ⟨rest, rfl⟩ := hp
  induction rest using List.reverseRecOn generalizing node with
  | nil => exact absurd (List.append_nil p).symm hne
  | append_singleton front last ih =>
      rw [← List.append_assoc] at h
      have hfront : t.get (p ++ front) = some .dir := by
        simpa using get_dropLast h
      by_cases hnil : front = []
      · simpa [hnil] using hfront
      · exact ih hfront (by simpa using hnil)

theorem get_dir_of_above {t : Tree} {p q : Loc} (h : t.get q = some .dir) (hp : p <+: q) :
    t.get p = some .dir := by
  by_cases hne : p = q
  · rw [hne, h]
  · exact get_of_above h hp hne

theorem get_eq_none_of_above {t : Tree} {p q : Loc} (h : t.get p = none) (hp : p <+: q) :
    t.get q = none := by
  cases hq : t.get q with
  | none => rfl
  | some node =>
      by_cases hne : p = q
      · rw [← hne, h] at hq
        cases hq
      · rw [get_of_above hq hp hne] at h
        cases h

/-- Add a node at a free place in a directory. -/
def put (t : Tree) (d : Loc) (name : Text) (node : Node) (hd : t.get d = some .dir)
    (hfree : t.get (d ++ [name]) = none) : Tree where
  nodes := t.nodes.insert (d ++ [name]) node
  closed := by
    have hnone : t.nodes.get (d ++ [name]) = none := by
      rw [← get_of_ne_nil t (by simp), hfree]
    intro q node' hq
    rw [KeyedMap.get_insert_eq_ite] at hq
    by_cases heq : q = d ++ [name]
    · subst heq
      refine ⟨by simp, fun hne => ?_⟩
      rw [List.dropLast_concat] at hne ⊢
      have hcell : d ≠ d ++ [name] := by simp
      rw [KeyedMap.get_insert_eq_ite, if_neg hcell, ← get_of_ne_nil t hne, hd]
    · rw [if_neg heq] at hq
      obtain ⟨hne, hparent⟩ := t.closed q node' hq
      refine ⟨hne, fun h => ?_⟩
      have hdir := hparent h
      rw [KeyedMap.get_insert_eq_ite]
      split
      · rename_i hcell
        rw [hcell, hnone] at hdir
        cases hdir
      · exact hdir

theorem get_put (t : Tree) (d : Loc) (name : Text) (node : Node) (hd : t.get d = some .dir)
    (hfree : t.get (d ++ [name]) = none) (q : Loc) :
    (t.put d name node hd hfree).get q = if q = d ++ [name] then some node else t.get q := by
  by_cases hq : q = []
  · subst hq
    have hne : ([] : Loc) ≠ d ++ [name] := by simp
    rw [if_neg hne, get_nil, get_nil]
  · rw [get_of_ne_nil _ hq, get_of_ne_nil _ hq]
    exact KeyedMap.get_insert_eq_ite _ _ node q

/-- Drop a location and everything below it. -/
def remove (t : Tree) (d : Loc) : Tree where
  nodes := t.nodes.filter fun q => !d.isPrefixOf q
  closed := by
    intro q node hq
    rw [KeyedMap.get_filter] at hq
    split at hq
    · rename_i hkept
      obtain ⟨hne, hparent⟩ := t.closed q node hq
      refine ⟨hne, fun h => ?_⟩
      have hup : (!d.isPrefixOf q.dropLast) = true := by
        rw [Bool.not_eq_true', Bool.eq_false_iff, ne_eq, List.isPrefixOf_iff_prefix] at hkept ⊢
        exact fun hd => hkept (hd.trans (List.dropLast_prefix q))
      rw [KeyedMap.get_filter, if_pos hup]
      exact hparent h
    · cases hq

theorem get_remove (t : Tree) {d : Loc} (hd : d ≠ []) (q : Loc) :
    (t.remove d).get q = if d <+: q then none else t.get q := by
  by_cases hq : q = []
  · subst hq
    rw [get_nil, get_nil, if_neg (by simpa using hd)]
  · rw [get_of_ne_nil _ hq, get_of_ne_nil _ hq, remove, KeyedMap.get_filter]
    by_cases hp : d <+: q
    · rw [if_pos hp, if_neg (by simpa using hp)]
    · have hkept : (!d.isPrefixOf q) = true := by
        rw [Bool.not_eq_true', Bool.eq_false_iff, ne_eq, List.isPrefixOf_iff_prefix]
        exact hp
      rw [if_neg hp, if_pos hkept]

/-- The names of what stands in a directory, in the order of the tree. -/
def children (t : Tree) (d : Loc) : List Text :=
  t.nodes.keys.filterMap fun q => if q.dropLast = d then q.getLast? else none

theorem mem_children {t : Tree} {d : Loc} {name : Text} :
    name ∈ t.children d ↔ t.get (d ++ [name]) ≠ none := by
  have hne : d ++ [name] ≠ [] := by simp
  rw [get_of_ne_nil t hne, children, List.mem_filterMap]
  constructor
  · rintro ⟨q, hq, hlast⟩
    split at hlast
    · rename_i hdrop
      obtain ⟨node, hnode⟩ := KeyedMap.mem_keys.mp hq
      have hloc : q = d ++ [name] := by
        rw [← hdrop]
        exact (List.dropLast_append_getLast? name hlast).symm
      rw [← hloc, KeyedMap.get_eq_some_iff.mpr hnode]
      simp
    · cases hlast
  · intro hget
    obtain ⟨node, hnode⟩ := Option.ne_none_iff_exists'.mp hget
    refine ⟨d ++ [name], KeyedMap.mem_keys.mpr ⟨node, KeyedMap.get_eq_some_iff.mp hnode⟩, ?_⟩
    simp

/-- Create a node at a free place. -/
def create (t : Tree) (d : Loc) (name : Text) (node : Node) : Except IoError Tree :=
  if hd : t.get d = some .dir then
    if hfree : t.get (d ++ [name]) = none then .ok (t.put d name node hd hfree)
    else .error .alreadyExists
  else if t.get d = none then .error .notFound
  else .error .notADirectory

theorem create_ok {t t' : Tree} {d : Loc} {name : Text} {node : Node}
    (h : t.create d name node = .ok t') :
    t.get d = some .dir ∧ t.get (d ++ [name]) = none ∧
      ∀ q, t'.get q = if q = d ++ [name] then some node else t.get q := by
  unfold create at h
  split at h
  · rename_i hd
    split at h
    · rename_i hfree
      cases h
      exact ⟨hd, hfree, get_put t d name node hd hfree⟩
    · cases h
  · split at h <;> cases h

/-- A tree without links, as its list of nodes shows. -/
theorem noLink_of_entries {t : Tree}
    (h : ∀ e ∈ t.nodes.entries, ∀ target, e.2 ≠ .link target) (q : Loc) (target : Text) :
    t.get q ≠ some (.link target) := by
  intro hlink
  by_cases hq : q = []
  · rw [hq, get_nil] at hlink
    cases hlink
  · rw [get_of_ne_nil t hq] at hlink
    exact h _ (KeyedMap.get_eq_some_iff.mp hlink) target rfl

end Tree

section Walk

/-- One component taken from a directory, links aside. -/
def land (d : Loc) : Component → Loc
  | .rootDir => []
  | .curDir => d
  | .parentDir => d.dropLast
  | .normal name => d ++ [name]

/-- Walk from a location. A link on the way is handed to `follow` with the
components that are left. -/
def walkWith (t : Tree) (follow : Loc → List Component → Except IoError Loc) :
    Loc → List Component → Except IoError Loc
  | d, [] => .ok d
  | d, c :: rest =>
      if t.get d = none then .error .notFound
      else if t.get d ≠ some .dir then .error .notADirectory
      else
        match t.get (land d c) with
        | some (.link target) => follow d (components target ++ rest)
        | _ => walkWith t follow (land d c) rest

/-- Walk through at most so many links. -/
def walk (t : Tree) : Nat → Loc → List Component → Except IoError Loc
  | 0 => walkWith t fun _ _ => .error .filesystemLoop
  | n + 1 => walkWith t (walk t n)

def maxLinks : Nat := 40

/-- Where a path leads; the place may still be free. -/
def locate (t : Tree) (p : List Component) : Except IoError Loc := walk t maxLinks [] p

def canonicalize (t : Tree) (p : List Component) : Except IoError Loc := do
  let q ← locate t p
  if t.get q = none then .error .notFound else .ok q

def pathExists (t : Tree) (p : List Component) : Bool := (canonicalize t p).isOk

def isDir (t : Tree) (p : List Component) : Bool :=
  match canonicalize t p with
  | .ok q => t.get q = some .dir
  | .error _ => false

/-- Where a path leads when its last name is not followed. -/
def entry (t : Tree) (p : List Component) : Except IoError Loc :=
  match p.getLast? with
  | some (.normal name) => do
      let d ← locate t p.dropLast
      if t.get d = none then .error .notFound
      else if t.get d ≠ some .dir then .error .notADirectory
      else .ok (d ++ [name])
  | _ => canonicalize t p

def symlinkMetadata (t : Tree) (p : List Component) : Except IoError Node := do
  let q ← entry t p
  match t.get q with
  | some node => .ok node
  | none => .error .notFound

def readDir (t : Tree) (p : List Component) : Except IoError (List Text) := do
  let q ← canonicalize t p
  if t.get q = some .dir then .ok (t.children q) else .error .notADirectory

def readFile (t : Tree) (p : List Component) : Except IoError Text := do
  let q ← canonicalize t p
  match t.get q with
  | some (.file content) => .ok content
  | _ => .error .isADirectory

end Walk

section Operations

/-- Create a node under the last name of a path, which is not followed. -/
def makeNode (t : Tree) (p : List Component) (node : Node) : Except IoError Tree :=
  match p.getLast? with
  | none => .error .notFound
  | some (.normal name) => do
      let d ← locate t p.dropLast
      t.create d name node
  | some _ => do
      let _ ← canonicalize t p
      .error .alreadyExists

def mkdir (t : Tree) (p : List Component) : Except IoError Tree := makeNode t p .dir

def symlink (t : Tree) (target : Text) (p : List Component) : Except IoError Tree :=
  makeNode t p (.link target)

/-- `create_dir_all`, on the components from the last one up. -/
def createDirAllUp (t : Tree) : List Component → Except IoError Tree
  | [] => .ok t
  | c :: up =>
      let p := (c :: up).reverse
      match mkdir t p with
      | .ok t' => .ok t'
      | .error .notFound =>
          if c = .rootDir then .error .other
          else do
            let t' ← createDirAllUp t up
            match mkdir t' p with
            | .ok t'' => .ok t''
            | .error e => if isDir t' p then .ok t' else .error e
      | .error e => if isDir t p then .ok t else .error e

def createDirAll (t : Tree) (p : List Component) : Except IoError Tree :=
  createDirAllUp t p.reverse

/-- Create a node where a path leads, also through a link whose target is free. -/
def makeTarget (t : Tree) (p : List Component) (node : Node) : Except IoError Tree := do
  let q ← locate t p
  match q.getLast? with
  | none => .error .alreadyExists
  | some name => t.create q.dropLast name node

def removeFile (t : Tree) (p : List Component) : Except IoError Tree := do
  let q ← entry t p
  match t.get q with
  | none => .error .notFound
  | some .dir => .error .isADirectory
  | some _ => .ok (t.remove q)

def removeDir (t : Tree) (p : List Component) : Except IoError Tree := do
  let q ← entry t p
  match t.get q with
  | none => .error .notFound
  | some .dir =>
      if q = [] then .error .other
      else if t.children q = [] then .ok (t.remove q)
      else .error .directoryNotEmpty
  | some _ => .error .notADirectory

def removeDirAll (t : Tree) (p : List Component) : Except IoError Tree := do
  let q ← entry t p
  match t.get q with
  | none => .error .notFound
  | some (.file _) => .error .notADirectory
  | some _ => if q = [] then .error .other else .ok (t.remove q)

end Operations

section Grow

/-- Nothing is lost and no link is new. -/
structure Grows (t t' : Tree) : Prop where
  kept : ∀ q node, t.get q = some node → t'.get q = some node
  noLink : ∀ q target, t'.get q = some (.link target) → t.get q = some (.link target)

theorem Grows.refl (t : Tree) : Grows t t := ⟨fun _ _ h => h, fun _ _ h => h⟩

theorem Grows.trans {t t' t'' : Tree} (h : Grows t t') (h' : Grows t' t'') : Grows t t'' :=
  ⟨fun q node hq => h'.kept q node (h.kept q node hq),
    fun q target hq => h.noLink q target (h'.noLink q target hq)⟩

theorem Grows.of_create {t t' : Tree} {d : Loc} {name : Text} {node : Node}
    (hnode : ∀ target, node ≠ .link target) (h : t.create d name node = .ok t') :
    Grows t t' := by
  obtain ⟨-, hfree, hget⟩ := Tree.create_ok h
  constructor
  · intro q node' hq
    rw [hget, if_neg, hq]
    rintro rfl
    rw [hfree] at hq
    cases hq
  · intro q target hq
    rw [hget] at hq
    split at hq
    · exact absurd (Option.some.inj hq) (hnode target)
    · exact hq

theorem makeNode_ok {t t' : Tree} {p : List Component} {node : Node}
    (h : makeNode t p node = .ok t') :
    ∃ name d, p.getLast? = some (.normal name) ∧ locate t p.dropLast = .ok d ∧
      t.create d name node = .ok t' := by
  unfold makeNode at h
  split at h
  · cases h
  · rename_i name hlast
    obtain ⟨d, hd, hcreate⟩ := Results.bind_ok h
    exact ⟨name, d, hlast, hd, hcreate⟩
  · obtain ⟨_, -, herror⟩ := Results.bind_ok h
    cases herror

theorem Grows.of_makeNode {t t' : Tree} {p : List Component} {node : Node}
    (hnode : ∀ target, node ≠ .link target) (h : makeNode t p node = .ok t') :
    Grows t t' := by
  obtain ⟨_, _, -, -, hcreate⟩ := makeNode_ok h
  exact .of_create hnode hcreate

theorem Grows.of_makeTarget {t t' : Tree} {p : List Component} {node : Node}
    (hnode : ∀ target, node ≠ .link target) (h : makeTarget t p node = .ok t') :
    Grows t t' := by
  obtain ⟨q, -, hq⟩ := Results.bind_ok h
  split at hq
  · cases hq
  · exact .of_create hnode hq

/-- What `create_dir_all` did last: the path was made, or stood there already. -/
theorem createDirAllUp_ok {t t' : Tree} {up : List Component} (h : createDirAllUp t up = .ok t') :
    Grows t t' ∧ (up = [] ∨ (∃ s, Grows t s ∧ mkdir s up.reverse = .ok t') ∨
      isDir t' up.reverse = true) := by
  have hdir : ∀ target, Node.dir ≠ .link target := by simp
  induction up generalizing t' with
  | nil =>
      cases h
      exact ⟨.refl t, Or.inl rfl⟩
  | cons c up ih =>
      simp only [createDirAllUp] at h
      split at h
      · rename_i s hmk
        cases h
        exact ⟨.of_makeNode hdir hmk, Or.inr (Or.inl ⟨t, .refl t, hmk⟩)⟩
      · split at h
        · cases h
        · obtain ⟨s, hs, hlast⟩ := Results.bind_ok h
          have hgrow := (ih hs).1
          split at hlast
          · rename_i hmk
            cases hlast
            exact ⟨hgrow.trans (.of_makeNode hdir hmk), Or.inr (Or.inl ⟨s, hgrow, hmk⟩)⟩
          · split at hlast
            · rename_i hisdir
              cases hlast
              exact ⟨hgrow, Or.inr (Or.inr hisdir)⟩
            · cases hlast
      · split at h
        · rename_i hisdir
          cases h
          exact ⟨.refl _, Or.inr (Or.inr hisdir)⟩
        · cases h

theorem Grows.of_createDirAll {t t' : Tree} {p : List Component}
    (h : createDirAll t p = .ok t') : Grows t t' :=
  (createDirAllUp_ok h).1

end Grow

section Direct

/-- The absolute path that names a location. -/
def pathOf (q : Loc) : List Component := .rootDir :: q.map .normal

/-- No link stands on the way to a location, nor at it. -/
def Clear (t : Tree) (q : Loc) : Prop := ∀ p, p <+: q → ∀ target, t.get p ≠ some (.link target)

theorem not_concat_above (d : Loc) (name : Text) : ¬ d ++ [name] <+: d := by
  intro h
  have hlen := h.length_le
  rw [List.length_append, List.length_singleton] at hlen
  omega

theorem Clear.of_above {t : Tree} {p q : Loc} (h : Clear t q) (hp : p <+: q) : Clear t p :=
  fun r hr => h r (hr.trans hp)

theorem Clear.of_grows {t t' : Tree} {q : Loc} (h : Clear t q) (hgrow : Grows t t') :
    Clear t' q :=
  fun p hp target hlink => h p hp target (hgrow.noLink p target hlink)

theorem Clear.concat_of_free {t : Tree} {d : Loc} {name : Text} (h : Clear t d)
    (hfree : t.get (d ++ [name]) = none) : Clear t (d ++ [name]) := by
  intro p hp target hlink
  rcases List.prefix_concat_iff.mp hp with rfl | hpd
  · rw [hfree] at hlink
    cases hlink
  · exact h p hpd target hlink

theorem clear_of_dir {t : Tree} {q : Loc} (h : t.get q = some .dir) : Clear t q := by
  intro p hp target hlink
  rw [Tree.get_dir_of_above h hp] at hlink
  cases hlink

@[simp] theorem getLast?_pathOf_concat (d : Loc) (name : Text) :
    (pathOf (d ++ [name])).getLast? = some (.normal name) := by
  simp [pathOf, List.getLast?_cons]

@[simp] theorem dropLast_pathOf_concat (d : Loc) (name : Text) :
    (pathOf (d ++ [name])).dropLast = pathOf d := by
  rw [pathOf, List.map_append, ← List.cons_append]
  exact List.dropLast_concat

theorem pathOf_injective {p q : Loc} (h : pathOf p = pathOf q) : p = q := by
  have hinj : Function.Injective Component.normal := fun a b hab => Component.normal.inj hab
  exact (List.map_injective_iff.mpr hinj) (List.cons.inj h).2

variable {t t' : Tree} {follow : Loc → List Component → Except IoError Loc}

/-- A walk that meets no link ends at the names it was given. -/
theorem walkWith_of_clear {d rest r : Loc} (hclear : Clear t (d ++ rest))
    (h : walkWith t follow d (rest.map .normal) = .ok r) : r = d ++ rest := by
  induction rest generalizing d with
  | nil =>
      simp only [List.map_nil, walkWith, Except.ok.injEq] at h
      rw [List.append_nil, h]
  | cons name rest ih =>
      have hstep : d ++ name :: rest = (d ++ [name]) ++ rest := by simp
      rw [hstep] at hclear ⊢
      rw [List.map_cons, walkWith] at h
      split at h
      · cases h
      · split at h
        · cases h
        · split at h
          · rename_i target hlink
            exact absurd hlink (hclear _ (List.prefix_append _ _) target)
          · exact ih hclear h

/-- A walk passes through directories. -/
theorem walkWith_of_dir {d rest : Loc} (cs : List Component)
    (h : t.get (d ++ rest) = some .dir) :
    walkWith t follow d (rest.map .normal ++ cs) = walkWith t follow (d ++ rest) cs := by
  induction rest generalizing d with
  | nil => simp
  | cons name rest ih =>
      have hstep : d ++ name :: rest = (d ++ [name]) ++ rest := by simp
      have hd : t.get d = some .dir := Tree.get_dir_of_above h (List.prefix_append _ _)
      rw [hstep] at h ⊢
      have hname : t.get (d ++ [name]) = some .dir :=
        Tree.get_dir_of_above h (List.prefix_append _ _)
      rw [List.map_cons, List.cons_append, walkWith, hd]
      simp only [reduceCtorEq, if_false, ne_eq, not_true_eq_false, land, hname]
      exact ih h

theorem walkWith_rootDir (cs : List Component) :
    walkWith t follow [] (.rootDir :: cs) = walkWith t follow [] cs := by
  rw [walkWith]
  simp [land]

theorem exists_walk_eq (t : Tree) (n : Nat) : ∃ follow, walk t n = walkWith t follow := by
  cases n with
  | zero => exact ⟨_, rfl⟩
  | succ n => exact ⟨_, rfl⟩

theorem locate_of_clear {q r : Loc} (hclear : Clear t q) (h : locate t (pathOf q) = .ok r) :
    r = q := by
  obtain ⟨follow, hwalk⟩ := exists_walk_eq t maxLinks
  rw [locate, hwalk, pathOf, walkWith_rootDir] at h
  exact walkWith_of_clear (d := []) hclear h

theorem locate_of_dir {q : Loc} (h : t.get q = some .dir) : locate t (pathOf q) = .ok q := by
  obtain ⟨follow, hwalk⟩ := exists_walk_eq t maxLinks
  have hpass : walkWith t follow [] (q.map .normal ++ []) = walkWith t follow q [] :=
    walkWith_of_dir [] h
  rw [List.append_nil] at hpass
  rw [locate, hwalk, pathOf, walkWith_rootDir, hpass]
  rfl

theorem canonicalize_of_dir {q : Loc} (h : t.get q = some .dir) :
    canonicalize t (pathOf q) = .ok q := by
  rw [canonicalize, locate_of_dir h]
  change (if t.get q = none then _ else _) = _
  rw [h, if_neg (by simp)]

theorem canonicalize_of_file {q : Loc} {content : Text} (h : t.get q = some (.file content)) :
    canonicalize t (pathOf q) = .ok q := by
  have hne : q ≠ [] := by
    rintro rfl
    simp at h
  obtain ⟨d, name, rfl⟩ : ∃ d name, q = d ++ [name] :=
    ⟨q.dropLast, q.getLast hne, (List.dropLast_append_getLast hne).symm⟩
  have hd : t.get d = some .dir := by simpa using Tree.get_dropLast h
  have hwalk : locate t (pathOf (d ++ [name])) = .ok (d ++ [name]) := by
    obtain ⟨follow, hfollow⟩ := exists_walk_eq t maxLinks
    have hpass : walkWith t follow [] (d.map .normal ++ [.normal name]) =
        walkWith t follow d [.normal name] := walkWith_of_dir [.normal name] hd
    rw [locate, hfollow, pathOf, List.map_append, List.map_singleton, walkWith_rootDir, hpass,
      walkWith, hd]
    simp only [reduceCtorEq, if_false, ne_eq, not_true_eq_false, land, h]
    rfl
  rw [canonicalize, hwalk]
  change (if t.get (d ++ [name]) = none then _ else _) = _
  rw [h, if_neg (by simp)]

theorem canonicalize_of_clear {q r : Loc} (hclear : Clear t q)
    (h : canonicalize t (pathOf q) = .ok r) : r = q := by
  obtain ⟨r', hr', hr⟩ := Results.bind_ok h
  split at hr
  · cases hr
  · cases hr
    exact locate_of_clear hclear hr'

theorem isDir_of_clear {q : Loc} (hclear : Clear t q) (h : isDir t (pathOf q) = true) :
    t.get q = some .dir := by
  unfold isDir at h
  split at h
  · rename_i r hr
    rw [canonicalize_of_clear hclear hr] at h
    simpa using h
  · cases h

theorem isDir_of_dir {q : Loc} (h : t.get q = some .dir) : isDir t (pathOf q) = true := by
  rw [isDir, canonicalize_of_dir h]
  simpa using h

/-- A link in a directory leads to where its target leads. -/
theorem canonicalize_link {d q : Loc} {name target : Text} (hd : t.get d = some .dir)
    (hlink : t.get (d ++ [name]) = some (.link target))
    (htarget : components target = pathOf q) (hq : t.get q = some .dir) :
    canonicalize t (pathOf (d ++ [name])) = .ok q := by
  have hwalk : locate t (pathOf (d ++ [name])) = .ok q := by
    obtain ⟨follow, hfollow⟩ := exists_walk_eq t 39
    have hpass : walkWith t (walk t 39) [] (d.map .normal ++ [.normal name]) =
        walkWith t (walk t 39) d [.normal name] := walkWith_of_dir [.normal name] hd
    change walkWith t (walk t 39) [] _ = _
    rw [pathOf, List.map_append, List.map_singleton, walkWith_rootDir, hpass, walkWith, hd]
    simp only [reduceCtorEq, if_false, ne_eq, not_true_eq_false, land, hlink, htarget,
      List.append_nil]
    have hroot : walkWith t follow [] (q.map .normal ++ []) = walkWith t follow q [] :=
      walkWith_of_dir [] hq
    rw [List.append_nil] at hroot
    rw [hfollow, pathOf, walkWith, hd]
    simp only [reduceCtorEq, if_false, ne_eq, not_true_eq_false, land, Tree.get_nil]
    rw [hroot]
    rfl
  rw [canonicalize, hwalk]
  change (if t.get q = none then _ else _) = _
  rw [hq, if_neg (by simp)]

theorem readDir_of_dir {q : Loc} (h : t.get q = some .dir) :
    readDir t (pathOf q) = .ok (t.children q) := by
  rw [readDir, canonicalize_of_dir h]
  change (if t.get q = some .dir then _ else _) = _
  rw [if_pos h]

theorem readDir_of_clear {q : Loc} {names : List Text} (hclear : Clear t q)
    (h : readDir t (pathOf q) = .ok names) : t.get q = some .dir ∧ names = t.children q := by
  obtain ⟨r, hr, hnames⟩ := Results.bind_ok h
  rw [canonicalize_of_clear hclear hr] at hnames
  split at hnames
  · rename_i hdir
    exact ⟨hdir, (Except.ok.inj hnames).symm⟩
  · cases hnames

theorem entry_of_clear {d r : Loc} {name : Text} (hclear : Clear t d)
    (h : entry t (pathOf (d ++ [name])) = .ok r) : r = d ++ [name] := by
  unfold entry at h
  rw [getLast?_pathOf_concat] at h
  simp only [dropLast_pathOf_concat] at h
  obtain ⟨d', hd', hr⟩ := Results.bind_ok h
  split at hr
  · cases hr
  · split at hr
    · cases hr
    · cases hr
      rw [locate_of_clear hclear hd']

theorem entry_of_dir {d : Loc} (name : Text) (h : t.get d = some .dir) :
    entry t (pathOf (d ++ [name])) = .ok (d ++ [name]) := by
  unfold entry
  rw [getLast?_pathOf_concat]
  simp only [dropLast_pathOf_concat]
  rw [locate_of_dir h]
  change (if t.get d = none then _ else _) = _
  rw [h, if_neg (by simp), if_neg (by simp)]

theorem makeNode_of_clear {d : Loc} {name : Text} {node : Node} (hclear : Clear t d)
    (h : makeNode t (pathOf (d ++ [name])) node = .ok t') : t.create d name node = .ok t' := by
  obtain ⟨name', d', hlast, hd', hcreate⟩ := makeNode_ok h
  rw [getLast?_pathOf_concat] at hlast
  cases hlast
  rw [dropLast_pathOf_concat] at hd'
  rwa [locate_of_clear hclear hd'] at hcreate

theorem makeNode_of_dir {d : Loc} (name : Text) (node : Node) (h : t.get d = some .dir) :
    makeNode t (pathOf (d ++ [name])) node = t.create d name node := by
  unfold makeNode
  rw [getLast?_pathOf_concat]
  simp only [dropLast_pathOf_concat]
  rw [locate_of_dir h]
  rfl

theorem makeNode_root (node : Node) : makeNode t (pathOf []) node = .error .alreadyExists := by
  change (do let _ ← canonicalize t (pathOf []); _) = _
  rw [canonicalize_of_dir (Tree.get_nil t)]
  rfl

theorem createDirAll_of_dir {q : Loc} (h : t.get q = some .dir) :
    createDirAll t (pathOf q) = .ok t := by
  have hmk : mkdir t (pathOf q) = .error .alreadyExists := by
    cases q using List.reverseRecOn with
    | nil => exact makeNode_root _
    | append_singleton d name =>
        have hd : t.get d = some .dir := by simpa using Tree.get_dropLast h
        have hfree : ¬ t.get (d ++ [name]) = none := by simp [h]
        rw [mkdir, makeNode_of_dir name _ hd, Tree.create, dif_pos hd, dif_neg hfree]
  cases hup : (pathOf q).reverse with
  | nil => simp [pathOf] at hup
  | cons c up =>
      have hp : (c :: up).reverse = pathOf q := by rw [← hup, List.reverse_reverse]
      rw [createDirAll, hup, createDirAllUp]
      simp only [hp, hmk, isDir_of_dir h, if_true]

/-- Creating the directories of a clear path makes its end a directory. -/
theorem createDirAll_of_clear {q : Loc} (hclear : Clear t q)
    (h : createDirAll t (pathOf q) = .ok t') : t'.get q = some .dir := by
  obtain ⟨hgrow, hnil | ⟨s, hs, hmk⟩ | hdir⟩ := createDirAllUp_ok h
  · simp [pathOf] at hnil
  · rw [List.reverse_reverse] at hmk
    cases q using List.reverseRecOn with
    | nil => exact Tree.get_nil t'
    | append_singleton d name =>
        have hs' : Clear s d := (hclear.of_grows hs).of_above (List.prefix_append _ _)
        obtain ⟨-, -, hget⟩ := Tree.create_ok (makeNode_of_clear hs' hmk)
        rw [hget, if_pos rfl]
  · rw [List.reverse_reverse] at hdir
    exact isDir_of_clear (hclear.of_grows hgrow) hdir

/-- Creating the directories of a clear path touches nothing beside the path. -/
theorem get_createDirAll {q : Loc} (hclear : Clear t q)
    (h : createDirAll t (pathOf q) = .ok t') {r : Loc} (hr : ¬ r <+: q) :
    t'.get r = t.get r := by
  induction q using List.reverseRecOn generalizing t' with
  | nil =>
      rw [createDirAll_of_dir (Tree.get_nil t)] at h
      cases h
      rfl
  | append_singleton d name ih =>
      have hcleard : Clear t d := hclear.of_above (List.prefix_append _ _)
      have hrd : ¬ r <+: d := fun hp => hr (hp.trans (List.prefix_append _ _))
      have hup : (pathOf (d ++ [name])).reverse = .normal name :: (pathOf d).reverse := by
        simp [pathOf]
      have hmk : ∀ {s s' : Tree}, Clear s d → mkdir s (pathOf (d ++ [name])) = .ok s' →
          s'.get r = s.get r := by
        intro s s' hs hmk
        obtain ⟨-, -, hget⟩ := Tree.create_ok (makeNode_of_clear hs hmk)
        rw [hget, if_neg]
        rintro rfl
        exact hr (List.prefix_rfl)
      rw [createDirAll, hup, createDirAllUp, ← hup, List.reverse_reverse] at h
      simp only [reduceCtorEq, if_false] at h
      split at h
      · rename_i s hs
        cases h
        exact hmk hcleard hs
      · obtain ⟨s, hs, hlast⟩ := Results.bind_ok h
        have hsame := ih hcleard hs hrd
        have hcs : Clear s d := hcleard.of_grows (createDirAllUp_ok hs).1
        split at hlast
        · rename_i s' hs'
          cases hlast
          rw [hmk hcs hs', hsame]
        · split at hlast
          · cases hlast
            exact hsame
          · cases hlast
      · split at h
        · cases h
          rfl
        · cases h

end Direct

section Change

/-- Nodes are lost only where `cleared` holds, and links are new only where
`linked` holds. -/
structure Changes (cleared : Loc → Prop) (linked : Loc → Text → Prop) (t t' : Tree) : Prop where
  kept : ∀ q node, t.get q = some node → ¬ cleared q → t'.get q = some node
  links : ∀ q target, t'.get q = some (.link target) →
    t.get q = some (.link target) ∨ linked q target

variable {cleared : Loc → Prop} {linked : Loc → Text → Prop} {t t' t'' : Tree}

theorem Grows.changes (h : Grows t t') : Changes cleared linked t t' :=
  ⟨fun q node hq _ => h.kept q node hq, fun q target hq => Or.inl (h.noLink q target hq)⟩

theorem Changes.trans (h : Changes cleared linked t t') (h' : Changes cleared linked t' t'') :
    Changes cleared linked t t'' := by
  constructor
  · intro q node hq hc
    exact h'.kept q node (h.kept q node hq hc) hc
  · intro q target hq
    rcases h'.links q target hq with hq' | hl
    · exact h.links q target hq'
    · exact Or.inr hl

theorem Changes.of_remove {d : Loc} (hd : d ≠ []) (hc : ∀ q, d <+: q → cleared q) :
    Changes cleared linked t (t.remove d) := by
  constructor
  · intro q node hq hnot
    rw [Tree.get_remove t hd, if_neg fun hp => hnot (hc q hp), hq]
  · intro q target hq
    rw [Tree.get_remove t hd] at hq
    split at hq
    · cases hq
    · exact Or.inl hq

theorem Changes.of_create {d : Loc} {name target : Text}
    (h : t.create d name (.link target) = .ok t') (hl : linked (d ++ [name]) target) :
    Changes cleared linked t t' := by
  obtain ⟨-, hfree, hget⟩ := Tree.create_ok h
  constructor
  · intro q node hq _
    rw [hget, if_neg, hq]
    rintro rfl
    rw [hfree] at hq
    cases hq
  · intro q target' hq
    rw [hget] at hq
    split at hq
    · rename_i hcell
      cases hq
      rw [hcell]
      exact Or.inr hl
    · exact Or.inl hq

theorem removeFile_ok {p : List Component} (h : removeFile t p = .ok t') :
    ∃ q, entry t p = .ok q ∧ q ≠ [] ∧ t' = t.remove q := by
  obtain ⟨q, hq, hremove⟩ := Results.bind_ok h
  have hne : t.get q ≠ some .dir := by
    intro hdir
    simp [hdir] at hremove
  refine ⟨q, hq, fun hnil => hne (by rw [hnil]; rfl), ?_⟩
  split at hremove
  · cases hremove
  · cases hremove
  · cases hremove
    rfl

theorem removeDirAll_ok {p : List Component} (h : removeDirAll t p = .ok t') :
    ∃ q, entry t p = .ok q ∧ q ≠ [] ∧ t' = t.remove q := by
  obtain ⟨q, hq, hremove⟩ := Results.bind_ok h
  split at hremove
  · cases hremove
  · cases hremove
  · split at hremove
    · cases hremove
    · rename_i hnil
      cases hremove
      exact ⟨q, hq, hnil, rfl⟩

theorem removeDir_ok {p : List Component} (h : removeDir t p = .ok t') :
    ∃ q, entry t p = .ok q ∧ q ≠ [] ∧ t' = t.remove q := by
  obtain ⟨q, hq, hremove⟩ := Results.bind_ok h
  split at hremove
  · cases hremove
  · split at hremove
    · cases hremove
    · rename_i hnil
      split at hremove
      · cases hremove
        exact ⟨q, hq, hnil, rfl⟩
      · cases hremove
  · cases hremove

end Change

section Paths

/-- A path text that names a location directly. -/
def LeadsTo (p : Text) (q : Loc) : Prop := components p = pathOf q

instance (p : Text) (q : Loc) : Decidable (LeadsTo p q) :=
  inferInstanceAs (Decidable (components p = pathOf q))

theorem LeadsTo.unique {p : Text} {q r : Loc} (hq : LeadsTo p q) (hr : LeadsTo p r) : q = r :=
  pathOf_injective (hq.symm.trans hr)

theorem leadsTo_iff {p : Text} {q : Loc} :
    LeadsTo p q ↔ isAbsolute p = true ∧ body p = q.map .normal := by
  unfold LeadsTo pathOf components
  constructor
  · intro h
    split at h
    · rename_i habs
      exact ⟨habs, (List.cons.inj h).2⟩
    · split at h
      · cases (List.cons.inj h).1
      · have hroot : Component.rootDir ∈ body p := by
          rw [h]
          exact List.mem_cons_self
        exact absurd hroot (rootDir_notMem_body p)
  · rintro ⟨habs, hbody⟩
    rw [if_pos habs, hbody]

theorem LeadsTo.join {dir path : Text} {q r : Loc} (h : LeadsTo dir q)
    (habs : isAbsolute path = false) (hbody : body path = r.map .normal) :
    LeadsTo (join dir path) (q ++ r) := by
  rw [leadsTo_iff] at h ⊢
  rw [Path.join, isAbsolute_push dir path habs, body_push dir path habs, h.2, hbody]
  exact ⟨h.1, (List.map_append).symm⟩

end Paths

end Npnpm.FileTree
