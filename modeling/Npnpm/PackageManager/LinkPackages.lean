import Npnpm.Library.FileTree
import Npnpm.PackageManager.Fetch
import Npnpm.Tarball.Extract

/-!
# Linking packages

The functions that write `node_modules`: `symlink_package`, `link_file`,
`create_cas_files` and `sync_direct_dependency_links`. Each is followed by what
it may change in a file tree.

## Implementation notes

Links and directories are compared as components, as `PathBuf` compares them.
The links of one package are made in parallel by the source; they stand at
different places and share at most the directory of a scope, which each of them
creates only when it is missing.
-/

namespace Npnpm

open Npnpm.Path Npnpm.FileTree

section SymlinkPackage

inductive SymlinkPackageError
  | createParentDir (dir : List Component) (error : IoError)
  | symlinkDir (symlinkTarget symlinkPath : Text) (error : IoError)
  | removeStalePath (path : Text) (error : IoError)
deriving DecidableEq

/-- The symlink of `symlink_package`; a path that is taken is left alone. -/
def symlinkDir (t : Tree) (symlinkTarget symlinkPath : Text) : Except SymlinkPackageError Tree :=
  match symlink t symlinkTarget (components symlinkPath) with
  | .ok t' => .ok t'
  | .error .alreadyExists => .ok t
  | .error error => .error (.symlinkDir symlinkTarget symlinkPath error)

def removeStale (t : Tree) (path : List Component) : Except IoError Tree := do
  let metadata ← symlinkMetadata t path
  match metadata with
  | .dir => removeDirAll t path
  | _ => removeFile t path

/-- What `symlink_package` does once the parent directory is there. -/
def replaceLink (t : Tree) (symlinkTarget symlinkPath : Text) :
    Except SymlinkPackageError Tree :=
  let path := components symlinkPath
  if pathExists t path then
    if (canonicalize t path).toOption = (canonicalize t (components symlinkTarget)).toOption then
      .ok t
    else do
      let t' ← (removeStale t path).mapError (.removeStalePath symlinkPath)
      symlinkDir t' symlinkTarget symlinkPath
  else symlinkDir t symlinkTarget symlinkPath

def symlinkPackage (t : Tree) (symlinkTarget symlinkPath : Text) :
    Except SymlinkPackageError Tree := do
  let t' ← match parent (components symlinkPath) with
    | some dir => (createDirAll t dir).mapError (.createParentDir dir)
    | none => .ok t
  replaceLink t' symlinkTarget symlinkPath

theorem removeStale_ok {t t' : Tree} {path : List Component} (h : removeStale t path = .ok t') :
    ∃ q, entry t path = .ok q ∧ q ≠ [] ∧ t' = t.remove q := by
  obtain ⟨metadata, -, hremove⟩ := Results.bind_ok h
  split at hremove
  · exact removeDirAll_ok hremove
  · exact removeFile_ok hremove

variable {t t' : Tree} {symlinkTarget symlinkPath : Text} {d : Loc} {name : Text}

/-- Either the link is made, or its place is taken. -/
theorem symlinkDir_ok (hpath : LeadsTo symlinkPath (d ++ [name])) (hd : t.get d = some .dir)
    (h : symlinkDir t symlinkTarget symlinkPath = .ok t') :
    t.create d name (.link symlinkTarget) = .ok t' ∨
      t' = t ∧ t.get (d ++ [name]) ≠ none := by
  unfold symlinkDir symlink at h
  rw [hpath, makeNode_of_dir name _ hd] at h
  split at h
  · rename_i s hs
    cases h
    exact Or.inl hs
  · rename_i herror
    cases h
    refine Or.inr ⟨rfl, fun hfree => ?_⟩
    rw [Tree.create, dif_pos hd, dif_pos hfree] at herror
    cases herror
  · cases h

/-- The ways in which a link step ends: the path already led where the target
leads, the link was made at a free place, it was made after removing what stood
there, or a dangling link stands there. -/
inductive LinkOutcome (t : Tree) (d : Loc) (name target : Text) (same : Prop) : Tree → Prop
  | kept (hsame : same) (htaken : t.get (d ++ [name]) ≠ none) : LinkOutcome t d name target same t
  | made {s : Tree} (h : t.create d name (.link target) = .ok s) :
      LinkOutcome t d name target same s
  | replaced {s : Tree} (hnot : ¬ same) (htaken : t.get (d ++ [name]) ≠ none)
      (h : (t.remove (d ++ [name])).create d name (.link target) = .ok s) :
      LinkOutcome t d name target same s
  | dangling (hnot : pathExists t (pathOf (d ++ [name])) = false)
      (htaken : t.get (d ++ [name]) ≠ none) : LinkOutcome t d name target same t

theorem get_ne_none_of_pathExists (hclear : Clear t d)
    (h : pathExists t (pathOf (d ++ [name])) = true) : t.get (d ++ [name]) ≠ none := by
  intro hfree
  have hclear' := hclear.concat_of_free hfree
  unfold pathExists at h
  cases hcan : canonicalize t (pathOf (d ++ [name])) with
  | error e => simp [hcan, Except.isOk, Except.toBool] at h
  | ok q =>
      obtain ⟨r, hr, hq⟩ := Results.bind_ok hcan
      rw [locate_of_clear hclear' hr, hfree] at hq
      cases hq

/-- Every successful link step ends in one of these ways. -/
theorem replaceLink_ok (hpath : LeadsTo symlinkPath (d ++ [name])) (hd : t.get d = some .dir)
    (h : replaceLink t symlinkTarget symlinkPath = .ok t') :
    LinkOutcome t d name symlinkTarget
      ((canonicalize t (components symlinkPath)).toOption =
        (canonicalize t (components symlinkTarget)).toOption) t' := by
  unfold replaceLink at h
  simp only at h
  split at h
  · rename_i hexists
    rw [hpath] at hexists
    have htaken := get_ne_none_of_pathExists (clear_of_dir hd) hexists
    split at h
    · rename_i hsame
      cases h
      exact .kept hsame htaken
    · rename_i hnot
      obtain ⟨s, hs, hlink⟩ := Results.bind_ok h
      obtain ⟨q, hq, hne, rfl⟩ := removeStale_ok (Results.mapError_ok hs)
      rw [hpath, entry_of_dir name hd] at hq
      cases hq
      have hds : (t.remove (d ++ [name])).get d = some .dir := by
        rw [Tree.get_remove t hne, if_neg (not_concat_above d name), hd]
      rcases symlinkDir_ok hpath hds hlink with hmade | ⟨-, hfree⟩
      · exact .replaced hnot htaken hmade
      · rw [Tree.get_remove t hne, if_pos List.prefix_rfl] at hfree
        exact absurd rfl hfree
  · rename_i hexists
    rw [Bool.not_eq_true, hpath] at hexists
    rcases symlinkDir_ok hpath hd h with hmade | ⟨rfl, htaken⟩
    · exact .made hmade
    · exact .dangling hexists htaken

/-- A link step creates the parent directories and then settles its link. -/
theorem symlinkPackage_ok (hpath : LeadsTo symlinkPath (d ++ [name])) (hclear : Clear t d)
    (h : symlinkPackage t symlinkTarget symlinkPath = .ok t') :
    ∃ s, createDirAll t (pathOf d) = .ok s ∧ s.get d = some .dir ∧
      LinkOutcome s d name symlinkTarget
        ((canonicalize s (components symlinkPath)).toOption =
          (canonicalize s (components symlinkTarget)).toOption) t' := by
  have hparent : parent (components symlinkPath) = some (pathOf d) := by
    unfold parent
    rw [hpath, getLast?_pathOf_concat, dropLast_pathOf_concat]
  unfold symlinkPackage at h
  rw [hparent] at h
  obtain ⟨s, hs, hlink⟩ := Results.bind_ok h
  have hmk := Results.mapError_ok hs
  have hd := createDirAll_of_clear hclear hmk
  exact ⟨s, hmk, hd, replaceLink_ok hpath hd hlink⟩

/-- Whatever stood there, something stands at the path of a link step after it. -/
theorem LinkOutcome.taken {target : Text} {same : Prop}
    (h : LinkOutcome t d name target same t') : t'.get (d ++ [name]) ≠ none := by
  cases h with
  | kept _ htaken => exact htaken
  | made h =>
      obtain ⟨-, -, hget⟩ := Tree.create_ok h
      rw [hget, if_pos rfl]
      simp
  | replaced _ _ h =>
      obtain ⟨-, -, hget⟩ := Tree.create_ok h
      rw [hget, if_pos rfl]
      simp
  | dangling _ htaken => exact htaken

theorem LinkOutcome.changes {target : Text} {same : Prop}
    {cleared : Loc → Prop} {linked : Loc → Text → Prop}
    (h : LinkOutcome t d name target same t') (hc : ∀ q, d ++ [name] <+: q → cleared q)
    (hl : linked (d ++ [name]) target) : Changes cleared linked t t' := by
  cases h with
  | kept _ _ => exact (Grows.refl t).changes
  | made h => exact .of_create h hl
  | replaced _ _ h => exact (Changes.of_remove (by simp) hc).trans (.of_create h hl)
  | dangling _ _ => exact (Grows.refl t).changes

/-- A link step removes nothing but what stands at its path, and makes no link
but its own. -/
theorem symlinkPackage_changes {cleared : Loc → Prop} {linked : Loc → Text → Prop}
    (hpath : LeadsTo symlinkPath (d ++ [name])) (hclear : Clear t d)
    (h : symlinkPackage t symlinkTarget symlinkPath = .ok t')
    (hc : ∀ q, d ++ [name] <+: q → cleared q) (hl : linked (d ++ [name]) symlinkTarget) :
    Changes cleared linked t t' := by
  obtain ⟨s, hs, -, hout⟩ := symlinkPackage_ok hpath hclear h
  exact (Grows.of_createDirAll hs).changes.trans (hout.changes hc hl)

/-- A link step leaves a directory alone when its target leads there. -/
theorem symlinkPackage_same (hpath : LeadsTo symlinkPath (d ++ [name]))
    (hdir : t.get (d ++ [name]) = some .dir)
    (hsame : (canonicalize t (components symlinkPath)).toOption =
      (canonicalize t (components symlinkTarget)).toOption)
    (h : symlinkPackage t symlinkTarget symlinkPath = .ok t') : t' = t := by
  have hd : t.get d = some .dir := Tree.get_dir_of_above hdir (List.prefix_append _ _)
  obtain ⟨s, hs, -, hout⟩ := symlinkPackage_ok hpath (clear_of_dir hd) h
  rw [createDirAll_of_dir hd] at hs
  cases hs
  cases hout with
  | kept _ _ => rfl
  | made h =>
      obtain ⟨-, hfree, -⟩ := Tree.create_ok h
      rw [hdir] at hfree
      cases hfree
  | replaced hnot _ _ => exact absurd hsame hnot
  | dangling _ _ => rfl

/-- What may stand at the path of a link step so that the link stands there after
it: nothing, the link itself, or something that leads elsewhere. -/
def Replaceable (t : Tree) (symlinkTarget symlinkPath : Text) : Prop :=
  (symlinkMetadata t (components symlinkPath)).toOption = none ∨
    (symlinkMetadata t (components symlinkPath)).toOption = some (.link symlinkTarget) ∨
    pathExists t (components symlinkPath) = true ∧
      (canonicalize t (components symlinkPath)).toOption ≠
        (canonicalize t (components symlinkTarget)).toOption

instance (t : Tree) (symlinkTarget symlinkPath : Text) :
    Decidable (Replaceable t symlinkTarget symlinkPath) :=
  inferInstanceAs (Decidable (_ ∨ _ ∨ _ ∧ _))

theorem symlinkMetadata_of_get {node : Node} (hd : t.get d = some .dir)
    (h : t.get (d ++ [name]) = some node) :
    symlinkMetadata t (pathOf (d ++ [name])) = .ok node := by
  rw [symlinkMetadata, entry_of_dir name hd]
  simp only [bind, Except.bind, h]

theorem get_of_symlinkMetadata (hclear : Clear t d) {node : Node}
    (h : (symlinkMetadata t (pathOf (d ++ [name]))).toOption = some node) :
    t.get (d ++ [name]) = some node := by
  cases hmeta : symlinkMetadata t (pathOf (d ++ [name])) with
  | error _ =>
      rw [hmeta] at h
      cases h
  | ok other =>
      rw [hmeta] at h
      obtain ⟨r, hr, hnode⟩ := Results.bind_ok hmeta
      rw [entry_of_clear hclear hr] at hnode
      split at hnode
      · rename_i found hfound
        cases hnode
        rw [hfound]
        exact h
      · cases hnode

/-- After a link step from such a state the link stands at its path. -/
theorem symlinkPackage_link (hpath : LeadsTo symlinkPath (d ++ [name])) (hclear : Clear t d)
    (hplace : Replaceable t symlinkTarget symlinkPath)
    (h : symlinkPackage t symlinkTarget symlinkPath = .ok t') :
    t'.get (d ++ [name]) = some (.link symlinkTarget) := by
  obtain ⟨s, hs, hd, hout⟩ := symlinkPackage_ok hpath hclear h
  have hsame := get_createDirAll hclear hs (not_concat_above d name)
  have htaken : s.get (d ++ [name]) ≠ none →
      s = t ∧ (t.get (d ++ [name]) = some (.link symlinkTarget) ∨
        pathExists t (pathOf (d ++ [name])) = true ∧
          (canonicalize t (components symlinkPath)).toOption ≠
            (canonicalize t (components symlinkTarget)).toOption) := by
    intro hne
    rw [hsame] at hne
    obtain ⟨node, hnode⟩ := Option.ne_none_iff_exists'.mp hne
    have hdt : t.get d = some .dir := by simpa using Tree.get_dropLast hnode
    rw [createDirAll_of_dir hdt] at hs
    cases hs
    have hmeta := symlinkMetadata_of_get hdt hnode
    rw [← hpath] at hmeta
    refine ⟨rfl, ?_⟩
    rcases hplace with hnone | hlink | ⟨hexists, hdiff⟩
    · rw [hmeta] at hnone
      cases hnone
    · rw [hmeta] at hlink
      cases hlink
      exact Or.inl hnode
    · rw [hpath] at hexists
      exact Or.inr ⟨hexists, hdiff⟩
  cases hout with
  | kept hsamePlace ht =>
      obtain ⟨rfl, hnode | ⟨-, hdiff⟩⟩ := htaken ht
      · exact hnode
      · exact absurd hsamePlace hdiff
  | made h =>
      obtain ⟨-, -, hget⟩ := Tree.create_ok h
      rw [hget, if_pos rfl]
  | replaced _ _ h =>
      obtain ⟨-, -, hget⟩ := Tree.create_ok h
      rw [hget, if_pos rfl]
  | dangling hnot ht =>
      obtain ⟨rfl, hnode | ⟨hexists, -⟩⟩ := htaken ht
      · exact hnode
      · rw [hnot] at hexists
        cases hexists

/-- From any other state a link step leaves everything as it is. -/
theorem symlinkPackage_stays (hpath : LeadsTo symlinkPath (d ++ [name])) (hclear : Clear t d)
    (hplace : ¬Replaceable t symlinkTarget symlinkPath)
    (h : symlinkPackage t symlinkTarget symlinkPath = .ok t') :
    t' = t ∧ t.get (d ++ [name]) ≠ some (.link symlinkTarget) := by
  obtain ⟨hmeta, hlink, hsame⟩ : (symlinkMetadata t (components symlinkPath)).toOption ≠ none ∧
      (symlinkMetadata t (components symlinkPath)).toOption ≠ some (.link symlinkTarget) ∧
      ¬(pathExists t (components symlinkPath) = true ∧
        (canonicalize t (components symlinkPath)).toOption ≠
          (canonicalize t (components symlinkTarget)).toOption) := by
    simpa only [Replaceable, not_or] using hplace
  obtain ⟨node, hnode⟩ := Option.ne_none_iff_exists'.mp hmeta
  rw [hnode] at hlink
  rw [hpath] at hnode
  have htaken := get_of_symlinkMetadata hclear hnode
  have hd : t.get d = some .dir := by simpa using Tree.get_dropLast htaken
  have hparent : parent (components symlinkPath) = some (pathOf d) := by
    rw [parent, hpath, getLast?_pathOf_concat, dropLast_pathOf_concat]
  rw [symlinkPackage, hparent] at h
  simp only [createDirAll_of_dir hd] at h
  refine ⟨?_, fun heq => hlink (htaken.symm.trans heq)⟩
  change replaceLink t symlinkTarget symlinkPath = .ok t' at h
  unfold replaceLink at h
  simp only at h
  split at h
  · rename_i hexists
    rw [if_pos (not_not.mp fun hne => hsame ⟨hexists, hne⟩)] at h
    exact (Except.ok.inj h).symm
  · rcases symlinkDir_ok hpath hd h with hmade | ⟨heq, -⟩
    · obtain ⟨-, hfree, -⟩ := Tree.create_ok hmade
      rw [htaken] at hfree
      cases hfree
    · exact heq

/-- A link step replaces a directory when its target leads elsewhere. -/
theorem symlinkPackage_replaces (hpath : LeadsTo symlinkPath (d ++ [name]))
    (hdir : t.get (d ++ [name]) = some .dir)
    (hnot : (canonicalize t (components symlinkPath)).toOption ≠
      (canonicalize t (components symlinkTarget)).toOption)
    (h : symlinkPackage t symlinkTarget symlinkPath = .ok t') :
    t'.get (d ++ [name]) = some (.link symlinkTarget) := by
  have hd : t.get d = some .dir := Tree.get_dir_of_above hdir (List.prefix_append _ _)
  refine symlinkPackage_link hpath (clear_of_dir hd) (Or.inr (Or.inr ⟨?_, hnot⟩)) h
  rw [pathExists, hpath, canonicalize_of_dir hdir]
  rfl

end SymlinkPackage

section CreateCasFiles

inductive CreateCasFilesError
  | createDir (dirname : List Component) (error : IoError)
  | createLink (source target : Text) (method : PackageImportMethod) (error : IoError)
deriving DecidableEq

/-- A hard link or a reflink: a new name that must be free. -/
def importNew (t : Tree) (sourceFile targetLink : Text) : Except IoError Tree := do
  let content ← readFile t (components sourceFile)
  makeNode t (components targetLink) (.file content)

/-- `fs::copy`, which writes through a link whose target is missing. -/
def importCopy (t : Tree) (sourceFile targetLink : Text) : Except IoError Tree := do
  let content ← readFile t (components sourceFile)
  makeTarget t (components targetLink) (.file content)

def importOrCopy (t : Tree) (sourceFile targetLink : Text) : Except IoError Tree :=
  match importNew t sourceFile targetLink with
  | .ok t' => .ok t'
  | .error _ => importCopy t sourceFile targetLink

def linkFile (importMethod : PackageImportMethod) (t : Tree) (sourceFile targetLink : Text) :
    Except CreateCasFilesError Tree :=
  if pathExists t (components targetLink) then .ok t
  else
    let importResult := match importMethod with
      | .auto => importOrCopy t sourceFile targetLink
      | .hardlink => importNew t sourceFile targetLink
      | .copy => importCopy t sourceFile targetLink
      | .clone => importNew t sourceFile targetLink
      | .cloneOrCopy => importOrCopy t sourceFile targetLink
    importResult.mapError (.createLink sourceFile targetLink importMethod)

/-- The order in which a `BTreeSet` keeps paths: component by component. -/
def Component.rank : Component → Nat
  | .rootDir => 0
  | .curDir => 1
  | .parentDir => 2
  | .normal _ => 3

def Component.lt : Component → Component → Bool
  | .normal a, .normal b => List.lex a b fun c d => c < d
  | a, b => Component.rank a < Component.rank b

def insertPath (p : List Component) : List (List Component) → List (List Component)
  | [] => [p]
  | q :: rest =>
      if p = q then q :: rest
      else if List.lex p q Component.lt then p :: q :: rest
      else q :: insertPath p rest

/-- The directories that the files of a package need, below `dirPath`. -/
def parentDirs (dirPath : Text) (casPaths : CasPaths) : List (List Component) :=
  casPaths.keys.foldl
    (fun dirs cleanedEntry =>
      match parent (components cleanedEntry) with
      | none => dirs
      | some [] => dirs
      | some parent => insertPath (joinComponents (components dirPath) parent) dirs)
    []

def createCasFiles (importMethod : PackageImportMethod) (t : Tree) (dirPath : Text)
    (casPaths : CasPaths) : Except CreateCasFilesError Tree :=
  if pathExists t (components dirPath) then .ok t
  else do
    let t' ← (createDirAll t (components dirPath)).mapError (.createDir (components dirPath))
    let t'' ← (parentDirs dirPath casPaths).foldlM
      (fun t dir => (createDirAll t dir).mapError (.createDir dir)) t'
    casPaths.entries.foldlM (fun t e => linkFile importMethod t e.2 (join dirPath e.1)) t''

variable {t t' : Tree} {importMethod : PackageImportMethod}

theorem importNew_grows {source target : Text} (h : importNew t source target = .ok t') :
    Grows t t' := by
  obtain ⟨content, -, hmk⟩ := Results.bind_ok h
  exact .of_makeNode (by simp) hmk

theorem importCopy_grows {source target : Text} (h : importCopy t source target = .ok t') :
    Grows t t' := by
  obtain ⟨content, -, hmk⟩ := Results.bind_ok h
  exact .of_makeTarget (by simp) hmk

theorem importOrCopy_grows {source target : Text} (h : importOrCopy t source target = .ok t') :
    Grows t t' := by
  unfold importOrCopy at h
  split at h
  · rename_i hs
    cases h
    exact importNew_grows hs
  · exact importCopy_grows h

theorem linkFile_grows {source target : Text}
    (h : linkFile importMethod t source target = .ok t') : Grows t t' := by
  unfold linkFile at h
  split at h
  · cases h
    exact .refl t
  · have hres := Results.mapError_ok h
    cases importMethod with
    | auto => exact importOrCopy_grows hres
    | hardlink => exact importNew_grows hres
    | copy => exact importCopy_grows hres
    | clone => exact importNew_grows hres
    | cloneOrCopy => exact importOrCopy_grows hres

theorem grows_of_foldlM {α ε : Type} {f : Tree → α → Except ε Tree} {l : List α}
    (hf : ∀ a s s', f s a = .ok s' → Grows s s') (h : l.foldlM f t = .ok t') : Grows t t' :=
  Results.foldlM_invariant (fun s => Grows t s) h (.refl t)
    fun a _ s s' hgrow hs => hgrow.trans (hf a s s' hs)

/-- Importing files removes nothing and makes no link, wherever their names lead. -/
theorem createCasFiles_grows {dirPath : Text} {casPaths : CasPaths}
    (h : createCasFiles importMethod t dirPath casPaths = .ok t') : Grows t t' := by
  unfold createCasFiles at h
  split at h
  · cases h
    exact .refl t
  · obtain ⟨s₁, h₁, h⟩ := Results.bind_ok h
    obtain ⟨s₂, h₂, h₃⟩ := Results.bind_ok h
    have hdirs := grows_of_foldlM
      (fun _ _ _ hs => Grows.of_createDirAll (Results.mapError_ok hs)) h₂
    have hfiles := grows_of_foldlM (fun _ _ _ hs => linkFile_grows hs) h₃
    exact ((Grows.of_createDirAll (Results.mapError_ok h₁)).trans hdirs).trans hfiles

/-- After the import its directory is there, unless something else stood in its
place. -/
theorem createCasFiles_dir {dirPath : Text} {casPaths : CasPaths} {q : Loc}
    (hpath : LeadsTo dirPath q) (hclear : Clear t q)
    (hfree : ∀ content, t.get q ≠ some (.file content))
    (h : createCasFiles importMethod t dirPath casPaths = .ok t') : t'.get q = some .dir := by
  have hgrow := createCasFiles_grows h
  unfold createCasFiles at h
  split at h
  · rename_i hexists
    cases h
    rw [hpath] at hexists
    unfold pathExists at hexists
    cases hcan : canonicalize t (pathOf q) with
    | error e => simp [hcan, Except.isOk, Except.toBool] at hexists
    | ok r =>
        have hr := canonicalize_of_clear hclear hcan
        subst hr
        obtain ⟨r', hr', hnode⟩ := Results.bind_ok hcan
        split at hnode
        · cases hnode
        · rename_i hne
          cases hnode
          cases hget : t.get r with
          | none => exact absurd hget hne
          | some node =>
              cases node with
              | dir => rfl
              | file content => exact absurd hget (hfree content)
              | link target => exact absurd hget (hclear r List.prefix_rfl target)
  · obtain ⟨s₁, h₁, h⟩ := Results.bind_ok h
    obtain ⟨s₂, h₂, h₃⟩ := Results.bind_ok h
    have hmk := Results.mapError_ok h₁
    rw [hpath] at hmk
    have hdirs := grows_of_foldlM
      (fun _ _ _ hs => Grows.of_createDirAll (Results.mapError_ok hs)) h₂
    have hfiles := grows_of_foldlM (fun _ _ _ hs => linkFile_grows hs) h₃
    exact (hdirs.trans hfiles).kept q .dir (createDirAll_of_clear hclear hmk)

/-- After the import something stands at its path. -/
theorem createCasFiles_taken {dirPath : Text} {casPaths : CasPaths} {d : Loc} {name : Text}
    (hpath : LeadsTo dirPath (d ++ [name])) (hclear : Clear t d)
    (h : createCasFiles importMethod t dirPath casPaths = .ok t') :
    t'.get (d ++ [name]) ≠ none := by
  by_cases hfree : t.get (d ++ [name]) = none
  · rw [createCasFiles_dir hpath (hclear.concat_of_free hfree) (by simp [hfree]) h]
    simp
  · obtain ⟨node, hnode⟩ := Option.ne_none_iff_exists'.mp hfree
    rw [(createCasFiles_grows h).kept _ node hnode]
    simp

end CreateCasFiles

section SyncDirectDependencyLinks

inductive SyncDirectDependencyLinksError
  | readModulesDir (dir : List Component) (error : IoError)
  | readScopeDir (dir : List Component) (error : IoError)
  | removeDependencyPath (path : List Component) (error : IoError)
deriving DecidableEq

/-- What `read_dir` says of one entry of the modules directory: nothing for a
hidden one, its entries for the directory of a scope. -/
def directDependencyPaths (t : Tree) (modulesDir : List Component) (name : Text) :
    Except SyncDirectDependencyLinksError (List (Text × List Component)) :=
  let path := modulesDir ++ [.normal name]
  if name.head? = some '.' then .ok []
  else if name.head? = some '@' ∧ isDir t path then do
    let scopedNames ← (readDir t path).mapError (.readScopeDir path)
    .ok (scopedNames.map fun scopedName =>
      (name ++ '/' :: scopedName, path ++ [.normal scopedName]))
  else .ok [(name, path)]

def currentDirectDependencyPaths (t : Tree) (modulesDir : List Component) :
    Except SyncDirectDependencyLinksError (List (Text × List Component)) := do
  let names ← (readDir t modulesDir).mapError (.readModulesDir modulesDir)
  let packages ← names.mapM (directDependencyPaths t modulesDir)
  .ok packages.flatten

def removePath (t : Tree) (path : List Component) :
    Except SyncDirectDependencyLinksError Tree :=
  (removeStale t path).mapError (.removeDependencyPath path)

/-- One round of the loop: a path that is not wanted, and the directory of its
scope when that is left empty. -/
def syncPackage (modulesDir : List Component) (desired : List Text) (t : Tree)
    (package : Text × List Component) : Except SyncDirectDependencyLinksError Tree :=
  if package.1 ∈ desired then .ok t
  else do
    let t' ← removePath t package.2
    match parent package.2 with
    | none => .ok t'
    | some scopeDir =>
        if scopeDir ≠ modulesDir ∧ (readDir t' scopeDir).toOption = some [] then
          (removeDir t' scopeDir).mapError (.removeDependencyPath scopeDir)
        else .ok t'

def syncDirectDependencyLinks (t : Tree) (modulesDir : Text) (desiredPackages : List Text) :
    Except SyncDirectDependencyLinksError Tree :=
  let dir := components modulesDir
  if pathExists t dir then do
    let packages ← currentDirectDependencyPaths t dir
    packages.foldlM (syncPackage dir desiredPackages) t
  else .ok t

/-- What the synchronisation may remove: all but the hidden entries of the
modules directory. -/
def SyncZone (m q : Loc) : Prop := ∃ name rest, name.head? ≠ some '.' ∧ q = m ++ name :: rest

/-- The paths that the synchronisation looks at. -/
inductive DirectPath (m : Loc) : List Component → Prop
  | plain (name) (h : name.head? ≠ some '.') : DirectPath m (pathOf (m ++ [name]))
  | inScope (name scopedName) (h : name.head? = some '@') :
      DirectPath m (pathOf (m ++ [name] ++ [scopedName]))

theorem pathOf_concat (q : Loc) (name : Text) :
    pathOf q ++ [.normal name] = pathOf (q ++ [name]) := by
  simp [pathOf]

theorem directPath_of_mem {t : Tree} {m : Loc} {packages : List (Text × List Component)}
    (h : currentDirectDependencyPaths t (pathOf m) = .ok packages)
    {package : Text × List Component} (hp : package ∈ packages) : DirectPath m package.2 := by
  obtain ⟨names, -, h⟩ := Results.bind_ok h
  obtain ⟨lists, hlists, h⟩ := Results.bind_ok h
  cases h
  obtain ⟨list, hlist, hp⟩ := List.mem_flatten.mp hp
  obtain ⟨name, -, hname⟩ := Results.exists_of_mem_mapM hlists hlist
  unfold directDependencyPaths at hname
  simp only [pathOf_concat] at hname
  split at hname
  · cases hname
    simp at hp
  · rename_i hdot
    split at hname
    · rename_i hscope
      obtain ⟨scopedNames, -, hname⟩ := Results.bind_ok hname
      cases hname
      obtain ⟨scopedName, -, rfl⟩ := List.mem_map.mp hp
      exact .inScope name scopedName hscope.1
    · cases hname
      rw [List.mem_singleton] at hp
      rw [hp]
      exact .plain name hdot

/-- Nothing is added. -/
def Shrinks (t t' : Tree) : Prop := ∀ q node, t'.get q = some node → t.get q = some node

/-- No link stands on the way to the modules directory, nor in it under the name
of a scope. -/
structure ModulesClear (t : Tree) (m : Loc) : Prop where
  clear : Clear t m
  scopes : ∀ name target, name.head? = some '@' → t.get (m ++ [name]) ≠ some (.link target)

theorem ModulesClear.of_shrinks {t t' : Tree} {m : Loc} (h : ModulesClear t m)
    (hs : Shrinks t t') : ModulesClear t' m :=
  ⟨fun p hp target hlink => h.clear p hp target (hs p _ hlink),
    fun name target hname hlink => h.scopes name target hname (hs _ _ hlink)⟩

theorem ModulesClear.scope {t : Tree} {m : Loc} (h : ModulesClear t m) {name : Text}
    (hname : name.head? = some '@') : Clear t (m ++ [name]) := by
  intro p hp target hlink
  rcases List.prefix_concat_iff.mp hp with rfl | hpm
  · exact h.scopes name target hname hlink
  · exact h.clear p hpm target hlink

theorem shrinks_remove (t : Tree) {q : Loc} (hq : q ≠ []) : Shrinks t (t.remove q) := by
  intro r node hr
  rw [Tree.get_remove t hq] at hr
  split at hr
  · cases hr
  · exact hr

/-- A removal in the zone of the synchronisation. -/
theorem sync_remove {t : Tree} {m q : Loc} (hq : q ≠ []) (hzone : SyncZone m q) :
    Shrinks t (t.remove q) ∧ Changes (SyncZone m) (fun _ _ => False) t (t.remove q) := by
  refine ⟨shrinks_remove t hq, .of_remove hq fun r hr => ?_⟩
  obtain ⟨name, rest, hname, rfl⟩ := hzone
  obtain ⟨more, rfl⟩ := hr
  exact ⟨name, rest ++ more, hname, by simp⟩

theorem syncPackage_ok {t t' : Tree} {m : Loc} {desired : List Text}
    {package : Text × List Component} (hm : ModulesClear t m)
    (hpath : DirectPath m package.2)
    (h : syncPackage (pathOf m) desired t package = .ok t') :
    Shrinks t t' ∧ Changes (SyncZone m) (fun _ _ => False) t t' := by
  have hat : ∀ name : Text, name.head? = some '@' → name.head? ≠ some '.' := by
    intro name hname
    rw [hname]
    decide
  have hrefl : Shrinks t t ∧ Changes (SyncZone m) (fun _ _ => False) t t :=
    ⟨fun _ _ hq => hq, (Grows.refl t).changes⟩
  unfold syncPackage at h
  split at h
  · cases h
    exact hrefl
  · obtain ⟨s, hs, h⟩ := Results.bind_ok h
    obtain ⟨q, hq, hne, rfl⟩ := removeStale_ok (Results.mapError_ok hs)
    obtain ⟨dependency, path⟩ := package
    simp only at hq h hpath
    cases hpath with
    | plain name hname =>
        have hqe := entry_of_clear hm.clear hq
        subst hqe
        have hfirst := sync_remove (t := t) hne ⟨name, [], hname, rfl⟩
        have hparent : parent (pathOf (m ++ [name])) = some (pathOf m) := by
          rw [parent, getLast?_pathOf_concat, dropLast_pathOf_concat]
        simp only [hparent, ne_eq, not_true_eq_false, false_and, if_false] at h
        cases h
        exact hfirst
    | inScope name scopedName hname =>
        have hqe := entry_of_clear (hm.scope hname) hq
        subst hqe
        have hfirst := sync_remove (t := t) (m := m) hne
          ⟨name, [scopedName], hat name hname, by simp⟩
        have hparent : parent (pathOf (m ++ [name] ++ [scopedName])) =
            some (pathOf (m ++ [name])) := by
          rw [parent, getLast?_pathOf_concat, dropLast_pathOf_concat]
        simp only [hparent] at h
        split at h
        · obtain ⟨r, hr, hrne, rfl⟩ := removeDir_ok (Results.mapError_ok h)
          have hre := entry_of_clear (hm.of_shrinks hfirst.1).clear hr
          subst hre
          have hsecond := sync_remove (t := t.remove (m ++ [name] ++ [scopedName])) hrne
            ⟨name, [], hat name hname, rfl⟩
          exact ⟨fun q node hq => hfirst.1 q node (hsecond.1 q node hq),
            hfirst.2.trans hsecond.2⟩
        · cases h
          exact hfirst

/-- The synchronisation only removes, and only in its zone. -/
theorem syncDirectDependencyLinks_ok {t t' : Tree} {modulesDir : Text} {m : Loc}
    {desired : List Text} (hpath : LeadsTo modulesDir m) (hm : ModulesClear t m)
    (h : syncDirectDependencyLinks t modulesDir desired = .ok t') :
    Shrinks t t' ∧ Changes (SyncZone m) (fun _ _ => False) t t' := by
  unfold syncDirectDependencyLinks at h
  simp only [LeadsTo] at hpath
  simp only [hpath] at h
  split at h
  · obtain ⟨packages, hpackages, h⟩ := Results.bind_ok h
    refine Results.foldlM_invariant
      (fun s => Shrinks t s ∧ Changes (SyncZone m) (fun _ _ => False) t s) h
      ⟨fun _ _ hq => hq, (Grows.refl t).changes⟩ ?_
    rintro package hmem s s' ⟨hshrinks, hchanges⟩ hs
    obtain ⟨hshrinks', hchanges'⟩ :=
      syncPackage_ok (hm.of_shrinks hshrinks) (directPath_of_mem hpackages hmem) hs
    exact ⟨fun q node hq => hshrinks q node (hshrinks' q node hq), hchanges.trans hchanges'⟩
  · cases h
    exact ⟨fun _ _ hq => hq, (Grows.refl _).changes⟩

end SyncDirectDependencyLinks

end Npnpm
