import Npnpm.Tarball.StoreTree

/-!
# What a prune of the store removes

`StoreDir::prune` compares the paths that it lists with the paths that the indexes give. In a
store without links a file has one path, so what is removed is what no index lists, and what
an installation loads from the store is the same before and after. A link gives a file a
second path, under which it is not known.
-/

namespace Npnpm

open Npnpm.Path Npnpm.FileTree

namespace StoreDir

section Definitions

variable (I : Type) [StoreLibs I] (t : Tree) (storeDir : Text) (v : Loc)

def filesName : Text := "files".toList

def tmpName : Text := "tmp".toList

/-- Digests are written in hexadecimal. -/
def HexDigests : Prop := ∀ (integrity : I) algorithm hex,
  TarballLibs.toHex Text integrity = some (algorithm, hex) → IsHex hex

/-- Every listed integrity that parses has a digest of full length. -/
def FullDigests : Prop := ∀ info, Listed I t storeDir info → ∀ integrity : I,
  SsriParse.parse info.integrity = .ok integrity → ∃ algorithm hex,
    TarballLibs.toHex Text integrity = some (algorithm, hex) ∧
      hex.length = Algorithm.hexLength algorithm

/-- Every index file and every integrity in it can be parsed. -/
def AllParse : Prop := ∀ path, IsIndexFile t storeDir path → ∃ index, IndexAt I t path index ∧
  ∀ e ∈ index.files.entries, ∃ integrity : I, SsriParse.parse e.2.integrity = .ok integrity

/-- What is in place of the temporary directory can be listed. -/
def TmpReadable : Prop :=
  pathExists t (components (tmp storeDir)) = true → isDir t (components (tmp storeDir)) = true

/-- The directory of the store is at a location without links below, and the way to it does
not go through the temporary directory. -/
structure LinkFree : Prop where
  clear : NoLinksBelow t v
  leads : ∃ s, Holds s t ∧ (∀ name, s.get (v ++ [tmpName, name]) = none) ∧
    s.get v = some .dir ∧ canonicalize s (components (v3 storeDir)) = .ok v

/-- A file that is neither an index nor listed by one. -/
def Orphan (q : Loc) : Prop := ∃ head name contents, q = v ++ [filesName, head, name] ∧
  t.get q = some (.file contents) ∧ Prune.isIndexPath name = false ∧
    components (files storeDir) ++ [.normal head, .normal name] ∉ listedCasPaths I t storeDir

/-- Something in the temporary directory. -/
def InTmp (q : Loc) : Prop := ∃ name, v ++ [tmpName, name] <+: q

/-- A tree on the way of a prune. -/
structure Pruning (r : Tree) : Prop where
  holds : Holds r t
  kept : ∀ q, ¬ Orphan I t storeDir v q → ¬ InTmp v q → r.get q = t.get q

/-- What an installation loads from the store is the same, and the files are there. -/
def SameLoads (t' : Tree) : Prop :=
  ∀ call : DownloadTarballToStore I, call.storeDir = storeDir →
    loadFromStore call (storeView I t') = loadFromStore call (storeView I t) ∧
    ∀ casPaths, loadFromStore call (storeView I t) = .ok (some casPaths) →
      ∀ e ∈ casPaths.entries, ∀ contents, readFile t (components e.2) = .ok contents →
        readFile t' (components e.2) = .ok contents

end Definitions

section Paths

variable {t : Tree} {storeDir : Text} {v : Loc}

theorem v3_ne_nil (storeDir : Text) : v3 storeDir ≠ [] := by
  intro hnil
  have hlast : (v3 storeDir).getLast? = some '3' := getLast?_join rfl (by decide)
  rw [hnil] at hlast
  cases hlast

theorem join_v3 (storeDir : Text) {name : Text} (hname : isAbsolute name = false) :
    join (v3 storeDir) name = v3 storeDir ++ '/' :: name := by
  refine join_eq_of_relative ⟨v3_ne_nil storeDir, ?_⟩ hname
  have hlast : (v3 storeDir).getLast? = some '3' := getLast?_join rfl (by decide)
  rw [hlast]
  decide

theorem components_files (storeDir : Text) :
    components (files storeDir) = components (v3 storeDir) ++ [.normal filesName] := by
  rw [files, join_v3 storeDir rfl, components_append_slash (v3_ne_nil storeDir)]
  rfl

theorem components_tmp (storeDir : Text) :
    components (tmp storeDir) = components (v3 storeDir) ++ [.normal tmpName] := by
  rw [tmp, join_v3 storeDir rfl, components_append_slash (v3_ne_nil storeDir)]
  rfl

/-- The path of an entry below the directory of files. -/
theorem entry_path (storeDir head name : Text) :
    components (files storeDir) ++ [.normal head, .normal name] =
      components (v3 storeDir) ++ [filesName, head, name].map .normal := by
  rw [components_files]
  simp

end Paths

section Steps

variable {I : Type} [StoreLibs I] {t r : Tree} {storeDir : Text} {v : Loc}

theorem Pruning.refl : Pruning I t storeDir v t := ⟨fun _ _ h => h, fun _ _ _ => rfl⟩

theorem Orphan.file {q : Loc} (h : Orphan I t storeDir v q) :
    ∃ contents, t.get q = some (.file contents) := by
  obtain ⟨head, name, contents, -, hfile, -⟩ := h
  exact ⟨contents, hfile⟩

/-- What is in the directory of a head is an orphan when it is a file that is neither an
index nor listed. -/
theorem orphan_entry_iff {head name : Text} :
    Orphan I t storeDir v (v ++ [filesName, head, name]) ↔ ∃ contents,
      t.get (v ++ [filesName, head, name]) = some (.file contents) ∧
        Prune.isIndexPath name = false ∧ components (files storeDir) ++
          [.normal head, .normal name] ∉ listedCasPaths I t storeDir := by
  constructor
  · rintro ⟨head', name', contents, heq, hrest⟩
    have hnames := List.append_cancel_left heq
    simp only [List.cons.injEq, and_true, true_and] at hnames
    obtain ⟨rfl, rfl⟩ := hnames
    exact ⟨contents, hrest⟩
  · rintro ⟨contents, hrest⟩
    exact ⟨head, name, contents, rfl, hrest⟩

variable (hfree : LinkFree t storeDir v) (h : Pruning I t storeDir v r)

include hfree h

theorem Pruning.clear : NoLinksBelow r v := fun q target hq hlink =>
  hfree.clear q target hq (h.holds q _ hlink)

/-- The path of the store leads to the same place all the time. -/
theorem Pruning.leads : canonicalize r (components (v3 storeDir)) = .ok v := by
  obtain ⟨s, hs, htmp, hdir, hleads⟩ := hfree.leads
  have hkept : ∀ q node, s.get q = some node → (∀ contents, node ≠ .file contents) →
      r.get q = some node := by
    intro q node hq hno
    rw [h.kept q, hs q node hq]
    · intro horphan
      obtain ⟨contents, hfile⟩ := horphan.file
      rw [hs q node hq, Option.some.injEq] at hfile
      exact hno contents hfile
    · rintro ⟨name, hp⟩
      rw [Tree.get_eq_none_of_above (htmp name) hp] at hq
      cases hq
  exact canonicalize_of_ways (fun q hq => hkept q _ hq (by simp))
    (fun q target hq => hkept q _ hq (by simp)) hdir hleads

theorem Pruning.canonicalize_names {names : Loc} {node : Node}
    (hnode : r.get (v ++ names) = some node) :
    canonicalize r (components (v3 storeDir) ++ names.map .normal) = .ok (v ++ names) :=
  canonicalize_of_below (h.clear hfree) (h.leads hfree) hnode

theorem Pruning.of_canonicalize {names : Loc} {q : Loc}
    (hq : canonicalize r (components (v3 storeDir) ++ names.map .normal) = .ok q) :
    q = v ++ names :=
  canonicalize_below_ok (h.clear hfree) (h.leads hfree) hq

/-- What is an entry of the store is at the end of its names. -/
theorem Pruning.isFile_iff (names : Loc) :
    isFile r (components (v3 storeDir) ++ names.map .normal) = true ↔
      ∃ contents, r.get (v ++ names) = some (.file contents) := by
  rw [FileTree.isFile_iff]
  constructor
  · rintro ⟨q, contents, hq, hfile⟩
    rw [h.of_canonicalize hfree hq] at hfile
    exact ⟨contents, hfile⟩
  · rintro ⟨contents, hfile⟩
    exact ⟨_, contents, h.canonicalize_names hfree hfile, hfile⟩

theorem Pruning.isDir_iff (names : Loc) :
    isDir r (components (v3 storeDir) ++ names.map .normal) = true ↔
      r.get (v ++ names) = some .dir := by
  rw [FileTree.isDir_iff]
  constructor
  · rintro ⟨q, hq, hdir⟩
    rwa [h.of_canonicalize hfree hq] at hdir
  · exact fun hdir => ⟨_, h.canonicalize_names hfree hdir, hdir⟩

theorem Pruning.entry_eq (names : Loc) {name : Text} {node : Node}
    (hnode : r.get (v ++ names ++ [name]) = some node) :
    entry r (components (v3 storeDir) ++ names.map .normal ++ [.normal name]) =
      .ok (v ++ names ++ [name]) := by
  have hdir : r.get (v ++ names) = some .dir := by simpa using Tree.get_dropLast hnode
  exact entry_concat (h.canonicalize_names hfree hdir) hdir name

omit hfree h in
/-- The part of a prune that takes away one node below the store. -/
theorem Pruning.remove (h : Pruning I t storeDir v r) {q : Loc} (hne : q ≠ [])
    (hgone : ∀ p, q <+: p → r.get p ≠ none → Orphan I t storeDir v p ∨ InTmp v p) :
    Pruning I t storeDir v (r.remove q) := by
  refine ⟨fun p node hp => h.holds p node (Holds.of_remove r hne p node hp), ?_⟩
  intro p horphan htmp
  rw [← h.kept p horphan htmp, Tree.get_remove r hne]
  split
  · rename_i hp
    by_contra hsome
    rcases hgone p hp (Ne.symm hsome) with hgone | hgone
    · exact horphan hgone
    · exact htmp hgone
  · rfl

end Steps

section Files

variable {I : Type} [StoreLibs I] {t r : Tree} {storeDir : Text} {v : Loc}
  {referenced : List (List Component)}
  (hfree : LinkFree t storeDir v)
  (hreferenced : ∀ path, path ∈ referenced ↔ path ∈ listedCasPaths I t storeDir)

include hfree hreferenced

/-- One entry in the directory of a head: an orphan is gone, anything else is as it was. -/
theorem exists_removeOrphan (h : Pruning I t storeDir v r) (head name : Text) :
    ∃ r', removeOrphan referenced (components (files storeDir) ++ [.normal head]) r name =
        .ok r' ∧ Pruning I t storeDir v r' ∧ Holds r' r ∧
      (Orphan I t storeDir v (v ++ [filesName, head, name]) →
        r'.get (v ++ [filesName, head, name]) = none) := by
  have hpath : components (files storeDir) ++ [.normal head] ++ [.normal name] =
      components (v3 storeDir) ++ [filesName, head, name].map .normal := by
    rw [List.append_assoc]
    exact entry_path storeDir head name
  have hpath' : components (files storeDir) ++ [.normal head, .normal name] =
      components (v3 storeDir) ++ [filesName, head, name].map .normal :=
    entry_path storeDir head name
  unfold removeOrphan
  simp only [hpath]
  split
  · rename_i hskip
    refine ⟨r, rfl, h, fun _ _ hq => hq, ?_⟩
    intro horphan
    obtain ⟨contents, hfile, hindex, hnot⟩ := orphan_entry_iff.mp horphan
    rw [hpath'] at hnot
    rcases hskip with hskip | hskip | hskip
    · by_contra hsome
      obtain ⟨node, hnode⟩ := Option.ne_none_iff_exists'.mp hsome
      have hsame := h.holds _ _ hnode
      rw [hfile] at hsame
      cases hsame
      rw [(h.isFile_iff hfree _).mpr ⟨contents, hnode⟩] at hskip
      cases hskip
    · rw [hindex] at hskip
      cases hskip
    · exact absurd ((hreferenced _).mp hskip) hnot
  · rename_i hremove
    rw [not_or, not_or, Bool.not_eq_false, Bool.not_eq_true] at hremove
    obtain ⟨hisFile, hindex, hnot⟩ := hremove
    obtain ⟨contents, hfile⟩ := (h.isFile_iff hfree _).mp hisFile
    have horphan : Orphan I t storeDir v (v ++ [filesName, head, name]) := by
      refine orphan_entry_iff.mpr ⟨contents, h.holds _ _ hfile, hindex, ?_⟩
      rwa [hpath', ← hreferenced]
    have hne : v ++ [filesName, head, name] ≠ [] := by simp
    have hentry : entry r (components (v3 storeDir) ++ [filesName, head, name].map .normal) =
        .ok (v ++ [filesName, head, name]) := by
      have hnode : r.get (v ++ [filesName, head] ++ [name]) = some (.file contents) := by
        rw [List.append_assoc]
        exact hfile
      have hlast := h.entry_eq hfree [filesName, head] hnode
      simpa using hlast
    have hremoved : removeFile r (components (v3 storeDir) ++
        [filesName, head, name].map .normal) = .ok (r.remove (v ++ [filesName, head, name])) := by
      apply Results.ok_bind hentry
      rw [hfile]
    refine ⟨_, by rw [hremoved]; rfl, ?_, Holds.of_remove r hne, ?_⟩
    · refine h.remove hne fun p hp hsome => Or.inl ?_
      by_cases heq : v ++ [filesName, head, name] = p
      · exact heq ▸ horphan
      · -- nothing is below a file
        obtain ⟨node, hnode⟩ := Option.ne_none_iff_exists'.mp hsome
        have habove := Tree.get_of_above hnode hp heq
        rw [hfile] at habove
        cases habove
    · intro _
      rw [Tree.get_remove r hne, if_pos List.prefix_rfl]

theorem exists_removeOrphans (h : Pruning I t storeDir v r) (head : Text) (names : List Text) :
    ∃ r', names.foldlM (removeOrphan referenced (components (files storeDir) ++ [.normal head]))
        r = .ok r' ∧ Pruning I t storeDir v r' ∧ Holds r' r ∧
      ∀ name ∈ names, Orphan I t storeDir v (v ++ [filesName, head, name]) →
        r'.get (v ++ [filesName, head, name]) = none := by
  induction names generalizing r with
  | nil => exact ⟨r, rfl, h, fun _ _ hq => hq, fun name hname => absurd hname List.not_mem_nil⟩
  | cons name names ih =>
      obtain ⟨r₁, hr₁, h₁, hholds₁, hgone⟩ := exists_removeOrphan hfree hreferenced h head name
      obtain ⟨r', hr', h', hholds', hrest⟩ := ih h₁
      refine ⟨r', ?_, h', fun q node hq => hholds₁ q node (hholds' q node hq), ?_⟩
      · rw [List.foldlM_cons]
        exact Results.ok_bind hr₁ hr'
      · intro other hother horphan
        rcases List.mem_cons.mp hother with rfl | hother
        · exact hholds'.get_eq_none (hgone horphan)
        · exact hrest other hother horphan

/-- The directory of a head: no orphan is left in it. -/
theorem exists_removeOrphansOf (h : Pruning I t storeDir v r) (head : Text) :
    ∃ r', removeOrphansOf referenced (components (files storeDir)) r head = .ok r' ∧
      Pruning I t storeDir v r' ∧ Holds r' r ∧
      ∀ name, Orphan I t storeDir v (v ++ [filesName, head, name]) →
        r'.get (v ++ [filesName, head, name]) = none := by
  have hpath : components (files storeDir) ++ [.normal head] =
      components (v3 storeDir) ++ [filesName, head].map .normal := by
    rw [components_files]
    simp
  have hcons : ∀ name, v ++ [filesName, head, name] = v ++ [filesName, head] ++ [name] :=
    fun name => by simp
  unfold removeOrphansOf
  simp only
  split
  · rename_i hisDir
    rw [hpath, h.isDir_iff hfree] at hisDir
    have hnames : readDirNames PruneError r (components (files storeDir) ++ [.normal head]) =
        .ok (r.children (v ++ [filesName, head])) := by
      rw [hpath]
      exact readDirNames_ok_iff.mpr ⟨_, h.canonicalize_names hfree hisDir, hisDir, rfl⟩
    obtain ⟨r', hr', h', hholds, hgone⟩ := exists_removeOrphans hfree hreferenced h head
      (r.children (v ++ [filesName, head]))
    refine ⟨r', Results.ok_bind (by rw [hnames]; rfl) hr', h', hholds, fun name horphan => ?_⟩
    by_cases hthere : r.get (v ++ [filesName, head, name]) = none
    · exact hholds.get_eq_none hthere
    · exact hgone name (Tree.mem_children.mpr (by rwa [← hcons])) horphan
  · rename_i hisDir
    rw [hpath, h.isDir_iff hfree] at hisDir
    refine ⟨r, rfl, h, fun _ _ hq => hq, fun name _ => ?_⟩
    by_contra hsome
    obtain ⟨node, hnode⟩ := Option.ne_none_iff_exists'.mp hsome
    rw [hcons] at hnode
    exact hisDir (by simpa using Tree.get_dropLast hnode)

theorem exists_removeOrphansOfAll (h : Pruning I t storeDir v r) (heads : List Text) :
    ∃ r', heads.foldlM (removeOrphansOf referenced (components (files storeDir))) r = .ok r' ∧
      Pruning I t storeDir v r' ∧ Holds r' r ∧
      ∀ head ∈ heads, ∀ name, Orphan I t storeDir v (v ++ [filesName, head, name]) →
        r'.get (v ++ [filesName, head, name]) = none := by
  induction heads generalizing r with
  | nil => exact ⟨r, rfl, h, fun _ _ hq => hq, fun head hhead => absurd hhead List.not_mem_nil⟩
  | cons head heads ih =>
      obtain ⟨r₁, hr₁, h₁, hholds₁, hgone⟩ := exists_removeOrphansOf hfree hreferenced h head
      obtain ⟨r', hr', h', hholds', hrest⟩ := ih h₁
      refine ⟨r', ?_, h', fun q node hq => hholds₁ q node (hholds' q node hq), ?_⟩
      · rw [List.foldlM_cons]
        exact Results.ok_bind hr₁ hr'
      · intro other hother name horphan
        rcases List.mem_cons.mp hother with rfl | hother
        · exact hholds'.get_eq_none (hgone name horphan)
        · exact hrest other hother name horphan

/-- All orphans of the store are removed. -/
theorem exists_removeOrphanCasFiles (hread : FilesReadable t storeDir) :
    ∃ r, removeOrphanCasFiles t storeDir referenced = .ok r ∧ Pruning I t storeDir v r ∧
      ∀ q, Orphan I t storeDir v q → r.get q = none := by
  have hstart : Pruning I t storeDir v t := .refl
  have hpath : components (files storeDir) = components (v3 storeDir) ++ [filesName].map .normal :=
    components_files storeDir
  have hhead : ∀ {head name}, Orphan I t storeDir v (v ++ [filesName, head, name]) →
      t.get (v ++ [filesName]) = some .dir ∧ head ∈ t.children (v ++ [filesName]) := by
    intro head name horphan
    obtain ⟨contents, hfile⟩ := horphan.file
    have hdir : t.get (v ++ [filesName] ++ [head]) = some .dir :=
      Tree.get_of_above hfile ⟨[name], by simp⟩ (by simp)
    refine ⟨by simpa using Tree.get_dropLast hdir, Tree.mem_children.mpr ?_⟩
    rw [hdir]
    exact Option.some_ne_none _
  unfold removeOrphanCasFiles
  simp only
  split
  · rename_i hexists
    have hisDir := hread hexists
    rw [hpath, hstart.isDir_iff hfree] at hisDir
    have hnames : readDirNames PruneError t (components (files storeDir)) =
        .ok (t.children (v ++ [filesName])) := by
      rw [hpath]
      exact readDirNames_ok_iff.mpr ⟨_, hstart.canonicalize_names hfree hisDir, hisDir, rfl⟩
    obtain ⟨r, hr, h, -, hgone⟩ := exists_removeOrphansOfAll hfree hreferenced hstart
      (t.children (v ++ [filesName]))
    refine ⟨r, Results.ok_bind (by rw [hnames]; rfl) hr, h, ?_⟩
    rintro q ⟨head, name, contents, rfl, hrest⟩
    have horphan : Orphan I t storeDir v (v ++ [filesName, head, name]) :=
      ⟨head, name, contents, rfl, hrest⟩
    exact hgone head (hhead horphan).2 name horphan
  · rename_i hexists
    refine ⟨t, rfl, hstart, ?_⟩
    rintro q ⟨head, name, contents, rfl, hrest⟩
    have hdir := (hhead ⟨head, name, contents, rfl, hrest⟩).1
    refine absurd (pathExists_iff.mpr ⟨v ++ [filesName], ?_⟩) hexists
    rw [hpath]
    exact hstart.canonicalize_names hfree hdir

end Files

section Tmp

variable {I : Type} [StoreLibs I] {t r : Tree} {storeDir : Text} {v : Loc}
  (hfree : LinkFree t storeDir v)

include hfree

theorem exists_clearTmpEntry (h : Pruning I t storeDir v r) {name : Text}
    (hthere : r.get (v ++ [tmpName, name]) ≠ none) :
    clearTmpEntry (components (tmp storeDir)) r name = .ok (r.remove (v ++ [tmpName, name])) ∧
      Pruning I t storeDir v (r.remove (v ++ [tmpName, name])) := by
  have hne : v ++ [tmpName, name] ≠ [] := by simp
  have hcons : v ++ [tmpName, name] = v ++ [tmpName] ++ [name] := by simp
  have hpath : components (tmp storeDir) ++ [.normal name] =
      components (v3 storeDir) ++ [tmpName, name].map .normal := by
    rw [components_tmp]
    simp
  obtain ⟨node, hnode⟩ := Option.ne_none_iff_exists'.mp hthere
  have hentry : entry r (components (tmp storeDir) ++ [.normal name]) =
      .ok (v ++ [tmpName, name]) := by
    have hlast := h.entry_eq hfree [tmpName] (hcons ▸ hnode)
    rw [hcons, ← hlast, components_tmp]
    simp
  constructor
  · unfold clearTmpEntry
    simp only
    have hdone : (if isDir r (components (tmp storeDir) ++ [.normal name]) = true then
        removeDirAll r (components (tmp storeDir) ++ [.normal name])
        else removeFile r (components (tmp storeDir) ++ [.normal name])) =
          .ok (r.remove (v ++ [tmpName, name])) := by
      split
      · rename_i hisDir
        rw [hpath, h.isDir_iff hfree] at hisDir
        apply Results.ok_bind hentry
        rw [hisDir]
        exact if_neg hne
      · rename_i hisDir
        rw [hpath, h.isDir_iff hfree] at hisDir
        apply Results.ok_bind hentry
        rw [hnode] at hisDir ⊢
        cases node with
        | dir => exact absurd rfl hisDir
        | file contents => rfl
        | link target => rfl
    rw [hdone]
    rfl
  · exact h.remove hne fun p hp _ => Or.inr ⟨name, hp⟩

/-- The temporary directory is emptied. -/
theorem exists_clearTmpDir (h : Pruning I t storeDir v r) (hread : TmpReadable t storeDir) :
    ∃ r', clearTmpDir r storeDir = .ok r' ∧ Pruning I t storeDir v r' ∧ Holds r' r ∧
      ∀ q, InTmp v q → r'.get q = none := by
  have hpath : components (tmp storeDir) = components (v3 storeDir) ++ [tmpName].map .normal :=
    components_tmp storeDir
  have hfold : ∀ (names : List Text) (r : Tree), Pruning I t storeDir v r → names.Nodup →
      (∀ name ∈ names, r.get (v ++ [tmpName, name]) ≠ none) →
      ∃ r', names.foldlM (clearTmpEntry (components (tmp storeDir))) r = .ok r' ∧
        Pruning I t storeDir v r' ∧ Holds r' r ∧
        ∀ name ∈ names, r'.get (v ++ [tmpName, name]) = none := by
    intro names
    induction names with
    | nil =>
        intro r h _ _
        refine ⟨r, rfl, h, fun _ _ hq => hq, fun name hname => ?_⟩
        cases hname
    | cons name names ih =>
        intro r h hnodup hthere
        obtain ⟨hnot, hnodup⟩ := List.nodup_cons.mp hnodup
        have hne : v ++ [tmpName, name] ≠ [] := by simp
        obtain ⟨hok, h₁⟩ := exists_clearTmpEntry hfree h (hthere name List.mem_cons_self)
        obtain ⟨r', hr', h', hholds, hgone⟩ := ih _ h₁ hnodup fun other hother => by
          rw [Tree.get_remove r hne, if_neg]
          · exact hthere other (List.mem_cons_of_mem _ hother)
          · rintro ⟨rest, hrest⟩
            rw [List.append_assoc, List.append_cancel_left_eq] at hrest
            simp only [List.cons_append, List.cons.injEq, true_and] at hrest
            exact hnot (hrest.1 ▸ hother)
        refine ⟨r', ?_, h', fun q node hq => Holds.of_remove r hne q node (hholds q node hq),
          fun other hother => ?_⟩
        · rw [List.foldlM_cons]
          exact Results.ok_bind hok hr'
        · rcases List.mem_cons.mp hother with rfl | hother
          · refine hholds.get_eq_none ?_
            rw [Tree.get_remove r hne, if_pos List.prefix_rfl]
          · exact hgone other hother
  -- what is in the directory is below one of its entries
  have hempty : ∀ {r' : Tree}, Holds r' r →
      (∀ name ∈ r.children (v ++ [tmpName]), r'.get (v ++ [tmpName, name]) = none) →
      ∀ q, InTmp v q → r'.get q = none := by
    rintro r' hholds hgone q ⟨name, hq⟩
    by_cases hname : name ∈ r.children (v ++ [tmpName])
    · exact Tree.get_eq_none_of_above (hgone name hname) hq
    · rw [Tree.mem_children, not_not, List.append_assoc] at hname
      exact hholds.get_eq_none (Tree.get_eq_none_of_above hname hq)
  unfold clearTmpDir
  simp only
  split
  · rename_i hexists
    have hstart : Pruning I t storeDir v t := .refl
    have hdir : r.get (v ++ [tmpName]) = some .dir := by
      obtain ⟨q, hq⟩ := pathExists_iff.mp (pathExists_of_holds h.holds hexists)
      have hisDir := hread (pathExists_iff.mpr ⟨q, hq⟩)
      rw [hpath, hstart.isDir_iff hfree] at hisDir
      rw [h.kept, hisDir]
      · rintro ⟨head, name, contents, heq, -⟩
        simp at heq
      · rintro ⟨name, hp⟩
        have hlen := hp.length_le
        simp at hlen
    have hnames : readDirNames PruneError r (components (tmp storeDir)) =
        .ok (r.children (v ++ [tmpName])) := by
      rw [hpath]
      exact readDirNames_ok_iff.mpr ⟨_, h.canonicalize_names hfree hdir, hdir, rfl⟩
    obtain ⟨r', hr', h', hholds, hgone⟩ := hfold (r.children (v ++ [tmpName])) r h
      (Tree.children_nodup r _) fun name hname => by
        have hthere := Tree.mem_children.mp hname
        rwa [List.append_assoc] at hthere
    exact ⟨r', Results.ok_bind (by rw [hnames]; rfl) hr', h', hholds, hempty hholds hgone⟩
  · rename_i hmissing
    refine ⟨r, rfl, h, fun _ _ hq => hq, hempty (fun _ _ hq => hq) fun name hname => ?_⟩
    obtain ⟨node, hnode⟩ := Option.ne_none_iff_exists'.mp (Tree.mem_children.mp hname)
    have hdir : r.get (v ++ [tmpName]) = some .dir := by simpa using Tree.get_dropLast hnode
    have hthere := h.canonicalize_names hfree hdir
    rw [← hpath] at hthere
    exact absurd (pathExists_iff.mpr ⟨_, hthere⟩) hmissing

end Tmp

section Reading

variable {I : Type} [StoreLibs I] {t : Tree} {storeDir : Text}

theorem allListed_iff (hfull : FullDigests I t storeDir) :
    AllListed I t storeDir ↔ AllParse I t storeDir := by
  constructor
  · intro h path hpath
    obtain ⟨index, hindex, hall⟩ := h path hpath
    refine ⟨index, hindex, fun e he => ?_⟩
    obtain ⟨integrity, text, hparse, -⟩ := hall e he
    exact ⟨integrity, hparse⟩
  · intro h path hpath
    obtain ⟨index, hindex, hall⟩ := h path hpath
    refine ⟨index, hindex, fun e he => ?_⟩
    obtain ⟨integrity, hparse⟩ := hall e he
    obtain ⟨algorithm, hex, hhex, hlen⟩ :=
      hfull e.2 ⟨path, index, e.1, hpath, hindex, he⟩ integrity hparse
    obtain ⟨text, htext⟩ := exists_casPath hhex hlen storeDir (isAllExec e.2.mode)
    exact ⟨integrity, text, hparse, htext⟩

/-- The referenced files are read exactly when everything can be parsed. -/
theorem exists_referenced_iff (hfull : FullDigests I t storeDir)
    (hread : FilesReadable t storeDir) :
    (∃ referenced, referencedStoreFiles I t storeDir = .ok referenced) ↔
      AllParse I t storeDir := by
  obtain ⟨paths, hpaths⟩ : ∃ paths, indexPaths PruneError t storeDir = .ok paths :=
    exists_indexPaths hread
  have hall : (∃ listed, paths.mapM (listedPaths PruneError I t storeDir) = .ok listed) ↔
      AllListed I t storeDir := exists_listedPaths_iff (indexPaths_ok hpaths).2
  rw [← allListed_iff hfull, ← hall]
  unfold referencedStoreFiles pruneIndexFilePaths
  constructor
  · rintro ⟨referenced, h⟩
    obtain ⟨paths', hpaths', h⟩ := Results.bind_ok h
    rw [hpaths, Except.ok.injEq] at hpaths'
    subst hpaths'
    obtain ⟨listed, hlisted, -⟩ := Results.bind_ok h
    exact ⟨listed, hlisted⟩
  · rintro ⟨listed, hlisted⟩
    exact ⟨_, Results.ok_bind hpaths (Results.ok_bind hlisted rfl)⟩

theorem mem_referenced_iff {referenced : List (List Component)}
    (h : referencedStoreFiles I t storeDir = .ok referenced) (path : List Component) :
    path ∈ referenced ↔ path ∈ listedCasPaths I t storeDir := by
  obtain ⟨paths, hpaths, h⟩ := Results.bind_ok h
  obtain ⟨listed, hlisted, h⟩ := Results.bind_ok h
  cases h
  have hmem := mem_listedPaths_iff (indexPaths_ok hpaths).2 hlisted
  rw [List.mem_map]
  constructor
  · rintro ⟨e, he, rfl⟩
    obtain ⟨info, text, hinfo, hfile, htext⟩ := (hmem e).mp he
    exact ⟨info, e.2, text, hinfo, hfile, htext⟩
  · rintro ⟨info, integrity, text, hinfo, hfile, htext⟩
    exact ⟨(path, integrity), (hmem _).mpr ⟨info, text, hinfo, hfile, htext⟩, rfl⟩

/-- No digest is too short for a path, so the reading does not panic. -/
theorem referenced_ne_panic (hfull : FullDigests I t storeDir) :
    referencedStoreFiles I t storeDir ≠ .error .panic := by
  have hnames : ∀ dir, readDirNames PruneError t dir ≠ .error .panic := fun dir =>
    Results.mapError_ne fun error herror => by cases herror
  have hindexes : indexPaths PruneError t storeDir ≠ .error .panic := by
    unfold indexPaths
    simp only
    split
    · refine Results.bind_ne (hnames _) fun heads _ => ?_
      refine Results.bind_ne (Results.mapM_ne fun head _ => ?_) fun paths _ h => by cases h
      obtain ⟨paths, hpaths⟩ : ∃ paths, headIndexPaths PruneError t (components (files storeDir))
          head = .ok paths := exists_headIndexPaths _ head
      rw [hpaths]
      intro h
      cases h
    · intro h
      cases h
  refine Results.bind_ne hindexes fun paths hpaths => ?_
  refine Results.bind_ne (Results.mapM_ne fun path hpath => ?_) fun listed _ h => by cases h
  have hindexFile := ((indexPaths_ok hpaths).2 path).mp hpath
  refine Results.bind_ne ?_ fun index hindex => Results.mapM_ne fun e he => ?_
  · unfold readIndex
    intro h
    split at h
    · cases h
    · split at h <;> cases h
  · have hinfo : Listed I t storeDir e.2 :=
      ⟨path, index, e.1, hindexFile, readIndex_ok_iff.mp hindex, he⟩
    unfold storePath
    intro h
    split at h
    · cases h
    · rename_i integrity hparse
      obtain ⟨algorithm, hex, hhex, hlen⟩ := hfull e.2 hinfo integrity hparse
      obtain ⟨text, htext⟩ := exists_casPath hhex hlen storeDir (e.2.mode &&& 0o111 == 0o111)
      simp only [htext] at h
      cases h

end Reading

section Loads

variable {I : Type} [StoreLibs I] {t r : Tree} {storeDir : Text} {v : Loc}

/-- The path of an index has the name of an index in the directory of its head. -/
theorem components_indexFilePath (hdigits : HexDigests I) {integrity : I} {path : Text}
    (h : indexFilePath Text storeDir integrity = .ok path) :
    Prune.isIndexPath path = true ∧ ∃ head name, Prune.isIndexPath name = true ∧
      components path = components (files storeDir) ++ [.normal head, .normal name] := by
  obtain ⟨algorithm, hex, hhex, hpath⟩ := indexFilePath_ok h
  have hishex := hdigits integrity algorithm hex hhex
  have hsuffix : ∀ front : Text, Prune.isIndexPath (front ++ "-index.json".toList) = true :=
    fun front => List.isSuffixOf_iff_suffix.mpr (List.suffix_append _ _)
  constructor
  · obtain ⟨-, rfl⟩ := filePathByHexStr_ok hishex .index hpath
    have hcons : filesDir storeDir ++ '/' :: (hex.take 2 ++ '/' ::
        (hex.drop 2 ++ "-index.json".toList)) =
        filesDir storeDir ++ '/' :: (hex.take 2 ++ '/' :: hex.drop 2) ++ "-index.json".toList := by
      simp
    rw [hcons]
    exact hsuffix _
  · exact ⟨hex.take 2, hex.drop 2 ++ "-index.json".toList, hsuffix _,
      components_of_hex hishex .index (by simp) hpath⟩

variable (hfree : LinkFree t storeDir v) (h : Pruning I t storeDir v r)

include hfree h

/-- The path of what is no orphan leads to the same node. -/
theorem Pruning.same_place {head name : Text}
    (hkept : ¬ Orphan I t storeDir v (v ++ [filesName, head, name])) :
    canonicalize r (components (files storeDir) ++ [.normal head, .normal name]) =
        canonicalize t (components (files storeDir) ++ [.normal head, .normal name]) ∧
      ∀ q, canonicalize t (components (files storeDir) ++ [.normal head, .normal name]) = .ok q →
        r.get q = t.get q := by
  have hstart : Pruning I t storeDir v t := .refl
  have hsame : ∀ k, k <+: [filesName, head, name] → r.get (v ++ k) = t.get (v ++ k) := by
    intro k hk
    refine h.kept _ ?_ ?_
    · intro horphan
      have hall : k = [filesName, head, name] := by
        obtain ⟨head', name', contents, heq, -⟩ := horphan
        exact hk.eq_of_length (by rw [List.append_cancel_left heq]; rfl)
      rw [hall] at horphan
      exact hkept horphan
    · rintro ⟨other, hp⟩
      rw [List.prefix_append_right_inj] at hp
      obtain ⟨heq, -⟩ := List.cons_prefix_cons.mp (hp.trans hk)
      exact absurd heq (by decide)
  rw [entry_path]
  refine ⟨canonicalize_below_same (hstart.clear hfree) (h.clear hfree) (hstart.leads hfree)
    (h.leads hfree) hsame, fun q hq => ?_⟩
  rw [hstart.of_canonicalize hfree hq]
  exact hsame _ List.prefix_rfl

theorem Pruning.view_index (hdigits : HexDigests I) {integrity : I} {path : Text}
    (hpath : indexFilePath Text storeDir integrity = .ok path) :
    (storeView I r).files path = (storeView I t).files path := by
  obtain ⟨-, head, name, hindex, hcomponents⟩ := components_indexFilePath hdigits hpath
  have hkept : ¬ Orphan I t storeDir v (v ++ [filesName, head, name]) := by
    intro horphan
    obtain ⟨contents, -, hnot, -⟩ := orphan_entry_iff.mp horphan
    rw [hindex] at hnot
    cases hnot
  obtain ⟨hsame, hnode⟩ := h.same_place hfree hkept
  unfold storeView
  simp only [hcomponents, hsame]
  cases hq : canonicalize t (components (files storeDir) ++ [.normal head, .normal name]) with
  | error error => cases error <;> rfl
  | ok q => simp only [hnode q hq]

theorem Pruning.read_index (hdigits : HexDigests I) (integrity : I) :
    readIndexFile storeDir (storeView I r) integrity =
      readIndexFile storeDir (storeView I t) integrity := by
  unfold readIndexFile
  cases hpath : indexFilePath Text storeDir integrity with
  | error abort => rfl
  | ok path =>
      simp only [bind, Except.bind]
      rw [h.view_index hfree hdigits hpath]

omit hfree h in
theorem indexFile_of_view {path : Text} {index : PackageFilesIndex}
    (hname : Prune.isIndexPath path = true)
    (hfile : (storeView I t).files path = some (.index index)) :
    isFile t (components path) = true ∧ IndexAt I t (components path) index := by
  unfold storeView at hfile
  simp only [hname, if_true] at hfile
  split at hfile
  · cases hfile
  · cases hfile
  · rename_i q hq
    split at hfile
    · rename_i contents hcontents
      refine ⟨FileTree.isFile_iff.mpr ⟨q, contents, hq, hcontents⟩, contents,
        readFile_ok_iff.mpr ⟨q, hq, hcontents⟩, ?_⟩
      split at hfile
      · rename_i parsed hparse
        cases hfile
        exact hparse
      · cases hfile
      · cases hfile
    · cases hfile

omit hfree h in
/-- An index that an installation reads is one that the prune has read. -/
theorem listed_of_readIndexFile (hdigits : HexDigests I) {integrity : I}
    {index : PackageFilesIndex}
    (hread : readIndexFile storeDir (storeView I t) integrity = .ok (some index)) :
    ∀ e ∈ index.files.entries, Listed I t storeDir e.2 := by
  obtain ⟨path, hpath, hread⟩ := Results.bind_ok hread
  obtain ⟨hname, head, name, hindex, hcomponents⟩ := components_indexFilePath hdigits hpath
  have hfile : (storeView I t).files path = some (.index index) := by
    split at hread
    · cases hread
    · rename_i hfile
      cases hread
      exact hfile
    · cases hread
    · cases hread
    · cases hread
  obtain ⟨hisFile, hat⟩ := indexFile_of_view hname hfile
  intro e he
  exact ⟨components path, index, e.1, ⟨head, name, hcomponents, hisFile, hindex⟩, hat, he⟩

theorem Pruning.sameLoads (hdigits : HexDigests I) (hfull : FullDigests I t storeDir) :
    SameLoads I t storeDir r := by
  intro call hstoreDir
  subst hstoreDir
  constructor
  · unfold loadFromStore
    rw [h.read_index hfree hdigits]
  · intro casPaths hload e he contents hcontents
    obtain ⟨index, hread, hload⟩ := Results.bind_ok hload
    split at hload
    · cases hload
    · rename_i index
      obtain ⟨listed, hlisted, hload⟩ := Results.bind_ok hload
      cases hload
      have hmem := KeyedMap.mem_of_mem_entries_ofList he
      obtain ⟨entry, hentry, hindexed⟩ := Results.exists_of_mem_mapM hlisted hmem
      have hinfo := listed_of_readIndexFile hdigits hread entry hentry
      unfold indexedFile at hindexed
      split at hindexed
      · cases hindexed
      · rename_i integrity hparse
        obtain ⟨text, htext, rfl⟩ := Results.map_ok hindexed
        obtain ⟨algorithm, hex, hhex, hlen⟩ := hfull entry.2 hinfo integrity hparse
        have hcomponents := components_casPath hhex (hdigits integrity algorithm hex hhex) hlen
          htext
        have hkept : ¬ Orphan I t call.storeDir v (v ++ [filesName, hex.take 2,
            hex.drop 2 ++ execSuffix (isAllExec entry.2.mode)]) := by
          intro horphan
          obtain ⟨contents, -, -, hnot⟩ := orphan_entry_iff.mp horphan
          exact hnot ⟨entry.2, integrity, text, hinfo, ⟨hparse, htext⟩, hcomponents⟩
        obtain ⟨hsame, hnode⟩ := h.same_place hfree hkept
        obtain ⟨q, hq, hfile⟩ := readFile_ok_iff.mp hcontents
        rw [hcomponents] at hq ⊢
        exact readFile_ok_iff.mpr ⟨q, by rw [hsame, hq], by rw [hnode q hq, hfile]⟩

end Loads

section Main

variable {I : Type} [StoreLibs I] {t : Tree} {storeDir : Text}

/-- In a store without links a prune removes exactly the orphans and what is in the temporary
directory, and loads go on as before. Where something cannot be parsed it fails and has removed
nothing. -/
theorem prune_exact (hdigits : HexDigests I) (hfull : FullDigests I t storeDir)
    (hfiles : FilesReadable t storeDir) (htmp : TmpReadable t storeDir) :
    (AllParse I t storeDir →
      (∀ v, LinkFree t storeDir v → ∃ t', prune I t storeDir = .ok t' ∧
        (∀ q, Orphan I t storeDir v q → t'.get q = none) ∧
        (∀ q, InTmp v q → t'.get q = none) ∧
        (∀ q, ¬ Orphan I t storeDir v q → ¬ InTmp v q → t'.get q = t.get q) ∧
        SameLoads I t storeDir t') ∧
      (isDir t (components (v3 storeDir)) = false → prune I t storeDir = .ok t)) ∧
    (¬ AllParse I t storeDir → ∃ error, prune I t storeDir = .error (.error error, t)) := by
  have hreferenced := exists_referenced_iff hfull hfiles
  constructor
  · intro hparse
    obtain ⟨referenced, hok⟩ := hreferenced.mpr hparse
    have hmapped : (referencedStoreFiles I t storeDir).mapError (fun stop => (stop, t)) =
        .ok referenced := by
      rw [hok]
      rfl
    constructor
    · intro v hfree
      obtain ⟨r, hr, hpruning, hgone⟩ :=
        exists_removeOrphanCasFiles hfree (mem_referenced_iff hok) hfiles
      obtain ⟨t', ht', hpruning', hholds, hempty⟩ := exists_clearTmpDir hfree hpruning htmp
      refine ⟨t', Results.ok_bind hmapped (Results.ok_bind hr ht'), ?_, hempty, hpruning'.kept,
        hpruning'.sameLoads hfree hdigits hfull⟩
      exact fun q horphan => hholds.get_eq_none (hgone q horphan)
    · intro hno
      have hmissing : ∀ name,
          pathExists t (components (v3 storeDir) ++ [.normal name]) = false := by
        intro name
        refine Bool.eq_false_iff.mpr fun hexists => ?_
        obtain ⟨q, hq⟩ := pathExists_iff.mp hexists
        obtain ⟨m, hm, hdir⟩ := canonicalize_front hq
        rw [FileTree.isDir_iff.mpr ⟨m, hm, hdir⟩] at hno
        cases hno
      apply Results.ok_bind hmapped
      unfold removeOrphanCasFiles clearTmpDir
      simp only [components_files, components_tmp, hmissing, Bool.false_eq_true, if_false]
      apply Results.ok_bind rfl
      simp only [hmissing, Bool.false_eq_true, if_false]
  · intro hnot
    cases hread : referencedStoreFiles I t storeDir with
    | ok referenced => exact absurd (hreferenced.mp ⟨referenced, hread⟩) hnot
    | error stop =>
        cases stop with
        | panic => exact absurd hread (referenced_ne_panic hfull)
        | error error =>
            refine ⟨error, ?_⟩
            unfold prune
            rw [hread]
            rfl

end Main

section Samples

theorem sampleHexDigests : HexDigests HashIntegrity := by
  intro integrity algorithm hex h
  cases h
  exact isHex_base64ToHex _

theorem sampleFullDigests (t : Tree) (storeDir : Text) : FullDigests HashIntegrity t storeDir := by
  rintro info ⟨path, index, name, -, hindex, hmem⟩ integrity hparse
  obtain rfl := sampleIndex_of_indexAt hindex
  obtain ⟨-, rfl⟩ := Prod.mk.inj (List.mem_singleton.mp hmem)
  rw [sampleInfo_parse, Except.ok.injEq] at hparse
  subst hparse
  exact ⟨.sha512, _, rfl, sampleDigest_length⟩

/-- The sample store with a file that no index lists, and one in the temporary directory. -/
def junkStore : Tree :=
  ((writeFile sampleStore "/store/v3/files/aa/bb".toList "junk".toList).bind fun t =>
    writeFile t "/store/v3/tmp/x".toList "junk".toList).toOption.getD .empty

def junkReferenced : List (List Component) :=
  (referencedStoreFiles HashIntegrity junkStore "/store".toList).toOption.getD []

theorem junkReferenced_eq :
    referencedStoreFiles HashIntegrity junkStore "/store".toList = .ok junkReferenced := by
  have hmade : (referencedStoreFiles HashIntegrity junkStore "/store".toList).isOk = true := by
    decide +kernel
  unfold junkReferenced
  generalize referencedStoreFiles HashIntegrity junkStore "/store".toList = made at hmade
  exact Results.eq_getD_of_isOk [] hmade

theorem junkStore_linkFree :
    LinkFree junkStore "/store".toList ["store".toList, "v3".toList] := by
  -- one evaluation for all the facts about the two trees
  obtain ⟨hnodes, htmp, hholds, hdir, hleads⟩ :
      junkStore.nodes.entries.all (fun e => e.2 = .dir ∨ e.2 = .file [] ∨
        e.2 = .file sampleIndexText ∨ e.2 = .file "junk".toList) = true ∧
      (∀ e ∈ sampleStore.nodes.entries, e.1[2]? ≠ some tmpName) ∧
      (∀ e ∈ sampleStore.nodes.entries, junkStore.nodes.get e.1 = some e.2) ∧
      sampleStore.get ["store".toList, "v3".toList] = some .dir ∧
      canonicalize sampleStore (components (v3 "/store".toList)) =
        .ok ["store".toList, "v3".toList] := by
    decide +kernel
  constructor
  · intro q target _
    refine Tree.noLink_of_entries (fun e he target => ?_) q target
    rcases of_decide_eq_true (List.all_eq_true.mp hnodes e he) with h | h | h | h <;> simp [h]
  · refine ⟨sampleStore, .of_entries hholds, fun name => ?_, hdir, hleads⟩
    by_contra hsome
    obtain ⟨node, hnode⟩ := Option.ne_none_iff_exists'.mp hsome
    rw [Tree.get_of_ne_nil _ (by simp)] at hnode
    exact htmp _ (KeyedMap.get_eq_some_iff.mp hnode) rfl

/-- The file that no index lists and the one in the temporary directory are removed, and the
listed one is kept. -/
theorem junkStore_pruned : ∃ t', prune HashIntegrity junkStore "/store".toList = .ok t' ∧
    t'.get (["store".toList, "v3".toList] ++ [filesName, "aa".toList, "bb".toList]) = none ∧
    t'.get (["store".toList, "v3".toList] ++ [tmpName, "x".toList]) = none ∧
    SameLoads HashIntegrity junkStore "/store".toList t' := by
  obtain ⟨hfilesDir, htmpDir, hfile, hnot⟩ :
      isDir junkStore (components (files "/store".toList)) = true ∧
      isDir junkStore (components (tmp "/store".toList)) = true ∧
      junkStore.get (["store".toList, "v3".toList] ++ [filesName, "aa".toList, "bb".toList]) =
        some (.file "junk".toList) ∧
      components (files "/store".toList) ++ [.normal "aa".toList, .normal "bb".toList] ∉
        junkReferenced := by
    decide +kernel
  have hfiles : FilesReadable junkStore "/store".toList := fun _ => hfilesDir
  have htmp : TmpReadable junkStore "/store".toList := fun _ => htmpDir
  have hfull := sampleFullDigests junkStore "/store".toList
  have hparse : AllParse HashIntegrity junkStore "/store".toList :=
    (exists_referenced_iff hfull hfiles).mp ⟨_, junkReferenced_eq⟩
  obtain ⟨t', ht', hgone, hempty, -, hloads⟩ :=
    ((prune_exact sampleHexDigests hfull hfiles htmp).1 hparse).1 _ junkStore_linkFree
  refine ⟨t', ht', hgone _ ⟨"aa".toList, "bb".toList, "junk".toList, rfl, hfile, by decide, ?_⟩,
    hempty _ ⟨"x".toList, List.prefix_rfl⟩, hloads⟩
  rw [← mem_referenced_iff junkReferenced_eq]
  exact hnot

/-- The listed file is in a directory that the directory of its head is a link to. -/
def linkedHead : Tree :=
  (do
    let t ← writeFile .empty sampleIndexPath sampleIndexText
    let t ← writeFile t ("/store/v3/files/ee/".toList ++ (sampleDigest .sha512 []).drop 2) []
    symlink t "/store/v3/files/ee".toList
      (components "/store/v3/files/cf".toList)).toOption.getD .empty

def prunedHead : Tree :=
  (prune HashIntegrity linkedHead "/store".toList).toOption.getD .empty

theorem prunedHead_eq : prune HashIntegrity linkedHead "/store".toList = .ok prunedHead := by
  have hmade : (prune HashIntegrity linkedHead "/store".toList).isOk = true := by decide +kernel
  unfold prunedHead
  generalize prune HashIntegrity linkedHead "/store".toList = made at hmade
  exact Results.eq_getD_of_isOk .empty hmade

theorem linkedHead_loads : ∃ casPaths,
    loadFromStore (sampleCall "package/index.js".toList) (storeView HashIntegrity linkedHead) =
      .ok (some casPaths) ∧ ∃ e ∈ casPaths.entries, e.2 = sampleCasPath := by
  have hmap : (loadFromStore (sampleCall "package/index.js".toList)
      (storeView HashIntegrity linkedHead)).toOption.map (fun casPaths =>
        casPaths.map KeyedMap.entries) =
          some (some [("index.js".toList, sampleCasPath)]) := by decide +kernel
  generalize sampleCasPath = path at hmap ⊢
  obtain ⟨loaded, hloaded, hentries⟩ := Results.exists_of_toOption_map hmap
  cases loaded with
  | none => cases hentries
  | some casPaths =>
      refine ⟨casPaths, hloaded, ("index.js".toList, path), ?_, rfl⟩
      rw [Option.some.inj hentries]
      exact List.mem_singleton_self _

/-- A prune that succeeds, after which a file is missing that an installation loads. -/
theorem prune_removes_listed :
    FullDigests HashIntegrity linkedHead "/store".toList ∧
      FilesReadable linkedHead "/store".toList ∧ TmpReadable linkedHead "/store".toList ∧
      AllParse HashIntegrity linkedHead "/store".toList ∧
      prune HashIntegrity linkedHead "/store".toList = .ok prunedHead ∧
      ¬ SameLoads HashIntegrity linkedHead "/store".toList prunedHead := by
  have hfull := sampleFullDigests linkedHead "/store".toList
  obtain ⟨hfilesDir, hno, hread, hbefore, hafter⟩ :
      isDir linkedHead (components (files "/store".toList)) = true ∧
      pathExists linkedHead (components (tmp "/store".toList)) = false ∧
      (referencedStoreFiles HashIntegrity linkedHead "/store".toList).isOk = true ∧
      readFile linkedHead (components sampleCasPath) = .ok [] ∧
      readFile prunedHead (components sampleCasPath) ≠ .ok [] := by
    decide +kernel
  have hfiles : FilesReadable linkedHead "/store".toList := fun _ => hfilesDir
  have htmp : TmpReadable linkedHead "/store".toList := by
    intro hexists
    rw [hno] at hexists
    cases hexists
  have hparse : AllParse HashIntegrity linkedHead "/store".toList := by
    apply (exists_referenced_iff hfull hfiles).mp
    generalize referencedStoreFiles HashIntegrity linkedHead "/store".toList = made at hread
    exact ⟨_, Results.eq_getD_of_isOk [] hread⟩
  refine ⟨hfull, hfiles, htmp, hparse, prunedHead_eq, fun hsame => ?_⟩
  obtain ⟨casPaths, hloads, e, he, hpath⟩ := linkedHead_loads
  obtain ⟨-, hkept⟩ := hsame (sampleCall "package/index.js".toList) rfl
  have hthere := hkept casPaths hloads e he []
  rw [hpath] at hthere
  exact hafter (hthere hbefore)

end Samples

end StoreDir

end Npnpm
