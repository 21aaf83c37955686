import Mathlib.Data.Char
import Mathlib.Data.List.Lex
import Npnpm.PackageManager.BinZone

/-!
# What the bin links depend on

The links of a `node_modules` directory are determined by what stands outside the `.bin`
directories: the packages that are listed, and their manifests. The order in which a
directory happens to be listed does not matter either.

## Implementation notes

The links of a project must not lead through a `.bin` directory, and no `.bin` directory
may be a link itself. Links into the virtual store may have such a name above it.
-/

namespace Npnpm

open Npnpm.Path Npnpm.FileTree

section Order

theorem textLe_iff (a b : Text) : textLe a b = true ↔ a ≤ b := by
  have hlt : List.lex b a = true ↔ b < a := List.lex_eq_true_iff_lt
  rw [textLe, Bool.not_eq_true', ← Bool.not_eq_true, hlt]
  exact not_lt

instance : Std.Total fun a b : Text => textLe a b = true :=
  ⟨fun a b => by simpa only [textLe_iff] using le_total a b⟩

instance : IsTrans Text fun a b => textLe a b = true :=
  ⟨fun a b c => by simpa only [textLe_iff] using le_trans⟩

instance : Std.Antisymm fun a b : Text => textLe a b = true :=
  ⟨fun a b => by simpa only [textLe_iff] using le_antisymm⟩

/-- Sorted listings of the same names are equal. -/
theorem filter_insertionSort_eq {keep : Text → Bool} {names names' : List Text}
    (h : (names'.filter keep).Perm (names.filter keep)) :
    (names'.insertionSort fun a b => textLe a b).filter keep =
      (names.insertionSort fun a b => textLe a b).filter keep := by
  refine List.Perm.eq_of_pairwise' (r := fun a b => textLe a b = true) ?_ ?_ ?_
  · exact (List.pairwise_insertionSort _ names').filter _
  · exact (List.pairwise_insertionSort _ names).filter _
  · exact ((List.perm_insertionSort _ names').filter _).trans
      (h.trans ((List.perm_insertionSort _ names).filter _).symm)

end Order

section Project

variable {v m : Loc} {t t' : Tree}

/-- A file tree that holds packages: its files have names, the `node_modules` directories and
their `.bin` directories are no links, and no other link names a `.bin` directory. -/
structure PackageTree (v m : Loc) (t : Tree) : Prop where
  names : t.PlainNames
  modules : Clear t m
  store : Clear t v
  stores : ∀ name target, t.get (storeLoc v name) ≠ some (.link target)
  bins : ∀ d, NodeModulesDir v m d → ∀ target, t.get (d ++ [binName]) ≠ some (.link target)
  links : ∀ q target, ¬ BinZone v m q → t.get q = some (.link target) →
    .normal binName ∉ components target

/-- A place beside the `.bin` directories that no link stands on the way to. -/
structure BinFree (v m : Loc) (t : Tree) (q : Loc) : Prop where
  clear : ClearAbove t q
  outside : ∀ r, r <+: q → ¬ BinZone v m r

theorem not_binZone_nil : ¬ BinZone v m [] := by
  rintro ⟨d, -, hbin⟩
  simpa using hbin.length_le

theorem avoids_binZone {c : Component} (hc : c ≠ .normal binName) : Avoids (BinZone v m) c := by
  intro d hd hzone
  cases c with
  | rootDir => exact not_binZone_nil hzone
  | curDir => exact hd hzone
  | parentDir =>
      obtain ⟨b, hb, hbin⟩ := hzone
      exact hd ⟨b, hb, hbin.trans (List.dropLast_prefix d)⟩
  | normal name =>
      apply hc
      rw [(binZone_concat hd hzone).2]

theorem PackageTree.linksStayOut (h : PackageTree v m t) : LinksStayOut (BinZone v m) t := by
  intro q target hq hlink
  refine Or.inl fun c hc => avoids_binZone ?_
  rintro rfl
  exact h.links q target hq hlink hc

theorem Apart.not_binZone_above (h : Apart v m) {d : Loc} (hd : NodeModulesDir v m d) {q : Loc}
    (hq : q <+: d) : ¬ BinZone v m q :=
  h.not_binZone_onWay hd (Or.inl hq)

/-- A path through such a place stays outside the `.bin` directories. -/
theorem BinFree.staysOut {q : Loc} (hq : BinFree v m t q) (rest : Loc) (hrest : binName ∉ rest) :
    StaysOut (BinZone v m) t (pathOf (q ++ rest)) := by
  refine Or.inr ⟨q, rest.map .normal, by simp [pathOf], hq.clear, hq.outside, ?_⟩
  intro c hc
  apply avoids_binZone
  rintro rfl
  obtain ⟨name, hname, heq⟩ := List.mem_map.mp hc
  cases heq
  exact hrest hname

theorem BinFree.staysOut_self {q : Loc} (hq : BinFree v m t q) :
    StaysOut (BinZone v m) t (pathOf q) := by
  have hout := hq.staysOut [] List.not_mem_nil
  rwa [List.append_nil] at hout

theorem binFree_of_clear (happart : Apart v m) {d q : Loc} (hd : NodeModulesDir v m d)
    (hq : q <+: d) (hclear : Clear t q) : BinFree v m t q where
  clear r hr _ := hclear r hr
  outside _ hr := happart.not_binZone_above hd (hr.trans hq)

theorem clearAbove_concat {d : Loc} (hd : t.get d = some .dir) (name : Text) :
    ClearAbove t (d ++ [name]) :=
  fun r hr hne => clear_of_dir hd r ((List.prefix_concat_iff.mp hr).resolve_left hne)

theorem binFree_concat (happart : Apart v m) {d : Loc} (hd : NodeModulesDir v m d)
    (hdir : t.get d = some .dir) {name : Text} (hname : name ≠ binName) :
    BinFree v m t (d ++ [name]) where
  clear := clearAbove_concat hdir name
  outside r hr hzone := by
    rcases List.prefix_concat_iff.mp hr with rfl | hr
    · exact hname (binZone_concat (happart.not_binZone_above hd List.prefix_rfl) hzone).2
    · exact happart.not_binZone_above hd hr hzone

theorem binFree_scoped (happart : Apart v m) {d : Loc} (hd : NodeModulesDir v m d)
    {scope : Text} (hscope : scope.head? = some '@') (hdir : t.get (d ++ [scope]) = some .dir)
    (name : Text) : BinFree v m t (d ++ [scope] ++ [name]) where
  clear := clearAbove_concat hdir name
  outside r hr hzone := by
    have hway : ∀ {q}, q <+: d ++ [scope] → ¬ BinZone v m q := by
      intro q hq
      rcases List.prefix_concat_iff.mp hq with rfl | hq
      · exact happart.not_binZone_onWay hd (Or.inr ⟨scope, hscope, rfl⟩)
      · exact happart.not_binZone_above hd hq
    rcases List.prefix_concat_iff.mp hr with rfl | hr
    · exact happart.scope_not_nodeModules hd hscope
        (binZone_concat (hway List.prefix_rfl) hzone).1
    · exact hway hr hzone

end Project

section Listing

variable {v m : Loc} {t t' : Tree} {d : Loc} {dir : Text}

/-- The sorted listings agree as far as the same names are taken. -/
theorem sortedEntries_same (keep : Text → Bool) (hdir : LeadsTo dir d) (hd : t.get d = some .dir)
    (hd' : t'.get d = some .dir)
    (hnames : ∀ name, keep name = true →
      (t'.get (d ++ [name]) = none ↔ t.get (d ++ [name]) = none)) :
    ∃ names names', sortedEntries t dir = .ok names ∧ sortedEntries t' dir = .ok names' ∧
      names'.filter keep = names.filter keep ∧
      (∀ name ∈ names, t.get (d ++ [name]) ≠ none) ∧
      ∀ name ∈ names', t'.get (d ++ [name]) ≠ none := by
  refine ⟨_, _, ?_, ?_, filter_insertionSort_eq (Tree.children_perm hnames), ?_, ?_⟩
  · unfold sortedEntries
    rw [hdir, readDir_of_dir hd]
    rfl
  · unfold sortedEntries
    rw [hdir, readDir_of_dir hd']
    rfl
  · intro name hname
    rw [List.mem_insertionSort] at hname
    exact Tree.mem_children.mp hname
  · intro name hname
    rw [List.mem_insertionSort] at hname
    exact Tree.mem_children.mp hname

theorem fileType_same {path : Text} {name : Text} (hpath : LeadsTo path (d ++ [name]))
    (hd : t.get d = some .dir) (hd' : t'.get d = some .dir)
    (hsame : t'.get (d ++ [name]) = t.get (d ++ [name])) : fileType t' path = fileType t path := by
  rw [fileType_of_dir hpath hd', fileType_of_dir hpath hd, hsame]

theorem isDirOrLink_same {path : Text} {name : Text} (hpath : LeadsTo path (d ++ [name]))
    (hd : t.get d = some .dir) (hd' : t'.get d = some .dir)
    (hsame : t'.get (d ++ [name]) = t.get (d ++ [name])) :
    isDirOrLink t' path = isDirOrLink t path := by
  rw [isDirOrLink, isDirOrLink, fileType_same hpath hd hd' hsame]

/-- The `.bin` directory holds no packages. -/
theorem entryPackageDirs_bin (hdir : LeadsTo dir d) (hd : t.get d = some .dir)
    (htaken : t.get (d ++ [binName]) ≠ none) : entryPackageDirs t dir binName = .ok [] := by
  obtain ⟨node, hget⟩ := Option.ne_none_iff_exists'.mp htaken
  have hpath : LeadsTo (join dir binName) (d ++ [binName]) := leadsTo_child hdir (by decide)
  unfold entryPackageDirs
  simp only [fileType_of_dir hpath hd, hget, Except.mapError, bind, Except.bind]
  exact if_pos rfl

theorem immediatePackageDirs_eq (hdir : LeadsTo dir d) (hd : t.get d = some .dir)
    {names : List Text} (hsorted : sortedEntries t dir = .ok names)
    (hchild : ∀ name ∈ names, t.get (d ++ [name]) ≠ none) :
    immediatePackageDirs t dir =
      ((names.filter fun name => name != binName).mapM (entryPackageDirs t dir)).map
        List.flatten := by
  have hmap : immediatePackageDirs t dir =
      (names.mapM (entryPackageDirs t dir)).map List.flatten := by
    unfold immediatePackageDirs
    rw [hsorted]
    simp only [bind, Except.bind]
    cases names.mapM (entryPackageDirs t dir) <;> rfl
  rw [hmap]
  apply Results.mapM_flatten_filter
  intro name hname hbin
  obtain rfl : name = binName := by simpa using hbin
  exact entryPackageDirs_bin hdir hd (hchild _ hname)

variable (h : PackageTree v m t) (happart : Apart v m) (hsame : SameOutside (BinZone v m) t t')
  (hnode : NodeModulesDir v m d) (hdir : LeadsTo dir d) (hd : t.get d = some .dir)
include h happart hsame hnode hdir hd

/-- One entry gives the same package directories. -/
theorem PackageTree.entryPackageDirs_same {name : Text} (htaken : t.get (d ++ [name]) ≠ none)
    (hname : name ≠ binName) : entryPackageDirs t' dir name = entryPackageDirs t dir name := by
  have hplain := plainChildren_of_plainNames h.names d name htaken
  have hpath := leadsTo_child hdir hplain
  have hkept := hsame d (happart.not_binZone_above hnode List.prefix_rfl)
  have hd' : t'.get d = some .dir := hkept.trans hd
  have hget := hsame _ ((binFree_concat happart hnode hd hname).outside _ List.prefix_rfl)
  have htype := fileType_same hpath hd hd' hget
  unfold entryPackageDirs
  simp only [htype, isDirOrLink_same hpath hd hd' hget]
  obtain ⟨node, hnode'⟩ := Option.ne_none_iff_exists'.mp htaken
  rw [fileType_of_dir hpath hd, hnode']
  simp only [Except.mapError, bind, Except.bind]
  by_cases hdot : name.head? = some '.'
  · rw [if_pos hdot, if_pos hdot]
  · rw [if_neg hdot, if_neg hdot]
    by_cases hscope : name.head? = some '@' ∧ node = .dir
    · rw [if_pos hscope, if_pos hscope]
      obtain ⟨hat, rfl⟩ := hscope
      have hout : ∀ x, t'.get (d ++ [name] ++ [x]) = t.get (d ++ [name] ++ [x]) :=
        fun x =>
          hsame _ ((binFree_scoped happart hnode hat hnode' x).outside _ List.prefix_rfl)
      obtain ⟨names, names', hnames, hnames', heq, hchild, -⟩ :=
        sortedEntries_same (fun _ => true) hpath hnode' (hget.trans hnode')
          fun x _ => by rw [hout]
      rw [List.filter_true, List.filter_true] at heq
      rw [hnames', hnames, heq]
      simp only
      congr 1
      apply List.filter_congr
      intro path hmem
      obtain ⟨x, hx, rfl⟩ := List.mem_map.mp hmem
      have hxplain := plainChildren_of_plainNames h.names _ x (hchild x hx)
      exact isDirOrLink_same (leadsTo_child hpath hxplain) hnode' (hget.trans hnode') (hout x)
    · rw [if_neg hscope, if_neg hscope]

/-- The packages of a directory are the same. -/
theorem PackageTree.immediatePackageDirs_same :
    immediatePackageDirs t' dir = immediatePackageDirs t dir := by
  have hkept := hsame d (happart.not_binZone_above hnode List.prefix_rfl)
  have hd' : t'.get d = some .dir := hkept.trans hd
  have hnames : ∀ name, (name != binName) = true →
      (t'.get (d ++ [name]) = none ↔ t.get (d ++ [name]) = none) := by
    intro name hname
    have hfree := binFree_concat happart hnode hd (by simpa using hname)
    rw [hsame _ (hfree.outside _ List.prefix_rfl)]
  obtain ⟨names, names', hsorted, hsorted', heq, hchild, hchild'⟩ :=
    sortedEntries_same (fun name => name != binName) hdir hd hd' hnames
  have hentries : ∀ name ∈ names.filter fun name => name != binName,
      entryPackageDirs t' dir name = entryPackageDirs t dir name := by
    intro name hname
    obtain ⟨hmem, hne⟩ := List.mem_filter.mp hname
    have htaken := hchild name hmem
    exact h.entryPackageDirs_same happart hsame hnode hdir hd htaken (by simpa using hne)
  rw [immediatePackageDirs_eq hdir hd hsorted hchild,
    immediatePackageDirs_eq hdir hd' hsorted' hchild', heq, Results.mapM_congr hentries]

omit hsame in
/-- The packages stand beside the `.bin` directories. -/
theorem PackageTree.binFree_of_mem {packageDirs : List Text}
    (hrun : immediatePackageDirs t dir = .ok packageDirs) {path : Text}
    (hpath : path ∈ packageDirs) : ∃ q, LeadsTo path q ∧ BinFree v m t q := by
  obtain ⟨names, hnames, hrun⟩ := Results.bind_ok hrun
  obtain ⟨lists, hlists, hrun⟩ := Results.bind_ok hrun
  cases hrun
  obtain ⟨list, hlist, hmem⟩ := List.mem_flatten.mp hpath
  obtain ⟨name, hname, hentry⟩ := Results.exists_of_mem_mapM hlists hlist
  obtain ⟨type, htype, hentry⟩ := Results.bind_ok hentry
  obtain ⟨listed, -, hsorted, -, -, hchild, -⟩ :=
    sortedEntries_same (fun _ => true) hdir hd hd fun _ _ => Iff.rfl
  rw [hsorted] at hnames
  cases hnames
  have hplain := plainChildren_of_plainNames h.names d name (hchild name hname)
  have hplace := leadsTo_child hdir hplain
  split at hentry
  · cases hentry
    cases hmem
  · rename_i hdot
    split at hentry
    · rename_i hscope
      have hnode' : t.get (d ++ [name]) = some .dir := by
        have hget := Results.mapError_ok htype
        rw [fileType_of_dir hplace hd] at hget
        split at hget
        · rename_i node hnode'
          cases hget
          rw [hnode', hscope.2]
        · cases hget
      obtain ⟨listed', -, hsorted', -, -, hchild', -⟩ :=
        sortedEntries_same (fun _ => true) hplace hnode' hnode'
          fun _ _ => Iff.rfl
      rw [hsorted'] at hentry
      cases hentry
      obtain ⟨x, hx, rfl⟩ := List.mem_map.mp (List.mem_filter.mp hmem).1
      have hxplain := plainChildren_of_plainNames h.names _ x (hchild' x hx)
      exact ⟨_, leadsTo_child hplace hxplain, binFree_scoped happart hnode hscope.1 hnode' x⟩
    · split at hentry
      · cases hentry
        rw [List.mem_singleton.mp hmem]
        refine ⟨_, hplace, binFree_concat happart hnode hd ?_⟩
        rintro rfl
        exact hdot rfl
      · cases hentry
        cases hmem

end Listing

section Links

variable {v m : Loc} {t t' : Tree} {d : Loc} {dir : Text} {binEntries : BinEntries}

theorem PackageTree.packageBins_same (h : PackageTree v m t)
    (hsame : SameOutside (BinZone v m) t t') {path : Text} {q : Loc} (hpath : LeadsTo path q)
    (hq : BinFree v m t q) : packageBins binEntries t' path = packageBins binEntries t path := by
  have hmanifest : LeadsTo (join path "package.json".toList) (q ++ ["package.json".toList]) :=
    hpath.join (by decide) (by decide)
  have hout := hq.staysOut ["package.json".toList] (by decide)
  have hlinks := h.linksStayOut
  unfold packageBins
  simp only
  rw [hmanifest, pathExists_same hsame hlinks not_binZone_nil hout,
    readFile_same hsame hlinks not_binZone_nil hout]

/-- The links of a directory depend on what is beside the `.bin` directories only. -/
theorem PackageTree.binLinks_same (h : PackageTree v m t) (happart : Apart v m)
    (hsame : SameOutside (BinZone v m) t t') (hnode : NodeModulesDir v m d) (hdir : LeadsTo dir d)
    (hd : t.get d = some .dir) : binLinks binEntries t' dir = binLinks binEntries t dir := by
  unfold binLinks
  rw [h.immediatePackageDirs_same happart hsame hnode hdir hd]
  cases hrun : immediatePackageDirs t dir with
  | error e => rfl
  | ok packageDirs =>
      simp only [bind, Except.bind]
      rw [Results.mapM_congr fun path hpath => ?_]
      obtain ⟨q, hplace, hq⟩ := h.binFree_of_mem happart hnode hdir hd hrun hpath
      exact h.packageBins_same hsame hplace hq

end Links

end Npnpm
