import Npnpm.PackageManager.CreateBins
import Npnpm.PackageManifest.Bins

/-!
# The bins that packages declare

The links of a `.bin` directory are those of the packages beside it: every name goes to the
first package that declares it, and to the file that it declares there.
-/

namespace Npnpm

open Npnpm.Path Npnpm.FileTree

section Collect

theorem get_foldl_firstWins (bins : List (Text × Text)) (links : KeyedMap Text Text) (name : Text) :
    (bins.foldl (fun links e =>
      if (links.get e.1).isSome then links else links.insert e.1 e.2) links).get name =
        (links.get name).or ((bins.find? fun e => e.1 == name).map Prod.snd) := by
  induction bins generalizing links with
  | nil => exact Option.or_none.symm
  | cons e bins ih =>
      rw [List.foldl_cons, ih, List.find?_cons]
      by_cases hname : e.1 = name
      · rw [hname, beq_self_eq_true]
        cases hget : links.get name with
        | some target =>
            rw [if_pos Option.isSome_some, hget]
            rfl
        | none =>
            rw [if_neg (by simp), KeyedMap.get_insert, if_pos (beq_self_eq_true name)]
            rfl
      · rw [beq_eq_false_iff_ne.mpr hname]
        split
        · rfl
        · rw [KeyedMap.get_insert, if_neg (by simpa using hname)]

/-- The links are the first declarations of their names. -/
theorem mem_collectBins_iff {bins : List (Text × Text)} {b : Text × Text} :
    b ∈ collectBins bins ↔ (bins.find? fun e => e.1 == b.1) = some b := by
  have hget := get_foldl_firstWins bins .empty b.1
  unfold collectBins
  simp only [List.mem_insertionSort]
  rw [← Prod.mk.eta (p := b), ← KeyedMap.get_eq_some_iff, hget]
  cases hfind : bins.find? fun e => e.1 == b.1 with
  | none => simp [KeyedMap.empty, KeyedMap.get]
  | some e =>
      have hname : e.1 = b.1 := by simpa using List.find?_some hfind
      constructor
      · intro h
        rw [← hname, ← Option.some.inj h]
      · intro h
        rw [Option.some.inj h]
        rfl

theorem collectBins_distinct (bins : List (Text × Text)) :
    (collectBins bins).Pairwise fun a b => a.1 ≠ b.1 := by
  unfold collectBins
  simp only
  refine (List.perm_insertionSort _ _).symm.pairwise ?_ fun hne => hne.symm
  exact (KeyedMap.distinct _).imp fun hne heq => by simp [heq] at hne

end Collect

section Declarations

/-- A package directory with the bins of its manifest. -/
abbrev PackageBins := Text × List (Text × Text)

/-- The first package that declares the name. -/
def FirstDeclares (packages : List PackageBins) (name packageDir target : Text) : Prop :=
  ∃ before entries after, packages = before ++ (packageDir, entries) :: after ∧
    (∀ p ∈ before, name ∉ p.2.map Prod.fst) ∧ (name, target) ∈ entries

/-- The bins of a package, sorted, with the targets in its directory. -/
def declaredBins (package : PackageBins) : List (Text × Text) :=
  (package.2.insertionSort fun a b =>
    textLe a.1 b.1 && (a.1 != b.1 || textLe a.2 b.2)).map fun e => (e.1, join package.1 e.2)

/-- The links of packages in their order. -/
def packageLinks (packages : List PackageBins) : List (Text × Text) :=
  collectBins (packages.flatMap declaredBins)

variable {packages : List PackageBins} {name packageDir target : Text}

theorem firstDeclares_cons {package : PackageBins} :
    FirstDeclares (package :: packages) name packageDir target ↔
      package.1 = packageDir ∧ (name, target) ∈ package.2 ∨
        name ∉ package.2.map Prod.fst ∧ FirstDeclares packages name packageDir target := by
  constructor
  · rintro ⟨before, entries, after, hsplit, hbefore, hmem⟩
    cases before with
    | nil =>
        obtain ⟨rfl, -⟩ := List.cons.inj hsplit
        exact Or.inl ⟨rfl, hmem⟩
    | cons first before =>
        obtain ⟨rfl, rfl⟩ := List.cons.inj hsplit
        exact Or.inr ⟨hbefore _ List.mem_cons_self, before, entries, after, rfl,
          fun p hp => hbefore p (List.mem_cons_of_mem _ hp), hmem⟩
  · rintro (⟨rfl, hmem⟩ | ⟨hnot, before, entries, after, rfl, hbefore, hmem⟩)
    · exact ⟨[], package.2, packages, rfl, by simp, hmem⟩
    · refine ⟨package :: before, entries, after, rfl, fun p hp => ?_, hmem⟩
      rcases List.mem_cons.mp hp with rfl | hp
      · exact hnot
      · exact hbefore p hp

theorem mem_declaredBins {package : PackageBins} {b : Text × Text} :
    b ∈ declaredBins package ↔
      ∃ target, (b.1, target) ∈ package.2 ∧ b.2 = join package.1 target := by
  unfold declaredBins
  rw [List.mem_map]
  constructor
  · rintro ⟨e, he, rfl⟩
    exact ⟨e.2, (List.mem_insertionSort _).mp he, rfl⟩
  · rintro ⟨target, hmem, htarget⟩
    exact ⟨_, (List.mem_insertionSort _).mpr hmem, by rw [← htarget]⟩

/-- A package that declares no name twice gives a name its declaration. -/
theorem find?_declaredBins {package : PackageBins} (hnames : (package.2.map Prod.fst).Nodup)
    {b : Text × Text} :
    ((declaredBins package).find? fun e => e.1 == name) = some b ↔
      b.1 = name ∧ b ∈ declaredBins package := by
  constructor
  · intro h
    exact ⟨by simpa using List.find?_some h, List.mem_of_find?_eq_some h⟩
  · rintro ⟨rfl, hmem⟩
    cases hfind : (declaredBins package).find? fun e => e.1 == b.1 with
    | none =>
        have hnot := List.find?_eq_none.mp hfind b hmem
        exact absurd (beq_self_eq_true b.1) hnot
    | some e =>
        have he : e.1 = b.1 := by simpa using List.find?_some hfind
        obtain ⟨target, htarget, heq⟩ := mem_declaredBins.mp hmem
        obtain ⟨target', htarget', heq'⟩ := mem_declaredBins.mp (List.mem_of_find?_eq_some hfind)
        rw [he] at htarget'
        have hsame := List.inj_on_of_nodup_map hnames htarget htarget' rfl
        exact congrArg some (Prod.ext he (by rw [heq', heq, (Prod.mk.inj hsame).2]))

theorem find?_flatMap_declaredBins (hnames : ∀ p ∈ packages, (p.2.map Prod.fst).Nodup)
    {b : Text × Text} :
    ((packages.flatMap declaredBins).find? fun e => e.1 == name) = some b ↔
      b.1 = name ∧ ∃ packageDir target, FirstDeclares packages name packageDir target ∧
        b.2 = join packageDir target := by
  induction packages with
  | nil =>
      constructor
      · intro h
        cases h
      · rintro ⟨-, _, _, ⟨before, _, _, hsplit, -⟩, -⟩
        simp at hsplit
  | cons package packages ih =>
      have hrest := ih fun p hp => hnames p (List.mem_cons_of_mem _ hp)
      have hpackage : ((declaredBins package).find? fun e => e.1 == name) = some b ↔
          b.1 = name ∧ b ∈ declaredBins package :=
        find?_declaredBins (hnames package List.mem_cons_self)
      simp only [firstDeclares_cons]
      rw [List.flatMap_cons, List.find?_append]
      cases hfind : (declaredBins package).find? fun e => e.1 == name with
      | some e =>
          rw [hfind] at hpackage
          rw [Option.some_or, hpackage]
          have hdeclares : name ∈ package.2.map Prod.fst := by
            have he : e.1 = name := by simpa using List.find?_some hfind
            obtain ⟨target, htarget, -⟩ := mem_declaredBins.mp (List.mem_of_find?_eq_some hfind)
            rw [← he]
            exact List.mem_map.mpr ⟨_, htarget, rfl⟩
          constructor
          · rintro ⟨rfl, hmem⟩
            obtain ⟨target, htarget, heq⟩ := mem_declaredBins.mp hmem
            exact ⟨rfl, _, target, Or.inl ⟨rfl, htarget⟩, heq⟩
          · rintro ⟨rfl, packageDir, target, ⟨rfl, htarget⟩ | ⟨hnot, -⟩, heq⟩
            · exact ⟨rfl, mem_declaredBins.mpr ⟨target, htarget, heq⟩⟩
            · exact absurd hdeclares hnot
      | none =>
          have hnot : name ∉ package.2.map Prod.fst := by
            intro hmem
            obtain ⟨⟨name', target⟩, htarget, rfl⟩ := List.mem_map.mp hmem
            have hmem : (name', join package.1 target) ∈ declaredBins package :=
              mem_declaredBins.mpr ⟨target, htarget, rfl⟩
            exact List.find?_eq_none.mp hfind _ hmem (beq_self_eq_true name')
          rw [Option.none_or, hrest]
          constructor
          · rintro ⟨hb, packageDir, target, hfirst, heq⟩
            exact ⟨hb, packageDir, target, Or.inr ⟨hnot, hfirst⟩, heq⟩
          · rintro ⟨hb, packageDir, target, ⟨rfl, htarget⟩ | ⟨-, hfirst⟩, heq⟩
            · exact absurd (List.mem_map_of_mem htarget) hnot
            · exact ⟨hb, packageDir, target, hfirst, heq⟩

/-- Every name is linked once, to the file that the first package declares for it. -/
theorem mem_packageLinks_iff (hnames : ∀ p ∈ packages, (p.2.map Prod.fst).Nodup)
    {b : Text × Text} :
    b ∈ packageLinks packages ↔ ∃ packageDir target,
      FirstDeclares packages b.1 packageDir target ∧ b.2 = join packageDir target := by
  rw [packageLinks, mem_collectBins_iff, find?_flatMap_declaredBins hnames]
  exact ⟨fun h => h.2, fun h => ⟨rfl, h⟩⟩

end Declarations

section Links

variable {binEntries : BinEntries} {t t' : Tree} {dir : Text}

/-- The links that the bins of a directory are given. -/
def binLinks (binEntries : BinEntries) (t : Tree) (nodeModulesDir : Text) :
    Except CreateBinsError (List (Text × Text)) := do
  let packageDirs ← immediatePackageDirs t nodeModulesDir
  let bins ← packageDirs.mapM (packageBins binEntries t)
  .ok (collectBins bins.flatten)

theorem createBinLinksForNodeModules_eq :
    createBinLinksForNodeModules binEntries t dir = (do
      let links ← binLinks binEntries t dir
      let binDir := join dir ".bin".toList
      let t ← if pathExists t (components binDir) then
          (removeDirAll t (components binDir)).mapError (.removeBinDir binDir)
        else .ok t
      match links with
      | [] => .ok t
      | links => do
          let t ← (createDirAll t (components binDir)).mapError (.createBinDir binDir)
          links.foldlM (createBinLink binDir) t) := by
  unfold createBinLinksForNodeModules binLinks
  cases immediatePackageDirs t dir with
  | error e => rfl
  | ok packageDirs =>
      simp only [bind, Except.bind]
      cases packageDirs.mapM (packageBins binEntries t) <;> rfl

/-- The bins that a package declares, if it has a manifest. -/
def ManifestBins (binEntries : BinEntries) (t : Tree) (package : PackageBins) : Prop :=
  let manifestPath := components (join package.1 "package.json".toList)
  if pathExists t manifestPath then
    ∃ content, readFile t manifestPath = .ok content ∧ binEntries content = .ok package.2
  else package.2 = []

/-- The packages of a directory in their order, with the bins that they declare. -/
structure ScannedPackages (binEntries : BinEntries) (t : Tree) (dir : Text)
    (packages : List PackageBins) : Prop where
  dirs : immediatePackageDirs t dir = .ok (packages.map Prod.fst)
  bins : ∀ package ∈ packages, ManifestBins binEntries t package

theorem packageBins_ok {packageDir : Text} {bins : List (Text × Text)}
    (h : packageBins binEntries t packageDir = .ok bins) :
    ∃ entries, ManifestBins binEntries t (packageDir, entries) ∧
      bins = declaredBins (packageDir, entries) := by
  unfold packageBins at h
  unfold ManifestBins
  simp only at h ⊢
  split at h
  · rename_i hexists
    simp only [if_pos hexists]
    split at h
    · cases h
    · rename_i content hcontent
      obtain ⟨entries, hentries, h⟩ := Results.bind_ok h
      cases h
      exact ⟨entries, ⟨content, hcontent, Results.mapError_ok hentries⟩, rfl⟩
  · rename_i hmissing
    cases h
    simp only [if_neg hmissing]
    exact ⟨[], rfl, rfl⟩

theorem mapM_packageBins_ok {packageDirs : List Text} {bins : List (List (Text × Text))}
    (h : packageDirs.mapM (packageBins binEntries t) = .ok bins) :
    ∃ packages : List PackageBins, packages.map Prod.fst = packageDirs ∧
      (∀ package ∈ packages, ManifestBins binEntries t package) ∧
      bins = packages.map declaredBins := by
  induction packageDirs generalizing bins with
  | nil =>
      cases h
      exact ⟨[], rfl, by simp, rfl⟩
  | cons packageDir packageDirs ih =>
      rw [List.mapM_cons] at h
      obtain ⟨first, hfirst, h⟩ := Results.bind_ok h
      obtain ⟨rest, hrest, h⟩ := Results.bind_ok h
      cases h
      obtain ⟨entries, hentries, rfl⟩ := packageBins_ok hfirst
      obtain ⟨packages, rfl, hall, rfl⟩ := ih hrest
      refine ⟨(packageDir, entries) :: packages, rfl, fun package hpackage => ?_, rfl⟩
      rcases List.mem_cons.mp hpackage with rfl | hpackage
      · exact hentries
      · exact hall package hpackage

/-- The links of a directory are those of the packages that are scanned. -/
theorem binLinks_ok {links : List (Text × Text)} (h : binLinks binEntries t dir = .ok links) :
    ∃ packages, ScannedPackages binEntries t dir packages ∧ links = packageLinks packages := by
  obtain ⟨packageDirs, hdirs, h⟩ := Results.bind_ok h
  obtain ⟨bins, hbins, h⟩ := Results.bind_ok h
  cases h
  obtain ⟨packages, rfl, hall, rfl⟩ := mapM_packageBins_ok hbins
  exact ⟨packages, ⟨hdirs, hall⟩, by rw [packageLinks, List.flatMap_def]⟩

end Links

end Npnpm
