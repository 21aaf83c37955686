import Npnpm.PackageManager.BinDeclarations

/-!
# Where the bin links lead

The names and the targets of the bins are joined to the paths of the `.bin` directory and of
the package as they stand in the manifest. They stay there, wherever the packages are
installed, exactly when they are paths that do not climb.
-/

namespace Npnpm

open Npnpm.Path Npnpm.FileTree

section Manifest

/-- The bins of a `package.json`, which `parse` reads. -/
def readBinEntries (parse : Text → Except Text PackageManifest) : BinEntries := fun content => do
  let manifest ← parse content
  manifest.binEntries.mapError fun error =>
    match error with
    | .serialization message => message
    | _ => []

variable {parse : Text → Except Text PackageManifest} {t : Tree}

theorem nodup_of_manifestBins {package : PackageBins}
    (h : ManifestBins (readBinEntries parse) t package) : (package.2.map Prod.fst).Nodup := by
  unfold ManifestBins at h
  simp only at h
  split at h
  · obtain ⟨content, -, h⟩ := h
    obtain ⟨manifest, -, h⟩ := Results.bind_ok h
    exact PackageManifest.binEntries_nodup (Results.mapError_ok h)
  · rw [h]
    exact List.nodup_nil

end Manifest

section Contained

variable {packages : List PackageBins} {name packageDir target : Text}

/-- The packages in other directories. -/
def relocate (dirOf : Text → Text) (packages : List PackageBins) : List PackageBins :=
  packages.map fun package => (dirOf package.1, package.2)

theorem firstDeclares_relocate {dirOf : Text → Text} :
    FirstDeclares (relocate dirOf packages) name packageDir target ↔
      ∃ dir, FirstDeclares packages name dir target ∧ dirOf dir = packageDir := by
  induction packages with
  | nil =>
      constructor
      · rintro ⟨before, _, _, hsplit, -⟩
        simp [relocate] at hsplit
      · rintro ⟨_, ⟨before, _, _, hsplit, -⟩, -⟩
        simp at hsplit
  | cons package packages ih =>
      rw [relocate, List.map_cons, firstDeclares_cons, ← relocate, ih]
      simp only [firstDeclares_cons]
      constructor
      · rintro (⟨rfl, hmem⟩ | ⟨hnot, dir, hfirst, rfl⟩)
        · exact ⟨package.1, Or.inl ⟨rfl, hmem⟩, rfl⟩
        · exact ⟨dir, Or.inr ⟨hnot, hfirst⟩, rfl⟩
      · rintro ⟨dir, ⟨rfl, hmem⟩ | ⟨hnot, hfirst⟩, rfl⟩
        · exact Or.inl ⟨rfl, hmem⟩
        · exact Or.inr ⟨hnot, dir, hfirst, rfl⟩

/-- The links of a directory lie in its `.bin` directory and lead into the packages that
declare them. -/
def BinsContained (nodeModulesDir : Text) (packages : List PackageBins) : Prop :=
  ∀ b ∈ packageLinks packages,
    DirectlyInside (join nodeModulesDir ".bin".toList)
      (join (join nodeModulesDir ".bin".toList) b.1) ∧
    ∃ packageDir target, FirstDeclares packages b.1 packageDir target ∧
      b.2 = join packageDir target ∧ Within packageDir b.2

/-- A bin whose name leads to an entry of `.bin` and whose target does not leave the package. -/
structure ContainedBin (name target : Text) : Prop where
  entry : EntryPath ".bin".toList name
  relative : isAbsolute target = false
  descends : Descends 0 (body target)

theorem forall_binsContained_iff (hnames : ∀ p ∈ packages, (p.2.map Prod.fst).Nodup) :
    (∀ (nodeModulesDir : Text) (dirOf : Text → Text),
      BinsContained nodeModulesDir (relocate dirOf packages)) ↔
        ∀ name packageDir target, FirstDeclares packages name packageDir target →
          ContainedBin name target := by
  have hrelocated : ∀ dirOf, ∀ p ∈ relocate dirOf packages, (p.2.map Prod.fst).Nodup := by
    intro dirOf p hp
    obtain ⟨package, hpackage, rfl⟩ := List.mem_map.mp hp
    exact hnames package hpackage
  constructor
  · intro h name packageDir target hfirst
    have hlink : ∀ dir, (name, join dir target) ∈ packageLinks (relocate (fun _ => dir) packages) :=
      fun dir => (mem_packageLinks_iff (hrelocated _)).mpr
        ⟨dir, target, firstDeclares_relocate.mpr ⟨packageDir, hfirst, rfl⟩, rfl⟩
    have hentry := (forall_directlyInside_iff (by decide) name).mp fun dir =>
      (h dir (fun _ => dir) _ (hlink dir)).1
    have htarget := (forall_within_join_iff target).mp fun dir => by
      obtain ⟨-, dir', target', hfirst', -, hwithin⟩ := h dir (fun _ => dir) _ (hlink dir)
      obtain ⟨-, -, rfl⟩ := firstDeclares_relocate.mp hfirst'
      exact hwithin
    exact ⟨hentry, htarget.1, htarget.2⟩
  · intro h nodeModulesDir dirOf b hb
    obtain ⟨packageDir, target, hfirst, heq⟩ := (mem_packageLinks_iff (hrelocated dirOf)).mp hb
    obtain ⟨dir, hdeclares, -⟩ := firstDeclares_relocate.mp hfirst
    have hcontained := h b.1 dir target hdeclares
    refine ⟨?_, packageDir, target, hfirst, heq, ?_⟩
    · exact (forall_directlyInside_iff (by decide) b.1).mpr hcontained.entry nodeModulesDir
    · rw [heq]
      exact (forall_within_join_iff target).mpr ⟨hcontained.relative, hcontained.descends⟩
        packageDir

end Contained

section Run

variable {parse : Text → Except Text PackageManifest} {t t' : Tree} {dir : Text}

/-- The links that a directory gets are those of its packages. They lie in the `.bin`
directory and lead into the packages, wherever these are installed, exactly when every bin
that a package is the first to declare has a name that leads to an entry of `.bin` and a
target that does not leave the package. -/
theorem createBinLinksForNodeModules_contained_iff
    (h : createBinLinksForNodeModules (readBinEntries parse) t dir = .ok t') :
    ∃ packages, ScannedPackages (readBinEntries parse) t dir packages ∧
      (∃ s, (packageLinks packages).foldlM (createBinLink (join dir ".bin".toList)) s = .ok t') ∧
      ((∀ (nodeModulesDir : Text) (dirOf : Text → Text),
        BinsContained nodeModulesDir (relocate dirOf packages)) ↔
          ∀ name packageDir target, FirstDeclares packages name packageDir target →
            ContainedBin name target) := by
  rw [createBinLinksForNodeModules_eq] at h
  obtain ⟨links, hlinks, h⟩ := Results.bind_ok h
  obtain ⟨packages, hscanned, rfl⟩ := binLinks_ok hlinks
  refine ⟨packages, hscanned, ?_, forall_binsContained_iff fun p hp =>
    nodup_of_manifestBins (hscanned.bins p hp)⟩
  cases hcollect : packageLinks packages with
  | nil => exact ⟨t', rfl⟩
  | cons first rest =>
      simp only [hcollect] at h
      split at h
      all_goals
        obtain ⟨s, -, h⟩ := Results.bind_ok h
        obtain ⟨s', -, h⟩ := Results.bind_ok h
        exact ⟨s', h⟩

/-- A manifest with one bin. -/
def oneBin (name target : Text) : PackageManifest :=
  ⟨.object (.ofList [("name".toList, .string "a".toList),
    ("bin".toList, .object (.ofList [(name, .string target)]))])⟩

/-- The text of this manifest. -/
def oneBinText (name target : Text) : Text :=
  "\x7b\"name\":\"a\",\"bin\":\x7b\"".toList ++ name ++ "\":\"".toList ++ target ++
    "\"\x7d\x7d".toList

def parseOneBin (name target content : Text) : Except Text PackageManifest :=
  if content = oneBinText name target then .ok (oneBin name target) else .error []

/-- A project with one package, which has this manifest. -/
def oneBinTree (name target : Text) : Tree :=
  ((createDirAll .empty (components "/project/node_modules/a".toList)).bind fun t =>
    makeTarget t (components "/project/node_modules/a/package.json".toList)
      (.file (oneBinText name target))).toOption.getD .empty

def oneBinRun (name target : Text) : Except CreateBinsError Tree :=
  createBinLinksForNodeModules (readBinEntries (parseOneBin name target)) (oneBinTree name target)
    "/project/node_modules".toList

/-- The bin of the manifest is the only one. -/
theorem eq_cli_of_manifestBins {t : Tree} {package : PackageBins}
    (h : ManifestBins (readBinEntries (parseOneBin "cli".toList "bin/cli.js".toList)) t package) :
    ∀ b ∈ package.2, b = ("cli".toList, "bin/cli.js".toList) := by
  unfold ManifestBins at h
  simp only at h
  split at h
  · obtain ⟨content, -, h⟩ := h
    obtain ⟨manifest, hparse, hentries⟩ := Results.bind_ok h
    unfold parseOneBin at hparse
    split at hparse
    · obtain rfl := Except.ok.inj hparse
      have hone : (oneBin "cli".toList "bin/cli.js".toList).binEntries =
          .ok [("cli".toList, "bin/cli.js".toList)] := rfl
      rw [← Except.ok.inj (hone.symm.trans (Results.mapError_ok hentries))]
      exact fun b hb => List.mem_singleton.mp hb
    · cases hparse
  · rw [h]
    exact fun b hb => absurd hb List.not_mem_nil

/-- The bin `cli` is contained wherever the package is installed. -/
theorem createBinLinksForNodeModules_contained_iff_cli :
    ∃ packages t', oneBinRun "cli".toList "bin/cli.js".toList = .ok t' ∧
      ScannedPackages (readBinEntries (parseOneBin "cli".toList "bin/cli.js".toList))
        (oneBinTree "cli".toList "bin/cli.js".toList) "/project/node_modules".toList packages ∧
      ((∀ (nodeModulesDir : Text) (dirOf : Text → Text),
        BinsContained nodeModulesDir (relocate dirOf packages)) ↔
          ∀ name packageDir target, FirstDeclares packages name packageDir target →
            ContainedBin name target) ∧
      ∀ (nodeModulesDir : Text) (dirOf : Text → Text),
        BinsContained nodeModulesDir (relocate dirOf packages) := by
  have hrun : (oneBinRun "cli".toList "bin/cli.js".toList).toOption.map (fun t =>
      t.get ["project".toList, "node_modules".toList, ".bin".toList, "cli".toList]) =
        some (some (.link "/project/node_modules/a/bin/cli.js".toList)) := by decide +kernel
  obtain ⟨t', ht', -⟩ := Results.exists_of_toOption_map hrun
  obtain ⟨packages, hscanned, -, hiff⟩ := createBinLinksForNodeModules_contained_iff ht'
  refine ⟨packages, t', ht', hscanned, hiff, hiff.mpr ?_⟩
  rintro name packageDir target ⟨before, entries, after, rfl, -, hmem⟩
  have hbins := hscanned.bins (packageDir, entries) (by simp)
  obtain ⟨rfl, rfl⟩ := Prod.mk.inj (eq_cli_of_manifestBins hbins _ hmem)
  exact ⟨⟨rfl, by decide, "cli".toList, by decide⟩, rfl, by decide⟩

/-- A link beside the `.bin` directory, which leads out of the package. -/
theorem createBinLinksForNodeModules_escapes :
    ∃ t', oneBinRun "../evil".toList "../../outside.js".toList = .ok t' ∧
      t'.get ["project".toList, "node_modules".toList, "evil".toList] =
        some (.link "/project/node_modules/a/../../outside.js".toList) ∧
      ¬DirectlyInside "/project/node_modules/.bin".toList
        (join "/project/node_modules/.bin".toList "../evil".toList) ∧
      ¬Within "/project/node_modules/a".toList
        (join "/project/node_modules/a".toList "../../outside.js".toList) := by
  have hrun : (oneBinRun "../evil".toList "../../outside.js".toList).toOption.map (fun t =>
      t.get ["project".toList, "node_modules".toList, "evil".toList]) =
        some (some (.link "/project/node_modules/a/../../outside.js".toList)) := by decide +kernel
  obtain ⟨t', ht', hlink⟩ := Results.exists_of_toOption_map hrun
  refine ⟨t', ht', hlink, ?_, ?_⟩
  · rintro ⟨name, hname⟩
    have hjoined :
        (place (join "/project/node_modules/.bin".toList "../evil".toList)).names.length = 3 := by
      decide +kernel
    have hdir : (place "/project/node_modules/.bin".toList).names.length = 3 := by decide +kernel
    have hlen := congrArg (fun p => p.names.length) hname
    simp only [List.length_append, hjoined, hdir, List.length_singleton] at hlen
    omega
  · rintro ⟨rest, hrest⟩
    have hjoined : (place (join "/project/node_modules/a".toList
        "../../outside.js".toList)).names.length = 2 := by decide +kernel
    have hdir : (place "/project/node_modules/a".toList).names.length = 3 := by decide +kernel
    have hlen := congrArg (fun p => p.names.length) hrest
    simp only [List.length_append, hjoined, hdir] at hlen
    omega

end Run

end Npnpm
