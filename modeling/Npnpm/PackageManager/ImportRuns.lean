import Npnpm.Library.Run
import Npnpm.Library.Walks
import Npnpm.PackageManager.LinkPackages

/-!
# Imports that fail and are tried again

`create_cas_files` takes a directory that exists for a package that was imported, but it
creates the directory before it links the files. A call that fails or is killed in between
leaves a directory that the next call does not look into.

## Implementation notes

The calls for one directory come one after the other. The steps of a call are the ones
that a failure can come between: each directory that `create_dir_all` makes, and each file.
The files are linked in any order, as the parallel iterator takes them.
-/

namespace Npnpm

open Npnpm.Path Npnpm.FileTree

namespace CreateCasFiles

/-- Where a call stands once it has found no directory. -/
inductive Phase
  | makingDirs (dirs : List (List Component))
  | linking (rest : List (Text × Text))

structure State where
  tree : Tree
  call : Option Phase

inductive Event
  | found
  | missing
  | madeDir (dir : List Component)
  | dirDone
  | dirsDone
  | linked (e : Text × Text)
  | finished
  | stopped
deriving DecidableEq

variable (importMethod : PackageImportMethod) (dirPath : Text) (casPaths : CasPaths)

inductive Step (s : State) : Event → State → Prop
  -- `found` and `finished` are the two ways to return `Ok`
  | found (hidle : s.call = none) (hexists : pathExists s.tree (components dirPath) = true) :
      Step s .found s
  | missing (hidle : s.call = none) (hexists : pathExists s.tree (components dirPath) = false) :
      Step s .missing
        ⟨s.tree, some (.makingDirs (components dirPath :: parentDirs dirPath casPaths))⟩
  | madeDir {dir dirs p t} (hcall : s.call = some (.makingDirs (dir :: dirs))) (hp : p <+: dir)
      (hmade : mkdir s.tree p = .ok t) : Step s (.madeDir p) ⟨t, s.call⟩
  | dirDone {dir dirs t} (hcall : s.call = some (.makingDirs (dir :: dirs)))
      (hmade : createDirAll s.tree dir = .ok t) : Step s .dirDone ⟨t, some (.makingDirs dirs)⟩
  | dirsDone (hcall : s.call = some (.makingDirs [])) :
      Step s .dirsDone ⟨s.tree, some (.linking casPaths.entries)⟩
  | linked {rest e t} (hcall : s.call = some (.linking rest)) (he : e ∈ rest)
      (hlink : linkFile importMethod s.tree e.2 (join dirPath e.1) = .ok t) :
      Step s (.linked e) ⟨t, some (.linking (rest.erase e))⟩
  | finished (hcall : s.call = some (.linking [])) : Step s .finished ⟨s.tree, none⟩
  -- a failure or a kill, between any two steps
  | stopped {phase} (hcall : s.call = some phase) : Step s .stopped ⟨s.tree, none⟩

/-- The entry is in the directory: a file with the contents of its store file. -/
def Imported (t : Tree) (e : Text × Text) : Prop :=
  ∃ content, readFile t (components e.2) = .ok content ∧
    readFile t (components (join dirPath e.1)) = .ok content

/-- Every entry of the map is there. -/
def Complete (t : Tree) : Prop := ∀ e ∈ casPaths.entries, Imported dirPath t e

/-- The step lets a call return `Ok`. -/
def ReturnsOk (x : State × Event × State) : Prop := x.2.1 = .found ∨ x.2.1 = .finished

/-- The entries that a call has not come to. -/
def Phase.left : Phase → List (Text × Text)
  | .makingDirs _ => casPaths.entries
  | .linking rest => rest

/-- What keeps an entry out for good: `link_file` takes something else that stands at the target
for the file, or a call stops with the directory there and the entry still to come. -/
inductive GoesWrong : State × Event × State → Prop
  | occupied {s e s'} (hexists : pathExists s.tree (components (join dirPath e.1)) = true)
      (hother : ¬ Imported dirPath s.tree e) : GoesWrong (s, .linked e, s')
  | cutOff {s phase e s'} (hcall : s.call = some phase)
      (hdir : pathExists s.tree (components dirPath) = true) (he : e ∈ phase.left casPaths)
      (hmissing : ¬ Imported dirPath s.tree e) : GoesWrong (s, .stopped, s')

variable {importMethod : PackageImportMethod} {dirPath : Text} {casPaths : CasPaths}
  {s s' start : State} {e : Event}

theorem Imported.of_grows {t t' : Tree} {f : Text × Text} (h : Imported dirPath t f)
    (hgrow : Grows t t') : Imported dirPath t' f := by
  obtain ⟨content, hsource, htarget⟩ := h
  exact ⟨content, readFile_of_holds hgrow.kept hsource, readFile_of_holds hgrow.kept htarget⟩

section Calls

variable {t t' : Tree}

theorem importNew_reads {source target : Text} (h : importNew t source target = .ok t') :
    ∃ content, readFile t (components source) = .ok content ∧
      readFile t' (components target) = .ok content := by
  obtain ⟨content, hcontent, hmade⟩ := Results.bind_ok h
  exact ⟨content, hcontent, readFile_of_makeNode hmade⟩

theorem importCopy_reads {source target : Text} (h : importCopy t source target = .ok t') :
    ∃ content, readFile t (components source) = .ok content ∧
      readFile t' (components target) = .ok content := by
  obtain ⟨content, hcontent, hmade⟩ := Results.bind_ok h
  exact ⟨content, hcontent, readFile_of_makeTarget hmade⟩

theorem importOrCopy_reads {source target : Text} (h : importOrCopy t source target = .ok t') :
    ∃ content, readFile t (components source) = .ok content ∧
      readFile t' (components target) = .ok content := by
  unfold importOrCopy at h
  split at h
  · rename_i hs
    cases h
    exact importNew_reads hs
  · exact importCopy_reads h

/-- `link_file` leaves the tree alone when something stands at the target; otherwise it makes
the file, by whichever method. -/
theorem linkFile_cases {f : Text × Text}
    (h : linkFile importMethod t f.2 (join dirPath f.1) = .ok t') :
    (pathExists t (components (join dirPath f.1)) = true ∧ t' = t) ∨ Imported dirPath t' f := by
  have hgrow := linkFile_grows h
  have hmade : (∃ content, readFile t (components f.2) = .ok content ∧
      readFile t' (components (join dirPath f.1)) = .ok content) → Imported dirPath t' f := by
    rintro ⟨content, hsource, htarget⟩
    exact ⟨content, readFile_of_holds hgrow.kept hsource, htarget⟩
  unfold linkFile at h
  split at h
  · rename_i hexists
    exact Or.inl ⟨hexists, (Except.ok.inj h).symm⟩
  · have hres := Results.mapError_ok h
    refine Or.inr (hmade ?_)
    cases importMethod with
    | auto => exact importOrCopy_reads hres
    | hardlink => exact importNew_reads hres
    | copy => exact importCopy_reads hres
    | clone => exact importNew_reads hres
    | cloneOrCopy => exact importOrCopy_reads hres

end Calls

section Steps

/-- No step removes anything or makes a link. -/
theorem Step.grows (h : Step importMethod dirPath casPaths s e s') : Grows s.tree s'.tree := by
  cases h with
  | found => exact .refl s.tree
  | missing => exact .refl s.tree
  | madeDir _ _ hmade => exact .of_makeNode (by simp) hmade
  | dirDone _ hmade => exact .of_createDirAll hmade
  | dirsDone => exact .refl s.tree
  | linked _ _ hlink => exact linkFile_grows hlink
  | finished => exact .refl s.tree
  | stopped => exact .refl s.tree

variable (casPaths) in
/-- A call comes to entries of the map only. -/
def LeftListed (s : State) : Prop :=
  ∀ phase, s.call = some phase → ∀ f ∈ phase.left casPaths, f ∈ casPaths.entries

theorem LeftListed.step (h : LeftListed casPaths s)
    (hstep : Step importMethod dirPath casPaths s e s') : LeftListed casPaths s' := by
  intro phase hphase f hf
  cases hstep with
  | found => exact h phase hphase f hf
  | missing =>
      cases hphase
      exact hf
  | madeDir => exact h phase hphase f hf
  | dirDone =>
      cases hphase
      exact hf
  | dirsDone =>
      cases hphase
      exact hf
  | linked hcall =>
      cases hphase
      exact h _ hcall f (List.mem_of_mem_erase hf)
  | finished => cases hphase
  | stopped => cases hphase

variable (dirPath casPaths) in
/-- What a call that links has come to is imported; between the calls the directory is not
there, or has every entry. -/
structure Sound (s : State) : Prop where
  linked : ∀ rest, s.call = some (.linking rest) → ∀ f ∈ casPaths.entries,
    f ∈ rest ∨ Imported dirPath s.tree f
  between : s.call = none → pathExists s.tree (components dirPath) = true →
    Complete dirPath casPaths s.tree

theorem Sound.complete (h : Sound dirPath casPaths s) (hcall : s.call = some (.linking [])) :
    Complete dirPath casPaths s.tree := by
  intro f hf
  rcases h.linked [] hcall f hf with hleft | himported
  · cases hleft
  · exact himported

/-- A call that stops without going wrong leaves no directory, or one with every entry. -/
theorem Sound.stopped (h : Sound dirPath casPaths s)
    (hright : ¬ GoesWrong dirPath casPaths (s, .stopped, s')) {phase : Phase}
    (hcall : s.call = some phase) (hdir : pathExists s.tree (components dirPath) = true) :
    Complete dirPath casPaths s.tree := by
  have hleft : ∀ f ∈ phase.left casPaths, Imported dirPath s.tree f := by
    intro f hf
    by_contra hmissing
    exact hright (.cutOff hcall hdir hf hmissing)
  intro f hf
  cases phase with
  | makingDirs dirs => exact hleft f hf
  | linking rest =>
      rcases h.linked rest hcall f hf with hrest | himported
      · exact hleft f hrest
      · exact himported

theorem Sound.step (h : Sound dirPath casPaths s)
    (hright : ¬ GoesWrong dirPath casPaths (s, e, s'))
    (hstep : Step importMethod dirPath casPaths s e s') : Sound dirPath casPaths s' := by
  cases hstep with
  | found => exact h
  | missing =>
      refine ⟨fun rest hrest => ?_, fun hidle => ?_⟩
      · cases hrest
      · cases hidle
  | madeDir hcall =>
      refine ⟨fun rest hrest => ?_, fun hidle => ?_⟩
      · rw [hcall] at hrest
        cases hrest
      · rw [hcall] at hidle
        cases hidle
  | dirDone =>
      refine ⟨fun rest hrest => ?_, fun hidle => ?_⟩
      · cases hrest
      · cases hidle
  | dirsDone =>
      refine ⟨fun rest hrest f hf => ?_, fun hidle => ?_⟩
      · cases hrest
        exact Or.inl hf
      · cases hidle
  | @linked before g t hcall _ hlink =>
      refine ⟨fun rest hrest f hf => ?_, fun hidle => ?_⟩
      · cases hrest
        rcases h.linked before hcall f hf with hleft | himported
        · by_cases hfg : f = g
          · subst hfg
            rcases linkFile_cases hlink with ⟨hexists, rfl⟩ | hmade
            · by_contra hnot
              exact hright (.occupied hexists fun himported => hnot (Or.inr himported))
            · exact Or.inr hmade
          · exact Or.inl ((List.mem_erase_of_ne hfg).mpr hleft)
        · exact Or.inr (himported.of_grows (linkFile_grows hlink))
      · cases hidle
  | finished hcall =>
      refine ⟨fun rest hrest => ?_, fun _ _ => h.complete hcall⟩
      cases hrest
  | stopped hcall =>
      refine ⟨fun rest hrest => ?_, fun _ hdir => h.stopped hright hcall hdir⟩
      cases hrest

/-- A step that returns `Ok` in a sound state leaves every entry. -/
theorem Sound.returns (h : Sound dirPath casPaths s)
    (hstep : Step importMethod dirPath casPaths s e s') (hreturns : ReturnsOk (s, e, s')) :
    Complete dirPath casPaths s'.tree := by
  rcases hreturns with hfound | hfinished
  · obtain rfl : e = .found := hfound
    cases hstep with
    | found hidle hexists => exact h.between hidle hexists
  · obtain rfl : e = .finished := hfinished
    cases hstep with
    | finished hcall => exact h.complete hcall

end Steps

section Spoiled

variable (dirPath) in
/-- An entry that no call brings in any more: something else is in its place, or the directory
is there without it and no call runs. -/
inductive Spoiled (s : State) (f : Text × Text) : Prop
  | occupied (content : Text) (hsource : readFile s.tree (components f.2) = .ok content)
      (hexists : pathExists s.tree (components (join dirPath f.1)) = true)
      (hother : ¬ Imported dirPath s.tree f)
  | cutOff (hidle : s.call = none) (hdir : pathExists s.tree (components dirPath) = true)
      (hmissing : ¬ Imported dirPath s.tree f)

variable {f : Text × Text}

theorem Spoiled.not_imported (h : Spoiled dirPath s f) : ¬ Imported dirPath s.tree f := by
  cases h with
  | occupied _ _ _ hother => exact hother
  | cutOff _ _ hmissing => exact hmissing

/-- What stands in the place of an entry stays there, and where the directory stands no call
begins to link. -/
theorem Spoiled.step (h : Spoiled dirPath s f)
    (hstep : Step importMethod dirPath casPaths s e s') : Spoiled dirPath s' f := by
  have hkept := hstep.grows.kept
  cases h with
  | occupied content hsource hexists hother =>
      refine .occupied content (readFile_of_holds hkept hsource)
        (pathExists_of_holds hkept hexists) ?_
      rintro ⟨content', hsource', htarget⟩
      have hsame : content' = content :=
        Except.ok.inj (hsource'.symm.trans (readFile_of_holds hkept hsource))
      rw [hsame] at htarget
      exact hother ⟨content, hsource, readFile_of_larger hkept hexists htarget⟩
  | cutOff hidle hdir hmissing =>
      cases hstep with
      | found => exact .cutOff hidle hdir hmissing
      | missing _ habsent =>
          rw [hdir] at habsent
          cases habsent
      | _ hcall => simp [hidle] at hcall

/-- A step that goes wrong spoils an entry. -/
theorem GoesWrong.spoils (h : GoesWrong dirPath casPaths (s, e, s'))
    (hstored : ∀ f ∈ casPaths.entries, ∃ content, readFile s.tree (components f.2) = .ok content)
    (hlisted : LeftListed casPaths s) (hstep : Step importMethod dirPath casPaths s e s') :
    ∃ f ∈ casPaths.entries, Spoiled dirPath s' f := by
  cases h with
  | @occupied _ f _ hexists hother =>
      cases hstep with
      | linked hcall he hlink =>
          have hf := hlisted _ hcall f he
          obtain ⟨content, hsource⟩ := hstored f hf
          simp only [linkFile, hexists, if_true, Except.ok.injEq] at hlink
          subst hlink
          exact ⟨f, hf, .occupied content hsource hexists hother⟩
  | @cutOff _ phase f _ hcall hdir he hmissing =>
      cases hstep with
      | stopped => exact ⟨f, hlisted _ hcall f he, .cutOff rfl hdir hmissing⟩

end Spoiled

section Results

variable {trace : List (State × Event × State)}

theorem sound_of_run (hidle : start.call = none)
    (hfresh : pathExists start.tree (components dirPath) = false)
    (hright : ∀ x ∈ trace, ¬ GoesWrong dirPath casPaths x)
    (run : Run (Traced (Step importMethod dirPath casPaths)) start trace s) :
    Sound dirPath casPaths s := by
  refine run.invariant_of_forall (Sound dirPath casPaths) hright
    ⟨fun rest hrest => ?_, fun _ hexists => ?_⟩ ?_
  · rw [hidle] at hrest
    cases hrest
  · rw [hfresh] at hexists
    cases hexists
  · rintro t ⟨before, e, after⟩ t' ht hx ⟨rfl, rfl, hstep⟩
    exact ht.step hx hstep

/-- After a step that went wrong an entry stays spoiled. -/
theorem spoiled_of_run (hidle : start.call = none)
    (hstored : ∀ f ∈ casPaths.entries,
      ∃ content, readFile start.tree (components f.2) = .ok content)
    (run : Run (Traced (Step importMethod dirPath casPaths)) start trace s)
    (hwrong : ∃ y ∈ trace, GoesWrong dirPath casPaths y) :
    ∃ f ∈ casPaths.entries, Spoiled dirPath s f := by
  have hinv := run.invariant_with_events (fun trace s => LeftListed casPaths s ∧
    (∀ f ∈ casPaths.entries, ∃ content, readFile s.tree (components f.2) = .ok content) ∧
    ((∃ y ∈ trace, GoesWrong dirPath casPaths y) → ∃ f ∈ casPaths.entries, Spoiled dirPath s f))
    ⟨fun phase hphase => by simp [hidle] at hphase, hstored, by simp⟩ ?_
  · exact hinv.2.2 hwrong
  · rintro trace t ⟨before, e, after⟩ t' ⟨hlisted, hstore, hspoiled⟩ ⟨rfl, rfl, hstep⟩
    refine ⟨hlisted.step hstep, fun f hf => ?_, ?_⟩
    · obtain ⟨content, hcontent⟩ := hstore f hf
      exact ⟨content, readFile_of_holds hstep.grows.kept hcontent⟩
    · rintro ⟨y, hy, hgoes⟩
      rcases List.mem_append.mp hy with hold | hnew
      · obtain ⟨f, hf, hspoil⟩ := hspoiled ⟨y, hold, hgoes⟩
        exact ⟨f, hf, hspoil.step hstep⟩
      · obtain rfl := List.mem_singleton.mp hnew
        exact hgoes.spoils hstore hlisted hstep

/-- Every call that returns `Ok` leaves every entry exactly when no call returns `Ok` after a
step that went wrong. -/
theorem returned_complete_iff (hidle : start.call = none)
    (hfresh : pathExists start.tree (components dirPath) = false)
    (run : Run (Traced (Step importMethod dirPath casPaths)) start trace s) :
    ((trace.Pairwise fun y x => GoesWrong dirPath casPaths y → ¬ ReturnsOk x) →
      ∀ x ∈ trace, ReturnsOk x → Complete dirPath casPaths x.2.2.tree) ∧
    ((∀ f ∈ casPaths.entries, ∃ content,
        readFile start.tree (components f.2) = .ok content) →
      (∀ x ∈ trace, ReturnsOk x → Complete dirPath casPaths x.2.2.tree) →
        trace.Pairwise fun y x => GoesWrong dirPath casPaths y → ¬ ReturnsOk x) := by
  constructor
  · intro hright x hx hreturns
    obtain ⟨before, after, rfl⟩ := List.append_of_mem hx
    obtain ⟨hbefore, hstep, -⟩ := run.split_trace
    have hnone : ∀ y ∈ before, ¬ GoesWrong dirPath casPaths y := fun y hy hgoes =>
      (List.pairwise_append.mp hright).2.2 y hy x List.mem_cons_self hgoes hreturns
    exact (sound_of_run hidle hfresh hnone hbefore).returns hstep hreturns
  · intro hstored hcomplete
    induction run with
    | nil => exact .nil
    | @snoc before t x t' run hx ih =>
        obtain ⟨rfl, rfl, hstep⟩ := hx
        refine List.pairwise_append.mpr
          ⟨ih fun y hy => hcomplete y (List.mem_append_left _ hy), List.pairwise_singleton _ _, ?_⟩
        intro y hy x' hx' hgoes hreturns
        obtain rfl := List.mem_singleton.mp hx'
        obtain ⟨f, hf, hspoiled⟩ := spoiled_of_run hidle hstored run ⟨y, hy, hgoes⟩
        exact (hspoiled.step hstep).not_imported
          (hcomplete _ (List.mem_append_right _ List.mem_cons_self) hreturns f hf)

end Results

section Function

variable {t t' : Tree}

theorem run_of_dirs {dirs : List (List Component)}
    (h : dirs.foldlM (fun t dir => (createDirAll t dir).mapError (.createDir dir)) t =
      (.ok t' : Except CreateCasFilesError Tree)) :
    ∃ events, Run (Step importMethod dirPath casPaths) ⟨t, some (.makingDirs dirs)⟩ events
      ⟨t', some (.makingDirs [])⟩ := by
  induction dirs generalizing t with
  | nil =>
      cases h
      exact ⟨[], .nil⟩
  | cons dir dirs ih =>
      obtain ⟨s, hs, hrest⟩ := Results.bind_ok h
      obtain ⟨events, hrun⟩ := ih hrest
      exact ⟨_, (Run.snoc .nil (.dirDone rfl (Results.mapError_ok hs))).append hrun⟩

theorem run_of_files {entries : List (Text × Text)}
    (h : entries.foldlM (fun t e => linkFile importMethod t e.2 (join dirPath e.1)) t = .ok t') :
    ∃ events, Run (Step importMethod dirPath casPaths) ⟨t, some (.linking entries)⟩ events
      ⟨t', some (.linking [])⟩ := by
  induction entries generalizing t with
  | nil =>
      cases h
      exact ⟨[], .nil⟩
  | cons e rest ih =>
      obtain ⟨s, hs, hrest⟩ := Results.bind_ok h
      obtain ⟨events, hrun⟩ := ih hrest
      have hstep : Step importMethod dirPath casPaths ⟨t, some (.linking (e :: rest))⟩ (.linked e)
          ⟨s, some (.linking rest)⟩ := by
        have hlinked : Step importMethod dirPath casPaths ⟨t, some (.linking (e :: rest))⟩
            (.linked e) ⟨s, some (.linking ((e :: rest).erase e))⟩ :=
          .linked rfl List.mem_cons_self hs
        rwa [List.erase_cons_head] at hlinked
      exact ⟨_, (Run.snoc .nil hstep).append hrun⟩

/-- A call of the function is a run of these steps, the last of which returns `Ok`. -/
theorem exists_run (h : createCasFiles importMethod t dirPath casPaths = .ok t') :
    ∃ events e, Run (Step importMethod dirPath casPaths) ⟨t, none⟩ (events ++ [e]) ⟨t', none⟩ ∧
      (e = .found ∨ e = .finished) := by
  unfold createCasFiles at h
  split at h
  · rename_i hexists
    cases h
    exact ⟨[], .found, .snoc .nil (.found rfl hexists), Or.inl rfl⟩
  · rename_i hexists
    obtain ⟨s₁, h₁, h⟩ := Results.bind_ok h
    obtain ⟨s₂, h₂, h₃⟩ := Results.bind_ok h
    have hmissing : Step importMethod dirPath casPaths ⟨t, none⟩ .missing
        ⟨t, some (.makingDirs (components dirPath :: parentDirs dirPath casPaths))⟩ :=
      .missing rfl (by simpa using hexists)
    have hdir := (Run.snoc .nil hmissing).snoc (.dirDone rfl (Results.mapError_ok h₁))
    obtain ⟨dirs, hdirs⟩ := run_of_dirs h₂
    obtain ⟨files, hfiles⟩ := run_of_files h₃
    have hall := (((hdir.append hdirs).snoc (.dirsDone rfl)).append hfiles)
    exact ⟨_, .finished, hall.snoc (.finished rfl), Or.inr rfl⟩

end Function

section Samples

/-- A store with two files. -/
def storeTree : Tree :=
  (do
    let t ← createDirAll .empty (components "/store".toList)
    let t ← makeNode t (components "/store/f".toList) (.file "main".toList)
    makeNode t (components "/store/g".toList) (.file "library".toList)).toOption.getD .empty

/-- A package of two files, one of them in a directory. -/
def twoFiles : CasPaths :=
  ⟨[("f".toList, "/store/f".toList), ("lib/g".toList, "/store/g".toList)], by simp⟩

theorem parentDirs_twoFiles :
    parentDirs "/pkg".toList twoFiles = [components "/pkg/lib".toList] := by decide +kernel

/-- The trees between the steps of an import that links the second file first. -/
theorem exists_sampleTrees : ∃ dir lib library whole : Tree,
    createDirAll storeTree (components "/pkg".toList) = .ok dir ∧
    createDirAll dir (components "/pkg/lib".toList) = .ok lib ∧
    linkFile .auto lib "/store/g".toList (join "/pkg".toList "lib/g".toList) = .ok library ∧
    linkFile .auto library "/store/f".toList (join "/pkg".toList "f".toList) = .ok whole ∧
    (pathExists storeTree (components "/pkg".toList) = false ∧
      pathExists lib (components (join "/pkg".toList "lib/g".toList)) = false ∧
      pathExists library (components (join "/pkg".toList "f".toList)) = false) ∧
    (pathExists dir (components "/pkg".toList) = true ∧
      pathExists whole (components "/pkg".toList) = true ∧
      (readFile dir (components (join "/pkg".toList "f".toList))).isOk = false) := by
  have hall : ((createDirAll storeTree (components "/pkg".toList)).toOption.bind fun dir =>
      (createDirAll dir (components "/pkg/lib".toList)).toOption.bind fun lib =>
      (linkFile .auto lib "/store/g".toList
        (join "/pkg".toList "lib/g".toList)).toOption.bind fun library =>
      (linkFile .auto library "/store/f".toList (join "/pkg".toList "f".toList)).toOption.map
        fun whole => decide (
          (pathExists storeTree (components "/pkg".toList) = false ∧
            pathExists lib (components (join "/pkg".toList "lib/g".toList)) = false ∧
            pathExists library (components (join "/pkg".toList "f".toList)) = false) ∧
          (pathExists dir (components "/pkg".toList) = true ∧
            pathExists whole (components "/pkg".toList) = true ∧
            (readFile dir (components (join "/pkg".toList "f".toList))).isOk = false))) =
      some true := by
    decide +kernel
  obtain ⟨dir, hdir, hall⟩ := Option.bind_eq_some_iff.mp hall
  obtain ⟨lib, hlib, hall⟩ := Option.bind_eq_some_iff.mp hall
  obtain ⟨library, hlibrary, hall⟩ := Option.bind_eq_some_iff.mp hall
  obtain ⟨whole, hwhole, hall⟩ := Results.exists_of_toOption_map hall
  exact ⟨dir, lib, library, whole, Results.toOption_eq_some hdir, Results.toOption_eq_some hlib,
    Results.toOption_eq_some hlibrary, hwhole, of_decide_eq_true hall⟩

/-- A step with nothing in its way that it does not bring in itself. -/
theorem not_goesWrong_of_free {f : Text × Text}
    (hfree : pathExists s.tree (components (join dirPath f.1)) = false) :
    ¬ GoesWrong dirPath casPaths (s, .linked f, s') := by
  intro h
  cases h with
  | occupied hexists =>
      rw [hfree] at hexists
      cases hexists

theorem not_goesWrong_of_absent (habsent : pathExists s.tree (components dirPath) = false) :
    ¬ GoesWrong dirPath casPaths (s, .stopped, s') := by
  intro h
  cases h with
  | cutOff _ hdir =>
      rw [habsent] at hdir
      cases hdir

theorem not_goesWrong_of_other (hlinked : ∀ f, e ≠ .linked f) (hstopped : e ≠ .stopped) :
    ¬ GoesWrong dirPath casPaths (s, e, s') := by
  intro h
  cases h with
  | occupied => exact hlinked _ rfl
  | cutOff => exact hstopped rfl

theorem snoc_right {trace : List (State × Event × State)}
    (h : Run (Traced (Step importMethod dirPath casPaths)) start trace s ∧
      ∀ y ∈ trace, ¬ GoesWrong dirPath casPaths y)
    (hstep : Step importMethod dirPath casPaths s e s')
    (hright : ¬ GoesWrong dirPath casPaths (s, e, s')) :
    Run (Traced (Step importMethod dirPath casPaths)) start (trace ++ [(s, e, s')]) s' ∧
      ∀ y ∈ trace ++ [(s, e, s')], ¬ GoesWrong dirPath casPaths y := by
  refine ⟨h.1.snoc_traced hstep, fun y hy => ?_⟩
  rcases List.mem_append.mp hy with hold | hnew
  · exact h.2 y hold
  · rw [List.mem_singleton.mp hnew]
    exact hright

theorem pairwise_of_right {trace : List (State × Event × State)}
    (hright : ∀ y ∈ trace, ¬ GoesWrong dirPath casPaths y) :
    trace.Pairwise fun y x => GoesWrong dirPath casPaths y → ¬ ReturnsOk x :=
  List.pairwise_of_forall_mem_list fun y hy _ _ hgoes => absurd hgoes (hright y hy)

/-- A call is killed before it makes the directory, the next one links the files in another
order than they are listed in, and a third one finds the directory. -/
theorem returned_complete_again :
    ∃ trace whole, Run (Traced (Step .auto "/pkg".toList twoFiles)) ⟨storeTree, none⟩ trace
        ⟨whole, none⟩ ∧
      (⟨whole, none⟩, .found, ⟨whole, none⟩) ∈ trace ∧
      (∀ x ∈ trace, ReturnsOk x → Complete "/pkg".toList twoFiles x.2.2.tree) ∧
      trace.Pairwise fun y x => GoesWrong "/pkg".toList twoFiles y → ¬ ReturnsOk x := by
  obtain ⟨dir, lib, library, whole, hdir, hlib, hlibrary, hmain, hfree, hthere⟩ :=
    exists_sampleTrees
  obtain ⟨hfresh, hfreeLibrary, hfreeMain⟩ := hfree
  have hmissing : Step .auto "/pkg".toList twoFiles ⟨storeTree, none⟩ .missing
      ⟨storeTree, some (.makingDirs
        [components "/pkg".toList, components "/pkg/lib".toList])⟩ :=
    parentDirs_twoFiles ▸ Step.missing rfl hfresh
  have herase : twoFiles.entries.erase ("lib/g".toList, "/store/g".toList) =
      [("f".toList, "/store/f".toList)] := by decide
  have hlisted : ("lib/g".toList, "/store/g".toList) ∈ twoFiles.entries := by simp [twoFiles]
  have hsecond : Step .auto "/pkg".toList twoFiles ⟨lib, some (.linking twoFiles.entries)⟩
      (.linked ("lib/g".toList, "/store/g".toList))
      ⟨library, some (.linking [("f".toList, "/store/f".toList)])⟩ :=
    herase ▸ Step.linked rfl hlisted hlibrary
  have hlast : [("f".toList, "/store/f".toList)].erase ("f".toList, "/store/f".toList) = [] :=
    List.erase_cons_head _ _
  have hfirst : Step .auto "/pkg".toList twoFiles
      ⟨library, some (.linking [("f".toList, "/store/f".toList)])⟩
      (.linked ("f".toList, "/store/f".toList)) ⟨whole, some (.linking [])⟩ :=
    hlast ▸ Step.linked rfl List.mem_cons_self hmain
  have run : Run (Traced (Step .auto "/pkg".toList twoFiles)) ⟨storeTree, none⟩ []
      ⟨storeTree, none⟩ ∧ ∀ y ∈ ([] : List (State × Event × State)),
        ¬ GoesWrong "/pkg".toList twoFiles y := ⟨.nil, by simp⟩
  have run := snoc_right run hmissing (not_goesWrong_of_other (by simp) (by simp))
  have run := snoc_right run (.stopped rfl) (not_goesWrong_of_absent hfresh)
  have run := snoc_right run hmissing (not_goesWrong_of_other (by simp) (by simp))
  have run := snoc_right run (.dirDone rfl hdir) (not_goesWrong_of_other (by simp) (by simp))
  have run := snoc_right run (.dirDone rfl hlib) (not_goesWrong_of_other (by simp) (by simp))
  have run := snoc_right run (.dirsDone rfl) (not_goesWrong_of_other (by simp) (by simp))
  have run := snoc_right run hsecond (not_goesWrong_of_free hfreeLibrary)
  have run := snoc_right run hfirst (not_goesWrong_of_free hfreeMain)
  have run := snoc_right run (.finished rfl) (not_goesWrong_of_other (by simp) (by simp))
  obtain ⟨run, hright⟩ := snoc_right run (.found rfl hthere.2.1)
    (not_goesWrong_of_other (by simp) (by simp))
  have hpairs := pairwise_of_right hright
  obtain ⟨hcomplete, hconverse⟩ := returned_complete_iff rfl hfresh run
  refine ⟨_, whole, run, by simp, hcomplete hpairs, hconverse ?_ (hcomplete hpairs)⟩
  intro f hf
  have hstored : ∀ f ∈ twoFiles.entries, (readFile storeTree (components f.2)).isOk = true := by
    decide +kernel
  exact ⟨_, Results.eq_getD_of_isOk [] (hstored f hf)⟩

/-- A call is killed after it has made the directory, and the next one finds it: it returns `Ok`
and the files are missing. -/
theorem found_incomplete :
    ∃ trace dir, Run (Traced (Step .auto "/pkg".toList twoFiles)) ⟨storeTree, none⟩ trace
        ⟨dir, none⟩ ∧
      pathExists storeTree (components "/pkg".toList) = false ∧
      ¬ ∀ x ∈ trace, ReturnsOk x → Complete "/pkg".toList twoFiles x.2.2.tree := by
  obtain ⟨dir, -, -, -, hdir, -, -, -, ⟨hfresh, -, -⟩, hthere, -, hmissing⟩ := exists_sampleTrees
  have run : Run (Step .auto "/pkg".toList twoFiles) ⟨storeTree, none⟩ [] ⟨storeTree, none⟩ := .nil
  have run := ((run.snoc (.missing rfl hfresh)).snoc (.dirDone rfl hdir)).snoc (.stopped rfl)
  obtain ⟨trace, hrun, -, hlast⟩ := run.exists_trace_last (Step.found rfl hthere)
  refine ⟨trace, dir, hrun, hfresh, fun hall => ?_⟩
  obtain ⟨content, -, hread⟩ := hall _ hlast (Or.inl rfl) ("f".toList, "/store/f".toList)
    (by simp [twoFiles])
  rw [hread] at hmissing
  cases hmissing

end Samples

end CreateCasFiles

end Npnpm
