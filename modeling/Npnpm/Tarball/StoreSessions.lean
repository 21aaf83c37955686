import Mathlib.Logic.Relation
import Npnpm.Tarball.Prune
import Npnpm.Tarball.WarmStore

/-!
# A store over many commands

Commands that use a store one after the other: each runs any number of extractions at the
same time, or prunes. An extraction or a prune may have ended, failed or been killed between
any two of its steps when its command is over; what it has left in the store is what the next
command begins with.

Extractions never change a file that is there, and a prune that no extraction runs beside has
read every index before it removes the first file.
-/

namespace Npnpm

namespace Prune

section Definitions

variable {I B : Type} [TarballLibs I B]

/-- The steps of an extraction; the others are steps of a prune. -/
def Event.OfExtraction : Event → Prop
  | .extract _ | .found _ | .missing _ | .wrote _ => True
  | .indexFound _ | .indexMissing _ | .indexWrote _ => True
  | _ => False

variable (I) in
/-- What one command leaves in a store. -/
inductive Command (storeDir : Text) (files files' : Text → Option (StoredFile B)) : Prop
  | extractions {events : List Event} {s : State I B}
      (run : Run (Step storeDir) (State.initial files) events s)
      (honly : ∀ e ∈ events, e.OfExtraction) (hfiles : s.files = files')
  | prunes {events : List Event} {s : State I B}
      (run : Run (Step storeDir) (State.initial files) events s)
      (honly : ∀ e ∈ events, ¬ e.OfExtraction) (hfiles : s.files = files')

/-- Indexes are at the paths of indexes only. -/
def IndexesPlaced (storeDir : Text) (files : Text → Option (StoredFile B)) : Prop :=
  ∀ q index, files q = some (.index index) → HeadEntry storeDir q ∧ isIndexPath q = true

end Definitions

section Extractions

variable {I B : Type} [TarballLibs I B] {storeDir : Text} {s s' : State I B}

theorem indexFilePath_placed (laws : DigestLaws I B) {integrity : I} {q : Text}
    (h : indexFilePath B storeDir integrity = .ok q) :
    HeadEntry storeDir q ∧ isIndexPath q = true := by
  obtain ⟨algorithm, hex, hhex, hpath⟩ := indexFilePath_ok h
  refine ⟨headEntry_of_filePathByHexStr (laws.hex integrity _ _ hhex) .index hpath, ?_⟩
  obtain ⟨-, rfl⟩ := filePathByHexStr_ok (laws.hex integrity _ _ hhex) .index hpath
  apply List.isSuffixOf_iff_suffix.mpr
  exact ⟨filesDir storeDir ++ '/' :: (hex.take 2 ++ '/' :: hex.drop 2), by simp⟩

/-- While only extractions run, what was in the store is as it was, and what they are about to
write was not there. -/
structure Kept (storeDir : Text) (start : Text → Option (StoredFile B)) (s : State I B) : Prop where
  kept : ∀ p file, start p = some file → s.files p = some file
  placed : IndexesPlaced storeDir s.files
  missing : ∀ i x f rest p, s.extractions i = some x → x.phase = .writing → x.rest = f :: rest →
    f.casPath I storeDir = .ok p → start p = none
  indexMissing : ∀ i x q, s.extractions i = some x → x.phase = .writingIndex →
    indexFilePath B storeDir x.integrity = .ok q → start q = none

variable {start : Text → Option (StoredFile B)}

theorem Kept.initial (hplaced : IndexesPlaced storeDir start) :
    Kept storeDir start (State.initial (I := I) start) where
  kept _ _ h := h
  placed := hplaced
  missing i x f rest p h := by simp [State.initial] at h
  indexMissing i x q h := by simp [State.initial] at h

/-- What is missing now was missing at the start. -/
theorem Kept.start_none (hinv : Kept storeDir start s) {p : Text} (h : s.files p = none) :
    start p = none := by
  apply Option.eq_none_iff_forall_ne_some.mpr
  intro file hfile
  rw [hinv.kept p file hfile] at h
  cases h

theorem Kept.setExtraction (hinv : Kept storeDir start s) {i : Nat} {x : Extraction I B}
    (hmissing : ∀ f rest p, x.phase = .writing → x.rest = f :: rest →
      f.casPath I storeDir = .ok p → start p = none)
    (hindex : ∀ q, x.phase = .writingIndex → indexFilePath B storeDir x.integrity = .ok q →
      start q = none) :
    Kept storeDir start (s.setExtraction i x) where
  kept := hinv.kept
  placed := hinv.placed
  missing j y f rest p h hphase := by
    by_cases hj : j = i
    · obtain rfl : x = y := by simpa [State.setExtraction, hj] using h
      exact hmissing f rest p hphase
    · exact hinv.missing j y f rest p (by simpa [State.setExtraction, hj] using h) hphase
  indexMissing j y q h hphase := by
    by_cases hj : j = i
    · obtain rfl : x = y := by simpa [State.setExtraction, hj] using h
      exact hindex q hphase
    · exact hinv.indexMissing j y q (by simpa [State.setExtraction, hj] using h) hphase

theorem Kept.setFile (hinv : Kept storeDir start s) {q : Text} {file : StoredFile B}
    (hnone : start q = none)
    (hindex : ∀ index, file = .index index → HeadEntry storeDir q ∧ isIndexPath q = true) :
    Kept storeDir start (s.setFile q (some file)) where
  kept p file' h := by
    have hne : p ≠ q := by
      rintro rfl
      rw [hnone] at h
      cases h
    simpa [State.setFile, hne] using hinv.kept p file' h
  placed p index h := by
    by_cases hp : p = q
    · obtain rfl : file = .index index := by simpa [State.setFile, hp] using h
      exact hp ▸ hindex index rfl
    · exact hinv.placed p index (by simpa [State.setFile, hp] using h)
  missing := hinv.missing
  indexMissing := hinv.indexMissing

theorem Kept.step (laws : DigestLaws I B) {e : Event} (hinv : Kept storeDir start s)
    (honly : e.OfExtraction) (h : Step storeDir s e s') : Kept storeDir start s' := by
  cases h with
  | extract | found | indexFound =>
      exact hinv.setExtraction (fun _ _ _ hphase => by cases hphase) fun _ hphase => by cases hphase
  | @missing i x f rest p h hphase hrest hpath hfile =>
      apply hinv.setExtraction
      · intro g rest' p' _ hrest' hpath'
        obtain ⟨rfl, -⟩ := List.cons.inj (hrest.symm.trans hrest')
        obtain rfl := Except.ok.inj (hpath.symm.trans hpath')
        exact hinv.start_none hfile
      · intro _ hphase'
        cases hphase'
  | @wrote i x f rest p h hphase hrest hpath =>
      have hset : Kept storeDir start (s.setFile p (some (.cas f.buffer))) :=
        hinv.setFile (hinv.missing i x f rest p h hphase hrest hpath)
          fun _ hindex => by cases hindex
      exact hset.setExtraction (fun _ _ _ hphase => by cases hphase) fun _ hphase => by cases hphase
  | @indexMissing i x q h hphase hrest hpath hfile =>
      apply hinv.setExtraction
      · intro _ _ _ hphase'
        cases hphase'
      · intro q' _ hpath'
        obtain rfl := Except.ok.inj (hpath.symm.trans hpath')
        exact hinv.start_none hfile
  | @indexWrote i x q h hphase hpath =>
      have hset : Kept storeDir start (s.setFile q (some (.index x.index))) :=
        hinv.setFile (hinv.indexMissing i x q h hphase hpath)
          fun _ _ => indexFilePath_placed laws hpath
      exact hset.setExtraction (fun _ _ _ hphase => by cases hphase) fun _ hphase => by cases hphase
  | prune | list | listed | read | collected | pick | remove | pruned => exact honly.elim

end Extractions

section Prunes

variable {I B : Type} [TarballLibs I B] {storeDir : Text} {s s' : State I B}

/-- The indexes that a prune has read or has yet to read are those of the store. -/
def PrunePhase.Covers (start : Text → Option (StoredFile B)) : PrunePhase → Prop
  | .listing _ | .finished => True
  | .reading todo read => ∀ q index, start q = some (.index index) → q ∈ todo ∨ (q, index) ∈ read
  | .removing read | .unlinking read _ =>
      ∀ q index, start q = some (.index index) → (q, index) ∈ read

/-- While only prunes run, no file comes and the indexes stay. What is gone is no index and is
listed by none. -/
structure Pruned (storeDir : Text) (start : Text → Option (StoredFile B)) (s : State I B) :
    Prop where
  gone : ∀ p, s.files p ≠ start p → s.files p = none ∧ isIndexPath p = false ∧
    ∀ q index, start q = some (.index index) → p ∉ listedFiles I B storeDir index
  known : ∀ k c, s.prunes k = some c → ∀ q index, start q = some (.index index) → c.known q = true
  covers : ∀ k c, s.prunes k = some c → c.phase.Covers start
  picked : ∀ k known read p, s.prunes k = some ⟨known, .unlinking read p⟩ →
    isIndexPath p = false ∧ p ∉ referencedFiles I B storeDir read

variable {start : Text → Option (StoredFile B)}

theorem Pruned.initial : Pruned storeDir start (State.initial (I := I) start) where
  gone p h := absurd rfl h
  known k c h := by simp [State.initial] at h
  covers k c h := by simp [State.initial] at h
  picked k known read p h := by simp [State.initial] at h

theorem Pruned.index (hinv : Pruned storeDir start s) {q : Text} (h : isIndexPath q = true) :
    s.files q = start q := by
  by_contra hne
  rw [(hinv.gone q hne).2.1] at h
  cases h

theorem Pruned.setPrune (hinv : Pruned storeDir start s) {k : Nat} {known : Text → Bool}
    {phase : PrunePhase}
    (hknown : ∀ q index, start q = some (.index index) → known q = true)
    (hcovers : phase.Covers start)
    (hpicked : ∀ read p, phase = .unlinking read p →
      isIndexPath p = false ∧ p ∉ referencedFiles I B storeDir read) :
    Pruned storeDir start (s.setPrune k known phase) where
  gone := hinv.gone
  known j c h := by
    by_cases hj : j = k
    · obtain rfl : PruneCall.mk known phase = c := by simpa [State.setPrune, hj] using h
      exact hknown
    · exact hinv.known j c (by simpa [State.setPrune, hj] using h)
  covers j c h := by
    by_cases hj : j = k
    · obtain rfl : PruneCall.mk known phase = c := by simpa [State.setPrune, hj] using h
      exact hcovers
    · exact hinv.covers j c (by simpa [State.setPrune, hj] using h)
  picked j known' read p h := by
    by_cases hj : j = k
    · obtain ⟨-, hphase⟩ : known = known' ∧ phase = .unlinking read p := by
        simpa [State.setPrune, hj] using h
      exact hpicked read p hphase
    · exact hinv.picked j known' read p (by simpa [State.setPrune, hj] using h)

/-- A file that was picked is in no index of the store. -/
theorem Pruned.remove (hinv : Pruned storeDir start s) {k : Nat} {known : Text → Bool}
    {read : List (Text × PackageFilesIndex)} {p : Text}
    (h : s.prunes k = some ⟨known, .unlinking read p⟩) :
    Pruned storeDir start (s.setFile p none) where
  gone q hq := by
    by_cases hqp : q = p
    · obtain ⟨hindex, hreferenced⟩ := hinv.picked k known read p h
      subst hqp
      refine ⟨by simp [State.setFile], hindex, fun r index hr hlisted => hreferenced ?_⟩
      exact List.mem_flatMap.mpr ⟨(r, index), hinv.covers k _ h r index hr, hlisted⟩
    · have hsame : (s.setFile p none).files q = s.files q := by simp [State.setFile, hqp]
      rw [hsame] at hq ⊢
      exact hinv.gone q hq
  known := hinv.known
  covers := hinv.covers
  picked := hinv.picked

theorem Pruned.step {e : Event} (hplaced : IndexesPlaced storeDir start)
    (hinv : Pruned storeDir start s) (honly : ¬ e.OfExtraction) (h : Step storeDir s e s') :
    Pruned storeDir start s' := by
  have hindex : ∀ q index, start q = some (.index index) → s.files q = some (.index index) := by
    intro q index hq
    rw [hinv.index (hplaced q index hq).2, hq]
  cases h with
  | extract | found | missing | wrote | indexFound | indexMissing | indexWrote =>
      exact absurd trivial honly
  | prune k h =>
      refine hinv.setPrune ?_ trivial fun _ _ hphase => by cases hphase
      intro q index hq
      simp [hindex q index hq, (hplaced q index hq).2]
  | @list k known found p h =>
      exact hinv.setPrune (hinv.known k _ h) trivial fun _ _ hphase => by cases hphase
  | @listed k known found h hall =>
      refine hinv.setPrune (hinv.known k _ h) ?_ fun _ _ hphase => by cases hphase
      intro q index hq
      exact Or.inl (hall q (hinv.known k _ h q index hq) (hplaced q index hq).1
        (by simp [hindex q index hq]))
  | @read k known p todo read index h hfile =>
      refine hinv.setPrune (hinv.known k _ h) ?_ fun _ _ hphase => by cases hphase
      intro q index' hq
      rcases hinv.covers k _ h q index' hq with hmem | hmem
      · rcases List.mem_cons.mp hmem with rfl | hmem
        · rw [hindex q index' hq] at hfile
          cases hfile
          exact Or.inr (by simp)
        · exact Or.inl hmem
      · exact Or.inr (by simp [hmem])
  | @collected k known read h =>
      refine hinv.setPrune (hinv.known k _ h) ?_ fun _ _ hphase => by cases hphase
      intro q index hq
      exact (hinv.covers k _ h q index hq).resolve_left List.not_mem_nil
  | @pick k known read p h hfile hplace hpath hreferenced =>
      refine hinv.setPrune (hinv.known k _ h) (hinv.covers k _ h) ?_
      rintro read' p' hphase
      cases hphase
      exact ⟨hpath, hreferenced⟩
  | @remove k known read p h =>
      exact (hinv.remove h).setPrune (hinv.known k _ h) (hinv.covers k _ h)
        fun _ _ hphase => by cases hphase
  | @pruned k known read h =>
      exact hinv.setPrune (hinv.known k _ h) trivial fun _ _ hphase => by cases hphase

end Prunes

section Sessions

variable {I B : Type} [TarballLibs I B] {storeDir : Text}
  {files files' files'' : Text → Option (StoredFile B)}

variable (I) in
/-- What every command keeps of a store: the indexes, and the files that an index lists with
their contents. -/
structure Keeps (storeDir : Text) (files files' : Text → Option (StoredFile B)) : Prop where
  index : ∀ q index, files q = some (.index index) → files' q = some (.index index)
  listed : ∀ q index, files q = some (.index index) → ∀ p ∈ listedFiles I B storeDir index,
    files' p = files p

theorem Keeps.trans (h : Keeps I storeDir files files') (h' : Keeps I storeDir files' files'') :
    Keeps I storeDir files files'' where
  index q index hq := h'.index q index (h.index q index hq)
  listed q index hq p hp :=
    (h'.listed q index (h.index q index hq) p hp).trans (h.listed q index hq p hp)

/-- Extractions keep the store consistent, also those that have not ended. -/
theorem consistent_of_extractions (laws : DigestLaws I B) {events : List Event} {s : State I B}
    (hconsistent : Consistent I storeDir files)
    (run : Run (Step storeDir) (State.initial files) events s)
    (honly : ∀ e ∈ events, e.OfExtraction) : Consistent I storeDir s.files := by
  have hinv := run.invariant_of_forall (Inv storeDir) honly
    (Inv.initial hconsistent (fun _ => rfl) fun _ => rfl) (by
      intro t e t' hinv honly hstep
      apply hinv.step laws hstep
      rintro k p he
      obtain rfl : e = .remove k p := he
      exact honly.elim)
  exact hinv.consistent

theorem Command.keeps (laws : DigestLaws I B) (hplaced : IndexesPlaced storeDir files)
    (hconsistent : Consistent I storeDir files) (h : Command I storeDir files files') :
    Keeps I storeDir files files' ∧ IndexesPlaced storeDir files' ∧
      Consistent I storeDir files' := by
  cases h with
  | @extractions events s run honly hfiles =>
      subst hfiles
      have hkept := run.invariant_of_forall (Kept storeDir files) honly (Kept.initial hplaced)
        fun t e t' hinv he hstep => hinv.step laws he hstep
      refine ⟨⟨fun q index => hkept.kept q _, ?_⟩, hkept.placed,
        consistent_of_extractions laws hconsistent run honly⟩
      intro q index hq p hp
      obtain ⟨file, hfile⟩ := Option.ne_none_iff_exists'.mp (hconsistent q index hq p hp)
      rw [hkept.kept p file hfile, hfile]
  | @prunes events s run honly hfiles =>
      subst hfiles
      have hpruned := run.invariant_of_forall (Pruned storeDir files) honly Pruned.initial
        fun t e t' hinv he hstep => hinv.step hplaced he hstep
      have hback : ∀ q index, s.files q = some (.index index) → files q = some (.index index) := by
        intro q index hq
        by_contra hne
        rw [← hq] at hne
        rw [(hpruned.gone q fun h => hne h.symm).1] at hq
        cases hq
      have hlisted : ∀ q index, files q = some (.index index) →
          ∀ p ∈ listedFiles I B storeDir index, s.files p = files p := by
        intro q index hq p hp
        by_contra hne
        exact (hpruned.gone p hne).2.2 q index hq hp
      refine ⟨⟨fun q index hq => ?_, hlisted⟩, fun q index hq => hplaced q index (hback q index hq),
        fun q index hq p hp => ?_⟩
      · rw [hpruned.index (hplaced q index hq).2, hq]
      · rw [hlisted q index (hback q index hq) p hp]
        exact hconsistent q index (hback q index hq) p hp

/-- The files that a package is loaded as are listed by its index. -/
theorem listed_of_load {call : DownloadTarballToStore I} {store : StoreFiles B}
    {casPaths : CasPaths} (h : loadFromStore call store = .ok (some casPaths)) :
    ∃ q index, indexFilePath B call.storeDir call.packageIntegrity = .ok q ∧
      store.files q = some (.index index) ∧
      ∀ e ∈ casPaths.entries, e.2 ∈ listedFiles I B call.storeDir index := by
  obtain ⟨read, hread, h⟩ := Results.bind_ok h
  obtain ⟨q, hq, hread⟩ := Results.bind_ok hread
  cases hfile : store.files q with
  | none =>
      simp only [hfile] at hread
      cases hread
      cases h
  | some file =>
      cases file with
      | index index =>
          simp only [hfile] at hread
          cases hread
          obtain ⟨loaded, hloaded, h⟩ := Results.bind_ok h
          cases h
          refine ⟨q, index, hq, hfile, fun e he => ?_⟩
          have hmem := KeyedMap.mem_of_mem_entries_ofList he
          obtain ⟨info, hinfo, hpath⟩ :=
            Results.exists_of_mem_forall₂ ((Results.mapM_ok_iff _ _ _).mp hloaded) hmem
          exact List.mem_filterMap.mpr ⟨info, hinfo, by simp [hpath, Except.toOption]⟩
      | _ =>
          simp only [hfile] at hread
          cases hread

/-- A package loads from the same index in the same way. -/
theorem load_congr {call : DownloadTarballToStore I} {store store' : StoreFiles B} {q : Text}
    (hq : indexFilePath B call.storeDir call.packageIntegrity = .ok q)
    (hsame : store'.files q = store.files q) :
    loadFromStore call store' = loadFromStore call store := by
  unfold loadFromStore readIndexFile
  rw [hq]
  simp only [bind, Except.bind, hsame]

/-- Whatever commands use a store one after the other, a package that the store has is loaded
as before, from files that are there with the contents they had. -/
theorem package_stays (laws : DigestLaws I B) (hplaced : IndexesPlaced storeDir files)
    (hconsistent : Consistent I storeDir files)
    (h : Relation.ReflTransGen (Command I storeDir) files files') :
    IndexesPlaced storeDir files' ∧ Consistent I storeDir files' ∧
      ∀ (call : DownloadTarballToStore I) (store store' : StoreFiles B) (casPaths : CasPaths),
        call.storeDir = storeDir → store.files = files → store'.files = files' →
        loadFromStore call store = .ok (some casPaths) →
        loadFromStore call store' = .ok (some casPaths) ∧
          ∀ e ∈ casPaths.entries, files e.2 ≠ none ∧ files' e.2 = files e.2 := by
  have hall : Keeps I storeDir files files' ∧ IndexesPlaced storeDir files' ∧
      Consistent I storeDir files' := by
    induction h with
    | refl => exact ⟨⟨fun _ _ h => h, fun _ _ _ _ _ => rfl⟩, hplaced, hconsistent⟩
    | tail _ hcommand ih =>
        obtain ⟨hkeeps, hplaced', hconsistent'⟩ := ih
        obtain ⟨hkeeps', hrest⟩ := hcommand.keeps laws hplaced' hconsistent'
        exact ⟨hkeeps.trans hkeeps', hrest⟩
  obtain ⟨hkeeps, hplaced', hconsistent'⟩ := hall
  refine ⟨hplaced', hconsistent', ?_⟩
  intro call store store' casPaths hdir hstore hstore' hload
  subst hdir hstore hstore'
  obtain ⟨q, index, hq, hfile, hlisted⟩ := listed_of_load hload
  constructor
  · rw [load_congr hq ((hkeeps.index q index hfile).trans hfile.symm), hload]
  · intro e he
    exact ⟨hconsistent q index hfile e.2 (hlisted e he),
      hkeeps.listed q index hfile e.2 (hlisted e he)⟩

end Sessions

section Samples

variable {I B : Type} [TarballLibs I B] {storeDir : Text} {s : State I B}

/-- A prune that finds one index removes a file that the index does not list. -/
theorem exists_removed_beside (k : Nat) {p q : Text} {index : PackageFilesIndex}
    (hnew : s.prunes k = none) (hindex : s.files q = some (.index index))
    (hplaced : HeadEntry storeDir q ∧ isIndexPath q = true)
    (hone : ∀ r, isIndexPath r = true → s.files r ≠ none → r = q)
    (hparsed : ∀ e ∈ index.files.entries, ∃ r, indexedFile I B storeDir e = .ok r)
    (hfile : s.files p ≠ none) (hplace : HeadEntry storeDir p) (hp : isIndexPath p = false)
    (hunlisted : p ∉ listedFiles I B storeDir index) :
    ∃ events s', Run (Step storeDir) s events s' ∧ (∀ e ∈ events, ¬ e.OfExtraction) ∧
      s'.files = (s.setFile p none).files := by
  have hsome : s.files q ≠ none := by simp [hindex]
  have hknown : ∀ r, ((s.files r).isSome && isIndexPath r) = true → HeadEntry storeDir r →
      s.files r ≠ none → r ∈ [] ++ [q] := by
    intro r hr _ hfile
    simpa using hone r (Bool.and_eq_true_iff.mp hr).2 hfile
  have hreferenced : p ∉ referencedFiles I B storeDir ([] ++ [(q, index)]) := by
    simpa [referencedFiles] using hunlisted
  have hnil : Run (Step storeDir) s [] s := .nil
  have hprune := hnil.snoc (.prune k hnew)
  have hlist := hprune.snoc (.list (k := k) (if_pos rfl) hsome hplaced.1 hplaced.2)
  have hlisted := hlist.snoc (.listed (k := k) (if_pos rfl) hknown)
  have hread := hlisted.snoc (.read (k := k) (if_pos rfl) hindex hparsed)
  have hcollected := hread.snoc (.collected (k := k) (if_pos rfl))
  have hpick := hcollected.snoc (.pick (k := k) (if_pos rfl) hfile hplace hp hreferenced)
  have hremove := hpick.snoc (.remove (k := k) (if_pos rfl) hfile)
  refine ⟨_, _, hremove, ?_, rfl⟩
  intro e he
  simp only [List.nil_append, List.cons_append, List.mem_cons, List.not_mem_nil, or_false] at he
  rcases he with rfl | rfl | rfl | rfl | rfl | rfl | rfl <;> exact not_false

/-- An extraction beside a file that no index lists; the prune after it removes that file. -/
theorem exists_extracted_and_pruned (laws : DigestLaws I B) {integrity : I} {f : FileEntry B}
    {p q r : Text} (hp : f.casPath I storeDir = .ok p)
    (hq : indexFilePath B storeDir integrity = .ok q) (hpindex : isIndexPath p = false)
    (hrplace : HeadEntry storeDir r) (hrindex : isIndexPath r = false) (hpr : p ≠ r)
    (content : B) :
    ∃ (files files' : Text → Option (StoredFile B)) (index : PackageFilesIndex),
      Command I storeDir (fun path => if path = r then some (.cas content) else none) files ∧
      Command I storeDir files files' ∧ files r ≠ none ∧ files' r = none ∧
      files q = some (.index index) ∧ IndexLoads I B storeDir index := by
  have hqindex := indexFilePath_placed laws hq
  have hqp : q ≠ p := by
    rintro rfl
    simp [hpindex] at hqindex
  have hqr : q ≠ r := by
    rintro rfl
    simp [hrindex] at hqindex
  have hxindex : (Extraction.mk (I := I) integrity none [f] [] .testing).index.files.entries =
      [(f.name, f.info I none)] := by
    simp [Extraction.index, KeyedMap.ofList, KeyedMap.insert, KeyedMap.insertEntry,
      KeyedMap.empty]
  have hentry := indexedFile_info laws none hp
  obtain ⟨s₁, hrun₁, hfiles₁, hprunes₁, hextractions₁⟩ :=
    exists_fileWritten (s := State.initial (I := I) (B := B) fun path =>
      if path = r then some (.cas content) else none) 0 integrity none rfl hp
      (by simp [State.initial, hpr])
  obtain ⟨s₂, hrun₂, hfiles₂, -, -⟩ :=
    exists_indexWritten (s := s₁) (i := 0) (x := ⟨integrity, none, [f], [], .testing⟩) (q := q)
      (by simp [hextractions₁, State.setExtraction]) rfl rfl hq
      (by simp [hfiles₁, State.setFile, State.initial, hqp, hqr])
  have hfiles : ∀ path, s₂.files path =
      if path = q then some (.index (Extraction.mk (I := I) integrity none [f] [] .testing).index)
      else if path = p then some (.cas f.buffer)
      else if path = r then some (.cas content) else none := by
    intro path
    rw [hfiles₂]
    simp only [State.setFile, hfiles₁, State.initial]
  have hindex := (hfiles q).trans (if_pos rfl)
  have hr : s₂.files r ≠ none := by
    simp [hfiles, hqr.symm, hpr.symm]
  obtain ⟨events, s₃, hrun₃, honly, hfiles₃⟩ :=
    exists_removed_beside (s := State.initial (I := I) s₂.files) 0 (p := r) rfl hindex
      hqindex
      (by
        intro path hpath hsome
        by_contra hne
        have hnep : path ≠ p := by
          rintro rfl
          simp [hpindex] at hpath
        have hner : path ≠ r := by
          rintro rfl
          simp [hrindex] at hpath
        exact hsome ((hfiles path).trans (by simp [hne, hnep, hner])))
      (by
        intro e he
        rw [hxindex] at he
        obtain rfl := List.mem_singleton.mp he
        exact ⟨_, hentry⟩)
      hr hrplace hrindex
      (by
        intro hlisted
        obtain ⟨g, hg, hgr⟩ := listedFiles_index laws
          (fun g hg => by obtain rfl := List.mem_singleton.mp hg; exact ⟨p, hp⟩) hlisted
        obtain rfl := List.mem_singleton.mp hg
        exact hpr (Except.ok.inj (hp.symm.trans hgr)))
  refine ⟨s₂.files, s₃.files, _, .extractions (hrun₁.append hrun₂) ?_ rfl,
    .prunes hrun₃ honly rfl, hr, by simp [hfiles₃, State.setFile], hindex, ?_⟩
  · intro e he
    simp only [List.cons_append, List.nil_append, List.mem_cons, List.not_mem_nil, or_false] at he
    rcases he with rfl | rfl | rfl | rfl | rfl <;> trivial
  · refine ⟨[(f.name, p)], (Results.mapM_ok_iff _ _ _).mpr ?_⟩
    rw [hxindex]
    exact .cons hentry .nil

theorem package_stays_pruned : ∃ (files files' : Text → Option (StoredFile SampleBytes))
    (casPaths : CasPaths), files junkPath ≠ none ∧ files' junkPath = none ∧
      loadFromStore (sampleCall "package/index.js".toList) ⟨files', fun _ => none⟩ =
        .ok (some casPaths) ∧
      ∀ e ∈ casPaths.entries, files e.2 ≠ none ∧ files' e.2 = files e.2 := by
  obtain ⟨p, hp, hpindex⟩ := sampleFile_path
  obtain ⟨q, hq, -⟩ := sampleIndex_path
  have hpf : p ≠ junkPath := by
    rintro rfl
    exact absurd hp (by decide +kernel)
  obtain ⟨files, files', index, hextracted, hpruned, hthere, hgone, hindex, hloads⟩ :=
    exists_extracted_and_pruned sampleDigestLaws hp hq hpindex (r := junkPath) headEntry_junkPath
      (by decide) hpf SampleBytes.empty
  let start : Text → Option (StoredFile SampleBytes) :=
    fun path => if path = junkPath then some (.cas .empty) else none
  have hnoindex : ∀ q index, start q ≠ some (.index index) := by
    intro q index
    by_cases h : q = junkPath <;> simp [start, h]
  have hplaced₀ : IndexesPlaced "/store".toList start :=
    fun q index h => absurd h (hnoindex q index)
  have hconsistent₀ : Consistent HashIntegrity "/store".toList start :=
    fun q index h => absurd h (hnoindex q index)
  obtain ⟨-, hplaced, hconsistent⟩ := hextracted.keeps sampleDigestLaws hplaced₀ hconsistent₀
  have hanswered : (sampleCall "package/index.js".toList).Answered
      (⟨files, fun _ => none⟩ : StoreFiles SampleBytes) := answered_of_index hq hindex hloads
  obtain ⟨casPaths, hload⟩ := hanswered
  obtain ⟨-, -, hstays⟩ :=
    package_stays sampleDigestLaws hplaced hconsistent (.single hpruned)
  obtain ⟨hload', hfiles⟩ := hstays _ _ ⟨files', fun _ => none⟩ casPaths rfl rfl rfl hload
  exact ⟨files, files', casPaths, hthere, hgone, hload', hfiles⟩

end Samples

end Prune

end Npnpm
