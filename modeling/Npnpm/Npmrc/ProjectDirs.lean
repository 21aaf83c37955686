import Npnpm.Npmrc.Load

/-!
# The directories of the project

The modules directory and the virtual store are to depend on the project and not on the
directory in which the process is started. The text of a configuration is read twice: the
rewriting finds the lines of a key anywhere, and the decoder sets a field from a line before
the first section header only. A key that only the former finds is given a default below
the working directory.
-/

namespace Npnpm

open Npnpm.Path

section Lines

variable {key value : Text}

/-- A line of the text has the key. -/
def HasLine (key text : Text) : Prop := ∃ line ∈ lines text, ∃ value, valueOf key line = some value

theorem valueOf_eq_some_iff {line : Text} :
    valueOf key line = some value ↔ ∃ before after,
      Text.splitOnce '=' line = some (before, after) ∧ trim before = key ∧ trim after = value := by
  unfold valueOf keyValue
  cases Text.splitOnce '=' line with
  | none => simp
  | some parts =>
      simp only [Option.map_some, Option.bind_some, Option.some.injEq, Prod.ext_iff]
      constructor
      · intro h
        split at h
        · rename_i hkey
          exact ⟨parts.1, parts.2, ⟨rfl, rfl⟩, hkey, Option.some.inj h⟩
        · cases h
      · rintro ⟨before, after, ⟨rfl, rfl⟩, hkey, rfl⟩
        rw [if_pos hkey]

/-- What a line adds to the fields that have been found. -/
theorem normalizeNpmrcLine_presence (configDir line : Text) (presence : PathFieldPresence) :
    ((normalizeNpmrcLine configDir line presence).2.modulesDir = true ↔
      presence.modulesDir = true ∨ ∃ value, valueOf "modules-dir".toList line = some value) ∧
    ((normalizeNpmrcLine configDir line presence).2.virtualStoreDir = true ↔
      presence.virtualStoreDir = true ∨
        ∃ value, valueOf "virtual-store-dir".toList line = some value) := by
  simp only [valueOf_eq_some_iff]
  unfold normalizeNpmrcLine
  cases hsplit : Text.splitOnce '=' line with
  | none => simp
  | some parts =>
      obtain ⟨before, after⟩ := parts
      have hfound : ∀ name : Text, (∃ value before' after', some (before, after) =
          some (before', after') ∧ trim before' = name ∧ trim after' = value) ↔
            trim before = name := by
        intro name
        constructor
        · rintro ⟨_, _, _, heq, hname, -⟩
          cases heq
          exact hname
        · exact fun hname => ⟨_, before, after, rfl, hname, rfl⟩
      simp only [hfound]
      split
      · rename_i hkey
        have hother : trim before ≠ "virtual-store-dir".toList := by
          rw [hkey]
          decide
        exact ⟨iff_of_true rfl (Or.inr hkey), (or_iff_left hother).symm⟩
      · rename_i hkey
        split
        · rename_i hkey'
          exact ⟨(or_iff_left hkey).symm, iff_of_true rfl (Or.inr hkey')⟩
        · rename_i hkey'
          have hsame := And.intro (or_iff_left (a := presence.modulesDir = true) hkey).symm
            (or_iff_left (a := presence.virtualStoreDir = true) hkey').symm
          split
          · exact hsame
          · exact hsame

theorem normalizeLines_presence (configDir : Text) (all : List Text)
    (presence : PathFieldPresence) :
    ((normalizeLines configDir all presence).2.modulesDir = true ↔
      presence.modulesDir = true ∨
        ∃ line ∈ all, ∃ value, valueOf "modules-dir".toList line = some value) ∧
    ((normalizeLines configDir all presence).2.virtualStoreDir = true ↔
      presence.virtualStoreDir = true ∨
        ∃ line ∈ all, ∃ value, valueOf "virtual-store-dir".toList line = some value) := by
  induction all generalizing presence with
  | nil => simp [normalizeLines]
  | cons line rest ih =>
      obtain ⟨hmodules, hstore⟩ := ih (normalizeNpmrcLine configDir line presence).2
      obtain ⟨hmodules', hstore'⟩ := normalizeNpmrcLine_presence configDir line presence
      simp only [normalizeLines, List.exists_mem_cons_iff]
      rw [hmodules, hstore, hmodules', hstore']
      constructor
      · exact or_assoc
      · exact or_assoc

theorem normalizeNpmrcText_presence (text configDir : Text) :
    ((normalizeNpmrcText text configDir).2.modulesDir = true ↔
      HasLine "modules-dir".toList text) ∧
    ((normalizeNpmrcText text configDir).2.virtualStoreDir = true ↔
      HasLine "virtual-store-dir".toList text) := by
  have h := normalizeLines_presence configDir (lines text) ⟨false, false⟩
  simpa [normalizeNpmrcText, HasLine] using h

end Lines

section Fields

variable [SerdeIni] {text key : Text} {fields : Fields}

/-- The lines before the first section header. -/
def topLines (text : Text) : List Text :=
  (lines text).takeWhile fun line => !SerdeIni.sectionHeader line

/-- The values that items give to a key. -/
def itemValues (key : Text) (items : List (Text × IniValue)) : List Text :=
  items.filterMap fun item => if item.1 = key then
    (match item.2 with
      | .value value => some value
      | .section => none) else none

theorem readItem_path {fields' : Fields} {item : Text × IniValue}
    (htype : fieldType key = some .path) (h : readItem fields item = some fields') :
    (fields'.get key).toList =
      (fields.get key).toList ++ (itemValues key [item]).map FieldValue.path := by
  obtain ⟨name, value⟩ := item
  unfold readItem at h
  by_cases hname : name = key
  · subst hname
    simp only [htype] at h
    split at h
    · cases h
    · rename_i hnone
      obtain ⟨read, hread, rfl⟩ := Option.map_eq_some_iff.mp h
      have hget : fields.get name = none := by simpa using hnone
      cases value with
      | value value =>
          cases hread
          rw [KeyedMap.get_insert, hget]
          simp [itemValues]
      | «section» => cases hread
  · have hvalues : itemValues key [(name, value)] = [] := by simp [itemValues, hname]
    rw [hvalues, List.map_nil, List.append_nil]
    split at h
    · cases h
      rfl
    · split at h
      · cases h
      · obtain ⟨read, -, rfl⟩ := Option.map_eq_some_iff.mp h
        rw [KeyedMap.get_insert, if_neg (by simpa using hname)]

theorem readItems_path {items : List (Text × IniValue)} {fields' : Fields}
    (htype : fieldType key = some .path) (h : items.foldlM readItem fields = some fields') :
    (fields'.get key).toList =
      (fields.get key).toList ++ (itemValues key items).map FieldValue.path := by
  induction items generalizing fields with
  | nil =>
      cases h
      simp [itemValues]
  | cons item rest ih =>
      rw [List.foldlM_cons] at h
      obtain ⟨fields₁, hitem, hrest⟩ := Option.bind_eq_some_iff.mp h
      have hvalues : itemValues key (item :: rest) = itemValues key [item] ++ itemValues key rest :=
        List.filterMap_append (l := [item])
      rw [ih hrest, readItem_path htype hitem, hvalues, List.map_append, List.append_assoc]

/-- A path field is set by the line of its key before the first section header. -/
theorem readFields_path (htype : fieldType key = some .path)
    (hkey : ∃ c ∈ key.head?, c.isAlpha = true) (h : readFields text = some fields)
    (value : Text) :
    fields.path key = some value ↔ ∃ line ∈ topLines text, valueOf key line = some value := by
  obtain ⟨items, hitems, hread⟩ := Option.bind_eq_some_iff.mp h
  have htop : itemValues key items = (topLines text).filterMap (valueOf key) :=
    SerdeIni.items_top text items key hitems hkey
  have hget := readItems_path htype hread
  have hempty : (KeyedMap.empty : Fields).get key = none := rfl
  rw [hempty, Option.toList_none, List.nil_append, htop] at hget
  have hmem : ∀ value, FieldValue.path value ∈ (fields.get key).toList ↔
      ∃ line ∈ topLines text, valueOf key line = some value := by
    intro value
    rw [hget]
    simp
  rw [← hmem, Option.mem_toList, Fields.path, Option.bind_eq_some_iff]
  constructor
  · rintro ⟨found, hfound, hpath⟩
    cases found with
    | path path =>
        cases hpath
        exact hfound
    | bool | patterns | nodeLinker | packageImportMethod | number | registry => cases hpath
  · exact fun hfound => ⟨_, hfound, rfl⟩

end Fields

section Chosen

/-- The process in another working directory. -/
def ProcessEnv.startedIn (env : ProcessEnv) (cwd : Text) : ProcessEnv :=
  { env with currentDir := cwd }

theorem join_of_isAbsolute {dir path : Text} (h : isAbsolute path = true) :
    join dir path = path := by
  rw [join, push, if_pos h]

/-- A relative path ends up elsewhere below another directory. -/
theorem join_cwd_ne {path : Text} (h : isAbsolute path = false) :
    join "/a".toList path ≠ join "/b".toList path := by
  have hjoin : ∀ c : Char, c ≠ '/' → join ['/', c] path = ['/', c] ++ '/' :: path := by
    intro c hc
    rw [join, push, if_neg (by simp [h]), if_pos (by simpa using hc)]
  rw [show "/a".toList = ['/', 'a'] from rfl, show "/b".toList = ['/', 'b'] from rfl,
    hjoin 'a' (by decide), hjoin 'b' (by decide)]
  simp

/-- The directory that a path field comes to: the field, its default below the working
directory, or the default of the project when the text has no line for it. -/
def chosenDir (projectDir suffix : Text) (present : Bool) (field : Option Text)
    (env : ProcessEnv) : Text :=
  if present then (field.map (deserializePathbuf env)).getD (join env.currentDir suffix)
  else join projectDir suffix

/-- The chosen directory does not move with the process exactly when a field that the text
has a line for is an absolute path. -/
theorem chosenDir_fixed_iff (projectDir suffix : Text) (present : Bool)
    (field : Option Text) (env : ProcessEnv) (hsuffix : isAbsolute suffix = false) :
    (∀ cwd cwd', isAbsolute cwd = true → isAbsolute cwd' = true →
      chosenDir projectDir suffix present field (env.startedIn cwd) =
        chosenDir projectDir suffix present field (env.startedIn cwd')) ↔
      (present = true → ∃ path, field = some path ∧ isAbsolute path = true) := by
  cases present with
  | false => simp [chosenDir]
  | true =>
      simp only [chosenDir, if_true, true_implies]
      cases field with
      | none =>
          refine iff_of_false (fun h => ?_) (by simp)
          exact join_cwd_ne hsuffix (h "/a".toList "/b".toList rfl rfl)
      | some path =>
          simp only [Option.map_some, Option.getD_some, Option.some.injEq, exists_eq_left']
          unfold deserializePathbuf
          cases habs : isAbsolute path with
          | true => simp
          | false =>
              refine iff_of_false (fun h => ?_) (by simp)
              exact join_cwd_ne habs (h "/a".toList "/b".toList rfl rfl)

end Chosen

section Runs

variable [SerdeIni] {env : ProcessEnv} {projectDir configDir text : Text} {homeDir : Option Text}
  {fields : Fields}

/-- The modules directory and the virtual store of the configuration, for the project in a
directory. -/
def projectDirs (env : ProcessEnv) (projectDir : Text) (homeDir : Option Text) :
    Except NpmrcPanic (Text × Text) :=
  (Npmrc.current env (some projectDir) homeDir (Npmrc.new env)).map fun config =>
    (config.modulesDir, config.virtualStoreDir)

/-- The text of the configuration file in a directory, when it can be read and decoded. -/
def readableNpmrc (env : ProcessEnv) (configDir : Text) : Option Text :=
  (env.readToString (join configDir ".npmrc".toList)).filter fun text =>
    (readFields (normalizeNpmrcText text configDir).1).isSome

/-- The file that the configuration is loaded from, with its directory. -/
def usedNpmrc (env : ProcessEnv) (projectDir : Text) (homeDir : Option Text) :
    Option (Text × Text) :=
  ((readableNpmrc env projectDir).map fun text => (projectDir, text)).or
    (homeDir.bind fun configDir => (readableNpmrc env configDir).map fun text => (configDir, text))

omit [SerdeIni] in
theorem readToString_startedIn {path : Text} (h : isAbsolute path = true) (cwd : Text) :
    (env.startedIn cwd).readToString path = env.readToString path := by
  rw [ProcessEnv.readToString, ProcessEnv.readToString, join_of_isAbsolute h,
    join_of_isAbsolute h]
  rfl

theorem usedNpmrc_startedIn (hproject : isAbsolute projectDir = true)
    (hhome : ∀ dir, homeDir = some dir → isAbsolute dir = true) (cwd : Text) :
    usedNpmrc (env.startedIn cwd) projectDir homeDir = usedNpmrc env projectDir homeDir := by
  have hread : ∀ dir, isAbsolute dir = true →
      readableNpmrc (env.startedIn cwd) dir = readableNpmrc env dir := by
    intro dir hdir
    rw [readableNpmrc, readableNpmrc, readToString_startedIn (isAbsolute_join hdir)]
  rw [usedNpmrc, usedNpmrc, hread projectDir hproject]
  cases homeDir with
  | none => rfl
  | some dir => rw [Option.bind_some, Option.bind_some, hread dir (hhome dir rfl)]

theorem loadNpmrc_eq_none (h : readableNpmrc env configDir = none) :
    loadNpmrc env projectDir configDir = .ok none := by
  unfold loadNpmrc
  unfold readableNpmrc at h
  cases htext : env.readToString (join configDir ".npmrc".toList) with
  | none => rfl
  | some text =>
      rw [htext] at h
      have hnone : readFields (normalizeNpmrcText text configDir).1 = none := by
        simpa [Option.filter] using h
      simp only [hnone]

theorem loadNpmrc_eq_some (h : readableNpmrc env configDir = some text)
    (hfields : readFields (normalizeNpmrcText text configDir).1 = some fields) :
    loadNpmrc env projectDir configDir = (Npmrc.fromFields env fields).map fun config =>
      some (applyMissingDefaults config (normalizeNpmrcText text configDir).2 projectDir) := by
  unfold loadNpmrc
  obtain ⟨htext, -⟩ := Option.filter_eq_some_iff.mp h
  rw [htext]
  simp only [hfields]

/-- The directories of a configuration that is loaded from a file. -/
theorem projectDirs_of_used (h : usedNpmrc env projectDir homeDir = some (configDir, text))
    (hfields : readFields (normalizeNpmrcText text configDir).1 = some fields) :
    projectDirs env projectDir homeDir = (fields.storeDir env).map fun _ =>
      (chosenDir projectDir "node_modules".toList (normalizeNpmrcText text configDir).2.modulesDir
          (fields.path "modules-dir".toList) env,
        chosenDir projectDir "node_modules/.pnpm".toList
          (normalizeNpmrcText text configDir).2.virtualStoreDir
          (fields.path "virtual-store-dir".toList) env) := by
  unfold projectDirs Npmrc.current
  unfold usedNpmrc at h
  cases hproject : readableNpmrc env projectDir with
  | some found =>
      rw [hproject] at h
      cases h
      simp only [loadNpmrc_eq_some hproject hfields, Npmrc.fromFields]
      cases fields.storeDir env with
      | error panic => rfl
      | ok storeDir => rfl
  | none =>
      rw [hproject] at h
      cases homeDir with
      | none => cases h
      | some dir =>
          obtain ⟨found, hfound, heq⟩ := Option.map_eq_some_iff.mp h
          cases heq
          simp only [loadNpmrc_eq_none hproject, bind, Except.bind, Option.getD_some,
            loadNpmrc_eq_some hfound hfields, Npmrc.fromFields]
          cases fields.storeDir env with
          | error panic => rfl
          | ok storeDir => rfl

/-- Without a file the directories are those of the project. -/
theorem projectDirs_of_unused (h : usedNpmrc env projectDir homeDir = none) :
    projectDirs env projectDir homeDir = (Npmrc.new env).map fun _ =>
      (join projectDir "node_modules".toList, join projectDir "node_modules/.pnpm".toList) := by
  unfold projectDirs Npmrc.current
  unfold usedNpmrc at h
  obtain ⟨hproject, hhome⟩ := Option.or_eq_none_iff.mp h
  have hload : loadNpmrc env projectDir projectDir = .ok none :=
    loadNpmrc_eq_none (Option.map_eq_none_iff.mp hproject)
  cases homeDir with
  | none =>
      simp only [hload, bind, Except.bind]
      cases Npmrc.new env with
      | error panic => rfl
      | ok config => rfl
  | some dir =>
      have hload' : loadNpmrc env projectDir dir = .ok none :=
        loadNpmrc_eq_none (Option.map_eq_none_iff.mp hhome)
      simp only [hload, bind, Except.bind, Option.getD_some, hload']
      cases Npmrc.new env with
      | error panic => rfl
      | ok config => rfl

theorem exists_fields_of_used (h : usedNpmrc env projectDir homeDir = some (configDir, text)) :
    ∃ fields, readFields (normalizeNpmrcText text configDir).1 = some fields := by
  have hreadable : readableNpmrc env configDir = some text := by
    obtain h | ⟨-, h⟩ := Option.or_eq_some_iff.mp h
    · obtain ⟨found, hfound, heq⟩ := Option.map_eq_some_iff.mp h
      cases heq
      exact hfound
    · obtain ⟨dir, -, h⟩ := Option.bind_eq_some_iff.mp h
      obtain ⟨found, hfound, heq⟩ := Option.map_eq_some_iff.mp h
      cases heq
      exact hfound
  obtain ⟨-, hread⟩ := Option.filter_eq_some_iff.mp hreadable
  exact Option.isSome_iff_exists.mp hread

omit [SerdeIni] in
/-- The store directory is found in all working directories or in none. -/
theorem storeDir_cases (fields : Fields) (env : ProcessEnv) :
    (fields.path "store-dir".toList = none ∧ (defaultStoreDir env).isOk = false ∧
      ∃ panic, ∀ cwd, fields.storeDir (env.startedIn cwd) = .error panic) ∨
    ((fields.path "store-dir".toList ≠ none ∨ (defaultStoreDir env).isOk = true) ∧
      ∀ cwd, ∃ dir, fields.storeDir (env.startedIn cwd) = .ok dir) := by
  have hdefault : ∀ cwd, defaultStoreDir (env.startedIn cwd) = defaultStoreDir env := fun _ => rfl
  unfold Fields.storeDir
  cases fields.path "store-dir".toList with
  | some path => exact Or.inr ⟨Or.inl (by simp), fun cwd => ⟨_, rfl⟩⟩
  | none =>
      cases hstore : defaultStoreDir env with
      | error panic => exact Or.inl ⟨rfl, rfl, panic, fun cwd => (hdefault cwd).trans hstore⟩
      | ok dir => exact Or.inr ⟨Or.inr rfl, fun cwd => ⟨dir, (hdefault cwd).trans hstore⟩⟩

omit [SerdeIni] in
/-- Where there is a directory for the store, a pair is found in all working directories
exactly when its parts are. Elsewhere nothing is found. -/
theorem storeDir_fixed_iff (fields : Fields) (env : ProcessEnv) (first second : Text → Text) :
    (∀ cwd cwd', isAbsolute cwd = true → isAbsolute cwd' = true →
      (fields.storeDir (env.startedIn cwd)).map (fun _ => (first cwd, second cwd)) =
        (fields.storeDir (env.startedIn cwd')).map fun _ => (first cwd', second cwd')) ↔
      (fields.path "store-dir".toList ≠ none ∨ (defaultStoreDir env).isOk = true →
        (∀ cwd cwd', isAbsolute cwd = true → isAbsolute cwd' = true → first cwd = first cwd') ∧
        ∀ cwd cwd', isAbsolute cwd = true → isAbsolute cwd' = true →
          second cwd = second cwd') := by
  obtain ⟨hnone, hdefault, panic, hpanic⟩ | ⟨hknown, hdir⟩ := storeDir_cases fields env
  · refine iff_of_true (fun cwd cwd' _ _ => ?_) fun h => ?_
    · rw [hpanic, hpanic]
      rfl
    · obtain h | h := h
      · exact absurd hnone h
      · rw [hdefault] at h
        cases h
  · have hmap : ∀ cwd (pair : Text × Text),
        (fields.storeDir (env.startedIn cwd)).map (fun _ => pair) = .ok pair := by
      intro cwd pair
      obtain ⟨dir, hdir⟩ := hdir cwd
      rw [hdir]
      rfl
    rw [forall_prop_of_true hknown]
    simp only [hmap, Except.ok.injEq, Prod.mk.injEq]
    constructor
    · intro h
      exact ⟨fun cwd cwd' hcwd hcwd' => (h cwd cwd' hcwd hcwd').1,
        fun cwd cwd' hcwd hcwd' => (h cwd cwd' hcwd hcwd').2⟩
    · intro h cwd cwd' hcwd hcwd'
      exact ⟨h.1 cwd cwd' hcwd hcwd', h.2 cwd cwd' hcwd hcwd'⟩

/-- The default configuration is made in all working directories or in none. -/
theorem Npmrc.new_fixed (env : ProcessEnv) (dirs : Text × Text) {cwd cwd' : Text}
    (hcwd : isAbsolute cwd = true) (hcwd' : isAbsolute cwd' = true) :
    (Npmrc.new (env.startedIn cwd)).map (fun _ => dirs) =
      (Npmrc.new (env.startedIn cwd')).map fun _ => dirs := by
  unfold Npmrc.new
  cases readFields [] with
  | none => rfl
  | some fields =>
      have hstore := (storeDir_fixed_iff fields env (fun _ => dirs.1) fun _ => dirs.2).mpr
        (by simp) cwd cwd' hcwd hcwd'
      have hmade : ∀ cwd, (Npmrc.fromFields (env.startedIn cwd) fields).map (fun _ => dirs) =
          (fields.storeDir (env.startedIn cwd)).map fun _ => dirs := by
        intro cwd
        rw [Npmrc.fromFields]
        cases fields.storeDir (env.startedIn cwd) with
        | error panic => rfl
        | ok storeDir => rfl
      exact (hmade cwd).trans (hstore.trans (hmade cwd').symm)

/-- A line before the first section header has the key. -/
def HasTopLine (key text : Text) : Prop :=
  ∃ line ∈ topLines text, ∃ value, valueOf key line = some value

/-- A line before the first section header gives the key an absolute path. -/
def SetAbsolute (key text : Text) : Prop :=
  ∃ line ∈ topLines text, ∃ value, valueOf key line = some value ∧ isAbsolute value = true

theorem setAbsolute_iff (htype : fieldType key = some .path)
    (hkey : ∃ c ∈ key.head?, c.isAlpha = true) (h : readFields text = some fields) :
    SetAbsolute key text ↔ ∃ path, fields.path key = some path ∧ isAbsolute path = true := by
  simp only [readFields_path htype hkey h]
  constructor
  · rintro ⟨line, hline, value, hvalue, habs⟩
    exact ⟨value, ⟨line, hline, hvalue⟩, habs⟩
  · rintro ⟨value, ⟨line, hline, hvalue⟩, habs⟩
    exact ⟨line, hline, value, hvalue, habs⟩

theorem hasTopLine_iff (htype : fieldType key = some .path)
    (hkey : ∃ c ∈ key.head?, c.isAlpha = true) (h : readFields text = some fields) :
    HasTopLine key text ↔ fields.path key ≠ none := by
  rw [Option.ne_none_iff_exists']
  simp only [readFields_path htype hkey h]
  constructor
  · rintro ⟨line, hline, value, hvalue⟩
    exact ⟨value, line, hline, hvalue⟩
  · rintro ⟨value, line, hline, hvalue⟩
    exact ⟨line, hline, value, hvalue⟩

/-- In whichever working directories the process is started, the project has the same
directories: exactly when, in the file that is used, each of the two keys that has a line
has one before the first section header, with an absolute path. Without a directory for the
store there is no configuration. -/
theorem projectDirs_fixed_iff (env : ProcessEnv) (projectDir : Text) (homeDir : Option Text)
    (hproject : isAbsolute projectDir = true)
    (hhome : ∀ dir, homeDir = some dir → isAbsolute dir = true) :
    (∀ cwd cwd', isAbsolute cwd = true → isAbsolute cwd' = true →
      projectDirs (env.startedIn cwd) projectDir homeDir =
        projectDirs (env.startedIn cwd') projectDir homeDir) ↔
      ∀ configDir text, usedNpmrc env projectDir homeDir = some (configDir, text) →
        HasTopLine "store-dir".toList (normalizeNpmrcText text configDir).1 ∨
            (defaultStoreDir env).isOk = true →
          ∀ key ∈ ["modules-dir".toList, "virtual-store-dir".toList], HasLine key text →
            SetAbsolute key (normalizeNpmrcText text configDir).1 := by
  cases hused : usedNpmrc env projectDir homeDir with
  | none =>
      refine iff_of_true (fun cwd cwd' hcwd hcwd' => ?_) (by simp)
      rw [projectDirs_of_unused ((usedNpmrc_startedIn hproject hhome cwd).trans hused),
        projectDirs_of_unused ((usedNpmrc_startedIn hproject hhome cwd').trans hused)]
      exact Npmrc.new_fixed env _ hcwd hcwd'
  | some used =>
      obtain ⟨configDir, text⟩ := used
      obtain ⟨fields, hfields⟩ := exists_fields_of_used hused
      have hdirs : ∀ cwd, projectDirs (env.startedIn cwd) projectDir homeDir = _ := fun cwd =>
        projectDirs_of_used ((usedNpmrc_startedIn hproject hhome cwd).trans hused) hfields
      have hfile : ∀ {P : Text → Text → Prop}, (∀ configDir' text',
          some (configDir, text) = some (configDir', text') → P configDir' text') ↔
            P configDir text := by
        intro P
        constructor
        · exact fun h => h configDir text rfl
        · rintro h configDir' text' heq
          cases heq
          exact h
      have hstore : HasTopLine "store-dir".toList (normalizeNpmrcText text configDir).1 ↔
          fields.path "store-dir".toList ≠ none := hasTopLine_iff rfl ⟨'s', rfl, rfl⟩ hfields
      have hmodules : SetAbsolute "modules-dir".toList (normalizeNpmrcText text configDir).1 ↔
          ∃ path, fields.path "modules-dir".toList = some path ∧ isAbsolute path = true :=
        setAbsolute_iff rfl ⟨'m', rfl, rfl⟩ hfields
      have hvirtual : SetAbsolute "virtual-store-dir".toList
          (normalizeNpmrcText text configDir).1 ↔
            ∃ path, fields.path "virtual-store-dir".toList = some path ∧ isAbsolute path = true :=
        setAbsolute_iff rfl ⟨'v', rfl, rfl⟩ hfields
      obtain ⟨hpresent, hpresent'⟩ := normalizeNpmrcText_presence text configDir
      have hfixed := chosenDir_fixed_iff projectDir "node_modules".toList
        (normalizeNpmrcText text configDir).2.modulesDir (fields.path "modules-dir".toList) env rfl
      have hfixed' := chosenDir_fixed_iff projectDir "node_modules/.pnpm".toList
        (normalizeNpmrcText text configDir).2.virtualStoreDir
        (fields.path "virtual-store-dir".toList) env rfl
      rw [hfile]
      simp only [hdirs, List.mem_cons, List.not_mem_nil, or_false, forall_eq_or_imp, forall_eq,
        hstore, hmodules, hvirtual, ← hpresent, ← hpresent', ← hfixed, ← hfixed']
      exact storeDir_fixed_iff fields env _ _

end Runs

section Sample

/-- What a line of an INI text is. -/
inductive IniLine
  | blank
  | header (name : Text)
  | value (key value : Text)
  | malformed

def iniLine (line : Text) : IniLine :=
  match (trimStart line).head? with
  | none => .blank
  | some c =>
      if c = ';' ∨ c = '#' then .blank
      else if c = '[' then
        if (trim line).getLast? = some ']' then .header ((trim line).drop 1).dropLast
        else .malformed
      else
        match keyValue line with
        | some (key, value) => .value key value
        | none => .malformed

def iniHeader (line : Text) : Bool := (trimStart line).head? = some '['

/-- The items of the lines behind a section header: the sections. -/
def sectionItems : List Text → Option (List (Text × IniValue))
  | [] => some []
  | line :: rest =>
      match iniLine line with
      | .blank => sectionItems rest
      | .header name => (sectionItems rest).map fun items => (name, .section) :: items
      | .value _ _ => sectionItems rest
      | .malformed => none

def topItems : List Text → Option (List (Text × IniValue))
  | [] => some []
  | line :: rest =>
      match iniLine line with
      | .blank => topItems rest
      | .header name => (sectionItems rest).map fun items => (name, .section) :: items
      | .value key value => (topItems rest).map fun items => (key, .value value) :: items
      | .malformed => none

/-- A line with a key begins with it. -/
theorem head?_of_valueOf {line key value : Text} {c : Char} (h : valueOf key line = some value)
    (hc : c ∈ key.head?) : (trimStart line).head? = some c := by
  obtain ⟨before, after, hsplit, hkey, -⟩ := valueOf_eq_some_iff.mp h
  obtain ⟨-, rfl⟩ := (Text.splitOnce_eq_some_iff '=' line before after).mp hsplit
  have hstart : trimStart (before ++ '=' :: after) = trimStart before ++ '=' :: after := by
    apply trimStart_append
    rintro d hd
    cases hd
    decide
  have hprefix : ∃ rest, trimStart before = trim before ++ rest := by
    obtain ⟨tail, htail⟩ := List.dropWhile_suffix (l := (trimStart before).reverse) isWhitespace
    refine ⟨tail.reverse, ?_⟩
    rw [trim, trimEnd, ← List.reverse_append, htail, List.reverse_reverse]
  obtain ⟨rest, hrest⟩ := hprefix
  cases key with
  | nil => cases hc
  | cons d key =>
      cases hc
      rw [hstart, hrest, hkey]
      rfl

theorem itemValues_sectionItems {key : Text} {all : List Text} {items : List (Text × IniValue)}
    (h : sectionItems all = some items) : itemValues key items = [] := by
  induction all generalizing items with
  | nil =>
      cases h
      rfl
  | cons line rest ih =>
      rw [sectionItems] at h
      split at h
      · exact ih h
      · obtain ⟨found, hfound, rfl⟩ := Option.map_eq_some_iff.mp h
        rw [itemValues, List.filterMap_cons_none (by simp)]
        exact ih hfound
      · exact ih h
      · cases h

/-- What the kind of a line says of it, for a key that begins with a letter. -/
def IniLine.Fits (key line : Text) : IniLine → Prop
  | .blank => iniHeader line = false ∧ valueOf key line = none
  | .header _ => iniHeader line = true
  | .value name written => iniHeader line = false ∧ keyValue line = some (name, written)
  | .malformed => True

theorem iniLine_fits {key : Text} (hkey : ∃ c ∈ key.head?, c.isAlpha = true) (line : Text) :
    (iniLine line).Fits key line := by
  obtain ⟨letter, hletter, halpha⟩ := hkey
  have hnone : (∀ c, (trimStart line).head? = some c → c.isAlpha = false) →
      valueOf key line = none := by
    intro hother
    cases hvalue : valueOf key line with
    | none => rfl
    | some value =>
        rw [hother letter (head?_of_valueOf hvalue hletter)] at halpha
        cases halpha
  unfold iniLine
  cases hhead : (trimStart line).head? with
  | none => exact ⟨by simp [iniHeader, hhead], hnone (by simp [hhead])⟩
  | some c =>
      simp only
      split
      · rename_i hcomment
        have hplain : c.isAlpha = false ∧ c ≠ '[' := by
          obtain rfl | rfl := hcomment
          · decide
          · decide
        refine ⟨by simp [iniHeader, hhead, hplain.2], hnone ?_⟩
        rintro d hd
        rw [hhead] at hd
        cases hd
        exact hplain.1
      · split
        · rename_i hheader
          split
          · exact decide_eq_true (hhead.trans (congrArg some hheader))
          · trivial
        · rename_i hheader
          cases hvalue : keyValue line with
          | none => trivial
          | some parts => exact ⟨by simp [iniHeader, hhead, hheader], hvalue⟩

theorem itemValues_topItems {key : Text} (hkey : ∃ c ∈ key.head?, c.isAlpha = true)
    {all : List Text} {items : List (Text × IniValue)} (h : topItems all = some items) :
    itemValues key items = (all.takeWhile fun line => !iniHeader line).filterMap (valueOf key) := by
  induction all generalizing items with
  | nil =>
      cases h
      rfl
  | cons line rest ih =>
      have hfits := iniLine_fits hkey line
      rw [topItems] at h
      cases hline : iniLine line with
      | blank =>
          rw [hline] at h hfits
          rw [List.takeWhile_cons_of_pos (by simp [hfits.1]), List.filterMap_cons_none hfits.2]
          exact ih h
      | header name =>
          rw [hline] at h hfits
          obtain ⟨found, hfound, rfl⟩ := Option.map_eq_some_iff.mp h
          have hheader : iniHeader line = true := hfits
          rw [List.takeWhile_cons_of_neg (by simp [hheader]), itemValues,
            List.filterMap_cons_none (by simp)]
          exact itemValues_sectionItems hfound
      | value name value =>
          rw [hline] at h hfits
          obtain ⟨found, hfound, rfl⟩ := Option.map_eq_some_iff.mp h
          have hvalue : valueOf key line = if name = key then some value else none := by
            rw [valueOf, hfits.2]
            rfl
          rw [List.takeWhile_cons_of_pos (by simp [hfits.1]), List.filterMap_cons, hvalue,
            ← ih hfound, itemValues, List.filterMap_cons]
          rfl
      | malformed =>
          rw [hline] at h
          cases h

/-- A reader of INI texts: lines with a key, comments and section headers. A list of patterns
is read from one value. -/
instance : SerdeIni where
  items text := topItems (lines text)
  patterns value := value.string.map fun s => [s]
  sectionHeader := iniHeader
  items_top _ _ _ h hkey := itemValues_topItems hkey h

/-- A project whose configuration file has a text, and no home directory. -/
def sampleEnv (text : Text) : ProcessEnv where
  currentDir := "/".toList
  files path := if path = "/project/.npmrc".toList then some text else none
  pnpmHome := some "/pnpm".toList
  xdgDataHome := none
  homeDir := none
  os := "linux".toList

theorem projectDirs_fixed_iff_line :
    projectDirs ((sampleEnv "modules-dir=app_modules".toList).startedIn "/a".toList)
        "/project".toList none =
      projectDirs ((sampleEnv "modules-dir=app_modules".toList).startedIn "/b".toList)
        "/project".toList none := by
  refine (projectDirs_fixed_iff (sampleEnv "modules-dir=app_modules".toList) "/project".toList none
    rfl (fun dir h => by cases h)).mpr ?_ "/a".toList "/b".toList rfl rfl
  have hused : usedNpmrc (sampleEnv "modules-dir=app_modules".toList) "/project".toList none =
      some ("/project".toList, "modules-dir=app_modules".toList) := by decide
  intro configDir text h _ key hkey hline
  rw [hused] at h
  cases h
  obtain rfl | rfl := List.mem_pair.mp hkey
  · exact ⟨"modules-dir=/project/app_modules".toList, by decide, "/project/app_modules".toList,
      by decide, rfl⟩
  · obtain ⟨line, hmem, value, hvalue⟩ := hline
    have hlines : lines "modules-dir=app_modules".toList = ["modules-dir=app_modules".toList] := by
      decide
    rw [hlines, List.mem_singleton] at hmem
    subst hmem
    have hnone : valueOf "virtual-store-dir".toList "modules-dir=app_modules".toList = none := by
      decide
    rw [hnone] at hvalue
    cases hvalue

/-- Behind a section header the modules directory is the one of the working directory. -/
theorem not_projectDirs_fixed_section :
    projectDirs ((sampleEnv "[config]\nmodules-dir=app_modules".toList).startedIn "/a".toList)
        "/project".toList none =
      .ok ("/a/node_modules".toList, "/project/node_modules/.pnpm".toList) ∧
    projectDirs ((sampleEnv "[config]\nmodules-dir=app_modules".toList).startedIn "/b".toList)
        "/project".toList none =
      .ok ("/b/node_modules".toList, "/project/node_modules/.pnpm".toList) := by
  constructor
  · rfl
  · rfl

end Sample

end Npnpm
